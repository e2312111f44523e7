import Casewise.Scalar
import Casewise.Source.Span

/-! Tokens: what kind they are of, what they carry, and where they stand. -/
namespace Casewise

inductive Token.Kind
  | identifier
  | integer
  | keyword
  | operator
  | punctuation
  | eof
  /-- A kind that no source text has. -/
  | other (name : String)
deriving DecidableEq, Repr

structure Token where
  kind : Token.Kind
  value : Scalar
  span : Span
deriving DecidableEq, Repr

namespace Token

namespace Kind

def name : Kind → String
  | identifier => "IDENTIFIER"
  | integer => "INTEGER"
  | keyword => "KEYWORD"
  | operator => "OPERATOR"
  | punctuation => "PUNCTUATION"
  | eof => "EOF"
  | other name => name

def ofName (name : String) : Kind :=
  ([identifier, integer, keyword, operator, punctuation, eof].find? (·.name = name)).getD
    (other name)

end Kind

def endOf (span : Span) : Token := ⟨.eof, .absent, span⟩

def is (t : Token) (kind : Kind) (text : String) : Bool :=
  t.kind = kind ∧ t.value = .text text

/-- The token as a token listing shows it. -/
def text (t : Token) : String := t.kind.name ++ "(" ++ t.value.plain ++ ")"

/-- The token as an error message calls it. -/
def describe (t : Token) : String :=
  match t.kind with
  | .eof => "end of input"
  | .integer => "integer " ++ t.value.plain
  | .identifier => "identifier '" ++ t.value.plain ++ "'"
  | _ => "'" ++ t.value.plain ++ "'"

end Token

end Casewise
