import Casewise.Misuse
import Casewise.Source.Span

/-! The errors of the language: their causes, families, names and wording. -/
namespace Casewise

inductive Error.Family
  | lexical
  | grammatical
  | evaluation
deriving DecidableEq, Repr

/-- Why a source text is refused or an evaluation ends without a value. -/
inductive Error.Cause
  | unexpectedChar (char : String)
  | unterminatedComment
  | unexpectedToken (expected found : String)
  | duplicateFunction (name : Name)
  | emptyCaseBody
  | unknownFunction (name : Name)
  | arityMismatch (name : Name) (expected got : Int)
  | noMatchingClause (value : Int)
  | unboundVariable (name : Name)
  | stackOverflow (depth : Int)
  /-- An error of which only the family, if any, and the message are known. -/
  | other (family : Option Error.Family) (message : String)
deriving DecidableEq, Repr

structure Error where
  cause : Error.Cause
  span : Option Span
deriving DecidableEq, Repr

namespace Error

def Family.name : Family → String
  | lexical => "LexError"
  | grammatical => "ParseError"
  | evaluation => "EvalError"

namespace Cause

def family? : Cause → Option Family
  | unexpectedChar _ | unterminatedComment => some .lexical
  | unexpectedToken _ _ | duplicateFunction _ | emptyCaseBody => some .grammatical
  | unknownFunction _ | arityMismatch _ _ _ | noMatchingClause _ | unboundVariable _
  | stackOverflow _ => some .evaluation
  | other family _ => family

def kind : Cause → String
  | unexpectedChar _ => "UnexpectedChar"
  | unterminatedComment => "UnterminatedComment"
  | unexpectedToken _ _ => "UnexpectedToken"
  | duplicateFunction _ => "DuplicateFunction"
  | emptyCaseBody => "EmptyCaseBody"
  | unknownFunction _ => "UnknownFunction"
  | arityMismatch _ _ _ => "ArityMismatch"
  | noMatchingClause _ => "NoMatchingClause"
  | unboundVariable _ => "UnboundVariable"
  | stackOverflow _ => "StackOverflow"
  | other (some family) _ => family.name
  | other none _ => "KonaError"

def message : Cause → String
  | unexpectedChar char => "unexpected character " ++ Text.quoted char
  | unterminatedComment => "comment opened with '(*' is never closed"
  | unexpectedToken expected found => "expected " ++ expected ++ ", found " ++ found
  | duplicateFunction name => "function '" ++ name.plain ++ "' is defined more than once"
  | emptyCaseBody => "case expression has no clauses"
  | unknownFunction name => "no function named '" ++ name.plain ++ "'"
  | arityMismatch name expected got =>
    "'" ++ name.plain ++ "' takes " ++ toString expected ++ " argument(s), got " ++ toString got
  | noMatchingClause value => "no case clause matches value " ++ toString value
  | unboundVariable name => "unbound variable '" ++ name.plain ++ "'"
  | stackOverflow depth => "call depth exceeded " ++ toString depth
  | other _ message => message

end Cause

def kind (e : Error) : String := e.cause.kind

def message (e : Error) : String := e.cause.message

def text (e : Error) : String :=
  match e.span with
  | some span => e.kind ++ " at " ++ span.locator ++ ": " ++ e.message
  | none => e.kind ++ ": " ++ e.message

end Error

/-- Anything that ends an operation early: an error of the language or a misuse. -/
inductive Fault
  | error (e : Error)
  | misuse (m : Misuse)

def Fault.of (cause : Error.Cause) (span : Option Span) : Fault := .error ⟨cause, span⟩

end Casewise
