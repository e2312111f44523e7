import Casewise.Text.Quoted

/-! Single values, as tokens and the fields of syntax trees carry them. -/
namespace Casewise

inductive Scalar
  | text (s : String)
  | int (n : Int)
  | truth (b : Bool)
  | absent
deriving DecidableEq, Repr

namespace Scalar

def plain : Scalar → String
  | text s => s
  | int n => toString n
  | truth b => if b then "True" else "False"
  | absent => "None"

def quoted : Scalar → String
  | text s => Text.quoted s
  | v => v.plain

/-- The integer that a value counts as. A truth value counts as 0 or 1. -/
def number? : Scalar → Option Int
  | int n => some n
  | truth b => some (if b then 1 else 0)
  | _ => none

def kind : Scalar → String
  | text _ => "str"
  | int _ => "int"
  | truth _ => "bool"
  | absent => "NoneType"

/-- Two numbers are the same if they count as the same integer, other values if they are equal. -/
def same (v w : Scalar) : Bool :=
  match v.number?, w.number? with
  | some m, some n => m == n
  | _, _ => decide (v = w)

end Scalar

/-- What a function or a variable is called. A word of a source text is a text, but a token put
together by hand may carry something else, and then so does the name. -/
abbrev Name := Scalar

end Casewise
