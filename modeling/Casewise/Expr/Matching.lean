import Casewise.Expr
import Casewise.Error
import Casewise.Word

/-! Patterns against values: the first clause that matches is chosen, whatever follows it. -/
namespace Casewise

def Scalar.word (v : Scalar) : Except Misuse Int :=
  match v.number? with
  | some n => .ok (Word.wrap n)
  | none => .error (.notNumber v)

/-- Whether a value matches. A literal is reduced to a word first, the value is not. -/
def Pattern.accepts (value : Int) : Pattern → Except Misuse Bool
  | wildcard _ => .ok true
  | literal v _ => return (← v.word) = value
  | foreign o => .error (.notPattern o)

def Clause.select {Body : Type} (value : Int) :
    List (Clause Body) → Except Misuse (Option (Clause Body))
  | [] => .ok none
  | clause :: clauses => do
    if ← clause.pattern.accepts value then return some clause
    else select value clauses

end Casewise
