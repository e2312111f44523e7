import Casewise.Error

/-! The calls of an evaluation, as a forest, and the log that shows it. -/
namespace Casewise

/-- A call: the function, the argument, the calls made on its behalf, and the result if it came to
one. -/
inductive Call
  | node (function : Name) (argument : Int) (inner : List Call) (result : Option Int)

namespace Call

def margin (around : Nat) : String := String.ofList (List.replicate (2 * around) ' ')

def entry (around : Nat) (function : Name) (argument : Int) : String :=
  margin around ++ "call " ++ function.plain ++ " " ++ toString argument

def exit (around : Nat) (function : Name) (argument result : Int) : String :=
  margin around ++ function.plain ++ " " ++ toString argument ++ " = " ++ toString result

mutual

/-- The log of a call: its entry, the calls inside it, and its exit if there is one. -/
def lines (around : Nat) : Call → List String
  | node function argument inner result =>
    entry around function argument :: linesOf (around + 1) inner ++
      (result.map (exit around function argument)).toList

def linesOf (around : Nat) : List Call → List String
  | [] => []
  | call :: calls => call.lines around ++ linesOf around calls

end

def log (calls : List Call) : List String :=
  (linesOf 0 calls).map ("interpreter: " ++ ·)

end Call

structure Run (α : Type) where
  calls : List Call
  outcome : Except Fault α

namespace Run

variable {α β : Type}

def value (a : α) : Run α := ⟨[], .ok a⟩

def fault (f : Fault) : Run α := ⟨[], .error f⟩

/-- Goes on with a value. Nothing follows a fault. -/
def andThen (r : Run α) (next : α → Run β) : Run β :=
  match r.outcome with
  | .ok a => ⟨r.calls ++ (next a).calls, (next a).outcome⟩
  | .error f => ⟨r.calls, .error f⟩

instance : Monad Run where
  pure := value
  bind := andThen

def enter (function : Name) (argument : Int) (body : Run Int) : Run Int :=
  ⟨[.node function argument body.calls body.outcome.toOption], body.outcome⟩

theorem bind_eq (r : Run α) (next : α → Run β) : r >>= next = r.andThen next := rfl

@[simp] theorem andThen_value (a : α) (next : α → Run β) : (value a).andThen next = next a := rfl

@[simp] theorem andThen_fault (f : Fault) (next : α → Run β) :
    (fault f : Run α).andThen next = fault f := rfl

end Run

end Casewise
