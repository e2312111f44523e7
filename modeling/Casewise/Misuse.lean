import Casewise.Outline

/-! What a caller can do wrong, as against what is wrong with a program of the language. -/
namespace Casewise

inductive Misuse
  | notExpression (found : Outline)
  | notPattern (found : Outline)
  /-- A pattern to be printed has no value. -/
  | noValue (found : Outline)
  | notNumber (found : Scalar)
  | unknownOperator (operator : String)
  | missingFunction (name : Name)
  | notInteger (kind : String)
  /-- Nothing stands where a part of a tree belongs. -/
  | missingPart
  | longNumeral (digits : Nat)
  | nullInPath
  /-- An evaluation whose limit on nested calls is no number. -/
  | noLimit
  /-- The stack ran out where nothing makes an error of the language of it. -/
  | exhausted
  | hugeLimit
  | lowLimit
  | deepLimit (limit : Int) (depth : Nat)
  | noWorkers
  | actorCount (count : Int)
  | noActors
  | stoppedActor
  | missingActor

/-- The most digits that a numeral in source text may have. -/
def maxDigits : Nat := 4300

namespace Misuse

private def kindOf : Outline → String
  | .scalar v => v.kind
  | .node label _ _ => label
  | .list _ => "tuple"

def message : Misuse → String
  | notExpression o => "not an expression node: " ++ o.describe
  | notPattern o => "not a pattern node: " ++ o.describe
  | noValue o => "'" ++ kindOf o ++ "' object has no attribute 'value'"
  | notNumber v => "unsupported operand type(s) for -: '" ++ v.kind ++ "' and 'int'"
  | unknownOperator op => Text.quoted op
  | missingFunction name => name.quoted
  | notInteger kind => "Kona arguments must be integers, got " ++ kind
  | longNumeral digits =>
    "Exceeds the limit (" ++ toString maxDigits ++ " digits) for integer string conversion: " ++
      "value has " ++ toString digits ++
      " digits; use sys.set_int_max_str_digits() to increase the limit"
  | missingPart => "must be called with a dataclass type or instance"
  | nullInPath => "embedded null byte"
  | noLimit => "can only concatenate list (not \x22int\x22) to list"
  | exhausted => "maximum recursion depth exceeded"
  | hugeLimit => "int too large to convert to C int"
  | lowLimit => "recursion limit must be greater or equal than 1"
  | deepLimit limit depth =>
    "cannot set the recursion limit to " ++ toString limit ++ " at the recursion depth " ++
      toString depth ++ ": the limit is too low"
  | noWorkers => "max_workers must be greater than 0"
  | actorCount count => "count must be at least 1, got " ++ toString count
  | noActors => "no evaluator actors given"
  | stoppedActor => ""
  | missingActor => "list index out of range"

end Misuse

end Casewise
