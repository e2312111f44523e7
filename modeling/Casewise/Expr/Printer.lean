import Casewise.Expr
import Casewise.Misuse

/-!
Canonical source text of expressions. Parentheses stand only where reading needs them: an operator
binds its left operand as loosely as itself and its right operand more tightly, an argument is an
atom, and a case is in parentheses everywhere but at the top.
-/
namespace Casewise

namespace Pattern

/-- The text of a pattern. An integer literal in its place is printed like one. -/
def format : Pattern → Except Misuse String
  | wildcard _ => .ok "_"
  | literal value _ => .ok value.plain
  | foreign (.node "IntLiteral" _ [(_, .scalar value)]) => .ok value.plain
  | foreign o => .error (.noValue o)

end Pattern

namespace Expr

def precedence? : String → Option Int
  | "+" | "-" => some 1
  | "*" => some 2
  | _ => none

def applicationPrecedence : Int := 3

def enclose (demanded own : Int) (text : String) : String :=
  if demanded > own then "(" ++ text ++ ")" else text

mutual

def format : Expr → Int → Except Misuse String
  | int value _, _ => .ok value.plain
  | var name _, _ => .ok name.plain
  | call function argument _, demanded => do
    let text := function.plain ++ " " ++ (← argument.format (applicationPrecedence + 1))
    return enclose demanded applicationPrecedence text
  | binary operator left right _, demanded =>
    match precedence? operator with
    | none => .error (.unknownOperator operator)
    | some own => do
      let left ← left.format own
      let right ← right.format (own + 1)
      return enclose demanded own (left ++ " " ++ operator ++ " " ++ right)
  | case scrutinee clauses _, demanded => do
    let clauses ← formatClauses clauses
    let scrutinee ← scrutinee.format 1
    return enclose demanded 0 ("case " ++ scrutinee ++ " in " ++ " | ".intercalate clauses)
  | foreign o, _ => .error (.notExpression o)

/-- The texts of clauses. A case in a body is in parentheses, so no clause is taken for its own. -/
def formatClauses : List (Clause Expr) → Except Misuse (List String)
  | [] => .ok []
  | ⟨pattern, body, _⟩ :: clauses => do
    let pattern ← pattern.format
    let body ← body.format 1
    return (pattern ++ " => " ++ body) :: (← formatClauses clauses)

end

end Expr

end Casewise
