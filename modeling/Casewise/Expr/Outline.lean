import Casewise.Expr

/-! Patterns, expressions and definitions as outlines, and their equality up to spans. -/
namespace Casewise

namespace Pattern

def outline : Pattern → Outline
  | literal value span => .node "LiteralPattern" span [("value", .scalar value)]
  | wildcard span => .node "WildcardPattern" span []
  | foreign o => o

end Pattern

namespace Expr

mutual

def outline : Expr → Outline
  | int value span => .node "IntLiteral" span [("value", .scalar value)]
  | var name span => .node "Variable" span [("name", .scalar name)]
  | binary operator left right span =>
    .node "BinaryOp" span
      [("op", .scalar (.text operator)), ("left", left.outline), ("right", right.outline)]
  | call function argument span =>
    .node "Call" span [("function", .scalar function), ("argument", argument.outline)]
  | case scrutinee clauses span =>
    .node "CaseMatch" span
      [("scrutinee", scrutinee.outline), ("clauses", .list (clauseOutlines clauses))]
  | foreign o => o

def clauseOutlines : List (Clause Expr) → List Outline
  | [] => []
  | ⟨pattern, body, span⟩ :: clauses =>
    .node "Clause" span [("pattern", pattern.outline), ("body", body.outline)] ::
      clauseOutlines clauses

end

/-- Equality of expressions. Spans play no part in it. -/
def same (e f : Expr) : Bool := e.outline.same f.outline

end Expr

def Clause.outline (c : Clause Expr) : Outline :=
  .node "Clause" c.span [("pattern", c.pattern.outline), ("body", c.body.outline)]

theorem Expr.clauseOutlines_eq_map (cs : List (Clause Expr)) :
    clauseOutlines cs = cs.map Clause.outline := by
  induction cs with
  | nil => rfl
  | cons c cs ih => simp [clauseOutlines, ih, Clause.outline]

namespace Definition

def outline (f : Definition) : Outline :=
  .node "FunctionDef" f.span
    [("name", .scalar f.name), ("param", .scalar f.param),
      ("body", f.body.outline)]

def same (f g : Definition) : Bool := f.outline.same g.outline

end Definition

end Casewise
