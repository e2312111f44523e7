import Casewise.Proofs.Expr.Sameness
import Casewise.Proofs.Outline
import Casewise.Proofs.Program.Extents

/-! The nodes of a tree in preorder, and the lines that show them. The lines of a well-formed tree tell it apart
from all others: a node tells by its label how many nodes are right below it, except for a case, and there the
first line that is not deep enough ends the clauses. -/
namespace Casewise

namespace Expr

mutual

/-- The nodes below an expression, from the given depth on, each before those below it. -/
def beneath (depth : Nat) : Expr → List (Nat × Node)
  | binary _ l r _ => (depth, .expression l) :: l.beneath (depth + 1) ++ (depth, .expression r) :: r.beneath (depth + 1)
  | call _ a _ => (depth, .expression a) :: a.beneath (depth + 1)
  | case s cs _ => (depth, .expression s) :: s.beneath (depth + 1) ++ clausesBeneath depth cs
  | int _ _ | var _ _ | foreign _ => []

def clausesBeneath (depth : Nat) : List (Clause Expr) → List (Nat × Node)
  | [] => []
  | ⟨p, b, span⟩ :: cs =>
    (depth, .clause ⟨p, b, span⟩) :: (depth + 1, .pattern p) :: (depth + 1, .expression b) ::
      b.beneath (depth + 2) ++ clausesBeneath depth cs

end

end Expr

namespace Node

/-- A node and all nodes below it, each with its depth and before those below it. -/
def preorder (depth : Nat) (n : Node) : List (Nat × Node) :=
  (depth, n) :: match n with
    | definition f => (depth + 1, .expression f.body) :: f.body.beneath (depth + 2)
    | expression e => e.beneath (depth + 1)
    | clause c =>
      (depth + 1, .pattern c.pattern) :: (depth + 1, .expression c.body) :: c.body.beneath (depth + 2)
    | pattern _ => []

/-- Behind a node come its children, in order, each with what is below it. -/
theorem preorder_eq (depth : Nat) (n : Node) :
    n.preorder depth = (depth, n) :: n.children.flatMap (preorder (depth + 1)) := by
  have hclauses (d : Nat) (cs : List (Clause Expr)) :
      Expr.clausesBeneath d cs = (cs.map clause).flatMap (preorder d) := by
    induction cs with
    | nil => rfl
    | cons c cs ih =>
      rw [Expr.clausesBeneath, ih]
      rfl
  cases n with
  | definition f => simp [preorder, children]
  | clause c => simp [preorder, children]
  | pattern p => simp [preorder, children]
  | expression e =>
    cases e with
    | case s cs span => simp [preorder, children, Expr.beneath, hclauses]
    | _ => simp [preorder, children, Expr.beneath]

def label : Node → String
  | definition _ => "FunctionDef"
  | expression (.int _ _) => "IntLiteral"
  | expression (.var _ _) => "Variable"
  | expression (.binary _ _ _ _) => "BinaryOp"
  | expression (.call _ _ _) => "Call"
  | expression (.case _ _ _) => "CaseMatch"
  | clause _ => "Clause"
  | pattern (.literal _ _) => "LiteralPattern"
  | pattern (.wildcard _) => "WildcardPattern"
  | expression (.foreign _) | pattern (.foreign _) => ""

def values : Node → List Scalar
  | definition f => [f.name, f.param]
  | expression (.int v _) | pattern (.literal v _) => [v]
  | expression (.var x _) => [x]
  | expression (.binary operator _ _ _) => [.text operator]
  | expression (.call f _ _) => [f]
  | _ => []

def line (depth : Nat) (n : Node) : Outline.Line := ⟨depth, n.label, n.values, n.span⟩

end Node

def Program.preorder (p : Program) : List (Nat × Node) :=
  p.definitions.flatMap fun f => Node.preorder 0 (.definition f)

/-! A listing has the lines of the nodes in preorder. -/

def linesOf (nodes : List (Nat × Node)) : List Outline.Line := nodes.map fun x => x.2.line x.1

theorem linesOf_preorder (depth : Nat) (n : Node) : linesOf (n.preorder depth) =
    n.line depth :: n.children.flatMap fun m => linesOf (m.preorder (depth + 1)) := by
  rw [Node.preorder_eq, linesOf, List.map_cons, List.map_flatMap]
  rfl

theorem Pattern.WellFormed.lines {p : Pattern} (h : p.WellFormed) (depth : Nat) :
    p.outline.lines depth = linesOf ((Node.pattern p).preorder depth) := by
  cases h <;> rfl

theorem Expr.WellFormed.scalar?_outline {e : Expr} (h : e.WellFormed) : e.outline.scalar? = none := by
  cases h <;> rfl

theorem Pattern.WellFormed.scalar?_outline {p : Pattern} (h : p.WellFormed) : p.outline.scalar? = none := by
  cases h <;> rfl

theorem Clause.lines_outline {c : Clause Expr} (hp : c.pattern.WellFormed) (hb : c.body.WellFormed)
    (h : ∀ depth, c.body.outline.lines depth = linesOf ((Node.expression c.body).preorder depth))
    (depth : Nat) : c.outline.lines depth = linesOf ((Node.clause c).preorder depth) := by
  rw [linesOf_preorder, outline, Outline.lines_node]
  simp [Outline.scalars, hp.scalar?_outline, hb.scalar?_outline, hp.lines, h, Node.children, Node.line, Node.label,
    Node.values, Node.span]

theorem Expr.WellFormed.lines {e : Expr} (h : e.WellFormed) (depth : Nat) :
    e.outline.lines depth = linesOf ((Node.expression e).preorder depth) := by
  induction h generalizing depth with
  | int _ | var _ => rfl
  | binary _ hl hr ihl ihr =>
    rw [linesOf_preorder, outline, Outline.lines_node]
    simp [Outline.scalars, hl.scalar?_outline, hr.scalar?_outline, ihl, ihr, Node.children,
      Node.line, Node.label, Node.values, Node.span, span, Outline.lines]
  | call _ ha ih =>
    rw [linesOf_preorder, outline, Outline.lines_node]
    simp [Outline.scalars, ha.scalar?_outline, ih, Node.children, Node.line, Node.label,
      Node.values, Node.span, span, Outline.lines]
  | @case s cs span hs _ hpatterns hbodies ihs ihbodies =>
    have hclauses : (clauseOutlines cs).flatMap (·.lines (depth + 1)) =
        (cs.map Node.clause).flatMap fun m => linesOf (m.preorder (depth + 1)) := by
      rw [clauseOutlines_eq_map, List.flatMap_map, List.flatMap_map]
      exact List.flatMap_congr fun c hc =>
        Clause.lines_outline (hpatterns c hc) (hbodies c hc) (ihbodies c hc) (depth + 1)
    rw [linesOf_preorder, outline, Outline.lines_node]
    simp [Outline.scalars, hs.scalar?_outline, ihs, Node.children, Node.line, Node.label,
      Node.values, Node.span, Expr.span, Outline.lines_list, hclauses]

theorem Definition.WellFormed.lines {f : Definition} (h : f.WellFormed) (depth : Nat) :
    f.outline.lines depth = linesOf ((Node.definition f).preorder depth) := by
  rw [linesOf_preorder, outline, Outline.lines_node]
  simp [Outline.scalars, h.body.scalar?_outline, h.body.lines, Node.children, Node.line,
    Node.label, Node.values, Node.span, Outline.lines]

end Casewise
