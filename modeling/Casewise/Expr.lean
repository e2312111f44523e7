import Casewise.Outline

/-!
Syntax trees. A tree may also be put together by hand, so where a pattern or an expression belongs
there may stand something foreign, of which only its outline is known.
-/
namespace Casewise

inductive Pattern
  | literal (value : Scalar) (span : Option Span)
  | wildcard (span : Option Span)
  | foreign (outline : Outline)

structure Clause (Body : Type) where
  pattern : Pattern
  body : Body
  span : Option Span

/-- Expressions. The clauses of a case are tried in order. -/
inductive Expr
  | int (value : Scalar) (span : Option Span)
  | var (name : Name) (span : Option Span)
  | binary (operator : String) (left right : Expr) (span : Option Span)
  | call (function : Name) (argument : Expr) (span : Option Span)
  | case (scrutinee : Expr) (clauses : List (Clause Expr)) (span : Option Span)
  | foreign (outline : Outline)

structure Definition where
  name : Name
  param : Name
  body : Expr
  span : Option Span

namespace Pattern

def span : Pattern → Option Span
  | literal _ s | wildcard s => s
  | foreign _ => none

end Pattern

namespace Expr

/-- Induction on expressions; a case is reached from its scrutinee and all its bodies. -/
@[elab_as_elim, induction_eliminator]
theorem induct {motive : Expr → Prop}
    (int : ∀ value span, motive (.int value span))
    (var : ∀ name span, motive (.var name span))
    (binary : ∀ operator left right span, motive left → motive right →
      motive (.binary operator left right span))
    (call : ∀ function argument span, motive argument → motive (.call function argument span))
    (case : ∀ scrutinee clauses span, motive scrutinee → (∀ c ∈ clauses, motive c.body) →
      motive (.case scrutinee clauses span))
    (foreign : ∀ outline, motive (.foreign outline)) (e : Expr) : motive e := by
  apply @Expr.rec motive (fun cs => ∀ c ∈ cs, motive c.body) (fun c => motive c.body) <;> simp_all

def span : Expr → Option Span
  | int _ s | var _ s | binary _ _ _ s | call _ _ s | case _ _ s => s
  | foreign _ => none

mutual

/-- The nesting depth: 1 for a leaf, and one more than the deepest part for the rest. Clauses add
no level of their own, and patterns do not count. -/
def depth : Expr → Nat
  | binary _ l r _ => max l.depth r.depth + 1
  | call _ a _ => a.depth + 1
  | case s cs _ => max s.depth (bodiesDepth cs) + 1
  | _ => 1

def bodiesDepth : List (Clause Expr) → Nat
  | [] => 0
  | ⟨_, body, _⟩ :: cs => max body.depth (bodiesDepth cs)

end

theorem depth_pos (e : Expr) : 0 < e.depth := by
  cases e <;> simp [depth]

theorem depth_body_le {c : Clause Expr} {cs : List (Clause Expr)} (h : c ∈ cs) :
    c.body.depth ≤ bodiesDepth cs := by
  induction cs with
  | nil => simp at h
  | cons d cs ih =>
    rcases List.mem_cons.mp h with rfl | h
    · exact Nat.le_max_left _ _
    · exact Nat.le_trans (ih h) (Nat.le_max_right _ _)

end Expr

def Definition.arity (_ : Definition) : Nat := 1

end Casewise
