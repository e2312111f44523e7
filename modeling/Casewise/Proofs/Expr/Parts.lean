import Mathlib.Data.List.Forall2
import Casewise.Expr

/-! The expressions that an expression is made of. What is said of all variables, calls or cases in a body is
said of these, and each part hands it down to its own. -/
namespace Casewise.Expr

mutual

/-- All expressions inside an expression, and first itself. Patterns are none. -/
def parts : Expr → List Expr
  | binary operator l r span => binary operator l r span :: (l.parts ++ r.parts)
  | call f b span => call f b span :: b.parts
  | case s cs span => case s cs span :: (s.parts ++ bodiesParts cs)
  | e => [e]

def bodiesParts : List (Clause Expr) → List Expr
  | [] => []
  | ⟨_, body, _⟩ :: cs => body.parts ++ bodiesParts cs

end

variable {operator : String} {l r s b : Expr} {f : Name} {cs : List (Clause Expr)} {c : Clause Expr}
  {span : Option Span}

theorem self_mem_parts (e : Expr) : e ∈ e.parts := by
  cases e <;> simp [parts]

theorem left_parts_subset : l.parts ⊆ (binary operator l r span).parts :=
  List.subset_cons_of_subset _ (List.subset_append_left _ _)

theorem right_parts_subset : r.parts ⊆ (binary operator l r span).parts :=
  List.subset_cons_of_subset _ (List.subset_append_right _ _)

theorem argument_parts_subset : b.parts ⊆ (call f b span).parts :=
  List.subset_cons_self _ _

theorem scrutinee_parts_subset : s.parts ⊆ (case s cs span).parts :=
  List.subset_cons_of_subset _ (List.subset_append_left _ _)

theorem parts_subset_bodiesParts (hc : c ∈ cs) : c.body.parts ⊆ bodiesParts cs := by
  induction cs with
  | nil => cases hc
  | cons d cs ih =>
    rcases List.mem_cons.mp hc with rfl | hc
    · exact List.subset_append_left _ _
    · exact List.subset_append_of_subset_right _ (ih hc)

theorem exists_of_mem_bodiesParts {e : Expr} (he : e ∈ bodiesParts cs) : ∃ c ∈ cs, e ∈ c.body.parts := by
  induction cs with
  | nil => cases he
  | cons d cs ih =>
    rcases List.mem_append.mp he with he | he
    · exact ⟨d, List.mem_cons_self, he⟩
    · obtain ⟨c, hc, he⟩ := ih he
      exact ⟨c, List.mem_cons_of_mem d hc, he⟩

theorem body_parts_subset (hc : c ∈ cs) : c.body.parts ⊆ (case s cs span).parts :=
  List.subset_cons_of_subset _ (List.subset_append_of_subset_right _ (parts_subset_bodiesParts hc))

end Casewise.Expr
