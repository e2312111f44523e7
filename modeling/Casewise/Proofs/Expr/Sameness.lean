import Mathlib.Data.List.Forall2
import Casewise.Program

/-! Trees that are the same up to spans are put together from parts that are. -/
namespace Casewise

@[simp] theorem Scalar.same_self (v : Scalar) : v.same v := by
  cases v <;> simp [Scalar.same, Scalar.number?]

theorem Outline.same_self (o : Outline) : o.same o := by
  -- the fields of any node are compared as those of an unlabelled one
  apply @Outline.rec (fun o => o.same o) (fun fields => (node "" none fields).same (node "" none fields))
    (fun parts => (list parts).same (list parts)) (fun field => field.2.same field.2)
  · exact Scalar.same_self
  · intro label span fields ih
    change (label == label && (node "" none fields).same (node "" none fields)) = true
    rw [ih, beq_self_eq_true]
    rfl
  · exact fun parts ih => ih
  · rfl
  · intro field fields ihfield ih
    change (field.1 == field.1 && field.2.same field.2 &&
      (node "" none fields).same (node "" none fields)) = true
    rw [ihfield, ih, beq_self_eq_true]
    rfl
  · rfl
  · intro part parts ihpart ih
    change (part.same part && (list parts).same (list parts)) = true
    rw [ihpart, ih]
    rfl
  · exact fun name o ih => ih

namespace Pattern

/-- Equality of patterns. Spans play no part in it. -/
def Same (p q : Pattern) : Prop := p.outline.same q.outline

theorem same_literal_iff {v w : Scalar} {s t : Option Span} :
    Same (.literal v s) (.literal w t) ↔ v.same w := by
  change (true && (true && v.same w && true)) = true ↔ _
  simp

theorem same_literal (v : Scalar) (s t : Option Span) : Same (.literal v s) (.literal v t) :=
  same_literal_iff.mpr (Scalar.same_self v)

theorem same_wildcard (s t : Option Span) : Same (.wildcard s) (.wildcard t) := rfl

end Pattern

def SameClauses (cs ds : List (Clause Expr)) : Prop :=
  (Outline.list (Expr.clauseOutlines cs)).same (.list (Expr.clauseOutlines ds))

theorem SameClauses.nil : SameClauses [] [] := rfl

theorem sameClauses_cons_iff {c d : Clause Expr} {cs ds : List (Clause Expr)} :
    SameClauses (c :: cs) (d :: ds) ↔
      c.pattern.Same d.pattern ∧ c.body.same d.body ∧ SameClauses cs ds := by
  change ((true && (true && c.pattern.outline.same d.pattern.outline &&
    (true && c.body.same d.body && true))) && (Outline.list _).same (.list _)) = true ↔ _
  simp [Pattern.Same, SameClauses, and_assoc]

theorem SameClauses.cons {c d : Clause Expr} {cs ds : List (Clause Expr)}
    (hp : c.pattern.Same d.pattern) (hb : c.body.same d.body) (hcs : SameClauses cs ds) :
    SameClauses (c :: cs) (d :: ds) :=
  sameClauses_cons_iff.mpr ⟨hp, hb, hcs⟩

theorem SameClauses.forall₂ {cs ds : List (Clause Expr)} (h : SameClauses cs ds) :
    List.Forall₂ (fun c d => c.pattern.Same d.pattern ∧ c.body.same d.body) cs ds := by
  induction cs generalizing ds with
  | nil =>
    cases ds with
    | nil => exact .nil
    | cons d ds => cases h
  | cons c cs ih =>
    cases ds with
    | nil => cases h
    | cons d ds =>
      obtain ⟨hp, hb, hcs⟩ := sameClauses_cons_iff.mp h
      exact .cons ⟨hp, hb⟩ (ih hcs)

namespace Expr

variable {operator operator' : String} {v w : Scalar} {x y : Name} {e e' l l' r r' : Expr}
  {cs ds : List (Clause Expr)} {s t : Option Span}

theorem same_int_iff : (int v s).same (int w t) ↔ v.same w := by
  change (true && (true && v.same w && true)) = true ↔ _
  simp

theorem same_var_iff : (var x s).same (var y t) ↔ x.same y := by
  change (true && (true && x.same y && true)) = true ↔ _
  simp

theorem same_binary_iff : (binary operator l r s).same (binary operator' l' r' t) ↔
    operator = operator' ∧ l.same l' ∧ r.same r' := by
  change (true && (true && decide (Scalar.text operator = .text operator') && (true && l.same l' &&
    (true && r.same r' && true)))) = true ↔ _
  simp

theorem same_call_iff : (call x e s).same (call y e' t) ↔ x.same y ∧ e.same e' := by
  change (true && (true && x.same y && (true && e.same e' && true))) = true ↔ _
  simp

theorem same_case_iff : (case e cs s).same (case e' ds t) ↔ e.same e' ∧ SameClauses cs ds := by
  change (true && (true && e.same e' && (true && (Outline.list _).same (.list _) && true))) = true ↔ _
  simp [SameClauses]

theorem same_int (v : Scalar) (s t : Option Span) : (int v s).same (int v t) :=
  same_int_iff.mpr (Scalar.same_self v)

theorem same_var (name : Name) (s t : Option Span) : (var name s).same (var name t) :=
  same_var_iff.mpr (Scalar.same_self name)

theorem same_binary (operator : String) (s t : Option Span) (hl : l.same l') (hr : r.same r') :
    (binary operator l r s).same (binary operator l' r' t) :=
  same_binary_iff.mpr ⟨rfl, hl, hr⟩

theorem same_call (function : Name) (s t : Option Span) (he : e.same e') :
    (call function e s).same (call function e' t) :=
  same_call_iff.mpr ⟨Scalar.same_self function, he⟩

theorem same_case (s t : Option Span) (he : e.same e') (hcs : SameClauses cs ds) :
    (case e cs s).same (case e' ds t) :=
  same_case_iff.mpr ⟨he, hcs⟩

end Expr

theorem Definition.same_iff {f g : Definition} :
    f.same g ↔ f.name.same g.name ∧ f.param.same g.param ∧ f.body.same g.body := by
  change (true && (true && f.name.same g.name && (true && f.param.same g.param &&
    (true && f.body.same g.body && true)))) = true ↔ _
  simp

theorem Definition.same_mk {e e' : Expr} (name param : Name) (s t : Option Span) (he : e.same e') :
    Definition.same ⟨name, param, e, s⟩ ⟨name, param, e', t⟩ :=
  same_iff.mpr ⟨Scalar.same_self name, Scalar.same_self param, he⟩

theorem Program.forall₂_of_same {p q : Program} (h : p.same q) :
    List.Forall₂ (fun e d => e.1 = d.1 ∧ e.2.same d.2) p.entries q.entries := by
  obtain ⟨hkeys, hdefinitions⟩ := of_decide_eq_true h
  rw [List.all_eq_true] at hdefinitions
  unfold keys at hkeys
  rw [← List.forall₂_eq_eq_eq, List.forall₂_map_left_iff, List.forall₂_map_right_iff] at hkeys
  obtain ⟨hlength, hzip⟩ := List.forall₂_iff_zip.mp hkeys
  refine List.forall₂_iff_zip.mpr ⟨hlength, fun {e d} hed => ⟨hzip hed, ?_⟩⟩
  have hmem : (e.2, d.2) ∈ p.definitions.zip q.definitions := by
    unfold definitions
    rw [List.zip_map]
    exact List.mem_map_of_mem hed
  exact hdefinitions _ hmem

end Casewise
