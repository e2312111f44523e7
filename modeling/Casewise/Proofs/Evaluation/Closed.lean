import Casewise.Proofs.Evaluation.Agreement
import Casewise.Proofs.Expr.Parts

/-! Closed programs cannot go wrong. Where every variable is the parameter of its function and every function
that is called is defined, evaluation can only fail for want of a clause, and where every case has a wildcard
it cannot fail at all. -/
namespace Casewise

/-- Every variable is the given one, and every function that is called has one of the given keys. -/
structure Expr.Closed (keys : List Name) (x : Name) (e : Expr) : Prop where
  bound : ∀ y span, .var y span ∈ e.parts → y = x
  calls : ∀ f b span, .call f b span ∈ e.parts → f ∈ keys

theorem Clause.Selects.not_matches {n : Int} {cs : List (Clause Expr)} (h : Selects n cs .none) :
    ∀ c ∈ cs, ¬ c.pattern.Matches n := by
  generalize hr : Option.none = r at h
  induction h with
  | none => simp
  | here _ => cases hr
  | later hc _ ih => exact List.forall_mem_cons.mpr ⟨hc, ih hr⟩

namespace Program

def Closed (p : Program) : Prop := ∀ g ∈ p.definitions, g.body.Closed p.keys g.param

/-- Every case in a body has a wildcard, at whatever place among its clauses. -/
def Exhaustive (p : Program) : Prop :=
  ∀ g ∈ p.definitions, ∀ s cs span, .case s cs span ∈ g.body.parts →
    ∃ c ∈ cs, ∃ place, c.pattern = .wildcard place

/-- A case in a body, with the given span, has no clause for the value. -/
def Lacks (p : Program) (n : Int) (span : Option Span) : Prop :=
  ∃ g ∈ p.definitions, ∃ s cs, .case s cs span ∈ g.body.parts ∧ ∀ c ∈ cs, ¬ c.pattern.Matches n

def OnlyLacks (p : Program) (result : Except Error Int) : Prop :=
  (∃ n, result = .ok n) ∨ ∃ n span, result = .error ⟨.noMatchingClause n, span⟩ ∧ p.Lacks n span

variable {p : Program} {x f : Name} {a n limit : Int} {e : Expr} {g : Definition} {span : Option Span}
  {result : Except Error Int}

theorem Exhaustive.not_lacks (hp : p.Exhaustive) : ¬ p.Lacks n span := by
  rintro ⟨g, hg, s, cs, hcase, hnone⟩
  obtain ⟨c, hc, place, hwildcard⟩ := hp g hg s cs span hcase
  exact hnone c hc (hwildcard ▸ .wildcard)

/-- What a part of a body comes to. A call goes on in another body, with another parameter. -/
theorem Evaluates.onlyLacks (h : p.Evaluates x a e result) (hp : p.Closed) (hg : g ∈ p.definitions)
    (hx : g.param = x) (he : e.parts ⊆ g.body.parts) : p.OnlyLacks result := by
  induction h generalizing g with
  | int _ _ | bound | binary _ _ _ _ => exact Or.inl ⟨_, rfl⟩
  | unbound hy =>
    have hbound := (hp g hg).bound _ _ (he (Expr.self_mem_parts _))
    exact absurd (hbound.trans hx) hy
  | left _ ih => exact ih hg hx (List.Subset.trans Expr.left_parts_subset he)
  | right _ _ _ ih => exact ih hg hx (List.Subset.trans Expr.right_parts_subset he)
  | argument _ ih => exact ih hg hx (List.Subset.trans Expr.argument_parts_subset he)
  | unknown _ hf _ =>
    have hkey := (hp g hg).calls _ _ _ (he (Expr.self_mem_parts _))
    exact absurd hkey (find?_eq_none_iff.mp hf)
  | call _ hf _ _ ih => exact ih (mem_definitions_of_find? hf) rfl (List.Subset.refl _)
  | scrutinee _ ih => exact ih hg hx (List.Subset.trans Expr.scrutinee_parts_subset he)
  | unmatched _ hselects _ =>
    exact Or.inr ⟨_, _, rfl, g, hg, _, _, he (Expr.self_mem_parts _), hselects.not_matches⟩
  | selected _ hselects _ _ ih =>
    exact ih hg hx (List.Subset.trans (Expr.body_parts_subset hselects.mem) he)

theorem Yields.onlyLacks (h : p.Yields f a result) (hp : p.Closed) (hf : f ∈ p.keys) : p.OnlyLacks result := by
  obtain ⟨n, _, hcalls⟩ := h
  unfold Calls at hcalls
  split at hcalls
  next hnone => exact absurd hf (find?_eq_none_iff.mp hnone)
  next g hg => exact hcalls.onlyLacks hp (mem_definitions_of_find? hg) rfl (List.Subset.refl _)

/-- A closed program comes to a word, or it lacks a clause for some value, or it exceeds the limit; an
exhaustive one lacks no clause. No variable is ever unbound, and no function unknown. -/
theorem evaluate_closed (hp : p.Proper) (hclosed : p.Closed) (hf : f ∈ p.keys) (a limit : Int) :
    let outcome := (p.evaluate f [.int a] limit).outcome
    ((∃ n, outcome = .ok n ∧ Word.IsWord n) ∨
      (∃ n span, outcome = .error (.of (.noMatchingClause n) span) ∧ p.Lacks n span) ∨
      ∃ span, outcome = .error (.of (.stackOverflow limit) span)) ∧
    (∀ x span, outcome ≠ .error (.of (.unboundVariable x) span)) ∧
    (∀ g span, outcome ≠ .error (.of (.unknownFunction g) span)) ∧
    (p.Exhaustive → (∃ n, outcome = .ok n ∧ Word.IsWord n) ∨
      ∃ span, outcome = .error (.of (.stackOverflow limit) span)) := by
  intro outcome
  have hends : (∃ n, outcome = .ok n ∧ Word.IsWord n) ∨
      (∃ n span, outcome = .error (.of (.noMatchingClause n) span) ∧ p.Lacks n span) ∨
      ∃ span, outcome = .error (.of (.stackOverflow limit) span) := by
    rcases evaluateOn_within hp f a .endless limit with ⟨result, hr, ho⟩ | ⟨_, ho, depth, span, rfl, hdepth⟩
    · rcases hr.onlyLacks hclosed hf with ⟨n, rfl⟩ | ⟨n, span, rfl, hlacks⟩
      · exact Or.inl ⟨n, ho, hr.isWord⟩
      · exact Or.inr (Or.inl ⟨n, span, ho, hlacks⟩)
    · obtain rfl : depth = limit := hdepth rfl
      exact Or.inr (Or.inr ⟨span, ho⟩)
  refine ⟨hends, fun x place => ?_, fun g place => ?_, fun hexhaustive => ?_⟩
  · rcases hends with ⟨n, ho, _⟩ | ⟨n, span, ho, _⟩ | ⟨span, ho⟩ <;> simp [ho, Fault.of]
  · rcases hends with ⟨n, ho, _⟩ | ⟨n, span, ho, _⟩ | ⟨span, ho⟩ <;> simp [ho, Fault.of]
  · rcases hends with hvalue | ⟨n, span, _, hlacks⟩ | hover
    · exact Or.inl hvalue
    · exact absurd hlacks hexhaustive.not_lacks
    · exact Or.inr hover

/-- Two functions that count down through each other, each with a parameter of its own, and a function
without a clause for 7. -/
theorem evaluate_closed_mutual :
    let x (name : String) : Expr := .var (.text name) none
    let n (k : Int) : Expr := .int (.int k) none
    let zero (k : Int) : Clause Expr := ⟨.literal (.int 0) none, n k, none⟩
    let other (f name : String) : Clause Expr :=
      ⟨.wildcard none, .call (.text f) (.binary "-" (x name) (n 1) none) none, none⟩
    let body (k : Int) (f name : String) : Expr := .case (x name) [zero k, other f name] none
    let even : Definition := ⟨.text "even", .text "x", body 1 "odd" "x", none⟩
    let odd : Definition := ⟨.text "odd", .text "y", body 0 "even" "y", none⟩
    let only : Definition := ⟨.text "f", .text "x", .case (x "x") [zero 1] none, none⟩
    let p := ofDefinitions [even, odd]
    let q := ofDefinitions [only]
    p.Proper ∧ p.Closed ∧ p.Exhaustive ∧ .text "even" ∈ p.keys ∧
      ((∃ n, (p.evaluate (.text "even") [.int 3] 9).outcome = .ok n ∧ Word.IsWord n) ∨
        ∃ span, (p.evaluate (.text "even") [.int 3] 9).outcome = .error (.of (.stackOverflow 9) span)) ∧
      q.Proper ∧ q.Closed ∧ .text "f" ∈ q.keys ∧ q.Lacks 7 none := by
  intro x n zero other body even odd only p q
  have hzero (k : Int) : (zero k).pattern.Proper ∧ (zero k).body.Proper := ⟨.literal rfl, .int rfl⟩
  have hother (f name : String) : (other f name).pattern.Proper ∧ (other f name).body.Proper :=
    ⟨.wildcard, .call (.binary (by simp) .var (.int rfl))⟩
  have hproper (k : Int) (f name : String) : (body k f name).Proper :=
    .case .var (by simp [hzero, hother]) (by simp [hzero, hother])
  have hclosed (k : Int) (f name : String) (hf : .text f ∈ p.keys) :
      (body k f name).Closed p.keys (.text name) := by
    constructor
    · simp [body, x, n, zero, other, Expr.parts, Expr.bodiesParts]
    · simp only [body, x, n, zero, other, Expr.parts, Expr.bodiesParts]
      simp +contextual [hf]
  have hall {P : Definition → Prop} (heven : P even) (hodd : P odd) : ∀ d ∈ p.definitions, P d :=
    List.forall_mem_cons.mpr ⟨heven, List.forall_mem_singleton.mpr hodd⟩
  have hp : p.Proper := hall (hproper 1 "odd" "x") (hproper 0 "even" "y")
  have hpclosed : p.Closed := hall (hclosed 1 "odd" "x" (by decide)) (hclosed 0 "even" "y" (by decide))
  have hexhaustive : p.Exhaustive := by
    apply hall
    · simp +contextual [even, body, x, n, zero, other, Expr.parts, Expr.bodiesParts]
    · simp +contextual [odd, body, x, n, zero, other, Expr.parts, Expr.bodiesParts]
  have hq : q.Proper := by
    refine List.forall_mem_singleton.mpr (.case .var ?_ ?_)
    · simp [hzero]
    · simp [hzero]
  have hqclosed : q.Closed := by
    refine List.forall_mem_singleton.mpr ⟨?_, ?_⟩
    · simp [only, x, n, zero, Expr.parts, Expr.bodiesParts]
    · simp [only, x, n, zero, Expr.parts, Expr.bodiesParts]
  have heven : .text "even" ∈ p.keys := by decide
  have hf : .text "f" ∈ q.keys := by decide
  have hfails : (q.evaluate (.text "f") [.int 7] 1).outcome = .error (.of (.noMatchingClause 7) none) := by rfl
  refine ⟨hp, hpclosed, hexhaustive, heven,
    (evaluate_closed hp hpclosed heven 3 9).2.2.2 hexhaustive, hq, hqclosed, hf, ?_⟩
  rcases (evaluate_closed hq hqclosed hf 7 1).1 with ⟨k, hk, _⟩ | ⟨k, span, hk, hlacks⟩ | ⟨span, hk⟩
  · cases hfails.symm.trans hk
  · cases hfails.symm.trans hk
    exact hlacks
  · cases hfails.symm.trans hk

end Program

end Casewise
