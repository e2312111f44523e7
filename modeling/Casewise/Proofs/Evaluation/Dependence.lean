import Casewise.Proofs.Evaluation.Correspondence

/-! What an evaluation depends on. A set of functions that calls do not lead out of is all that an evaluation
of one of them ever looks at. -/
namespace Casewise

namespace Program

/-- Whatever is called in a function under one of the keys has one of the keys. -/
def Encloses (p : Program) (keys : Set Name) : Prop :=
  ∀ g ∈ keys, ∀ d, p.find? g = some d → ∀ f b span, .call f b span ∈ d.body.parts → f ∈ keys

variable {p q : Program} {keys : Set Name} {f : Name}

theorem Encloses.corresponds (h : p.Encloses keys) (hagree : ∀ g ∈ keys, p.find? g = q.find? g) :
    p.Corresponds keys True q := by
  intro g hg
  have hq : q.find? g = p.find? g := (hagree g hg).symm
  cases hp : p.find? g with
  | none => exact Or.inl ⟨rfl, hq.trans hp⟩
  | some d => exact Or.inr ⟨d, d, rfl, hq.trans hp, rfl, Expr.corresponds_self d.param (h g hg d hp), fun _ => rfl⟩

/-- Programs that agree on a set of keys which calls do not lead out of run every function of the set alike. The
stack that is asked for is the one thing that the other functions count for. -/
theorem evaluate_depends (hp : p.Encloses keys) (hf : f ∈ keys)
    (hagree : ∀ g ∈ keys, p.find? g = q.find? g) (a limit : Int) :
    (p.evaluate f [.int a] limit).outcome = (q.evaluate f [.int a] limit).outcome ∧
    Call.log (p.evaluate f [.int a] limit).calls = Call.log (q.evaluate f [.int a] limit).calls ∧
    (∀ stack, p.evaluateOn stack f [.int a] limit = q.evaluateOn stack f [.int a] limit) ∧
    (∀ runtime : Runtime, 1 ≤ limit → runtime.Affords p limit → runtime.Affords q limit →
      p.execute runtime f [.int a] limit = q.execute runtime f [.int a] limit) := by
  have hstacks (stack : Stack) :
      p.evaluateOn stack f [.int a] limit = q.evaluateOn stack f [.int a] limit :=
    ((hp.corresponds hagree).evaluateOn_agrees hf stack [.int a] limit).eq
  have heq : p.evaluate f [.int a] limit = q.evaluate f [.int a] limit := hstacks .endless
  refine ⟨by rw [heq], by rw [heq], hstacks, fun runtime hlimit hpmax hqmax => ?_⟩
  rw [execute_eq_evaluate hpmax f a hlimit, execute_eq_evaluate hqmax f a hlimit, heq]

/-- A function is put in front, one is redefined, the others change places, and one that is called is missing
from both programs. -/
theorem evaluate_depends_missing :
    let x : Expr := .var (.text "x") none
    let call (f : String) (e : Expr) : Expr := .call (.text f) e none
    let one : Clause Expr := ⟨.literal (.int 1) none, call "none" x, none⟩
    let f : Definition := ⟨.text "f", .text "x", call "g" x, none⟩
    let g : Definition := ⟨.text "g", .text "x", .case x [one, ⟨.wildcard none, call "f" x, none⟩] none, none⟩
    let h (e : Expr) : Definition := ⟨.text "h", .text "x", e, none⟩
    let new : Definition := ⟨.text "new", .text "x", x, none⟩
    let p := ofDefinitions [f, g, h x]
    let q := ofDefinitions [new, g, h (call "f" x), f]
    let keys : Set Name := {.text "f", .text "g", .text "none"}
    let runtime : Runtime := ⟨1000, 10, by decide, by decide⟩
    p.Encloses keys ∧ .text "f" ∈ keys ∧ (∀ key ∈ keys, p.find? key = q.find? key) ∧
      (q.evaluate (.text "f") [.int 1] 2).outcome = .error (.of (.unknownFunction (.text "none")) none) ∧
      (1 : Int) ≤ 2 ∧ runtime.Affords p 2 ∧ runtime.Affords q 2 ∧
      p.execute runtime (.text "f") [.int 1] 2 = q.execute runtime (.text "f") [.int 1] 2 := by
  intro x call one f g h new p q keys runtime
  have hencloses : p.Encloses keys := by
    rintro key (rfl | rfl | rfl) d hd
    · cases hd
      simp +contextual [f, x, call, keys, Expr.parts]
    · cases hd
      simp +contextual [g, one, x, call, keys, Expr.parts, Expr.bodiesParts, or_imp]
    · cases hd
  have hf : .text "f" ∈ keys := Or.inl rfl
  have hagree : ∀ key ∈ keys, p.find? key = q.find? key := by
    rintro key (rfl | rfl | rfl) <;> rfl
  have hp : runtime.Affords p 2 := ⟨by decide, by decide, by decide⟩
  have hq : runtime.Affords q 2 := ⟨by decide, by decide, by decide⟩
  obtain ⟨houtcome, _, _, hexecute⟩ := evaluate_depends hencloses hf hagree 1 2
  exact ⟨hencloses, hf, hagree, houtcome.symm.trans (by rfl), by decide, hp, hq, hexecute runtime (by decide) hp hq⟩

end Program

end Casewise
