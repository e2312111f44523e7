import Casewise.Proofs.Evaluation.Completeness

/-! Evaluation agrees with the meaning of programs. The limit and the stack only decide whether a run
overflows, and a program that means nothing overflows under every limit. -/
namespace Casewise

namespace Program

variable {p : Program} {f : Name} {a limit depth : Int} {result result' : Except Error Int}
  {stack : Stack} {span : Option Span}

theorem Yields.not_overflow (h : p.Yields f a result) :
    result ≠ .error ⟨.stackOverflow depth, span⟩ := by
  obtain ⟨n, _, hcalls⟩ := h
  unfold Calls at hcalls
  split at hcalls
  · simp [hcalls]
  · exact hcalls.not_overflow

theorem Yields.isWord {n : Int} (h : p.Yields f a (.ok n)) : Word.IsWord n := by
  obtain ⟨k, hk, hcalls⟩ := h
  unfold Calls at hcalls
  split at hcalls
  · cases hcalls
  · exact hcalls.isWord hk.1

theorem entry_int (p : Program) (f : Name) (a : Int) : p.entry f [.int a] =
    match p.find? f with
    | none => .error (.of (.unknownFunction f) none)
    | some g => .ok (g, Word.wrap a) := by
  unfold entry
  cases p.find? f <;> rfl

theorem evaluateOn_of_find?_none (hf : p.find? f = none) :
    p.evaluateOn stack f [.int a] limit = .fault (.of (.unknownFunction f) none) := by
  simp only [evaluateOn, entry_int, hf]

theorem evaluateOn_of_find? {g : Definition} (hf : p.find? f = some g) :
    p.evaluateOn stack f [.int a] limit =
      match stack.take? Expr.callFrames with
      | some rest => p.apply limit limit.toNat rest g (Word.wrap a) none
      | none => .fault (.of (.stackOverflow 1) g.span) := by
  cases htake : stack.take? Expr.callFrames <;> simp only [evaluateOn, entry_int, hf, htake]

theorem evaluateOn_within (hp : p.Proper) (f : Name) (a : Int) (stack : Stack) (limit : Int) :
    (p.evaluateOn stack f [.int a] limit).Within limit stack (p.Yields f a) := by
  cases hf : p.find? f with
  | none =>
    rw [evaluateOn_of_find?_none hf]
    exact Run.within_fault ⟨Word.wrap a, Word.represents_wrap a, by rw [Calls, hf]⟩
  | some g =>
    have hyields : ∀ result, p.Evaluates g.param (Word.wrap a) g.body result → p.Yields f a result :=
      fun result h => ⟨Word.wrap a, Word.represents_wrap a, by rw [Calls, hf]; exact h⟩
    rw [evaluateOn_of_find? hf]
    refine Run.within_take? ⟨1, g.span, rfl⟩ fun rest => ?_
    exact (hp.apply_within limit _ rest (hp.of_find? hf) (Word.isWord_wrap a) none).mono hyields

theorem Yields.exists_evaluateOn (hp : p.Proper) (h : p.Yields f a result) :
    ∃ k : Nat, ∀ limit stack, (k : Int) ≤ limit → stack.Holds k →
      (p.evaluateOn stack f [.int a] limit).outcome = result.mapError Fault.error := by
  obtain ⟨n, hn, hcalls⟩ := h
  unfold Calls at hcalls
  split at hcalls
  next hf =>
    refine ⟨0, fun limit stack _ _ => ?_⟩
    rw [evaluateOn_of_find?_none hf, hcalls]
    rfl
  next g hf =>
    obtain ⟨k, hk⟩ := hcalls.exists_reaches hp (hp.of_find? hf) hn.1
    refine ⟨k + Expr.callFrames, fun limit stack hlimit hstack => ?_⟩
    obtain ⟨rest, htake, hrest⟩ := hstack.take?
    have hone : Expr.callFrames = 1 := rfl
    rw [evaluateOn_of_find? hf, htake, ← hn.eq_wrap]
    exact Reaches.apply_outcome hk (by omega) hrest

private theorem mapError_injective (h : result.mapError Fault.error = result'.mapError Fault.error) :
    result = result' := by
  cases result <;> cases result' <;> cases h <;> rfl

/-- At most one result: a common limit reaches them both. -/
theorem Yields.unique (hp : p.Proper) (h : p.Yields f a result) (h' : p.Yields f a result') :
    result = result' := by
  obtain ⟨j, hj⟩ := h.exists_evaluateOn hp
  obtain ⟨k, hk⟩ := h'.exists_evaluateOn hp
  have hleft := hj (max j k : Nat) .endless (by omega) trivial
  have hright := hk (max j k : Nat) .endless (by omega) trivial
  exact mapError_injective (hleft.symm.trans hright)

theorem yields_of_evaluate (hp : p.Proper)
    (h : (p.evaluate f [.int a] limit).outcome = result.mapError Fault.error)
    (hresult : ∀ depth span, result ≠ .error ⟨.stackOverflow depth, span⟩) : p.Yields f a result := by
  rcases evaluateOn_within hp f a .endless limit with ⟨r, hr, ho⟩ | ⟨fault, ho, depth, span, rfl, _⟩
  · rwa [mapError_injective (h.symm.trans ho)]
  · have hover : result.mapError Fault.error =
        (Except.error ⟨.stackOverflow depth, span⟩ : Except Error Int).mapError Fault.error :=
      h.symm.trans ho
    exact absurd (mapError_injective hover) (hresult depth span)

theorem yields_iff_evaluate (hp : p.Proper) : p.Yields f a result ↔
    (∃ limit, (p.evaluate f [.int a] limit).outcome = result.mapError Fault.error) ∧
      ∀ depth span, result ≠ .error ⟨.stackOverflow depth, span⟩ := by
  constructor
  · intro h
    obtain ⟨k, hk⟩ := h.exists_evaluateOn hp
    exact ⟨⟨k, hk k .endless (Int.le_refl _) trivial⟩, fun _ _ => h.not_overflow⟩
  · rintro ⟨⟨limit, h⟩, hresult⟩
    exact yields_of_evaluate hp h hresult

theorem not_yields_iff_evaluate (hp : p.Proper) : (¬ ∃ result, p.Yields f a result) ↔
    ∀ limit, ∃ span,
      (p.evaluate f [.int a] limit).outcome = .error (.of (.stackOverflow limit) span) := by
  constructor
  · intro hnone limit
    rcases evaluateOn_within hp f a .endless limit with ⟨r, hr, _⟩ | ⟨_, ho, depth, span, rfl, hdepth⟩
    · exact absurd ⟨r, hr⟩ hnone
    · exact ⟨span, hdepth rfl ▸ ho⟩
  · rintro hover ⟨result, hr⟩
    obtain ⟨k, hk⟩ := hr.exists_evaluateOn hp
    obtain ⟨span, hspan⟩ := hover k
    have ho := (hk k .endless (Int.le_refl _) trivial).symm.trans hspan
    have heq : result = .error ⟨.stackOverflow k, span⟩ := mapError_injective ho
    exact hr.not_overflow heq

/-- Evaluation implements the meaning of programs. Every run ends in it or overflows; a limit and a
stack that are large enough reach it; it is what the runs that do not overflow have in common, and
without it every limit is exceeded. -/
theorem evaluate_agrees (hp : p.Proper) (f : Name) (a : Int) :
    (∀ stack limit, (p.evaluateOn stack f [.int a] limit).Within limit stack (p.Yields f a)) ∧
    (∀ result, p.Yields f a result → ∃ k : Nat, ∀ limit stack, (k : Int) ≤ limit → stack.Holds k →
      (p.evaluateOn stack f [.int a] limit).outcome = result.mapError Fault.error) ∧
    (∀ result, p.Yields f a result ↔
      (∃ limit, (p.evaluate f [.int a] limit).outcome = result.mapError Fault.error) ∧
        ∀ depth span, result ≠ .error ⟨.stackOverflow depth, span⟩) ∧
    (∀ result result', p.Yields f a result → p.Yields f a result' → result = result') ∧
    ((¬ ∃ result, p.Yields f a result) ↔ ∀ limit, ∃ span,
      (p.evaluate f [.int a] limit).outcome = .error (.of (.stackOverflow limit) span)) :=
  ⟨evaluateOn_within hp f a, fun _ h => h.exists_evaluateOn hp, fun _ => yields_iff_evaluate hp,
    fun _ _ h h' => h.unique hp h', not_yields_iff_evaluate hp⟩

/-- A countdown through two functions with all of the operators, whose zero is written as a multiple of the number
of words; a sum beyond the words; and a call whose argument fails before its function is found to be missing. -/
theorem evaluate_agrees_countdown :
    let x : Expr := .var (.text "x") none
    let n (k : Int) : Expr := .int (.int k) none
    let call (f : String) (e : Expr) : Expr := .call (.text f) e none
    let zero : Clause Expr := ⟨.literal (.int 18446744073709551616) none, n 1, none⟩
    let product : Expr := .binary "*" x (call "g" (.binary "-" x (n 1) none)) none
    let other : Clause Expr := ⟨.wildcard none, .binary "+" product x none, none⟩
    let f : Definition := ⟨.text "f", .text "x", .case x [zero, other] none, none⟩
    let g : Definition := ⟨.text "g", .text "y", call "f" (.var (.text "y") none), none⟩
    let h : Definition := ⟨.text "h", .text "x", call "none" (.var (.text "y") none), none⟩
    let s : Definition := ⟨.text "s", .text "x", .binary "+" x (n 9223372036854775807) none, none⟩
    let p := ofDefinitions [f, g, h, s]
    p.Proper ∧ p.Yields (.text "f") 18446744073709551620 (.ok 88) ∧
      ¬ p.Yields (.text "f") 18446744073709551620 (.ok 24) ∧
      p.Yields (.text "s") 1 (.ok (-9223372036854775808)) ∧
      p.Yields (.text "h") 0 (.error ⟨.unboundVariable (.text "y"), none⟩) := by
  intro x n call zero product other f g h s p
  have hn (k : Int) : (n k).Proper := .int rfl
  have hproduct : product.Proper := .binary (by simp) .var (.call (.binary (by simp) .var (hn 1)))
  have hf : f.body.Proper := by
    refine .case .var ?_ ?_
    · have hzero : (Scalar.int 18446744073709551616).number?.isSome := rfl
      simpa using And.intro (Pattern.Proper.literal hzero) Pattern.Proper.wildcard
    · simpa using And.intro (hn 1) (.binary (by simp) hproduct .var)
  have hg : g.body.Proper := .call .var
  have hh : h.body.Proper := .call .var
  have hs : s.body.Proper := .binary (by simp) .var (hn _)
  have hp : p.Proper := by
    intro d hd
    have hdefinitions : p.definitions = [f, g, h, s] := rfl
    rw [hdefinitions] at hd
    simp only [List.mem_cons, List.not_mem_nil, or_false] at hd
    rcases hd with rfl | rfl | rfl | rfl
    · exact hf
    · exact hg
    · exact hh
    · exact hs
  have hyields : p.Yields (.text "f") 18446744073709551620 (.ok 88) :=
    ((evaluate_agrees hp _ _).2.2.1 _).mpr ⟨⟨20, by rfl⟩, by simp⟩
  refine ⟨hp, hyields, fun h24 => ?_, ?_, ?_⟩
  · have heq := (evaluate_agrees hp _ _).2.2.2.1 _ _ hyields h24
    cases heq
  · exact ((evaluate_agrees hp _ _).2.2.1 _).mpr ⟨⟨1, by rfl⟩, by simp⟩
  · exact ((evaluate_agrees hp _ _).2.2.1 _).mpr ⟨⟨1, by rfl⟩, by simp⟩

end Program

end Casewise
