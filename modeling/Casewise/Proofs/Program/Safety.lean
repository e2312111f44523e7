import Casewise.Evaluation.Session
import Casewise.Proofs.Evaluation.Agreement
import Casewise.Proofs.Evaluation.FrameBound
import Casewise.Proofs.Program.RoundTrip
import Casewise.Proofs.Token.Refusal

/-! Nothing that a source text says is a misuse: it is read or refused, run to a word or to an error,
printed and listed, and each of these in the terms of the language. -/
namespace Casewise

namespace Reader

/-- A reader refuses a token for what the program says. -/
theorem isGrammatical_of_step {r : Reader} {t : Token} {x : Refusal} (h : r.step t = .error x) :
    x.IsGrammatical := by
  by_cases hd : r.phase = .done
  · rw [step, hd] at h
    cases h
  · have hf := follows_step hd t
    rwa [h] at hf

/-- A reader refuses a stream for what the program says, or for the fault that the stream breaks off
with. -/
theorem fault_of_read {r : Reader} {s : Token.Stream} {x : Refusal} (h : r.read s = .error x) :
    x.IsGrammatical ∨ s.fault? = some x.fault := by
  induction s generalizing r with
  | more t rest ih =>
    cases hs : r.step t with
    | error y =>
      rw [read, hs] at h
      cases h
      exact Or.inl (isGrammatical_of_step hs)
    | ok next =>
      rw [read, hs] at h
      exact ih h
  | stop last =>
    cases hs : r.step last with
    | error y =>
      rw [read, hs] at h
      cases h
      exact Or.inl (isGrammatical_of_step hs)
    | ok next =>
      rw [read, hs] at h
      cases h
  | fail fault =>
    cases h
    exact Or.inr rfl

end Reader

/-- A text without over-long numerals breaks off with an error of its characters. -/
theorem Token.ShortRuns.isLexical {source file : String} {fault : Fault}
    (hruns : ShortRuns source.toList) (h : (tokenize source file).fault? = some fault) :
    ∃ e : Error, fault = .error e ∧ e.cause.family? = some .lexical := by
  obtain ⟨_, _, _, cause, _, _, _, hobstacle, _, rfl⟩ := exists_break hruns h
  refine ⟨_, rfl, ?_⟩
  cases hobstacle <;> rfl

namespace Program

variable {source file : String} {p : Program} {f x : Name} {a limit : Int} {e : Error}

/-- A text without over-long numerals is refused for its characters or for its grammar. -/
theorem family_of_ofSource {refusal : Refusal} (hruns : Token.ShortRuns source.toList)
    (h : ofSource source file = .error refusal) :
    ∃ e : Error, refusal.fault = .error e ∧
      (e.cause.family? = some .lexical ∨ e.cause.family? = some .grammatical) := by
  rcases Reader.fault_of_read (read_of_ofTokens h) with ⟨e, he, hfamily⟩ | hfault
  · exact ⟨e, he, Or.inr hfamily⟩
  · obtain ⟨e, he, hfamily⟩ := hruns.isLexical hfault
    exact ⟨e, he, Or.inl hfamily⟩

/-- Whatever keeps an expression from a value is an error of evaluation. -/
theorem Evaluates.family {b : Expr} (h : p.Evaluates x a b (.error e)) :
    e.cause.family? = some .evaluation := by
  generalize hr : Except.error e = r at h
  induction h with
  | unbound _ | unknown _ _ _ | unmatched _ _ _ => cases hr; rfl
  | left _ ih | argument _ ih | scrutinee _ ih => exact ih hr
  | right _ _ _ ih | call _ _ _ _ ih | selected _ _ _ _ ih => exact ih hr
  | _ => cases hr

theorem Yields.family (h : p.Yields f a (.error e)) : e.cause.family? = some .evaluation := by
  obtain ⟨k, hk, hcalls⟩ := h
  unfold Calls at hcalls
  split at hcalls
  · cases hcalls
    rfl
  · exact hcalls.family

theorem entry_ints (p : Program) (f : Name) (ns : List Int) : p.entry f (ns.map .int) =
    match p.find? f with
    | none => .error (.of (.unknownFunction f) none)
    | some g =>
      match ns with
      | [n] => .ok (g, Word.wrap n)
      | _ => .error (.of (.arityMismatch f g.arity ns.length) g.span) := by
  have hnumbers : (ns.map Argument.int).mapM Argument.number = .ok ns := by
    induction ns with
    | nil => rfl
    | cons n ns ih =>
      rw [List.map_cons, List.mapM_cons, ih]
      rfl
  unfold entry
  cases p.find? f with
  | none => rw [hnumbers]
  | some g => rcases ns with _ | ⟨n, _ | ⟨m, ns⟩⟩ <;> rw [hnumbers]

/-- A proper program comes to a word or to an error of evaluation, whatever integers it is applied to. -/
theorem Proper.evaluate_safe (hp : p.Proper) (f : Name) (ns : List Int) (limit : Int) :
    (∃ n, (p.evaluate f (ns.map .int) limit).outcome = .ok n ∧ Word.IsWord n) ∨
      ∃ e : Error, (p.evaluate f (ns.map .int) limit).outcome = .error (.error e) ∧
        e.cause.family? = some .evaluation := by
  by_cases hn : ∃ n, ns = [n]
  · obtain ⟨n, rfl⟩ := hn
    rcases evaluateOn_within hp f n .endless limit with ⟨result, hr, ho⟩ | ⟨_, ho, _, _, rfl, _⟩
    · cases result with
      | ok k => exact Or.inl ⟨k, ho, hr.isWord⟩
      | error e => exact Or.inr ⟨e, ho, hr.family⟩
    · exact Or.inr ⟨_, ho, rfl⟩
  · have hentry : ∃ e : Error, p.entry f (ns.map .int) = .error (.error e) ∧
        e.cause.family? = some .evaluation := by
      rw [entry_ints]
      split
      next => exact ⟨_, rfl, rfl⟩
      next =>
        split
        next n => exact absurd ⟨n, rfl⟩ hn
        next => exact ⟨_, rfl, rfl⟩
    obtain ⟨e, he, hfamily⟩ := hentry
    exact Or.inr ⟨e, by rw [evaluate, evaluateOn, he]; rfl, hfamily⟩

end Program

theorem Scalar.IsNumeral.number?_isSome {v : Scalar} (h : v.IsNumeral) : v.number?.isSome := by
  obtain ⟨n, rfl, _⟩ := h
  rfl

theorem Pattern.WellFormed.proper {q : Pattern} (h : q.WellFormed) : q.Proper := by
  cases h with
  | literal hv => exact .literal hv.number?_isSome
  | wildcard => exact .wildcard

theorem Expr.WellFormed.proper {e : Expr} (h : e.WellFormed) : e.Proper := by
  induction h with
  | int hv => exact .int hv.number?_isSome
  | var _ => exact .var
  | binary hop _ _ ihl ihr => exact .binary hop ihl ihr
  | call _ _ ih => exact .call ih
  | case _ _ hpatterns _ ihs ihb => exact .case ihs (fun c hc => (hpatterns c hc).proper) ihb

theorem Program.WellFormed.proper {p : Program} (h : p.WellFormed) : p.Proper :=
  fun f hf => (h.definitions f hf).body.proper

theorem Scalar.IsIdentifier.ne_absent {v : Scalar} (h : v.IsIdentifier) : v ≠ .absent := by
  obtain ⟨_, _, rfl, _⟩ := h
  simp

theorem Scalar.IsNumeral.ne_absent {v : Scalar} (h : v.IsNumeral) : v ≠ .absent := by
  obtain ⟨_, rfl, _⟩ := h
  simp

theorem Pattern.WellFormed.isFilled {q : Pattern} (h : q.WellFormed) : q.outline.isFilled := by
  cases h with
  | literal hv => exact Outline.isFilled_node (by simp [hv.ne_absent])
  | wildcard => rfl

theorem Expr.WellFormed.isFilled {e : Expr} (h : e.WellFormed) : e.outline.isFilled := by
  induction h with
  | int hv => exact Outline.isFilled_node (by simp [hv.ne_absent])
  | var hx => exact Outline.isFilled_node (by simp [hx.ne_absent])
  | binary _ _ _ ihl ihr => exact Outline.isFilled_node (by simp [ihl, ihr])
  | call hf _ ih => exact Outline.isFilled_node (by simp [hf.ne_absent, ih])
  | @case s cs _ _ _ hpatterns _ ihs ihb =>
    refine Outline.isFilled_node ?_
    have hclauses : (Outline.list (clauseOutlines cs)).isFilled := by
      refine Outline.isFilled_list fun o ho => ?_
      rw [clauseOutlines_eq_map] at ho
      obtain ⟨c, hc, rfl⟩ := List.mem_map.mp ho
      exact Outline.isFilled_node (by simp [(hpatterns c hc).isFilled, ihb c hc])
    simp [ihs, hclauses]

theorem Definition.WellFormed.isFilled {f : Definition} (h : f.WellFormed) : f.outline.isFilled :=
  Outline.isFilled_node (by simp [h.name.ne_absent, h.param.ne_absent, h.body.isFilled])

namespace Program

theorem WellFormed.exists_dump {p : Program} (h : p.WellFormed) (indent : Int) :
    ∃ listing, p.dump indent = .ok listing := by
  have hlistings : ∀ os : List Outline, (∀ o ∈ os, o.isFilled) →
      ∃ listings, os.mapM (·.dump indent) = .ok listings := by
    intro os hos
    induction os with
    | nil => exact ⟨[], rfl⟩
    | cons o os ih =>
      obtain ⟨listings, hlistings⟩ := ih fun q hq => hos q (by simp [hq])
      have ho : o.isFilled := hos o (by simp)
      rw [List.mapM_cons, hlistings, Outline.dump, if_pos ho]
      exact ⟨_, rfl⟩
  obtain ⟨listings, hl⟩ := hlistings p.outlines fun o ho => by
    obtain ⟨f, hf, rfl⟩ := List.mem_map.mp ho
    exact (h.definitions f hf).isFilled
  exact ⟨String.join listings, by rw [dump, hl]; rfl⟩

end Program

namespace Session

/-- A text without over-long numerals, applied to any integers under any limit, comes to a word or to an error of
the language. A text that is read can also be printed and listed, and its bodies have a depth. -/
theorem ofSource_safe :
    (∀ (source file : String) (f : Name) (ns : List Int) (limit : Int), Token.ShortRuns source.toList →
      (∀ x, Program.ofSource source file = .error x → ∃ e : Error,
        (ofSource source file f (ns.map .int) limit).run.outcome = .error (.error e) ∧
        (e.cause.family? = some .lexical ∨ e.cause.family? = some .grammatical)) ∧
      ∀ p, Program.ofSource source file = .ok p →
        (∃ n, (ofSource source file f (ns.map .int) limit).run.outcome = .ok n ∧ Word.IsWord n) ∨
        ∃ e : Error, (ofSource source file f (ns.map .int) limit).run.outcome = .error (.error e) ∧
          e.cause.family? = some .evaluation) ∧
    ∀ source file p, Program.ofSource source file = .ok p →
      (∃ text, p.format = .ok text) ∧ (∀ indent, ∃ listing, p.dump indent = .ok listing) ∧
      ∀ f ∈ p.definitions, 0 < f.body.depth ∧ f.body.depth ≤ p.nesting := by
  refine ⟨fun source file f ns limit hruns => ⟨fun x hx => ?_, fun p hp => ?_⟩, fun source file p hp => ?_⟩
  · obtain ⟨e, he, hfamily⟩ := Program.family_of_ofSource hruns hx
    exact ⟨e, by rw [ofSource, hx, ← he]; rfl, hfamily⟩
  · have hrun : (ofSource source file f (ns.map .int) limit).run = p.evaluate f (ns.map .int) limit := by
      rw [ofSource, hp]
      rfl
    rw [hrun]
    exact (Program.wellFormed_of_ofSource hp).proper.evaluate_safe f ns limit
  · have hwf := Program.wellFormed_of_ofSource hp
    obtain ⟨text, htext, _⟩ := hwf.ofSource_format
    exact ⟨⟨text, htext⟩, hwf.exists_dump, fun f hf => ⟨f.body.depth_pos, Program.depth_le_nesting hf⟩⟩

/-- All operators, a missing clause and a missing function, called with no argument at all. -/
theorem ofSource_safe_applied :
    let source := "fun f x = case x * 2 - 1 in 3 => g (x + 1)"
    Token.ShortRuns source.toList ∧ ∃ p, Program.ofSource source "a" = .ok p ∧
      (∃ text, p.format = .ok text) ∧ (∀ indent, ∃ listing, p.dump indent = .ok listing) ∧
      ((∃ n, (ofSource source "a" (.text "f") [] 9).run.outcome = .ok n ∧ Word.IsWord n) ∨
        ∃ e : Error, (ofSource source "a" (.text "f") [] 9).run.outcome = .error (.error e) ∧
          e.cause.family? = some .evaluation) := by
  intro source
  have hruns : Token.ShortRuns source.toList := fun digits hd _ =>
    Nat.le_trans hd.length_le (by decide)
  have hok : (Program.ofSource source "a").isOk := by decide +kernel
  refine ⟨hruns, ?_⟩
  cases hp : Program.ofSource source "a" with
  | error x =>
    rw [hp] at hok
    cases hok
  | ok p =>
    obtain ⟨htext, hdump, _⟩ := ofSource_safe.2 source "a" p hp
    exact ⟨p, rfl, htext, hdump, (ofSource_safe.1 source "a" (.text "f") [] 9 hruns).2 p hp⟩

end Session

end Casewise
