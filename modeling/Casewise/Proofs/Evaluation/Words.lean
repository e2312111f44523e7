import Casewise.Proofs.Evaluation.Blocks

/-! All values are words. Literals, arguments and results are reduced where they enter, so whatever is
bound to a parameter, returned, handed on, recorded or reported on the way is in range. -/
namespace Casewise

open Call (Line)

def Call.Line.InWords : Line → Prop
  | opened _ _ argument => Word.IsWord argument
  | closed _ _ argument result => Word.IsWord argument ∧ Word.IsWord result

/-- A value without a clause is reported as a word. -/
def Fault.InWords (f : Fault) : Prop :=
  ∀ n span, f = .of (.noMatchingClause n) span → Word.IsWord n

theorem Fault.inWords_misuse (m : Misuse) : (misuse m).InWords := nofun

/-- What a run records, returns or reports are words. -/
structure Run.InWords (r : Run Int) : Prop where
  record : ∀ d, ∀ l ∈ Call.recordOf d r.calls, l.InWords
  value : ∀ n, r.outcome = .ok n → Word.IsWord n
  fault : ∀ f, r.outcome = .error f → f.InWords

namespace Run

variable {r : Run Int} {next : Int → Run Int} {n : Int} {f : Fault}

theorem inWords_value (hn : Word.IsWord n) : (value n).InWords where
  record d l hl := by cases hl
  value m hm := by
    cases hm
    exact hn
  fault f hf := by cases hf

theorem inWords_fault (hf : f.InWords) : (fault f).InWords where
  record d l hl := by cases hl
  value n hn := by cases hn
  fault g hg := by
    cases hg
    exact hf

theorem InWords.bind (h : r.InWords) (hnext : ∀ n, Word.IsWord n → (next n).InWords) :
    (r >>= next).InWords := by
  obtain ⟨calls, outcome⟩ := r
  cases outcome with
  | error f => exact ⟨h.record, nofun, h.fault⟩
  | ok n =>
    have hrest : (next n).InWords := hnext n (h.value n rfl)
    refine ⟨fun d l hl => ?_, hrest.value, hrest.fault⟩
    change l ∈ Call.recordOf d (calls ++ (next n).calls) at hl
    rw [Call.recordOf_append] at hl
    rcases List.mem_append.mp hl with hl | hl
    · exact h.record d l hl
    · exact hrest.record d l hl

theorem InWords.enter (h : r.InWords) (f : Name) (hn : Word.IsWord n) : (Run.enter f n r).InWords := by
  refine ⟨fun d l hl => ?_, h.value, h.fault⟩
  rw [Run.enter, Call.recordOf_cons] at hl
  simp only [List.mem_cons, List.mem_append, Option.mem_toList, Option.map_eq_some_iff,
    Call.recordOf_nil, List.not_mem_nil, or_false] at hl
  rcases hl with rfl | hl | ⟨v, hv, rfl⟩
  · exact hn
  · exact h.record (d + 1) l hl
  · exact ⟨hn, h.value v (outcome_eq_ok hv)⟩

end Run

theorem Fault.inWords_of_ne {f : Fault} (h : ∀ n span, f ≠ of (.noMatchingClause n) span) : f.InWords :=
  fun n span hf => absurd hf (h n span)

theorem Fault.inWords_noMatchingClause {n : Int} (hn : Word.IsWord n) (span : Option Span) :
    (of (.noMatchingClause n) span).InWords := by
  intro m place h
  cases h
  exact hn

theorem Expr.eval_inWords {a : Activation} (hbound : Word.IsWord a.bound) (hexhausted : a.exhausted.InWords)
    (hinvoke : ∀ stack f n span, Word.IsWord n → (a.invoke stack f n span).InWords) (e : Expr)
    (stack : Stack) : (e.eval a stack).InWords := by
  apply eval_closed hbound
  · exact fun n => Run.inWords_value
  · exact fun f => Run.inWords_fault
  · exact Run.InWords.bind
  · exact Run.inWords_fault hexhausted
  · exact fun rest _ => hinvoke rest

namespace Program

variable {p : Program} {f : Name} {g : Definition} {a n limit : Int} {span : Option Span}

theorem apply_inWords (limit : Int) (room : Nat) (stack : Stack) (g : Definition) (hn : Word.IsWord n)
    (span : Option Span) : (p.apply limit room stack g n span).InWords := by
  -- the calls of a body have one call less room
  induction room generalizing stack g n span with
  | zero => exact Run.inWords_fault (Fault.inWords_of_ne (by simp [Fault.of]))
  | succ room ih =>
    rw [apply_succ]
    have hexhausted : (p.activation limit room g n span).exhausted.InWords :=
      Fault.inWords_of_ne (by simp [activation, Fault.of])
    refine Run.InWords.enter ?_ g.name hn
    refine g.body.eval_inWords hn hexhausted ?_ stack
    intro stack f m place hm
    change (p.invoker limit room stack f m place).InWords
    unfold invoker
    split
    next h _ => exact ih stack h hm place
    next => exact Run.inWords_fault (Fault.inWords_of_ne (by simp [Fault.of]))

theorem evaluateOn_inWords (p : Program) (stack : Stack) (f : Name) (a limit : Int) :
    (p.evaluateOn stack f [.int a] limit).InWords := by
  cases hf : p.find? f with
  | none =>
    rw [evaluateOn_of_find?_none hf]
    exact Run.inWords_fault (Fault.inWords_of_ne (by simp [Fault.of]))
  | some g =>
    rw [evaluateOn_of_find? hf]
    split
    · exact apply_inWords limit _ _ g (Word.isWord_wrap a) none
    · exact Run.inWords_fault (Fault.inWords_of_ne (by simp [Fault.of]))

end Program

/-! The same holds at every moment of an evaluation, of the values that wait in the frames as well. -/

def Frame.InWords : Frame → Prop
  | left _ a _ _ | scrutinee _ a _ _ => Word.IsWord a
  | right _ m => Word.IsWord m
  | argument _ _ | branch | callee | body => True

/-- What is bound, handed on or reported at the moment are words, and so is what is kept below. -/
def Moment.InWords : Moment → Prop
  | eval _ a _ below => Word.IsWord a ∧ ∀ frame ∈ below, frame.InWords
  | call _ n _ below | value n below => Word.IsWord n ∧ ∀ frame ∈ below, frame.InWords
  | fault f => f.InWords

namespace Moment

variable {p : Program} {x : Name} {a n : Int} {below : List Frame} {frame : Frame}

theorem inWords_takeUp (ha : Word.IsWord a) (hbelow : ∀ frame ∈ below, frame.InWords) (e : Expr) :
    (takeUp x a below e).InWords := by
  have hkeep {frame : Frame} (hframe : frame.InWords) : ∀ fr ∈ frame :: below, fr.InWords :=
    List.forall_mem_cons.mpr ⟨hframe, hbelow⟩
  cases e with
  | int v span =>
    rw [takeUp]
    cases hv : v.word with
    | ok n => exact ⟨Scalar.isWord_of_word hv, hbelow⟩
    | error m => exact Fault.inWords_of_ne (by simp [Fault.of])
  | var y span =>
    rw [takeUp]
    split
    · exact ⟨ha, hbelow⟩
    · exact Fault.inWords_of_ne (by simp [Fault.of])
  | binary operator l r span => exact ⟨ha, hkeep ha⟩
  | call f b span => exact ⟨ha, hkeep trivial⟩
  | case s cs span => exact ⟨ha, hkeep ha⟩
  | foreign o => exact Fault.inWords_of_ne (by simp [Fault.of])

theorem inWords_resume (hn : Word.IsWord n) (hframe : frame.InWords)
    (hbelow : ∀ frame ∈ below, frame.InWords) : (resume p n below frame).InWords := by
  have hkeep {frame : Frame} (hframe : frame.InWords) : ∀ fr ∈ frame :: below, fr.InWords :=
    List.forall_mem_cons.mpr ⟨hframe, hbelow⟩
  cases frame with
  | left x a operator r => exact ⟨hframe, hkeep hn⟩
  | right operator m =>
    rw [resume]
    cases hop : Word.operation? operator with
    | some f => exact ⟨Word.isWord_of_operation hop m n, hbelow⟩
    | none => exact Fault.inWords_of_ne (by simp [Fault.of])
  | argument f span =>
    rw [resume]
    cases p.find? f with
    | some g => exact ⟨hn, hkeep trivial⟩
    | none => exact Fault.inWords_of_ne (by simp [Fault.of])
  | scrutinee x a cs span =>
    rw [resume]
    split
    · exact ⟨hframe, hkeep trivial⟩
    · exact Fault.inWords_noMatchingClause hn span
    · exact Fault.inWords_of_ne (by simp [Fault.of])
  | branch | callee | body => exact ⟨hn, hbelow⟩

theorem InWords.next? {m m' : Moment} (hm : m.InWords) (h : p.next? m = some m') : m'.InWords := by
  cases m with
  | eval x a e below =>
    cases h
    exact inWords_takeUp hm.1 hm.2 e
  | call g n span below =>
    cases h
    exact ⟨hm.1, List.forall_mem_cons.mpr ⟨trivial, hm.2⟩⟩
  | value n below =>
    cases below with
    | nil => cases h
    | cons frame below =>
      cases h
      obtain ⟨hframe, hbelow⟩ := List.forall_mem_cons.mp hm.2
      exact inWords_resume hm.1 hframe hbelow
  | fault f => cases h

end Moment

theorem Program.Passes.inWords {p : Program} {limit : Nat} {g : Definition} {a : Int} {m : Moment}
    (h : p.Passes limit (.entry g a) m) : m.InWords := by
  refine h.keeps ?_ fun s t hnext hs => hs.next? (nextWithin?_eq_some hnext).2
  exact ⟨Word.isWord_wrap a, by simp⟩

end Casewise
