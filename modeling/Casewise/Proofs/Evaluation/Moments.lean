import Mathlib.Computability.StateTransition
import Casewise.Proofs.Evaluation.Agreement

/-! Evaluation moment by moment. A moment is what comes next and the frames that wait for it, so the
order of evaluation, the nesting of calls and the use of the stack can be read off. With a limit on
nested calls it stops at the first call that is nested deeper. -/
namespace Casewise

theorem Clause.mem_of_select {n : Int} {cs : List (Clause Expr)} {c : Clause Expr}
    (h : select n cs = .ok (some c)) : c ∈ cs := by
  induction cs with
  | nil => cases h
  | cons d cs ih =>
    rw [select] at h
    cases hd : d.pattern.accepts n with
    | error m =>
      rw [hd] at h
      cases h
    | ok accepted =>
      rw [hd] at h
      cases accepted with
      | true =>
        cases h
        exact List.mem_cons_self
      | false => exact List.mem_cons_of_mem d (ih h)

/-- What waits for the value of a part. -/
inductive Frame
  | left (x : Name) (a : Int) (operator : String) (right : Expr)
  | right (operator : String) (m : Int)
  | argument (f : Name) (span : Option Span)
  | scrutinee (x : Name) (a : Int) (clauses : List (Clause Expr)) (span : Option Span)
  /-- A case of which a clause was selected. -/
  | branch
  /-- A call that has entered its function. -/
  | callee
  /-- The function that was entered. -/
  | body

/-- The functions that are active. -/
def Frame.calls : List Frame → Nat
  | [] => 0
  | body :: below => calls below + 1
  | _ :: below => calls below

/-- What comes next, and the frames below it, the innermost one first. -/
inductive Moment
  | eval (x : Name) (a : Int) (e : Expr) (below : List Frame)
  | call (g : Definition) (n : Int) (span : Option Span) (below : List Frame)
  | value (n : Int) (below : List Frame)
  | fault (f : Fault)

namespace Moment

def entry (g : Definition) (a : Int) : Moment := .call g (Word.wrap a) none []

def below : Moment → List Frame
  | eval _ _ _ below | call _ _ _ below | value _ below => below
  | fault _ => []

/-- A call that would have more than so many active functions around it. -/
def tooDeep (limit : Nat) : Moment → Bool
  | call _ _ _ below => limit ≤ Frame.calls below
  | _ => false

/-- What evaluation has come to when it stops here. It stops at a call that is nested too deep only. -/
def outcome? (limit : Int) : Moment → Option (Except Fault Int)
  | value n [] => some (.ok n)
  | fault f => some (.error f)
  | call _ _ span _ => some (.error (.of (.stackOverflow limit) span))
  | _ => none

def takeUp (x : Name) (a : Int) (below : List Frame) : Expr → Moment
  | .int v _ =>
    match v.word with
    | .ok n => value n below
    | .error m => fault (.misuse m)
  | .var y span => if y = x then value a below else fault (.of (.unboundVariable y) span)
  | .binary operator l r _ => eval x a l (.left x a operator r :: below)
  | .call f b span => eval x a b (.argument f span :: below)
  | .case s cs span => eval x a s (.scrutinee x a cs span :: below)
  | .foreign o => fault (.misuse (.notExpression o))

def resume (p : Program) (n : Int) (below : List Frame) : Frame → Moment
  | .left x a operator r => eval x a r (.right operator n :: below)
  | .right operator m =>
    match Word.operation? operator with
    | some f => value (f m n) below
    | none => fault (.misuse (.unknownOperator operator))
  | .argument f span =>
    match p.find? f with
    | some g => call g n span (.callee :: below)
    | none => fault (.of (.unknownFunction f) span)
  | .scrutinee x a cs span =>
    match Clause.select n cs with
    | .ok (some c) => eval x a c.body (.branch :: below)
    | .ok none => fault (.of (.noMatchingClause n) span)
    | .error m => fault (.misuse m)
  | .branch | .callee | .body => value n below

end Moment

namespace Program

/-- The next moment. There is none after a fault, and none after the value of the whole. -/
def next? (p : Program) : Moment → Option Moment
  | .eval x a e below => some (.takeUp x a below e)
  | .call g n _ below => some (.eval g.param n g.body (.body :: below))
  | .value n (frame :: below) => some (.resume p n below frame)
  | .value _ [] | .fault _ => none

def nextWithin? (p : Program) (limit : Nat) (m : Moment) : Option Moment :=
  if m.tooDeep limit then none else p.next? m

/-- Evaluation goes from the one moment to the other, and no call on the way is nested too deep. -/
def Passes (p : Program) (limit : Nat) : Moment → Moment → Prop :=
  StateTransition.Reaches (p.nextWithin? limit)

variable {p : Program} {m m' last : Moment} {below : List Frame} {g : Definition} {n : Int}
  {span : Option Span}

theorem nextWithin?_call_eq_none_iff {k : Nat} :
    p.nextWithin? k (.call g n span below) = none ↔ k ≤ Frame.calls below := by
  unfold nextWithin? Moment.tooDeep
  by_cases hdeep : k ≤ Frame.calls below
  · simp [hdeep]
  · simp [hdeep, next?]

theorem nextWithin?_call {k : Nat} (h : Frame.calls below < k) :
    p.nextWithin? k (.call g n span below) = some (.eval g.param n g.body (.body :: below)) := by
  unfold nextWithin? Moment.tooDeep
  rw [if_neg (by simpa using h), next?]

theorem Passes.last_unique {limit : Nat} (h : p.Passes limit m last) (hlast : p.nextWithin? limit last = none)
    (h' : p.Passes limit m m') (hm' : p.nextWithin? limit m' = none) : last = m' := by
  have hstays : ∀ {s t : Moment}, p.nextWithin? limit s = none → p.Passes limit s t → s = t := by
    intro s t hs hst
    rcases Relation.ReflTransGen.cases_head hst with rfl | ⟨u, hu, _⟩
    · rfl
    · simp [hs] at hu
  rcases StateTransition.reaches_total h h' with hgoes | hgoes
  · exact hstays hlast hgoes
  · exact (hstays hm' hgoes).symm

/-- What every step keeps holds all the way. -/
theorem Passes.keeps {limit : Nat} {P : Moment → Prop} (h : p.Passes limit m m') (hm : P m)
    (hstep : ∀ s t, p.nextWithin? limit s = some t → P s → P t) : P m' := by
  induction h with
  | refl => exact hm
  | tail _ hnext ih => exact hstep _ _ hnext ih

theorem nextWithin?_eq_some {limit : Nat} (h : p.nextWithin? limit m = some m') :
    m.tooDeep limit = false ∧ p.next? m = some m' := by
  unfold nextWithin? at h
  split at h
  next => cases h
  next hdeep => exact ⟨Bool.eq_false_iff.mpr hdeep, h⟩

end Program

namespace Moment

variable {p : Program} {x : Name} {a n : Int} {below : List Frame}

theorem calls_takeUp (e : Expr) : (∃ f, takeUp x a below e = .fault f) ∨
    Frame.calls (takeUp x a below e).below = Frame.calls below := by
  cases e with
  | int v span =>
    rw [takeUp]
    cases v.word with
    | ok n => exact Or.inr rfl
    | error m => exact Or.inl ⟨_, rfl⟩
  | var y span =>
    rw [takeUp]
    split
    · exact Or.inr rfl
    · exact Or.inl ⟨_, rfl⟩
  | binary | call | case => exact Or.inr rfl
  | foreign => exact Or.inl ⟨_, rfl⟩

theorem calls_resume {frame : Frame} (hframe : frame ≠ .body) : (∃ f, resume p n below frame = .fault f) ∨
    Frame.calls (resume p n below frame).below = Frame.calls (frame :: below) := by
  cases frame with
  | left | branch | callee => exact Or.inr rfl
  | body => exact absurd rfl hframe
  | right operator m =>
    rw [resume]
    cases Word.operation? operator with
    | some f => exact Or.inr rfl
    | none => exact Or.inl ⟨_, rfl⟩
  | argument f span =>
    rw [resume]
    cases p.find? f with
    | some g => exact Or.inr rfl
    | none => exact Or.inl ⟨_, rfl⟩
  | scrutinee x a cs span =>
    rw [resume]
    split
    · exact Or.inr rfl
    · exact Or.inl ⟨_, rfl⟩
    · exact Or.inl ⟨_, rfl⟩

theorem calls_takeUp_le (e : Expr) : Frame.calls (takeUp x a below e).below ≤ Frame.calls below := by
  rcases @calls_takeUp x a below e with ⟨f, hf⟩ | heq
  · rw [hf]
    exact Nat.zero_le _
  · exact Nat.le_of_eq heq

theorem calls_resume_le (frame : Frame) :
    Frame.calls (resume p n below frame).below ≤ Frame.calls (frame :: below) := by
  by_cases hframe : frame = .body
  · subst hframe
    exact Nat.le_succ _
  · rcases @calls_resume p n below frame hframe with ⟨f, hf⟩ | heq
    · rw [hf]
      exact Nat.zero_le _
    · exact Nat.le_of_eq heq

end Moment

namespace Program

variable {p : Program} {m m' : Moment} {limit : Nat} {g : Definition} {a : Int}

theorem calls_le_of_nextWithin? (h : p.nextWithin? limit m = some m')
    (hm : Frame.calls m.below ≤ limit) : Frame.calls m'.below ≤ limit := by
  obtain ⟨hdeep, hnext⟩ := nextWithin?_eq_some h
  cases m with
  | eval x a e below =>
    cases hnext
    exact Nat.le_trans (Moment.calls_takeUp_le e) hm
  | call g n span below =>
    cases hnext
    have hlt : Frame.calls below < limit := by simpa [Moment.tooDeep] using hdeep
    exact hlt
  | value n below =>
    cases below with
    | nil => cases hnext
    | cons frame below =>
      cases hnext
      exact Nat.le_trans (Moment.calls_resume_le frame) hm
  | fault f => cases hnext

/-- No more functions are ever active than the limit allows. -/
theorem Passes.calls_le (h : p.Passes limit (.entry g a) m) : Frame.calls m.below ≤ limit :=
  h.keeps (Nat.zero_le limit) fun _ _ => calls_le_of_nextWithin?

end Program

end Casewise
