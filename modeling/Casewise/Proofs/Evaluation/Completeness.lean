import Casewise.Proofs.Evaluation.Soundness

/-! Evaluation is complete: whatever a program means is reached with enough room for nested calls and
enough stack. -/
namespace Casewise

namespace Stack

/-- The stack has so many frames left. -/
def Holds (k : Nat) : Stack → Prop
  | endless => True
  | frames left => k ≤ left

theorem Holds.mono {j k : Nat} {stack : Stack} (h : stack.Holds k) (hjk : j ≤ k) : stack.Holds j := by
  cases stack with
  | endless => trivial
  | frames left => exact Nat.le_trans hjk h

theorem Holds.take? {j k : Nat} {stack : Stack} (h : stack.Holds (j + k)) :
    ∃ rest, stack.take? k = some rest ∧ rest.Holds j := by
  cases stack with
  | endless => exact ⟨.endless, rfl, trivial⟩
  | frames left =>
    have hle : j + k ≤ left := h
    refine ⟨.frames (left - k), take?_frames (by omega), ?_⟩
    change j ≤ left - k
    omega

end Stack

theorem Activation.outcome_push {j k : Nat} {stack : Stack} {a : Activation} {next : Stack → Run Int}
    {outcome : Except Fault Int} (hstack : stack.Holds (j + k))
    (h : ∀ rest, rest.Holds j → (next rest).outcome = outcome) :
    (a.push k stack next).outcome = outcome := by
  obtain ⟨rest, htake, hrest⟩ := hstack.take?
  rw [push, htake]
  exact h rest hrest

namespace Run

variable {run : Run Int} {next : Int → Run Int} {n : Int} {f : Fault}

theorem outcome_bind_ok (h : run.outcome = .ok n) : (run >>= next).outcome = (next n).outcome := by
  rw [bind_eq, andThen, h]

theorem outcome_bind_error (h : run.outcome = .error f) : (run >>= next).outcome = .error f := by
  rw [bind_eq, andThen, h]

end Run

namespace Program

variable {p : Program} {x f : Name} {a n limit : Int} {e : Expr} {g : Definition} {span : Option Span}
  {result : Except Error Int} {j k room : Nat} {stack : Stack}

def invoker (p : Program) (limit : Int) (room : Nat) (stack : Stack) (f : Name) (n : Int)
    (span : Option Span) : Run Int :=
  match p.find? f with
  | some g => p.apply limit room stack g n span
  | none => .fault (.of (.unknownFunction f) span)

structure Activates (p : Program) (limit : Int) (room : Nat) (x : Name) (a : Int) (act : Activation) :
    Prop where
  param : act.param = x
  bound : act.bound = a
  invoke : act.invoke = p.invoker limit room

/-- With so much room and stack, the expression runs to the result. -/
def Reaches (p : Program) (x : Name) (a : Int) (e : Expr) (result : Except Error Int) (k : Nat) :
    Prop :=
  ∀ {limit : Int} {room : Nat} {stack : Stack} {act : Activation}, p.Activates limit room x a act →
    k ≤ room → stack.Holds k → (e.eval act stack).outcome = result.mapError Fault.error

namespace Reaches

variable {l r b s : Expr} {operator : String} {cs : List (Clause Expr)} {c : Clause Expr} {fault : Error}
  {m w : Int}

theorem mono (h : p.Reaches x a e result j) (hjk : j ≤ k) : p.Reaches x a e result k :=
  fun hact hroom hstack => h hact (Nat.le_trans hjk hroom) (hstack.mono hjk)

theorem apply_outcome (h : p.Reaches g.param n g.body result k) (hroom : k < room)
    (hstack : stack.Holds k) :
    (p.apply limit room stack g n span).outcome = result.mapError Fault.error := by
  cases room with
  | zero => omega
  | succ room =>
    have hle : k ≤ room := by omega
    exact h ⟨rfl, rfl, rfl⟩ hle hstack

theorem int {v : Scalar} (hv : v.number? = some n) (hw : Word.Represents w n) :
    p.Reaches x a (.int v span) (.ok w) (0 + Expr.frames) := by
  intro _ _ _ _ _ _ hstack
  rw [Expr.eval, hw.eq_wrap]
  refine Activation.outcome_push hstack fun rest _ => ?_
  simp only [Scalar.word, hv]
  rfl

theorem bound : p.Reaches x a (.var x span) (.ok a) (0 + Expr.frames) := by
  intro _ _ _ _ hact _ hstack
  rw [Expr.eval]
  refine Activation.outcome_push hstack fun rest _ => ?_
  rw [if_pos hact.param.symm, hact.bound]
  rfl

theorem unbound {y : Name} (hy : y ≠ x) :
    p.Reaches x a (.var y span) (.error ⟨.unboundVariable y, span⟩) (0 + Expr.frames) := by
  intro _ _ _ _ hact _ hstack
  rw [Expr.eval]
  refine Activation.outcome_push hstack fun rest _ => ?_
  rw [if_neg (hact.param ▸ hy)]
  rfl

theorem left (hl : p.Reaches x a l (.error fault) k) :
    p.Reaches x a (.binary operator l r span) (.error fault) (k + Expr.frames) := by
  intro _ _ _ _ hact hroom hstack
  rw [Expr.eval]
  refine Activation.outcome_push hstack fun rest hrest => ?_
  exact Run.outcome_bind_error (hl hact (by omega) hrest)

theorem right (hl : p.Reaches x a l (.ok m) k) (hr : p.Reaches x a r (.error fault) k) :
    p.Reaches x a (.binary operator l r span) (.error fault) (k + Expr.frames) := by
  intro _ _ _ _ hact hroom hstack
  rw [Expr.eval]
  refine Activation.outcome_push hstack fun rest hrest => ?_
  rw [Run.outcome_bind_ok (hl hact (by omega) hrest)]
  exact Run.outcome_bind_error (hr hact (by omega) hrest)

theorem binary {j : Int} (hl : p.Reaches x a l (.ok m) k) (hr : p.Reaches x a r (.ok n) k)
    (hop : Word.Operates m n operator j) (hw : Word.Represents w j) :
    p.Reaches x a (.binary operator l r span) (.ok w) (k + Expr.frames) := by
  obtain ⟨h, hh, rfl⟩ := Word.operates_iff.mp hop
  intro _ _ _ _ hact hroom hstack
  rw [Expr.eval]
  refine Activation.outcome_push hstack fun rest hrest => ?_
  rw [Run.outcome_bind_ok (hl hact (by omega) hrest), Run.outcome_bind_ok (hr hact (by omega) hrest),
    Word.operation?, hh, hw.eq_wrap]
  rfl

theorem argument (hb : p.Reaches x a b (.error fault) k) :
    p.Reaches x a (.call f b span) (.error fault) (k + Expr.frames) := by
  intro _ _ _ _ hact hroom hstack
  rw [Expr.eval]
  refine Activation.outcome_push hstack fun rest hrest => ?_
  exact Run.outcome_bind_error (hb hact (by omega) hrest)

theorem unknown (hb : p.Reaches x a b (.ok n) k) (hf : p.find? f = none) :
    p.Reaches x a (.call f b span) (.error ⟨.unknownFunction f, span⟩)
      (k + Expr.callFrames + Expr.frames) := by
  intro _ _ _ _ hact hroom hstack
  rw [Expr.eval]
  refine Activation.outcome_push hstack fun rest hrest => ?_
  rw [Run.outcome_bind_ok (hb hact (by omega) (hrest.mono (by omega)))]
  refine Activation.outcome_push hrest fun inner _ => ?_
  rw [hact.invoke, invoker, hf]
  rfl

/-- The body of the callee has one call less room than the call. -/
theorem call (hb : p.Reaches x a b (.ok n) k) (hf : p.find? f = some g)
    (hg : p.Reaches g.param n g.body result k) :
    p.Reaches x a (.call f b span) result (k + Expr.callFrames + Expr.frames) := by
  intro _ _ _ _ hact hroom hstack
  rw [Expr.eval]
  refine Activation.outcome_push hstack fun rest hrest => ?_
  rw [Run.outcome_bind_ok (hb hact (by omega) (hrest.mono (by omega)))]
  refine Activation.outcome_push hrest fun inner hinner => ?_
  have hone : Expr.callFrames = 1 := rfl
  rw [hact.invoke, invoker, hf]
  exact hg.apply_outcome (by omega) hinner

theorem scrutinee (hs : p.Reaches x a s (.error fault) k) :
    p.Reaches x a (.case s cs span) (.error fault) (k + Expr.frames) := by
  intro _ _ _ _ hact hroom hstack
  rw [Expr.eval]
  refine Activation.outcome_push hstack fun rest hrest => ?_
  exact Run.outcome_bind_error (hs hact (by omega) hrest)

theorem unmatched (hs : p.Reaches x a s (.ok n) k) (hselect : Clause.select n cs = .ok none) :
    p.Reaches x a (.case s cs span) (.error ⟨.noMatchingClause n, span⟩) (k + Expr.frames) := by
  intro _ _ _ _ hact hroom hstack
  rw [Expr.eval]
  refine Activation.outcome_push hstack fun rest hrest => ?_
  rw [Run.outcome_bind_ok (hs hact (by omega) hrest), Expr.evalFirst_eq_select, hselect]
  rfl

theorem selected (hs : p.Reaches x a s (.ok n) k) (hselect : Clause.select n cs = .ok (some c))
    (hc : p.Reaches x a c.body result k) :
    p.Reaches x a (.case s cs span) result (k + Expr.frames) := by
  intro _ _ _ _ hact hroom hstack
  rw [Expr.eval]
  refine Activation.outcome_push hstack fun rest hrest => ?_
  rw [Run.outcome_bind_ok (hs hact (by omega) hrest), Expr.evalFirst_eq_select, hselect]
  exact hc hact (by omega) hrest

end Reaches

theorem Evaluates.exists_reaches (h : p.Evaluates x a e result) (hp : p.Proper) (he : e.Proper)
    (ha : Word.IsWord a) : ∃ k, p.Reaches x a e result k := by
  -- by induction on the meaning; where two parts are run, the larger of their bounds serves both
  induction h with
  | int hn hw => exact ⟨_, Reaches.int hn hw⟩
  | bound => exact ⟨_, Reaches.bound⟩
  | unbound hy => exact ⟨_, Reaches.unbound hy⟩
  | binary _ _ hop hw ihl ihr =>
    cases he with
    | binary _ hl hr =>
      obtain ⟨i, hi⟩ := ihl hl ha
      obtain ⟨j, hj⟩ := ihr hr ha
      exact ⟨_, Reaches.binary (hi.mono (Nat.le_max_left i j)) (hj.mono (Nat.le_max_right i j)) hop hw⟩
  | left _ ih =>
    cases he with
    | binary _ hl _ =>
      obtain ⟨i, hi⟩ := ih hl ha
      exact ⟨_, hi.left⟩
  | right _ _ ihl ihr =>
    cases he with
    | binary _ hl hr =>
      obtain ⟨i, hi⟩ := ihl hl ha
      obtain ⟨j, hj⟩ := ihr hr ha
      exact ⟨_, Reaches.right (hi.mono (Nat.le_max_left i j)) (hj.mono (Nat.le_max_right i j))⟩
  | argument _ ih =>
    cases he with
    | call hb =>
      obtain ⟨i, hi⟩ := ih hb ha
      exact ⟨_, hi.argument⟩
  | unknown _ hf ih =>
    cases he with
    | call hb =>
      obtain ⟨i, hi⟩ := ih hb ha
      exact ⟨_, hi.unknown hf⟩
  | call hn hf _ ih ihg =>
    cases he with
    | call hb =>
      obtain ⟨i, hi⟩ := ih hb ha
      obtain ⟨j, hj⟩ := ihg (hp.of_find? hf) (hn.isWord ha)
      exact ⟨_, Reaches.call (hi.mono (Nat.le_max_left i j)) hf (hj.mono (Nat.le_max_right i j))⟩
  | scrutinee _ ih =>
    cases he with
    | case hs _ _ =>
      obtain ⟨i, hi⟩ := ih hs ha
      exact ⟨_, hi.scrutinee⟩
  | unmatched hn hselects ih =>
    cases he with
    | case hs hpatterns _ =>
      have hselect := hselects.select_eq hpatterns (hn.isWord ha)
      obtain ⟨i, hi⟩ := ih hs ha
      exact ⟨_, hi.unmatched hselect⟩
  | selected hn hselects _ ih ihc =>
    cases he with
    | case hs hpatterns hbodies =>
      have hselect := hselects.select_eq hpatterns (hn.isWord ha)
      obtain ⟨i, hi⟩ := ih hs ha
      obtain ⟨j, hj⟩ := ihc (hbodies _ hselects.mem) ha
      exact ⟨_, Reaches.selected (hi.mono (Nat.le_max_left i j)) hselect
        (hj.mono (Nat.le_max_right i j))⟩

end Program

end Casewise
