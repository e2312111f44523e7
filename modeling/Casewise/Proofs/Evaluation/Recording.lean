import Casewise.Proofs.Evaluation.Moments
import Casewise.Proofs.Evaluation.Record

/-! Evaluation moment by moment, with a record of its calls. A line is written on entering a call and on
leaving one, and the calls that are open are kept. The recorder never looks at what it wrote, so it goes
through the same moments with the record and without; where it stops, it has come to the outcome of the
run, and it has written what the run shows. -/
namespace Casewise

/-- A moment, the calls that are open then, the innermost first, and what was written. -/
structure Recorder where
  moment : Moment
  active : List (Name × Int)
  written : List Call.Line

namespace Recorder

def entry (g : Definition) (a : Int) : Recorder := ⟨.entry g a, [], []⟩

def follow (r : Recorder) (m : Moment) : Recorder :=
  match r.moment, r.active with
  | .call g n _ _, active =>
    ⟨m, (g.name, n) :: active, r.written ++ [.opened active.length g.name n]⟩
  | .value v (.body :: _), (f, a) :: outer => ⟨m, outer, r.written ++ [.closed outer.length f a v]⟩
  | _, active => ⟨m, active, r.written⟩

@[simp] theorem moment_follow (r : Recorder) (m : Moment) : (r.follow m).moment = m := by
  unfold follow
  split <;> rfl

end Recorder

namespace Program

/-- The recorder at the next moment, unless a call is nested too deep. -/
def nextRecorded? (p : Program) (limit : Nat) (r : Recorder) : Option Recorder :=
  (p.nextWithin? limit r.moment).map r.follow

def Records (p : Program) (limit : Nat) : Recorder → Recorder → Prop :=
  StateTransition.Reaches (p.nextRecorded? limit)

variable {p : Program} {limit : Int} {m m' last : Moment} {below : List Frame} {frame : Frame}
  {run : Run Int} {f : Name} {g : Definition} {a n : Int} {span : Option Span} {r r' : Recorder}

/-- The record plays no part in evaluation. -/
theorem Records.passes {k : Nat} (h : p.Records k r r') : p.Passes k r.moment r'.moment := by
  induction h with
  | refl => exact .refl
  | tail _ hnext ih =>
    obtain ⟨m, hm, rfl⟩ := Option.map_eq_some_iff.mp hnext
    rw [Recorder.moment_follow]
    exact ih.tail hm

/-- From the moment on, a recorder does as the run: it writes what the run shows, and it hands a value to
the frames below with the calls open that were open before, or it stops with some more. -/
def Writes (p : Program) (limit : Int) (m : Moment) (below : List Frame) (run : Run Int) : Prop :=
  ∀ active written,
    let record := written ++ Call.recordOf active.length run.calls
    match run.outcome with
    | .ok n => p.Records limit.toNat ⟨m, active, written⟩ ⟨.value n below, active, record⟩
    | .error fault => ∃ last opened,
        p.Records limit.toNat ⟨m, active, written⟩ ⟨last, opened ++ active, record⟩ ∧
        p.nextWithin? limit.toNat last = none ∧ last.outcome? limit = some (.error fault)

namespace Writes

theorem value (n : Int) (below : List Frame) : p.Writes limit (.value n below) below (.value n) := by
  intro active written
  have hstays : p.Records limit.toNat ⟨.value n below, active, written⟩
      ⟨.value n below, active, written⟩ := .refl
  simpa [Run.value] using hstays

theorem stop (hlast : p.nextWithin? limit.toNat last = none) {fault : Fault}
    (houtcome : last.outcome? limit = some (.error fault)) (below : List Frame) :
    p.Writes limit last below (.fault fault) := by
  intro active written
  have hstays : p.Records limit.toNat ⟨last, active, written⟩ ⟨last, active, written⟩ := .refl
  exact ⟨last, [], by simpa [Run.fault] using hstays, hlast, houtcome⟩

theorem fault (f : Fault) (below : List Frame) : p.Writes limit (.fault f) below (.fault f) :=
  stop rfl rfl below

/-- What has happened already is not written again. -/
theorem trans (h : ∀ active written,
      p.Records limit.toNat ⟨m, active, written⟩ ⟨m', active, written⟩)
    (hrun : p.Writes limit m' below run) : p.Writes limit m below run := by
  intro active written
  have hrest := hrun active written
  dsimp only at hrest ⊢
  split at hrest
  next => exact (h active written).trans hrest
  next =>
    obtain ⟨last, opened, hlast, hend⟩ := hrest
    exact ⟨last, opened, (h active written).trans hlast, hend⟩

theorem step (h : p.nextWithin? limit.toNat m = some m')
    (hsilent : ∀ active written, Recorder.follow ⟨m, active, written⟩ m' = ⟨m', active, written⟩)
    (hrun : p.Writes limit m' below run) : p.Writes limit m below run := by
  refine trans (fun active written => Relation.ReflTransGen.single ?_) hrun
  change (p.nextWithin? limit.toNat m).map _ = some _
  rw [h, Option.map_some, hsilent]

theorem bind {below' : List Frame} {next : Int → Run Int} (h : p.Writes limit m below run)
    (hnext : ∀ n, p.Writes limit (.value n below) below' (next n)) :
    p.Writes limit m below' (run >>= next) := by
  obtain ⟨calls, outcome⟩ := run
  cases outcome with
  | error fault => exact h
  | ok n =>
    intro active written
    have hfirst := h active written
    have hrest := hnext n active (written ++ Call.recordOf active.length calls)
    rw [List.append_assoc, ← Call.recordOf_append] at hrest
    change match (next n).outcome with | .ok _ => _ | .error _ => _
    dsimp only at hfirst hrest
    split at hrest
    next => exact hfirst.trans hrest
    next =>
      obtain ⟨last, opened, hlast, hend⟩ := hrest
      exact ⟨last, opened, hfirst.trans hlast, hend⟩

/-- A frame that only passes a value on can be left out. -/
theorem pass (hframe : ∀ n, Moment.resume p n below frame = .value n below)
    (hsilent : ∀ n active written, Recorder.follow ⟨.value n (frame :: below), active, written⟩
      (.value n below) = ⟨.value n below, active, written⟩)
    (h : p.Writes limit m (frame :: below) run) : p.Writes limit m below run := by
  intro active written
  have hrun := h active written
  dsimp only at hrun ⊢
  split at hrun
  next n _ =>
    refine hrun.tail ?_
    change some (Recorder.follow _ (Moment.resume p n below frame)) = some _
    rw [hframe, hsilent]
  next => exact hrun

/-- The line of a call that is entered stands in front of what its body writes, and the line of its
return behind. -/
theorem enter (h : p.Writes limit (.eval g.param n g.body (.body :: below)) (.body :: below) run)
    (hcall : p.nextWithin? limit.toNat (.call g n span below) =
      some (.eval g.param n g.body (.body :: below))) :
    p.Writes limit (.call g n span below) below (Run.enter g.name n run) := by
  intro active written
  have hopen : p.Records limit.toNat ⟨.call g n span below, active, written⟩
      ⟨.eval g.param n g.body (.body :: below), (g.name, n) :: active,
        written ++ [.opened active.length g.name n]⟩ := by
    refine .single ?_
    change (p.nextWithin? limit.toNat (.call g n span below)).map _ = some _
    rw [hcall]
    rfl
  have hrun := h ((g.name, n) :: active) (written ++ [.opened active.length g.name n])
  obtain ⟨calls, outcome⟩ := run
  cases outcome with
  | ok v =>
    have hclose : p.Records limit.toNat
        ⟨.value v (.body :: below), (g.name, n) :: active, written ++ [.opened active.length g.name n] ++
          Call.recordOf (active.length + 1) calls⟩
        ⟨.value v below, active, written ++ [.opened active.length g.name n] ++
          Call.recordOf (active.length + 1) calls ++ [.closed active.length g.name n v]⟩ := .single rfl
    have hall : p.Records limit.toNat _ _ := (hopen.trans hrun).trans hclose
    rw [Run.recordOf_enter g.name n rfl]
    simpa [Run.enter] using hall
  | error fault =>
    obtain ⟨last, opened, hlast, hend⟩ := hrun
    have hall : p.Records limit.toNat _ _ := hopen.trans hlast
    refine ⟨last, opened ++ [(g.name, n)], ?_, hend⟩
    rw [Run.recordOf_enter_error g.name n rfl]
    simpa using hall

end Writes

/-- An expression is evaluated as its run says, if the calls in it are. -/
theorem eval_writes {act : Activation} {k : Nat}
    (hinvoke : ∀ f n span below, Frame.calls below = k →
      p.Writes limit (.value n (.argument f span :: below)) below (act.invoke .endless f n span))
    (e : Expr) (hk : Frame.calls below = k) :
    p.Writes limit (.eval act.param act.bound e below) below (e.eval act .endless) := by
  have hsilent : ∀ m e below active written,
      Recorder.follow ⟨.eval act.param act.bound e below, active, written⟩ m = ⟨m, active, written⟩ :=
    fun _ _ _ _ _ => rfl
  induction e generalizing below with
  | int v span =>
    refine .step rfl (hsilent _ _ _) ?_
    rw [Expr.eval, Activation.push_endless, Moment.takeUp]
    cases v.word with
    | ok n => exact .value n below
    | error m => exact .fault _ below
  | var y span =>
    refine .step rfl (hsilent _ _ _) ?_
    rw [Expr.eval, Activation.push_endless, Moment.takeUp]
    by_cases hy : y = act.param
    · rw [if_pos hy, if_pos hy]
      exact .value _ below
    · rw [if_neg hy, if_neg hy]
      exact .fault _ below
  | binary operator l r span ihl ihr =>
    rw [Expr.eval, Activation.push_endless]
    refine .step rfl (hsilent _ _ _) (.bind (ihl hk) fun m => ?_)
    refine .step rfl (fun _ _ => rfl) (.bind (ihr hk) fun n => ?_)
    refine .step rfl (fun _ _ => rfl) ?_
    rw [Moment.resume]
    cases Word.operation? operator with
    | some h => exact .value _ below
    | none => exact .fault _ below
  | call f b span ih =>
    rw [Expr.eval, Activation.push_endless]
    refine .step rfl (hsilent _ _ _) (.bind (ih hk) fun n => ?_)
    rw [Activation.push_endless]
    exact hinvoke f n span below hk
  | case s cs span ihs ihb =>
    rw [Expr.eval, Activation.push_endless]
    refine .step rfl (hsilent _ _ _) (.bind (ihs hk) fun n => ?_)
    refine .step rfl (fun _ _ => rfl) ?_
    rw [Expr.evalFirst_eq_select, Moment.resume]
    cases hselect : Clause.select n cs with
    | error m => exact .fault _ below
    | ok selected =>
      cases selected with
      | none => exact .fault _ below
      | some c => exact .pass (fun _ => rfl) (fun _ _ _ => rfl) (ihb c (Clause.mem_of_select hselect) hk)
  | foreign o =>
    rw [Expr.eval, Activation.push_endless]
    exact .step rfl (hsilent _ _ _) (.fault _ below)

/-- A function is entered as its run says, if the functions around it and the room together make up the
limit. -/
theorem apply_writes {room : Nat} (hroom : limit.toNat = room + Frame.calls below) :
    p.Writes limit (.call g n span below) below (p.apply limit room .endless g n span) := by
  induction room generalizing g n span below with
  | zero =>
    have hstop : p.nextWithin? limit.toNat (.call g n span below) = none :=
      nextWithin?_call_eq_none_iff.mpr (by omega)
    exact .stop hstop rfl below
  | succ room ih =>
    refine .enter ?_ (nextWithin?_call (by omega))
    refine eval_writes (k := Frame.calls below + 1) ?_ g.body rfl
    intro f m place around haround
    have hresume : ∀ m', Moment.resume p m around (.argument f place) = m' →
        p.nextWithin? limit.toNat (.value m (.argument f place :: around)) = some m' :=
      fun m' hm' => congrArg some hm'
    dsimp only
    cases hf : p.find? f with
    | none => exact .step (hresume _ (by rw [Moment.resume, hf])) (fun _ _ => rfl) (.fault _ around)
    | some h =>
      have hcalls : Frame.calls (.callee :: around) = Frame.calls below + 1 := haround
      refine .step (hresume _ (by rw [Moment.resume, hf])) (fun _ _ => rfl) ?_
      exact .pass (fun _ => rfl) (fun _ _ _ => rfl) (ih (by omega))

theorem evaluate_writes (hf : p.find? f = some g) :
    p.Writes limit (.entry g a) [] (p.evaluate f [.int a] limit) := by
  rw [evaluate, evaluateOn_of_find? hf, Stack.take?_endless]
  exact apply_writes rfl

/-- The recorder stops, and then it has come to the outcome of the run and has written what the run shows.
No call is open if there is a value. -/
theorem exists_recorded (hf : p.find? f = some g) (a limit : Int) :
    ∃ r, p.Records limit.toNat (.entry g a) r ∧ p.nextWithin? limit.toNat r.moment = none ∧
      r.moment.outcome? limit = some (p.evaluate f [.int a] limit).outcome ∧
      r.written = Call.recordOf 0 (p.evaluate f [.int a] limit).calls ∧
      ∀ n, (p.evaluate f [.int a] limit).outcome = .ok n → r.active = [] := by
  have h : p.Writes limit (.entry g a) [] (p.evaluate f [.int a] limit) := evaluate_writes hf
  have hrun := h [] []
  dsimp only at hrun
  split at hrun
  next n hn => exact ⟨_, hrun, rfl, congrArg some hn.symm, rfl, fun _ _ => rfl⟩
  next fault hfault =>
    obtain ⟨last, opened, hlast, hnone, houtcome⟩ := hrun
    refine ⟨_, hlast, hnone, hfault ▸ houtcome, rfl, fun n hn => ?_⟩
    rw [hfault] at hn
    cases hn

/-- Evaluation stops, and it has come to the outcome of the run. -/
theorem exists_last (hf : p.find? f = some g) (a limit : Int) :
    ∃ last, p.Passes limit.toNat (.entry g a) last ∧ p.nextWithin? limit.toNat last = none ∧
      last.outcome? limit = some (p.evaluate f [.int a] limit).outcome := by
  obtain ⟨r, hr, hnone, houtcome, _, _⟩ := exists_recorded hf a limit
  exact ⟨r.moment, hr.passes, hnone, houtcome⟩

theorem outcome_of_last (hf : p.find? f = some g) (h : p.Passes limit.toNat (.entry g a) last)
    (hlast : p.nextWithin? limit.toNat last = none) :
    last.outcome? limit = some (p.evaluate f [.int a] limit).outcome := by
  obtain ⟨other, hother, hnone, houtcome⟩ := exists_last hf a limit
  rw [h.last_unique hlast hother hnone]
  exact houtcome

end Program

namespace Recorder

/-- The open calls are the active functions, no more than the limit allows, and the lines on which they
were entered are those that have no matching return. -/
structure Consistent (limit : Nat) (r : Recorder) : Prop where
  active_le : r.active.length ≤ limit
  calls : (∃ f, r.moment = .fault f) ∨ r.active.length = Frame.calls r.moment.below
  written : r.written.foldl Call.Line.follow [] = Call.Line.openedBy r.active

theorem consistent_entry (limit : Nat) (g : Definition) (a : Int) : (entry g a).Consistent limit :=
  ⟨Nat.zero_le limit, Or.inr rfl, rfl⟩

variable {p : Program} {limit : Nat} {r r' : Recorder} {m m' : Moment} {active : List (Name × Int)}
  {written : List Call.Line}

/-- A step on which nothing is written neither enters nor leaves a function. -/
theorem Consistent.silent (h : Consistent limit ⟨m, active, written⟩) (hm : ∀ f, m ≠ .fault f)
    (hkeeps : (∃ f, m' = .fault f) ∨ Frame.calls m'.below = Frame.calls m.below) :
    Consistent limit ⟨m', active, written⟩ := by
  have hcalls : active.length = Frame.calls m.below := h.calls.resolve_left fun ⟨f, hf⟩ => hm f hf
  exact ⟨h.active_le, hkeeps.imp_right fun heq => hcalls.trans heq.symm, h.written⟩

theorem Consistent.enter {g : Definition} {n : Int} {span : Option Span} {below : List Frame}
    (h : Consistent limit ⟨.call g n span below, active, written⟩) (hlt : Frame.calls below < limit) :
    Consistent limit ⟨.eval g.param n g.body (.body :: below), (g.name, n) :: active,
      written ++ [.opened active.length g.name n]⟩ := by
  have hcalls : active.length = Frame.calls below := h.calls.resolve_left (by simp)
  have hwritten : written.foldl Call.Line.follow [] = Call.Line.openedBy active := h.written
  refine ⟨?_, Or.inr (congrArg (· + 1) hcalls), ?_⟩
  · rw [List.length_cons]
    omega
  · rw [List.foldl_append, hwritten]
    rfl

theorem Consistent.leave {v : Int} {below : List Frame} {f : Name} {a : Int} {outer : List (Name × Int)}
    (h : Consistent limit ⟨.value v (.body :: below), (f, a) :: outer, written⟩) :
    Consistent limit ⟨.value v below, outer, written ++ [.closed outer.length f a v]⟩ := by
  have hcalls : outer.length + 1 = Frame.calls below + 1 := h.calls.resolve_left (by simp)
  have hwritten : written.foldl Call.Line.follow [] = Call.Line.openedBy ((f, a) :: outer) := h.written
  refine ⟨Nat.le_of_succ_le h.active_le, Or.inr (Nat.succ.inj hcalls), ?_⟩
  rw [List.foldl_append, hwritten]
  simp [Call.Line.follow, Call.Line.openedBy]

theorem Consistent.next (h : r.Consistent limit) (hnext : p.nextRecorded? limit r = some r') :
    r'.Consistent limit := by
  obtain ⟨m', hm', rfl⟩ := Option.map_eq_some_iff.mp hnext
  obtain ⟨hdeep, hstep⟩ := Program.nextWithin?_eq_some hm'
  obtain ⟨m, active, written⟩ := r
  cases m with
  | fault f => cases hstep
  | eval x a e below =>
    cases hstep
    exact h.silent (by simp) (Moment.calls_takeUp e)
  | call g n span below =>
    cases hstep
    exact h.enter (by simpa [Moment.tooDeep] using hdeep)
  | value v below =>
    cases below with
    | nil => cases hstep
    | cons frame below =>
      cases hstep
      by_cases hframe : frame = .body
      · subst hframe
        cases active with
        | nil => cases h.calls.resolve_left (by simp)
        | cons c outer => exact h.leave
      · have hsilent : follow ⟨.value v (frame :: below), active, written⟩
            (.resume p v below frame) = ⟨.resume p v below frame, active, written⟩ := by
          cases frame <;> first | rfl | exact absurd rfl hframe
        rw [hsilent]
        exact h.silent (by simp) (Moment.calls_resume hframe)

end Recorder

namespace Program

variable {p : Program} {limit : Nat} {r r' : Recorder}

theorem Records.consistent (h : p.Records limit r r') (hr : r.Consistent limit) : r'.Consistent limit := by
  induction h with
  | refl => exact hr
  | tail _ hnext ih => exact ih.next hnext

end Program

end Casewise
