import Casewise.Parallel.Overlap
import Casewise.Proofs.Evaluation.Runtime

/-! Evaluations that overlap in a process. They ask for the same frames, so none of them finds the limit lower
than it would alone, and each comes to what it comes to alone, whatever the order of the steps. -/
namespace Casewise

namespace Stage

/-- The number of blocks that the evaluation has open. -/
def opened : Stage → Nat
  | entered | evaluated _ => 1
  | _ => 0

/-- The number of steps that it can still take. -/
def left : Stage → Nat
  | called => 4
  | counted => 3
  | entered => 2
  | evaluated _ => 1
  | ended _ => 0

/-- So far the evaluation goes as it does alone. -/
def Alone (p : Program) (runtime : Runtime) (limit : Int) (r : Request) : Stage → Prop
  | called => True
  | counted => (∃ x, p.entry r.function r.arguments = .ok x) ∧
      runtime.used + p.nestingFrames ≤ runtime.limit
  | entered => runtime.refusal? p limit = none
  | evaluated run => runtime.refusal? p limit = none ∧
      run = p.execute runtime r.function r.arguments limit
  | ended run => run = p.execute runtime r.function r.arguments limit

variable {p : Program} {runtime : Runtime} {limit : Int} {r : Request} {stage : Stage}

theorem Alone.refusal?_eq_none (h : stage.Alone p runtime limit r) (hopen : 0 < stage.opened) :
    runtime.refusal? p limit = none := by
  cases stage with
  | called | counted | ended => exact absurd hopen (Nat.lt_irrefl 0)
  | entered => exact h
  | evaluated => exact h.1

end Stage

namespace Program

variable {p : Program} {runtime : Runtime} {limit : Int} {r : Request} {stage : Stage} {h : Headroom}
  {others : Nat}

/-- If others have blocks open, there is no less room than without them. -/
theorem limit_le_of_holds (hframes : 0 ≤ p.framesNeeded limit) {count : Nat}
    (hh : runtime.Holds (p.framesNeeded limit) count h) : runtime.limit ≤ h.limit := by
  rw [hh.limit]
  split <;> omega

theorem advance_called (hframes : 0 ≤ p.framesNeeded limit)
    (hh : runtime.Holds (p.framesNeeded limit) others h)
    (hothers : 0 < others → runtime.refusal? p limit = none) :
    (p.advance runtime.used limit r h .called).1 = h ∧
      (p.advance runtime.used limit r h .called).2.opened = 0 ∧
      (p.advance runtime.used limit r h .called).2.Alone p runtime limit r := by
  cases hentry : p.entry r.function r.arguments with
  | error fault =>
    simp only [advance, hentry]
    exact ⟨trivial, rfl, (execute_of_entry_error hentry).symm⟩
  | ok x =>
    have hused := runtime.used_lt
    have hle := limit_le_of_holds hframes hh
    by_cases hlow : runtime.limit < runtime.used + p.nestingFrames
    · have hrefusal : runtime.refusal? p limit = some .exhausted := if_pos hlow
      have hnone : others = 0 := by
        by_contra hne
        cases hrefusal.symm.trans (hothers (Nat.pos_of_ne_zero hne))
      have hlimit : h.limit = runtime.limit := by
        rw [hh.limit, if_pos hnone, Int.add_zero]
      have htake : (h.stack runtime.used).take? p.nestingFrames = none :=
        Stack.take?_frames_eq_none_iff.mpr (by omega)
      simp only [advance, hentry, htake]
      exact ⟨trivial, rfl, (execute_of_refusal hentry hrefusal).symm⟩
    · have htake : (h.stack runtime.used).take? p.nestingFrames = some _ := Stack.take?_frames (by omega)
      simp only [advance, hentry, htake]
      exact ⟨trivial, rfl, ⟨x, hentry⟩, by omega⟩

theorem advance_counted (hh : runtime.Holds (p.framesNeeded limit) others h)
    (halone : Stage.counted.Alone p runtime limit r) :
    runtime.Holds (p.framesNeeded limit) (others + (p.advance runtime.used limit r h .counted).2.opened)
      (p.advance runtime.used limit r h .counted).1 ∧
      (p.advance runtime.used limit r h .counted).2.Alone p runtime limit r := by
  obtain ⟨⟨x, hentry⟩, hcounted⟩ := halone
  have hrefusal : runtime.refusal? p limit =
      Host.standard runtime.used (runtime.limit + p.framesNeeded limit) := if_neg (by omega)
  obtain ⟨henter, hinside⟩ := hh.enter
  rw [← hrefusal] at henter hinside
  rcases hin : h.enter .standard runtime.used (p.framesNeeded limit) with ⟨inside, _ | m⟩
  all_goals
    rw [hin] at henter hinside
    simp only [advance, hin]
  · rw [if_pos henter.symm] at hinside
    exact ⟨hinside, henter.symm⟩
  · rw [if_neg (by rw [← henter]; exact Option.some_ne_none m)] at hinside
    exact ⟨hinside, (execute_of_refusal hentry henter.symm).symm⟩

theorem advance_evaluated {run : Run Int} (hh : runtime.Holds (p.framesNeeded limit) (others + 1) h) :
    runtime.Holds (p.framesNeeded limit) others (p.advance runtime.used limit r h (.evaluated run)).1 ∧
      (p.advance runtime.used limit r h (.evaluated run)).2 = .ended run := by
  obtain ⟨hexit, houtside⟩ := hh.exit
  rcases hout : h.exit .standard runtime.used (p.framesNeeded limit) with ⟨outside, _ | m⟩
  · rw [hout] at houtside
    simp only [advance, hout]
    exact ⟨houtside, trivial⟩
  · rw [hout] at hexit
    cases hexit

/-- An evaluation goes on as it does alone, and opens and leaves only its own block. -/
theorem advance_alone (hframes : 0 ≤ p.framesNeeded limit)
    (hh : runtime.Holds (p.framesNeeded limit) (others + stage.opened) h)
    (hothers : 0 < others → runtime.refusal? p limit = none) (halone : stage.Alone p runtime limit r) :
    runtime.Holds (p.framesNeeded limit) (others + (p.advance runtime.used limit r h stage).2.opened)
      (p.advance runtime.used limit r h stage).1 ∧
      (p.advance runtime.used limit r h stage).2.Alone p runtime limit r := by
  cases stage with
  | called =>
    obtain ⟨hsame, hopened, hnext⟩ := advance_called hframes hh hothers
    rw [hsame, hopened]
    exact ⟨hh, hnext⟩
  | counted => exact advance_counted hh halone
  | entered =>
    refine ⟨hh, halone, ?_⟩
    rw [hh.stack_eq, execute_of_accepted halone]
  | evaluated run =>
    obtain ⟨hnext, hended⟩ := advance_evaluated hh
    rw [hended]
    exact ⟨hnext, halone.2⟩
  | ended run => exact ⟨hh, halone⟩

end Program

namespace Overlap

variable {p : Program} {runtime : Runtime} {limit : Int} {rs : List Request} {o o' : Overlap}

/-- What the evaluations count for together. -/
def tally (count : Stage → Nat) : List (Request × Stage) → Nat
  | [] => 0
  | e :: es => count e.2 + tally count es

theorem tally_around (count : Stage → Nat) (before after : List (Request × Stage)) (r : Request)
    (stage : Stage) :
    tally count (before ++ (r, stage) :: after) = tally count (before ++ after) + count stage := by
  induction before with
  | nil => exact Nat.add_comm _ _
  | cons e es ih => rw [List.cons_append, List.cons_append, tally, tally, ih, Nat.add_assoc]

/-- Every evaluation goes as it does alone, and the limit fits the blocks that are open. -/
structure Kept (p : Program) (runtime : Runtime) (limit : Int) (o : Overlap) : Prop where
  holds : runtime.Holds (p.framesNeeded limit) (tally Stage.opened o.evaluations) o.headroom
  alone : ∀ e ∈ o.evaluations, e.2.Alone p runtime limit e.1

theorem kept_start (p : Program) (runtime : Runtime) (limit : Int) (rs : List Request) :
    Kept p runtime limit (start runtime rs) where
  holds := by
    have hopened : tally Stage.opened (rs.map (·, .called)) = 0 := by
      induction rs with
      | nil => rfl
      | cons r rs ih =>
        rw [List.map_cons, tally, ih]
        rfl
    rw [start, hopened]
    exact .start runtime _
  alone e he := by
    obtain ⟨r, _, rfl⟩ := List.mem_map.mp he
    trivial

theorem refusal?_eq_none {evaluations : List (Request × Stage)}
    (halone : ∀ e ∈ evaluations, e.2.Alone p runtime limit e.1) (hopened : 0 < tally Stage.opened evaluations) :
    runtime.refusal? p limit = none := by
  induction evaluations with
  | nil => exact absurd hopened (Nat.lt_irrefl 0)
  | cons e es ih =>
    obtain ⟨he, hes⟩ := List.forall_mem_cons.mp halone
    rcases Nat.add_pos_iff_pos_or_pos.mp hopened with hfirst | hlater
    · exact he.refusal?_eq_none hfirst
    · exact ih hes hlater

theorem Kept.step (hframes : 0 ≤ p.framesNeeded limit) (ho : Kept p runtime limit o)
    (hstep : Step p runtime.used limit o o') : Kept p runtime limit o' := by
  cases hstep with
  | @advance h before after r stage =>
    obtain ⟨hbefore, hfrom⟩ := List.forall_mem_append.mp ho.alone
    obtain ⟨hown, hafter⟩ := List.forall_mem_cons.mp hfrom
    have hothers : ∀ e ∈ before ++ after, e.2.Alone p runtime limit e.1 :=
      List.forall_mem_append.mpr ⟨hbefore, hafter⟩
    have hholds : runtime.Holds (p.framesNeeded limit)
        (tally Stage.opened (before ++ after) + stage.opened) h := by
      rw [← tally_around Stage.opened before after r]
      exact ho.holds
    obtain ⟨hnext, halone⟩ := Program.advance_alone hframes hholds (refusal?_eq_none hothers) hown
    rw [← tally_around Stage.opened before after r] at hnext
    exact ⟨hnext, List.forall_mem_append.mpr ⟨hbefore, List.forall_mem_cons.mpr ⟨halone, hafter⟩⟩⟩

theorem Reaches.kept (hframes : 0 ≤ p.framesNeeded limit) (h : Reaches p runtime limit rs o) :
    Kept p runtime limit o := by
  induction h with
  | refl => exact kept_start p runtime limit rs
  | tail _ hstep ih => exact ih.step hframes hstep

end Overlap

end Casewise
