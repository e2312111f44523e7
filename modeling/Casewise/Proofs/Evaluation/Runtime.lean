import Casewise.Evaluation.Runtime
import Casewise.Proofs.Headroom

/-! Evaluations in a process, which all ask for the same. Whatever blocks are open, the next one that is
entered or left finds the same limits, so an evaluation is refused or is what it is on the stack that it asks
for. -/
namespace Casewise

namespace Headroom

variable {h : Headroom} {used : Nat} {frames : Int}

theorem within_of_enter_refused {m : Misuse} (henter : (h.enter .standard used frames).2 = some m)
    (block : Stack → Run Int) : (h.within used frames block).2 = .fault (.misuse m) := by
  unfold within
  split
  next inside m' heq =>
    rw [heq] at henter
    cases henter
    rfl
  next inside heq =>
    rw [heq] at henter
    cases henter

theorem within_of_accepted (henter : (h.enter .standard used frames).2 = none)
    (hexit : ((h.enter .standard used frames).1.exit .standard used frames).2 = none)
    (block : Stack → Run Int) :
    (h.within used frames block).2 = block ((h.enter .standard used frames).1.stack used) := by
  unfold within
  split
  next inside m heq =>
    rw [heq] at henter
    cases henter
  next inside heq =>
    rw [heq] at hexit ⊢
    dsimp only
    split
    next outside m hout =>
      rw [hout] at hexit
      cases hexit
    next outside hout => rfl

end Headroom

namespace Runtime

/-- Why the frames that an evaluation asks for are not to be had, if they are not. -/
def refusal? (runtime : Runtime) (p : Program) (limit : Int) : Option Misuse :=
  if runtime.limit < runtime.used + p.nestingFrames then some .exhausted
  else Host.standard runtime.used (runtime.limit + p.framesNeeded limit)

def stackWith (runtime : Runtime) (frames : Int) : Stack :=
  .frames (runtime.limit + frames - runtime.used).toNat

/-- So many blocks are open, all with the same frames. If these are refused, none is, but the requests stay. -/
structure Holds (runtime : Runtime) (frames : Int) (count : Nat) (h : Headroom) : Prop where
  limit : h.limit = runtime.limit + if count = 0 then 0 else frames
  base : h.active ≠ [] → h.base = runtime.limit
  active : ∀ f ∈ h.active, f = frames
  length : Host.standard runtime.used (runtime.limit + frames) = none → h.active.length = count
  refused : Host.standard runtime.used (runtime.limit + frames) ≠ none → count = 0

variable {runtime : Runtime} {frames : Int} {h : Headroom} {count : Nat}

theorem standard_limit (runtime : Runtime) : Host.standard runtime.used runtime.limit = none :=
  Host.standard_eq_none_iff.mpr ⟨runtime.used_lt, runtime.le_max⟩

theorem most_of_forall {l : List Int} (hne : l ≠ []) (hall : ∀ f ∈ l, f = frames) :
    Headroom.most l = frames :=
  hall _ (Headroom.most_mem hne)

namespace Holds

theorem start (runtime : Runtime) (frames : Int) : runtime.Holds frames 0 (.start runtime.limit) where
  limit := (Int.add_zero _).symm
  base hne := absurd rfl hne
  active := by simp [Headroom.start]
  length _ := rfl
  refused _ := rfl

theorem limit_eq (hh : runtime.Holds frames count h) (hactive : h.active = []) :
    h.limit = runtime.limit := by
  have hcount : count = 0 := by
    by_cases hhost : Host.standard runtime.used (runtime.limit + frames) = none
    · rw [← hh.length hhost, hactive]
      rfl
    · exact hh.refused hhost
  rw [hh.limit, hcount]
  exact Int.add_zero _

/-- A block that is entered finds the same limit, however many are open. -/
theorem enter (hh : runtime.Holds frames count h) :
    (h.enter .standard runtime.used frames).2 =
      Host.standard runtime.used (runtime.limit + frames) ∧
    runtime.Holds frames
      (if Host.standard runtime.used (runtime.limit + frames) = none then count + 1 else count)
      (h.enter .standard runtime.used frames).1 := by
  have hall : ∀ f ∈ h.active ++ [frames], f = frames := by
    intro f hf
    rcases List.mem_append.mp hf with hf | hf
    · exact hh.active f hf
    · exact List.mem_singleton.mp hf
  rw [Headroom.enter_eq_set hh.limit_eq hh.base, most_of_forall (by simp) hall]
  refine ⟨Headroom.set_snd .., ?_, ?_, ?_, ?_, ?_⟩
  · rw [Headroom.limit_set]
    cases hhost : Host.standard runtime.used (runtime.limit + frames) with
    | none => rfl
    | some m => simpa using hh.limit
  · exact fun _ => Headroom.base_set ..
  · rwa [Headroom.active_set]
  · intro hhost
    rw [if_pos hhost, Headroom.active_set, List.length_append, hh.length hhost]
    rfl
  · intro hhost
    rw [if_neg hhost]
    exact hh.refused hhost

/-- A block that is left is never refused. -/
theorem exit (hh : runtime.Holds frames (count + 1) h) :
    (h.exit .standard runtime.used frames).2 = none ∧
      runtime.Holds frames count (h.exit .standard runtime.used frames).1 := by
  have hhost : Host.standard runtime.used (runtime.limit + frames) = none :=
    Classical.not_not.mp fun hne => absurd (hh.refused hne) (Nat.succ_ne_zero count)
  have hactive : h.active ≠ [] := List.ne_nil_of_length_eq_add_one (hh.length hhost)
  have hmem : frames ∈ h.active := by
    obtain ⟨f, hf⟩ := List.exists_mem_of_ne_nil _ hactive
    rwa [← hh.active f hf]
  have hlength : (h.active.erase frames).length = count := by
    rw [List.length_erase_of_mem hmem, hh.length hhost, Nat.add_sub_cancel]
  have hall : ∀ f ∈ h.active.erase frames, f = frames := fun f hf =>
    hh.active f (List.mem_of_mem_erase hf)
  have hmost : Headroom.most (h.active.erase frames) = if count = 0 then 0 else frames := by
    by_cases hcount : count = 0
    · rw [if_pos hcount, List.eq_nil_of_length_eq_zero (hlength.trans hcount)]
      rfl
    · rw [if_neg hcount]
      exact most_of_forall (List.ne_nil_of_length_pos (by omega)) hall
  have hset : Host.standard runtime.used (runtime.limit + if count = 0 then 0 else frames) = none := by
    split
    · rw [Int.add_zero]
      exact runtime.standard_limit
    · exact hhost
  have hexit : h.exit .standard runtime.used frames =
      (⟨runtime.limit + if count = 0 then 0 else frames, runtime.limit, h.active.erase frames⟩, none) := by
    rw [Headroom.exit_eq_set (hh.base hactive), hmost, Headroom.set_of_none _ _ _ _ hset]
  rw [hexit]
  exact ⟨rfl, rfl, fun _ => rfl, hall, fun _ => hlength, fun hne => absurd hhost hne⟩

theorem stack_eq (hh : runtime.Holds frames (count + 1) h) :
    h.stack runtime.used = runtime.stackWith frames := by
  rw [Headroom.stack, hh.limit, if_neg (Nat.succ_ne_zero count), stackWith]

end Holds

end Runtime

namespace Program

variable {runtime : Runtime} {function : Name} {arguments : List Argument} {limit : Int} {p : Program}

theorem execute_of_entry_error {fault : Fault} (hentry : p.entry function arguments = .error fault) :
    p.execute runtime function arguments limit = .fault fault := by
  rw [execute, executeIn, hentry]

theorem execute_of_entry_ok {x : Definition × Int} (hentry : p.entry function arguments = .ok x) :
    p.execute runtime function arguments limit =
      match runtime.refusal? p limit with
      | some m => .fault (.misuse m)
      | none => p.evaluateOn (runtime.stackWith (p.framesNeeded limit)) function arguments limit := by
  have hused := runtime.used_lt
  obtain ⟨henter, hopen⟩ := (Runtime.Holds.start runtime (p.framesNeeded limit)).enter
  have hstack : (Headroom.start runtime.limit).stack runtime.used = runtime.stack := rfl
  rw [execute, executeIn, hentry, hstack, Runtime.refusal?]
  by_cases hlow : runtime.limit < runtime.used + p.nestingFrames
  · have htake : runtime.stack.take? p.nestingFrames = none :=
      Stack.take?_frames_eq_none_iff.mpr (by omega)
    simp only [htake, hlow, if_true]
  · have htake : runtime.stack.take? p.nestingFrames = some _ := Stack.take?_frames (by omega)
    simp only [htake, hlow, if_false]
    cases hhost : Host.standard runtime.used (runtime.limit + p.framesNeeded limit) with
    | some m => exact Headroom.within_of_enter_refused (henter.trans hhost) _
    | none =>
      rw [if_pos hhost] at hopen
      rw [Headroom.within_of_accepted (henter.trans hhost) hopen.exit.1, hopen.stack_eq]

theorem execute_of_refusal {x : Definition × Int} {m : Misuse} (hentry : p.entry function arguments = .ok x)
    (hm : runtime.refusal? p limit = some m) :
    p.execute runtime function arguments limit = .fault (.misuse m) := by
  rw [execute_of_entry_ok hentry, hm]

/-- What is not refused is what it is on the stack that it asks for. -/
theorem execute_of_accepted (hnone : runtime.refusal? p limit = none) :
    p.execute runtime function arguments limit =
      p.evaluateOn (runtime.stackWith (p.framesNeeded limit)) function arguments limit := by
  cases hentry : p.entry function arguments with
  | error fault => rw [execute_of_entry_error hentry, evaluateOn, hentry]
  | ok x => rw [execute_of_entry_ok hentry, hnone]

theorem execute_eq_evaluateOn_or_misuse (p : Program) (runtime : Runtime) (function : Name)
    (arguments : List Argument) (limit : Int) :
    (∃ stack, p.execute runtime function arguments limit = p.evaluateOn stack function arguments limit) ∨
      ∃ m, p.execute runtime function arguments limit = .fault (.misuse m) := by
  cases hentry : p.entry function arguments with
  | error fault =>
    refine Or.inl ⟨.endless, ?_⟩
    rw [execute_of_entry_error hentry, evaluateOn, hentry]
  | ok x =>
    cases hrefusal : runtime.refusal? p limit with
    | none => exact Or.inl ⟨_, execute_of_accepted hrefusal⟩
    | some m => exact Or.inr ⟨m, execute_of_refusal hentry hrefusal⟩

end Program

end Casewise
