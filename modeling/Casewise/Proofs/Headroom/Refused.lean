import Casewise.Proofs.Headroom

/-! Requests that are refused. A request is registered before the limit that it leads to is set, and it stays
registered if that limit is refused. Entering a block shows nothing of it. But nobody withdraws it, so there is
always an active request from then on, and one that no limit can meet: whoever leaves the last open block is
refused, and the limit stays where it was. -/
namespace Casewise

namespace Headroom

variable {host : Host} {h : Headroom} {w w' : World} {rest frames : Int} {place : Nat} {strays : List Int}

/-- Some block asks for a limit that can be set. -/
def Carries (rest : Int) (blocks : List Int) : Prop := ∃ f ∈ blocks, 1 ≤ rest + f

/-- The limit that requests lead to can be set if one of them alone leads to such a limit. -/
theorem one_le_most_iff {blocks : List Int} (hrest : 1 ≤ rest) :
    1 ≤ rest + most blocks ↔ blocks = [] ∨ Carries rest blocks := by
  by_cases hblocks : blocks = []
  · have hzero : rest + most blocks = rest := by
      rw [hblocks]
      exact Int.add_zero rest
    rw [hzero]
    exact iff_of_true hrest (Or.inl hblocks)
  · constructor
    · exact fun hone => Or.inr ⟨_, most_mem hblocks, hone⟩
    · rintro (hnil | ⟨f, hf, hone⟩)
      · exact absurd hnil hblocks
      · have hle : f ≤ most blocks := le_most hf
        omega

namespace World

/-- The frames for which a request is refused at an event. -/
def refusedAt (host : Host) (w : World) : Event → List Int
  | .enter depth frames => if (w.headroom.enter host depth frames).2.isNone then [] else [frames]
  | .exit _ _ | .set _ _ => []

def refused (host : Host) (w : World) : List Event → List Int
  | [] => []
  | e :: events => w.refusedAt host e ++ ((w.next? host e).map fun u => u.refused host events).getD []

end World

/-- The requests are those of the open blocks and those that were refused. None of the latter leads to a limit
that can be set. The base is the limit at rest, which is also in force while no request is active. -/
structure Registered (rest : Int) (strays : List Int) (w : World) : Prop where
  active : w.headroom.active.Perm (w.opened ++ strays)
  strays_lt : ∀ f ∈ strays, rest + f < 1
  base : w.headroom.active ≠ [] → w.headroom.base = rest
  limit : w.headroom.active = [] → w.headroom.limit = rest
  one_le : 1 ≤ rest

namespace Registered

theorem start (hactive : h.active = []) (hlimit : 1 ≤ h.limit) : Registered h.limit [] ⟨h, []⟩ where
  active := by rw [hactive]; rfl
  strays_lt := by simp
  base hne := absurd hactive hne
  limit _ := rfl
  one_le := hlimit

/-- A request that was refused makes no difference to what can be set. -/
theorem carries_append_iff (hw : Registered rest strays w) (blocks : List Int) :
    Carries rest (blocks ++ strays) ↔ Carries rest blocks := by
  constructor
  · rintro ⟨f, hf, hone⟩
    rcases List.mem_append.mp hf with hf | hf
    · exact ⟨f, hf, hone⟩
    · have hlow := hw.strays_lt f hf
      omega
  · rintro ⟨f, hf, hone⟩
    exact ⟨f, List.mem_append_left _ hf, hone⟩

theorem most_append (hw : Registered rest strays w) {blocks : List Int} (hc : Carries rest blocks) :
    most (blocks ++ strays) = most blocks := by
  obtain ⟨f, hf, hone⟩ := hc
  have hblocks : blocks ≠ [] := List.ne_nil_of_mem hf
  refine (most_eq_iff (List.append_ne_nil_of_left_ne_nil hblocks strays)).mpr
    ⟨List.mem_append_left _ (most_mem hblocks), fun g hg => ?_⟩
  rcases List.mem_append.mp hg with hg | hg
  · exact le_most hg
  · have hlow := hw.strays_lt g hg
    have hle : f ≤ most blocks := le_most hf
    omega

theorem active_enter (hw : Registered rest strays w) (frames : Int) :
    (w.headroom.active ++ [frames]).Perm ((w.opened ++ [frames]) ++ strays) := by
  have hperm := hw.active.append_right [frames]
  rw [List.append_assoc] at hperm
  rw [List.append_assoc]
  exact hperm.trans (List.perm_append_comm.append_left _)

theorem enter_eq (hw : Registered rest strays w) (depth : Nat) (frames : Int) :
    w.headroom.enter host depth frames =
      set ⟨w.headroom.limit, rest, w.headroom.active ++ [frames]⟩ host depth
        (rest + most ((w.opened ++ [frames]) ++ strays)) := by
  rw [enter_eq_set hw.limit hw.base, most_perm (hw.active_enter frames)]

theorem exit_eq (hw : Registered rest strays w) (depth : Nat) (hb : w.opened[place]? = some frames) :
    w.headroom.exit host depth frames =
      set ⟨w.headroom.limit, rest, w.headroom.active.erase frames⟩ host depth
        (rest + most (w.opened.eraseIdx place ++ strays)) := by
  have hactive : w.headroom.active ≠ [] := by
    intro hnil
    have hperm := hw.active
    rw [hnil, List.nil_perm, List.append_eq_nil_iff] at hperm
    rw [hperm.1] at hb
    cases hb
  rw [exit_eq_set (hw.base hactive), most_perm (erase_perm hw.active hb)]

section

variable (hhost : ∀ depth limit, host depth limit = none ↔ 1 ≤ limit)

include hhost

/-- A block is entered if one of the open blocks, or the block itself, asks for a limit that can be set. -/
theorem enter_accepts_iff (hw : Registered rest strays w) (depth : Nat) (frames : Int) :
    (w.headroom.enter host depth frames).2 = none ↔ Carries rest (w.opened ++ [frames]) := by
  have hne : (w.opened ++ [frames]) ++ strays ≠ [] := by simp
  rw [hw.enter_eq, set_snd, hhost, one_le_most_iff hw.one_le, hw.carries_append_iff]
  simp only [hne, false_or]

/-- A block is left if another open block asks for a limit that can be set, or if no request is left. -/
theorem exit_accepts_iff (hw : Registered rest strays w) (depth : Nat) (hb : w.opened[place]? = some frames) :
    (w.headroom.exit host depth frames).2 = none ↔
      w.opened.eraseIdx place = [] ∧ strays = [] ∨ Carries rest (w.opened.eraseIdx place) := by
  rw [hw.exit_eq depth hb, set_snd, hhost, one_le_most_iff hw.one_le, hw.carries_append_iff,
    List.append_eq_nil_iff]

theorem limit_enter (hw : Registered rest strays w) (depth : Nat) (frames : Int) :
    ((w.headroom.enter host depth frames).2 = none →
      (w.headroom.enter host depth frames).1.limit = rest + most (w.opened ++ [frames])) ∧
    ((w.headroom.enter host depth frames).2 ≠ none →
      (w.headroom.enter host depth frames).1.limit = w.headroom.limit) := by
  have haccepts := hw.enter_accepts_iff hhost depth frames
  rw [hw.enter_eq, set_snd] at haccepts ⊢
  rw [limit_set]
  constructor
  · intro hnone
    rw [hnone, hw.most_append (haccepts.mp hnone)]
    rfl
  · intro hsome
    rw [Option.isNone_eq_false_iff.mpr (Option.isSome_iff_ne_none.mpr hsome)]
    rfl

theorem limit_exit (hw : Registered rest strays w) (depth : Nat) (hb : w.opened[place]? = some frames) :
    ((w.headroom.exit host depth frames).2 = none →
      (w.headroom.exit host depth frames).1.limit = rest + most (w.opened.eraseIdx place)) ∧
    ((w.headroom.exit host depth frames).2 ≠ none →
      (w.headroom.exit host depth frames).1.limit = w.headroom.limit) := by
  have haccepts := hw.exit_accepts_iff hhost depth hb
  rw [hw.exit_eq depth hb, set_snd] at haccepts ⊢
  rw [limit_set]
  constructor
  · intro hnone
    rw [hnone]
    rcases haccepts.mp hnone with ⟨hopened, hstrays⟩ | hc
    · rw [hopened, hstrays]
      rfl
    · rw [hw.most_append hc]
      rfl
  · intro hsome
    rw [Option.isNone_eq_false_iff.mpr (Option.isSome_iff_ne_none.mpr hsome)]
    rfl

/-- An event registers what it refuses. -/
theorem next? {e : Event} (hw : Registered rest strays w) (he : ∀ depth limit, e ≠ .set depth limit)
    (hnext : w.next? host e = some w') : Registered rest (strays ++ w.refusedAt host e) w' := by
  cases e with
  | set depth limit => exact absurd rfl (he depth limit)
  | enter depth frames =>
    have hactive : (w.headroom.enter host depth frames).1.active = w.headroom.active ++ [frames] := by
      rw [hw.enter_eq, active_set]
    have hbase : (w.headroom.enter host depth frames).1.base = rest := by rw [hw.enter_eq, base_set]
    have hne : (w.headroom.enter host depth frames).1.active ≠ [] := by simp [hactive]
    cases hrefusal : (w.headroom.enter host depth frames).2 with
    | none =>
      simp only [World.next?, hrefusal, Option.isNone_none, if_true, Option.some.injEq] at hnext
      subst hnext
      simp only [World.refusedAt, hrefusal, Option.isNone_none, if_true, List.append_nil]
      refine ⟨?_, hw.strays_lt, fun _ => hbase, fun hnil => absurd hnil hne, hw.one_le⟩
      rw [hactive]
      exact hw.active_enter frames
    | some m =>
      simp only [World.next?, hrefusal, Option.isNone_some, Bool.false_eq_true, if_false,
        Option.some.injEq] at hnext
      subst hnext
      simp only [World.refusedAt, hrefusal, Option.isNone_some, Bool.false_eq_true, if_false]
      have hcarries : ¬ Carries rest (w.opened ++ [frames]) := by
        rw [← hw.enter_accepts_iff hhost depth, hrefusal]
        exact Option.some_ne_none m
      refine ⟨?_, fun f hf => ?_, fun _ => hbase, fun hnil => absurd hnil hne, hw.one_le⟩
      · rw [hactive, ← List.append_assoc]
        exact hw.active.append_right [frames]
      · rcases List.mem_append.mp hf with hf | hf
        · exact hw.strays_lt f hf
        · rw [List.mem_singleton.mp hf]
          exact Int.not_le.mp fun hone => hcarries ⟨frames, by simp, hone⟩
  | exit depth place =>
    obtain ⟨frames, hb, rfl⟩ := Option.map_eq_some_iff.mp hnext
    have hperm := erase_perm hw.active hb
    have hactive : (w.headroom.exit host depth frames).1.active = w.headroom.active.erase frames := by
      rw [hw.exit_eq depth hb, active_set]
    have hbase : (w.headroom.exit host depth frames).1.base = rest := by rw [hw.exit_eq depth hb, base_set]
    simp only [World.refusedAt, List.append_nil]
    refine ⟨by rwa [hactive], hw.strays_lt, fun _ => hbase, fun hnil => ?_, hw.one_le⟩
    -- the last request that is withdrawn brings the base back
    rw [hactive] at hnil
    rw [hnil, List.nil_perm] at hperm
    change (w.headroom.exit host depth frames).1.limit = rest
    rw [hw.exit_eq depth hb, hperm, limit_set, (hhost _ _).mpr]
    · exact Int.add_zero rest
    · exact Int.le_trans hw.one_le (Int.le_of_eq (Int.add_zero rest).symm)

theorem run? {events : List Event} (hw : Registered rest strays w)
    (hevents : ∀ depth limit, .set depth limit ∉ events) (hrun : w.run? host events = some w') :
    Registered rest (strays ++ w.refused host events) w' := by
  induction events generalizing w strays with
  | nil =>
    cases hrun
    rwa [World.refused, List.append_nil]
  | cons e events ih =>
    obtain ⟨u, hu, hlater⟩ := Option.bind_eq_some_iff.mp hrun
    have he : ∀ depth limit, e ≠ .set depth limit := by
      rintro depth limit rfl
      exact hevents depth limit List.mem_cons_self
    have hrest : ∀ depth limit, .set depth limit ∉ events :=
      fun depth limit hmem => hevents depth limit (List.mem_cons_of_mem e hmem)
    have hregistered := ih (hw.next? hhost he hu) hrest hlater
    rwa [World.refused, hu, Option.map_some, Option.getD_some, ← List.append_assoc]

end

end Registered

/-- Requests that are refused stay registered. They make no difference to entries, and once there is one, the
last open block is refused on being left as well. What is refused leaves the limit as it was. -/
theorem run_refused (hhost : ∀ depth limit, host depth limit = none ↔ 1 ≤ limit) (hactive : h.active = [])
    (hlimit : 1 ≤ h.limit) {events : List Event} (hevents : ∀ depth limit, .set depth limit ∉ events)
    (hrun : World.run? host ⟨h, []⟩ events = some w) :
    w.headroom.active.Perm (w.opened ++ World.refused host ⟨h, []⟩ events) ∧
    (w.opened = [] → World.refused host ⟨h, []⟩ events = [] → w.headroom.limit = h.limit) ∧
    (∀ depth f,
      ((w.headroom.enter host depth f).2 = none ↔ Carries h.limit (w.opened ++ [f])) ∧
      ((w.headroom.enter host depth f).2 = none →
        (w.headroom.enter host depth f).1.limit = h.limit + most (w.opened ++ [f])) ∧
      ((w.headroom.enter host depth f).2 ≠ none →
        (w.headroom.enter host depth f).1.limit = w.headroom.limit)) ∧
    ∀ depth place f, w.opened[place]? = some f →
      ((w.headroom.exit host depth f).2 = none ↔
        w.opened.eraseIdx place = [] ∧ World.refused host ⟨h, []⟩ events = [] ∨
        Carries h.limit (w.opened.eraseIdx place)) ∧
      ((w.headroom.exit host depth f).2 = none →
        (w.headroom.exit host depth f).1.limit = h.limit + most (w.opened.eraseIdx place)) ∧
      ((w.headroom.exit host depth f).2 ≠ none →
        (w.headroom.exit host depth f).1.limit = w.headroom.limit) := by
  have hw : Registered h.limit (World.refused host ⟨h, []⟩ events) w :=
    (Registered.start hactive hlimit).run? hhost hevents hrun
  refine ⟨hw.active, fun hopened hrefused => ?_,
    fun depth f => ⟨hw.enter_accepts_iff hhost depth f, hw.limit_enter hhost depth f⟩,
    fun depth place f hb => ⟨hw.exit_accepts_iff hhost depth hb, hw.limit_exit hhost depth hb⟩⟩
  apply hw.limit
  have hperm := hw.active
  rwa [hopened, hrefused, List.append_nil, List.perm_nil] at hperm

/-- A host that sets every limit from 1 on. -/
def positive : Host := fun _ limit => if 1 ≤ limit then none else some .lowLimit

theorem positive_eq_none_iff (depth : Nat) (limit : Int) : positive depth limit = none ↔ 1 ≤ limit := by
  simp [positive]

/-- A block that no limit can meet is not entered, and an ordinary one behind it cannot be left. -/
theorem run_refused_ordinary :
    let h : Headroom := start 1000
    let events : List Event := [.enter 10 (-2000), .enter 20 100]
    (∀ depth limit, positive depth limit = none ↔ 1 ≤ limit) ∧ h.active = [] ∧ 1 ≤ h.limit ∧
      (∀ depth limit, .set depth limit ∉ events) ∧
      ∃ w, World.run? positive ⟨h, []⟩ events = some w ∧ w.opened = [100] ∧
        (w.headroom.exit positive 20 100).2 ≠ none ∧ (w.headroom.exit positive 20 100).1.limit = 1100 := by
  intro h events
  have hevents : ∀ depth limit, .set depth limit ∉ events := by simp [events]
  have hrun : World.run? positive ⟨h, []⟩ events = some ⟨⟨1100, 1000, [-2000, 100]⟩, [100]⟩ := by
    decide +kernel
  have hrefused : World.refused positive ⟨h, []⟩ events ≠ [] := by decide +kernel
  obtain ⟨_, _, _, hexit⟩ := run_refused positive_eq_none_iff rfl (by decide) hevents hrun
  obtain ⟨haccepts, _, hkept⟩ := hexit 20 0 100 rfl
  have hnot : (Headroom.exit ⟨1100, 1000, [-2000, 100]⟩ positive 20 100).2 ≠ none := by
    intro hleft
    rcases haccepts.mp hleft with ⟨_, hnone⟩ | ⟨f, hf, _⟩
    · exact hrefused hnone
    · cases hf
  exact ⟨positive_eq_none_iff, rfl, by decide, hevents, _, hrun, rfl, hnot, hkept hnot⟩

/-- An entry that is refused shows for good. An ordinary block, which by itself is entered and left without a
trace, is refused behind it on being left, and the limit is not the one of the beginning when no block is open. -/
theorem run_refused_traces :
    let h : Headroom := start 1000
    (h.enter positive 10 (-2000)).1 = ⟨1000, 1000, [-2000]⟩ ∧ (h.enter positive 10 (-2000)).2 ≠ none ∧
      World.run? positive ⟨h, []⟩ [.enter 20 100, .exit 20 0] = some ⟨h, []⟩ ∧
      World.run? positive ⟨h, []⟩ [.enter 10 (-2000), .enter 20 100] =
        some ⟨⟨1100, 1000, [-2000, 100]⟩, [100]⟩ ∧
      (Headroom.exit ⟨1100, 1000, [-2000, 100]⟩ positive 20 100).2 ≠ none ∧
      World.run? positive ⟨h, []⟩ [.enter 10 (-2000), .enter 20 100, .exit 20 0] =
        some ⟨⟨1100, 1000, [-2000]⟩, []⟩ := by
  intro h
  refine ⟨by decide +kernel, nofun, by decide +kernel, by decide +kernel, nofun, by decide +kernel⟩

end Headroom

end Casewise
