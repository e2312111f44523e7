import Mathlib.Data.List.Perm.Basic
import Casewise.Headroom

/-! Blocks of headroom that overlap. Threads open and close them in any order, and other code sets the limit
while none is open. As long as the host refuses none of the limits that this leads to, the limit in force is
what other code has left, and above it as much as the largest of the open blocks asks for. -/
namespace Casewise

theorem Host.standard_eq_none_iff {depth : Nat} {limit : Int} :
    Host.standard depth limit = none ↔ depth < limit ∧ limit ≤ maxLimit := by
  have hmax : maxLimit = 2147483647 := rfl
  unfold Host.standard
  split_ifs <;> simp only [true_iff, false_iff] <;> omega

namespace Headroom

/-- What the largest of some requests asks for. -/
def most (requests : List Int) : Int := requests.max?.getD 0

section

variable {l m : List Int} {f : Int}

theorem le_most (h : f ∈ l) : f ≤ most l := by
  unfold most
  cases hl : l.max? with
  | none =>
    rw [List.max?_eq_none_iff.mp hl] at h
    cases h
  | some a => exact (List.max?_eq_some_iff.mp hl).2 f h

theorem most_mem (h : l ≠ []) : most l ∈ l := by
  unfold most
  cases hl : l.max? with
  | none => exact absurd (List.max?_eq_none_iff.mp hl) h
  | some a => exact List.max?_mem hl

theorem most_eq_iff (h : l ≠ []) : most l = f ↔ f ∈ l ∧ ∀ g ∈ l, g ≤ f := by
  constructor
  · rintro rfl
    exact ⟨most_mem h, fun g => le_most⟩
  · rintro ⟨hf, hle⟩
    exact Int.le_antisymm (hle _ (most_mem h)) (le_most hf)

theorem most_perm (h : l.Perm m) : most l = most m := by
  by_cases hl : l = []
  · subst hl
    rw [List.nil_perm.mp h]
  · have hm : m ≠ [] := fun hm => hl (List.perm_nil.mp (hm ▸ h))
    exact (most_eq_iff hl).mpr ⟨h.mem_iff.mpr (most_mem hm), fun g hg => le_most (h.mem_iff.mp hg)⟩

end

inductive Event
  | enter (depth : Nat) (frames : Int)
  /-- The block at the place among the open ones is left. -/
  | exit (depth place : Nat)
  /-- Other code sets the limit. -/
  | set (depth : Nat) (limit : Int)

/-- The shared limit, and the frames of the blocks that are open, the oldest first. -/
structure World where
  headroom : Headroom
  opened : List Int
deriving DecidableEq

namespace World

/-- What an event leads to, if it can take place: a block has to be open to be left, and other code sets
the limit only while none is. A block is not opened if the limit that it leads to is refused. -/
def next? (host : Host) (w : World) : Event → Option World
  | .enter depth frames =>
    let (headroom, refusal?) := w.headroom.enter host depth frames
    some ⟨headroom, if refusal?.isNone then w.opened ++ [frames] else w.opened⟩
  | .exit depth place => w.opened[place]?.map fun frames =>
    ⟨(w.headroom.exit host depth frames).1, w.opened.eraseIdx place⟩
  | .set depth limit =>
    if w.opened = [] then some { w with headroom := (w.headroom.set host depth limit).1 } else none

def run? (host : Host) (w : World) (events : List Event) : Option World := events.foldlM (next? host) w

/-- Why entering or leaving a block is refused, if it is. -/
def refusal? (host : Host) (w : World) : Event → Option Misuse
  | .enter depth frames => (w.headroom.enter host depth frames).2
  | .exit depth place => w.opened[place]?.bind fun frames => (w.headroom.exit host depth frames).2
  | .set _ _ => none

/-- No block of a run is refused on being entered or left. -/
def accepts (host : Host) (w : World) : List Event → Bool
  | [] => true
  | e :: events => (w.refusal? host e).isNone && (w.next? host e).all fun u => u.accepts host events

end World

/-- The limit at rest, with no block open, after an event. -/
def Event.atRest (host : Host) (limit : Int) : Event → Int
  | set depth new => if (host depth new).isNone then new else limit
  | enter _ _ | exit _ _ => limit

/-- The limit at rest: what other code has set last, or what there was at the beginning. -/
def atRest (host : Host) (limit : Int) (events : List Event) : Int := events.foldl (Event.atRest host) limit

variable {host : Host} {h : Headroom} {w w' : World} {rest limit frames : Int} {depth place : Nat}

section

variable (h host depth limit)

@[simp] theorem set_snd : (h.set host depth limit).2 = host depth limit := by
  unfold set
  cases host depth limit <;> rfl

theorem set_of_none (hhost : host depth limit = none) : h.set host depth limit = ({ h with limit }, none) := by
  rw [set, hhost]

theorem limit_set : (h.set host depth limit).1.limit = if (host depth limit).isNone then limit else h.limit := by
  unfold set
  cases host depth limit <;> rfl

@[simp] theorem base_set : (h.set host depth limit).1.base = h.base := by
  unfold set
  cases host depth limit <;> rfl

@[simp] theorem active_set : (h.set host depth limit).1.active = h.active := by
  unfold set
  cases host depth limit <;> rfl

end

/-- A request that comes in finds the base, or takes the limit in force for it. -/
theorem enter_eq_set (hlimit : h.active = [] → h.limit = rest) (hbase : h.active ≠ [] → h.base = rest) :
    h.enter host depth frames = set ⟨h.limit, rest, h.active ++ [frames]⟩ host depth
      (rest + most (h.active ++ [frames])) := by
  by_cases hactive : h.active = []
  · have hrest := hlimit hactive
    simp only [enter, demanded, hactive, List.isEmpty_nil, if_true, hrest, most]
  · have hempty : h.active.isEmpty = false := by simpa using hactive
    simp only [enter, demanded, hempty, hbase hactive, if_false, Bool.false_eq_true, most]

theorem exit_eq_set (hbase : h.base = rest) :
    h.exit host depth frames = set ⟨h.limit, rest, h.active.erase frames⟩ host depth
      (rest + most (h.active.erase frames)) := by
  simp only [exit, demanded, hbase, most]

/-- A block that is left takes its own request with it, or an equal one. -/
theorem erase_perm {active strays opened : List Int} (hperm : active.Perm (opened ++ strays))
    (hb : opened[place]? = some frames) : (active.erase frames).Perm (opened.eraseIdx place ++ strays) := by
  obtain ⟨hlt, rfl⟩ := List.getElem?_eq_some_iff.mp hb
  have hopened : (opened[place] :: opened.eraseIdx place).Perm opened := List.getElem_cons_eraseIdx_perm hlt
  have hall : (opened[place] :: (opened.eraseIdx place ++ strays)).Perm active :=
    (hopened.append_right strays).trans hperm.symm
  exact (List.cons_perm_iff_perm_erase.mp hall).2.symm

/-- The requests are those of the open blocks, the base is the limit at rest while one is open, and
the limit in force is what both lead to. -/
structure Kept (rest : Int) (w : World) : Prop where
  active : w.headroom.active.Perm w.opened
  base : w.opened ≠ [] → w.headroom.base = rest
  limit : w.headroom.limit = rest + most w.opened

namespace Kept

theorem start (hactive : h.active = []) : Kept h.limit ⟨h, []⟩ where
  active := by rw [hactive]
  base hne := absurd rfl hne
  limit := (Int.add_zero _).symm

theorem opened_eq_nil_iff (hw : Kept rest w) : w.headroom.active = [] ↔ w.opened = [] := by
  rw [← List.isEmpty_iff, ← List.isEmpty_iff, hw.active.isEmpty_eq]

theorem limit_eq (hw : Kept rest w) (hopened : w.opened = []) : w.headroom.limit = rest := by
  rw [hw.limit, hopened]
  exact Int.add_zero rest

theorem active_exit (hw : Kept rest w) (hb : w.opened[place]? = some frames) :
    (w.headroom.active.erase frames).Perm (w.opened.eraseIdx place) := by
  have hperm : w.headroom.active.Perm (w.opened ++ []) := by
    rw [List.append_nil]
    exact hw.active
  have herase := erase_perm hperm hb
  rwa [List.append_nil] at herase

theorem enter_eq (hw : Kept rest w) (depth : Nat) (frames : Int) :
    w.headroom.enter host depth frames =
      set ⟨w.headroom.limit, rest, w.headroom.active ++ [frames]⟩ host depth
        (rest + most (w.opened ++ [frames])) := by
  rw [enter_eq_set (fun hnil => hw.limit_eq (hw.opened_eq_nil_iff.mp hnil))
    (fun hne => hw.base (mt hw.opened_eq_nil_iff.mpr hne)), most_perm (hw.active.append_right [frames])]

theorem exit_eq (hw : Kept rest w) (depth : Nat) (hb : w.opened[place]? = some frames) :
    w.headroom.exit host depth frames =
      set ⟨w.headroom.limit, rest, w.headroom.active.erase frames⟩ host depth
        (rest + most (w.opened.eraseIdx place)) := by
  have hopened : w.opened ≠ [] := by
    intro hnil
    rw [hnil] at hb
    cases hb
  rw [exit_eq_set (hw.base hopened), most_perm (hw.active_exit hb)]

/-- Every event that is not refused keeps to it. -/
theorem next? {e : Event} (hw : Kept rest w) (haccepted : w.refusal? host e = none)
    (hnext : w.next? host e = some w') : Kept (e.atRest host rest) w' := by
  cases e with
  | enter depth frames =>
    simp only [World.refusal?, hw.enter_eq, set_snd] at haccepted
    simp only [World.next?, hw.enter_eq, set_of_none _ _ _ _ haccepted, Option.isNone_none, if_true] at hnext
    cases hnext
    exact ⟨hw.active.append_right [frames], fun _ => rfl, rfl⟩
  | exit depth place =>
    obtain ⟨frames, hb, rfl⟩ := Option.map_eq_some_iff.mp hnext
    simp only [World.refusal?, hb, Option.bind_some, hw.exit_eq depth hb, set_snd] at haccepted
    rw [hw.exit_eq depth hb, set_of_none _ _ _ _ haccepted]
    exact ⟨hw.active_exit hb, fun _ => rfl, rfl⟩
  | set depth limit =>
    by_cases hopened : w.opened = []
    · simp only [World.next?, hopened, if_true] at hnext
      cases hnext
      refine ⟨?_, fun hne => absurd rfl hne, ?_⟩
      · rw [active_set, ← hopened]
        exact hw.active
      · rw [limit_set, hw.limit_eq hopened]
        exact (Int.add_zero _).symm
    · simp [World.next?, hopened] at hnext

theorem run? {events : List Event} (hw : Kept rest w) (haccepted : w.accepts host events)
    (hrun : w.run? host events = some w') : Kept (Headroom.atRest host rest events) w' := by
  induction events generalizing rest w with
  | nil =>
    cases hrun
    exact hw
  | cons e events ih =>
    obtain ⟨u, hu, hlater⟩ := Option.bind_eq_some_iff.mp hrun
    obtain ⟨hnone, hrest⟩ := Bool.and_eq_true_iff.mp haccepted
    have hkept : Kept (e.atRest host rest) u := hw.next? (Option.isNone_iff_eq_none.mp hnone) hu
    rw [hu, Option.all_some] at hrest
    exact ih hkept hrest hlater

end Kept

end Headroom

end Casewise
