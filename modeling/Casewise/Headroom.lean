import Casewise.Misuse

/-!
Headroom under a limit on the stack that a whole process shares. Requests overlap and end in any
order; the largest active one sets the limit, and the last to end restores the base. What limits can be set
is up to the host, and depends on how deep in the stack the caller is.
-/
namespace Casewise

/-- Why a caller at some depth does not get a limit set, if it does not. -/
abbrev Host := Nat → Int → Option Misuse

/-- The largest limit that there is, `2 ^ 31 - 1`. -/
def maxLimit : Int := 2147483647

def Host.standard : Host := fun depth limit =>
  if limit < -maxLimit - 1 ∨ maxLimit < limit then some .hugeLimit
  else if limit < 1 then some .lowLimit
  else if limit ≤ depth then some (.deepLimit limit depth)
  else none

structure Headroom where
  limit : Int
  /-- The limit when the first of the active requests came in. -/
  base : Int
  active : List Int
deriving DecidableEq, Repr

namespace Headroom

def start (limit : Int) : Headroom := ⟨limit, limit, []⟩

def demanded (h : Headroom) : Int := h.base + h.active.max?.getD 0

/-- Sets the limit, or says why not. A limit that is refused changes nothing. -/
def set (h : Headroom) (host : Host) (depth : Nat) (limit : Int) : Headroom × Option Misuse :=
  match host depth limit with
  | none => ({ h with limit }, none)
  | some m => (h, some m)

/-- A request comes in. It is active even if the limit that it leads to is refused. -/
def enter (h : Headroom) (host : Host) (depth : Nat) (frames : Int) : Headroom × Option Misuse :=
  let h := if h.active.isEmpty then { h with base := h.limit } else h
  let h := { h with active := h.active ++ [frames] }
  h.set host depth h.demanded

def exit (h : Headroom) (host : Host) (depth : Nat) (frames : Int) : Headroom × Option Misuse :=
  let h := { h with active := h.active.erase frames }
  h.set host depth h.demanded

end Headroom

end Casewise
