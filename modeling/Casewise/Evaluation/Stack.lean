/-!
Stacks, as far as an evaluation can tell: how many frames are left. On a stack without end a frame
is always there. Only evaluations are given a stack; reading, printing and listing a program have all that
they take.
-/
namespace Casewise

inductive Stack
  | endless
  | frames (left : Nat)
deriving DecidableEq, Repr

namespace Stack

/-- The stack below so many frames more, if it has them. -/
def take? (n : Nat) : Stack → Option Stack
  | endless => some endless
  | frames left => if n ≤ left then some (frames (left - n)) else none

@[simp] theorem take?_endless (n : Nat) : take? n endless = some endless := rfl

theorem take?_frames {n left : Nat} (h : n ≤ left) :
    take? n (frames left) = some (frames (left - n)) := if_pos h

theorem take?_frames_eq_none_iff {n left : Nat} : take? n (frames left) = none ↔ left < n := by
  simp [take?]

end Stack

end Casewise
