import Casewise.Evaluation

/-!
The stack frames that an evaluation asks for. How many these are depends on the nesting of the bodies, and to
find that out takes frames as well.
-/
namespace Casewise

namespace Expr

/-- Frames for the larger one of two numbers. -/
def pairFrames : Nat := 2

/-- Frames for the largest one of a sequence of numbers, while these are found. -/
def sequenceFrames : Nat := 2

mutual

def depthFrames : Expr → Nat
  | binary _ l r _ => max (max l.depthFrames r.depthFrames) pairFrames + 1
  | call _ a _ => a.depthFrames + 1
  | case s cs _ => max s.depthFrames (bodiesDepthFrames cs) + sequenceFrames + 1
  | _ => 1

def bodiesDepthFrames : List (Clause Expr) → Nat
  | [] => 0
  | ⟨_, body, _⟩ :: cs => max body.depthFrames (bodiesDepthFrames cs)

end

end Expr

namespace Program

/-- Frames for what is not counted: matching, operators, logging. -/
def frameSlack : Int := 200

def maxFrames : Int := 100000

/-- Frames for so many nested calls: one for each call, and two for each level of nesting. -/
def framesNeeded (p : Program) (limit : Int) : Int :=
  min (limit * (2 * p.nesting + 1) + frameSlack) maxFrames

/-- The frames that it takes to find `framesNeeded`. -/
def nestingFrames (p : Program) : Nat :=
  (p.definitions.map (·.body.depthFrames)).max?.getD 0 + Expr.sequenceFrames + 1

end Program

end Casewise
