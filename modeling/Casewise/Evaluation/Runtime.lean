import Casewise.Evaluation.Frames
import Casewise.Headroom

/-!
Evaluations in a process. They share its headroom, and what one of them leaves behind the next one meets.
-/
namespace Casewise

/-- A process that an evaluation begins in. -/
structure Runtime where
  limit : Int
  /-- The frames in use, with those for the helpers that are called last. -/
  used : Nat
  used_lt : used < limit
  le_max : limit ≤ maxLimit

def Runtime.stack (runtime : Runtime) : Stack := .frames (runtime.limit - runtime.used).toNat

namespace Headroom

def stack (h : Headroom) (used : Nat) : Stack := .frames (h.limit - used).toNat

/-- Runs a block with so many frames more. If the limit that it asks for is refused, it is not run; if the one
that its end leads to is refused, what it came to is lost. -/
def within (h : Headroom) (used : Nat) (frames : Int) (block : Stack → Run Int) : Headroom × Run Int :=
  match h.enter .standard used frames with
  | (inside, some m) => (inside, .fault (.misuse m))
  | (inside, none) =>
    let run := block (inside.stack used)
    match inside.exit .standard used frames with
    | (outside, some m) => (outside, ⟨run.calls, .error (.misuse m)⟩)
    | (outside, none) => (outside, run)

end Headroom

namespace Program

/-- Applies the function under a key to arguments, with the headroom that the limit on nested calls asks for. The
frames that it asks for are found out without headroom. -/
def executeIn (p : Program) (h : Headroom) (used : Nat) (function : Name) (arguments : List Argument)
    (limit : Int) : Headroom × Run Int :=
  match p.entry function arguments with
  | .error fault => (h, .fault fault)
  | .ok _ =>
    match (h.stack used).take? p.nestingFrames with
    | none => (h, .fault (.misuse .exhausted))
    | some _ =>
      h.within used (p.framesNeeded limit) fun stack => p.evaluateOn stack function arguments limit

def execute (p : Program) (runtime : Runtime) (function : Name) (arguments : List Argument)
    (limit : Int) : Run Int :=
  (p.executeIn (.start runtime.limit) runtime.used function arguments limit).2

end Program

end Casewise
