import Mathlib.Logic.Relation
import Casewise.Parallel.Pool

/-!
Evaluations at the same time. They share the headroom of their process, so what one of them does to the limit
is there for the steps of the others.
-/
namespace Casewise

inductive Stage
  | called
  /-- The frames that it asks for are found out. -/
  | counted
  /-- Its block is open. -/
  | entered
  /-- All is done but to leave the block. -/
  | evaluated (run : Run Int)
  | ended (run : Run Int)

def Program.advance (p : Program) (used : Nat) (limit : Int) (r : Request) (h : Headroom) :
    Stage → Headroom × Stage
  | .called =>
    match p.entry r.function r.arguments with
    | .error fault => (h, .ended (.fault fault))
    | .ok _ =>
      match (h.stack used).take? p.nestingFrames with
      | none => (h, .ended (.fault (.misuse .exhausted)))
      | some _ => (h, .counted)
  | .counted =>
    match h.enter .standard used (p.framesNeeded limit) with
    | (inside, some m) => (inside, .ended (.fault (.misuse m)))
    | (inside, none) => (inside, .entered)
  | .entered => (h, .evaluated (p.evaluateOn (h.stack used) r.function r.arguments limit))
  | .evaluated run =>
    match h.exit .standard used (p.framesNeeded limit) with
    | (outside, some m) => (outside, .ended ⟨run.calls, .error (.misuse m)⟩)
    | (outside, none) => (outside, .ended run)
  | .ended run => (h, .ended run)

structure Overlap where
  headroom : Headroom
  evaluations : List (Request × Stage)

namespace Overlap

def start (runtime : Runtime) (rs : List Request) : Overlap := ⟨.start runtime.limit, rs.map (·, .called)⟩

inductive Step (p : Program) (used : Nat) (limit : Int) : Overlap → Overlap → Prop
  | advance {h : Headroom} {before after : List (Request × Stage)} {r : Request} {stage : Stage} :
    Step p used limit ⟨h, before ++ (r, stage) :: after⟩
      ⟨(p.advance used limit r h stage).1, before ++ (r, (p.advance used limit r h stage).2) :: after⟩

def Reaches (p : Program) (runtime : Runtime) (limit : Int) (rs : List Request) (o : Overlap) : Prop :=
  Relation.ReflTransGen (Step p runtime.used limit) (start runtime rs) o

end Overlap

end Casewise
