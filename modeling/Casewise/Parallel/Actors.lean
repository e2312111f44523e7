import Casewise.Parallel.Pool

/-!
Actors. Each answers requests against the same program until it is stopped, and goes on after a
request that ends in a fault. A group shares requests out in turn.
-/
namespace Casewise

structure Actor where
  limit : Int
  running : Bool

namespace Actor

def start (count limit : Int) : Except Misuse (List Actor) :=
  if count < 1 then .error (.actorCount count)
  else .ok (List.replicate count.toNat ⟨limit, true⟩)

/-- Stops the actors whose place is at least `first` and below `stop`. They keep their places. -/
def stopFrom (actors : List Actor) (first stop : Int) : List Actor :=
  actors.mapIdx fun i a =>
    if first ≤ (i : Int) ∧ (i : Int) < stop then { a with running := false } else a

def stopAll (actors : List Actor) : List Actor := stopFrom actors 0 actors.length

def answer (a : Actor) (p : Program) (runtime : Runtime) (r : Request) : Except Fault Int :=
  if a.running then p.answer runtime a.limit r else .error (.misuse .stoppedActor)

/-- The answers of a group, request `i` going to actor `i` modulo the number of actors. All of
them have to be running, needed or not. -/
def answers (actors : List Actor) (p : Program) (runtime : Runtime) (rs : List Request) :
    Except Fault (List Int) :=
  if actors.isEmpty then .error (.misuse .noActors)
  else if actors.any (!·.running) then .error (.misuse .stoppedActor)
  else rs.zipIdx.mapM fun (r, i) =>
    match actors[i % actors.length]? with
    | some a => a.answer p runtime r
    | none => .error (.misuse .missingActor)

end Actor

end Casewise
