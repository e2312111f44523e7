import Mathlib.Logic.Function.Basic
import Mathlib.Logic.Relation
import Casewise.Parallel.Actors

/-!
Crews. A front end puts requests into queues, one after the other; workers take them from there, one at a
time, and leave what they come to in the futures of the requests; and the front end collects the futures
in the order of the requests, up to the first fault. All this goes on at the same time, in whatever order.
-/
namespace Casewise

/-- Workers, and the queues between them and the front end. A request is known by its place. -/
structure Crew where
  workers : Nat
  queue : Nat → Nat
  serves : Nat → Nat
  answer : Nat → Request → Except Fault Int
  /-- Requests leave a queue in the order in which they were put in. -/
  inOrder : Bool
  /-- The front end does not end before the workers have nothing left to do. -/
  joins : Bool

namespace Crew

inductive Front
  | collecting (values : List Int)
  | leaving (outcome : Except Fault (List Int))
  | ended (outcome : Except Fault (List Int))

structure State where
  /-- The number of requests that were put into queues. -/
  handed : Nat
  /-- The requests in each queue, the oldest first. -/
  waiting : Nat → List Nat
  /-- The workers that are at a request, with the request. -/
  busy : List (Nat × Nat)
  ran : List Nat
  futures : Nat → Option (Except Fault Int)
  front : Front

namespace State

def start : State := ⟨0, fun _ => [], [], [], fun _ => none, .collecting []⟩

def Idle (s : State) : Prop := (∀ q, s.waiting q = []) ∧ s.busy = []

def hand (s : State) (q : Nat) : State :=
  { s with
    handed := s.handed + 1
    waiting := Function.update s.waiting q (s.waiting q ++ [s.handed]) }

def take (s : State) (w i q : Nat) (rest : List Nat) : State :=
  { s with
    waiting := Function.update s.waiting q rest
    busy := s.busy ++ [(w, i)] }

def finish (s : State) (i : Nat) (rest : List (Nat × Nat)) (result : Except Fault Int) : State :=
  { s with
    busy := rest
    ran := s.ran ++ [i]
    futures := Function.update s.futures i (some result) }

end State

inductive Step (c : Crew) (rs : List Request) : State → State → Prop
  | hand {s : State} : s.handed < rs.length → Step c rs s (s.hand (c.queue s.handed))
  | take {s : State} {w i : Nat} {before after : List Nat} : w < c.workers → w ∉ s.busy.map Prod.fst →
    s.waiting (c.serves w) = before ++ i :: after → (c.inOrder → before = []) →
    Step c rs s (s.take w i (c.serves w) (before ++ after))
  | finish {s : State} {w i : Nat} {before after : List (Nat × Nat)} {r : Request} :
    s.busy = before ++ (w, i) :: after → rs[i]? = some r →
    Step c rs s (s.finish i (before ++ after) (c.answer (c.serves w) r))
  | collect {s : State} {values : List Int} {n : Int} : s.handed = rs.length →
    s.front = .collecting values → s.futures values.length = some (.ok n) →
    Step c rs s { s with front := .collecting (values ++ [n]) }
  | fail {s : State} {values : List Int} {f : Fault} : s.handed = rs.length →
    s.front = .collecting values → s.futures values.length = some (.error f) →
    Step c rs s { s with front := .leaving (.error f) }
  | complete {s : State} {values : List Int} : s.handed = rs.length →
    s.front = .collecting values → values.length = rs.length →
    Step c rs s { s with front := .leaving (.ok values) }
  | leave {s : State} {outcome : Except Fault (List Int)} : s.front = .leaving outcome →
    (c.joins → s.Idle) → Step c rs s { s with front := .ended outcome }

def Reaches (c : Crew) (rs : List Request) (s : State) : Prop :=
  Relation.ReflTransGen (c.Step rs) .start s

end Crew

end Casewise
