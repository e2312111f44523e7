import Casewise.Evaluation.Runtime

/-!
Pools. Independent requests against one program are handed to workers; the answers come back in the
order of the requests, and of several faults the one of the first request counts.
-/
namespace Casewise

structure Request where
  function : Name
  arguments : List Argument

def Program.answer (p : Program) (runtime : Runtime) (limit : Int) (r : Request) : Except Fault Int :=
  (p.execute runtime r.function r.arguments limit).outcome

/-- The values of all requests in order, or the fault of the first request that has one. -/
def Program.answers (p : Program) (runtime : Runtime) (limit : Int) (rs : List Request) :
    Except Fault (List Int) :=
  rs.mapM (p.answer runtime limit)

namespace Pool

/-- Answers requests with the given number of workers, or as many as the machine suggests. -/
def answers (p : Program) (runtime : Runtime) (rs : List Request) (workers : Option Int) (limit : Int) :
    Except Fault (List Int) :=
  if workers.any (· < 1) then .error (.misuse .noWorkers) else p.answers runtime limit rs

/-- The log of handing out requests. A pool without workers hands out none. -/
def log (rs : List Request) (workers : Option Int) : List String :=
  if workers.any (· < 1) then []
  else ["concurrency: submitted " ++ toString rs.length ++ " evaluation requests"]

end Pool

end Casewise
