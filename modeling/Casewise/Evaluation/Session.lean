import Casewise.Evaluation
import Casewise.Program.Parser

/-! A source text read and run in one go. The first fault of either stage ends the session. -/
namespace Casewise

/-- The log of reading, and the run that followed; a text that is refused gives no calls. -/
structure Session where
  readingLog : List String
  run : Run Int

namespace Session

def ofProgram (program : Except Refusal Program) (evaluate : Program → Run Int) : Session :=
  match program with
  | .error refusal => ⟨refusal.log, .fault refusal.fault⟩
  | .ok p => ⟨p.readingLog, evaluate p⟩

def ofSource (source file : String) (function : Name) (arguments : List Argument)
    (limit : Int) : Session :=
  ofProgram (Program.ofSource source file) fun p => p.evaluate function arguments limit

def log (s : Session) : List String := s.readingLog ++ Call.log s.run.calls

end Session

end Casewise
