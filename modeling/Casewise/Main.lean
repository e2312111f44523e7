import Casewise.CommandLine.Run

/-! The command line itself: reads the script, prints, and gives the exit status. -/
namespace Casewise

/-- The code that the system gives for a folder where a file was wanted. -/
def directoryCode : UInt32 := 21

def Source.Fault.ofError : IO.Error → Source.Fault
  | .noFileOrDirectory .. => .missing
  | .inappropriateType _ code _ => if code = directoryCode then .isDirectory else .notDirectory
  | e => .unreadable (toString e)

def Source.readFile (path : String) : IO (Except Source.Fault (List UInt8)) := do
  match Source.checkPath path with
  | .error fault => return .error fault
  | .ok () =>
    try return .ok (← IO.FS.readBinFile path).toList
    catch e => return .error (.ofError e)

end Casewise

/-- The process of a command line: a limit of 1000, and what is in use when the script is run. -/
def Casewise.Runtime.main : Runtime := ⟨1000, 10, by decide, by decide⟩

def main (arguments : List String) : IO UInt32 := do
  let terminal ← (← IO.getStderr).isTty
  let order := Casewise.CommandLine.orderOf arguments
  let exit ← Casewise.CommandLine.run terminal .main Casewise.Source.readFile order
  IO.print exit.out
  IO.eprint exit.err
  match exit.status with
  | .ok code => return code.toUInt32
  | .error m =>
    IO.eprintln m.message
    return 1
