import Casewise.CommandLine.Options
import Casewise.Diagnostic
import Casewise.Evaluation.Runtime
import Casewise.Evaluation.Session
import Casewise.Program.Printer
import Casewise.Source.File

/-!
Running the command line. What a run prints and how it ends depends on the arguments, on what the
script file holds, and on whether diagnostics go to a terminal.
-/
namespace Casewise.CommandLine

/-- How a run ends: the exit status, unless a misuse cut it short, and what was printed. -/
structure Exit where
  status : Except Misuse Nat
  out : String
  err : String

def unlines (lines : List String) : String := String.join (lines.map (· ++ "\n"))

def tokenLine (t : Token) : String :=
  toString t.span.line ++ ":" ++ toString t.span.column ++ "\t" ++ t.text

def finished (out : String) (log : List String) : Exit := ⟨.ok 0, out, unlines log⟩

/-- The end of a run that stops at a fault, with what was printed and logged before. An error of
the language is reported; a misuse is the caller's to report. -/
def stopped (source : String) (color : Bool) (out : String) (log : List String) : Fault → Exit
  | .error e => ⟨.ok 1, out, unlines (log ++ [Diagnostic.render e (some source) color])⟩
  | .misuse m => ⟨.error m, out, unlines log⟩

def listTokens (o : Options) (source : String) : Exit :=
  let stream := Token.tokenize source o.script
  let out := unlines (stream.toList.map tokenLine)
  match stream.fault? with
  | none => finished out []
  | some fault => stopped source o.color out [] fault

/-- The log, if it was asked for. It is made only then. -/
@[macro_inline]
def Options.logged (o : Options) (log : List String) : List String := if o.debug then log else []

def printProgram (o : Options) (source : String) (view : Program → Except Misuse String) : Exit :=
  match Program.ofSource source o.script with
  | .error refusal => stopped source o.color "" (o.logged refusal.log) refusal.fault
  | .ok p =>
    match view p with
    | .ok out => finished out (o.logged p.readingLog)
    | .error m => stopped source o.color "" (o.logged p.readingLog) (.misuse m)

/-- The run of the entry. Without a limit on nested calls it ends once the nesting of the program is known. -/
def runEntry (o : Options) (runtime : Runtime) (p : Program) : Run Int :=
  let function := Scalar.text o.entry
  let arguments := o.arguments.map Argument.int
  match o.limit with
  | some limit => p.execute runtime function arguments limit
  | none =>
    match p.entry function arguments with
    | .error fault => .fault fault
    | .ok _ =>
      match runtime.stack.take? p.nestingFrames with
      | none => .fault (.misuse .exhausted)
      | some _ => .fault (.misuse .noLimit)

def applyEntry (o : Options) (runtime : Runtime) (source : String) : Exit :=
  let session := Session.ofProgram (Program.ofSource source o.script) (runEntry o runtime)
  match session.run.outcome with
  | .ok n => finished (toString n ++ "\n") (o.logged session.log)
  | .error fault => stopped source o.color "" (o.logged session.log) fault

def runSource (o : Options) (runtime : Runtime) (source : String) : Exit :=
  match o.mode with
  | some .tokens => listTokens o source
  | some .parse => printProgram o source (·.dump 0)
  | some .format => printProgram o source (·.format)
  | none => applyEntry o runtime source

def unreadable (script : String) (fault : Source.Fault) : String :=
  match fault with
  | .undecodable flaw =>
    "Error: cannot decode file '" ++ script ++ "': " ++ flaw.message ++ "\n" ++
      "  Hint: Make sure the file is a text file with UTF-8 encoding\n"
  | fault => "Error: cannot read '" ++ script ++ "': " ++ fault.reason?.getD "" ++ "\n"

def runFile (o : Options) (runtime : Runtime) (file : Except Source.Fault (List UInt8)) : Exit :=
  match file >>= Source.ofBytes with
  | .error (.misuse m) => ⟨.error m, "", ""⟩
  | .error fault => ⟨.ok 1, "", unreadable o.script fault⟩
  | .ok source => runSource o runtime source

/-- Does what is asked for. A script is read by the given means, and only if there is a job. Only
on a terminal are diagnostics coloured. -/
def run {m : Type → Type} [Monad m] (terminal : Bool) (runtime : Runtime)
    (readFile : String → m (Except Source.Fault (List UInt8))) : Order → m Exit
  | .help => return finished help []
  | .version => return finished version []
  | .refused message => return ⟨.ok 2, "", refusal message⟩
  | .job o => return runFile { o with color := o.color && terminal } runtime (← readFile o.script)

end Casewise.CommandLine
