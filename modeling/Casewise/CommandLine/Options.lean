import Casewise.CommandLine.Usage
import Casewise.Text.Numeral

/-!
Reading the arguments of the command line. Switches may stand anywhere and be shortened as long as
they stay unique; the first run of other arguments holds the script, the entry and its arguments,
and what comes after it is refused. Behind `--` nothing is a switch.
-/
namespace Casewise.CommandLine

inductive Mode
  | tokens
  | parse
  | format
deriving DecidableEq, Repr

inductive Switch
  | help
  | mode (m : Mode)
  | maxDepth
  | debug
  | noColor
  | version
deriving DecidableEq, Repr

structure Options where
  script : String
  entry : String
  arguments : List Int
  mode : Option Mode
  /-- The limit on nested calls, unless a mark was given in its place. -/
  limit : Option Int
  debug : Bool
  color : Bool
deriving Repr

inductive Order
  | help
  | version
  | job (options : Options)
  | refused (message : String)

def Mode.name : Mode → String
  | tokens => "--tokens"
  | parse => "--parse"
  | format => "--format"

namespace Switch

def table : List (String × Switch) :=
  [("-h", help), ("--help", help), ("--tokens", mode .tokens), ("--parse", mode .parse),
    ("--format", mode .format), ("--max-depth", maxDepth), ("--debug", debug),
    ("--no-color", noColor), ("--version", version)]

def name (s : Switch) : String :=
  "/".intercalate ((table.filter (·.2 = s)).map Prod.fst)

end Switch

/-- What is written in one argument together with a switch. -/
inductive Attachment
  | none
  | value (text : String)
  | letters (text : List Char)

inductive Word
  | plain (text : String)
  | switch (s : Switch) (attachment : Attachment)
  | unknown (text : String)
  /-- The mark behind which nothing is a switch. -/
  | mark

def splitValue (text : String) : String × Option String :=
  let s := text.toList
  match s.dropWhile (· ≠ '=') with
  | [] => (text, none)
  | _ :: value => (String.ofList (s.takeWhile (· ≠ '=')), some (String.ofList value))

def classifyOther (text : String) : Word :=
  if Text.looksNegative text || text.toList.contains ' ' then .plain text else .unknown text

/-- Tells what an argument is, or why it cannot be told. A long switch may be shortened. -/
def classify (text : String) : Except String Word :=
  match text.toList with
  | '-' :: second :: rest =>
    let (stem, value) := splitValue text
    let attached (attachment : String → Attachment) := (value.map attachment).getD .none
    if second = '-' then
      match Switch.table.lookup stem, Switch.table.filter (·.1.startsWith stem) with
      | some s, _ => .ok (.switch s (attached .value))
      | none, [] => .ok (classifyOther text)
      | none, [(_, s)] => .ok (.switch s (attached .value))
      | none, several =>
        .error ("ambiguous option: " ++ text ++ " could match " ++
          ", ".intercalate (several.map Prod.fst))
    else
      match Switch.table.lookup stem, Switch.table.lookup (String.ofList ['-', second]) with
      | some s, _ => .ok (.switch s (attached fun text => .letters text.toList))
      | none, some s => .ok (.switch s (.letters rest))
      | none, none => .ok (classifyOther text)
  | _ => .ok (.plain text)

def classifyAll : List String → Except String (List Word)
  | [] => .ok []
  | "--" :: rest => .ok (.mark :: rest.map .plain)
  | text :: rest => do return (← classify text) :: (← classifyAll rest)

structure Reading where
  subject : Option (String × String × List Int)
  /-- Arguments in a row that are no switches, not yet read. -/
  pending : List Word
  extras : List String
  modes : List Mode
  limit : Option Int
  debug : Bool
  color : Bool

namespace Reading

def start : Reading := ⟨none, [], [], [], some Program.defaultLimit, false, true⟩

def hold (r : Reading) (word : Word) : Reading := { r with pending := r.pending ++ [word] }

/-- Splits off one argument at most, and the marks around it. -/
def takeOne (words : List Word) : List String × List Word :=
  let (before, words) := takeMarks words
  let (text, words) := match words with
    | .plain text :: words => ([text], words)
    | words => ([], words)
  let (behind, words) := takeMarks words
  (before ++ text ++ behind, words)
where
  takeMarks : List Word → List String × List Word
    | .mark :: words => let (marks, words) := takeMarks words; ("--" :: marks, words)
    | words => ([], words)

def spelling : Word → String
  | .plain text | .unknown text => text
  | .mark => "--"
  | .switch s _ => s.name

def isPlain : Word → Bool
  | .plain _ => true
  | _ => false

def notInteger (place text : String) : String :=
  "argument " ++ place ++ ": invalid int value: " ++ Text.quoted text

def integer (place text : String) : Except String Int :=
  match Text.integer? text with
  | some n => .ok n
  | none => .error (notInteger place text)

/-- Reads the pending arguments: the first time they are script, entry and arguments, of which
each may have one mark with it; later there is no place for them. -/
def flush (r : Reading) : Except String Reading :=
  if r.subject.isNone && r.pending.any isPlain then do
    let (script, words) := takeOne r.pending
    let (entry, words) := takeOne words
    let arguments ← ((words.map spelling).erase "--").mapM (integer "ARG")
    return { r with
      subject := some ((script.erase "--").headD "", (entry.erase "--").headD defaultEntry,
        arguments)
      pending := [] }
  else .ok { r with extras := r.extras ++ r.pending.map spelling, pending := [] }

def takeMode (r : Reading) (m : Mode) : Except String Reading :=
  match [Mode.tokens, .parse, .format].find? fun other => other ≠ m ∧ other ∈ r.modes with
  | some other =>
    .error ("argument " ++ m.name ++ ": not allowed with argument " ++ other.name)
  | none => .ok { r with modes := m :: r.modes }

def ignored (s : Switch) (text : String) : String :=
  "argument " ++ s.name ++ ": ignored explicit argument " ++ Text.quoted text

/-- Checks the text behind the switch of one letter: it has to repeat that letter. -/
def checkLetters : List Char → Except String Unit
  | ['h'] => .ok ()
  | 'h' :: c :: rest => checkLetters (c :: rest)
  | text => .error (ignored .help (String.ofList text))

/-- The limit that is written behind an equals sign. A mark there stands for no number. -/
def attachedLimit (text : String) : Except String (Option Int) :=
  if text = "--" then .ok none else some <$> integer "--max-depth" text

def takeSwitch (r : Reading) : Switch → Except String Reading
  | .mode m => r.takeMode m
  | .debug => .ok { r with debug := true }
  | .noColor => .ok { r with color := false }
  | _ => .ok r

def finish (r : Reading) : Order :=
  match r.flush with
  | .error message => .refused message
  | .ok r =>
    match r.subject with
    | none => .refused "the following arguments are required: script, ARG"
    | some (script, entry, arguments) =>
      if r.extras.isEmpty then
        .job ⟨script, entry, arguments, r.modes.head?, r.limit, r.debug, r.color⟩
      else .refused ("unrecognized arguments: " ++ " ".intercalate r.extras)

def read (r : Reading) : List Word → Order
  | [] => r.finish
  | .plain text :: words => (r.hold (.plain text)).read words
  | .mark :: words => (r.hold .mark).read words
  | .unknown text :: words =>
    match r.flush with
    | .error message => .refused message
    | .ok r => { r with extras := r.extras ++ [text] }.read words
  | .switch .maxDepth .none :: .plain text :: words =>
    match r.flush, integer "--max-depth" text with
    | .error message, _ | .ok _, .error message => .refused message
    | .ok r, .ok limit => { r with limit := some limit }.read words
  | .switch s attachment :: words =>
    match r.flush with
    | .error message => .refused message
    | .ok r =>
      match s, attachment with
      | .maxDepth, .value text =>
        match attachedLimit text with
        | .error message => .refused message
        | .ok limit => { r with limit }.read words
      | .maxDepth, _ => .refused "argument --max-depth: expected one argument"
      | s, .value text => .refused (ignored s text)
      | .help, .none => .help
      | .help, .letters text =>
        match checkLetters text with
        | .error message => .refused message
        | .ok () => .help
      | .version, _ => .version
      | s, _ =>
        match r.takeSwitch s with
        | .error message => .refused message
        | .ok r => r.read words

end Reading

def orderOf (arguments : List String) : Order :=
  match classifyAll arguments with
  | .error message => .refused message
  | .ok words => Reading.start.read words

end Casewise.CommandLine
