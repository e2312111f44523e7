import Casewise.Error

/-! Diagnostics: an error with its place and the source line that it points at. -/
namespace Casewise.Diagnostic

def lines : List Char → List (List Char)
  | [] => [[]]
  | c :: s =>
    if c = '\n' then [] :: lines s
    else match lines s with
      | line :: rest => (c :: line) :: rest
      | [] => [[c]]

/-- So many spaces; none for a negative number. -/
def spaces (n : Int) : String := String.ofList (List.replicate n.toNat ' ')

def lineNumber (n : Nat) : String :=
  let digits := toString n
  spaces (4 - digits.length) ++ digits

def sourceLine (line column : Int) (index : Nat) (text : List Char) : List String :=
  (lineNumber (index + 1) ++ " | " ++ String.ofList text) ::
    if (index : Int) = line - 1 then ["     | " ++ spaces (column - 1) ++ "^"] else []

/-- The lines around a place, with a caret under its column. Lines that the text does not have
are left out. -/
def contextLines (source : String) (line column context : Int) : List String :=
  let all := lines source.toList
  let first := (line - context - 1).toNat
  let stop := min (all.length : Int) (line + context)
  ((all.zipIdx.drop first).take (stop - first).toNat).flatMap fun (text, index) =>
    sourceLine line column index text

def bold : String := "\x1b[1m"

def red : String := "\x1b[31m"

def plain : String := "\x1b[0m"

def header (e : Error) (color : Bool) : String :=
  let kind := "error[" ++ e.kind ++ "]"
  let message := ": " ++ e.message
  if color then bold ++ red ++ kind ++ plain ++ bold ++ message ++ plain else kind ++ message

def render (e : Error) (source : Option String) (color : Bool) : String :=
  let place := match e.span with
    | none => []
    | some span =>
      ("    File " ++ span.locator) ::
        (source.map fun text =>
          "\n".intercalate (contextLines text span.line span.column 0)).toList
  "\n".intercalate (header e color :: place)

end Casewise.Diagnostic
