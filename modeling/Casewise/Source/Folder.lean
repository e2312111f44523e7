import Casewise.Source.File

/-!
A folder held in memory, and the way a path leads from it. Every step of a path leaves a folder, so
a step behind a file fails, even one that would lead back. Of what is outside nothing is known but
that the folders above are there.
-/
namespace Casewise.Source

/-- What is in a folder, by path. An entry without bytes is a folder itself. -/
abbrev Folder := List (List String × Option (List UInt8))

/-- Where a path has led to: out of the folder, or so many steps into it. -/
inductive Place
  | outside
  | inside (steps : List String)
deriving DecidableEq, Repr

def Place.up : Place → Place
  | outside => outside
  | inside steps => if steps.isEmpty then outside else inside steps.dropLast

def maxStepBytes : Nat := 255

def maxPathBytes : Nat := 4095

def staysInPlace (step : String) : Bool := step = "" || step = "."

def leadsUp (step : String) : Bool := step = ".."

def steps (path : String) : List String :=
  (path.splitOn "/").filter (!staysInPlace ·)

namespace Folder

def ofList (entries : List (String × Option (List UInt8))) : Folder :=
  entries.map fun (path, bytes) => (steps path, bytes)

/-- What is so many steps inside: the bytes of a file, or a folder. A folder is there also if only
something in it is listed. -/
def find? (folder : Folder) (steps : List String) : Option (Option (List UInt8)) :=
  match folder.lookup steps with
  | some content => some content
  | none =>
    if steps.isEmpty || folder.any (steps.isPrefixOf ·.1) then some none else none

def checkFolder (folder : Folder) : Place → Except Fault Unit
  | .outside => .ok ()
  | .inside steps =>
    match folder.find? steps with
    | some none => .ok ()
    | some (some _) => .error .notDirectory
    | none => .error .missing

/-- Takes a step to what has the given name. A name that is too long is refused as such wherever
the step is taken, so before it is looked up. -/
def enter (folder : Folder) (place : Place) (step : String) : Except Fault Place :=
  if maxStepBytes < step.utf8ByteSize then .error .longPath
  else match place with
    | .outside => .error .missing
    | .inside steps =>
      if (folder.find? (steps ++ [step])).isSome then .ok (.inside (steps ++ [step]))
      else .error .missing

def walk (folder : Folder) (place : Place) (step : String) : Except Fault Place := do
  folder.checkFolder place
  if staysInPlace step then return place
  else if leadsUp step then return place.up
  else folder.enter place step

def read (folder : Folder) (path : String) : Except Fault (List UInt8) := do
  checkPath path
  if path = "" then .error .missing
  else if maxPathBytes < path.utf8ByteSize then .error .longPath
  else
    let start := if path.startsWith "/" then Place.outside else .inside []
    match ← (path.splitOn "/").foldlM folder.walk start with
    | .outside => .error .isDirectory
    | .inside steps =>
      match folder.find? steps with
      | some (some bytes) => .ok bytes
      | some none => .error .isDirectory
      | none => .error .missing

end Folder

end Casewise.Source
