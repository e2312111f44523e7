import Casewise.Misuse
import Casewise.Text.Utf8

/-! Source files: UTF-8, with line ends of three kinds. -/
namespace Casewise.Source

inductive Fault
  | missing
  | isDirectory
  | notDirectory
  | longPath
  /-- The path is one that no file can have. -/
  | misuse (m : Misuse)
  | unreadable (reason : String)
  | undecodable (flaw : Text.Utf8.Flaw)

/-- The reason as the system words it; nothing where the system was not asked or had none. -/
def Fault.reason? : Fault → Option String
  | missing => some "No such file or directory"
  | isDirectory => some "Is a directory"
  | notDirectory => some "Not a directory"
  | unreadable reason => some reason
  | longPath => some "File name too long"
  | misuse _ | undecodable _ => none

def checkPath (path : String) : Except Fault Unit :=
  if path.toList.contains '\x00' then .error (.misuse .nullInPath) else .ok ()

/-- A carriage return ends a line, with or without a line feed behind it. -/
def unifyLineEnds : List Char → List Char
  | '\r' :: '\n' :: s => '\n' :: unifyLineEnds s
  | c :: s => (if c = '\r' then '\n' else c) :: unifyLineEnds s
  | [] => []

def ofBytes (bytes : List UInt8) : Except Fault String :=
  match Text.Utf8.decode bytes with
  | .ok s => .ok (String.ofList (unifyLineEnds s.toList))
  | .error flaw => .error (.undecodable flaw)

end Casewise.Source
