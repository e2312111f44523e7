import Casewise.Misuse
import Casewise.Text.Blank

/-! Integers as people write them: a sign, decimal digits of any script, and underscores. -/
namespace Casewise.Text

/-- The zeros of the scripts with decimal digits. The other nine digits follow each of them. -/
def zeros : List Nat := [
  0x30, 0x660, 0x6f0, 0x7c0, 0x966, 0x9e6, 0xa66, 0xae6, 0xb66, 0xbe6, 0xc66, 0xce6, 0xd66,
  0xde6, 0xe50, 0xed0, 0xf20, 0x1040, 0x1090, 0x17e0, 0x1810, 0x1946, 0x19d0, 0x1a80, 0x1a90,
  0x1b50, 0x1bb0, 0x1c40, 0x1c50, 0xa620, 0xa8d0, 0xa900, 0xa9d0, 0xa9f0, 0xaa50, 0xabf0, 0xff10,
  0x104a0, 0x10d30, 0x11066, 0x110f0, 0x11136, 0x111d0, 0x112f0, 0x11450, 0x114d0, 0x11650,
  0x116c0, 0x11730, 0x118e0, 0x11950, 0x11c50, 0x11d50, 0x11da0, 0x16a60, 0x16ac0, 0x16b50,
  0x1d7ce, 0x1d7d8, 0x1d7e2, 0x1d7ec, 0x1d7f6, 0x1e140, 0x1e2f0, 0x1e950, 0x1fbf0]

def digit? (c : Char) : Option Nat :=
  (zeros.find? fun z => z ≤ c.toNat && c.toNat < z + 10).map (c.toNat - ·)

def isDecimal (c : Char) : Bool := (digit? c).isSome

/-- Digits, with single underscores between them. -/
def digits? : List Char → Option (List Nat)
  | [] => none
  | [c] => (digit? c).map ([·])
  | c :: '_' :: s => do return (← digit? c) :: (← digits? s)
  | c :: s => do return (← digit? c) :: (← digits? s)

def isMargin (c : Char) : Bool := isBlank c && !isInformationSeparator c

def trim (s : List Char) : List Char :=
  ((s.dropWhile isMargin).reverse.dropWhile isMargin).reverse

/-- The integer that the digits write, unless there are more of them than allowed. -/
def natural? (s : List Char) : Option Nat := do
  let digits ← digits? s
  if maxDigits < digits.length then none
  else some (digits.foldl (fun n d => 10 * n + d) 0)

def integer? (s : String) : Option Int :=
  match trim s.toList with
  | '-' :: rest => (natural? rest).map fun n => -(n : Int)
  | '+' :: rest => (natural? rest).map Int.ofNat
  | rest => (natural? rest).map Int.ofNat

/-- Whether a text looks like a negative number: digits, or digits behind a point. -/
def looksNegative (s : String) : Bool :=
  match s.toList with
  | '-' :: rest =>
    let rest := if rest.getLast? = some '\n' then rest.dropLast else rest
    match rest.dropWhile isDecimal with
    | [] => !rest.isEmpty
    | c :: fraction => c = '.' && !fraction.isEmpty && fraction.all isDecimal
  | _ => false

end Casewise.Text
