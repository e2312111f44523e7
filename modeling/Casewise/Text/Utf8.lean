import Casewise.Text.Quoted

/-!
Reading bytes as UTF-8. The first bytes that are no character are reported with the place where
they stand: a byte that begins nothing, a byte that does not continue what was begun, or an end in
the middle of a character.
-/
namespace Casewise.Text.Utf8

inductive Reason
  | start
  | continuation
  | truncated
deriving DecidableEq, Repr

structure Flaw where
  position : Nat
  first : UInt8
  count : Nat
  reason : Reason
deriving DecidableEq, Repr

def Reason.text : Reason → String
  | start => "invalid start byte"
  | continuation => "invalid continuation byte"
  | truncated => "unexpected end of data"

def Flaw.message (f : Flaw) : String :=
  let place :=
    if f.count = 1 then
      "byte 0x" ++ String.ofList (hexDigits 2 f.first.toNat) ++ " in position " ++
        toString f.position
    else
      "bytes in position " ++ toString f.position ++ "-" ++ toString (f.position + f.count - 1)
  "'utf-8' codec can't decode " ++ place ++ ": " ++ f.reason.text

def isTail (b : UInt8) : Bool := 0x80 ≤ b && b ≤ 0xbf

/-- Whether a byte may follow the given first byte of a longer character. This shuts out overlong
forms, surrogates, and what lies beyond the last code point. -/
def isSecond (first b : UInt8) : Bool :=
  isTail b &&
    (if first = 0xe0 then 0xa0 ≤ b
    else if first = 0xed then b < 0xa0
    else if first = 0xf0 then 0x90 ≤ b
    else if first = 0xf4 then b < 0x90
    else true)

/-- How many bytes a character has that begins with the given byte, 0 if none begins so. -/
def width (first : UInt8) : Nat :=
  if first < 0x80 then 1
  else if 0xc2 ≤ first && first ≤ 0xdf then 2
  else if 0xe0 ≤ first && first ≤ 0xef then 3
  else if 0xf0 ≤ first && first ≤ 0xf4 then 4
  else 0

def tails (first : UInt8) (rest : List UInt8) : List UInt8 :=
  match rest with
  | [] => []
  | b :: more =>
    if isSecond first b then b :: (more.take (width first - 2)).takeWhile isTail else []

def codePoint (first : UInt8) (tail : List UInt8) : Nat :=
  let head := match tail.length with
    | 0 => first.toNat
    | 1 => first.toNat - 0xc0
    | 2 => first.toNat - 0xe0
    | _ => first.toNat - 0xf0
  tail.foldl (fun n b => 64 * n + (b.toNat - 0x80)) head

/-- The characters of the bytes from the given position on, behind those read before, which come
last one first. -/
def decodeFrom (position : Nat) (before : List Char) : List UInt8 → Except Flaw (List Char)
  | [] => .ok before.reverse
  | first :: rest =>
    let size := width first
    if size = 0 then .error ⟨position, first, 1, .start⟩
    else if size = 1 then decodeFrom (position + 1) (Char.ofNat first.toNat :: before) rest
    else
      let tail := tails first rest
      if tail.length + 1 = size then
        decodeFrom (position + size) (Char.ofNat (codePoint first tail) :: before)
          (rest.drop tail.length)
      else if tail.length = rest.length then
        .error ⟨position, first, tail.length + 1, .truncated⟩
      else .error ⟨position, first, tail.length + 1, .continuation⟩
termination_by bytes => bytes.length
decreasing_by
  · simp
  · simp only [List.length_drop, List.length_cons]; omega

def decode (bytes : List UInt8) : Except Flaw String :=
  return String.ofList (← decodeFrom 0 [] bytes)

end Casewise.Text.Utf8
