/-! Places in a source text, counted in characters. -/
namespace Casewise

/-- A place in a text. Offsets count from 0, lines and columns from 1. -/
structure Position where
  offset : Nat
  line : Nat
  column : Nat
deriving DecidableEq, Repr

namespace Position

def start : Position := ⟨0, 1, 1⟩

/-- The place behind a character. Only a line feed ends a line. -/
def next (p : Position) (c : Char) : Position :=
  if c = '\n' then ⟨p.offset + 1, p.line + 1, 1⟩ else ⟨p.offset + 1, p.line, p.column + 1⟩

def after (p : Position) (s : List Char) : Position :=
  s.foldl next p

@[simp] theorem after_nil (p : Position) : p.after [] = p := rfl

@[simp] theorem after_cons (p : Position) (c : Char) (s : List Char) :
    p.after (c :: s) = (p.next c).after s := rfl

@[simp] theorem after_append (p : Position) (s t : List Char) :
    p.after (s ++ t) = (p.after s).after t := List.foldl_append

@[simp] theorem offset_next (p : Position) (c : Char) : (p.next c).offset = p.offset + 1 := by
  unfold next
  split <;> rfl

@[simp] theorem offset_after (p : Position) (s : List Char) :
    (p.after s).offset = p.offset + s.length := by
  induction s generalizing p with
  | nil => rfl
  | cons c s ih => simp [ih]; omega

end Position

/-- A stretch of a named text: its two offsets, and the line and column of its beginning. The
numbers are integers, since a span given by a caller need not lie in any text. -/
structure Span where
  file : String
  start : Int
  stop : Int
  line : Int
  column : Int
deriving DecidableEq, Repr

namespace Span

def between (file : String) (p q : Position) : Span :=
  ⟨file, p.offset, q.offset, p.line, p.column⟩

def join (first last : Span) : Span :=
  { first with stop := last.stop }

def join? (first last : Option Span) : Option Span := do
  return (← first).join (← last)

/-- The empty span behind a span. It keeps the line and column of that span's beginning. -/
def behind (span : Span) : Span :=
  { span with start := span.stop }

def locator (span : Span) : String :=
  span.file ++ ":" ++ toString span.line ++ ":" ++ toString span.column

end Span

end Casewise
