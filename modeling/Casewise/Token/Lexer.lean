import Casewise.Text.Blank
import Casewise.Token.Lexeme
import Casewise.Token.Stream

/-!
Source texts as token streams. Between tokens stand blanks and comments; a comment runs to the
first closing mark behind its opening mark, and anything else is refused where it stands.
-/
namespace Casewise.Token

/-- Cuts the text behind an opening mark at its first closing mark: what the comment holds, and
what follows it. -/
def splitComment? : List Char → Option (List Char × List Char)
  | '*' :: ')' :: rest => some ([], rest)
  | c :: rest => (splitComment? rest).map fun (inside, behind) => (c :: inside, behind)
  | [] => none

theorem splitComment?_eq {s inside behind : List Char}
    (h : splitComment? s = some (inside, behind)) : s = inside ++ '*' :: ')' :: behind := by
  fun_induction splitComment? s generalizing inside with
  | case1 rest => cases h; rfl
  | case2 c rest _ ih =>
    obtain ⟨⟨i, b⟩, hi, hp⟩ := Option.map_eq_some_iff.mp h
    cases hp
    rw [ih hi]; rfl
  | case3 => cases h

/-- The number of digits of a numeral over the limit at the beginning of a text. -/
def longNumeral? (s : List Char) : Option Nat :=
  let digits := (s.takeWhile Char.isDigit).length
  if maxDigits < digits then some digits else none

/-- The fault of a character that begins nothing. The text behind it is looked through up to the
next lexeme first, so a numeral over the limit there is noticed before the character is. -/
def strangerFault (file : String) (p : Position) (c : Char) (rest : List Char) : Fault :=
  match longNumeral? (rest.dropWhile (!beginsLexeme ·)) with
  | some digits => .misuse (.longNumeral digits)
  | none => .of (.unexpectedChar (String.singleton c)) (Span.between file p (p.next c))

def scan (file : String) (p : Position) : List Char → Stream
  | [] => .stop (endOf (Span.between file p p))
  | '(' :: '*' :: s =>
    match _h : splitComment? s with
    | some (inside, behind) =>
      scan file (p.after ('(' :: '*' :: inside ++ ['*', ')'])) behind
    | none => .fail (.of .unterminatedComment (Span.between file p (p.after ['(', '*'])))
  | c :: s =>
    if Text.isBlank c then scan file (p.next c) s
    else match longNumeral? (c :: s) with
      | some digits => .fail (.misuse (.longNumeral digits))
      | none =>
        match _h : Lexeme.first? (c :: s) with
        | some l =>
          .more (l.token (Span.between file p (p.after l.text)))
            (scan file (p.after l.text) ((c :: s).drop l.text.length))
        | none => .fail (strangerFault file p c s)
termination_by s => s.length
decreasing_by
  · simp only [splitComment?_eq _h, List.length_append, List.length_cons]; omega
  · simp
  · have := List.length_pos_iff.mpr (Lexeme.text_ne_nil _h)
    simp only [List.length_drop, List.length_cons]; omega

def tokenize (source file : String) : Stream := scan file .start source.toList

end Casewise.Token
