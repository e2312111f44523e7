import Casewise.Token

/-! Lexemes: the longest stretch at the beginning of a text that makes one token. -/
namespace Casewise.Token

structure Lexeme where
  kind : Kind
  text : List Char
deriving DecidableEq, Repr

def keywords : List String := ["fun", "case", "in"]

/-- A word goes on with letters, digits and underscores. -/
def isWordChar (c : Char) : Bool := c.isAlphanum || c = '_'

def isOperatorChar (c : Char) : Bool := c = '+' || c = '-' || c = '*'

def isPunctuationChar (c : Char) : Bool :=
  c = '(' || c = ')' || c = '=' || c = '|' || c = '_'

def beginsLexeme (c : Char) : Bool :=
  c.isDigit || c.isAlpha || isOperatorChar c || isPunctuationChar c

def digitsValue (digits : List Char) : Nat :=
  digits.foldl (fun n c => 10 * n + (c.toNat - '0'.toNat)) 0

namespace Lexeme

def word (text : List Char) : Lexeme :=
  ⟨if String.ofList text ∈ keywords then .keyword else .identifier, text⟩

/-- The lexeme with which a text begins. Letters and digits are those of ASCII. -/
def first? : List Char → Option Lexeme
  | [] => none
  | c :: rest =>
    if c.isDigit then some ⟨.integer, c :: rest.takeWhile Char.isDigit⟩
    else if c.isAlpha then some (word (c :: rest.takeWhile isWordChar))
    else if isOperatorChar c then some ⟨.operator, [c]⟩
    else if c = '=' && rest.head? = some '>' then some ⟨.punctuation, ['=', '>']⟩
    else if isPunctuationChar c then some ⟨.punctuation, [c]⟩
    else none

def value (l : Lexeme) : Scalar :=
  match l.kind with
  | .integer => .int (digitsValue l.text)
  | _ => .text (String.ofList l.text)

def token (l : Lexeme) (span : Span) : Token := ⟨l.kind, l.value, span⟩

theorem text_ne_nil {s : List Char} {l : Lexeme} (h : first? s = some l) : l.text ≠ [] := by
  cases s with
  | nil => simp [first?] at h
  | cons c rest =>
    simp only [first?] at h
    split at h
    · cases h; simp
    split at h
    · cases h; simp [word]
    split at h
    · cases h; simp
    split at h
    · cases h; simp
    split at h
    · cases h; simp
    · cases h

private theorem takeWhile_begins (p : Char → Bool) (s : List Char) : s.takeWhile p <+: s :=
  List.takeWhile_prefix p

theorem text_append_drop {s : List Char} {l : Lexeme} (h : first? s = some l) :
    l.text ++ s.drop l.text.length = s := by
  suffices l.text <+: s by
    obtain ⟨rest, rfl⟩ := this
    simp
  cases s with
  | nil => simp [first?] at h
  | cons c rest =>
    simp only [first?] at h
    split at h
    · cases h; simpa using takeWhile_begins _ rest
    split at h
    · cases h; simpa [word] using takeWhile_begins _ rest
    split at h
    · cases h; simp
    split at h
    next hc =>
      cases h
      simp only [Bool.and_eq_true, decide_eq_true_eq] at hc
      obtain ⟨rfl, hr⟩ := hc
      cases rest with
      | nil => simp at hr
      | cons d rest => cases hr; simp
    split at h
    · cases h; simp
    · cases h

theorem first?_eq_none_iff {c : Char} {s : List Char} :
    first? (c :: s) = none ↔ beginsLexeme c = false := by
  by_cases he : c = '='
  · subst he
    simp [first?, beginsLexeme, isPunctuationChar, isOperatorChar]
    split <;> simp
  · cases hd : c.isDigit <;> cases ha : c.isAlpha <;> cases ho : isOperatorChar c <;>
      cases hp : isPunctuationChar c <;> simp [first?, beginsLexeme, *]

end Lexeme

end Casewise.Token
