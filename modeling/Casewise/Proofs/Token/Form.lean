import Casewise.Proofs.Token.Gap

/-! The form of lexemes. A text begins with a lexeme exactly if the lexeme has one of the five forms
and what follows would not make it longer. -/
namespace Casewise.Token

theorem takeWhile_append_of_head? {p : Char → Bool} {s rest : List Char}
    (hs : ∀ c ∈ s, p c) (hr : ∀ c ∈ rest.head?, p c = false) : (s ++ rest).takeWhile p = s := by
  rw [List.takeWhile_append_of_pos hs]
  cases rest with
  | nil => simp
  | cons c rest => simp [hr c rfl]

private theorem head?_behind_takeWhile {p : Char → Bool} {s : List Char} :
    ∀ c ∈ (s.drop (s.takeWhile p).length).head?, p c = false := by
  induction s with
  | nil => simp
  | cons d s ih =>
    cases hd : p d with
    | false => simp [hd]
    | true => simpa [hd] using ih

private theorem isDigit_of_isAlpha {c : Char} (h : c.isAlpha) : c.isDigit = false := by
  rw [Bool.eq_false_iff]
  intro hd
  have hdigit := isDigit_iff.mp hd
  have halpha := isAlpha_iff.mp h
  omega

theorem longNumeral?_eq_none_iff {s : List Char} :
    longNumeral? s = none ↔ (s.takeWhile Char.isDigit).length ≤ maxDigits := by
  simp [longNumeral?]

namespace Lexeme

inductive Formed : Lexeme → Prop
  | integer {digits : List Char} : digits ≠ [] → (∀ c ∈ digits, c.isDigit) →
    digits.length ≤ maxDigits → Formed ⟨.integer, digits⟩
  | word {c : Char} {s : List Char} : c.isAlpha → (∀ d ∈ s, isWordChar d) → Formed (word (c :: s))
  | operator {c : Char} : isOperatorChar c → Formed ⟨.operator, [c]⟩
  | arrow : Formed ⟨.punctuation, ['=', '>']⟩
  | punctuation {c : Char} : isPunctuationChar c → Formed ⟨.punctuation, [c]⟩

/-- Whether a character behind a lexeme would make it longer, or a comment of it. -/
def joins (l : Lexeme) (c : Char) : Bool :=
  match l.kind with
  | .integer => c.isDigit
  | .identifier | .keyword => isWordChar c
  | _ => (l.text = ['='] && c = '>') || (l.text = ['('] && c = '*')

/-- A lexeme ends in front of a text that does not join it. -/
def Stops (l : Lexeme) (rest : List Char) : Prop := ∀ c ∈ rest.head?, l.joins c = false

theorem word_of_mem {text : List Char} (h : String.ofList text ∈ keywords) :
    word text = ⟨.keyword, text⟩ := by
  rw [word, if_pos h]

theorem word_of_not_mem {text : List Char} (h : String.ofList text ∉ keywords) :
    word text = ⟨.identifier, text⟩ := by
  rw [word, if_neg h]

theorem joins_word (text : List Char) (c : Char) : (word text).joins c = isWordChar c := by
  unfold joins word
  split <;> simp_all
  split at * <;> simp_all

theorem formed_of_first? {s : List Char} {l : Lexeme} (h : first? s = some l)
    (hd : longNumeral? s = none) : l.Formed := by
  cases s with
  | nil => simp [first?] at h
  | cons c rest =>
    simp only [first?] at h
    split at h
    next hc =>
      cases h
      rw [longNumeral?_eq_none_iff, List.takeWhile_cons_of_pos hc] at hd
      refine .integer (by simp) ?_ hd
      intro d hmem
      rcases List.mem_cons.mp hmem with rfl | hmem
      · exact hc
      · exact List.all_eq_true.mp List.all_takeWhile d hmem
    split at h
    next hc =>
      cases h
      exact .word hc (List.all_eq_true.mp List.all_takeWhile)
    split at h
    next hc => cases h; exact .operator hc
    split at h
    next => cases h; exact .arrow
    split at h
    next hc => cases h; exact .punctuation hc
    next => cases h

theorem stops_of_first? {s : List Char} {l : Lexeme} (h : first? s = some l)
    (hc : ¬ ['(', '*'] <+: s) : l.Stops (s.drop l.text.length) := by
  cases s with
  | nil => simp [first?] at h
  | cons c rest =>
    simp only [first?] at h
    split at h
    next => cases h; exact head?_behind_takeWhile
    split at h
    next =>
      cases h
      intro d hd
      rw [joins_word]
      exact head?_behind_takeWhile d (by simpa [word] using hd)
    split at h
    next ho =>
      cases h
      intro d _
      simp only [joins, Bool.or_eq_false_iff, Bool.and_eq_false_iff]
      constructor <;> left <;> apply decide_eq_false <;> rintro heq <;> cases heq <;>
        exact absurd ho (by decide)
    split at h
    next => cases h; intro d _; simp [joins]
    split at h
    next he _ =>
      cases h
      cases rest with
      | nil => intro d hd; simp at hd
      | cons d rest =>
        intro e hm
        obtain rfl : d = e := by simpa using hm
        simp only [joins]
        by_cases h1 : c = '='
        · subst h1
          simpa using he
        · by_cases h2 : c = '('
          · subst h2
            have hd : ¬ '*' = d := by simpa using hc
            simp [Ne.symm hd]
          · simp [h1, h2]
    next => cases h

/-- Every form is found where it stands. -/
theorem first?_append {l : Lexeme} (hl : l.Formed) {rest : List Char} (hs : l.Stops rest) :
    first? (l.text ++ rest) = some l := by
  cases hl with
  | @integer digits hne hd _ =>
    cases digits with
    | nil => exact absurd rfl hne
    | cons c digits =>
      have hc : c.isDigit := hd c (by simp)
      have ht : (digits ++ rest).takeWhile Char.isDigit = digits :=
        takeWhile_append_of_head? (fun a ha => hd a (by simp [ha])) hs
      simp [first?, hc, ht]
  | @word c s hc hw =>
    have ht : (s ++ rest).takeWhile isWordChar = s :=
      takeWhile_append_of_head? hw fun d hd => by simpa [joins_word] using hs d hd
    simp [first?, word, hc, isDigit_of_isAlpha hc, ht]
  | @operator c hc =>
    rcases (by simpa [isOperatorChar] using hc : (c = '+' ∨ c = '-') ∨ c = '*') with
      (rfl | rfl) | rfl <;> rfl
  | arrow => rfl
  | @punctuation c hc =>
    have : c = '(' ∨ c = ')' ∨ c = '=' ∨ c = '|' ∨ c = '_' := by
      simpa [isPunctuationChar, or_assoc] using hc
    rcases this with rfl | rfl | rfl | rfl | rfl <;> try rfl
    cases rest with
    | nil => rfl
    | cons d rest =>
      have hd : d ≠ '>' := by
        have := hs d rfl
        simpa [joins] using this
      simp [first?, hd]
      decide

/-- The first character tells a lexeme from a blank, and a numeral from the other lexemes. -/
theorem Formed.head {l : Lexeme} (hl : l.Formed) :
    ∃ c s, l.text = c :: s ∧ beginsLexeme c ∧ (l.kind = .integer ∨ c.isDigit = false) := by
  cases hl with
  | @integer digits hne hd _ =>
    cases digits with
    | nil => exact absurd rfl hne
    | cons c digits => exact ⟨c, digits, rfl, by simp [beginsLexeme, hd c], Or.inl rfl⟩
  | @word c s hc _ => exact ⟨c, s, rfl, by simp [beginsLexeme, hc], Or.inr (isDigit_of_isAlpha hc)⟩
  | @operator c hc =>
    refine ⟨c, [], rfl, by simp [beginsLexeme, hc], Or.inr ?_⟩
    rcases (by simpa [isOperatorChar] using hc : (c = '+' ∨ c = '-') ∨ c = '*') with
      (rfl | rfl) | rfl <;> rfl
  | arrow => exact ⟨'=', ['>'], rfl, rfl, Or.inr rfl⟩
  | @punctuation c hc =>
    refine ⟨c, [], rfl, by simp [beginsLexeme, hc], Or.inr ?_⟩
    have : c = '(' ∨ c = ')' ∨ c = '=' ∨ c = '|' ∨ c = '_' := by
      simpa [isPunctuationChar, or_assoc] using hc
    rcases this with rfl | rfl | rfl | rfl | rfl <;> rfl

theorem Formed.text_ne_nil {l : Lexeme} (hl : l.Formed) : l.text ≠ [] := by
  obtain ⟨c, s, ht, _⟩ := hl.head
  simp [ht]

theorem Formed.lineFeed_not_mem {l : Lexeme} (hl : l.Formed) : '\n' ∉ l.text := by
  cases hl with
  | integer _ hd _ => exact fun hmem => absurd (hd _ hmem) (by decide)
  | @word c s hc hs =>
    change '\n' ∉ c :: s
    rw [List.mem_cons]
    rintro (rfl | hmem)
    · exact absurd hc (by decide)
    · exact absurd (hs _ hmem) (by decide)
  | @operator c hc =>
    rw [List.mem_singleton]
    rintro rfl
    exact absurd hc (by decide)
  | arrow => decide
  | @punctuation c hc =>
    rw [List.mem_singleton]
    rintro rfl
    exact absurd hc (by decide)

/-- No lexeme is the mark of a comment. -/
theorem Formed.not_comment {l : Lexeme} (hl : l.Formed) {rest : List Char} (hs : l.Stops rest) :
    ¬ ['(', '*'] <+: l.text ++ rest := by
  intro hp
  cases ht : l.text with
  | nil => exact hl.text_ne_nil ht
  | cons c s =>
    rw [ht, List.cons_append] at hp
    obtain ⟨rfl, hstar⟩ := List.cons_prefix_cons.mp hp
    have hf := first?_append hl hs
    rw [ht, List.cons_append] at hf
    obtain rfl : ⟨.punctuation, ['(']⟩ = l := Option.some.inj hf
    obtain rfl : [] = s := by simpa using ht
    cases rest with
    | nil => simp at hstar
    | cons d rest =>
      obtain ⟨rfl, _⟩ := List.cons_prefix_cons.mp hstar
      exact absurd (hs '*' rfl) (by decide)

theorem longNumeral?_append {l : Lexeme} (hl : l.Formed) {rest : List Char} (hs : l.Stops rest) :
    longNumeral? (l.text ++ rest) = none := by
  rw [longNumeral?_eq_none_iff]
  obtain ⟨c, s, ht, _, hk | hc⟩ := hl.head
  · cases hl with
    | integer _ hd hlen =>
      rw [takeWhile_append_of_head? hd hs]
      exact hlen
    | word _ _ =>
      simp only [word] at hk
      split at hk <;> cases hk
    | operator _ => cases hk
    | arrow => cases hk
    | punctuation _ => cases hk
  · simp [ht, hc]

end Lexeme

end Casewise.Token
