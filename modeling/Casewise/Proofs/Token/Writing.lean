import Casewise.Proofs.Token.Layout

/-! Texts made of lexemes. Where a text is put together from parts, so is its layout, as long as no part
runs on into the next. -/
namespace Casewise.Token

/-- No lexeme goes on with the character. -/
def Separates (c : Char) : Prop := ∀ l : Lexeme, l.joins c = false

theorem separates_of_not_wordChar {c : Char} (hw : isWordChar c = false) (harrow : c ≠ '>')
    (hstar : c ≠ '*') : Separates c := by
  have hd : c.isDigit = false := by
    simp only [isWordChar, Char.isAlphanum, Bool.or_eq_false_iff] at hw
    exact hw.1.2
  intro l
  unfold Lexeme.joins
  split
  · exact hd
  · exact hw
  · exact hw
  · simp [harrow, hstar]

theorem separates_space : Separates ' ' :=
  separates_of_not_wordChar (by decide) (by decide) (by decide)

theorem separates_lineFeed : Separates '\n' :=
  separates_of_not_wordChar (by decide) (by decide) (by decide)

theorem separates_open : Separates '(' :=
  separates_of_not_wordChar (by decide) (by decide) (by decide)

theorem separates_close : Separates ')' :=
  separates_of_not_wordChar (by decide) (by decide) (by decide)

theorem head_append_ne {s t : List Char} {c : Char} (hs : s.head? ≠ some c)
    (ht : t.head? ≠ some c) : (s ++ t).head? ≠ some c := by
  cases s with
  | nil => exact ht
  | cons d s => exact hs

/-- The token of a lexeme that is no numeral is the word or symbol that it spells. -/
theorem Lexeme.token_is {kind : Kind} {text : List Char} (hk : kind ≠ .integer) (span : Span) :
    (token ⟨kind, text⟩ span).is kind (String.ofList text) := by
  refine is_iff.mpr ⟨rfl, ?_⟩
  cases kind <;> first | rfl | exact absurd rfl hk

theorem Lexeme.formed_word {c : Char} {s : List Char} (hc : c.isAlpha) (hs : s.all isWordChar) :
    (word (c :: s)).Formed :=
  .word hc (List.all_eq_true.mp hs)

/-- Only an operator begins with a star. -/
theorem Lexeme.Formed.head_ne_star {l : Lexeme} (hl : l.Formed) (hk : l.kind ≠ .operator) :
    l.text.head? ≠ some '*' := by
  cases hl with
  | @integer digits _ hd _ =>
    intro h
    exact absurd (hd '*' (List.mem_of_head? h)) (by decide)
  | @word c s hc _ =>
    intro h
    obtain rfl : c = '*' := by simpa [Lexeme.word] using h
    exact absurd hc (by decide)
  | operator _ => exact absurd rfl hk
  | arrow => decide
  | @punctuation c hc =>
    intro h
    obtain rfl : c = '*' := by simpa using h
    exact absurd hc (by decide)

theorem Lexeme.Stops.append {l : Lexeme} {s t : List Char} (hs : l.Stops s)
    (ht : ∀ c ∈ t.head?, Separates c) : l.Stops (s ++ t) := by
  cases s with
  | nil => exact fun c hc => ht c hc l
  | cons d s => simpa [Lexeme.Stops] using hs

theorem Layout.append {file : String} {p : Position} {s t : List Char} {ts us : List Token}
    (hs : Layout file p s ts) (ht : Layout file (p.after s) t us)
    (hsep : ∀ c ∈ t.head?, Separates c) : Layout file p (s ++ t) (ts ++ us) := by
  induction hs with
  -- the gap at the end of the first text joins the one at the beginning of the second
  | last hg => exact ht.prepend hg
  | @next p g rest l ts hg hl hstop _ ih =>
    have hrest := ih (by simpa only [Position.after_append] using ht)
    simpa only [List.append_assoc, List.cons_append] using Layout.next hg hl (hstop.append hsep) hrest

/-- What is said of texts and of their tokens is put together from what is said of the parts. -/
structure Composes (W : List Char → (List Token → Prop) → Prop) : Prop where
  mono : ∀ {s : List Char} {R S : List Token → Prop}, W s R → (∀ ts, R ts → S ts) → W s S
  empty : W [] (· = [])
  blank : ∀ {c : Char} {s : List Char} {R : List Token → Prop}, Text.isBlank c → W s R → W (c :: s) R
  /-- A lexeme in front of a text that does not make it longer. -/
  lexeme : ∀ {l : Lexeme} {s : List Char} {R : List Token → Prop}, l.Formed → l.Stops s → W s R →
    W (l.text ++ s) fun ts => ∃ span us, ts = l.token span :: us ∧ R us
  append : ∀ {s t : List Char} {R S : List Token → Prop}, W s R → W t S → (∀ c ∈ t.head?, Separates c) →
    W (s ++ t) fun ts => ∃ us vs, ts = us ++ vs ∧ R us ∧ S vs

namespace Composes

variable {W : List Char → (List Token → Prop) → Prop} {s t : List Char} {R S : List Token → Prop} {l : Lexeme}

theorem single (hw : Composes W) (hl : l.Formed) : W l.text fun ts => ∃ span, ts = [l.token span] := by
  have h := hw.lexeme hl (s := []) (by simp [Lexeme.Stops]) hw.empty
  rw [List.append_nil] at h
  refine hw.mono h ?_
  rintro ts ⟨span, us, rfl, rfl⟩
  exact ⟨span, rfl⟩

theorem word (hw : Composes W) (hl : l.Formed) (h : W s R) :
    W (l.text ++ ' ' :: s) fun ts => ∃ span us, ts = l.token span :: us ∧ R us :=
  hw.lexeme hl (fun c hc => by cases hc; exact separates_space l) (hw.blank (by decide) h)

theorem infixed (hw : Composes W) (hs : W s R) (hl : l.Formed) (ht : W t S) :
    W (s ++ ' ' :: (l.text ++ ' ' :: t)) fun ts =>
      ∃ us span vs, ts = us ++ l.token span :: vs ∧ R us ∧ S vs := by
  have hrest := hw.blank (c := ' ') (by decide) (hw.word hl ht)
  refine hw.mono (hw.append hs hrest fun c hc => by cases hc; exact separates_space) ?_
  rintro ts ⟨us, ws, rfl, hus, span, vs, rfl, hvs⟩
  exact ⟨us, span, vs, rfl, hus, hvs⟩

/-- A text between parentheses. A star at its beginning would open a comment. -/
theorem group (hw : Composes W) (h : W s R) (hstar : s.head? ≠ some '*') :
    W ('(' :: (s ++ [')'])) fun ts => ∃ l r us, ts = l :: (us ++ [r]) ∧
      l.is .punctuation "(" ∧ r.is .punctuation ")" ∧ R us := by
  have hopen : Lexeme.Formed ⟨.punctuation, ['(']⟩ := .punctuation (by decide)
  have hclose : Lexeme.Formed ⟨.punctuation, [')']⟩ := .punctuation (by decide)
  have hstop : Lexeme.Stops ⟨.punctuation, ['(']⟩ (s ++ [')']) := by
    cases s with
    | nil => simp [Lexeme.Stops, Lexeme.joins]
    | cons c s =>
      intro d hd
      obtain rfl : c = d := by simpa using hd
      have hc : c ≠ '*' := by simpa using hstar
      simp [Lexeme.joins, hc]
  have hinner := hw.append h (hw.single hclose) fun c hc => by cases hc; exact separates_close
  refine hw.mono (hw.lexeme hopen hstop hinner) ?_
  rintro ts ⟨span, vs, rfl, us, ws, rfl, hus, span', rfl⟩
  exact ⟨_, _, us, rfl, Lexeme.token_is (by decide) span, Lexeme.token_is (by decide) span', hus⟩

end Composes

/-- Wherever the text stands, it is laid out as tokens of the described sort. -/
def Writes (s : List Char) (R : List Token → Prop) : Prop :=
  ∀ file p, ∃ ts, Layout file p s ts ∧ R ts

namespace Writes

variable {s t : List Char} {R S : List Token → Prop} {l : Lexeme}

theorem mono (h : Writes s R) (hRS : ∀ ts, R ts → S ts) : Writes s S := by
  intro file p
  obtain ⟨ts, hl, hts⟩ := h file p
  exact ⟨ts, hl, hRS ts hts⟩

theorem empty : Writes [] (· = []) := fun _ _ => ⟨[], .last .nil, rfl⟩

theorem blank {c : Char} (hc : Text.isBlank c) (h : Writes s R) : Writes (c :: s) R := by
  intro file p
  obtain ⟨ts, hl, hts⟩ := h file (p.next c)
  exact ⟨ts, Layout.prepend (.blank hc .nil) hl, hts⟩

theorem lexeme (hl : l.Formed) (hstop : l.Stops s) (h : Writes s R) :
    Writes (l.text ++ s) fun ts => ∃ span us, ts = l.token span :: us ∧ R us := by
  intro file p
  obtain ⟨us, hs, hus⟩ := h file (p.after l.text)
  exact ⟨_, Layout.next (p := p) .nil hl hstop hs, _, us, rfl, hus⟩

theorem append (hs : Writes s R) (ht : Writes t S) (hsep : ∀ c ∈ t.head?, Separates c) :
    Writes (s ++ t) fun ts => ∃ us vs, ts = us ++ vs ∧ R us ∧ S vs := by
  intro file p
  obtain ⟨us, hls, hus⟩ := hs file p
  obtain ⟨vs, hlt, hvs⟩ := ht file (p.after s)
  exact ⟨us ++ vs, hls.append hlt hsep, us, vs, rfl, hus, hvs⟩

theorem composes : Composes Writes := ⟨mono, empty, blank, lexeme, append⟩

theorem single (hl : l.Formed) : Writes l.text fun ts => ∃ span, ts = [l.token span] := composes.single hl

theorem word (hl : l.Formed) (h : Writes s R) :
    Writes (l.text ++ ' ' :: s) fun ts => ∃ span us, ts = l.token span :: us ∧ R us :=
  composes.word hl h

theorem infixed (hs : Writes s R) (hl : l.Formed) (ht : Writes t S) :
    Writes (s ++ ' ' :: (l.text ++ ' ' :: t)) fun ts =>
      ∃ us span vs, ts = us ++ l.token span :: vs ∧ R us ∧ S vs :=
  composes.infixed hs hl ht

theorem group (h : Writes s R) (hstar : s.head? ≠ some '*') :
    Writes ('(' :: (s ++ [')'])) fun ts => ∃ l r us, ts = l :: (us ++ [r]) ∧
      l.is .punctuation "(" ∧ r.is .punctuation ")" ∧ R us :=
  composes.group h hstar

end Writes

end Casewise.Token
