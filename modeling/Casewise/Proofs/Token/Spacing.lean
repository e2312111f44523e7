import Casewise.Proofs.Token.Splitting
import Casewise.Proofs.Token.Writing

/-! Spacing. Tokens that are written with gaps between them are read back, whatever the gaps are. -/
namespace Casewise.Token

/-- What a token says, apart from its place. -/
def content (t : Token) : Kind × Scalar := (t.kind, t.value)

/-- A token to be written: its characters, and what is put between it and the next one. -/
structure Piece where
  token : Token
  text : List Char
  gap : List Char

namespace Piece

structure Proper (q : Piece) : Prop where
  spelled : q.token.Spells q.text
  short : q.token.kind = .integer → q.text.length ≤ maxDigits
  gap : Gap q.gap

/-- The text of some pieces, with something in front of them. -/
def write (front : List Char) (qs : List Piece) : List Char :=
  front ++ qs.flatMap fun q => q.text ++ q.gap

theorem write_cons (front : List Char) (q : Piece) (qs : List Piece) :
    write front (q :: qs) = front ++ (q.text ++ write q.gap qs) := by
  simp [write]

end Piece

/-- The mark that closes a comment is the first one, even behind a star. -/
theorem neverCloses_iff {inside : List Char} : NeverCloses inside ↔ ¬ ['*', ')'] <:+: inside := by
  unfold NeverCloses
  rw [not_iff_not]
  constructor
  · intro h
    rcases List.infix_concat_iff.mp h with hsuffix | hinside
    · obtain ⟨before, hbefore⟩ := hsuffix
      have hsplit : (before ++ ['*']) ++ [')'] = inside ++ ['*'] := by simpa using hbefore
      have hlast := (List.append_inj' hsplit rfl).2
      cases hlast
    · exact hinside
  · intro h
    exact h.trans (List.prefix_append inside ['*']).isInfix

theorem separates_of_isBlank {c : Char} (hc : Text.isBlank c) : Separates c := by
  have hbegins : beginsLexeme c = false := beginsLexeme_of_isBlank hc
  have hword : isWordChar c = false := by
    simp_all [beginsLexeme, isWordChar, isPunctuationChar, Char.isAlphanum]
  refine separates_of_not_wordChar hword ?_ ?_
  · rintro rfl
    exact absurd hc (by decide)
  · rintro rfl
    exact absurd hc (by decide)

/-- No lexeme runs on into a gap. -/
theorem Gap.separates {g : List Char} (hg : Gap g) : ∀ c ∈ g.head?, Separates c := by
  intro c hc
  cases hg with
  | nil => cases hc
  | blank hblank _ =>
    cases hc
    exact separates_of_isBlank hblank
  | comment _ _ =>
    cases hc
    exact separates_open

theorem Lexeme.content_token {kind : Kind} (hk : kind ≠ .integer) (text : List Char) (span : Span) :
    (token ⟨kind, text⟩ span).content = (kind, .text (String.ofList text)) := by
  cases kind with
  | integer => exact absurd rfl hk
  | _ => rfl

theorem Lexeme.formed_keyword {text : List Char} (h : String.ofList text ∈ keywords) :
    Formed ⟨.keyword, text⟩ := by
  have hword : (word text).Formed := by
    have htexts : text = ['f', 'u', 'n'] ∨ text = ['c', 'a', 's', 'e'] ∨ text = ['i', 'n'] := by
      simpa [keywords, ← String.toList_inj] using h
    rcases htexts with rfl | rfl | rfl <;> exact formed_word (by decide) (by decide)
  rwa [word_of_mem h] at hword

theorem Lexeme.formed_operator {text : List Char} (h : String.ofList text ∈ ["+", "-", "*"]) :
    Formed ⟨.operator, text⟩ := by
  have htexts : text = ['+'] ∨ text = ['-'] ∨ text = ['*'] := by
    simpa [← String.toList_inj] using h
  rcases htexts with rfl | rfl | rfl <;> exact .operator (by decide)

theorem Lexeme.formed_punctuation {text : List Char}
    (h : String.ofList text ∈ ["=>", "(", ")", "=", "|", "_"]) : Formed ⟨.punctuation, text⟩ := by
  have htexts : text = ['=', '>'] ∨ text = ['('] ∨ text = [')'] ∨ text = ['='] ∨ text = ['|'] ∨
      text = ['_'] := by
    simpa [← String.toList_inj] using h
  rcases htexts with rfl | rfl | rfl | rfl | rfl | rfl
  · exact .arrow
  all_goals exact .punctuation (by decide)

theorem Spells.exists_lexeme {t : Token} {text : List Char} (h : t.Spells text)
    (hshort : t.kind = .integer → text.length ≤ maxDigits) :
    ∃ l : Lexeme, l.Formed ∧ l.text = text ∧ ∀ span, (l.token span).content = t.content := by
  obtain ⟨kind, value, place⟩ := t
  cases kind with
  | integer =>
    obtain ⟨hne, hd, hv⟩ := h
    have hvalue : value = .int (Nat.ofDigitChars 10 text 0) := hv
    refine ⟨⟨.integer, text⟩, .integer hne hd (hshort rfl), rfl, fun span => ?_⟩
    simp [content, Lexeme.token, Lexeme.value, hvalue, digitsValue, Nat.ofDigitChars_eq_foldl]
  | keyword =>
    obtain ⟨hkey, hv⟩ := h
    refine ⟨⟨.keyword, text⟩, Lexeme.formed_keyword hkey, rfl, fun span => ?_⟩
    rw [Lexeme.content_token (by decide), content, hv]
  | identifier =>
    obtain ⟨⟨c, s, rfl, hc, hs⟩, hkey, hv⟩ := h
    have hword : (Lexeme.word (c :: s)).Formed := .word hc hs
    rw [Lexeme.word_of_not_mem hkey] at hword
    refine ⟨⟨.identifier, c :: s⟩, hword, rfl, fun span => ?_⟩
    rw [Lexeme.content_token (by decide), content, hv]
  | operator =>
    obtain ⟨hsymbol, hv⟩ := h
    refine ⟨⟨.operator, text⟩, Lexeme.formed_operator hsymbol, rfl, fun span => ?_⟩
    rw [Lexeme.content_token (by decide), content, hv]
  | punctuation =>
    obtain ⟨hsymbol, hv⟩ := h
    refine ⟨⟨.punctuation, text⟩, Lexeme.formed_punctuation hsymbol, rfl, fun span => ?_⟩
    rw [Lexeme.content_token (by decide), content, hv]
  | eof => cases h
  | other name => cases h

theorem layout_write (file : String) (p : Position) {front : List Char} {qs : List Piece}
    (hfront : Gap front) (hqs : ∀ q ∈ qs, q.Proper) (hgaps : ∀ q ∈ qs.dropLast, q.gap ≠ []) :
    ∃ ts, Layout file p (Piece.write front qs) ts ∧ ts.map content = qs.map (·.token.content) := by
  induction qs generalizing p front with
  | nil =>
    refine ⟨[], ?_, rfl⟩
    have hnil : Piece.write front [] = front := by simp [Piece.write]
    rw [hnil]
    exact .last hfront
  | cons q qs ih =>
    have hq : q.Proper := hqs q List.mem_cons_self
    obtain ⟨l, hl, htext, hcontent⟩ := hq.spelled.exists_lexeme hq.short
    have hrest : ∀ r ∈ qs.dropLast, r.gap ≠ [] := by
      intro r hr
      cases qs with
      | nil => cases hr
      | cons d qs => exact hgaps r (List.mem_cons_of_mem q hr)
    obtain ⟨ts, hlayout, hts⟩ := ih ((p.after front).after l.text) hq.gap
      (fun r hr => hqs r (List.mem_cons_of_mem q hr)) hrest
    have hstops : l.Stops (Piece.write q.gap qs) := by
      cases hgap : q.gap with
      | cons d gap =>
        have hd : Separates d := hq.gap.separates d (by rw [hgap]; rfl)
        intro c hc
        cases hc
        exact hd l
      | nil =>
        -- only the last token may stand right in front of what follows it, and nothing does
        have hqs : qs = [] := by
          cases qs with
          | nil => rfl
          | cons d qs => exact absurd hgap (hgaps q List.mem_cons_self)
        subst hqs
        intro c hc
        cases hc
    rw [Piece.write_cons, ← htext]
    refine ⟨_, .next hfront hl hstops hlayout, ?_⟩
    rw [List.map_cons, List.map_cons, hts, hcontent]

end Casewise.Token
