import Casewise.Proofs.Token.Writing

/-! The beginnings of texts that are laid out. What is in front of the rest of a text has tokens of its own there,
unless the text is refused, as it is at a numeral of too many digits. -/
namespace Casewise.Token

section

variable {file : String} {p : Position} {s rest : List Char} {ts us : List Token}

/-- The gap at the beginning of a text is no part of what is laid out behind it. -/
theorem Layout.of_gap {g : List Char} (hg : Gap g) (h : Layout file p (g ++ s) us) :
    Layout file (p.after g) s us := by
  have hscan := scan_of_layout h
  rw [scan_gap hg] at hscan
  obtain ⟨ts, hl⟩ := exists_layout (hscan ▸ Stream.fault?_closed us _)
  rwa [h.unique (hl.prepend hg)]

/-- A lexeme at the beginning of a text is the first one of its layout. -/
theorem Layout.of_lexeme {l : Lexeme} (hl : l.Formed) (hstop : l.Stops rest)
    (h : Layout file p (l.text ++ rest) us) : ∃ vs,
      us = l.token (Span.between file p (p.after l.text)) :: vs ∧ Layout file (p.after l.text) rest vs := by
  have hscan := scan_of_layout h
  rw [scan_lexeme hl hstop] at hscan
  have hfault : (scan file (p.after l.text) rest).fault? = none := by
    have hwhole := Stream.fault?_closed us (endOf (Span.between file (p.after (l.text ++ rest))
      (p.after (l.text ++ rest))))
    rwa [← hscan] at hwhole
  obtain ⟨vs, hrest⟩ := exists_layout hfault
  exact ⟨vs, h.unique (Layout.next (p := p) .nil hl hstop hrest), hrest⟩

/-- No text that begins with too many digits is laid out. -/
theorem Layout.length_digits_le {digits : List Char} (hd : ∀ c ∈ digits, c.isDigit)
    (hrest : ∀ c ∈ rest.head?, c.isDigit = false) (h : Layout file p (digits ++ rest) us) :
    digits.length ≤ maxDigits := by
  refine Nat.not_lt.mp fun hlong => ?_
  have hnumeral : longNumeral? (digits ++ rest) = some digits.length := by
    simp only [longNumeral?, takeWhile_append_of_head? hd hrest, if_pos hlong]
  have hscan := scan_of_layout h
  cases digits with
  | nil => cases hlong
  | cons c digits =>
    have hc := hd c List.mem_cons_self
    have hblank : Text.isBlank c = false := by
      rw [Bool.eq_false_iff]
      intro hb
      have hbegins := beginsLexeme_of_isBlank hb
      simp [beginsLexeme, hc] at hbegins
    rw [List.cons_append] at hnumeral hscan
    rw [scan.eq_def] at hscan
    split at hscan
    next heq => cases heq
    next heq =>
      obtain ⟨rfl, _⟩ := List.cons.inj heq
      exact absurd hc (by decide)
    next heq =>
      obtain ⟨rfl, rfl⟩ := List.cons.inj heq
      rw [if_neg (by simp [hblank]), hnumeral] at hscan
      have hfault := Stream.fault?_closed us (endOf (Span.between file (p.after (c :: digits ++ rest))
        (p.after (c :: digits ++ rest))))
      rw [List.cons_append, ← hscan] at hfault
      cases hfault

end

/-- Wherever the text stands in front of one that does not run on from it, and the whole is laid out, its own
tokens are of the described sort. -/
def Reads (s : List Char) (R : List Token → Prop) : Prop :=
  ∀ file p rest us, (∀ c ∈ rest.head?, Separates c) → Layout file p (s ++ rest) us →
    ∃ ts vs, us = ts ++ vs ∧ R ts ∧ Layout file (p.after s) rest vs

namespace Reads

variable {s t : List Char} {R S : List Token → Prop} {l : Lexeme}

theorem mono (h : Reads s R) (hRS : ∀ ts, R ts → S ts) : Reads s S := by
  intro file p rest us hrest hl
  obtain ⟨ts, vs, rfl, hts, hvs⟩ := h file p rest us hrest hl
  exact ⟨ts, vs, rfl, hRS ts hts, hvs⟩

theorem empty : Reads [] (· = []) := fun _ _ _ us _ hl => ⟨[], us, rfl, rfl, hl⟩

theorem blank {c : Char} (hc : Text.isBlank c) (h : Reads s R) : Reads (c :: s) R := by
  intro file p rest us hrest hl
  exact h file (p.next c) rest us hrest (hl.of_gap (.blank hc .nil))

theorem lexeme (hl : l.Formed) (hstop : l.Stops s) (h : Reads s R) :
    Reads (l.text ++ s) fun ts => ∃ span us, ts = l.token span :: us ∧ R us := by
  intro file p rest us hrest hlayout
  rw [List.append_assoc] at hlayout
  obtain ⟨us, rfl, hbehind⟩ := hlayout.of_lexeme hl (hstop.append hrest)
  obtain ⟨ts, vs, rfl, hts, hvs⟩ := h file _ rest us hrest hbehind
  rw [← Position.after_append] at hvs
  exact ⟨_ :: ts, vs, rfl, ⟨_, ts, rfl, hts⟩, hvs⟩

theorem append (hs : Reads s R) (ht : Reads t S) (hsep : ∀ c ∈ t.head?, Separates c) :
    Reads (s ++ t) fun ts => ∃ us vs, ts = us ++ vs ∧ R us ∧ S vs := by
  intro file p rest ws hrest hl
  rw [List.append_assoc] at hl
  have hsep' : ∀ c ∈ (t ++ rest).head?, Separates c := by
    cases t with
    | nil => exact hrest
    | cons c t => simpa using hsep
  obtain ⟨us, _, rfl, hus, hbehind⟩ := hs file p (t ++ rest) ws hsep' hl
  obtain ⟨vs, ws, rfl, hvs, hend⟩ := ht file _ rest _ hrest hbehind
  rw [← Position.after_append] at hend
  exact ⟨us ++ vs, ws, by rw [List.append_assoc], ⟨us, vs, rfl, hus, hvs⟩, hend⟩

theorem composes : Composes Reads := ⟨mono, empty, blank, lexeme, append⟩

/-- A text alone has the tokens that it has in front of any other. -/
theorem of_layout {file : String} {p : Position} {us : List Token} (h : Reads s R) (hl : Layout file p s us) :
    R us := by
  rw [← List.append_nil s] at hl
  obtain ⟨ts, vs, rfl, hts, hvs⟩ := h file p [] us (by simp) hl
  obtain rfl := hvs.unique (.last .nil)
  rwa [List.append_nil]

/-- Whatever is said of the tokens of a numeral of too many digits: it has none. -/
theorem of_long {digits : List Char} (hd : ∀ c ∈ digits, c.isDigit) (hlong : maxDigits < digits.length) :
    Reads digits R := by
  intro file p rest us hrest hl
  have hstop : ∀ c ∈ rest.head?, c.isDigit = false := fun c hc => hrest c hc ⟨.integer, digits⟩
  exact absurd (hl.length_digits_le hd hstop) (Nat.not_le.mpr hlong)

end Reads

end Casewise.Token
