import Casewise.Proofs.Source.Place
import Casewise.Proofs.Token.Layout

/-! How a source text is split: what each token spells and where it stands, how far it reaches, and
that nothing but blanks and comments is left between the tokens. -/
namespace Casewise.Token

/-- The token is the one that the characters spell. -/
def Spells (t : Token) (text : List Char) : Prop :=
  match t.kind with
  | .integer => text ≠ [] ∧ (∀ c ∈ text, c.isDigit) ∧ t.value = .int (Nat.ofDigitChars 10 text 0)
  | .keyword => String.ofList text ∈ ["fun", "case", "in"] ∧ t.value = .text (String.ofList text)
  | .identifier => (∃ c s, text = c :: s ∧ c.isAlpha ∧ ∀ d ∈ s, isWordChar d) ∧
      String.ofList text ∉ ["fun", "case", "in"] ∧ t.value = .text (String.ofList text)
  | .operator => String.ofList text ∈ ["+", "-", "*"] ∧ t.value = .text (String.ofList text)
  | .punctuation => String.ofList text ∈ ["=>", "(", ")", "=", "|", "_"] ∧
      t.value = .text (String.ofList text)
  | .eof | .other _ => False

/-- The token is not cut short by the character behind it. -/
def EndsBefore (t : Token) (c : Char) : Prop :=
  match t.kind with
  | .integer => ¬ c.isDigit
  | .keyword | .identifier => ¬ (c.isAlpha ∨ c.isDigit ∨ c = '_')
  | _ => (t.value = .text "=" → c ≠ '>') ∧ (t.value = .text "(" → c ≠ '*')

/-- What a text holds beside its tokens: the stretch in front of each, and the one behind the last. -/
def stretches (source : List Char) (first : Int) : List Token → List (List Char)
  | [] => [cut source first source.length]
  | t :: ts => cut source first t.span.start :: stretches source t.span.stop ts

/-- The tokens split the text: in order and apart, maximal, with nothing lost between them. -/
structure Splits (source : List Char) (ts : List Token) : Prop where
  inside : ∀ t ∈ ts, 0 ≤ t.span.start ∧ t.span.start < t.span.stop ∧ t.span.stop ≤ source.length
  ordered : ts.Pairwise fun t u => t.span.stop ≤ u.span.start
  spelled : ∀ t ∈ ts, t.Spells (cut source t.span.start t.span.stop)
  maximal : ∀ t ∈ ts, ∀ c, source[t.span.stop.toNat]? = some c → t.EndsBefore c
  gaps : ∀ s ∈ stretches source 0 ts, Gap s
  placed : ∀ t ∈ ts, t.span.Placed source

private theorem digitsValue_eq (digits : List Char) :
    digitsValue digits = Nat.ofDigitChars 10 digits 0 := Nat.ofDigitChars_eq_foldl.symm

theorem Lexeme.Formed.spells {l : Lexeme} (hl : l.Formed) (span : Span) :
    (l.token span).Spells l.text := by
  cases hl with
  | integer hne hd _ => exact ⟨hne, hd, by rw [token, value, digitsValue_eq]⟩
  | @word c s hc hw =>
    by_cases hk : String.ofList (c :: s) ∈ keywords
    · rw [word_of_mem hk]
      exact ⟨hk, rfl⟩
    · rw [word_of_not_mem hk]
      exact ⟨⟨c, s, rfl, hc, hw⟩, hk, rfl⟩
  | @operator c hc =>
    rcases (by simpa [isOperatorChar] using hc : (c = '+' ∨ c = '-') ∨ c = '*') with
      (rfl | rfl) | rfl <;> exact ⟨by decide, rfl⟩
  | arrow => exact ⟨by decide, rfl⟩
  | @punctuation c hc =>
    have : c = '(' ∨ c = ')' ∨ c = '=' ∨ c = '|' ∨ c = '_' := by
      simpa [isPunctuationChar, or_assoc] using hc
    rcases this with rfl | rfl | rfl | rfl | rfl <;> exact ⟨by decide, rfl⟩

private theorem symbol_endsBefore {text : List Char} {c : Char}
    (hc : ((text = ['='] && c = '>') || (text = ['('] && c = '*')) = false) :
    (Scalar.text (String.ofList text) = .text "=" → c ≠ '>') ∧
      (Scalar.text (String.ofList text) = .text "(" → c ≠ '*') := by
  simp only [Bool.or_eq_false_iff, Bool.and_eq_false_iff, decide_eq_false_iff_not] at hc
  constructor <;> intro h
  · have : text = ['='] := String.ofList_injective (Scalar.text.inj h)
    exact hc.1.resolve_left (absurd this)
  · have : text = ['('] := String.ofList_injective (Scalar.text.inj h)
    exact hc.2.resolve_left (absurd this)

theorem Lexeme.Formed.endsBefore {l : Lexeme} (hl : l.Formed) (span : Span) {c : Char}
    (hc : l.joins c = false) : (l.token span).EndsBefore c := by
  cases hl with
  | integer _ _ _ => exact Bool.eq_false_iff.mp hc
  | @word d s _ _ =>
    rw [joins_word] at hc
    have hn : ¬ (c.isAlpha ∨ c.isDigit ∨ c = '_') := by
      simpa [isWordChar, Char.isAlphanum, not_or, and_assoc] using hc
    unfold Lexeme.word
    split <;> exact hn
  | operator _ => exact symbol_endsBefore hc
  | arrow => exact symbol_endsBefore hc
  | punctuation _ => exact symbol_endsBefore hc

/-- A layout can be taken apart at any of its tokens. -/
theorem Layout.split {file : String} {p : Position} {s : List Char} {before after : List Token}
    {t : Token} (h : Layout file p s (before ++ t :: after)) :
    ∃ left, ∃ l : Lexeme, ∃ rest, s = left ++ l.text ++ rest ∧ l.Formed ∧ l.Stops rest ∧
      t = l.token (Span.between file (p.after left) (p.after (left ++ l.text))) ∧
      Layout file p left before ∧ Layout file (p.after (left ++ l.text)) rest after := by
  induction before generalizing p s with
  | nil =>
    cases h with
    | @next _ g rest l _ hg hl hs hr =>
      refine ⟨g, l, rest, by simp, hl, hs, ?_, .last hg, ?_⟩
      · rw [Position.after_append]
      · rw [Position.after_append]
        exact hr
  | cons u before ih =>
    cases h with
    | @next _ g rest k _ hg hk hs hr =>
      obtain ⟨left, l, rest, rfl, hl, hstop, rfl, hleft, hrest⟩ := ih hr
      have hks : k.Stops left := by
        cases left with
        | nil => intro c hc; cases hc
        | cons d left => simpa [Lexeme.Stops] using hs
      refine ⟨g ++ (k.text ++ left), l, rest, by simp, hl, hstop, ?_, .next hg hk hks hleft, ?_⟩
      · simp only [Position.after_append]
      · simpa only [Position.after_append] using hrest

theorem Layout.offset_le {file : String} {p : Position} {s : List Char} {ts : List Token} {t : Token}
    (h : Layout file p s ts) (ht : t ∈ ts) : (p.offset : Int) ≤ t.span.start := by
  obtain ⟨before, after, rfl⟩ := List.append_of_mem ht
  obtain ⟨left, l, rest, _, _, _, rfl, _, _⟩ := h.split
  simp only [Lexeme.token, Span.between, Position.offset_after]
  omega

theorem Layout.ordered {file : String} {p : Position} {s : List Char} {ts : List Token}
    (h : Layout file p s ts) : ts.Pairwise fun t u => t.span.stop ≤ u.span.start := by
  induction h with
  | last _ => exact .nil
  | next _ _ _ hr ih => exact .cons (fun u hu => hr.offset_le hu) ih

/-- The stretches of a text that goes on behind what was read. -/
theorem Layout.gaps {file : String} {p : Position} {pre s : List Char} {ts : List Token}
    (h : Layout file p s ts) (hp : p.offset = pre.length) :
    ∀ g ∈ stretches (pre ++ s) p.offset ts, Gap g := by
  induction h generalizing pre with
  | @last p s hs =>
    intro g hg
    obtain rfl := List.mem_singleton.mp hg
    have := cut_append pre s []
    rw [List.append_nil] at this
    rw [hp, this]
    exact hs
  | @next p g rest l ts hg hl hs hr ih =>
    intro k hk
    rcases List.mem_cons.mp hk with rfl | hk
    · have hstart : ((p.after g).offset : Int) = (pre ++ g).length := by simp [hp]
      simp only [Lexeme.token, Span.between]
      rw [hp, hstart, ← List.append_assoc, cut_append]
      exact hg
    · have := @ih (pre ++ g ++ l.text) (by simp [hp, Nat.add_assoc])
      simp only [List.append_assoc] at this
      exact this k hk

theorem splits_of_layout {file : String} {s : List Char} {ts : List Token}
    (h : Layout file .start s ts) : Splits s ts := by
  have hmem : ∀ t ∈ ts, ∃ left, ∃ l : Lexeme, ∃ rest, s = left ++ l.text ++ rest ∧ l.Formed ∧
      l.Stops rest ∧
      t = l.token (Span.between file (.after .start left) (.after .start (left ++ l.text))) := by
    intro t ht
    obtain ⟨before, after, rfl⟩ := List.append_of_mem ht
    obtain ⟨left, l, rest, hs, hl, hstop, ht, _, _⟩ := h.split
    exact ⟨left, l, rest, hs, hl, hstop, ht⟩
  refine ⟨?_, h.ordered, ?_, ?_, @Layout.gaps file .start [] s ts h rfl, ?_⟩
  · intro t ht
    obtain ⟨left, l, rest, rfl, hl, _, rfl⟩ := hmem t ht
    have hpos := List.length_pos_iff.mpr hl.text_ne_nil
    simp only [Lexeme.token, Span.between, Position.offset_after, Position.start, List.length_append]
    omega
  · intro t ht
    obtain ⟨left, l, rest, rfl, hl, _, rfl⟩ := hmem t ht
    have := cut_append left l.text rest
    simp only [Lexeme.token, Span.between, Position.offset_after, Position.start, Nat.zero_add]
    rw [this]
    exact hl.spells _
  · intro t ht c hc
    obtain ⟨left, l, rest, rfl, hl, hs, rfl⟩ := hmem t ht
    refine hl.endsBefore _ (hs c ?_)
    simp only [Lexeme.token, Span.between, Position.offset_after, Position.start, Nat.zero_add,
      Int.toNat_natCast] at hc
    rw [List.getElem?_append_right (Nat.le_refl _), Nat.sub_self] at hc
    rw [List.head?_eq_getElem?, hc, Option.mem_some_iff]
  · intro t ht
    obtain ⟨left, l, rest, rfl, _, _, rfl⟩ := hmem t ht
    rw [List.append_assoc]
    exact Span.placed_between file left _ _

/-- A text that is not refused is split by its tokens, and the end token stands behind all of it. -/
theorem tokenize_splits (source file : String) (h : (tokenize source file).fault? = none) :
    ∃ ts last, tokenize source file = .closed ts last ∧ (∀ t ∈ ts, t.kind ≠ .eof) ∧
      last.kind = .eof ∧ last.span.start = source.toList.length ∧
      last.span.stop = source.toList.length ∧ last.span.Placed source.toList ∧
      Splits source.toList ts := by
  obtain ⟨ts, hl⟩ := exists_layout h
  have hs := splits_of_layout hl
  refine ⟨ts, _, scan_of_layout hl, ?_, rfl, ?_, ?_, ?_, hs⟩
  · intro t ht hk
    have := hs.spelled t ht
    simp [Spells, hk] at this
  · simp [endOf, Span.between, Position.start]
  · simp [endOf, Span.between, Position.start]
  · have := Span.placed_between file source.toList [] (Position.start.after source.toList)
    rwa [List.append_nil] at this

/-- Comments in front and inside, one of them opened by `(*)`, and lexemes that touch. -/
theorem tokenize_splits_touching : (tokenize "(**)f(*)*)1=>" "a").fault? = none ∧
    ∃ ts last, tokenize "(**)f(*)*)1=>" "a" = .closed ts last ∧ ts.length = 3 ∧
      Splits "(**)f(*)*)1=>".toList ts := by
  have hempty : NeverCloses [] := fun h => by simpa using h.length_le
  have hfront : Gap ['(', '*', '*', ')'] := .comment hempty .nil
  have hinside : Gap ['(', '*', ')', '*', ')'] := .comment (neverCloses_cons hempty (by simp)) .nil
  have hword : Lexeme.Formed ⟨.identifier, ['f']⟩ := .word (c := 'f') (s := []) (by decide) (by simp)
  have hnumber : Lexeme.Formed ⟨.integer, ['1']⟩ := .integer (by simp) (by simp) (by simp [maxDigits])
  have harrow : ∀ p, ∃ ts, ts.length = 1 ∧ Layout "a" p ['=', '>'] ts := fun p =>
    ⟨_, rfl, @Layout.next "a" p [] [] _ _ .nil .arrow (by simp [Lexeme.Stops]) (.last .nil)⟩
  have hrest : ∀ p, ∃ ts, ts.length = 2 ∧ Layout "a" p ("(*)*)1=>".toList) ts := by
    intro p
    obtain ⟨ts, hn, hl⟩ := harrow ((p.after ['(', '*', ')', '*', ')']).after ['1'])
    have hstop : Lexeme.Stops ⟨.integer, ['1']⟩ ['=', '>'] := by simp [Lexeme.Stops, Lexeme.joins]
    exact ⟨_, by simpa using hn, Layout.next hinside hnumber hstop hl⟩
  obtain ⟨us, hn, hlayout⟩ : ∃ us, us.length = 3 ∧ Layout "a" .start "(**)f(*)*)1=>".toList us := by
    obtain ⟨ts, hn, hl⟩ := hrest ((Position.start.after ['(', '*', '*', ')']).after ['f'])
    have hstop : Lexeme.Stops ⟨.identifier, ['f']⟩ "(*)*)1=>".toList := by
      simp [Lexeme.Stops, Lexeme.joins, isWordChar]
    exact ⟨_, by simpa using hn, Layout.next hfront hword hstop hl⟩
  have hscan : tokenize "(**)f(*)*)1=>" "a" = .closed us _ := scan_of_layout hlayout
  have hfault : (tokenize "(**)f(*)*)1=>" "a").fault? = none := by rw [hscan, Stream.fault?_closed]
  have hcount : (tokenize "(**)f(*)*)1=>" "a").toList.length = 4 := by simp [hscan, hn]
  obtain ⟨ts, last, ht, _, _, _, _, _, hs⟩ := tokenize_splits _ _ hfault
  rw [ht, Stream.toList_closed, List.length_append, List.length_singleton] at hcount
  exact ⟨hfault, ts, last, ht, by omega, hs⟩

end Casewise.Token
