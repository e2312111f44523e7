import Casewise.Proofs.Token.Form
import Casewise.Proofs.Token.Stream

/-! Layouts: a text as lexemes with gaps around them. The tokens of a text are those of its layout,
and a text without a layout is refused. -/
namespace Casewise.Token

/-- The tokens that stand in a text that begins at the given place. -/
inductive Layout (file : String) : Position → List Char → List Token → Prop
  | last {p : Position} {s : List Char} : Gap s → Layout file p s []
  | next {p : Position} {g rest : List Char} {l : Lexeme} {ts : List Token} : Gap g → l.Formed →
    l.Stops rest → Layout file ((p.after g).after l.text) rest ts →
    Layout file p (g ++ (l.text ++ rest))
      (l.token (Span.between file (p.after g) ((p.after g).after l.text)) :: ts)

theorem scan_blank {file : String} {p : Position} {c : Char} {s : List Char}
    (hc : Text.isBlank c) : scan file p (c :: s) = scan file (p.next c) s := by
  rw [scan.eq_def]
  split
  next heq => cases heq
  next heq =>
    obtain ⟨rfl, _⟩ := List.cons.inj heq
    exact absurd hc (by decide)
  next heq =>
    obtain ⟨rfl, rfl⟩ := List.cons.inj heq
    rw [if_pos hc]

theorem scan_comment {file : String} {p : Position} {inside s : List Char}
    (hi : NeverCloses inside) :
    scan file p ('(' :: '*' :: inside ++ '*' :: ')' :: s) =
      scan file (p.after ('(' :: '*' :: inside ++ ['*', ')'])) s := by
  have hs : splitComment? (inside ++ '*' :: ')' :: s) = some (inside, s) :=
    splitComment?_eq_some_iff.mpr ⟨rfl, hi⟩
  rw [List.cons_append, List.cons_append, scan.eq_def]
  split
  next heq => cases heq
  next heq =>
    obtain ⟨rfl, _, rfl⟩ := heq
    split
    next heq =>
      rw [hs] at heq
      cases heq
      rfl
    next heq =>
      rw [hs] at heq
      cases heq
  next hopen heq =>
    obtain ⟨rfl, rfl⟩ := List.cons.inj heq
    exact absurd rfl (hopen _ rfl)

theorem scan_gap {file : String} {p : Position} {g : List Char} (hg : Gap g) (s : List Char) :
    scan file p (g ++ s) = scan file (p.after g) s := by
  induction hg generalizing p with
  | nil => rfl
  | blank hc _ ih => rw [List.cons_append, scan_blank hc, ih, Position.after_cons]
  | @comment inside rest hi _ ih =>
    have happ : '(' :: '*' :: inside ++ '*' :: ')' :: rest ++ s =
        '(' :: '*' :: inside ++ '*' :: ')' :: (rest ++ s) := by simp
    rw [happ, scan_comment hi, ih, ← Position.after_append]
    simp

theorem scan_lexeme {file : String} {p : Position} {l : Lexeme} (hl : l.Formed)
    {rest : List Char} (hs : l.Stops rest) :
    scan file p (l.text ++ rest) =
      .more (l.token (Span.between file p (p.after l.text))) (scan file (p.after l.text) rest) := by
  have hn := Lexeme.longNumeral?_append hl hs
  have hf := Lexeme.first?_append hl hs
  have hopen := hl.not_comment hs
  obtain ⟨c, s, ht, hb, _⟩ := hl.head
  have hblank : Text.isBlank c = false := by
    rw [Bool.eq_false_iff]
    intro hc
    rw [beginsLexeme_of_isBlank hc] at hb
    cases hb
  rw [show l.text ++ rest = c :: (s ++ rest) by rw [ht, List.cons_append]] at hn hf hopen ⊢
  rw [scan.eq_def]
  split
  next heq => cases heq
  next t heq => exact absurd ⟨t, heq.symm⟩ hopen
  next heq =>
    obtain ⟨rfl, rfl⟩ := List.cons.inj heq
    rw [if_neg (by simp [hblank]), hn]
    dsimp only
    split
    next k heq =>
      rw [hf] at heq
      cases heq
      rw [ht, ← List.cons_append, List.drop_left]
    next heq =>
      rw [hf] at heq
      cases heq

theorem scan_of_layout {file : String} {p : Position} {s : List Char} {ts : List Token}
    (h : Layout file p s ts) :
    scan file p s = .closed ts (endOf (Span.between file (p.after s) (p.after s))) := by
  induction h with
  | @last p s hg =>
    rw [← List.append_nil s, scan_gap hg, List.append_nil, scan.eq_def]
    rfl
  | next hg hl hs _ ih =>
    rw [scan_gap hg, scan_lexeme hl hs, ih, Position.after_append, Position.after_append]
    rfl

/-- A text is laid out in one way only. -/
theorem Layout.unique {file : String} {p : Position} {s : List Char} {ts us : List Token}
    (h : Layout file p s ts) (h' : Layout file p s us) : ts = us := by
  have heq := congrArg Stream.toList ((scan_of_layout h).symm.trans (scan_of_layout h'))
  simpa only [Stream.toList_closed, List.append_cancel_right_eq] using heq

theorem Layout.prepend {file : String} {p : Position} {g s : List Char} {ts : List Token}
    (hg : Gap g) (h : Layout file (p.after g) s ts) : Layout file p (g ++ s) ts := by
  cases h with
  | last hs => exact .last (hg.append hs)
  | @next _ g' rest l ts hg' hl hs ht =>
    rw [← List.append_assoc, ← Position.after_append p g g']
    rw [← Position.after_append p g g'] at ht
    exact .next (hg.append hg') hl hs ht

/-- A text is refused only where no layout goes on. -/
theorem exists_layout {file : String} {p : Position} {s : List Char}
    (h : (scan file p s).fault? = none) : ∃ ts, Layout file p s ts := by
  fun_induction scan file p s with
  | case1 p => exact ⟨[], .last .nil⟩
  | case2 p s inside behind hs ih =>
    obtain ⟨ts, ht⟩ := ih h
    obtain ⟨rfl, hn⟩ := splitComment?_eq_some_iff.mp hs
    have hg : Gap ('(' :: '*' :: inside ++ '*' :: ')' :: []) := .comment hn .nil
    have happ : '(' :: '*' :: (inside ++ '*' :: ')' :: behind) =
        '(' :: '*' :: inside ++ '*' :: ')' :: [] ++ behind := by simp
    rw [happ]
    exact ⟨ts, ht.prepend hg⟩
  | case3 => cases h
  | case4 p c s _ hc ih =>
    obtain ⟨ts, ht⟩ := ih h
    have hg : Gap [c] := .blank hc .nil
    exact ⟨ts, ht.prepend hg⟩
  | case5 => cases h
  | case6 p c s hopen _ hn l hf ih =>
    obtain ⟨ts, ht⟩ := ih h
    have hcomment : ¬ ['(', '*'] <+: c :: s := by
      rintro ⟨t, ht⟩
      obtain ⟨rfl, rfl⟩ := List.cons.inj ht
      exact hopen t rfl rfl
    have hs := Lexeme.stops_of_first? hf hcomment
    have hl := Lexeme.formed_of_first? hf hn
    have hnext := Layout.next (p := p) .nil hl hs ht
    rw [Lexeme.text_append_drop hf] at hnext
    exact ⟨_, hnext⟩
  | case7 => cases h

end Casewise.Token
