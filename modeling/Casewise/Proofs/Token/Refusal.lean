import Casewise.Proofs.Token.Splitting
import Casewise.Proofs.Token.Writing

/-! Where a source text is refused. Reading breaks off at the first place where the text in front of it is
laid out and nothing can follow: at a stray character, or at a comment that nobody closes. -/
namespace Casewise.Token

/-- A text is laid out as the beginning of a longer one, which goes on with the given text. -/
inductive Beginning (file : String) (rest : List Char) : Position → List Char → List Token → Prop
  | last {p : Position} {s : List Char} : Gap s → Beginning file rest p s []
  | next {p : Position} {g s : List Char} {l : Lexeme} {ts : List Token} : Gap g → l.Formed →
    l.Stops (s ++ rest) → Beginning file rest ((p.after g).after l.text) s ts →
    Beginning file rest p (g ++ (l.text ++ s))
      (l.token (Span.between file (p.after g) ((p.after g).after l.text)) :: ts)

/-- No lexeme and no comment begins with the character, and it is not blank. -/
def Stray (c : Char) : Prop :=
  ¬ Text.isBlank c ∧ ¬ c.isAlpha ∧ ¬ c.isDigit ∧ c ∉ ['+', '-', '*', '(', ')', '=', '|', '_']

/-- A text that cannot be read on, the cause of this, and the characters that are to blame. -/
inductive Obstacle : List Char → Error.Cause → List Char → Prop
  | stray {c : Char} {s : List Char} : Stray c →
    Obstacle (c :: s) (.unexpectedChar (String.singleton c)) [c]
  | comment {s : List Char} : ¬ ['*', ')'] <:+: s →
    Obstacle ('(' :: '*' :: s) .unterminatedComment ['(', '*']

/-- Every run of digits is short enough for a numeral. -/
def ShortRuns (s : List Char) : Prop :=
  ∀ digits, digits <:+: s → (∀ c ∈ digits, c.isDigit) → digits.length ≤ maxDigits

theorem stray_iff {c : Char} : Stray c ↔ Text.isBlank c = false ∧ beginsLexeme c = false := by
  simp only [Stray, beginsLexeme, isOperatorChar, isPunctuationChar, Bool.or_eq_false_iff,
    decide_eq_false_iff_not, List.mem_cons, List.not_mem_nil, or_false, not_or, Bool.not_eq_true]
  grind

theorem ShortRuns.of_append {s t : List Char} (h : ShortRuns (s ++ t)) : ShortRuns t :=
  fun digits hd => h digits (hd.trans (List.suffix_append s t).isInfix)

theorem ShortRuns.longNumeral? {s : List Char} (h : ShortRuns s) : longNumeral? s = none := by
  have hrun : (s.takeWhile Char.isDigit).length ≤ maxDigits :=
    h _ (List.takeWhile_prefix Char.isDigit).isInfix (List.all_eq_true.mp List.all_takeWhile)
  exact longNumeral?_eq_none_iff.mpr hrun

theorem splitComment?_eq_none_iff {s : List Char} :
    splitComment? s = none ↔ ¬ ['*', ')'] <:+: s := by
  constructor
  · intro hnone hmark
    fun_induction splitComment? s with
    | case1 rest => cases hnone
    | case2 c rest hc ih =>
      rcases List.infix_cons_iff.mp hmark with hprefix | hrest
      · obtain ⟨behind, hbehind⟩ := hprefix
        obtain ⟨rfl, rfl⟩ := List.cons.inj hbehind
        exact hc behind rfl rfl
      · exact ih (Option.map_eq_none_iff.mp hnone) hrest
    | case3 => simp at hmark
  · intro hmark
    cases hsplit : splitComment? s with
    | none => rfl
    | some parts =>
      obtain ⟨inside, behind⟩ := parts
      refine absurd ⟨inside, behind, ?_⟩ hmark
      rw [splitComment?_eq hsplit]
      simp

theorem scan_stray {file : String} {p : Position} {c : Char} {s : List Char} (hc : Stray c)
    (hs : ShortRuns (c :: s)) :
    scan file p (c :: s) =
      .fail (.of (.unexpectedChar (String.singleton c)) (Span.between file p (p.after [c]))) := by
  obtain ⟨hblank, hbegins⟩ := stray_iff.mp hc
  have hfirst : Lexeme.first? (c :: s) = none := Lexeme.first?_eq_none_iff.mpr hbegins
  have hahead : ShortRuns (s.dropWhile (!beginsLexeme ·)) := by
    have hsplit : c :: s = (c :: s.takeWhile (!beginsLexeme ·)) ++ s.dropWhile (!beginsLexeme ·) := by
      rw [List.cons_append, List.takeWhile_append_dropWhile]
    rw [hsplit] at hs
    exact hs.of_append
  rw [scan.eq_def]
  split
  next heq => cases heq
  next heq =>
    obtain ⟨rfl, _⟩ := List.cons.inj heq
    exact absurd hbegins (by decide)
  next heq =>
    obtain ⟨rfl, rfl⟩ := List.cons.inj heq
    rw [if_neg (by simp [hblank]), hs.longNumeral?]
    dsimp only
    split
    next hsome =>
      rw [hfirst] at hsome
      cases hsome
    next =>
      rw [strangerFault, hahead.longNumeral?]
      rfl

theorem scan_unclosed {file : String} {p : Position} {s : List Char} (hs : ¬ ['*', ')'] <:+: s) :
    scan file p ('(' :: '*' :: s) =
      .fail (.of .unterminatedComment (Span.between file p (p.after ['(', '*']))) := by
  have hnone : splitComment? s = none := splitComment?_eq_none_iff.mpr hs
  rw [scan.eq_def]
  split
  next heq => cases heq
  next heq =>
    obtain ⟨rfl, _, rfl⟩ := heq
    split
    next hsome =>
      rw [hnone] at hsome
      cases hsome
    next => rfl
  next hopen heq =>
    obtain ⟨rfl, rfl⟩ := List.cons.inj heq
    exact absurd rfl (hopen _ rfl)

theorem Obstacle.scan_eq {file : String} {p : Position} {s bad : List Char} {cause : Error.Cause}
    (h : Obstacle s cause bad) (hs : ShortRuns s) :
    scan file p s = .fail (.of cause (Span.between file p (p.after bad))) := by
  cases h with
  | stray hc => exact scan_stray hc hs
  | comment hmark => exact scan_unclosed hmark

namespace Beginning

variable {file : String} {rest : List Char} {p : Position} {s : List Char} {ts : List Token}

theorem scan_append (h : Beginning file rest p s ts) :
    scan file p (s ++ rest) = ts.foldr .more (scan file (p.after s) rest) := by
  induction h with
  | last hg => exact scan_gap hg rest
  | @next p g s l ts hg hl hs _ ih =>
    have happ : g ++ (l.text ++ s) ++ rest = g ++ (l.text ++ (s ++ rest)) := by simp
    rw [happ, scan_gap hg, scan_lexeme hl hs, ih, Position.after_append, Position.after_append]
    rfl

theorem layout (h : Beginning file rest p s ts) : Layout file p s ts := by
  induction h with
  | last hg => exact .last hg
  | @next p g s l ts hg hl hs _ ih =>
    refine .next hg hl ?_ ih
    cases s with
    | nil => intro c hc; cases hc
    | cons d s => simpa [Lexeme.Stops] using hs

theorem prepend {g : List Char} (hg : Gap g) (h : Beginning file rest (p.after g) s ts) :
    Beginning file rest p (g ++ s) ts := by
  cases h with
  | last hs => exact .last (hg.append hs)
  | @next _ g' s l ts hg' hl hs ht =>
    rw [← List.append_assoc, ← Position.after_append p g g']
    rw [← Position.after_append p g g'] at ht
    exact .next (hg.append hg') hl hs ht

/-- An arrow is not cut in two. -/
theorem not_arrow {before : List Token} {t : Token}
    (h : Beginning file ('>' :: rest) p s (before ++ [t])) (ht : t.is .punctuation "=") :
    t.span.stop ≠ (p.after s).offset := by
  induction before generalizing p s with
  | nil =>
    cases h with
    | @next _ g s l ts hg hl hs hrest =>
      intro hstop
      have hlength : s = [] := by
        simp only [Lexeme.token, Span.between, Position.offset_after, List.length_append] at hstop
        exact List.length_eq_zero_iff.mp (by omega)
      have hvalue : l.text = ['='] := by
        obtain ⟨hk, hv⟩ := is_iff.mp ht
        have hkind : l.kind = .punctuation := hk
        have htext : Scalar.text (String.ofList l.text) = .text "=" := by
          simpa [Lexeme.token, Lexeme.value, hkind] using hv
        exact String.ofList_injective (Scalar.text.inj htext)
      have hkind : l.kind = .punctuation := (is_iff.mp ht).1
      have hjoins : l.joins '>' = false := hs '>' (by simp [hlength])
      simp [Lexeme.joins, hkind, hvalue] at hjoins
  | cons u before ih =>
    cases h with
    | @next _ g s l ts hg hl hs hrest =>
      rw [Position.after_append, Position.after_append]
      exact ih hrest

end Beginning

theorem Lexeme.Formed.eq_sign {l : Lexeme} (hl : l.Formed) (h : l.joins '>') :
    l = ⟨.punctuation, ['=']⟩ := by
  cases hl with
  | integer _ _ _ => exact absurd h (by decide : ¬ Char.isDigit '>')
  | word _ _ =>
    rw [joins_word] at h
    exact absurd h (by decide)
  | @operator c hc =>
    obtain rfl : c = '=' := by simpa [joins] using h
    exact absurd hc (by decide)
  | arrow => exact absurd h (by decide)
  | @punctuation c _ =>
    obtain rfl : c = '=' := by simpa [joins] using h
    rfl

theorem Layout.eq_nil {file : String} {p : Position} {ts : List Token} (h : Layout file p [] ts) :
    ts = [] := by
  generalize hs : ([] : List Char) = s at h
  cases h with
  | last _ => rfl
  | @next _ g rest l ts _ hl _ _ =>
    have hnil : l.text = [] := by
      have happ := List.append_eq_nil_iff.mp hs.symm
      exact (List.append_eq_nil_iff.mp happ.2).1
    exact absurd hnil hl.text_ne_nil

/-- A layout can go on with a character that no lexeme goes on with, and with the end of an arrow unless
the beginning of one stands directly before it. -/
theorem Layout.beginning {file : String} {p : Position} {s rest : List Char} {ts : List Token}
    (h : Layout file p s ts)
    (hrest : ∀ c ∈ rest.head?, Separates c ∨ (c = '>' ∧ ∀ before t, ts = before ++ [t] →
      t.is .punctuation "=" → t.span.stop ≠ ((p.after s).offset : Int))) :
    Beginning file rest p s ts := by
  induction h with
  | last hg => exact .last hg
  | @next p g s l ts hg hl hs hr ih =>
    have hstops : l.Stops (s ++ rest) := by
      cases s with
      | cons d s => simpa [Lexeme.Stops] using hs
      | nil =>
        intro c hc
        rcases hrest c hc with hsep | ⟨rfl, harrow⟩
        · exact hsep l
        · rw [Bool.eq_false_iff]
          intro hjoins
          obtain rfl := hl.eq_sign hjoins
          obtain rfl := hr.eq_nil
          refine harrow [] _ rfl (Lexeme.token_is (by decide) _) ?_
          simp [Lexeme.token, Span.between, Nat.add_assoc]
    refine .next hg hl hstops (ih fun c hc => ?_)
    rcases hrest c hc with hsep | ⟨hc, harrow⟩
    · exact Or.inl hsep
    · refine Or.inr ⟨hc, fun before t hts ht => ?_⟩
      have hstop := harrow (_ :: before) t (by rw [hts]; rfl) ht
      rwa [Position.after_append, Position.after_append] at hstop

/-- A text is read to its end or up to an obstacle. -/
theorem exists_beginning (file : String) (p : Position) {s : List Char} (hs : ShortRuns s) :
    ∃ front rest ts, s = front ++ rest ∧ Beginning file rest p front ts ∧
      (rest = [] ∨ ∃ cause bad, Obstacle rest cause bad) := by
  fun_induction scan file p s with
  | case1 p => exact ⟨[], [], [], rfl, .last .nil, Or.inl rfl⟩
  | case2 p s inside behind hsplit ih =>
    obtain ⟨rfl, hn⟩ := splitComment?_eq_some_iff.mp hsplit
    have hg : Gap ('(' :: '*' :: inside ++ '*' :: ')' :: []) := .comment hn .nil
    have happ : '(' :: '*' :: (inside ++ '*' :: ')' :: behind) =
        '(' :: '*' :: inside ++ '*' :: ')' :: [] ++ behind := by simp
    rw [happ] at hs ⊢
    obtain ⟨front, rest, ts, rfl, hfront, hobstacle⟩ := ih hs.of_append
    exact ⟨_, rest, ts, (List.append_assoc _ _ _).symm, hfront.prepend hg, hobstacle⟩
  | case3 p s hsplit =>
    exact ⟨[], _, [], rfl, .last .nil, Or.inr ⟨_, _, .comment (splitComment?_eq_none_iff.mp hsplit)⟩⟩
  | case4 p c s _ hc ih =>
    have hg : Gap [c] := .blank hc .nil
    have happ : c :: s = [c] ++ s := rfl
    rw [happ] at hs ⊢
    obtain ⟨front, rest, ts, rfl, hfront, hobstacle⟩ := ih hs.of_append
    exact ⟨_, rest, ts, (List.append_assoc _ _ _).symm, hfront.prepend hg, hobstacle⟩
  | case5 p c s _ _ digits hdigits =>
    rw [hs.longNumeral?] at hdigits
    cases hdigits
  | case6 p c s hopen _ hn l hf ih =>
    have hcomment : ¬ ['(', '*'] <+: c :: s := by
      rintro ⟨t, ht⟩
      obtain ⟨rfl, rfl⟩ := List.cons.inj ht
      exact hopen t rfl rfl
    have hstops := Lexeme.stops_of_first? hf hcomment
    have hl := Lexeme.formed_of_first? hf hn
    have happ := Lexeme.text_append_drop hf
    rw [← happ] at hs
    obtain ⟨front, rest, ts, hrest, hfront, hobstacle⟩ := ih hs.of_append
    rw [hrest] at hstops happ
    refine ⟨l.text ++ front, rest, _, ?_, .next (p := p) .nil hl hstops hfront, hobstacle⟩
    rw [List.append_assoc]
    exact happ.symm
  | case7 p c s _ hblank _ hf =>
    have hbegins : beginsLexeme c = false := Lexeme.first?_eq_none_iff.mp hf
    have hstray : Stray c := stray_iff.mpr ⟨Bool.eq_false_iff.mpr hblank, hbegins⟩
    exact ⟨[], _, [], rfl, .last .nil, Or.inr ⟨_, _, .stray hstray⟩⟩

theorem Stray.separates {c : Char} (hc : Stray c) (harrow : c ≠ '>') : Separates c := by
  obtain ⟨_, halpha, hdigit, hsymbol⟩ := hc
  have hword : isWordChar c = false := by
    simp_all [isWordChar, Char.isAlphanum]
  have hstar : c ≠ '*' := by
    rintro rfl
    simp at hsymbol
  exact separates_of_not_wordChar hword harrow hstar

def upTo (source : String) (n : Nat) : String := String.ofList (source.toList.take n)

/-- Reading the text breaks off at the offset, for the cause. -/
def BreaksAt (source file : String) (n : Nat) (cause : Error.Cause) : Prop :=
  ∃ span, (tokenize source file).fault? = some (.of cause (some span)) ∧ span.start = n

/-- The last token before the end is the sign with which arrows begin, and it reaches up to the offset. -/
def Stream.EndsInSign (s : Stream) (n : Nat) : Prop :=
  ∃ before t last, s.toList = before ++ [t, last] ∧ t.is .punctuation "=" ∧ t.span.stop = (n : Int)

theorem Stream.toList_foldr_fail (ts : List Token) (fault : Fault) :
    (ts.foldr more (fail fault)).toList = ts := by
  induction ts with
  | nil => rfl
  | cons t ts ih => exact congrArg (t :: ·) ih

theorem Stream.fault?_foldr_fail (ts : List Token) (fault : Fault) :
    (ts.foldr more (fail fault)).fault? = some fault := by
  induction ts with
  | nil => rfl
  | cons t ts ih => exact ih

section

variable {source file : String} {front rest : List Char} {ts : List Token} {n : Nat}

theorem upTo_length (hs : source.toList = front ++ rest) : upTo source front.length = String.ofList front := by
  rw [upTo, hs, List.take_left]

theorem Layout.tokenize_upTo (h : Layout file .start front ts) (hs : source.toList = front ++ rest) :
    ∃ last, tokenize (upTo source front.length) file = .closed ts last := by
  rw [upTo_length hs, tokenize, String.toList_ofList, scan_of_layout h]
  exact ⟨_, rfl⟩

theorem exists_layout_upTo (h : (tokenize (upTo source n) file).fault? = none) :
    ∃ ts, Layout file .start (source.toList.take n) ts := by
  rw [tokenize, upTo, String.toList_ofList] at h
  exact exists_layout h

/-- A text that is refused meets an obstacle, and the tokens in front of it are those of the beginning. -/
theorem exists_break {fault : Fault} (hruns : ShortRuns source.toList)
    (h : (tokenize source file).fault? = some fault) :
    ∃ front rest ts cause bad, source.toList = front ++ rest ∧ Beginning file rest .start front ts ∧
      Obstacle rest cause bad ∧ (tokenize source file).toList = ts ∧
      fault = .of cause (Span.between file (Position.start.after front)
        ((Position.start.after front).after bad)) := by
  obtain ⟨front, rest, ts, hs, hfront, hrest⟩ := exists_beginning file .start hruns
  have hscan : tokenize source file = ts.foldr .more (scan file (Position.start.after front) rest) := by
    rw [tokenize, hs, hfront.scan_append]
  rcases hrest with rfl | ⟨cause, bad, hobstacle⟩
  · rw [hscan, scan.eq_def] at h
    exact absurd (h.symm.trans (Stream.fault?_closed ts _)) (by simp)
  · rw [hs] at hruns
    rw [hobstacle.scan_eq hruns.of_append] at hscan
    refine ⟨front, rest, ts, cause, bad, hs, hfront, hobstacle, ?_, ?_⟩
    · rw [hscan, Stream.toList_foldr_fail]
    · rw [hscan, Stream.fault?_foldr_fail] at h
      exact (Option.some.inj h).symm

theorem breaksAt_of_obstacle {cause : Error.Cause} {bad : List Char} (hruns : ShortRuns source.toList)
    (hs : source.toList = front ++ rest) (h : Beginning file rest .start front ts)
    (hobstacle : Obstacle rest cause bad) : BreaksAt source file front.length cause := by
  rw [hs] at hruns
  have hfault : (tokenize source file).fault? = some (.of cause (Span.between file
      (Position.start.after front) ((Position.start.after front).after bad))) := by
    rw [tokenize, hs, h.scan_append, hobstacle.scan_eq hruns.of_append, Stream.fault?_foldr_fail]
  exact ⟨_, hfault, by simp [Span.between, Position.start]⟩

/-- Where a text breaks off, it can be taken apart. -/
theorem BreaksAt.exists_obstacle {cause : Error.Cause} (hruns : ShortRuns source.toList)
    (h : BreaksAt source file n cause) :
    ∃ front rest ts bad, source.toList = front ++ rest ∧ Beginning file rest .start front ts ∧
      Obstacle rest cause bad ∧ n = front.length := by
  obtain ⟨span, hfault, hstart⟩ := h
  obtain ⟨front, rest, ts, cause', bad, hs, hfront, hobstacle, _, heq⟩ := exists_break hruns hfault
  obtain ⟨rfl, rfl⟩ : cause = cause' ∧ span = _ := by simpa [Fault.of] using heq
  refine ⟨front, rest, ts, bad, hs, hfront, hobstacle, ?_⟩
  simp only [Span.between, Position.offset_after, Position.start] at hstart
  omega

theorem Beginning.fault?_upTo (h : Beginning file rest .start front ts)
    (hs : source.toList = front ++ rest) : (tokenize (upTo source front.length) file).fault? = none := by
  obtain ⟨last, hlast⟩ := h.layout.tokenize_upTo hs
  rw [hlast, Stream.fault?_closed]

theorem append_drop (hn : n ≤ source.toList.length) :
    source.toList = source.toList.take n ++ source.toList.drop n ∧ (source.toList.take n).length = n :=
  ⟨(List.take_append_drop n _).symm, List.length_take_of_le hn⟩

/-- A stray character is refused where the text up to it is read, unless it ends an arrow. -/
theorem breaksAt_char_iff (hruns : ShortRuns source.toList) :
    (∃ char, BreaksAt source file n (.unexpectedChar char)) ↔
      (tokenize (upTo source n) file).fault? = none ∧ ∃ c, source.toList[n]? = some c ∧ Stray c ∧
        ¬ (c = '>' ∧ (tokenize (upTo source n) file).EndsInSign n) := by
  constructor
  · rintro ⟨char, hbreaks⟩
    obtain ⟨front, rest, ts, bad, hs, hfront, hobstacle, rfl⟩ := hbreaks.exists_obstacle hruns
    refine ⟨hfront.fault?_upTo hs, ?_⟩
    cases hobstacle with
    | @stray c s hc =>
      refine ⟨c, by simp [hs], hc, ?_⟩
      rintro ⟨rfl, before, t, last, htokens, ht, hstop⟩
      obtain ⟨last', hclosed⟩ := hfront.layout.tokenize_upTo hs
      rw [hclosed, Stream.toList_closed] at htokens
      have hts : ts = before ++ [t] := by
        have happ : ts ++ [last'] = (before ++ [t]) ++ [last] := by simpa using htokens
        exact (List.append_inj' happ rfl).1
      subst hts
      exact hfront.not_arrow ht (by simpa [Position.start] using hstop)
  · rintro ⟨hnone, c, hc, hstray, harrow⟩
    obtain ⟨hn, hget⟩ := List.getElem?_eq_some_iff.mp hc
    obtain ⟨hs, hlength⟩ := append_drop (Nat.le_of_lt hn)
    have hdrop : source.toList.drop n = c :: source.toList.drop (n + 1) := by
      rw [List.drop_eq_getElem_cons hn, hget]
    obtain ⟨ts, hlayout⟩ := exists_layout_upTo hnone
    have hfront : Beginning file (source.toList.drop n) .start (source.toList.take n) ts := by
      refine hlayout.beginning fun d hd => ?_
      obtain rfl : c = d := by simpa [hdrop] using hd
      by_cases hsign : c = '>'
      · refine Or.inr ⟨hsign, fun before t hts ht hstop => harrow ⟨hsign, ?_⟩⟩
        obtain ⟨last, hclosed⟩ := hlayout.tokenize_upTo hs
        rw [hlength] at hclosed
        refine ⟨before, t, last, ?_, ht, ?_⟩
        · rw [hclosed, Stream.toList_closed, hts]
          simp
        · simpa [Position.start, hlength] using hstop
      · exact Or.inl (hstray.separates hsign)
    have hobstacle : Obstacle (source.toList.drop n) (.unexpectedChar (String.singleton c)) [c] := by
      rw [hdrop]
      exact .stray hstray
    have hbreaks := breaksAt_of_obstacle hruns hs hfront hobstacle
    rw [hlength] at hbreaks
    exact ⟨_, hbreaks⟩

/-- A comment is refused where the text up to it is read and nothing closes it. -/
theorem breaksAt_comment_iff (hruns : ShortRuns source.toList) :
    BreaksAt source file n .unterminatedComment ↔
      (tokenize (upTo source n) file).fault? = none ∧ ['(', '*'] <+: source.toList.drop n ∧
        ¬ ['*', ')'] <:+: source.toList.drop (n + 2) := by
  constructor
  · intro hbreaks
    obtain ⟨front, rest, ts, bad, hs, hfront, hobstacle, rfl⟩ := hbreaks.exists_obstacle hruns
    cases hobstacle with
    | @comment s hmark =>
      refine ⟨hfront.fault?_upTo hs, ?_, ?_⟩
      · rw [hs, List.drop_left]
        exact ⟨s, rfl⟩
      · have hdrop : source.toList.drop (front.length + 2) = s := by
          rw [← List.drop_drop, hs, List.drop_left]
          rfl
        rwa [hdrop]
  · rintro ⟨hnone, ⟨s, hopen⟩, hmark⟩
    have hn : n ≤ source.toList.length := by
      by_contra hlt
      rw [List.drop_eq_nil_of_le (by omega)] at hopen
      cases hopen
    obtain ⟨hs, hlength⟩ := append_drop hn
    have hdrop : source.toList.drop n = '(' :: '*' :: s := hopen.symm
    have hrest : source.toList.drop (n + 2) = s := by
      rw [← List.drop_drop, hdrop]
      rfl
    obtain ⟨ts, hlayout⟩ := exists_layout_upTo hnone
    have hfront : Beginning file (source.toList.drop n) .start (source.toList.take n) ts := by
      refine hlayout.beginning fun d hd => ?_
      obtain rfl : '(' = d := by simpa [hdrop] using hd
      exact Or.inl separates_open
    have hobstacle : Obstacle (source.toList.drop n) .unterminatedComment ['(', '*'] := by
      rw [hdrop]
      exact .comment (hrest ▸ hmark)
    have hbreaks := breaksAt_of_obstacle hruns hs hfront hobstacle
    rwa [hlength] at hbreaks

/-- A text without over-long numerals is read to its end, or it breaks off at a stray character or at a
comment that is never closed, the first of these where the text up to it is read. Whatever follows, the
tokens are those of the text up to there, and the fault shows the place. -/
theorem tokenize_breaks (source file : String) (hruns : ShortRuns source.toList) :
    ((tokenize source file).fault? = none ∨ (∃ n char, BreaksAt source file n (.unexpectedChar char)) ∨
      ∃ n, BreaksAt source file n .unterminatedComment) ∧
    (∀ n, (∃ char, BreaksAt source file n (.unexpectedChar char)) ↔
      (tokenize (upTo source n) file).fault? = none ∧ ∃ c, source.toList[n]? = some c ∧ Stray c ∧
        ¬ (c = '>' ∧ (tokenize (upTo source n) file).EndsInSign n)) ∧
    (∀ n, BreaksAt source file n .unterminatedComment ↔
      (tokenize (upTo source n) file).fault? = none ∧ ['(', '*'] <+: source.toList.drop n ∧
        ¬ ['*', ')'] <:+: source.toList.drop (n + 2)) ∧
    (∀ (n : Nat) cause span, (tokenize source file).fault? = some (.of cause (some span)) →
      span.start = n →
        (tokenize source file).toList = (tokenize (upTo source n) file).toList.dropLast ∧
        span.file = file ∧ span.Placed source.toList ∧
        ((∃ c, source.toList[n]? = some c ∧ cause = .unexpectedChar (String.singleton c) ∧
            span.stop = n + 1) ∨
          (cause = .unterminatedComment ∧ span.stop = n + 2))) := by
  refine ⟨?_, fun n => breaksAt_char_iff hruns, fun n => breaksAt_comment_iff hruns, ?_⟩
  · cases hfault : (tokenize source file).fault? with
    | none => exact Or.inl rfl
    | some fault =>
      right
      obtain ⟨front, rest, ts, cause, bad, hs, hfront, hobstacle, _, _⟩ := exists_break hruns hfault
      have hbreaks := breaksAt_of_obstacle hruns hs hfront hobstacle
      cases hobstacle with
      | stray _ => exact Or.inl ⟨_, _, hbreaks⟩
      | comment _ => exact Or.inr ⟨_, hbreaks⟩
  · intro n cause span hfault hstart
    obtain ⟨front, rest, ts, cause', bad, hs, hfront, hobstacle, htokens, heq⟩ := exists_break hruns hfault
    obtain ⟨rfl, rfl⟩ : cause = cause' ∧ span = _ := by simpa [Fault.of] using heq
    obtain rfl : n = front.length := by
      simp only [Span.between, Position.offset_after, Position.start] at hstart
      omega
    obtain ⟨last, hclosed⟩ := hfront.layout.tokenize_upTo hs
    refine ⟨?_, rfl, ?_, ?_⟩
    · rw [htokens, hclosed, Stream.toList_closed, List.dropLast_concat]
    · rw [hs]
      exact Span.placed_between file front rest _
    · cases hobstacle with
      | @stray c s _ =>
        exact Or.inl ⟨c, by simp [hs], rfl, by simp [Span.between, Position.start]⟩
      | comment _ => exact Or.inr ⟨rfl, by simp [Span.between, Position.start, Int.add_assoc]⟩

/-- A comment between the two halves of an arrow leaves its end stray, and what follows plays no part. -/
theorem tokenize_breaks_arrow :
    ShortRuns "=(**)>(*".toList ∧
      (∃ char, BreaksAt "=(**)>(*" "a" 5 (.unexpectedChar char)) ∧
      ¬ BreaksAt "=(**)>(*" "a" 6 .unterminatedComment := by
  have hruns : ShortRuns "=(**)>(*".toList := by
    intro digits hd _
    exact Nat.le_trans hd.length_le (by decide)
  obtain ⟨_, hchar, hcomment, _⟩ := tokenize_breaks "=(**)>(*" "a" hruns
  have htokens : (tokenize (upTo "=(**)>(*" 5) "a").toList =
      [⟨.punctuation, .text "=", ⟨"a", 0, 1, 1, 1⟩⟩, endOf ⟨"a", 5, 5, 1, 6⟩] := by decide +kernel
  have hread : (tokenize (upTo "=(**)>(*" 5) "a").fault? = none := by decide +kernel
  have hstray : Stray '>' := stray_iff.mpr ⟨by decide, by decide⟩
  refine ⟨hruns, (hchar 5).mpr ⟨hread, '>', by decide, hstray, ?_⟩, fun hbreaks => ?_⟩
  · rintro ⟨_, before, t, last, hlast, _, hstop⟩
    rw [htokens] at hlast
    cases before with
    | nil =>
      cases hlast
      exact absurd hstop (by decide)
    | cons d before => simpa using congrArg List.length hlast
  · have hrefused : (tokenize (upTo "=(**)>(*" 6) "a").fault?.isSome := by decide +kernel
    rw [((hcomment 6).mp hbreaks).1] at hrefused
    cases hrefused

end

end Casewise.Token
