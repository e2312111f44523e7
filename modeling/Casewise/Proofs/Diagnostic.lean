import Casewise.Diagnostic
import Casewise.Evaluation.Frames
import Casewise.Proofs.Program.Blame
import Casewise.Proofs.Token.Refusal

/-! Diagnostics point at errors. A diagnostic shows the line of the text in which an error begins, whatever
stage the error is of. The caret below it is indented as if line numbers had at most four digits, so it is
under the character at which the error begins as far as they have. -/
namespace Casewise

def BeginsLine (before : List Char) : Prop := before = [] ∨ before.getLast? = some '\n'

def EndsLine (behind : List Char) : Prop := behind = [] ∨ behind.head? = some '\n'

/-- The line of a text around an offset. It begins behind the last line feed in front of the offset and goes on
up to the next one; the offset is between its left and its right part. -/
structure LineAround (source : List Char) (offset : Int) (before left right behind : List Char) : Prop where
  split : source = before ++ left ++ (right ++ behind)
  offset_eq : offset = (before ++ left).length
  begins : BeginsLine before
  whole : '\n' ∉ left ++ right
  ends : EndsLine behind

theorem exists_endsLine (s : List Char) :
    ∃ right behind, s = right ++ behind ∧ '\n' ∉ right ∧ EndsLine behind := by
  induction s with
  | nil => exact ⟨[], [], rfl, by simp, Or.inl rfl⟩
  | cons c s ih =>
    by_cases hc : c = '\n'
    · exact ⟨[], c :: s, rfl, by simp, Or.inr (by rw [hc]; rfl)⟩
    · obtain ⟨right, behind, rfl, hright, hbehind⟩ := ih
      exact ⟨c :: right, behind, rfl, by simp [hright, Ne.symm hc], hbehind⟩

/-- Around the offset at which a span begins there is a line, whose number and column the span tells. -/
theorem Span.BeginsIn.exists_line {span : Span} {source : List Char} (h : span.BeginsIn source) :
    ∃ before left right behind, LineAround source span.start before left right behind ∧
      span.line = before.count '\n' + 1 ∧ span.column = left.length + 1 := by
  obtain ⟨⟨hline, i, hlast, hcolumn⟩, hnonneg, hle⟩ := h
  obtain ⟨front, rest, rfl, hstart⟩ : ∃ front rest, source = front ++ rest ∧ span.start = front.length := by
    let n := span.start.toNat
    refine ⟨source.take n, source.drop n, (List.take_append_drop n source).symm, ?_⟩
    rw [List.length_take]
    omega
  rw [hstart, cut_zero_length] at hline hlast
  obtain ⟨right, behind, rfl, hright, hbehind⟩ := exists_endsLine rest
  rcases hlast with ⟨hfront, rfl⟩ | ⟨before, left, rfl, hleft, rfl⟩
  · refine ⟨[], front, right, behind, ⟨rfl, hstart, Or.inl rfl, ?_, hbehind⟩, ?_, ?_⟩
    · simp [hfront, hright]
    · simp [hline, List.count_eq_zero.mpr hfront]
    · omega
  · refine ⟨before ++ ['\n'], left, right, behind, ⟨?_, ?_, Or.inr (by simp), ?_, hbehind⟩, ?_, ?_⟩
    · simp
    · simp [hstart]
    · simp [hleft, hright]
    · simp [hline, List.count_eq_zero.mpr hleft, Int.add_comm]
    · rw [hcolumn, hstart, List.length_append, List.length_cons]
      omega

namespace LineAround

variable {source before left right behind before' left' right' behind' : List Char} {offset : Int}

private theorem eq_nil_of_begins {more : List Char} (h : BeginsLine (before ++ more))
    (hmore : '\n' ∉ more ++ left) : more = [] := by
  by_contra hne
  rw [BeginsLine, List.getLast?_append_of_ne_nil before hne] at h
  rcases h with h | h
  · exact hne (List.append_eq_nil_iff.mp h).2
  · exact hmore (List.mem_append_left _ (List.mem_of_getLast? h))

private theorem eq_nil_of_ends {more : List Char} (h : EndsLine (more ++ behind))
    (hmore : '\n' ∉ right ++ more) : more = [] := by
  by_contra hne
  rw [EndsLine, List.head?_append_of_ne_nil more hne] at h
  rcases h with h | h
  · exact hne (List.append_eq_nil_iff.mp h).1
  · exact hmore (List.mem_append_right _ (List.mem_of_head? h))

theorem unique (h : LineAround source offset before left right behind)
    (h' : LineAround source offset before' left' right' behind') :
    before = before' ∧ left = left' ∧ right = right' := by
  have hlength : (before ++ left).length = (before' ++ left').length := by
    have hoffset := h.offset_eq.symm.trans h'.offset_eq
    omega
  obtain ⟨hfront, hrest⟩ := List.append_inj (h.split.symm.trans h'.split) hlength
  obtain ⟨rfl, rfl⟩ : before = before' ∧ left = left' := by
    have hleft : '\n' ∉ left := fun hmem => h.whole (List.mem_append_left _ hmem)
    have hleft' : '\n' ∉ left' := fun hmem => h'.whole (List.mem_append_left _ hmem)
    rcases List.append_eq_append_iff.mp hfront with ⟨more, rfl, rfl⟩ | ⟨more, rfl, rfl⟩
    · obtain rfl := eq_nil_of_begins h'.begins hleft
      simp
    · obtain rfl := eq_nil_of_begins h.begins hleft'
      simp
  refine ⟨rfl, rfl, ?_⟩
  have hright : '\n' ∉ right := fun hmem => h.whole (List.mem_append_right _ hmem)
  have hright' : '\n' ∉ right' := fun hmem => h'.whole (List.mem_append_right _ hmem)
  rcases List.append_eq_append_iff.mp hrest with ⟨more, rfl, rfl⟩ | ⟨more, rfl, rfl⟩
  · obtain rfl := eq_nil_of_ends h.ends hright'
    simp
  · obtain rfl := eq_nil_of_ends h'.ends hright
    simp

end LineAround

namespace Diagnostic

def margin (line : Nat) : String := lineNumber line ++ " | "

/-- The line with the caret, behind so many characters of the line above it. -/
def caretLine (left : Nat) : String := "     | " ++ spaces left ++ "^"

/-- The only caret in a line stands at the given index. -/
def CaretAt (line : String) (i : Nat) : Prop := line.toList.count '^' = 1 ∧ line.toList[i]? = some '^'

/-- The text consists of the header of the error, its locator, the line of the source in which it begins, and a
line in which the caret is below the character at which the error begins, or below the end of the line. -/
def PointsAt (text : String) (e : Error) (span : Span) (source : List Char) : Prop :=
  ∃ before left right behind caret, LineAround source span.start before left right behind ∧
    text = "\n".intercalate [header e false, "    File " ++ span.locator,
      margin (before.count '\n' + 1) ++ String.ofList (left ++ right), caret] ∧
    CaretAt caret ((margin (before.count '\n' + 1)).length + left.length)

theorem exists_lines_before {before : List Char} (h : BeginsLine before) :
    ∃ above, above.length = before.count '\n' ∧ ∀ s, lines (before ++ s) = above ++ lines s := by
  induction before with
  | nil => exact ⟨[], rfl, fun s => rfl⟩
  | cons c before ih =>
    have hbefore : BeginsLine before := by
      cases before with
      | nil => exact Or.inl rfl
      | cons d before => exact Or.inr (by simpa [BeginsLine] using h)
    obtain ⟨above, hlength, habove⟩ := ih hbefore
    by_cases hc : c = '\n'
    · refine ⟨[] :: above, by simp [hc, hlength], fun s => ?_⟩
      rw [List.cons_append, lines, if_pos hc, habove, List.cons_append]
    · -- the character belongs to a line that a line feed ends
      have hmem : '\n' ∈ c :: before := List.mem_of_getLast? (h.resolve_left (List.cons_ne_nil c before))
      have hpos : 0 < before.count '\n' :=
        List.count_pos_iff.mpr ((List.mem_cons.mp hmem).resolve_left (Ne.symm hc))
      obtain ⟨line, above, rfl⟩ := List.exists_cons_of_length_pos (hlength.symm ▸ hpos)
      refine ⟨(c :: line) :: above, by simpa [hc] using hlength, fun s => ?_⟩
      rw [List.cons_append, lines, if_neg hc, habove]
      rfl

theorem exists_lines_line {line behind : List Char} (hline : '\n' ∉ line) (hbehind : EndsLine behind) :
    ∃ below, lines (line ++ behind) = line :: below := by
  induction line with
  | nil =>
    cases behind with
    | nil => exact ⟨[], rfl⟩
    | cons c behind =>
      have hc : c = '\n' := by simpa [EndsLine] using hbehind
      exact ⟨lines behind, by rw [List.nil_append, lines, if_pos hc]⟩
  | cons c line ih =>
    obtain ⟨hc, hline⟩ := not_or.mp (mt List.mem_cons.mpr hline)
    obtain ⟨below, hbelow⟩ := ih hline
    refine ⟨below, ?_⟩
    rw [List.cons_append, lines, if_neg (Ne.symm hc), hbelow]

theorem contextLines_eq {source : String} {offset : Int} {before left right behind : List Char}
    (h : LineAround source.toList offset before left right behind) :
    contextLines source (before.count '\n' + 1) (left.length + 1) 0 =
      [margin (before.count '\n' + 1) ++ String.ofList (left ++ right), caretLine left.length] := by
  obtain ⟨above, hlength, habove⟩ := exists_lines_before h.begins
  obtain ⟨below, hbelow⟩ := exists_lines_line h.whole h.ends
  have hlines : lines source.toList = above ++ (left ++ right) :: below := by
    rw [h.split, List.append_assoc, habove, ← List.append_assoc left, hbelow]
  have hdrop : ((lines source.toList).zipIdx.drop above.length) =
      (left ++ right, above.length) :: below.zipIdx (above.length + 1) := by
    rw [hlines, List.zipIdx_append, List.drop_left' (by simp), List.zipIdx_cons]
    simp
  have hfirst : ((before.count '\n' + 1 : Int) - 0 - 1).toNat = above.length := by omega
  have hstop : (min ((lines source.toList).length : Int) (before.count '\n' + 1 + 0) -
      (above.length : Nat)).toNat = 1 := by
    rw [hlines, List.length_append, List.length_cons]
    omega
  unfold contextLines
  dsimp only
  rw [hfirst, hstop, hdrop, List.take_succ_cons, List.take_zero, List.flatMap_singleton]
  unfold sourceLine
  rw [if_pos (by omega), hlength, Int.add_sub_cancel]
  rfl

theorem length_margin (line : Nat) : (margin line).length = max 4 (toString line).length + 3 := by
  have hbar : " | ".length = 3 := by decide
  have hspaces : (spaces (4 - (toString line).length)).length = 4 - (toString line).length := by
    simp [spaces]
  rw [margin, lineNumber, String.length_append, String.length_append, hspaces, hbar]
  omega

theorem caretAt_caretLine_iff (left i : Nat) : CaretAt (caretLine left) i ↔ i = 7 + left := by
  let front := "     | ".toList ++ List.replicate left ' '
  have hline : (caretLine left).toList = front ++ ['^'] := by simp [caretLine, spaces, front]
  have hbar : "     | ".toList.length = 7 := by decide
  have hlength : front.length = 7 + left := by
    rw [List.length_append, hbar, List.length_replicate]
  have hfront : '^' ∉ front := by simp [front]
  have hcount : (front ++ ['^']).count '^' = 1 := by simp [List.count_eq_zero.mpr hfront]
  rw [CaretAt, hline, and_iff_right hcount, ← hlength]
  constructor
  · intro hi
    by_cases hlt : i < front.length
    · rw [List.getElem?_append_left hlt] at hi
      exact absurd (List.mem_of_getElem? hi) hfront
    · have hend : i < (front ++ ['^']).length := (List.getElem?_eq_some_iff.mp hi).1
      rw [List.length_append, List.length_singleton] at hend
      omega
  · rintro rfl
    simp

theorem length_margin_eq_iff (line : Nat) : (margin line).length = 7 ↔ line < 10000 := by
  have hdigits : (toString line).length ≤ 4 ↔ line < 10000 := by
    have hlength : (toString line).length = (Nat.toDigits 10 line).length := by
      rw [← String.length_toList]
      exact congrArg List.length Nat.toList_repr
    rw [hlength]
    exact Nat.length_toDigits_le_iff (by decide) (by decide)
  rw [length_margin, ← hdigits]
  omega

variable {e : Error} {span : Span} {source : String}

theorem render_eq {before left right behind : List Char} (hspan : e.span = some span)
    (h : LineAround source.toList span.start before left right behind)
    (hline : span.line = before.count '\n' + 1) (hcolumn : span.column = left.length + 1) :
    render e (some source) false =
      "\n".intercalate [header e false, "    File " ++ span.locator,
        margin (before.count '\n' + 1) ++ String.ofList (left ++ right), caretLine left.length] := by
  unfold render
  rw [hspan]
  simp only [Option.map_some, Option.toList_some, hline, hcolumn, contextLines_eq h,
    String.intercalate_cons_cons, String.intercalate_singleton]

/-- The caret is where it should be up to line 9999, and nowhere else. -/
theorem pointsAt_iff (hspan : e.span = some span) (h : span.BeginsIn source.toList) :
    PointsAt (render e (some source) false) e span source.toList ↔ span.line < 10000 := by
  obtain ⟨before, left, right, behind, haround, hline, hcolumn⟩ := h.exists_line
  have hcaret (line : Nat) :
      CaretAt (caretLine left.length) ((margin line).length + left.length) ↔ line < 10000 := by
    rw [caretAt_caretLine_iff, Nat.add_right_cancel_iff, length_margin_eq_iff]
  have hrender := render_eq hspan haround hline hcolumn
  rw [hline]
  constructor
  · rintro ⟨before', left', right', behind', caret, haround', htext, hcaret'⟩
    obtain ⟨rfl, rfl, rfl⟩ := haround.unique haround'
    rw [hrender] at htext
    obtain rfl : caretLine left.length = caret := by simpa [String.intercalate_cons_cons] using htext
    have hlt := (hcaret _).mp hcaret'
    omega
  · intro hlt
    exact ⟨before, left, right, behind, _, haround, hrender, (hcaret _).mpr (by omega)⟩

end Diagnostic

/-- A text of line feeds and a stray character behind them is refused for that character. -/
theorem Program.ofSource_feeds (n : Nat) (file : String) :
    ofSource (String.ofList (List.replicate n '\n' ++ ['?'])) file =
      .error ⟨.of (.unexpectedChar "?") (some ⟨file, n, n + 1, n + 1, 1⟩), []⟩ := by
  have hplace (n : Nat) : Position.start.after (List.replicate n '\n') = ⟨n, n + 1, 1⟩ := by
    induction n with
    | zero => rfl
    | succ n ih =>
      rw [List.replicate_succ', Position.after_append, ih]
      rfl
  have hgap (n : Nat) : Token.Gap (List.replicate n '\n') := by
    induction n with
    | zero => exact .nil
    | succ n ih => exact .blank (by decide) ih
  have hruns : Token.ShortRuns ['?'] := fun digits hd _ => Nat.le_trans hd.length_le (by decide)
  have hstray : Token.Stray '?' := Token.stray_iff.mpr ⟨by decide, by decide⟩
  rw [ofSource, Token.tokenize, String.toList_ofList, Token.scan_gap (hgap n),
    Token.scan_stray hstray hruns, hplace n]
  rfl

namespace Session

/-- A diagnostic shows the line in which the error begins, and below it a caret behind as many characters as stand
in front of the error, and seven more. That is where the error begins up to line 9999, and nowhere else. -/
theorem render_points_iff (source file : String) (f : Name) (arguments : List Argument) (limit : Int)
    (stack : Program → Stack) {e : Error} {span : Span}
    (h : (ofProgram (Program.ofSource source file) fun p =>
      p.evaluateOn (stack p) f arguments limit).run.outcome = .error (.error e)) (hspan : e.span = some span) :
    (∃ before left right behind, LineAround source.toList span.start before left right behind ∧
      span.line = before.count '\n' + 1 ∧ span.column = left.length + 1 ∧
      Diagnostic.render e (some source) false = "\n".intercalate [Diagnostic.header e false,
        "    File " ++ span.locator,
        Diagnostic.margin (before.count '\n' + 1) ++ String.ofList (left ++ right),
        Diagnostic.caretLine left.length]) ∧
    (Diagnostic.PointsAt (Diagnostic.render e (some source) false) e span source.toList ↔
      span.line < 10000) := by
  have hbegins : span.BeginsIn source.toList :=
    marks_run source file f arguments limit stack _ h e rfl span hspan
  obtain ⟨before, left, right, behind, haround, hline, hcolumn⟩ := hbegins.exists_line
  refine ⟨⟨before, left, right, behind, haround, hline, hcolumn, ?_⟩, Diagnostic.pointsAt_iff hspan hbegins⟩
  exact Diagnostic.render_eq hspan haround hline hcolumn

/-- The caret below the unbound variable in the second line of a text. -/
theorem render_points_iff_unbound :
    let source := "fun f x =\n\tx + y\n"
    let span : Span := ⟨"a", 15, 16, 2, 6⟩
    let e : Error := ⟨.unboundVariable (.text "y"), some span⟩
    (ofSource source "a" (.text "f") [.int 1] 9).run.outcome = .error (.error e) ∧
      Diagnostic.PointsAt (Diagnostic.render e (some source) false) e span source.toList := by
  intro source span e
  have houtcome : (ofSource source "a" (.text "f") [.int 1] 9).run.outcome = .error (.error e) := by
    have herror : (match (ofSource source "a" (.text "f") [.int 1] 9).run.outcome with
      | .error (.error x) => some x
      | _ => none) = some e := by decide +kernel
    split at herror
    next x hx => rw [hx, Option.some.inj herror]
    next => cases herror
  refine ⟨houtcome, ?_⟩
  exact (render_points_iff source "a" (.text "f") [.int 1] 9 (fun _ => .endless) houtcome rfl).2.mpr (by decide)

/-- In line 10000 the caret is one character in front of the error. -/
theorem render_misses_stray :
    let source := String.ofList (List.replicate 9999 '\n' ++ ['?'])
    let span : Span := ⟨"<input>", 9999, 10000, 10000, 1⟩
    let e : Error := ⟨.unexpectedChar "?", some span⟩
    (ofSource source "<input>" (.text "f") [.int 1] 1000).run.outcome = .error (.error e) ∧
      ¬ Diagnostic.PointsAt (Diagnostic.render e (some source) false) e span source.toList := by
  intro source span e
  have houtcome : (ofSource source "<input>" (.text "f") [.int 1] 1000).run.outcome = .error (.error e) := by
    rw [ofSource, Program.ofSource_feeds]
    rfl
  have hbegins : span.BeginsIn source.toList :=
    marks_run source "<input>" (.text "f") [.int 1] 1000 (fun _ => .endless) _ houtcome e rfl span rfl
  exact ⟨houtcome, fun hpoints => absurd ((Diagnostic.pointsAt_iff rfl hbegins).mp hpoints) (by decide)⟩

end Session

end Casewise
