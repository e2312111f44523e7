import Casewise.Source.Span
import Mathlib.Data.List.Induction

/-! Lines and columns against offsets. A place is fixed by the text in front of it: its line counts
the line feeds there, and its column is the distance to the last of them. -/
namespace Casewise

/-- The index of the last line feed of a text, or -1 if it has none. -/
def LastLineFeed (s : List Char) (i : Int) : Prop :=
  ('\n' ∉ s ∧ i = -1) ∨
    ∃ before behind : List Char, s = before ++ '\n' :: behind ∧ '\n' ∉ behind ∧ i = before.length

def cut (source : List Char) (first stop : Int) : List Char :=
  (source.take stop.toNat).drop first.toNat

/-- The line and the column of a span are those of its first offset. -/
def Span.Placed (span : Span) (source : List Char) : Prop :=
  span.line = 1 + (cut source 0 span.start).count '\n' ∧
    ∃ i, LastLineFeed (cut source 0 span.start) i ∧ span.column = span.start - i

/-- The last line feed stands in front of the longest end of the text that has none. -/
theorem LastLineFeed.eq {s : List Char} {i : Int} (h : LastLineFeed s i) :
    i = s.length - 1 - (s.reverse.takeWhile (· ≠ '\n')).length := by
  have hwhole {t : List Char} (ht : '\n' ∉ t) (u : List Char) :
      (t.reverse ++ u).takeWhile (· ≠ '\n') = t.reverse ++ u.takeWhile (· ≠ '\n') := by
    apply List.takeWhile_append_of_pos
    intro c hc
    have hne : c ≠ '\n' := ne_of_mem_of_not_mem (List.mem_reverse.mp hc) ht
    simpa using hne
  rcases h with ⟨hs, rfl⟩ | ⟨before, behind, rfl, hbehind, rfl⟩
  · have hall := hwhole hs []
    rw [List.append_nil, List.takeWhile_nil, List.append_nil] at hall
    rw [hall, List.length_reverse]
    omega
  · rw [List.reverse_append, List.reverse_cons, List.append_assoc, hwhole hbehind]
    simp
    omega

theorem cut_append (s t u : List Char) :
    cut (s ++ t ++ u) s.length (s ++ t).length = t := by
  unfold cut
  rw [Int.toNat_natCast, Int.toNat_natCast, List.take_left, List.drop_left]

theorem cut_zero_length (s t : List Char) : cut (s ++ t) 0 s.length = s := by
  simp [cut]

namespace Position

theorem line_after (p : Position) (s : List Char) : (p.after s).line = p.line + s.count '\n' := by
  induction s generalizing p with
  | nil => rfl
  | cons c s ih =>
    rw [after_cons, ih]
    by_cases hc : c = '\n'
    · subst hc
      simp [next]
      omega
    · simp [next, hc]

theorem column_after {s : List Char} (hs : '\n' ∉ s) (p : Position) :
    (p.after s).column = p.column + s.length := by
  induction s generalizing p with
  | nil => rfl
  | cons c s ih =>
    rw [List.mem_cons, not_or] at hs
    obtain ⟨hc, hs⟩ := hs
    have hnext : (p.next c).column = p.column + 1 := by rw [next, if_neg (Ne.symm hc)]
    rw [after_cons, ih hs, hnext, List.length_cons]
    omega

/-- The column is the distance to the last line feed, whether or not there is one. -/
theorem lastLineFeed_after (s : List Char) :
    LastLineFeed s ((s.length : Int) - (start.after s).column) := by
  induction s using List.reverseRecOn with
  | nil => exact Or.inl ⟨by simp, rfl⟩
  | append_singleton s c ih =>
    by_cases hc : c = '\n'
    · subst hc
      refine Or.inr ⟨s, [], rfl, by simp, ?_⟩
      simp [next]
    · have hcol : (start.after (s ++ [c])).column = (start.after s).column + 1 := by
        simp [next, hc]
      have hi : ((s ++ [c]).length : Int) - (start.after (s ++ [c])).column =
          s.length - (start.after s).column := by
        rw [hcol]
        simp only [List.length_append, List.length_singleton]
        omega
      rw [hi]
      rcases ih with ⟨hs, hv⟩ | ⟨before, behind, hs, hb, hv⟩
      · exact Or.inl ⟨by simp [hs, Ne.symm hc], hv⟩
      · refine Or.inr ⟨before, behind ++ [c], ?_, by simp [hb, Ne.symm hc], hv⟩
        conv_lhs => rw [hs]
        simp

end Position

namespace Span

/-- The text and the offset determine the column. -/
theorem Placed.column_eq {span : Span} {source : List Char} (h : span.Placed source) {column : Int}
    (h' : { span with column := column }.Placed source) : column = span.column := by
  obtain ⟨_, i, hi, hcolumn⟩ := h
  obtain ⟨_, j, hj, hcolumn'⟩ := h'
  have hij : i = j := hi.eq.trans hj.eq.symm
  rw [hcolumn, hij]
  exact hcolumn'

/-- A span that begins behind a text is placed by that text. -/
theorem placed_between (file : String) (s t : List Char) (q : Position) :
    (between file (Position.start.after s) q).Placed (s ++ t) := by
  have hstart : (between file (Position.start.after s) q).start = s.length := by
    simp [between, Position.start]
  refine ⟨?_, s.length - (Position.start.after s).column, ?_, ?_⟩
  · rw [hstart, cut_zero_length]
    simp [between, Position.line_after, Position.start]
  · rw [hstart, cut_zero_length]
    exact Position.lastLineFeed_after s
  · rw [hstart]
    dsimp only [between]
    omega

end Span

end Casewise
