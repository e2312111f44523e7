import Casewise.Proofs.Program.Earliest
import Casewise.Proofs.Program.Ending
import Casewise.Proofs.Program.Extents

/-! Where the errors of a token list without an end token are placed. An error blames a token, or a stretch of
tokens that makes a case without clauses or repeats a name. So it lies in the text, where its line and column
say, unless it finds the end that the list lacks. That is placed behind the last token, but in the column
where this token begins. -/
namespace Casewise

open Token

/-- The error blames a token, or a stretch right in front of it: a case without clauses, or the definition of a
name that is taken. -/
def Refusal.PlacedBy (x : Refusal) (read : List Token) (t : Token) : Prop :=
  x.Blames t ∨ ∃ cause span before mine,
    (cause = .emptyCaseBody ∨ ∃ name, cause = .duplicateFunction name) ∧ x.fault = .of cause span ∧
      read = before ++ mine ∧ Encloses mine span

theorem Refusal.PlacedBy.prepend {x : Refusal} {read : List Token} {t : Token} (h : x.PlacedBy read t)
    (earlier : List Token) : x.PlacedBy (earlier ++ read) t := by
  rcases h with h | ⟨cause, span, before, mine, hcause, hfault, rfl, hmine⟩
  · exact Or.inl h
  · exact Or.inr ⟨cause, span, earlier ++ before, mine, hcause, hfault, by simp, hmine⟩

/-- The head of a case runs from its first word to the word `in`. -/
theorem CaseHead.encloses {start inWord : Span} {s : Expr} {us : List Token} (h : CaseHead start s us)
    (hin : us.getLast?.map Token.span = some inWord) : Encloses us (some (start.join inWord)) := by
  cases h with
  | @mk t i s _ ts ht hs hi =>
    obtain ⟨u, hu, rfl⟩ := Option.map_eq_some_iff.mp hin
    rw [← List.cons_append, List.getLast?_concat, Option.some.injEq] at hu
    subst hu
    have hfirst := words_cons (not_paren_of_is ht (by decide) (by decide)) (ts ++ [i])
    have hlast : words [i] = [i] := words_cons (not_paren_of_is hi (by decide) (by decide)) []
    refine ⟨t, i, ?_, ?_, rfl⟩
    · rw [hfirst]
      rfl
    · rw [hfirst, words_append, hlast, ← List.cons_append, List.getLast?_concat]

namespace Reader

variable {defined : List Definition} {k : Context} {e : Expr} {t : Token} {r : Reader} {x : Refusal}
  {ts us read : List Token} {expected : String}

theorem placed_error (h : (.error ⟨.of (.unexpectedToken expected t.describe) (some t.span), defined⟩ :
    Except Refusal Reader) = .error x) : x.PlacedBy read t := by
  cases h
  exact Or.inl ⟨_, rfl⟩

theorem placed_item (h : item defined t = .error x) : x.PlacedBy read t := by
  unfold item at h
  split at h
  · cases h
  split at h
  · cases h
  · exact placed_error h

theorem placed_define {f : Definition} (hf : Derives .innermost (.definition f) ts)
    (h : define defined f t = .error x) : x.PlacedBy ts t := by
  unfold define at h
  split at h
  next =>
    cases h
    have hencloses : Encloses ts f.span := Node.Takes.encloses (n := .definition f) hf
    exact Or.inr ⟨_, _, [], ts, Or.inr ⟨_, rfl⟩, rfl, rfl, hencloses⟩
  next => exact placed_item h

theorem placed_close {unclosed : Bool} (hk : Surrounds k ts) (hw : k.isWhole)
    (he : Derives .innermost (.expression e unclosed) us) (h : close defined k e t = .error x) :
    x.PlacedBy (ts ++ us) t := by
  induction hk generalizing e us unclosed with
  | body hh =>
    cases hh with
    | mk hk hf hx hq => exact placed_define (.definition hk hf hx hq he) h
  | sum _ _ _ _ _ _ | product _ _ _ _ _ => cases hw
  | group _ _ _ | argument _ _ _ _ | scrutinee _ _ _ _ =>
    unfold close at h
    split at h
    · cases h
    · exact placed_error h
  | @branch k start s cs p a ts vs ws xs hk hwhole hs hcs hp ha ih =>
    unfold close at h
    dsimp only at h
    split at h
    · cases h
    · -- the case is complete, and closes in turn what is around it
      have hclause : Derives .innermost (.clause (Context.clause p e) unclosed) (xs ++ a :: us) :=
        .clause hp ha he
      have hclauses := hcs.derives (.last hclause)
      cases hs with
      | mk hcase hs hi =>
        have hcomplete := ih hwhole (.case hcase hs hi hclauses) (by simpa [Context.complete] using h)
        simpa using hcomplete

theorem placed_settle (hk : Surrounds k ts) (he : Derives .innermost (.application e) us)
    (h : settle defined k e t = .error x) : x.PlacedBy (ts ++ us) t := by
  obtain ⟨inner, factor, ts₁, us₁, hproduct, hk₁, hp₁, he₁, heq₁⟩ := closeProducts_surrounds hk he
  obtain ⟨outer, term, ts₂, us₂, hsum, hk₂, hw₂, he₂, heq₂⟩ := closeSums_surrounds hk₁ hp₁ he₁
  simp only [settle, hproduct, hsum] at h
  split at h
  · cases h
  split at h
  · cases h
  split at h
  · cases h
  · rw [← heq₁, ← heq₂]
    exact placed_close hk₂ hw₂ (.plain he₂) h

theorem placed_operand (h : operand defined k t = .error x) : x.PlacedBy read t := by
  unfold operand at h
  split at h
  · cases h
  split at h
  · cases h
  split at h
  · cases h
  · exact placed_error h

theorem placed_head {f : Token} (hk : Surrounds k ts) (hf : f.kind = .identifier)
    (h : head defined k f.value f.span t = .error x) : x.PlacedBy (ts ++ [f]) t := by
  unfold head at h
  dsimp only at h
  split at h
  · cases h
  split at h
  · cases h
  split at h
  · cases h
  · exact placed_settle hk (.name hf) h

theorem placed_pattern {start : Span} {s : Expr} {cs : List (Clause Expr)}
    (h : pattern defined start s cs k t = .error x) : x.PlacedBy read t := by
  unfold pattern at h
  split at h
  · cases h
  split at h
  · cases h
  · exact placed_error h

/-- A token that is refused is to blame, or what the reader has read last. -/
theorem placed_step (hr : r.HasRead read) (hdone : r.phase ≠ .done) (h : r.step t = .error x) :
    x.PlacedBy read t := by
  obtain ⟨_, done, cur, rfl, _, hc⟩ := hr
  obtain ⟨defined, phase⟩ := r
  apply Refusal.PlacedBy.prepend
  cases hc with
  | item => exact placed_item h
  | name _ | param _ _ | equals _ _ _ | arrow _ _ _ _ _ =>
    simp only [step] at h
    split at h
    · cases h
    · exact placed_error h
  | expression _ _ =>
    simp only [step, expression] at h
    split at h
    · cases h
    · exact placed_operand h
  | operand _ => exact placed_operand h
  | head hk hf => exact placed_head hk hf h
  | after hk he => exact placed_settle hk he h
  | @first k start inWord s before us hk hw hs hin =>
    simp only [step] at h
    split at h
    next =>
      cases h
      exact Or.inr ⟨_, _, before, us, Or.inl rfl, rfl, rfl, hs.encloses hin⟩
    next => exact placed_pattern h
  | pattern _ _ _ _ => exact placed_pattern h
  | done _ => exact absurd rfl hdone

end Reader

/-- The span lies in the text, and begins on the line that it names. -/
structure Span.LiesIn (span : Span) (source : List Char) : Prop where
  start_nonneg : 0 ≤ span.start
  le : span.start ≤ span.stop
  stop_le : span.stop ≤ source.length
  line : span.line = 1 + (cut source 0 span.start).count '\n'

/-! The places of tokens. -/

namespace Token

variable {t : Token} {source : List Char} {file : String} {ts : List Token}

theorem describe_ne (ht : t.kind ≠ .eof) : t.describe ≠ "end of input" := by
  intro h
  have hlist := congrArg String.toList h
  unfold describe at hlist
  split at hlist
  next heq => exact ht heq
  next => simp [String.toList_append] at hlist
  next => simp [String.toList_append] at hlist
  next => simp [String.toList_append] at hlist

/-- The end of a token is on the line where the token begins, and as many columns behind as it has characters. So
the place right behind it is not the one that the line and column of its beginning name. -/
theorem Layout.placed_behind (h : Layout file .start source ts) (ht : t ∈ ts) :
    let column := t.span.column + (t.span.stop - t.span.start)
    { t.span.behind with column := column }.Placed source ∧ ¬ t.span.behind.Placed source := by
  obtain ⟨before, after, rfl⟩ := List.append_of_mem ht
  obtain ⟨left, l, rest, rfl, hl, _, rfl, _, _⟩ := h.split
  let p := Position.start.after left
  let q := p.after l.text
  have hq : q = Position.start.after (left ++ l.text) := (Position.after_append _ _ _).symm
  have hend : (Span.between file q q).Placed (left ++ l.text ++ rest) := by
    rw [hq]
    exact Span.placed_between file (left ++ l.text) rest _
  have hline : q.line = p.line := by
    have hcount := List.count_eq_zero.mpr hl.lineFeed_not_mem
    rw [Position.line_after, hcount, Nat.add_zero]
  have hcolumn : q.column = p.column + l.text.length := Position.column_after hl.lineFeed_not_mem p
  have hoffset : q.offset = p.offset + l.text.length := Position.offset_after p l.text
  have hpos := List.length_pos_iff.mpr hl.text_ne_nil
  rw [← hq]
  change { (Span.between file p q).behind with column := (p.column : Int) + (q.offset - p.offset) }.Placed _ ∧
    ¬ (Span.between file p q).behind.Placed _
  have hbehind : { (Span.between file p q).behind with column := (p.column : Int) + (q.offset - p.offset) } =
      Span.between file q q := by
    have hlength : (p.column : Int) + (q.offset - p.offset) = q.column := by omega
    rw [hlength]
    simp only [Span.behind, Span.between, hline]
  rw [hbehind]
  refine ⟨hend, fun hplaced => ?_⟩
  rw [← hbehind] at hend
  have hsame : (p.column : Int) + (q.offset - p.offset) = p.column := hplaced.column_eq hend
  omega

theorem Splits.liesIn (h : Splits source ts) (ht : t ∈ ts) : t.span.LiesIn source :=
  have ⟨hstart, hlt, hstop⟩ := h.inside t ht
  ⟨hstart, Int.le_of_lt hlt, hstop, (h.placed t ht).1⟩

theorem Layout.behind_liesIn (h : Layout file .start source ts) (ht : t ∈ ts) :
    t.span.behind.LiesIn source := by
  obtain ⟨hstart, hlt, hstop⟩ := (splits_of_layout h).inside t ht
  exact ⟨Int.le_trans hstart (Int.le_of_lt hlt), Int.le_refl _, hstop, (h.placed_behind ht).1.1⟩

/-- What a stretch of tokens encloses lies in the text, and where its line and column say. -/
theorem Encloses.liesIn {mine : List Token} {span : Option Span} (h : Encloses mine span)
    (hs : Splits source ts) (hmine : mine.Sublist ts) :
    ∃ s, span = some s ∧ s.LiesIn source ∧ s.Placed source := by
  obtain ⟨first, last, hfirst, hlast, rfl⟩ := h
  have hwords : (words mine).Sublist ts := (words_sublist mine).trans hmine
  have hfirstMem : first ∈ ts := hwords.subset (List.mem_of_head? hfirst)
  have hlastMem : last ∈ ts := hwords.subset (List.mem_of_getLast? hlast)
  have hordered : Ordered ts := ⟨fun u hu => (hs.inside u hu).2.1, hs.ordered⟩
  have hends := (hordered.sublist hwords).between_ends hfirst hlast (List.mem_of_head? hfirst)
  have hplaced := hs.placed first hfirstMem
  obtain ⟨hstart, hlt, _⟩ := hs.inside first hfirstMem
  obtain ⟨_, _, hstop⟩ := hs.inside last hlastMem
  exact ⟨_, rfl, ⟨hstart, Int.le_trans (Int.le_of_lt hlt) hends.2, hstop, hplaced.1⟩, hplaced⟩

theorem kind_ne_eof_of_splits (h : Splits source ts) (ht : t ∈ ts) : t.kind ≠ .eof := by
  intro heof
  have hspelled := h.spelled t ht
  simp [Spells, heof] at hspelled

end Token

/-- The error finds the end of the input where it expects something else. -/
def Error.FindsEnd (e : Error) : Prop := ∃ expected, e.cause = .unexpectedToken expected "end of input"

namespace Program

open Token.Stream

variable {source file : String} {ts : List Token} {last : Token} {x : Refusal}

theorem take_of_closed (h : ofTokens (closed ts last) = .error x) :
    Reader.start.take (ts ++ [last]) = .error x := by
  rw [ofTokens_closed] at h
  cases hr : Reader.start.take (ts ++ [last]) with
  | ok r =>
    rw [hr] at h
    cases h
  | error y =>
    rw [hr] at h
    cases h
    rfl

/-- The tokens of a text that is not refused, without the one at its end, are laid out in the text. -/
theorem layout_of_tokenize (hfault : (tokenize source file).fault? = none)
    (htokens : (tokenize source file).toList = ts ++ [last]) : Layout file .start source.toList ts := by
  obtain ⟨us, hl⟩ := exists_layout hfault
  rw [tokenize, scan_of_layout hl, toList_closed] at htokens
  obtain ⟨rfl, _⟩ := List.append_inj' htokens rfl
  exact hl

/-- If the tokens of a text are refused without their end token, the error lies in the text, on the line that it
names. It is also in the column that it names, unless it finds the end. -/
theorem ofTokens_unended (hfault : (tokenize source file).fault? = none)
    (htokens : (tokenize source file).toList = ts ++ [last]) (hts : ts ≠ [])
    (h : ofTokens (.ofList ts) = .error x) :
    ∃ e span, x.fault = .error e ∧ e.cause.family? = some .grammatical ∧ e.span = some span ∧
      span.LiesIn source.toList ∧ (¬ e.FindsEnd → span.Placed source.toList) ∧
      (e.FindsEnd → ∃ t, ts.getLast? = some t ∧ span = t.span.behind ∧ ¬ span.Placed source.toList ∧
        { span with column := span.column + (t.span.stop - t.span.start) }.Placed source.toList) := by
  have hl := layout_of_tokenize hfault htokens
  have hs := splits_of_layout hl
  obtain ⟨final, hfinal⟩ := Option.isSome_iff_exists.mp (List.getLast?_isSome.mpr hts)
  have hmissing : Token.Stream.ofList ts = closed ts (endOf final.span.behind) := by
    rw [Token.Stream.ofList, ofListAfter_of_no_end (fun u hu => kind_ne_eof_of_splits hs hu), hfinal]
    rfl
  rw [hmissing] at h
  obtain ⟨before, t, after, r, hsplit, hr, ht⟩ := Reader.take_eq_error (take_of_closed h)
  have hfront : before <+: ts := by
    have hdrop : ts = before ++ (t :: after).dropLast := by
      rw [← List.dropLast_append_of_ne_nil (by simp), ← hsplit, List.dropLast_concat]
    exact ⟨_, hdrop.symm⟩
  have hrefuses : Reader.RefusesAt before t x := ⟨r, hr, ht⟩
  obtain ⟨r, _, hstep, hread, hdone⟩ :=
    hrefuses.exists_hasRead fun u hu => kind_ne_eof_of_splits hs (hfront.subset hu)
  rcases Reader.placed_step hread hdone hstep with ⟨expected, hblames⟩ | hstretch
  · have hmem : t ∈ ts ++ [endOf final.span.behind] := hsplit ▸ by simp
    rcases List.mem_append.mp hmem with hmem | hmem
    · -- a token of the text is no end
      refine ⟨_, t.span, hblames, rfl, rfl, hs.liesIn hmem, fun _ => hs.placed t hmem, ?_⟩
      rintro ⟨_, hcause⟩
      exact absurd (Error.Cause.unexpectedToken.inj hcause).2 (describe_ne (kind_ne_eof_of_splits hs hmem))
    · obtain rfl := List.mem_singleton.mp hmem
      have hlast : final ∈ ts := List.mem_of_getLast? hfinal
      obtain ⟨hcolumn, hnot⟩ := hl.placed_behind hlast
      exact ⟨_, final.span.behind, hblames, rfl, rfl, hl.behind_liesIn hlast,
        fun hnone => absurd ⟨expected, rfl⟩ hnone, fun _ => ⟨final, hfinal, rfl, hnot, hcolumn⟩⟩
  · obtain ⟨cause, span, earlier, mine, hcause, hxfault, rfl, hmine⟩ := hstretch
    have hsublist : mine.Sublist ts := (List.suffix_append earlier mine).sublist.trans hfront.sublist
    obtain ⟨s, rfl, hlies, hplaced⟩ := hmine.liesIn hs hsublist
    have hfamily : cause.family? = some .grammatical := by rcases hcause with rfl | ⟨name, rfl⟩ <;> rfl
    have hends : ¬ Error.FindsEnd ⟨cause, some s⟩ := by
      rintro ⟨expected, hexpected⟩
      rcases hcause with rfl | ⟨name, rfl⟩ <;> cases hexpected
    exact ⟨_, s, hxfault, hfamily, rfl, hlies, fun _ => hplaced, fun hfinds => absurd hfinds hends⟩

/-- In `fun f` and `number` on two lines the sign behind the parameter is missing. The error is placed at the end
of the second line, but in the column where `number` begins. -/
theorem ofTokens_unended_parameter :
    let source := "fun f\nnumber"
    let ts := (tokenize source "a").toList.dropLast
    let last := endOf ⟨"a", 12, 12, 2, 7⟩
    (tokenize source "a").fault? = none ∧ (tokenize source "a").toList = ts ++ [last] ∧ ts ≠ [] ∧
      ∃ x e span, ofTokens (.ofList ts) = .error x ∧ x.fault = .error e ∧ e.FindsEnd ∧ e.span = some span ∧
        span.start = 12 ∧ span.line = 2 ∧ span.column = 1 ∧ { span with column := 7 }.Placed source.toList := by
  intro source ts last
  have hnone : (tokenize source "a").fault?.isNone := by decide +kernel
  have hfault : (tokenize source "a").fault? = none := Option.isNone_iff_eq_none.mp hnone
  have htokens : (tokenize source "a").toList = ts ++ [last] := by decide +kernel
  have hts : ts = [⟨.keyword, .text "fun", ⟨"a", 0, 3, 1, 1⟩⟩, ⟨.identifier, .text "f", ⟨"a", 4, 5, 1, 5⟩⟩,
      ⟨.identifier, .text "number", ⟨"a", 6, 12, 2, 1⟩⟩] := by decide +kernel
  have hne : ts ≠ [] := by rw [hts]; simp
  obtain ⟨x, hx, hcause⟩ : ∃ x, ofTokens (.ofList ts) = .error x ∧
      x.fault = .of (.unexpectedToken "'='" "end of input") (some ⟨"a", 12, 12, 2, 1⟩) := by
    rw [hts]
    exact ⟨_, rfl, rfl⟩
  obtain ⟨e, span, he, _, hspan, _, _, hends⟩ := ofTokens_unended hfault htokens hne hx
  cases hcause.symm.trans he
  have hfinds : Error.FindsEnd ⟨.unexpectedToken "'='" "end of input", some ⟨"a", 12, 12, 2, 1⟩⟩ := ⟨_, rfl⟩
  cases hspan
  obtain ⟨t, ht, _, _, hplaced⟩ := hends hfinds
  rw [hts] at ht
  cases ht
  exact ⟨hfault, htokens, hne, x, _, _, hx, he, hfinds, rfl, rfl, rfl, rfl, hplaced⟩

/-- There the end is seven columns behind the last line feed, and not one. -/
theorem ofTokens_unended_misplaced :
    let source := "fun f\nnumber"
    let span : Span := ⟨"a", 12, 12, 2, 1⟩
    (tokenize source "a").fault?.isNone ∧
      (∃ x, ofTokens (.ofList (tokenize source "a").toList.dropLast) = .error x ∧
        x.fault = .of (.unexpectedToken "'='" "end of input") (some span)) ∧
      LastLineFeed (cut source.toList 0 span.start) 5 ∧ span.start - 5 = 7 ∧ ¬ span.Placed source.toList := by
  intro source span
  have hts : (tokenize source "a").toList.dropLast =
      [⟨.keyword, .text "fun", ⟨"a", 0, 3, 1, 1⟩⟩, ⟨.identifier, .text "f", ⟨"a", 4, 5, 1, 5⟩⟩,
        ⟨.identifier, .text "number", ⟨"a", 6, 12, 2, 1⟩⟩] := by decide +kernel
  have hfeed : LastLineFeed (cut source.toList 0 span.start) 5 :=
    Or.inr ⟨"fun f".toList, "number".toList, by decide +kernel, by decide +kernel, by decide +kernel⟩
  refine ⟨by decide +kernel, ?_, hfeed, by decide, ?_⟩
  · rw [hts]
    exact ⟨_, rfl, rfl⟩
  · rintro ⟨_, i, hi, hcolumn⟩
    have heq : i = 5 := hi.eq.trans hfeed.eq.symm
    rw [heq] at hcolumn
    exact absurd hcolumn (by decide)

end Program

end Casewise
