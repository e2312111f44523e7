import Casewise.Proofs.Program.Completion

/-! Errors of the grammar are found at the earliest token. What stands in front of the token that is blamed
can still become a program, and with this token behind it nothing can. -/
namespace Casewise

/-- The token cannot stand where it stands. -/
def Refusal.Blames (x : Refusal) (t : Token) : Prop :=
  ∃ expected, x.fault = .of (.unexpectedToken expected t.describe) (some t.span)

/-- A case ends before its first clause. -/
def Refusal.IsEmptyCase (x : Refusal) : Prop := ∃ span, x.fault = .of .emptyCaseBody span

def Refusal.IsRepetition (x : Refusal) : Prop := ∃ name span, x.fault = .of (.duplicateFunction name) span

theorem Refusal.Blames.not_isEmptyCase {x : Refusal} {t : Token} (h : x.Blames t) : ¬ x.IsEmptyCase := by
  rintro ⟨span, hempty⟩
  obtain ⟨expected, hblames⟩ := h
  simp [Fault.of, hblames] at hempty

/-- The first clause of a case is about to begin. -/
def Phase.isFirst : Phase → Bool
  | first .. => true
  | _ => false

namespace Reader

variable {defined : List Definition} {k : Context} {e : Expr} {t : Token} {r s : Reader} {x : Refusal}

/-- What a token may lead to: the word `in` to the clauses of a case, and each to an error that blames it
or a repeated name. -/
def Detects (t : Token) : Except Refusal Reader → Prop
  | .ok s => t.is .keyword "in" → s.phase.isFirst
  | .error x => x.Blames t ∨ x.IsRepetition

theorem detects_error (t : Token) (defined : List Definition) (expected : String) :
    Detects t (.error ⟨.of (.unexpectedToken expected t.describe) (some t.span), defined⟩) :=
  Or.inl ⟨_, rfl⟩

theorem detects_kind {kind : Token.Kind} (ht : t.kind = kind) (hk : kind ≠ .keyword) :
    Detects t (.ok s) :=
  fun hin => absurd (ht.symm.trans (Token.is_iff.mp hin).1) hk

theorem detects_symbol {kind : Token.Kind} {text : String} (ht : t.is kind text) (hne : text ≠ "in") :
    Detects t (.ok s) :=
  fun hin => absurd (Scalar.text.inj ((Token.is_iff.mp ht).2.symm.trans (Token.is_iff.mp hin).2)) hne

theorem detects_item (defined : List Definition) (t : Token) : Detects t (item defined t) := by
  unfold item
  split
  next ht => exact detects_kind ht (by decide)
  split
  next ht => exact detects_symbol ht (by decide)
  next => exact detects_error t defined _

theorem detects_define (defined : List Definition) (f : Definition) (t : Token) :
    Detects t (define defined f t) := by
  unfold define
  split
  next => exact Or.inr ⟨_, _, rfl⟩
  next => exact detects_item _ t

theorem detects_close (defined : List Definition) (k : Context) (e : Expr) (t : Token) :
    Detects t (close defined k e t) := by
  induction k generalizing e with
  | body start name param => exact detects_define _ _ t
  | sum l op outer ih | product l op outer ih => exact ih _
  | group outer _ | argument f start outer _ =>
    unfold close
    split
    next ht => exact detects_symbol ht (by decide)
    next => exact detects_error t defined _
  | scrutinee start outer _ =>
    unfold close
    split
    next => exact fun _ => rfl
    next => exact detects_error t defined _
  | branch start s cs p outer ih =>
    unfold close
    dsimp only
    split
    next ht => exact detects_symbol ht (by decide)
    next => exact ih _

theorem detects_settle (defined : List Definition) (k : Context) (e : Expr) (t : Token) :
    Detects t (settle defined k e t) := by
  unfold settle
  dsimp only
  split
  next ht => exact detects_symbol ht (by decide)
  split
  next ht => exact detects_symbol ht (by decide)
  split
  next ht => exact detects_symbol ht (by decide)
  next => exact detects_close _ _ _ t

theorem detects_operand (defined : List Definition) (k : Context) (t : Token) :
    Detects t (operand defined k t) := by
  unfold operand
  split
  next ht => exact detects_kind ht (by decide)
  split
  next ht => exact detects_kind ht (by decide)
  split
  next ht => exact detects_symbol ht (by decide)
  next => exact detects_error t defined _

theorem detects_head (defined : List Definition) (k : Context) (name : Name) (span : Span) (t : Token) :
    Detects t (head defined k name span t) := by
  unfold head
  dsimp only
  split
  next ht => exact detects_kind ht (by decide)
  split
  next ht => exact detects_kind ht (by decide)
  split
  next ht => exact detects_symbol ht (by decide)
  next => exact detects_settle _ _ _ t

theorem detects_pattern (defined : List Definition) (start : Span) (s : Expr)
    (cs : List (Clause Expr)) (k : Context) (t : Token) :
    Detects t (pattern defined start s cs k t) := by
  unfold pattern
  split
  next ht => exact detects_kind ht (by decide)
  split
  next ht => exact detects_symbol ht (by decide)
  next => exact detects_error t defined _

def FindsEmpty (r : Reader) (t : Token) : Prop := r.phase.isFirst ∧ endsExpression t

theorem not_findsEmpty (h : r.phase.isFirst = false) : ¬ r.FindsEmpty t :=
  fun hfound => Bool.false_ne_true (h.symm.trans hfound.1)

/-- An empty case is the only error that blames no token and no name. -/
theorem step_detects (hr : r.phase ≠ .done) (t : Token) :
    (r.FindsEmpty t ∧ ∃ x, r.step t = .error x ∧ x.IsEmptyCase) ∨
      (¬ r.FindsEmpty t ∧ Detects t (r.step t)) := by
  obtain ⟨defined, phase⟩ := r
  cases phase with
  | first s e i k =>
    by_cases ht : endsExpression t
    · refine Or.inl ⟨⟨rfl, ht⟩, ⟨.of .emptyCaseBody (some (s.join i)), defined⟩, ?_, _, rfl⟩
      simp only [step, if_pos ht]
    · refine Or.inr ⟨fun h => ht h.2, ?_⟩
      simp only [step, if_neg ht]
      exact detects_pattern defined s e [] k t
  | item => exact Or.inr ⟨not_findsEmpty rfl, detects_item defined t⟩
  | name start | param start f =>
    refine Or.inr ⟨not_findsEmpty rfl, ?_⟩
    simp only [step]
    split
    next ht => exact detects_kind ht (by decide)
    next => exact detects_error t defined _
  | equals start f x | arrow start s cs p k =>
    refine Or.inr ⟨not_findsEmpty rfl, ?_⟩
    simp only [step]
    split
    next ht => exact detects_symbol ht (by decide)
    next => exact detects_error t defined _
  | expression k =>
    refine Or.inr ⟨not_findsEmpty rfl, ?_⟩
    simp only [step, expression]
    split
    next ht => exact detects_symbol ht (by decide)
    next => exact detects_operand defined k t
  | operand k => exact Or.inr ⟨not_findsEmpty rfl, detects_operand defined k t⟩
  | head k name span =>
    exact Or.inr ⟨not_findsEmpty rfl, detects_head defined k name span t⟩
  | after k e => exact Or.inr ⟨not_findsEmpty rfl, detects_settle defined k e t⟩
  | pattern start s cs k =>
    exact Or.inr ⟨not_findsEmpty rfl, detects_pattern defined start s cs k t⟩
  | done => exact absurd rfl hr

/-- Tokens are refused at one of them, and those in front of it are taken. -/
theorem take_eq_error {ts : List Token} (h : r.take ts = .error x) :
    ∃ before t after s, ts = before ++ t :: after ∧ r.take before = .ok s ∧ s.step t = .error x := by
  induction ts generalizing r with
  | nil => cases h
  | cons t ts ih =>
    cases hr : r.step t with
    | error y =>
      cases (take_cons_error hr ts).symm.trans h
      exact ⟨[], t, ts, r, rfl, rfl, hr⟩
    | ok next =>
      rw [take_cons hr] at h
      obtain ⟨before, u, after, s, rfl, hbefore, hu⟩ := ih h
      exact ⟨t :: before, u, after, s, rfl, by rw [take_cons hr, hbefore], hu⟩

theorem take_concat {ts : List Token} (h : r.take (ts ++ [t]) = .ok s) :
    ∃ between, r.take ts = .ok between ∧ between.step t = .ok s := by
  cases hts : r.take ts with
  | error x => cases (take_append_error hts [t]).symm.trans h
  | ok between =>
    rw [take_append hts] at h
    cases hstep : between.step t with
    | error x => cases (take_cons_error hstep []).symm.trans h
    | ok s' =>
      cases (take_one hstep).symm.trans h
      exact ⟨between, rfl, hstep⟩

/-- In a list, what comes behind tokens that are taken is read from there. -/
theorem read_ofListAfter {ts : List Token} (hts : ∀ t ∈ ts, t.kind ≠ .eof) (h : r.take ts = .ok s)
    (previous : Option Token) (us : List Token) :
    ∃ previous', r.read (.ofListAfter previous (ts ++ us)) = s.read (.ofListAfter previous' us) := by
  induction ts generalizing r previous with
  | nil =>
    cases h
    exact ⟨previous, rfl⟩
  | cons t ts ih =>
    have ht : t.kind ≠ .eof := hts t (by simp)
    cases hr : r.step t with
    | error x => cases (take_cons_error hr ts).symm.trans h
    | ok next =>
      rw [take_cons hr] at h
      obtain ⟨previous', hrest⟩ := ih (fun u hu => hts u (by simp [hu])) h (some t)
      refine ⟨previous', ?_⟩
      rw [← hrest, List.cons_append, Token.Stream.ofListAfter, if_neg ht, read, hr]
      rfl

/-- A token that is refused is refused whatever follows it. -/
theorem read_refused {ts : List Token} (hts : ∀ t ∈ ts, t.kind ≠ .eof) (h : r.take ts = .ok s)
    (ht : s.step t = .error x) (rest : List Token) :
    r.read (.ofList (ts ++ t :: rest)) = .error x := by
  obtain ⟨previous, hread⟩ := read_ofListAfter hts h none (t :: rest)
  rw [Token.Stream.ofList, hread, Token.Stream.ofListAfter]
  split
  · rw [read, ht]
    rfl
  · rw [read, ht]
    rfl

/-- The first clause of a case is about to begin exactly behind its word `in`. -/
theorem isFirst_iff {ts : List Token} (hts : ∀ t ∈ ts, t.kind ≠ .eof) (h : start.take ts = .ok r)
    (hread : r.HasRead ts) :
    r.phase.isFirst ↔ ∃ front head place scrutinee, ts = front ++ head ∧ CaseHead place scrutinee head := by
  constructor
  · intro hfirst
    obtain ⟨before, rest, rfl, _, hrest⟩ := hread.covers
    cases hphase : r.phase with
    | first place scrutinee inWord k =>
      rw [hphase] at hrest
      cases hrest with
      | @first _ _ _ _ us vs _ _ hs _ => exact ⟨before ++ us, vs, place, scrutinee, by simp, hs⟩
    | _ => simp [hphase, Phase.isFirst] at hfirst
  · rintro ⟨front, head, place, scrutinee, rfl, hs⟩
    cases hs with
    | @mk c i _ _ us _ _ hi =>
      have hsplit : front ++ c :: (us ++ [i]) = (front ++ c :: us) ++ [i] := by simp
      rw [hsplit] at h hts
      obtain ⟨between, hbetween, hstep⟩ := take_concat h
      have hfront : ∀ t ∈ front ++ c :: us, t.kind ≠ .eof :=
        fun t ht => hts t (List.mem_append_left _ ht)
      rcases take_follows hasRead_start (by simp [start]) hfront with ⟨s, hs, _, hdone⟩ | ⟨x, hx, _⟩
      · cases hbetween.symm.trans hs
        rcases step_detects hdone i with ⟨_, x, hx, _⟩ | ⟨_, hdetects⟩
        · cases hstep.symm.trans hx
        · rw [hstep] at hdetects
          exact hdetects hi
      · cases hbetween.symm.trans hx

/-- The reader takes the tokens, and refuses the one behind them. -/
def RefusesAt (before : List Token) (t : Token) (x : Refusal) : Prop :=
  ∃ r, start.take before = .ok r ∧ r.step t = .error x

namespace RefusesAt

variable {before : List Token}

theorem exists_hasRead (h : RefusesAt before t x) (hbefore : ∀ u ∈ before, u.kind ≠ .eof) :
    ∃ r, start.take before = .ok r ∧ r.step t = .error x ∧ r.HasRead before ∧ r.phase ≠ .done := by
  obtain ⟨r, hr, ht⟩ := h
  rcases take_follows hasRead_start (by simp [start]) hbefore with ⟨s, hs, hread, hdone⟩ | ⟨y, hy, _⟩
  · cases hr.symm.trans hs
    exact ⟨r, hr, ht, hread, hdone⟩
  · cases hr.symm.trans hy

theorem cause (h : RefusesAt before t x) (hbefore : ∀ u ∈ before, u.kind ≠ .eof)
    (hx : ¬ x.IsRepetition) :
    (x.Blames t ∨ x.IsEmptyCase) ∧ (x.IsEmptyCase ↔
      (∃ front head place scrutinee, before = front ++ head ∧ CaseHead place scrutinee head) ∧
      (t.kind = .eof ∨ t.is .keyword "fun" ∨ t.is .punctuation ")" ∨ t.is .punctuation "|")) := by
  obtain ⟨r, hr, ht, hread, hdone⟩ := h.exists_hasRead hbefore
  have hfinds : r.FindsEmpty t ↔
      (∃ front head place scrutinee, before = front ++ head ∧ CaseHead place scrutinee head) ∧
      (t.kind = .eof ∨ t.is .keyword "fun" ∨ t.is .punctuation ")" ∨ t.is .punctuation "|") := by
    rw [FindsEmpty, isFirst_iff hbefore hr hread]
    simp [endsExpression, or_assoc]
  rw [← hfinds]
  rcases step_detects hdone t with ⟨hfound, y, hy, hempty⟩ | ⟨hfound, hdetects⟩
  · cases ht.symm.trans hy
    exact ⟨Or.inr hempty, iff_of_true hempty hfound⟩
  · rw [ht] at hdetects
    have hblames := hdetects.resolve_right hx
    exact ⟨Or.inl hblames, iff_of_false hblames.not_isEmptyCase hfound⟩

end RefusesAt

end Reader

namespace Program

open Token.Stream

variable {ts us : List Token} {last : Token} {x : Refusal} {fs : List Definition}

/-- What can be derived is a program, unless a name repeats. -/
theorem ofTokens_of_derives (hts : ∀ t ∈ ts, t.kind ≠ .eof) (hlast : last.kind = .eof)
    (h : Derives .innermost (.program fs) ts) :
    (∃ p, ofTokens (.ofList (ts ++ [last])) = .ok p) ∨
      ∃ x, ofTokens (.ofList (ts ++ [last])) = .error x ∧ x.IsRepetition := by
  by_cases hn : (fs.map Definition.name).Nodup
  · exact Or.inl ⟨_, ofTokens_of_nodup hts hlast h hn⟩
  · obtain ⟨before, f, after, rfl, hbefore, hf⟩ := exists_repeated hn
    exact Or.inr ⟨_, ofTokens_of_repeated hts hlast h hbefore hf, _, _, rfl⟩

theorem take_of_ofTokens (hts : ∀ t ∈ ts, t.kind ≠ .eof) (hlast : last.kind = .eof)
    (h : ofTokens (.ofList (ts ++ [last])) = .error x) : Reader.start.take (ts ++ [last]) = .error x := by
  rw [ofList_eq_closed hts hlast, ofTokens_closed] at h
  cases hr : Reader.start.take (ts ++ [last]) with
  | ok r =>
    rw [hr] at h
    cases h
  | error y =>
    rw [hr] at h
    cases h
    rfl

/-- An error of the grammar is found at the earliest token: those in front of the one that is refused can become a
program, unless a name repeats, and with this one behind them they are refused alike whatever follows. -/
theorem ofTokens_earliest (hts : ∀ t ∈ ts, t.Lexed) (hlast : last.kind = .eof)
    (h : ofTokens (.ofList (ts ++ [last])) = .error x) (hx : ¬ x.IsRepetition) :
    (∃ before t after, ts ++ [last] = before ++ t :: after ∧ Reader.RefusesAt before t x) ∧
    ∀ before t after, ts ++ [last] = before ++ t :: after → Reader.RefusesAt before t x →
      (∃ us, (∀ u ∈ us, u.Lexed) ∧ ((∃ p, ofTokens (.ofList (before ++ us ++ [last])) = .ok p) ∨
        ∃ y, ofTokens (.ofList (before ++ us ++ [last])) = .error y ∧ y.IsRepetition)) ∧
      (∀ rest, ofTokens (.ofList (before ++ t :: rest)) = .error x) ∧
      (x.Blames t ∨ x.IsEmptyCase) ∧
      (x.IsEmptyCase ↔
        (∃ front head place scrutinee, before = front ++ head ∧ CaseHead place scrutinee head) ∧
        (t.kind = .eof ∨ t.is .keyword "fun" ∨ t.is .punctuation ")" ∨ t.is .punctuation "|")) := by
  have hends : ∀ t ∈ ts, t.kind ≠ .eof := fun t ht => (hts t ht).kind_ne_eof
  constructor
  · obtain ⟨before, t, after, r, hsplit, hr, ht⟩ := Reader.take_eq_error (take_of_ofTokens hends hlast h)
    exact ⟨before, t, after, hsplit, r, hr, ht⟩
  · intro before t after hsplit hrefuses
    have hbefore : ∀ u ∈ before, u.kind ≠ .eof := by
      have hfront : ts = before ++ (t :: after).dropLast := by
        rw [← List.dropLast_append_of_ne_nil (by simp), ← hsplit, List.dropLast_concat]
      exact fun u hu => hends u (hfront ▸ List.mem_append_left _ hu)
    obtain ⟨r, hr, ht, hread, hdone⟩ := hrefuses.exists_hasRead hbefore
    refine ⟨?_, fun rest => ?_, hrefuses.cause hbefore hx⟩
    · obtain ⟨us, fs, hus, hd⟩ := hread.completes hdone
      refine ⟨us, hus, ofTokens_of_derives (fun u hu => ?_) hlast hd⟩
      rcases List.mem_append.mp hu with hu | hu
      · exact hbefore u hu
      · exact (hus u hu).kind_ne_eof
    · rw [ofTokens, Reader.read_refused hbefore hr ht]
      rfl

/-- In `fun f x = (case x in )` the case is empty: up to its word `in` the text can become a program, and
behind the parenthesis nothing can. -/
theorem ofTokens_earliest_empty :
    let span := Span.between Token.anonymous .start .start
    let name (c : Char) : Token := (Token.Lexeme.word [c]).token span
    let word (text : String) : Token := (Token.Lexeme.word text.toList).token span
    let sign (c : Char) : Token := Token.Lexeme.token ⟨.punctuation, [c]⟩ span
    let before := [word "fun", name 'f', name 'x', sign '=', sign '(', word "case", name 'x', word "in"]
    let last := Token.endOf span
    let x : Refusal := ⟨.of .emptyCaseBody (some span), []⟩
    (∀ t ∈ before ++ [sign ')'], t.Lexed) ∧ last.kind = .eof ∧
      ofTokens (.ofList (before ++ [sign ')'] ++ [last])) = .error x ∧ ¬ x.IsRepetition ∧
      Reader.RefusesAt before (sign ')') x ∧
      (∃ us, (∀ u ∈ us, u.Lexed) ∧ ((∃ p, ofTokens (.ofList (before ++ us ++ [last])) = .ok p) ∨
        ∃ y, ofTokens (.ofList (before ++ us ++ [last])) = .error y ∧ y.IsRepetition)) ∧
      ∀ rest, ofTokens (.ofList (before ++ sign ')' :: rest)) = .error x := by
  intro span name word sign before last x
  have hword (c : Char) (s : List Char) (hc : c.isAlpha) (hs : ∀ d ∈ s, Token.isWordChar d) :
      ((Token.Lexeme.word (c :: s)).token span).Lexed := ⟨_, span, .word hc hs, rfl⟩
  have hname (c : Char) (hc : c.isAlpha) : (name c).Lexed := hword c [] hc (by simp)
  have hfun : (word "fun").Lexed := hword 'f' ['u', 'n'] (by decide) (by simp [Token.isWordChar])
  have hcase : (word "case").Lexed := hword 'c' ['a', 's', 'e'] (by decide) (by simp [Token.isWordChar])
  have hin : (word "in").Lexed := hword 'i' ['n'] (by decide) (by simp [Token.isWordChar])
  have hsign (c : Char) (hc : Token.isPunctuationChar c) : (sign c).Lexed :=
    ⟨_, span, .punctuation hc, rfl⟩
  have hts : ∀ t ∈ before ++ [sign ')'], t.Lexed := by
    simp only [before, List.cons_append, List.nil_append, List.forall_mem_cons]
    exact ⟨hfun, hname 'f' (by decide), hname 'x' (by decide), hsign '=' (by decide),
      hsign '(' (by decide), hcase, hname 'x' (by decide), hin, hsign ')' (by decide), by simp⟩
  have hread : ofTokens (.ofList (before ++ [sign ')'] ++ [last])) = .error x := by rfl
  have hx : ¬ x.IsRepetition := by simp [Refusal.IsRepetition, x, Fault.of]
  have hrefuses : Reader.RefusesAt before (sign ')') x := ⟨_, rfl, rfl⟩
  obtain ⟨hcompletes, hrest, _⟩ :=
    (ofTokens_earliest hts rfl hread hx).2 before (sign ')') [last] (by simp) hrefuses
  exact ⟨hts, rfl, hread, hx, hrefuses, hcompletes, hrest⟩

end Program

end Casewise
