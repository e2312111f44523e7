import Casewise.Proofs.Program.Earliest
import Casewise.Proofs.Program.Spacing

/-! Texts that break off. The reader pulls one token at a time, so it meets the fault of a text only if it
has taken every token in front of it. Then nothing is settled yet: some tokens more make a program of what
was taken, and others are refused. A token that is refused before that is refused whatever follows it. -/
namespace Casewise

namespace Token

/-- A stream that breaks off is made of its tokens and its fault. -/
theorem Stream.eq_foldr_fail {s : Stream} {fault : Fault} (h : s.fault? = some fault) :
    s = s.toList.foldr .more (.fail fault) := by
  induction s with
  | more t rest ih => exact congrArg (more t) (ih h)
  | stop last => cases h
  | fail f =>
    cases h
    rfl

variable {file : String} {p : Position} {s : List Char}

theorem lexed_of_fault {fault : Fault} (h : (scan file p s).fault? = some fault) :
    ∀ t ∈ (scan file p s).toList, t.Lexed := by
  fun_induction scan file p s with
  | case1 p => cases h
  | case2 p s inside behind hsplit ih => exact ih h
  | case3 p s hsplit => simp [Stream.toList]
  | case4 p c s _ hc ih => exact ih h
  | case5 p c s _ _ digits hdigits => simp [Stream.toList]
  | case6 p c s hopen _ hn l hf ih =>
    intro t ht
    rcases List.mem_cons.mp ht with rfl | ht
    · exact ⟨l, _, Lexeme.formed_of_first? hf hn, rfl⟩
    · exact ih h t ht
  | case7 p c s _ hblank _ hf => simp [Stream.toList]

/-- A text breaks off with an error of its characters or at an over-long numeral. -/
theorem lexical_of_fault {e : Error} (h : (scan file p s).fault? = some (.error e)) :
    e.cause.family? = some .lexical := by
  fun_induction scan file p s with
  | case1 p => cases h
  | case2 p s inside behind hsplit ih => exact ih h
  | case3 p s hsplit =>
    cases h
    rfl
  | case4 p c s _ hc ih => exact ih h
  | case5 p c s _ _ digits hdigits => cases h
  | case6 p c s hopen _ hn l hf ih => exact ih h
  | case7 p c s _ hblank _ hf =>
    have hfault : strangerFault file p c s = .error e := Option.some.inj h
    unfold strangerFault at hfault
    split at hfault
    · cases hfault
    · cases hfault
      rfl

/-- Continuations that leave out no sequence of lexemes, wherever its tokens stand. -/
def Exhaustive (rests : List Token → Prop) : Prop :=
  ∀ us : List Token, (∀ u ∈ us, u.Lexed) → ∃ vs last, rests (vs ++ [last]) ∧
    vs.map content = us.map content ∧ last.content = (.eof, .absent)

theorem exhaustive_lexed : Exhaustive fun rest =>
    ∃ us last, rest = us ++ [last] ∧ (∀ u ∈ us, u.Lexed) ∧ last.kind = .eof := by
  intro us hus
  let last := endOf (Span.between anonymous .start .start)
  exact ⟨us, last, ⟨us, last, rfl, hus, rfl⟩, rfl, rfl⟩

theorem kind_ne_eof_of_content {us vs : List Token} (h : vs.map content = us.map content)
    (hus : ∀ u ∈ us, u.Lexed) : ∀ v ∈ vs, v.kind ≠ .eof := by
  intro v hv
  have hcontent : v.content ∈ us.map content := h ▸ List.mem_map_of_mem hv
  obtain ⟨u, hu, hsame⟩ := List.mem_map.mp hcontent
  have hkind : u.kind = v.kind := congrArg Prod.fst hsame
  exact hkind ▸ (hus u hu).kind_ne_eof

def plus (span : Span) : Token := ⟨.operator, .text "+", span⟩

theorem lexed_plus (span : Span) : (plus span).Lexed :=
  ⟨⟨.operator, ['+']⟩, span, .operator (by decide), rfl⟩

theorem eq_plus {t : Token} {span : Span} (h : t.content = (plus span).content) : t = plus t.span := by
  obtain ⟨kind, value, place⟩ := t
  obtain ⟨rfl, rfl⟩ := Prod.mk.inj h
  rfl

end Token

open Token (plus)

namespace Reader

variable {r s : Reader} {ts : List Token} {x : Refusal}

/-- A stream that breaks off is refused at one of its tokens, or else for its fault. -/
theorem read_foldr_fail (r : Reader) (ts : List Token) (fault : Fault) :
    r.read (ts.foldr .more (.fail fault)) =
      match r.take ts with
      | .ok s => .error ⟨fault, s.defined⟩
      | .error x => .error x := by
  induction ts generalizing r with
  | nil => rfl
  | cons t ts ih =>
    cases hr : r.step t with
    | error x =>
      rw [take_cons_error hr, List.foldr_cons, read, hr]
      rfl
    | ok next =>
      rw [take_cons hr, List.foldr_cons, read, hr]
      exact ih next

/-- Tokens that are refused are refused alike whatever follows them. -/
theorem read_of_take_error (hts : ∀ t ∈ ts, t.kind ≠ .eof) (h : r.take ts = .error x) (rest : List Token) :
    r.read (.ofList (ts ++ rest)) = .error x := by
  obtain ⟨before, t, after, s, rfl, hbefore, ht⟩ := take_eq_error h
  rw [List.append_assoc, List.cons_append]
  exact read_refused (fun u hu => hts u (by simp [hu])) hbefore ht (after ++ rest)

theorem settle_plus (defined : List Definition) (k : Context) (e : Expr) (span : Span) :
    ∃ k', settle defined k e (plus span) = .ok ⟨defined, .operand k'⟩ := by
  have htimes : (plus span).is .operator "*" = false := by simp [Token.is, plus]
  have hplus : (plus span).is .operator "+" := by simp [Token.is, plus]
  simp only [settle, htimes, hplus, Bool.false_eq_true, if_false, if_true]
  exact ⟨_, rfl⟩

/-- A plus sign goes on with an expression that may end in front of it, and cannot stand elsewhere. -/
theorem step_plus (hr : r.phase ≠ .done) (span : Span) :
    (∃ x, r.step (plus span) = .error x ∧ x.Blames (plus span)) ∨
      ∃ k, r.step (plus span) = .ok ⟨r.defined, .operand k⟩ := by
  obtain ⟨defined, phase⟩ := r
  cases phase with
  | head k name _ => exact Or.inr (settle_plus defined k _ span)
  | after k e => exact Or.inr (settle_plus defined k e span)
  | done => exact absurd rfl hr
  | _ => exact Or.inl ⟨_, rfl, _, rfl⟩

/-- Whatever was read, a plus sign at the end of a text cannot stand there. -/
theorem exists_blames (hr : r.phase ≠ .done) (span : Span) {last : Token} (hlast : last.kind = .eof) :
    ∃ x t, r.take [plus span, last] = .error x ∧ x.Blames t := by
  rcases step_plus hr span with ⟨x, hx, hblames⟩ | ⟨k, hk⟩
  · exact ⟨x, plus span, take_cons_error hx [last], hblames⟩
  · let x : Refusal := ⟨.of (.unexpectedToken "expression" last.describe) (some last.span), r.defined⟩
    have hend : step ⟨r.defined, .operand k⟩ last = .error x := by
      simp only [step, operand, hlast, Token.is]
      rfl
    exact ⟨x, last, by rw [take_cons hk, take_cons_error hend], "expression", rfl⟩

end Reader

namespace Program

open Token (content)
open Token.Stream

variable {ts us : List Token} {last : Token} {source file : String} {fault : Fault} {r : Reader}
  {x : Refusal}

def EndsIn (result : Except Refusal Program) (e : Error) : Prop :=
  ∃ x, result = .error x ∧ x.fault = .error e

theorem ofTokens_of_take_error (hts : ∀ t ∈ ts, t.kind ≠ .eof) (h : Reader.start.take ts = .error x)
    (rest : List Token) : ofTokens (.ofList (ts ++ rest)) = .error x := by
  rw [ofTokens, Reader.read_of_take_error hts h]
  rfl

/-- What becomes a program, unless a name repeats, does so wherever its tokens stand. -/
theorem endsIn_of_content (hts : ∀ t ∈ ts, t.kind ≠ .eof) (hus : ∀ t ∈ us, t.kind ≠ .eof)
    (hlast : last.content = (.eof, .absent)) (hcontent : ts.map content = us.map content)
    {fs : List Definition} (h : Derives .innermost (.program fs) ts) {e : Error}
    (he : EndsIn (ofTokens (.ofList (us ++ [last]))) e) : ∃ name, e.cause = .duplicateFunction name := by
  have hkind : last.kind = .eof := congrArg Prod.fst hlast
  have halike : ReadAlike (ofTokens (.ofList (ts ++ [last]))) (ofTokens (.ofList (us ++ [last]))) := by
    rw [ofList_eq_closed hts hkind, ofList_eq_closed hus hkind]
    exact ofTokens_alike hts hus hkind hkind (by simp [hcontent])
  obtain ⟨y, hy, hye⟩ := he
  rcases ofTokens_of_derives hts hkind h with ⟨p, hp⟩ | ⟨x, hx, name, span, hname⟩
  · rw [hp, hy] at halike
    cases halike
  · rw [hx, hy] at halike
    cases halike with
    | refused hxe hye' _ hcause =>
      cases hname.symm.trans hxe
      cases hye.symm.trans hye'
      exact ⟨name, hcause.symm⟩

/-- What was taken has no error in common with all that may become of it: it can become a program, unless a
name repeats, and it can end in a plus sign. -/
theorem exists_not_endsIn (hts : ∀ t ∈ ts, t.kind ≠ .eof) (h : Reader.start.take ts = .ok r) (e : Error)
    {rests : List Token → Prop} (hrests : Token.Exhaustive rests) :
    ∃ rest, rests rest ∧ ¬ EndsIn (ofTokens (.ofList (ts ++ rest))) e := by
  obtain ⟨hread, hdone⟩ : r.HasRead ts ∧ r.phase ≠ .done := by
    rcases Reader.take_follows Reader.hasRead_start (by simp [Reader.start]) hts with
      ⟨s, hs, hread, hdone⟩ | ⟨y, hy, _⟩
    · cases h.symm.trans hs
      exact ⟨hread, hdone⟩
    · cases h.symm.trans hy
  by_cases hrepetition : ∃ name, e.cause = .duplicateFunction name
  · let place := Span.between Token.anonymous .start .start
    obtain ⟨vs, last, hin, hcontent, hlast⟩ := hrests [plus place] (by simpa using Token.lexed_plus place)
    obtain ⟨t, rfl, ht⟩ := List.map_eq_singleton_iff.mp hcontent
    have hkind : last.kind = .eof := congrArg Prod.fst hlast
    obtain ⟨x, blamed, hx, expected, hblames⟩ := Reader.exists_blames hdone t.span hkind
    rw [← Token.eq_plus ht] at hx
    have hrefused : ofTokens (.ofList (ts ++ [t, last])) = .error x := by
      have hends : ∀ u ∈ ts ++ [t], u.kind ≠ .eof := by
        intro u hu
        rcases List.mem_append.mp hu with hu | hu
        · exact hts u hu
        · rw [List.mem_singleton.mp hu, Token.eq_plus ht]
          exact (Token.lexed_plus _).kind_ne_eof
      rw [List.append_cons, ofList_eq_closed hends hkind, ofTokens_closed, ← List.append_cons,
        Reader.take_append h, hx]
      rfl
    refine ⟨_, hin, ?_⟩
    rintro ⟨y, hy, hye⟩
    cases hrefused.symm.trans hy
    cases hblames.symm.trans hye
    obtain ⟨name, hname⟩ := hrepetition
    cases hname
  · obtain ⟨us, fs, hus, hderives⟩ := hread.completes hdone
    obtain ⟨vs, last, hin, hcontent, hlast⟩ := hrests us hus
    have hends : ∀ ws : List Token, (∀ w ∈ ws, w.kind ≠ .eof) → ∀ t ∈ ts ++ ws, t.kind ≠ .eof := by
      intro ws hws t ht
      rcases List.mem_append.mp ht with ht | ht
      · exact hts t ht
      · exact hws t ht
    refine ⟨_, hin, fun he => hrepetition ?_⟩
    rw [← List.append_assoc] at he
    exact endsIn_of_content (hends us fun u hu => (hus u hu).kind_ne_eof)
      (hends vs (Token.kind_ne_eof_of_content hcontent hus)) hlast (by simp [hcontent]) hderives he

theorem ofSource_of_fault (h : (Token.tokenize source file).fault? = some fault) :
    ofSource source file =
      match Reader.start.take (Token.tokenize source file).toList with
      | .ok s => .error ⟨fault, s.defined⟩
      | .error x => .error x := by
  have hstream := eq_foldr_fail h
  rw [ofSource, hstream, ofTokens, Reader.read_foldr_fail, ← hstream]
  cases Reader.start.take (Token.tokenize source file).toList <;> rfl

/-- An error of the grammar ends the reading of a broken text if it ends that of all continuations. -/
theorem endsIn_iff_of_fault (h : (Token.tokenize source file).fault? = some fault)
    {rests : List Token → Prop} (hrests : Token.Exhaustive rests) {e : Error}
    (he : e.cause.family? = some .grammatical) :
    EndsIn (ofSource source file) e ↔
      ∀ rest, rests rest → EndsIn (ofTokens (.ofList ((Token.tokenize source file).toList ++ rest))) e := by
  have hts : ∀ t ∈ (Token.tokenize source file).toList, t.kind ≠ .eof :=
    fun t ht => (Token.lexed_of_fault h t ht).kind_ne_eof
  have hread := ofSource_of_fault h
  cases htake : Reader.start.take (Token.tokenize source file).toList with
  | error x =>
    replace hread : ofSource source file = .error x := by rw [hread, htake]
    have hall := ofTokens_of_take_error hts htake
    constructor
    · intro hends rest _
      rwa [hall, ← hread]
    · intro hends
      obtain ⟨vs, last, hin, _⟩ := hrests [] (by simp)
      have hone := hends _ hin
      rwa [hall, ← hread] at hone
  | ok r =>
    rw [htake] at hread
    constructor
    · rintro ⟨y, hy, hye⟩
      cases hread.symm.trans hy
      -- a fault of the text is none of the grammar
      obtain rfl : fault = .error e := hye
      cases he.symm.trans (Token.lexical_of_fault h)
    · intro hends
      obtain ⟨rest, hin, hnot⟩ := exists_not_endsIn hts htake e hrests
      exact absurd (hends rest hin) hnot

/-- A text that breaks off is refused for the first error in the order of its tokens: for an error of the grammar
exactly if this is the error of every list that goes on from its tokens with tokens that a text can hold, and
for the fault of the text in all other cases. -/
theorem ofSource_interrupted (h : (Token.tokenize source file).fault? = some fault) :
    let ts := (Token.tokenize source file).toList
    (∀ rests, Token.Exhaustive rests → ∀ e : Error, e.cause.family? = some .grammatical →
      (EndsIn (ofSource source file) e ↔
        ∀ rest, rests rest → EndsIn (ofTokens (.ofList (ts ++ rest))) e)) ∧
    ((¬ ∃ e : Error, e.cause.family? = some .grammatical ∧ EndsIn (ofSource source file) e) →
      ∃ x, ofSource source file = .error x ∧ x.fault = fault) ∧
    (∀ before f, Derives .innermost (.program (before ++ [f])) ts →
      (before.map Definition.name).Nodup →
      ∃ x, ofSource source file = .error x ∧ x.fault = fault) ∧
    ∀ before t after x, ts = before ++ t :: after → Reader.RefusesAt before t x →
      ofSource source file = .error x := by
  intro ts
  have hts : ∀ t ∈ ts, t.kind ≠ .eof := fun t ht => (Token.lexed_of_fault h t ht).kind_ne_eof
  have hread := ofSource_of_fault h
  have hmeets {r : Reader} (hr : Reader.start.take ts = .ok r) :
      ∃ x, ofSource source file = .error x ∧ x.fault = fault :=
    ⟨⟨fault, r.defined⟩, by rw [hread, hr], rfl⟩
  refine ⟨fun rests hrests e he => endsIn_iff_of_fault h hrests he, fun hnone => ?_,
    fun before f hf hn => ?_, fun before t after x hsplit hx => ?_⟩
  · rcases Reader.take_follows Reader.hasRead_start (by simp [Reader.start]) hts with
      ⟨r, hr, _⟩ | ⟨x, hx, e, hxe, he⟩
    · exact hmeets hr
    · rw [hx] at hread
      exact absurd ⟨e, he, x, hread, hxe⟩ hnone
  · have hnew : (([] ++ before : List Definition).map Definition.name).Nodup := hn
    obtain ⟨r, hr⟩ := Reader.exists_take_definitions hf hnew
    exact hmeets hr
  · obtain ⟨r, hr, ht⟩ := hx
    rw [hread]
    change (match Reader.start.take ts with | .ok s => _ | .error x => _) = _
    rw [hsplit, Reader.take_append hr, Reader.take_cons_error ht]

/-- The second `f` of `fun f x = 1 fun f x = 2 ?` is the last definition in front of a stray character, so it is the
character that is refused. In `fun f x = ) ?` it is the parenthesis. -/
theorem ofSource_interrupted_repeated :
    let source := "fun f x = 1 fun f x = 2 ?"
    let ts := (Token.tokenize source "a").toList
    let early := "fun f x = ) ?"
    let e : Error := ⟨.unexpectedToken "expression" "')'", some ⟨"a", 10, 11, 1, 11⟩⟩
    ((Token.tokenize early "a").fault?.isSome ∧ EndsIn (ofSource early "a") e ∧
      ∀ rest, (∃ us last, rest = us ++ [last] ∧ (∀ u ∈ us, u.Lexed) ∧ last.kind = .eof) →
        EndsIn (ofTokens (.ofList ((Token.tokenize early "a").toList ++ rest))) e) ∧
    ∃ fault before f, (Token.tokenize source "a").fault? = some fault ∧
      Derives .innermost (.program (before ++ [f])) ts ∧ (before.map Definition.name).Nodup ∧
      f.name ∈ before.map Definition.name ∧
      (∃ x, ofSource source "a" = .error x ∧ x.fault = fault) ∧
      ∀ e : Error, e.cause.family? = some .grammatical → ¬ ∀ rest,
        (∃ us last, rest = us ++ [last] ∧ (∀ u ∈ us, u.Lexed) ∧ last.kind = .eof) →
          EndsIn (ofTokens (.ofList (ts ++ rest))) e := by
  intro source ts early e
  have hearly : (Token.tokenize early "a").fault?.isSome := by decide +kernel
  have hends : EndsIn (ofSource early "a") e := by
    have herror : (match ofSource early "a" with
      | .error ⟨.error x, _⟩ => some x
      | _ => none) = some e := by decide +kernel
    split at herror
    next x defined hx => exact ⟨_, hx, congrArg Fault.error (Option.some.inj herror)⟩
    next => cases herror
  obtain ⟨stray, hstray⟩ := Option.isSome_iff_exists.mp hearly
  refine ⟨⟨hearly, hends, ?_⟩, ?_⟩
  · exact ((ofSource_interrupted hstray).1 _ Token.exhaustive_lexed e rfl).mp hends
  let word (kind : Token.Kind) (text : String) (start stop : Int) : Token :=
    ⟨kind, .text text, ⟨"a", start, stop, 1, start + 1⟩⟩
  let number (n start : Int) : Token := ⟨.integer, .int n, ⟨"a", start, start + 1, 1, start + 1⟩⟩
  have hts : ts =
      [word .keyword "fun" 0 3, word .identifier "f" 4 5, word .identifier "x" 6 7,
        word .punctuation "=" 8 9, number 1 10] ++
      [word .keyword "fun" 12 15, word .identifier "f" 16 17, word .identifier "x" 18 19,
        word .punctuation "=" 20 21, number 2 22] := by decide +kernel
  have hnumber (n start : Int) :
      Derives .innermost (.expression (.int (.int n) (some (number n start).span)) false) [number n start] :=
    .plain (.term (.factor (.operand (.number (t := number n start) rfl))))
  have hderives := Derives.item
    (.definition (k := word .keyword "fun" 0 3) (f := word .identifier "f" 4 5)
      (x := word .identifier "x" 6 7) (q := word .punctuation "=" 8 9) (by decide) rfl rfl (by decide)
      (hnumber 1 10))
    (.item (.definition (k := word .keyword "fun" 12 15) (f := word .identifier "f" 16 17)
      (x := word .identifier "x" 18 19) (q := word .punctuation "=" 20 21) (by decide) rfl rfl (by decide)
      (hnumber 2 22)) .empty)
  have hbreaks : (Token.tokenize source "a").fault?.isSome := by decide +kernel
  obtain ⟨fault, hfault⟩ := Option.isSome_iff_exists.mp hbreaks
  rw [List.append_nil, ← hts] at hderives
  obtain ⟨hiff, _, hlate, _⟩ := ofSource_interrupted hfault
  obtain ⟨x, hx, hxf⟩ := hlate [_] _ hderives (by simp)
  refine ⟨fault, [_], _, hfault, hderives, by simp, List.mem_singleton.mpr rfl, ⟨x, hx, hxf⟩, ?_⟩
  intro e he hall
  obtain ⟨y, hy, hye⟩ := (hiff _ Token.exhaustive_lexed e he).mpr hall
  cases hx.symm.trans hy
  obtain rfl : fault = .error e := hxf.symm.trans hye
  cases he.symm.trans (Token.lexical_of_fault hfault)

end Program

end Casewise
