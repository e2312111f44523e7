import Casewise.Proofs.Program.WellFormed

/-! What was read can be completed. Whatever constructs are open when the reader has taken some tokens, a
few more tokens close them, so that the whole can be derived. -/
namespace Casewise

namespace Token

private def loose (l : Lexeme) : Token := l.token (Span.between anonymous .start .start)

private def someNumber : Token := loose ⟨.integer, ['0']⟩

private def someName : Token := loose ⟨.identifier, ['x']⟩

private def inWord : Token := loose ⟨.keyword, ['i', 'n']⟩

private def equalsSign : Token := loose ⟨.punctuation, ['=']⟩

private def arrowSign : Token := loose ⟨.punctuation, ['=', '>']⟩

private def closeSign : Token := loose ⟨.punctuation, [')']⟩

private def underscore : Token := loose ⟨.punctuation, ['_']⟩

private theorem lexed_loose {l : Lexeme} (hl : l.Formed) : (loose l).Lexed := ⟨l, _, hl, rfl⟩

private theorem lexed_someNumber : someNumber.Lexed :=
  lexed_loose (.integer (by simp) (by simp) (by simp [maxDigits]))

private theorem lexed_someName : someName.Lexed :=
  lexed_loose (.word (c := 'x') (s := []) (by decide) (by simp))

private theorem lexed_inWord : inWord.Lexed :=
  lexed_loose (.word (c := 'i') (s := ['n']) (by decide) (by simp [isWordChar]))

private theorem lexed_equalsSign : equalsSign.Lexed := lexed_loose (.punctuation (by decide))

private theorem lexed_arrowSign : arrowSign.Lexed := lexed_loose .arrow

private theorem lexed_closeSign : closeSign.Lexed := lexed_loose (.punctuation (by decide))

private theorem lexed_underscore : underscore.Lexed := lexed_loose (.punctuation (by decide))

end Token

open Token

/-- Some tokens that a text can hold make a definition of the stretch. -/
def Completes (ts : List Token) : Prop :=
  ∃ us f, (∀ t ∈ us, t.Lexed) ∧ Derives .innermost (.definition f) (ts ++ us)

theorem Completes.of_append {ts : List Token} (us : List Token) (h : Completes (ts ++ us))
    (hus : ∀ t ∈ us, t.Lexed) : Completes ts := by
  obtain ⟨vs, f, hvs, hf⟩ := h
  refine ⟨us ++ vs, f, fun t ht => ?_, by rwa [← List.append_assoc]⟩
  rcases List.mem_append.mp ht with hu | hv
  · exact hus t hu
  · exact hvs t hv

/-- Whatever may stand in the hole of the context, the whole can be completed behind it. -/
structure Context.Fillable (k : Context) (ts : List Token) : Prop where
  application : ∀ {e : Expr} {us : List Token}, Derives .innermost (.application e) us →
    Completes (ts ++ us)
  product : k.isProduct = false → ∀ {e : Expr} {us : List Token},
    Derives .innermost (.product e) us → Completes (ts ++ us)
  expression : k.isWhole → ∀ {e : Expr} {unclosed : Bool} {us : List Token},
    Derives .innermost (.expression e unclosed) us → Completes (ts ++ us)

namespace Context.Fillable

variable {k : Context} {ts us vs ws : List Token} {start : Span} {s : Expr} {cs : List (Clause Expr)}
  {p : Pattern} {a : Token}

theorem of_expression (h : ∀ {e : Expr} {unclosed : Bool} {us : List Token},
    Derives .innermost (.expression e unclosed) us → Completes (ts ++ us)) : k.Fillable ts where
  application he := h (.plain (.term (.factor he)))
  product _ _ _ he := h (.plain (.term he))
  expression _ _ _ _ he := h he

theorem of_product (hw : k.isWhole = false) (h : ∀ {e : Expr} {us : List Token},
    Derives .innermost (.product e) us → Completes (ts ++ us)) : k.Fillable ts where
  application he := h (.factor he)
  product _ _ _ he := h he
  expression hwhole := absurd hwhole (by simp [hw])

/-- The body of a clause closes the clause, the case that it ends, and what is around the case. -/
theorem branch (hk : k.Fillable ts) (hw : k.isWhole) (hs : CaseHead start s us) (hcs : Earlier cs vs)
    (hp : Derives .innermost (.pattern p) ws) (ha : a.is .punctuation "=>") :
    (Context.branch start s cs p k).Fillable (ts ++ (us ++ (vs ++ (ws ++ [a])))) := by
  refine of_expression fun {e unclosed xs} he => ?_
  have hclauses := hcs.derives (.last (.clause hp ha he))
  cases hs with
  | mk ht hs hi =>
    have hcase := hk.expression hw (.case ht hs hi hclauses)
    simpa using hcase

end Context.Fillable

/-- Every construct that is open around a hole can be closed. -/
theorem Surrounds.fillable {k : Context} {ts : List Token} (h : Surrounds k ts) : k.Fillable ts := by
  induction h with
  | body hh =>
    cases hh with
    | mk hk hf hx hq =>
      refine .of_expression fun {e unclosed us} he => ?_
      exact ⟨[], _, by simp, by simpa using Derives.definition hk hf hx hq he⟩
  | @sum k l operator o ts us _ hw hl hop ho ih =>
    refine .of_product rfl fun {e vs} he => ?_
    have hsum := ih.expression hw (.plain (.sum hl hop ho he))
    simpa using hsum
  | @product k l o ts us _ hp hl ho ih =>
    refine ⟨fun {e vs} he => ?_, fun hproduct => absurd hproduct (by simp [Context.isProduct]),
      fun hwhole => absurd hwhole (by simp [Context.isWhole])⟩
    have hproduct := ih.product hp (.product hl ho he)
    simpa using hproduct
  | @group k l ts _ hl ih =>
    refine .of_expression fun {e unclosed us} he => ?_
    have hgroup := ih.application (.operand (.group (r := closeSign) hl he (by decide)))
    exact .of_append [closeSign] (by simpa using hgroup) (by simpa using lexed_closeSign)
  | @argument k f l ts _ hf hl ih =>
    refine .of_expression fun {e unclosed us} he => ?_
    have hcall := ih.application (.call hf (.group (r := closeSign) hl he (by decide)))
    exact .of_append [closeSign] (by simpa using hcall) (by simpa using lexed_closeSign)
  | @scrutinee k t ts _ hw ht ih =>
    refine .of_expression fun {e unclosed us} he => ?_
    have hhead : CaseHead t.span e (t :: (us ++ [inWord])) := .mk ht he (by decide)
    have hpattern : Derives .innermost (.pattern (.wildcard _)) [underscore] := .wildcard (by decide)
    have hbranch := ih.branch hw hhead .none hpattern (a := arrowSign) (by decide)
    have hnumber := hbranch.application (.operand (.number (t := someNumber) rfl))
    refine .of_append [inWord, underscore, arrowSign, someNumber] (by simpa using hnumber) ?_
    simpa using ⟨lexed_inWord, lexed_underscore, lexed_arrowSign, lexed_someNumber⟩
  | branch _ hw hs hcs hp ha ih => exact ih.branch hw hs hcs hp ha

theorem Surrounds.completes {k : Context} {ts : List Token} (h : Surrounds k ts) : Completes ts :=
  .of_append [someNumber] (h.fillable.application (.operand (.number rfl)))
    (by simpa using lexed_someNumber)

/-- What covers a part of a definition can be completed to a definition. -/
theorem Phase.Covers.completes {phase : Phase} {ts : List Token} (h : phase.Covers ts)
    (hitem : phase ≠ .item) (hdone : phase ≠ .done) : Completes ts := by
  have hname {k : Token} (hk : k.is .keyword "fun") {f : Token} (hf : f.kind = .identifier) {x : Token}
      (hx : x.kind = .identifier) : Completes [k, f, x, equalsSign] :=
    (Surrounds.body (.mk hk hf hx (by decide))).completes
  cases h with
  | item => exact absurd rfl hitem
  | name hk =>
    refine .of_append [someName, someName, equalsSign] (hname hk rfl rfl) ?_
    simpa using ⟨lexed_someName, lexed_equalsSign⟩
  | param hk hf =>
    refine .of_append [someName, equalsSign] (hname hk hf rfl) ?_
    simpa using ⟨lexed_someName, lexed_equalsSign⟩
  | equals hk hf hx =>
    exact .of_append [equalsSign] (hname hk hf hx) (by simpa using lexed_equalsSign)
  | expression hk _ | operand hk => exact hk.completes
  | head hk ht => exact hk.fillable.application (.name ht)
  | after hk he => exact hk.fillable.application he
  | first hk hw hs _ =>
    have hbranch := Surrounds.branch hk hw hs .none (.wildcard (t := underscore) (by decide))
      (a := arrowSign) (by decide)
    refine .of_append [underscore, arrowSign] (by simpa using hbranch.completes) ?_
    simpa using ⟨lexed_underscore, lexed_arrowSign⟩
  | pattern hk hw hs hcs =>
    have hbranch := Surrounds.branch hk hw hs hcs (.wildcard (t := underscore) (by decide))
      (a := arrowSign) (by decide)
    refine .of_append [underscore, arrowSign] (by simpa using hbranch.completes) ?_
    simpa using ⟨lexed_underscore, lexed_arrowSign⟩
  | arrow hk hw hs hcs hp =>
    have hbranch := Surrounds.branch hk hw hs hcs hp (a := arrowSign) (by decide)
    exact .of_append [arrowSign] (by simpa using hbranch.completes)
      (by simpa using lexed_arrowSign)
  | done _ => exact absurd rfl hdone

/-- What the reader has taken is the beginning of a program. -/
theorem Reader.HasRead.completes {r : Reader} {ts : List Token} (h : r.HasRead ts)
    (hdone : r.phase ≠ .done) :
    ∃ us fs, (∀ t ∈ us, t.Lexed) ∧ Derives .innermost (.program fs) (ts ++ us) := by
  obtain ⟨before, rest, rfl, hbefore, hrest⟩ := h.covers
  by_cases hitem : r.phase = .item
  · rw [hitem] at hrest
    cases hrest
    exact ⟨[], r.defined, by simp, by simpa using hbefore⟩
  · obtain ⟨us, f, hus, hf⟩ := hrest.completes hitem hdone
    exact ⟨us, r.defined ++ [f], hus, by simpa using hbefore.snoc hf⟩

end Casewise
