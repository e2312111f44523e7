import Mathlib.Logic.ExistsUnique
import Casewise.Proofs.Program.Reading

/-! Innermost derivations are unambiguous: a token list has at most one list of definitions. Where one
definition ends and the next begins is seen from the word `fun`, and within a definition the reader
takes the tokens in one way only. -/
namespace Casewise

def Token.isFun (t : Token) : Bool := t.is .keyword "fun"

theorem Token.isFun_of_kind {t : Token} {kind : Kind} (h : t.kind = kind) (hk : kind ≠ .keyword) :
    t.isFun = false :=
  is_eq_false (h ▸ hk)

theorem Token.isFun_of_is {t : Token} {kind : Kind} {text : String} (h : t.is kind text)
    (hne : text ≠ "fun") : t.isFun = false := by
  have hv := (is_iff.mp h).2
  simp [isFun, is, hv, hne]

private def Phrase.IsPart : Phrase → Prop
  | .definition _ | .program _ => False
  | _ => True

namespace Derives

variable {bars : Bars} {f g : Definition} {fs gs : List Definition} {ts us : List Token}

/-- Nothing within a definition looks as if it began another one. -/
private theorem isFun_eq_false {ph : Phrase} (h : Derives bars ph ts) (hp : ph.IsPart) :
    ∀ t ∈ ts, t.isFun = false := by
  induction h with
  | number h | word h | name h | literal h => simpa using Token.isFun_of_kind h (by decide)
  | wildcard h => simpa using Token.isFun_of_is h (by decide)
  | group hl _ hr ih =>
    have hopen := Token.isFun_of_is hl (by decide)
    have hclose := Token.isFun_of_is hr (by decide)
    simpa [or_imp, forall_and, hopen, hclose] using ih trivial
  | call ht _ ih =>
    have hname := Token.isFun_of_kind ht (by decide)
    simpa [hname] using ih trivial
  | operand _ ih | factor _ ih | term _ ih | plain _ ih | last _ ih => exact ih trivial
  | product _ ho _ ihl ihr =>
    have hstar := Token.isFun_of_is ho (by decide)
    simpa [or_imp, forall_and, hstar] using And.intro (ihl trivial) (ihr trivial)
  | @sum l r operator o vs ws _ hop ho _ ihl ihr =>
    have hsign : o.isFun = false := by
      rcases hop with rfl | rfl <;> exact Token.isFun_of_is ho (by decide)
    simpa [or_imp, forall_and, hsign] using And.intro (ihl trivial) (ihr trivial)
  | case ht _ hi _ ihs ihc =>
    have hcase := Token.isFun_of_is ht (by decide)
    have hin := Token.isFun_of_is hi (by decide)
    simpa [or_imp, forall_and, hcase, hin] using And.intro (ihs trivial) (ihc trivial)
  | clause _ ha _ ihp ihe =>
    have harrow := Token.isFun_of_is ha (by decide)
    simpa [or_imp, forall_and, harrow] using And.intro (ihp trivial) (ihe trivial)
  | bar _ hb _ _ ihc ihs =>
    have hbar := Token.isFun_of_is hb (by decide)
    simpa [or_imp, forall_and, hbar] using And.intro (ihc trivial) (ihs trivial)
  | definition _ _ _ _ _ _ | empty | item _ _ _ _ => exact hp.elim

/-- A definition goes on to the next token that begins one. -/
private theorem definition_tokens (hf : Derives bars (.definition f) ts)
    (hfs : Derives bars (.program fs) us) :
    ∃ k ws, ts = k :: ws ∧ (ws ++ us).takeWhile (fun t => !t.isFun) = ws := by
  cases hf with
  | @definition k n x q e unclosed vs hk hn hx hq he =>
    have hname := Token.isFun_of_kind hn (by decide)
    have hparam := Token.isFun_of_kind hx (by decide)
    have hsign := Token.isFun_of_is hq (by decide)
    have hbody := isFun_eq_false he trivial
    have hrest : us.takeWhile (fun t => !t.isFun) = [] := by
      cases hfs with
      | empty => rfl
      | item hg _ =>
        cases hg with
        | definition hk' _ _ _ _ => simp [Token.isFun, hk']
    refine ⟨k, _, rfl, ?_⟩
    rw [List.takeWhile_append_of_pos (by simpa [hname, hparam, hsign] using hbody), hrest,
      List.append_nil]

/-- The reader takes the tokens of a definition in one way only. -/
private theorem definition_unique (hf : Derives .innermost (.definition f) ts)
    (hg : Derives .innermost (.definition g) ts) : f = g := by
  have hread {d : Definition} (hd : Derives .innermost (.definition d) ts) :
      Reader.start.take (ts ++ [] ++ [Token.Stream.missingEnd none]) = .ok ⟨[d], .done⟩ :=
    Reader.take_program (.item hd .empty) rfl []
  have heq := (hread hf).symm.trans (hread hg)
  simpa using heq

theorem program_unique (hf : Derives .innermost (.program fs) ts)
    (hg : Derives .innermost (.program gs) ts) : fs = gs := by
  induction fs generalizing gs ts with
  | nil =>
    cases hf
    generalize hts : ([] : List Token) = ts at hg
    cases hg with
    | empty => rfl
    | item hd _ =>
      cases hd
      simp at hts
  | cons f fs ih =>
    cases hf with
    | @item _ _ vs ws hd hp =>
      obtain ⟨k, rest, rfl, hrest⟩ := definition_tokens hd hp
      generalize hts : k :: rest ++ ws = ts at hg
      cases hg with
      | empty => simp at hts
      | @item g gs vs' ws' hd' hp' =>
        -- both first definitions go on to the same word `fun`
        obtain ⟨k', rest', rfl, hrest'⟩ := definition_tokens hd' hp'
        simp only [List.cons_append, List.cons.injEq] at hts
        obtain ⟨rfl, htail⟩ := hts
        obtain rfl : rest = rest' := by rw [← hrest, ← hrest', htail]
        obtain rfl := List.append_cancel_left htail
        rw [definition_unique hd hd', ih hp hp']

/-- What can be derived has exactly one innermost derivation's definitions. -/
theorem existsUnique_innermost (h : Derives .any (.program fs) ts) :
    ∃! gs, Derives .innermost (.program gs) ts := by
  obtain ⟨gs, _, hgs⟩ := h.exists_innermost
  exact ⟨gs, hgs, fun _ h' => program_unique h' hgs⟩

end Derives

end Casewise
