import Casewise.Proofs.Program.Grammar
import Casewise.Proofs.Token.Stream

/-! Reading what can be derived. Where a phrase may stand, its tokens are taken, and the reader is left
as if the tree of the phrase were complete at whatever comes next. -/
namespace Casewise

namespace Token

/-- An argument may begin with the token. -/
def StartsAtom (t : Token) : Prop :=
  t.kind = .integer ∨ t.kind = .identifier ∨ t.is .punctuation "("

/-- The token belongs to no sum that stands in front of it. -/
structure EndsSum (t : Token) : Prop where
  atom : ¬ t.StartsAtom
  times : t.is .operator "*" = false
  plus : t.is .operator "+" = false
  minus : t.is .operator "-" = false

theorem not_startsAtom_of_operator {t : Token} {text : String} (h : t.is .operator text) :
    ¬ t.StartsAtom := by
  have hk := (is_iff.mp h).1
  rintro (hi | hi | hi)
  · simp [hk] at hi
  · simp [hk] at hi
  · exact absurd (hk.symm.trans (is_iff.mp hi).1) (by decide)

theorem endsSum_of_kind {t : Token} (h : t.kind = .keyword ∨ t.kind = .eof) : t.EndsSum := by
  have hk : ∀ k, k ≠ .keyword → k ≠ .eof → t.kind ≠ k := by
    rintro k hk he rfl
    exact h.elim hk he
  refine ⟨?_, is_eq_false (hk _ ?_ ?_), is_eq_false (hk _ ?_ ?_), is_eq_false (hk _ ?_ ?_)⟩ <;>
    try decide
  rintro (hi | hi | hi)
  · exact hk .integer (by decide) (by decide) hi
  · exact hk .identifier (by decide) (by decide) hi
  · exact hk .punctuation (by decide) (by decide) (is_iff.mp hi).1

theorem endsSum_of_punctuation {t : Token} {text : String} (h : t.is .punctuation text)
    (hne : text ≠ "(") : t.EndsSum := by
  obtain ⟨hk, hv⟩ := is_iff.mp h
  refine ⟨?_, is_eq_false ?_, is_eq_false ?_, is_eq_false ?_⟩ <;> try simp [hk]
  rintro (hi | hi | hi)
  · simp [hk] at hi
  · simp [hk] at hi
  · exact hne (Scalar.text.inj (hv.symm.trans (is_iff.mp hi).2))

end Token

namespace Context

def isProduct : Context → Bool
  | product .. => true
  | _ => false

/-- A whole expression stands in the hole. -/
def isWhole : Context → Bool
  | product .. | sum .. => false
  | _ => true

theorem closeProducts_eq {k : Context} (h : k.isProduct = false) (e : Expr) :
    k.closeProducts e = (k, e) := by
  cases k <;> first | rfl | cases h

theorem closeSums_eq {k : Context} (h : k.isWhole) (e : Expr) : k.closeSums e = (k, e) := by
  cases k <;> first | rfl | cases h

theorem isProduct_eq_false {k : Context} (h : k.isWhole) : k.isProduct = false := by
  cases k <;> first | rfl | cases h

end Context

namespace Reader

/-- The expression is complete at any token that is no argument. -/
def Holds (r : Reader) (defined : List Definition) (k : Context) (e : Expr) : Prop :=
  ∀ t : Token, ¬ t.StartsAtom → r.step t = settle defined k e t

theorem settle_of_endsSum {defined : List Definition} {k k' outer : Context} {e e' term : Expr}
    {t : Token} (hp : k.closeProducts e = (k', e')) (hs : k'.closeSums e' = (outer, term))
    (ht : t.EndsSum) : settle defined k e t = close defined outer term t := by
  simp [settle, hp, hs, ht.times, ht.plus, ht.minus]

theorem holds_after (defined : List Definition) (k : Context) (e : Expr) :
    Holds ⟨defined, .after k e⟩ defined k e := fun _ _ => rfl

theorem holds_head (defined : List Definition) (k : Context) (name : Name) (span : Span) :
    Holds ⟨defined, .head k name span⟩ defined k (.var name (some span)) := by
  intro t ht
  simp only [Token.StartsAtom, not_or] at ht
  simp [step, head, ht]

theorem step_expression {defined : List Definition} {k : Context} {t : Token} (ht : t.StartsAtom) :
    step ⟨defined, .expression k⟩ t = step ⟨defined, .operand k⟩ t := by
  have hc : t.is .keyword "case" = false := by
    apply Token.is_eq_false
    rcases ht with hk | hk | hk
    · simp [hk]
    · simp [hk]
    · simp [(Token.is_iff.mp hk).1]
  simp [step, expression, hc]

theorem step_first {defined : List Definition} {start i : Span} {scrutinee : Expr} {k : Context}
    {t : Token} (ht : t.kind = .integer ∨ t.is .punctuation "_") :
    step ⟨defined, .first start scrutinee i k⟩ t =
      step ⟨defined, .pattern start scrutinee [] k⟩ t := by
  have he : endsExpression t = false := by
    rcases ht with hk | hk
    · simp [endsExpression, Token.is, hk]
    · obtain ⟨hk, hv⟩ := Token.is_iff.mp hk
      simp [endsExpression, Token.is, hk, hv]
  simp [step, he]

end Reader

open Reader

private def Phrase.Begins : Phrase → List Token → Prop
  | .atom _, ts | .application _, ts | .product _, ts | .sum _, ts =>
    ∃ t us, ts = t :: us ∧ t.StartsAtom
  | .pattern _, ts | .clause _ _, ts | .clauses _, ts =>
    ∃ t us, ts = t :: us ∧ (t.kind = .integer ∨ t.is .punctuation "_")
  | .expression _ _, _ | .definition _, _ | .program _, _ => True

private theorem begins {bars : Bars} {ph : Phrase} {ts : List Token} (h : Derives bars ph ts) :
    ph.Begins ts := by
  induction h with
  | number h => exact ⟨_, _, rfl, Or.inl h⟩
  | word h | name h | call h _ _ => exact ⟨_, _, rfl, Or.inr (Or.inl h)⟩
  | group hl _ _ _ => exact ⟨_, _, rfl, Or.inr (Or.inr hl)⟩
  | operand _ ih | factor _ ih | term _ ih | last _ ih => exact ih
  | product _ _ _ ih _ | sum _ _ _ _ ih _ | clause _ _ _ ih _ | bar _ _ _ _ ih _ =>
    obtain ⟨t, us, rfl, ht⟩ := ih
    exact ⟨t, _, rfl, ht⟩
  | literal h => exact ⟨_, _, rfl, Or.inl h⟩
  | wildcard h => exact ⟨_, _, rfl, Or.inr h⟩
  | _ => trivial

private def Phrase.IsRead : Phrase → List Token → Prop
  | .atom e, ts => ∀ defined k,
      (∃ r, take ⟨defined, .operand k⟩ ts = .ok r ∧ r.Holds defined k e) ∧
      ∀ name span, ∃ r, take ⟨defined, .head k name span⟩ ts = .ok r ∧
        r.Holds defined k (.call name e (Span.join? (some span) e.span))
  | .application e, ts => ∀ defined k,
      ∃ r, take ⟨defined, .operand k⟩ ts = .ok r ∧ r.Holds defined k e
  | .product e, ts => ∀ defined k, k.isProduct = false →
      ∃ r k' e', take ⟨defined, .operand k⟩ ts = .ok r ∧ r.Holds defined k' e' ∧
        k'.closeProducts e' = (k, e)
  | .sum e, ts => ∀ defined k, k.isWhole →
      ∃ r k' e' inner factor, take ⟨defined, .operand k⟩ ts = .ok r ∧ r.Holds defined k' e' ∧
        k'.closeProducts e' = (inner, factor) ∧ inner.closeSums factor = (k, e)
  | .expression e unclosed, ts => ∀ defined k, k.isWhole →
      ∃ r, take ⟨defined, .expression k⟩ ts = .ok r ∧
        ∀ t : Token, t.EndsSum → (t.is .punctuation "|" → unclosed = false) →
          r.step t = close defined k e t
  | .pattern p, ts => ∀ defined start scrutinee earlier k,
      take ⟨defined, .pattern start scrutinee earlier k⟩ ts =
        .ok ⟨defined, .arrow start scrutinee earlier p k⟩
  | .clause c unclosed, ts => ∀ defined start scrutinee earlier k, k.isWhole →
      ∃ r, take ⟨defined, .pattern start scrutinee earlier k⟩ ts = .ok r ∧
        ∀ t : Token, t.EndsSum → (t.is .punctuation "|" → unclosed = false) →
          r.step t =
            if t.is .punctuation "|" then .ok ⟨defined, .pattern start scrutinee (earlier ++ [c]) k⟩
            else close defined k (Context.complete start scrutinee earlier c) t
  | .clauses cs, ts => ∀ defined start scrutinee earlier k, k.isWhole →
      ∃ r, take ⟨defined, .pattern start scrutinee earlier k⟩ ts = .ok r ∧
        ∀ t : Token, t.EndsSum → t.is .punctuation "|" = false →
          r.step t = close defined k (.case scrutinee (earlier ++ cs)
            (Span.join? (some start) (cs.getLast?.bind (·.span)))) t
  | .definition f, ts => ∀ defined,
      ∃ r, take ⟨defined, .item⟩ ts = .ok r ∧
        ∀ t : Token, t.kind = .eof ∨ t.is .keyword "fun" → r.step t = define defined f t
  | .program _, _ => True

namespace Phrase

variable {l r e : Expr} {c : Clause Expr} {cs : List (Clause Expr)} {p : Pattern} {unclosed : Bool}
  {t u : Token} {ts us : List Token}

private theorem isRead_number (h : t.kind = .integer) :
    IsRead (.atom (.int t.value (some t.span))) [t] := by
  intro defined k
  refine ⟨⟨_, take_one ?_, holds_after defined k _⟩, fun name span =>
    ⟨_, take_one ?_, holds_after defined k _⟩⟩
  · simp [step, Reader.operand, h]
  · simp [step, Reader.head, h, Expr.span, Span.join?]

private theorem isRead_word (h : t.kind = .identifier) :
    IsRead (.atom (.var t.value (some t.span))) [t] := by
  intro defined k
  refine ⟨⟨_, take_one ?_, holds_head defined k t.value t.span⟩, fun name span =>
    ⟨_, take_one ?_, holds_after defined k _⟩⟩
  · simp [step, Reader.operand, h]
  · simp [step, Reader.head, h, Expr.span, Span.join?]

private theorem isRead_group (ht : t.is .punctuation "(") (h : IsRead (.expression e unclosed) ts)
    (hu : u.is .punctuation ")") : IsRead (.atom e) (t :: (ts ++ [u])) := by
  obtain ⟨htk, _⟩ := Token.is_iff.mp ht
  have hends := Token.endsSum_of_punctuation hu (by decide)
  have hbar : u.is .punctuation "|" = false := by
    simp [Token.is, (Token.is_iff.mp hu).2]
  intro defined k
  -- parentheses around an operand, and around an argument
  refine ⟨?_, fun name span => ?_⟩
  · have hopen : step ⟨defined, .operand k⟩ t = .ok ⟨defined, .expression (.group k)⟩ := by
      simp [step, Reader.operand, htk, ht]
    obtain ⟨s, hs, hstep⟩ := h defined (.group k) rfl
    refine ⟨⟨defined, .after k e⟩, ?_, holds_after defined k e⟩
    rw [take_cons hopen, take_append hs]
    refine take_one ?_
    rw [hstep u hends (by simp [hbar])]
    simp [close, hu]
  · have hopen : step ⟨defined, .head k name span⟩ t =
        .ok ⟨defined, .expression (.argument name span k)⟩ := by
      simp [step, Reader.head, htk, ht]
    obtain ⟨s, hs, hstep⟩ := h defined (.argument name span k) rfl
    refine ⟨_, ?_, holds_after defined k _⟩
    rw [take_cons hopen, take_append hs]
    refine take_one ?_
    rw [hstep u hends (by simp [hbar])]
    simp [close, hu]

private theorem isRead_name (h : t.kind = .identifier) :
    IsRead (.application (.var t.value (some t.span))) [t] := by
  intro defined k
  refine ⟨_, take_one ?_, holds_head defined k t.value t.span⟩
  simp [step, Reader.operand, h]

private theorem isRead_call (ht : t.kind = .identifier) (h : IsRead (.atom e) ts) :
    IsRead (.application (.call t.value e (Span.join? (some t.span) e.span))) (t :: ts) := by
  intro defined k
  have hname : step ⟨defined, .operand k⟩ t = .ok ⟨defined, .head k t.value t.span⟩ := by
    simp [step, Reader.operand, ht]
  obtain ⟨r, hr, hh⟩ := (h defined k).2 t.value t.span
  exact ⟨r, by rw [take_cons hname, hr], hh⟩

private theorem isRead_factor (h : IsRead (.application e) ts) : IsRead (.product e) ts := by
  intro defined k hk
  obtain ⟨r, hr, hh⟩ := h defined k
  exact ⟨r, k, e, hr, hh, Context.closeProducts_eq hk e⟩

private theorem isRead_product (hl : IsRead (.product l) ts) (ht : t.is .operator "*")
    (hr : IsRead (.application r) us) :
    IsRead (.product (.binary "*" l r (Span.join? l.span r.span))) (ts ++ t :: us) := by
  intro defined k hk
  obtain ⟨s, k', e', hs, hh, hp⟩ := hl defined k hk
  have hstar : s.step t = .ok ⟨defined, .operand (.product l "*" k)⟩ := by
    rw [hh t (Token.not_startsAtom_of_operator ht)]
    simp [settle, hp, ht]
  obtain ⟨s', hs', hh'⟩ := hr defined (.product l "*" k)
  refine ⟨s', .product l "*" k, r, ?_, hh', Context.closeProducts_eq hk _⟩
  rw [take_append hs, take_cons hstar, hs']

private theorem isRead_term (h : IsRead (.product e) ts) : IsRead (.sum e) ts := by
  intro defined k hk
  obtain ⟨r, k', e', hr, hh, hp⟩ := h defined k (Context.isProduct_eq_false hk)
  exact ⟨r, k', e', k, e, hr, hh, hp, Context.closeSums_eq hk e⟩

private theorem isRead_sum {operator : String} (hl : IsRead (.sum l) ts)
    (hop : operator = "+" ∨ operator = "-") (ht : t.is .operator operator)
    (hr : IsRead (.product r) us) :
    IsRead (.sum (.binary operator l r (Span.join? l.span r.span))) (ts ++ t :: us) := by
  intro defined k hk
  obtain ⟨s, k', e', inner, factor, hs, hh, hp, hsum⟩ := hl defined k hk
  obtain ⟨htk, htv⟩ := Token.is_iff.mp ht
  have hsign : s.step t = .ok ⟨defined, .operand (.sum l operator k)⟩ := by
    rw [hh t (Token.not_startsAtom_of_operator ht)]
    rcases hop with rfl | rfl <;> simp [settle, hp, hsum, Token.is, htk, htv]
  obtain ⟨s', k'', e'', hs', hh', hp'⟩ := hr defined (.sum l operator k) rfl
  refine ⟨s', k'', e'', .sum l operator k, r, ?_, hh', hp', Context.closeSums_eq hk _⟩
  rw [take_append hs, take_cons hsign, hs']

private theorem isRead_plain (hs : Begins (.sum e) ts) (h : IsRead (.sum e) ts) :
    IsRead (.expression e false) ts := by
  intro defined k hk
  obtain ⟨t, us, rfl, ht⟩ := hs
  obtain ⟨r, k', e', inner, factor, hr, hh, hp, hsum⟩ := h defined k hk
  refine ⟨r, by rw [take_congr (step_expression ht), hr], fun u hu _ => ?_⟩
  rw [hh u hu.atom, settle_of_endsSum hp hsum hu]

private theorem isRead_case (ht : t.is .keyword "case") (he : IsRead (.expression e unclosed) ts)
    (hu : u.is .keyword "in") (hcs : Begins (.clauses cs) us) (hclauses : IsRead (.clauses cs) us) :
    IsRead (.expression (.case e cs (Span.join? (some t.span) (cs.getLast?.bind (·.span)))) true)
      (t :: (ts ++ u :: us)) := by
  intro defined k hk
  have hcase : step ⟨defined, .expression k⟩ t = .ok ⟨defined, .expression (.scrutinee t.span k)⟩ := by
    simp [step, Reader.expression, ht]
  obtain ⟨r, hr, hstep⟩ := he defined (.scrutinee t.span k) rfl
  have huk := (Token.is_iff.mp hu).1
  have hin : r.step u = .ok ⟨defined, .first t.span e u.span k⟩ := by
    rw [hstep u (Token.endsSum_of_kind (Or.inl huk)) (by simp [Token.is, huk])]
    simp [close, hu]
  obtain ⟨v, vs, rfl, hv⟩ := hcs
  obtain ⟨r', hr', hstep'⟩ := hclauses defined t.span e [] k hk
  refine ⟨r', ?_, fun w hw hbar => hstep' w hw (by simpa using hbar)⟩
  rw [take_cons hcase, take_append hr, take_cons hin, take_congr (step_first hv), hr']

private theorem isRead_literal (h : t.kind = .integer) :
    IsRead (.pattern (.literal t.value (some t.span))) [t] := by
  intro defined start scrutinee earlier k
  exact take_one (by simp [step, Reader.pattern, h])

private theorem isRead_wildcard (h : t.is .punctuation "_") :
    IsRead (.pattern (.wildcard (some t.span))) [t] := by
  intro defined start scrutinee earlier k
  exact take_one (by simp [step, Reader.pattern, h, (Token.is_iff.mp h).1])

private theorem isRead_clause (hp : IsRead (.pattern p) ts) (ht : t.is .punctuation "=>")
    (he : IsRead (.expression e unclosed) us) :
    IsRead (.clause ⟨p, e, Span.join? p.span e.span⟩ unclosed) (ts ++ t :: us) := by
  intro defined start scrutinee earlier k hk
  have harrow : step ⟨defined, .arrow start scrutinee earlier p k⟩ t =
      .ok ⟨defined, .expression (.branch start scrutinee earlier p k)⟩ := by
    simp [step, ht]
  obtain ⟨r, hr, hstep⟩ := he defined (.branch start scrutinee earlier p k) rfl
  refine ⟨r, ?_, fun u hu hbar => ?_⟩
  · rw [take_append (hp defined start scrutinee earlier k), take_cons harrow, hr]
  · rw [hstep u hu hbar, close]
    rfl

private theorem isRead_last (h : IsRead (.clause c unclosed) ts) : IsRead (.clauses [c]) ts := by
  intro defined start scrutinee earlier k hk
  obtain ⟨r, hr, hstep⟩ := h defined start scrutinee earlier k hk
  refine ⟨r, hr, fun t ht hbar => ?_⟩
  rw [hstep t ht (by simp [hbar]), if_neg (by simp [hbar])]
  rfl

/-- A bar goes on with the case whose clause is closed. -/
private theorem isRead_bar (hc : IsRead (.clause c false) ts) (ht : t.is .punctuation "|")
    (hne : cs ≠ []) (hcs : IsRead (.clauses cs) us) : IsRead (.clauses (c :: cs)) (ts ++ t :: us) := by
  intro defined start scrutinee earlier k hk
  obtain ⟨r, hr, hstep⟩ := hc defined start scrutinee earlier k hk
  have hnext : r.step t = .ok ⟨defined, .pattern start scrutinee (earlier ++ [c]) k⟩ := by
    rw [hstep t (Token.endsSum_of_punctuation ht (by decide)) fun _ => rfl, if_pos ht]
  obtain ⟨r', hr', hstep'⟩ := hcs defined start scrutinee (earlier ++ [c]) k hk
  refine ⟨r', by rw [take_append hr, take_cons hnext, hr'], fun u hu hbar => ?_⟩
  have hlast : (c :: cs).getLast? = cs.getLast? := by
    cases cs with
    | nil => exact absurd rfl hne
    | cons d ds => exact List.getLast?_cons_cons
  rw [hstep' u hu hbar, hlast, List.append_assoc]
  rfl

private theorem isRead_definition {k f x q : Token} (hk : k.is .keyword "fun")
    (hf : f.kind = .identifier) (hx : x.kind = .identifier) (hq : q.is .punctuation "=")
    (he : IsRead (.expression e unclosed) ts) :
    IsRead (.definition ⟨f.value, x.value, e, Span.join? (some k.span) e.span⟩)
      (k :: f :: x :: q :: ts) := by
  intro defined
  have hfun : step ⟨defined, .item⟩ k = .ok ⟨defined, .name k.span⟩ := by
    simp [step, Reader.item, hk, (Token.is_iff.mp hk).1]
  have hname : step ⟨defined, .name k.span⟩ f = .ok ⟨defined, .param k.span f.value⟩ := by
    simp [step, hf]
  have hparam : step ⟨defined, .param k.span f.value⟩ x =
      .ok ⟨defined, .equals k.span f.value x.value⟩ := by
    simp [step, hx]
  have hsign : step ⟨defined, .equals k.span f.value x.value⟩ q =
      .ok ⟨defined, .expression (.body k.span f.value x.value)⟩ := by
    simp [step, hq]
  obtain ⟨r, hr, hstep⟩ := he defined (.body k.span f.value x.value) rfl
  refine ⟨r, by rw [take_cons hfun, take_cons hname, take_cons hparam, take_cons hsign, hr], ?_⟩
  intro t ht
  have htk : t.kind = .keyword ∨ t.kind = .eof := by
    rcases ht with h | h
    · exact Or.inr h
    · exact Or.inl (Token.is_iff.mp h).1
  have hbar : t.is .punctuation "|" = false := by
    rcases htk with h | h <;> simp [Token.is, h]
  rw [hstep t (Token.endsSum_of_kind htk) (by simp [hbar])]
  rfl

private theorem isRead {ph : Phrase} {ts : List Token} (h : Derives .innermost ph ts) :
    ph.IsRead ts := by
  induction h with
  | number h => exact isRead_number h
  | word h => exact isRead_word h
  | group hl _ hr ih => exact isRead_group hl ih hr
  | name h => exact isRead_name h
  | call ht _ ih => exact isRead_call ht ih
  | operand _ ih => exact fun defined k => (ih defined k).1
  | factor _ ih => exact isRead_factor ih
  | product _ ho _ ihl ihr => exact isRead_product ihl ho ihr
  | term _ ih => exact isRead_term ih
  | sum _ hop ho _ ihl ihr => exact isRead_sum ihl hop ho ihr
  | plain hs ih => exact isRead_plain (begins hs) ih
  | case ht _ hi hcs ihs ihc => exact isRead_case ht ihs hi (begins hcs) ihc
  | literal h => exact isRead_literal h
  | wildcard h => exact isRead_wildcard h
  | clause _ ha _ ihp ihe => exact isRead_clause ihp ha ihe
  | last _ ih => exact isRead_last ih
  | bar _ hb hcs hu ihc ihs =>
    have hne := hcs.clauses_ne_nil
    cases hu rfl
    exact isRead_bar ihc hb hne ihs
  | definition hk hf hx hq _ ih => exact isRead_definition hk hf hx hq ih
  | empty => trivial
  | item _ _ _ _ => trivial

end Phrase

namespace Reader

def defineAll (defined : List Definition) : List Definition → Except Refusal (List Definition)
  | [] => .ok defined
  | f :: fs =>
    if f.name ∈ defined.map Definition.name then
      .error ⟨.of (.duplicateFunction f.name) f.span, defined⟩
    else defineAll (defined ++ [f]) fs

/-- A definition is complete at the token behind it, which the end or the next definition begins with. -/
theorem take_definition {defined : List Definition} {f : Definition} {ts : List Token} {t : Token}
    (hf : Derives .innermost (.definition f) ts) (ht : t.kind = .eof ∨ t.is .keyword "fun")
    (us : List Token) :
    take ⟨defined, .item⟩ (ts ++ t :: us) =
      if f.name ∈ defined.map Definition.name then
        .error ⟨.of (.duplicateFunction f.name) f.span, defined⟩
      else take ⟨defined ++ [f], .item⟩ (t :: us) := by
  obtain ⟨r, hr, hstep⟩ := Phrase.isRead hf defined
  rw [take_append hr]
  split
  next hd =>
    refine take_cons_error ?_ us
    rw [hstep t ht, define, if_pos hd]
  next hd =>
    refine take_congr ?_ us
    rw [hstep t ht, define, if_neg hd]
    rfl

theorem exists_fun {bars : Bars} {fs : List Definition} {ts : List Token}
    (h : Derives bars (.program fs) ts) (hne : fs ≠ []) : ∃ t us, ts = t :: us ∧ t.is .keyword "fun" := by
  cases h with
  | empty => exact absurd rfl hne
  | item hf _ =>
    cases hf with
    | definition hk _ _ _ _ => exact ⟨_, _, rfl, hk⟩

/-- The definitions that can be derived are added, and nothing else is refused. -/
theorem take_program {fs : List Definition} {ts : List Token} {last : Token}
    (h : Derives .innermost (.program fs) ts) (hlast : last.kind = .eof)
    (defined : List Definition) :
    take ⟨defined, .item⟩ (ts ++ [last]) = (defineAll defined fs).map (⟨·, .done⟩) := by
  induction fs generalizing defined ts with
  | nil =>
    cases h
    refine take_one ?_
    simp [step, item, hlast]
  | cons f fs ih =>
    cases h with
    | @item _ _ ts us hf hfs =>
      obtain ⟨t, vs, hvs, ht⟩ :
          ∃ t vs, us ++ [last] = t :: vs ∧ (t.kind = .eof ∨ t.is .keyword "fun") := by
        cases hfs with
        | empty => exact ⟨last, [], rfl, Or.inl hlast⟩
        | item hg hgs =>
          obtain ⟨t, vs, hvs, ht⟩ := exists_fun (.item hg hgs) (by simp)
          exact ⟨t, vs ++ [last], by rw [hvs, List.cons_append], Or.inr ht⟩
      rw [List.append_assoc, hvs, take_definition hf ht, ← hvs, ih hfs, defineAll]
      split
      next => rfl
      next => rfl

private theorem name_not_mem {defined fs : List Definition} {f : Definition}
    (h : ((defined ++ f :: fs).map Definition.name).Nodup) : f.name ∉ defined.map Definition.name := by
  rw [List.map_append, List.nodup_append] at h
  intro hm
  exact h.2.2 _ hm f.name (by simp) rfl

/-- Definitions of distinct names are taken whole, and the last of them whatever its name is: a name is
looked at when the token behind its definition comes. -/
theorem exists_take_definitions {before : List Definition} {f : Definition} {ts : List Token}
    {defined : List Definition} (h : Derives .innermost (.program (before ++ [f])) ts)
    (hn : ((defined ++ before).map Definition.name).Nodup) :
    ∃ r, take ⟨defined, .item⟩ ts = .ok r := by
  induction before generalizing defined ts with
  | nil =>
    cases h with
    | item hf hfs =>
      cases hfs
      obtain ⟨r, hr, _⟩ := Phrase.isRead hf defined
      exact ⟨r, by rw [List.append_nil, hr]⟩
  | cons g before ih =>
    cases h with
    | @item _ _ ts us hg hfs =>
      obtain ⟨t, vs, rfl, ht⟩ := exists_fun hfs (by simp)
      rw [take_definition hg (Or.inr ht), if_neg (name_not_mem hn)]
      exact ih hfs (by simpa using hn)

theorem defineAll_eq_ok {defined fs : List Definition}
    (h : ((defined ++ fs).map Definition.name).Nodup) : defineAll defined fs = .ok (defined ++ fs) := by
  induction fs generalizing defined with
  | nil => simp [defineAll]
  | cons f fs ih =>
    rw [defineAll, if_neg (name_not_mem h), ih (by simpa using h)]
    simp

theorem defineAll_eq_error {defined before after : List Definition} {f : Definition}
    (h : ((defined ++ before).map Definition.name).Nodup)
    (hf : f.name ∈ (defined ++ before).map Definition.name) :
    defineAll defined (before ++ f :: after) =
      .error ⟨.of (.duplicateFunction f.name) f.span, defined ++ before⟩ := by
  induction before generalizing defined with
  | nil =>
    rw [List.append_nil] at hf
    rw [List.nil_append, defineAll, if_pos hf, List.append_nil]
  | cons g before ih =>
    rw [List.cons_append, defineAll, if_neg (name_not_mem h), ih (by simpa using h) (by simpa using hf)]
    simp

end Reader

end Casewise
