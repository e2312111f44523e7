import Casewise.Program.Parser

/-!
The grammar of programs, and the trees that its derivations build:

    program     = { definition }
    definition  = "fun" identifier identifier "=" expression
    expression  = "case" expression "in" clauses | sum
    clauses     = clause { "|" clause }
    clause      = pattern "=>" expression
    pattern     = integer | "_"
    sum         = { sum ( "+" | "-" ) } product
    product     = { product "*" } application
    application = identifier [ atom ] | atom
    atom        = integer | identifier | "(" expression ")"

Where a case stands in a clause, the grammar alone does not say to which of the two cases the next
bar belongs. A derivation is innermost if every bar belongs to the last case that is open in front of
it, and what can be derived at all has an innermost derivation.
-/
namespace Casewise

/-- What a stretch of tokens is read as. An expression is unclosed if it ends in a case that no
parenthesis has closed, and a clause is unclosed with its body. -/
inductive Phrase
  | atom (e : Expr)
  | application (e : Expr)
  | product (e : Expr)
  | sum (e : Expr)
  | expression (e : Expr) (unclosed : Bool)
  | pattern (p : Pattern)
  | clause (c : Clause Expr) (unclosed : Bool)
  | clauses (cs : List (Clause Expr))
  | definition (f : Definition)
  | program (fs : List Definition)

/-- To which case a bar may belong. -/
inductive Bars
  | any
  | innermost
deriving DecidableEq

inductive Derives (bars : Bars) : Phrase → List Token → Prop
  | number {t : Token} : t.kind = .integer →
    Derives bars (.atom (.int t.value (some t.span))) [t]
  | word {t : Token} : t.kind = .identifier →
    Derives bars (.atom (.var t.value (some t.span))) [t]
  | group {l r : Token} {e : Expr} {unclosed : Bool} {ts : List Token} : l.is .punctuation "(" →
    Derives bars (.expression e unclosed) ts → r.is .punctuation ")" →
    Derives bars (.atom e) (l :: (ts ++ [r]))
  | name {t : Token} : t.kind = .identifier →
    Derives bars (.application (.var t.value (some t.span))) [t]
  | call {t : Token} {e : Expr} {ts : List Token} : t.kind = .identifier →
    Derives bars (.atom e) ts →
    Derives bars (.application (.call t.value e (Span.join? (some t.span) e.span))) (t :: ts)
  | operand {e : Expr} {ts : List Token} : Derives bars (.atom e) ts →
    Derives bars (.application e) ts
  | factor {e : Expr} {ts : List Token} : Derives bars (.application e) ts →
    Derives bars (.product e) ts
  | product {l r : Expr} {o : Token} {ts us : List Token} : Derives bars (.product l) ts →
    o.is .operator "*" → Derives bars (.application r) us →
    Derives bars (.product (.binary "*" l r (Span.join? l.span r.span))) (ts ++ o :: us)
  | term {e : Expr} {ts : List Token} : Derives bars (.product e) ts → Derives bars (.sum e) ts
  | sum {l r : Expr} {operator : String} {o : Token} {ts us : List Token} : Derives bars (.sum l) ts →
    operator = "+" ∨ operator = "-" → o.is .operator operator → Derives bars (.product r) us →
    Derives bars (.sum (.binary operator l r (Span.join? l.span r.span))) (ts ++ o :: us)
  | plain {e : Expr} {ts : List Token} : Derives bars (.sum e) ts →
    Derives bars (.expression e false) ts
  | case {t i : Token} {s : Expr} {unclosed : Bool} {cs : List (Clause Expr)} {ts us : List Token} :
    t.is .keyword "case" → Derives bars (.expression s unclosed) ts → i.is .keyword "in" →
    Derives bars (.clauses cs) us →
    Derives bars
      (.expression (.case s cs (Span.join? (some t.span) (cs.getLast?.bind (·.span)))) true)
      (t :: (ts ++ i :: us))
  | literal {t : Token} : t.kind = .integer →
    Derives bars (.pattern (.literal t.value (some t.span))) [t]
  | wildcard {t : Token} : t.is .punctuation "_" → Derives bars (.pattern (.wildcard (some t.span))) [t]
  | clause {a : Token} {p : Pattern} {e : Expr} {unclosed : Bool} {ts us : List Token} :
    Derives bars (.pattern p) ts → a.is .punctuation "=>" → Derives bars (.expression e unclosed) us →
    Derives bars (.clause ⟨p, e, Span.join? p.span e.span⟩ unclosed) (ts ++ a :: us)
  | last {c : Clause Expr} {unclosed : Bool} {ts : List Token} : Derives bars (.clause c unclosed) ts →
    Derives bars (.clauses [c]) ts
  | bar {c : Clause Expr} {cs : List (Clause Expr)} {unclosed : Bool} {b : Token}
    {ts us : List Token} : Derives bars (.clause c unclosed) ts → b.is .punctuation "|" →
    Derives bars (.clauses cs) us → (bars = .innermost → unclosed = false) →
    Derives bars (.clauses (c :: cs)) (ts ++ b :: us)
  | definition {k f x q : Token} {e : Expr} {unclosed : Bool} {ts : List Token} :
    k.is .keyword "fun" → f.kind = .identifier → x.kind = .identifier → q.is .punctuation "=" →
    Derives bars (.expression e unclosed) ts →
    Derives bars (.definition ⟨f.value, x.value, e, Span.join? (some k.span) e.span⟩)
      (k :: f :: x :: q :: ts)
  | empty : Derives bars (.program []) []
  | item {f : Definition} {fs : List Definition} {ts us : List Token} :
    Derives bars (.definition f) ts → Derives bars (.program fs) us →
    Derives bars (.program (f :: fs)) (ts ++ us)

namespace Derives

theorem toAny {bars : Bars} {ph : Phrase} {ts : List Token} (h : Derives bars ph ts) :
    Derives .any ph ts := by
  induction h with
  | number h => exact .number h
  | word h => exact .word h
  | group hl _ hr ih => exact .group hl ih hr
  | name h => exact .name h
  | call ht _ ih => exact .call ht ih
  | operand _ ih => exact .operand ih
  | factor _ ih => exact .factor ih
  | product _ ho _ ihl ihr => exact .product ihl ho ihr
  | term _ ih => exact .term ih
  | sum _ hop ho _ ihl ihr => exact .sum ihl hop ho ihr
  | plain _ ih => exact .plain ih
  | case ht _ hi _ ihs ihc => exact .case ht ihs hi ihc
  | literal h => exact .literal h
  | wildcard h => exact .wildcard h
  | clause _ ha _ ihp ihe => exact .clause ihp ha ihe
  | last _ ih => exact .last ih
  | bar _ hb _ _ ihc ihs => exact .bar ihc hb ihs (by simp)
  | definition hk hf hx hq _ ih => exact .definition hk hf hx hq ih
  | empty => exact .empty
  | item _ _ ihd ihp => exact .item ihd ihp

theorem clauses_ne_nil {bars : Bars} {cs : List (Clause Expr)} {ts : List Token}
    (h : Derives bars (.clauses cs) ts) : cs ≠ [] := by
  cases h <;> simp

/-- What an innermost derivation can take in behind it: a bar and more clauses, if a case is open
at its end. -/
private def Absorbs (b : Token) (us : List Token) : Phrase → List Token → Prop
  | .expression _ unclosed, ts => unclosed = true →
    ∃ e, Derives .innermost (.expression e true) (ts ++ b :: us)
  | .clause _ unclosed, ts => unclosed = true →
    ∃ c, Derives .innermost (.clause c true) (ts ++ b :: us)
  | .clauses _, ts => ∃ cs, Derives .innermost (.clauses cs) (ts ++ b :: us)
  | _, _ => True

private theorem absorbs {b : Token} {us : List Token} {cs : List (Clause Expr)}
    (hb : b.is .punctuation "|") (hcs : Derives .innermost (.clauses cs) us) {ph : Phrase}
    {ts : List Token} (h : Derives .innermost ph ts) : Absorbs b us ph ts := by
  induction h with
  | plain _ _ => exact fun hu => by cases hu
  | @case t i s unclosed ds vs ws ht hs hi _ _ ih =>
    intro _
    obtain ⟨ds', hds⟩ := ih
    exact ⟨_, by simpa using Derives.case ht hs hi hds⟩
  | @clause a p e unclosed vs ws hp ha _ _ ih =>
    intro hu
    obtain ⟨e', he⟩ := ih hu
    exact ⟨_, by simpa using Derives.clause hp ha he⟩
  | @last c unclosed vs hc ih =>
    cases unclosed with
    | false => exact ⟨_, .bar hc hb hcs fun _ => rfl⟩
    | true =>
      obtain ⟨c', hc'⟩ := ih rfl
      exact ⟨_, .last hc'⟩
  | @bar c ds unclosed a vs ws hc ha _ hu _ ih =>
    obtain ⟨ds', hds⟩ := ih
    exact ⟨_, by simpa using Derives.bar hc ha hds hu⟩
  | _ => trivial

private def Rebuilt : Phrase → List Token → Prop
  | .atom _, ts => ∃ e, Derives .innermost (.atom e) ts
  | .application _, ts => ∃ e, Derives .innermost (.application e) ts
  | .product _, ts => ∃ e, Derives .innermost (.product e) ts
  | .sum _, ts => ∃ e, Derives .innermost (.sum e) ts
  | .expression _ unclosed, ts => ∃ e, Derives .innermost (.expression e unclosed) ts
  | .pattern _, ts => ∃ p, Derives .innermost (.pattern p) ts
  | .clause _ unclosed, ts => ∃ c, Derives .innermost (.clause c unclosed) ts
  | .clauses _, ts => ∃ cs, Derives .innermost (.clauses cs) ts
  | .definition f, ts => ∃ g : Definition, g.name = f.name ∧ Derives .innermost (.definition g) ts
  | .program fs, ts => ∃ gs : List Definition, gs.map Definition.name = fs.map Definition.name ∧
    Derives .innermost (.program gs) ts

private theorem rebuilt {bars : Bars} {ph : Phrase} {ts : List Token} (h : Derives bars ph ts) :
    Rebuilt ph ts := by
  induction h with
  | number h => exact ⟨_, .number h⟩
  | word h => exact ⟨_, .word h⟩
  | group hl _ hr ih =>
    obtain ⟨e, he⟩ := ih
    exact ⟨e, .group hl he hr⟩
  | name h => exact ⟨_, .name h⟩
  | call ht _ ih =>
    obtain ⟨e, he⟩ := ih
    exact ⟨_, .call ht he⟩
  | operand _ ih =>
    obtain ⟨e, he⟩ := ih
    exact ⟨e, .operand he⟩
  | factor _ ih =>
    obtain ⟨e, he⟩ := ih
    exact ⟨e, .factor he⟩
  | product _ ho _ ihl ihr =>
    obtain ⟨l, hl⟩ := ihl
    obtain ⟨r, hr⟩ := ihr
    exact ⟨_, .product hl ho hr⟩
  | term _ ih =>
    obtain ⟨e, he⟩ := ih
    exact ⟨e, .term he⟩
  | sum _ hop ho _ ihl ihr =>
    obtain ⟨l, hl⟩ := ihl
    obtain ⟨r, hr⟩ := ihr
    exact ⟨_, .sum hl hop ho hr⟩
  | plain _ ih =>
    obtain ⟨e, he⟩ := ih
    exact ⟨e, .plain he⟩
  | case ht _ hi _ ihs ihc =>
    obtain ⟨s, hs⟩ := ihs
    obtain ⟨cs, hcs⟩ := ihc
    exact ⟨_, .case ht hs hi hcs⟩
  | literal h => exact ⟨_, .literal h⟩
  | wildcard h => exact ⟨_, .wildcard h⟩
  | clause _ ha _ ihp ihe =>
    obtain ⟨p, hp⟩ := ihp
    obtain ⟨e, he⟩ := ihe
    exact ⟨_, .clause hp ha he⟩
  | last _ ih =>
    obtain ⟨c, hc⟩ := ih
    exact ⟨_, .last hc⟩
  | @bar c cs unclosed b ts us _ hb _ _ ihc ihs =>
    obtain ⟨c, hc⟩ := ihc
    obtain ⟨cs, hcs⟩ := ihs
    cases unclosed with
    | false => exact ⟨_, .bar hc hb hcs fun _ => rfl⟩
    | true =>
      -- the bar goes to the case that is open at the end of the clause
      obtain ⟨c', hc'⟩ := absorbs hb hcs hc rfl
      exact ⟨_, .last hc'⟩
  | definition hk hf hx hq _ ih =>
    obtain ⟨e, he⟩ := ih
    exact ⟨⟨_, _, e, _⟩, rfl, .definition hk hf hx hq he⟩
  | empty => exact ⟨[], rfl, .empty⟩
  | item _ _ ihd ihp =>
    obtain ⟨g, hg, hd⟩ := ihd
    obtain ⟨gs, hgs, hp⟩ := ihp
    exact ⟨g :: gs, by simp [hg, hgs], .item hd hp⟩

/-- Whatever can be derived has an innermost derivation, which defines the same names. -/
theorem exists_innermost {fs : List Definition} {ts : List Token} (h : Derives .any (.program fs) ts) :
    ∃ gs : List Definition, gs.map Definition.name = fs.map Definition.name ∧
      Derives .innermost (.program gs) ts :=
  rebuilt h

end Derives

end Casewise
