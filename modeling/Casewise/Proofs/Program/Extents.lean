import Casewise.Proofs.Program.WellFormed
import Casewise.Proofs.Token.Splitting

/-!
How far the nodes of a program reach. A node is read from a stretch of tokens, its span runs from the
first to the last word there, and its children have stretches of their own inside, one behind the other.
A word is any token but a parenthesis: parentheses around an expression do not widen it.
-/
namespace Casewise

/-- What has a span in a program. -/
inductive Node
  | definition (f : Definition)
  | expression (e : Expr)
  | clause (c : Clause Expr)
  | pattern (p : Pattern)

namespace Node

def span : Node → Option Span
  | definition f => f.span
  | expression e => e.span
  | clause c => c.span
  | pattern p => p.span

/-- The nodes right below a node, in source order. -/
def children : Node → List Node
  | definition f => [expression f.body]
  | expression (.binary _ l r _) => [expression l, expression r]
  | expression (.call _ a _) => [expression a]
  | expression (.case s cs _) => expression s :: cs.map clause
  | clause c => [pattern c.pattern, expression c.body]
  | _ => []

/-- The tokens from which a node is read. -/
def Takes : Node → List Token → Prop
  | definition f, ts => Derives .innermost (.definition f) ts
  | expression e, ts => ∃ unclosed, Derives .innermost (.expression e unclosed) ts
  | clause c, ts => ∃ unclosed, Derives .innermost (.clause c unclosed) ts
  | pattern p, ts => Derives .innermost (.pattern p) ts

def Within (n m : Node) : Prop :=
  ∃ s t, n.span = some s ∧ m.span = some t ∧ t.start ≤ s.start ∧ s.stop ≤ t.stop

def Before (n m : Node) : Prop :=
  ∃ s t, n.span = some s ∧ m.span = some t ∧ s.stop ≤ t.start

end Node

/-- The nodes of a program, at any depth. -/
inductive Program.HasNode (p : Program) : Node → Prop
  | definition {f : Definition} : f ∈ p.definitions → HasNode p (.definition f)
  | child {n m : Node} : HasNode p n → m ∈ n.children → HasNode p m

namespace Token

def words (ts : List Token) : List Token :=
  ts.filter fun t => !(t.is .punctuation "(" || t.is .punctuation ")")

@[simp] theorem words_append (ts us : List Token) : words (ts ++ us) = words ts ++ words us :=
  List.filter_append ..

theorem words_sublist (ts : List Token) : (words ts).Sublist ts := List.filter_sublist

theorem words_cons {t : Token} (ht : ¬ t.is .punctuation "(" ∧ ¬ t.is .punctuation ")")
    (ts : List Token) : words (t :: ts) = t :: words ts := by
  simp [words, ht]

theorem words_paren {t : Token} (ht : t.is .punctuation "(" ∨ t.is .punctuation ")") (ts : List Token) :
    words (t :: ts) = words ts := by
  simp only [words, List.filter_cons, Bool.not_eq_true', Bool.or_eq_false_iff]
  rcases ht with ht | ht <;> simp [ht]

/-- The span ends with the last word of a stretch. -/
def EndsAt (ts : List Token) (span : Option Span) : Prop :=
  ∃ s last, span = some s ∧ (words ts).getLast? = some last ∧ s.stop = last.span.stop

/-- The span runs from the first word of a stretch to the last. -/
def Encloses (ts : List Token) (span : Option Span) : Prop :=
  ∃ first last, (words ts).head? = some first ∧ (words ts).getLast? = some last ∧
    span = some (first.span.join last.span)

variable {ts us : List Token} {t : Token} {s s' : Option Span}

theorem Encloses.endsAt (h : Encloses ts s) : EndsAt ts s := by
  obtain ⟨first, last, _, hlast, rfl⟩ := h
  exact ⟨_, last, rfl, hlast, rfl⟩

theorem EndsAt.prepend (h : EndsAt us s) (ts : List Token) : EndsAt (ts ++ us) s := by
  obtain ⟨span, last, rfl, hlast, hstop⟩ := h
  exact ⟨span, last, rfl, by simp [hlast], hstop⟩

theorem encloses_singleton (ht : ¬ t.is .punctuation "(" ∧ ¬ t.is .punctuation ")") :
    Encloses [t] (some t.span) := by
  have hw : words [t] = [t] := words_cons ht []
  exact ⟨t, t, by rw [hw]; rfl, by rw [hw]; rfl, rfl⟩

theorem Encloses.group {l r : Token} (hl : l.is .punctuation "(") (hr : r.is .punctuation ")")
    (h : Encloses ts s) : Encloses (l :: (ts ++ [r])) s := by
  have hw : words (l :: (ts ++ [r])) = words ts := by
    rw [words_paren (Or.inl hl), words_append, words_paren (Or.inr hr)]
    exact List.append_nil _
  unfold Encloses
  rwa [hw]

/-- What is joined from its first and its last part reaches over all of it. -/
theorem Encloses.join (h : Encloses ts s) (h' : EndsAt us s') (middle : List Token) :
    Encloses (ts ++ (middle ++ us)) (Span.join? s s') := by
  obtain ⟨first, _, hfirst, _, rfl⟩ := h
  obtain ⟨span, last, rfl, hlast, hstop⟩ := h'
  refine ⟨first, last, by simp [hfirst], by simp [hlast], ?_⟩
  simp [Span.join?, Span.join, hstop]

end Token

open Token

/-- The span of what a stretch is read as. A list of clauses has none, but its last clause has. -/
private def Phrase.Encloses : Phrase → List Token → Prop
  | .atom e, ts | .application e, ts | .product e, ts | .sum e, ts | .expression e _, ts =>
    Token.Encloses ts e.span
  | .pattern p, ts => Token.Encloses ts p.span
  | .clause c _, ts => Token.Encloses ts c.span
  | .clauses cs, ts => EndsAt ts (cs.getLast?.bind (·.span))
  | .definition f, ts => Token.Encloses ts f.span
  | .program _, _ => True

private theorem Derives.encloses {bars : Bars} {ph : Phrase} {ts : List Token} (h : Derives bars ph ts) :
    ph.Encloses ts := by
  induction h with
  | number ht | word ht | name ht | literal ht => exact encloses_singleton (not_paren_of_kind (by simp [ht]))
  | wildcard ht => exact encloses_singleton (not_paren_of_is ht (by decide) (by decide))
  | group hl _ hr ih => exact Encloses.group hl hr ih
  | @call t _ _ ht _ ih =>
    have ht := encloses_singleton (t := t) (not_paren_of_kind (by simp [ht]))
    exact ht.join ih.endsAt []
  | operand _ ih | factor _ ih | term _ ih | plain _ ih => exact ih
  | @product _ _ o _ _ _ _ _ ihl ihr => exact ihl.join ihr.endsAt [o]
  | @sum _ _ _ o _ _ _ _ _ _ ihl ihr => exact ihl.join ihr.endsAt [o]
  | @case t i _ _ _ ts us ht _ _ _ _ ihc =>
    have ht := encloses_singleton (not_paren_of_is ht (by decide) (by decide))
    have := ht.join ihc (ts ++ [i])
    simpa [Phrase.Encloses, Expr.span] using this
  | @clause a _ _ _ _ _ _ _ _ ihp ihe => exact ihp.join ihe.endsAt [a]
  | last _ ih => exact ih.endsAt
  | @bar c cs _ b ts us _ _ hcs _ _ ih =>
    have hlast : (c :: cs).getLast? = cs.getLast? := by
      rw [List.getLast?_cons, List.getLast?_eq_some_getLast hcs.clauses_ne_nil]
      rfl
    have := ih.prepend (ts ++ [b])
    simpa [Phrase.Encloses, hlast] using this
  | @definition k f x q _ _ ts hk _ _ _ _ ih =>
    have hk := encloses_singleton (not_paren_of_is hk (by decide) (by decide))
    exact hk.join ih.endsAt [f, x, q]
  | empty | item _ _ _ _ => trivial

namespace Node

/-- The nodes are read from a stretch, each from tokens of its own, one behind the other. -/
inductive Spread : List Node → List Token → Prop
  | nil {ts : List Token} : Spread [] ts
  | cons {n : Node} {ns : List Node} {before mine after : List Token} : n.Takes mine →
    Spread ns after → Spread (n :: ns) (before ++ (mine ++ after))

namespace Spread

variable {n : Node} {ns ms : List Node} {ts us : List Token}

theorem single (h : n.Takes ts) : Spread [n] ts := by
  simpa using @cons n [] [] ts [] h .nil

theorem prepend (before : List Token) (h : Spread ns ts) : Spread ns (before ++ ts) := by
  cases h with
  | nil => exact .nil
  | @cons n ns gap mine after hn hrest =>
    rw [← List.append_assoc]
    exact .cons hn hrest

theorem append (h : Spread ns ts) (h' : Spread ms us) : Spread (ns ++ ms) (ts ++ us) := by
  induction h with
  | nil => exact h'.prepend _
  | cons hn _ ih =>
    simp only [List.append_assoc]
    exact .cons hn ih

theorem postpend (h : Spread ns ts) (after : List Token) : Spread ns (ts ++ after) := by
  simpa using h.append (.nil : Spread [] after)

theorem exists_takes (h : Spread ns ts) (hn : n ∈ ns) :
    ∃ before mine after, ts = before ++ (mine ++ after) ∧ n.Takes mine := by
  induction h with
  | nil => cases hn
  | @cons m ns before mine after hm _ ih =>
    rcases List.mem_cons.mp hn with rfl | hn
    · exact ⟨before, mine, after, rfl, hm⟩
    · obtain ⟨b, mine', a, rfl, ht⟩ := ih hn
      exact ⟨before ++ (mine ++ b), mine', a, by simp, ht⟩

end Spread

end Node

private def Phrase.parts : Phrase → List Node
  | .atom e | .application e | .product e | .sum e | .expression e _ => (Node.expression e).children
  | .pattern _ => []
  | .clause c _ => (Node.clause c).children
  | .clauses cs => cs.map .clause
  | .definition f => (Node.definition f).children
  | .program fs => fs.map .definition

private theorem Derives.spread {ph : Phrase} {ts : List Token} (h : Derives .innermost ph ts) :
    Node.Spread ph.parts ts := by
  induction h with
  | number _ | word _ | name _ | literal _ | wildcard _ | empty => exact .nil
  | @group l r _ _ ts _ _ _ ih => exact (ih.prepend [l]).postpend [r]
  | @call t e ts _ he _ =>
    have ha : (Node.expression e).Takes ts := ⟨false, .plain (.term (.factor (.operand he)))⟩
    exact (Node.Spread.single ha).prepend [t]
  | operand _ ih | factor _ ih | term _ ih | plain _ ih => exact ih
  | @product l r o ts us hl _ hr _ _ =>
    have hl : (Node.expression l).Takes ts := ⟨false, .plain (.term hl)⟩
    have hr : (Node.expression r).Takes us := ⟨false, .plain (.term (.factor hr))⟩
    exact (Node.Spread.single hl).append ((Node.Spread.single hr).prepend [o])
  | @sum l r _ o ts us hl _ _ hr _ _ =>
    have hl : (Node.expression l).Takes ts := ⟨false, .plain hl⟩
    have hr : (Node.expression r).Takes us := ⟨false, .plain (.term hr)⟩
    exact (Node.Spread.single hl).append ((Node.Spread.single hr).prepend [o])
  | @case t i s unclosed cs ts us _ hs _ _ _ ihc =>
    have hs : (Node.expression s).Takes ts := ⟨unclosed, hs⟩
    exact ((Node.Spread.single hs).append (ihc.prepend [i])).prepend [t]
  | @clause a p e unclosed ts us hp _ he _ _ =>
    have hp : (Node.pattern p).Takes ts := hp
    have he : (Node.expression e).Takes us := ⟨unclosed, he⟩
    exact (Node.Spread.single hp).append ((Node.Spread.single he).prepend [a])
  | @last c unclosed ts hc _ =>
    have hc : (Node.clause c).Takes ts := ⟨unclosed, hc⟩
    exact .single hc
  | @bar c cs unclosed b ts us hc _ _ _ _ ih =>
    have hc : (Node.clause c).Takes ts := ⟨unclosed, hc⟩
    exact (Node.Spread.single hc).append (ih.prepend [b])
  | @definition k f x q e unclosed ts _ _ _ _ he _ =>
    have he : (Node.expression e).Takes ts := ⟨unclosed, he⟩
    exact (Node.Spread.single he).prepend [k, f, x, q]
  | @item f fs ts us hf _ _ ih =>
    have hf : (Node.definition f).Takes ts := hf
    exact (Node.Spread.single hf).append ih

theorem Derives.spread_definitions {fs : List Definition} {ts : List Token}
    (h : Derives .innermost (.program fs) ts) : Node.Spread (fs.map .definition) ts := h.spread

namespace Node

variable {n : Node} {ns : List Node} {mine ts : List Token}

theorem Takes.encloses (h : n.Takes mine) : Encloses mine n.span := by
  cases n with
  | definition f => exact Derives.encloses h
  | expression e => exact h.elim fun _ h => h.encloses
  | clause c => exact h.elim fun _ h => h.encloses
  | pattern p => exact Derives.encloses h

theorem Takes.spread (h : n.Takes mine) : Spread n.children mine := by
  cases n with
  | definition f => exact Derives.spread h
  | expression e => exact h.elim fun _ h => h.spread
  | clause c => exact h.elim fun _ h => h.spread
  | pattern p => exact .nil

/-- A span begins and ends with words of the stretch. -/
theorem Takes.exists_ends (h : n.Takes mine) :
    ∃ first ∈ words mine, ∃ last ∈ words mine, n.span = some (first.span.join last.span) := by
  obtain ⟨first, last, hfirst, hlast, hspan⟩ := h.encloses
  exact ⟨first, List.mem_of_head? hfirst, last, List.mem_of_getLast? hlast, hspan⟩

end Node

/-- Tokens that stand in order, none of them empty. -/
structure Token.Ordered (ts : List Token) : Prop where
  pos : ∀ t ∈ ts, t.span.start < t.span.stop
  apart : ts.Pairwise fun t u => t.span.stop ≤ u.span.start

namespace Token.Ordered

variable {ts us : List Token}

theorem sublist (h : Ordered ts) (hs : us.Sublist ts) : Ordered us :=
  ⟨fun t ht => h.pos t (hs.subset ht), h.apart.sublist hs⟩

/-- All tokens lie between the first and the last. -/
theorem between_ends {first last t : Token} (h : Ordered ts) (hfirst : ts.head? = some first)
    (hlast : ts.getLast? = some last) (ht : t ∈ ts) :
    first.span.start ≤ t.span.start ∧ t.span.stop ≤ last.span.stop := by
  constructor
  · obtain ⟨us, rfl⟩ := List.head?_eq_some_iff.mp hfirst
    rcases List.mem_cons.mp ht with rfl | ht
    · exact Int.le_refl _
    · have := h.pos first (by simp)
      have := List.rel_of_pairwise_cons h.apart ht
      omega
  · obtain ⟨us, rfl⟩ := List.getLast?_eq_some_iff.mp hlast
    rcases List.mem_append.mp ht with ht | ht
    · have := h.pos last (by simp)
      have := (List.pairwise_append.mp h.apart).2.2 t ht last (by simp)
      omega
    · obtain rfl := List.mem_singleton.mp ht
      exact Int.le_refl _

end Token.Ordered

namespace Node

variable {n : Node} {ns : List Node} {mine ts : List Token}

/-- Nodes lie inside the stretch over which they are spread. -/
theorem Spread.within (h : Spread ns mine) (ho : Ordered mine) (hn : Encloses mine n.span) :
    ∀ m ∈ ns, m.Within n := by
  intro m hm
  obtain ⟨before, part, after, rfl, hpart⟩ := h.exists_takes hm
  obtain ⟨a, ha, b, hb, hspan⟩ := hpart.exists_ends
  obtain ⟨first, last, hfirst, hlast, hn⟩ := hn
  have hwords := ho.sublist (words_sublist _)
  have ha := hwords.between_ends hfirst hlast (t := a) (by simp [ha])
  have hb := hwords.between_ends hfirst hlast (t := b) (by simp [hb])
  exact ⟨_, _, hspan, hn, ha.1, hb.2⟩

/-- Nodes that are spread over a stretch follow each other. -/
theorem Spread.pairwise_before (h : Spread ns ts) (ho : Ordered ts) : ns.Pairwise Before := by
  induction h with
  | nil => exact .nil
  | @cons n ns before mine after hn hrest ih =>
    have hafter : Ordered after := ho.sublist (by simp)
    refine .cons (fun m hm => ?_) (ih hafter)
    obtain ⟨gap, part, behind, rfl, hpart⟩ := hrest.exists_takes hm
    obtain ⟨_, _, b, hb, hspan⟩ := hn.exists_ends
    obtain ⟨c, hc, _, _, hspan'⟩ := hpart.exists_ends
    have hb := (words_sublist _).subset hb
    have hc := (words_sublist _).subset hc
    have hcross := (List.pairwise_append.mp (List.pairwise_append.mp ho.apart).2.1).2.2
    exact ⟨_, _, hspan, hspan', hcross b hb c (by simp [hc])⟩

end Node

namespace Program

variable {source file : String} {p : Program} {n : Node}

/-- Every node of a program is read from a stretch of the tokens from which the program is read. -/
theorem HasNode.exists_takes {ts : List Token} (h : p.HasNode n)
    (hp : Node.Spread (p.definitions.map .definition) ts) :
    ∃ before mine after, ts = before ++ (mine ++ after) ∧ n.Takes mine := by
  induction h with
  | definition hf => exact hp.exists_takes (List.mem_map_of_mem hf)
  | child _ hm ih =>
    obtain ⟨before, mine, after, rfl, hn⟩ := ih
    obtain ⟨front, part, behind, rfl, hm⟩ := hn.spread.exists_takes hm
    exact ⟨before ++ front, part, behind ++ after, by simp, hm⟩

/-- The spans of a program that is read from a text are exact. Each runs from the first to the last
word of the stretch from which its node is read and is placed in the text where it begins; children lie
inside their parents, and what stands side by side is apart and in order. -/
theorem ofSource_extents (h : ofSource source file = .ok p) :
    ∃ ts last, tokenize source file = .closed ts last ∧
      Node.Spread (p.definitions.map .definition) ts ∧
      (p.definitions.map .definition).Pairwise Node.Before ∧
      ∀ n, p.HasNode n → ∃ before mine after span,
        ts = before ++ (mine ++ after) ∧ n.Takes mine ∧ n.span = some span ∧
        Encloses mine (some span) ∧ span.Placed source.toList ∧
        0 ≤ span.start ∧ span.start < span.stop ∧ span.stop ≤ source.toList.length ∧
        Node.Spread n.children mine ∧ (∀ m ∈ n.children, m.Within n) ∧
        n.children.Pairwise Node.Before := by
  obtain ⟨fs, ts, hl, hd, hn, rfl⟩ := exists_reading h
  have hs := splits_of_layout hl
  have hordered : Ordered ts := ⟨fun t ht => (hs.inside t ht).2.1, hs.ordered⟩
  have hspread : Node.Spread ((ofDefinitions fs).definitions.map .definition) ts := by
    rw [definitions_ofDefinitions hn]
    exact hd.spread
  refine ⟨ts, _, scan_of_layout hl, hspread, hspread.pairwise_before hordered, fun n hp => ?_⟩
  obtain ⟨before, mine, after, rfl, hmine⟩ := hp.exists_takes hspread
  have hencloses := hmine.encloses
  obtain ⟨first, last, hfirst, hlast, hspan⟩ := id hencloses
  have hmem {t : Token} (ht : t ∈ words mine) : t ∈ before ++ (mine ++ after) := by
    simp [(words_sublist mine).subset ht]
  have hword := List.mem_of_head? hfirst
  have hlastWord := List.mem_of_getLast? hlast
  have ho : Ordered mine := hordered.sublist (by simp)
  have hends := (ho.sublist (words_sublist mine)).between_ends hfirst hlast hword
  have hfirstInside := hs.inside first (hmem hword)
  have hlastInside := hs.inside last (hmem hlastWord)
  refine ⟨before, mine, after, first.span.join last.span, rfl, hmine, hspan, hspan ▸ hencloses,
    hs.placed first (hmem hword), hfirstInside.1, ?_, hlastInside.2.2, hmine.spread,
    hmine.spread.within ho hencloses, hmine.spread.pairwise_before ho⟩
  exact Int.lt_of_lt_of_le hfirstInside.2.1 hends.2

/-- Parentheses around an operand, around an argument and around nothing but a word. -/
theorem ofSource_extents_grouped : ∃ p, ofSource "fun f x =\n  ((x) - 1) * f (2)" "a" = .ok p ∧
    p.definitions.map (fun f => (f.span, f.body.span)) =
      [(some ⟨"a", 0, 28, 1, 1⟩, some ⟨"a", 14, 28, 2, 5⟩)] ∧
    ∀ n, p.HasNode n → ∃ span, n.span = some span ∧
      span.Placed "fun f x =\n  ((x) - 1) * f (2)".toList ∧ (∀ m ∈ n.children, m.Within n) ∧
      n.children.Pairwise Node.Before := by
  have hspans : ((ofSource "fun f x =\n  ((x) - 1) * f (2)" "a").toOption.map fun p =>
      p.definitions.map fun f => (f.span, f.body.span)) =
      some [(some ⟨"a", 0, 28, 1, 1⟩, some ⟨"a", 14, 28, 2, 5⟩)] := by decide +kernel
  cases hp : ofSource "fun f x =\n  ((x) - 1) * f (2)" "a" with
  | error x =>
    rw [hp] at hspans
    cases hspans
  | ok p =>
    rw [hp] at hspans
    obtain ⟨_, _, _, _, _, hnodes⟩ := ofSource_extents hp
    refine ⟨p, rfl, Option.some.inj hspans, fun n hn => ?_⟩
    obtain ⟨_, _, _, span, _, _, hspan, _, hplaced, _, _, _, _, hwithin, hbefore⟩ := hnodes n hn
    exact ⟨span, hspan, hplaced, hwithin, hbefore⟩

end Program

end Casewise
