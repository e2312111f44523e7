import Casewise.Proofs.Evaluation.Congruence

/-! Clauses that no value reaches. A clause behind a wildcard, or behind a literal congruent to its own, is
shadowed: the earlier clause takes every value that it would take. Shadowed clauses can be left out of a
program, or be given any other bodies, and it does what it did. -/
namespace Casewise

/-- The first pattern matches every value that the second one matches. -/
inductive Pattern.Shadows : Pattern → Pattern → Prop
  | wildcard {span : Option Span} {q : Pattern} : Shadows (.wildcard span) q
  | literal {v w : Scalar} {s t : Option Span} : v.Congruent w → Shadows (.literal v s) (.literal w t)

def Pattern.Shadowed (earlier : List Pattern) (q : Pattern) : Prop := ∃ q' ∈ earlier, q'.Shadows q

theorem Pattern.Shadows.rejects {q q' : Pattern} {n : Int} (h : q'.Shadows q) (hn : q'.accepts n = .ok false) :
    q.accepts n = .ok false := by
  cases h with
  | wildcard => cases hn
  | literal hvw =>
    rw [accepts, ← hvw.word_eq]
    exact hn

theorem Pattern.Shadowed.rejects {earlier : List Pattern} {q : Pattern} {n : Int} (h : q.Shadowed earlier)
    (hn : ∀ q' ∈ earlier, q'.accepts n = .ok false) : q.accepts n = .ok false := by
  obtain ⟨q', hq', hshadows⟩ := h
  exact hshadows.rejects (hn q' hq')

mutual

/-- The second expression lacks some shadowed clauses of the first, at any depth, or has other bodies in
them. -/
inductive Expr.Thinned : Expr → Expr → Prop
  | int {v : Scalar} {span : Option Span} : Thinned (.int v span) (.int v span)
  | var {x : Name} {span : Option Span} : Thinned (.var x span) (.var x span)
  | binary {operator : String} {l l' r r' : Expr} {span : Option Span} : Thinned l l' → Thinned r r' →
    Thinned (.binary operator l r span) (.binary operator l' r' span)
  | call {f : Name} {b b' : Expr} {span : Option Span} : Thinned b b' →
    Thinned (.call f b span) (.call f b' span)
  | case {s s' : Expr} {cs cs' : List (Clause Expr)} {span : Option Span} : Thinned s s' →
    ThinnedClauses [] cs cs' → Thinned (.case s cs span) (.case s' cs' span)
  | foreign {o : Outline} : Thinned (.foreign o) (.foreign o)

/-- The same for the clauses behind those with the given patterns. -/
inductive Expr.ThinnedClauses : List Pattern → List (Clause Expr) → List (Clause Expr) → Prop
  | nil {earlier : List Pattern} : ThinnedClauses earlier [] []
  | kept {earlier : List Pattern} {c : Clause Expr} {b : Expr} {cs ds : List (Clause Expr)} :
    Thinned c.body b → ThinnedClauses (c.pattern :: earlier) cs ds →
    ThinnedClauses earlier (c :: cs) ({ c with body := b } :: ds)
  | deleted {earlier : List Pattern} {c : Clause Expr} {cs ds : List (Clause Expr)} :
    c.pattern.Shadowed earlier → ThinnedClauses (c.pattern :: earlier) cs ds →
    ThinnedClauses earlier (c :: cs) ds
  | replaced {earlier : List Pattern} {c : Clause Expr} {b : Expr} {cs ds : List (Clause Expr)} :
    c.pattern.Shadowed earlier → ThinnedClauses (c.pattern :: earlier) cs ds →
    ThinnedClauses earlier (c :: cs) ({ c with body := b } :: ds)

end

theorem Clause.select_cons (n : Int) (c : Clause Expr) (cs : List (Clause Expr)) : select n (c :: cs) =
    match c.pattern.accepts n with
    | .ok true => .ok (some c)
    | .ok false => select n cs
    | .error m => .error m := by
  rw [select]
  rcases c.pattern.accepts n with m | _ | _ <;> rfl

namespace Expr

variable {earlier : List Pattern} {cs ds : List (Clause Expr)} {n : Int}

/-- A value that none of the earlier clauses takes selects the same clause but for its body, or none. -/
theorem ThinnedClauses.select (h : ThinnedClauses earlier cs ds)
    (hn : ∀ q ∈ earlier, q.accepts n = .ok false) :
    (Clause.select n cs).map Option.isSome = (Clause.select n ds).map Option.isSome ∧
      ∀ c d, Clause.select n cs = .ok (some c) → Clause.select n ds = .ok (some d) →
        c.body.Thinned d.body := by
  induction cs generalizing earlier ds with
  | nil =>
    cases h
    refine ⟨rfl, fun c d hc => ?_⟩
    cases hc
  | cons c cs ih =>
    have hnext (hc : c.pattern.accepts n = .ok false) : ∀ q ∈ c.pattern :: earlier, q.accepts n = .ok false :=
      List.forall_mem_cons.mpr ⟨hc, hn⟩
    rw [Clause.select_cons]
    cases h with
    | kept hbody hcs =>
      rw [Clause.select_cons]
      rcases hc : c.pattern.accepts n with m | _ | _
      · refine ⟨rfl, fun c' d' hc' => ?_⟩
        cases hc'
      · exact ih hcs (hnext hc)
      · refine ⟨rfl, fun c' d' hc' hd' => ?_⟩
        cases hc'
        cases hd'
        exact hbody
    | deleted hshadowed hcs =>
      -- the value falls through the clause that is missing on the other side
      have hc := hshadowed.rejects hn
      rw [hc]
      exact ih hcs (hnext hc)
    | replaced hshadowed hcs =>
      have hc := hshadowed.rejects hn
      rw [Clause.select_cons, hc]
      exact ih hcs (hnext hc)

theorem Thinned.corresponds {e e' : Expr} (h : e.Thinned e') (x : Name) :
    e.Corresponds Set.univ True x x e' := by
  induction e generalizing e' with
  | int v span =>
    cases h
    exact .int rfl
  | var y span =>
    cases h
    by_cases hy : y = x
    · rw [hy]
      exact .bound
    · exact .unbound hy hy fun _ => rfl
  | binary operator l r span ihl ihr =>
    cases h with
    | binary hl hr => exact .binary (ihl hl) (ihr hr)
  | call f b span ih =>
    cases h with
    | call hb => exact .call trivial (fun _ => rfl) (ih hb)
  | case s cs span ihs ihcs =>
    cases h with
    | case hs hcs =>
      have hselect (n : Int) := hcs.select (n := n) (by simp)
      refine .case (fun _ => rfl) (ihs hs) (fun n => (hselect n).1) fun n c d hc hd => ?_
      exact ihcs c (Clause.mem_of_select hc) ((hselect n).2 c d hc hd)
  | foreign o =>
    cases h
    exact .foreign

end Expr

structure Definition.Thinned (f g : Definition) : Prop where
  name : f.name = g.name
  param : f.param = g.param
  body : f.body.Thinned g.body
  span : f.span = g.span

namespace Program

def Thinned (p q : Program) : Prop := List.Forall₂ (fun e d => e.1 = d.1 ∧ e.2.Thinned d.2) p.entries q.entries

variable {p q : Program}

theorem Thinned.corresponds (h : p.Thinned q) : p.Corresponds Set.univ True q := by
  refine corresponds_of_forall₂ (h.imp ?_)
  rintro e d ⟨hkey, hname, hparam, hbody, hspan⟩
  refine ⟨hkey, hname, ?_, fun _ => hspan⟩
  rw [← hparam]
  exact hbody.corresponds e.2.param

/-- Programs that differ in shadowed clauses only run alike on any stack. Their bodies may be nested differently,
so on the stacks that they ask for they run alike if these can be had. -/
theorem evaluate_thinned (h : p.Thinned q) (f : Name) (a limit : Int) :
    (p.evaluate f [.int a] limit).outcome = (q.evaluate f [.int a] limit).outcome ∧
    Call.log (p.evaluate f [.int a] limit).calls = Call.log (q.evaluate f [.int a] limit).calls ∧
    (∀ stack, p.evaluateOn stack f [.int a] limit = q.evaluateOn stack f [.int a] limit) ∧
    (∀ runtime : Runtime, 1 ≤ limit → runtime.Affords p limit → runtime.Affords q limit →
      p.execute runtime f [.int a] limit = q.execute runtime f [.int a] limit) := by
  have hstacks (stack : Stack) :
      p.evaluateOn stack f [.int a] limit = q.evaluateOn stack f [.int a] limit :=
    (h.corresponds.evaluateOn_agrees trivial stack [.int a] limit).eq
  have heq : p.evaluate f [.int a] limit = q.evaluate f [.int a] limit := hstacks .endless
  refine ⟨by rw [heq], by rw [heq], hstacks, fun runtime hlimit hp hq => ?_⟩
  rw [execute_eq_evaluate hp f a hlimit, execute_eq_evaluate hq f a hlimit, heq]

/-- A function that counts down to 0. In the first program it has a clause for `2 ^ 64` behind that for 0, and
a clause behind a wildcard inside an argument; the second one lacks the former, and has a body in the latter
that is nested more deeply. -/
theorem evaluate_thinned_countdown :
    let x : Expr := .var (.text "x") none
    let n (k : Int) : Expr := .int (.int k) none
    let unknown : Expr := .call (.text "none") (.var (.text "y") none) none
    let zero : Clause Expr := ⟨.literal (.int 0) none, n 7, none⟩
    let again : Clause Expr := ⟨.literal (.int 18446744073709551616) none, unknown, none⟩
    let less (late : Expr) : Expr := .case (n 5)
      [⟨.wildcard none, .binary "-" x (n 1) none, none⟩, ⟨.literal (.int 5) none, late, none⟩] none
    let other (late : Expr) : Clause Expr := ⟨.wildcard none, .call (.text "f") (less late) none, none⟩
    let deep : Expr := .call (.text "f") (.binary "*" unknown unknown none) none
    let p := ofDefinitions [⟨.text "f", .text "x", .case x [zero, again, other unknown] none, none⟩]
    let q := ofDefinitions [⟨.text "f", .text "x", .case x [zero, other deep] none, none⟩]
    let runtime : Runtime := ⟨1000, 10, by decide, by decide⟩
    p.Thinned q ∧ p.nesting < q.nesting ∧ (p.evaluate (.text "f") [.int 2] 3).outcome = .ok 7 ∧
      (p.evaluate (.text "f") [.int 2] 2).outcome = (q.evaluate (.text "f") [.int 2] 2).outcome ∧
      p.execute runtime (.text "f") [.int 2] 3 = q.execute runtime (.text "f") [.int 2] 3 := by
  intro x n unknown zero again less other deep p q runtime
  have hshadowed : again.pattern.Shadowed [zero.pattern] :=
    ⟨zero.pattern, by simp, .literal (Or.inr ⟨0, 18446744073709551616, rfl, rfl, by decide⟩)⟩
  have hless : (less unknown).Thinned (less deep) := by
    refine .case .int (.kept (.binary .var .int) (.replaced ?_ .nil))
    exact ⟨.wildcard none, by simp, .wildcard⟩
  have hpq : p.Thinned q := by
    refine .cons ⟨rfl, rfl, rfl, ?_, rfl⟩ .nil
    exact .case .var (.kept .int (.deleted hshadowed (.kept (.call hless) .nil)))
  obtain ⟨_, _, hstacks, hexecute⟩ := evaluate_thinned hpq (.text "f") 2 3
  refine ⟨hpq, by decide, ?_, (evaluate_thinned hpq (.text "f") 2 2).1, ?_⟩
  · rw [evaluate, hstacks .endless]
    rfl
  · exact hexecute runtime (by decide) ⟨by decide, by decide, by decide⟩ ⟨by decide, by decide, by decide⟩

end Program

end Casewise
