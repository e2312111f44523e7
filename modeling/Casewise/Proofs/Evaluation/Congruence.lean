import Casewise.Proofs.Evaluation.Correspondence
import Casewise.Proofs.Evaluation.Words

/-! Integers count up to multiples of the number of words. Programs whose literals are congruent do the same
to arguments that are. -/
namespace Casewise

namespace Word

theorem wrap_eq_of_emod_eq {m n : Int} (h : m % modulus = n % modulus) : wrap m = wrap n :=
  Represents.eq_wrap ⟨isWord_wrap m, Int.bmod_emod.trans h⟩

end Word

/-- The values are equal, or they count as integers that differ by a multiple of the number of words. -/
def Scalar.Congruent (v w : Scalar) : Prop :=
  v = w ∨ ∃ m n, v.number? = some m ∧ w.number? = some n ∧ m % Word.modulus = n % Word.modulus

theorem Scalar.Congruent.word_eq {v w : Scalar} (h : v.Congruent w) : v.word = w.word := by
  rcases h with rfl | ⟨m, n, hv, hw, hmod⟩
  · rfl
  · have hwrap : Word.wrap m = Word.wrap n := Word.wrap_eq_of_emod_eq hmod
    unfold word
    rw [hv, hw]
    exact congrArg Except.ok hwrap

inductive Pattern.Congruent : Pattern → Pattern → Prop
  | literal {v w : Scalar} {span : Option Span} : v.Congruent w →
    Congruent (.literal v span) (.literal w span)
  | refl (q : Pattern) : Congruent q q

theorem Pattern.Congruent.accepts_eq {q q' : Pattern} (h : q.Congruent q') (n : Int) :
    q.accepts n = q'.accepts n := by
  cases h with
  | literal hv => rw [accepts, accepts, hv.word_eq]
  | refl => rfl

inductive Expr.Congruent : Expr → Expr → Prop
  | int {v w : Scalar} {span : Option Span} : v.Congruent w → Congruent (.int v span) (.int w span)
  | var {x : Name} {span : Option Span} : Congruent (.var x span) (.var x span)
  | binary {operator : String} {l l' r r' : Expr} {span : Option Span} : Congruent l l' →
    Congruent r r' → Congruent (.binary operator l r span) (.binary operator l' r' span)
  | call {f : Name} {b b' : Expr} {span : Option Span} : Congruent b b' →
    Congruent (.call f b span) (.call f b' span)
  | case {s s' : Expr} {cs cs' : List (Clause Expr)} {span : Option Span} : Congruent s s' →
    List.Forall₂ (fun c c' => c.pattern.Congruent c'.pattern ∧ c.span = c'.span) cs cs' →
    (∀ c ∈ cs.zip cs', Congruent c.1.body c.2.body) → Congruent (.case s cs span) (.case s' cs' span)
  | foreign {o : Outline} : Congruent (.foreign o) (.foreign o)

namespace Expr.Congruent

variable {e e' : Expr} {cs cs' : List (Clause Expr)}

theorem forall₂_bodies {R : Expr → Expr → Prop}
    (hcs : List.Forall₂ (fun c c' => c.pattern.Congruent c'.pattern ∧ c.span = c'.span) cs cs')
    (hbodies : ∀ c ∈ cs.zip cs', R c.1.body c.2.body) :
    List.Forall₂ (fun c c' => (∀ n, c.pattern.accepts n = c'.pattern.accepts n) ∧ R c.body c'.body) cs cs' := by
  obtain ⟨hlength, hzip⟩ := List.forall₂_iff_zip.mp hcs
  refine List.forall₂_iff_zip.mpr ⟨hlength, fun {c c'} hc => ⟨fun n => ?_, hbodies _ hc⟩⟩
  exact (hzip hc).1.accepts_eq n

theorem corresponds (h : e.Congruent e') (x : Name) : e.Corresponds Set.univ True x x e' := by
  induction h with
  | int hv => exact .int hv.word_eq
  | @var y _ =>
    by_cases hy : y = x
    · rw [hy]
      exact .bound
    · exact .unbound hy hy fun _ => rfl
  | binary _ _ ihl ihr => exact .binary ihl ihr
  | call _ ih => exact .call trivial (fun _ => rfl) ih
  | case _ hcs _ ihs ihbodies =>
    exact .case_of_forall₂ (fun _ => rfl) ihs (forall₂_bodies hcs ihbodies)
  | foreign => exact .foreign

theorem sameShape (h : e.Congruent e') : e.SameShape e' := by
  induction h with
  | int => exact .int
  | var => exact .var
  | binary _ _ ihl ihr => exact .binary ihl ihr
  | call _ ih => exact .call ih
  | case _ hcs _ ihs ihbodies => exact .case ihs hcs.length_eq ihbodies
  | foreign => exact .foreign

end Expr.Congruent

structure Definition.Congruent (f g : Definition) : Prop where
  name : f.name = g.name
  param : f.param = g.param
  body : f.body.Congruent g.body
  span : f.span = g.span

namespace Program

def Congruent (p q : Program) : Prop :=
  List.Forall₂ (fun e d => e.1 = d.1 ∧ e.2.Congruent d.2) p.entries q.entries

namespace Congruent

variable {p q : Program} {a b limit : Int}

theorem corresponds (hpq : p.Congruent q) : p.Corresponds Set.univ True q := by
  refine corresponds_of_forall₂ (hpq.imp ?_)
  rintro e d ⟨hkey, hname, hparam, hbody, hspan⟩
  refine ⟨hkey, hname, ?_, fun _ => hspan⟩
  rw [← hparam]
  exact hbody.corresponds e.2.param

theorem sameShape (hpq : p.Congruent q) : p.SameShape q := hpq.imp fun _ _ hed => hed.2.body.sameShape

/-- An argument is reduced to a word before anything is done with it. -/
theorem evaluateOn_eq_of_emod_eq (hab : a % Word.modulus = b % Word.modulus) (stack : Stack) (f : Name)
    (limit : Int) : q.evaluateOn stack f [.int a] limit = q.evaluateOn stack f [.int b] limit := by
  unfold evaluateOn
  rw [entry_int, entry_int, Word.wrap_eq_of_emod_eq hab]

theorem evaluateOn_eq (hpq : p.Congruent q) (hab : a % Word.modulus = b % Word.modulus) (stack : Stack)
    (f : Name) (limit : Int) :
    p.evaluateOn stack f [.int a] limit = q.evaluateOn stack f [.int b] limit :=
  (hpq.corresponds.evaluateOn_agrees trivial stack [.int a] limit).eq.trans
    (evaluateOn_eq_of_emod_eq hab stack f limit)

theorem execute_eq_of_emod_eq (hab : a % Word.modulus = b % Word.modulus) (runtime : Runtime) (f : Name)
    (limit : Int) : q.execute runtime f [.int a] limit = q.execute runtime f [.int b] limit := by
  unfold execute executeIn
  simp only [entry_int, Word.wrap_eq_of_emod_eq hab, evaluateOn_eq_of_emod_eq hab]

theorem execute_eq (hpq : p.Congruent q) (hab : a % Word.modulus = b % Word.modulus) (runtime : Runtime)
    (f : Name) (limit : Int) : p.execute runtime f [.int a] limit = q.execute runtime f [.int b] limit :=
  (hpq.corresponds.execute_agrees hpq.sameShape trivial runtime [.int a] limit).eq.trans
    (execute_eq_of_emod_eq hab runtime f limit)

end Congruent

variable {p q : Program} {a b : Int}

/-- Integers only matter up to multiples of the number of words. What is passed, returned, logged or reported, and
what is kept at any moment of an evaluation, are words, and congruent arguments and literals lead to one run. -/
theorem execute_congruent (hpq : p.Congruent q) (hab : a % Word.modulus = b % Word.modulus)
    (runtime : Runtime) (f : Name) (limit : Int) :
    (∀ stack, (p.evaluateOn stack f [.int a] limit).InWords) ∧
    (∃ record : List Call.Line, (∀ l ∈ record, l.InWords) ∧
      Call.log (p.execute runtime f [.int a] limit).calls = record.map ("interpreter: " ++ ·.text)) ∧
    (∀ g m, p.find? f = some g → p.Passes limit.toNat (.entry g a) m → m.InWords) ∧
    (∀ stack, p.evaluateOn stack f [.int a] limit = q.evaluateOn stack f [.int b] limit) ∧
    (p.execute runtime f [.int a] limit).outcome = (q.execute runtime f [.int b] limit).outcome ∧
    Call.log (p.execute runtime f [.int a] limit).calls = Call.log (q.execute runtime f [.int b] limit).calls := by
  have hwords (stack : Stack) : (p.evaluateOn stack f [.int a] limit).InWords :=
    p.evaluateOn_inWords stack f a limit
  have hexecute : (p.execute runtime f [.int a] limit).InWords := by
    rcases p.execute_eq_evaluateOn_or_misuse runtime f [.int a] limit with ⟨stack, heq⟩ | ⟨m, heq⟩ <;> rw [heq]
    · exact hwords stack
    · exact Run.inWords_fault (Fault.inWords_misuse m)
  have hlog : Call.log (p.execute runtime f [.int a] limit).calls =
      (Call.recordOf 0 (p.execute runtime f [.int a] limit).calls).map ("interpreter: " ++ ·.text) := by
    rw [Call.log, ← Call.map_text_recordOf, List.map_map]
    rfl
  have hruns := hpq.execute_eq hab runtime f limit
  refine ⟨hwords, ⟨_, hexecute.record 0, hlog⟩, fun g m _ hm => hm.inWords,
    fun stack => hpq.evaluateOn_eq hab stack f limit, ?_, ?_⟩
  · rw [hruns]
  · rw [hruns]

/-- Literals out of range that meet a pattern and a call: `fun f x = case x in n => n | _ => f (n)` with
`2 ^ 64` for `n`, and with `0`, on the arguments `2 ^ 64 + 7` and `7`. -/
theorem execute_congruent_wrapped :
    let n : Int := 18446744073709551616
    let x : Expr := .var (.text "x") none
    let body (k : Int) : Expr := .case x [⟨.literal (.int k) none, .int (.int k) none, none⟩,
      ⟨.wildcard none, .call (.text "f") (.int (.int k) none) none, none⟩] none
    let p := ofDefinitions [⟨.text "f", .text "x", body n, none⟩]
    let q := ofDefinitions [⟨.text "f", .text "x", body 0, none⟩]
    let runtime : Runtime := ⟨1000, 10, by decide, by decide⟩
    p.Congruent q ∧ (n + 7) % Word.modulus = 7 % Word.modulus ∧
      (p.evaluate (.text "f") [.int (n + 7)] 2).outcome = .ok 0 ∧
      Call.log (p.execute runtime (.text "f") [.int (n + 7)] 2).calls =
        Call.log (q.execute runtime (.text "f") [.int 7] 2).calls := by
  intro n x body p q runtime
  have hliteral : (Scalar.int n).Congruent (.int 0) := Or.inr ⟨n, 0, rfl, rfl, by decide⟩
  have hbody : (body n).Congruent (body 0) := by
    refine .case .var ?_ ?_
    · exact .cons ⟨.literal hliteral, rfl⟩ (.cons ⟨.refl _, rfl⟩ .nil)
    · simp only [List.zip_cons_cons, List.zip_nil_left, List.forall_mem_cons]
      exact ⟨.int hliteral, .call (.int hliteral), by simp⟩
  have hpq : p.Congruent q := .cons ⟨rfl, rfl, rfl, hbody, rfl⟩ .nil
  obtain ⟨_, _, _, hstacks, _, hlog⟩ :=
    execute_congruent hpq (by decide : (n + 7) % Word.modulus = 7 % Word.modulus) runtime (.text "f") 2
  refine ⟨hpq, by decide, ?_, hlog⟩
  rw [evaluate, hstacks .endless]
  rfl

end Program

end Casewise
