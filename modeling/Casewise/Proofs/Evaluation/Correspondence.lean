import Mathlib.Data.Set.Defs
import Casewise.Proofs.Evaluation.Blocks
import Casewise.Proofs.Evaluation.Runtime
import Casewise.Proofs.Expr.Parts
import Casewise.Proofs.Expr.Shape

/-! Programs that correspond run alike. Two functions correspond if their bodies differ in no more than the
name of the parameter, the spelling of literals, clauses that are never selected, and places where no error
arises. If places do not count, all spans may differ, and the errors agree but for theirs. Only the functions
under a set of keys that calls do not lead out of have to correspond. -/
namespace Casewise

/-- The faults are equal, but for the place of an error if places do not count. -/
inductive Fault.Agrees (placed : Prop) : Fault → Fault → Prop
  | error {cause : Error.Cause} {s t : Option Span} : (placed → s = t) →
    Agrees placed (.of cause s) (.of cause t)
  | misuse {m : Misuse} : Agrees placed (.misuse m) (.misuse m)

/-- Both runs make the same calls, and they end in one value or in faults that agree. -/
inductive Run.Agrees (placed : Prop) : Run Int → Run Int → Prop
  | value {calls : List Call} {n : Int} : Agrees placed ⟨calls, .ok n⟩ ⟨calls, .ok n⟩
  | fault {calls : List Call} {f g : Fault} : f.Agrees placed g →
    Agrees placed ⟨calls, .error f⟩ ⟨calls, .error g⟩

variable {placed : Prop}

theorem Fault.Agrees.eq {f g : Fault} (h : f.Agrees True g) : f = g := by
  cases h with
  | error hspan => rw [hspan trivial]
  | misuse => rfl

namespace Run

variable {r r' : Run Int} {next next' : Int → Run Int} {cause : Error.Cause} {s t : Option Span}

theorem Agrees.eq (h : r.Agrees True r') : r = r' := by
  cases h with
  | value => rfl
  | fault hf => rw [hf.eq]

theorem Agrees.calls_eq (h : r.Agrees placed r') : r.calls = r'.calls := by
  cases h <;> rfl

theorem agrees_error (hspan : placed → s = t) :
    (fault (.of cause s)).Agrees placed (fault (.of cause t)) :=
  .fault (.error hspan)

theorem agrees_misuse (m : Misuse) : (fault (.misuse m)).Agrees placed (fault (.misuse m)) :=
  .fault .misuse

theorem Agrees.after (h : r.Agrees placed r') (calls : List Call) :
    Agrees placed ⟨calls ++ r.calls, r.outcome⟩ ⟨calls ++ r'.calls, r'.outcome⟩ := by
  cases h with
  | value => exact .value
  | fault hf => exact .fault hf

theorem Agrees.bind (h : r.Agrees placed r') (hnext : ∀ n, (next n).Agrees placed (next' n)) :
    (r >>= next).Agrees placed (r' >>= next') := by
  cases h with
  | value => exact (hnext _).after _
  | fault hf => exact .fault hf

theorem Agrees.enter (h : r.Agrees placed r') (f : Name) (n : Int) :
    (Run.enter f n r).Agrees placed (Run.enter f n r') := by
  cases h with
  | value => exact .value
  | fault hf => exact .fault hf

end Run

theorem Activation.push_agrees {a b : Activation} (hexhausted : a.exhausted.Agrees placed b.exhausted)
    {k : Nat} {stack : Stack} {next next' : Stack → Run Int}
    (hnext : ∀ rest, (next rest).Agrees placed (next' rest)) :
    (a.push k stack next).Agrees placed (b.push k stack next') := by
  unfold push
  cases stack.take? k with
  | some rest => exact hnext rest
  | none => exact .fault hexhausted

/-- Clauses of which none is selected, or one each from both lists, or whose patterns are misused alike. -/
theorem Clause.select_cases {n : Int} {cs ds : List (Clause Expr)}
    (h : (select n cs).map Option.isSome = (select n ds).map Option.isSome) :
    (∃ m, select n cs = .error m ∧ select n ds = .error m) ∨
      (select n cs = .ok none ∧ select n ds = .ok none) ∨
      ∃ c d, select n cs = .ok (some c) ∧ select n ds = .ok (some d) := by
  rcases hcs : select n cs with m | _ | c <;> rcases hds : select n ds with m' | _ | d <;>
    simp_all [Except.map]

theorem Clause.select_of_forall₂ {R : Expr → Expr → Prop} {cs ds : List (Clause Expr)}
    (h : List.Forall₂ (fun c d => (∀ n, c.pattern.accepts n = d.pattern.accepts n) ∧ R c.body d.body) cs ds)
    (n : Int) : (select n cs).map Option.isSome = (select n ds).map Option.isSome ∧
      ∀ c d, select n cs = .ok (some c) → select n ds = .ok (some d) → R c.body d.body := by
  induction h with
  | nil =>
    refine ⟨rfl, fun c d hc => ?_⟩
    cases hc
  | @cons c d cs ds hcd _ ih =>
    rw [select, select, ← hcd.1 n]
    cases c.pattern.accepts n with
    | error m =>
      refine ⟨rfl, fun c d hc => ?_⟩
      cases hc
    | ok accepted =>
      cases accepted with
      | false => exact ih
      | true =>
        refine ⟨rfl, fun c' d' hc hd => ?_⟩
        cases hc
        cases hd
        exact hcd.2

/-- What an expression with one parameter and an expression with another have in common. The first of the
names is the parameter of the first expression. Calls stay in the set of keys. -/
inductive Expr.Corresponds (keys : Set Name) (placed : Prop) (x y : Name) : Expr → Expr → Prop
  | int {v w : Scalar} {s t : Option Span} : v.word = w.word →
    Corresponds keys placed x y (.int v s) (.int w t)
  | bound {s t : Option Span} : Corresponds keys placed x y (.var x s) (.var y t)
  | unbound {z : Name} {s t : Option Span} : z ≠ x → z ≠ y → (placed → s = t) →
    Corresponds keys placed x y (.var z s) (.var z t)
  | binary {operator : String} {l l' r r' : Expr} {s t : Option Span} :
    Corresponds keys placed x y l l' → Corresponds keys placed x y r r' →
    Corresponds keys placed x y (.binary operator l r s) (.binary operator l' r' t)
  | call {f : Name} {b b' : Expr} {s t : Option Span} : f ∈ keys → (placed → s = t) →
    Corresponds keys placed x y b b' → Corresponds keys placed x y (.call f b s) (.call f b' t)
  | case {e e' : Expr} {cs ds : List (Clause Expr)} {s t : Option Span} : (placed → s = t) →
    Corresponds keys placed x y e e' →
    (∀ n, (Clause.select n cs).map Option.isSome = (Clause.select n ds).map Option.isSome) →
    (∀ n c d, Clause.select n cs = .ok (some c) → Clause.select n ds = .ok (some d) →
      Corresponds keys placed x y c.body d.body) →
    Corresponds keys placed x y (.case e cs s) (.case e' ds t)
  | foreign {o : Outline} : Corresponds keys placed x y (.foreign o) (.foreign o)

variable {keys : Set Name} {x y : Name} {e e' : Expr}

theorem Expr.Corresponds.case_of_forall₂ {cs ds : List (Clause Expr)} {s t : Option Span}
    (hspan : placed → s = t) (he : e.Corresponds keys placed x y e')
    (hcs : List.Forall₂ (fun c d => (∀ n, c.pattern.accepts n = d.pattern.accepts n) ∧
      c.body.Corresponds keys placed x y d.body) cs ds) :
    Corresponds keys placed x y (.case e cs s) (.case e' ds t) :=
  .case hspan he (fun n => (Clause.select_of_forall₂ hcs n).1)
    fun n => (Clause.select_of_forall₂ hcs n).2

theorem Expr.corresponds_self (x : Name)
    (hcalls : ∀ f b span, .call f b span ∈ e.parts → f ∈ keys) : e.Corresponds keys placed x x e := by
  induction e with
  | int v span => exact .int rfl
  | var y span =>
    by_cases hy : y = x
    · rw [hy]
      exact .bound
    · exact .unbound hy hy fun _ => rfl
  | binary operator l r span ihl ihr =>
    exact .binary (ihl fun f b s hf => hcalls f b s (left_parts_subset hf))
      (ihr fun f b s hf => hcalls f b s (right_parts_subset hf))
  | call g c span ih =>
    exact .call (hcalls g c span (self_mem_parts _)) (fun _ => rfl)
      (ih fun f b s hf => hcalls f b s (argument_parts_subset hf))
  | case e cs span ihe ihcs =>
    refine .case (fun _ => rfl) (ihe fun f b s hf => hcalls f b s (scrutinee_parts_subset hf))
      (fun _ => rfl) fun n c d hc hd => ?_
    cases hc.symm.trans hd
    have hmem : c ∈ cs := Clause.mem_of_select hc
    exact ihcs c hmem fun f b s hf => hcalls f b s (body_parts_subset hmem hf)
  | foreign o => exact .foreign

/-- Expressions that correspond run alike where their parameters are bound to one value, if the calls that
they make do. -/
theorem Expr.Corresponds.eval_agrees {a b : Activation} (h : e.Corresponds keys placed a.param b.param e')
    (hbound : a.bound = b.bound) (hexhausted : a.exhausted.Agrees placed b.exhausted)
    (hinvoke : ∀ stack f n s t, f ∈ keys → (placed → s = t) →
      (a.invoke stack f n s).Agrees placed (b.invoke stack f n t)) (stack : Stack) :
    (e.eval a stack).Agrees placed (e'.eval b stack) := by
  induction h generalizing stack with
  | @int v w s t hword =>
    rw [eval, eval]
    refine Activation.push_agrees hexhausted fun rest => ?_
    rw [hword]
    cases w.word with
    | ok n => exact .value
    | error m => exact Run.agrees_misuse m
  | bound =>
    rw [eval, eval]
    refine Activation.push_agrees hexhausted fun rest => ?_
    rw [if_pos rfl, if_pos rfl, hbound]
    exact .value
  | unbound hx hy hspan =>
    rw [eval, eval]
    refine Activation.push_agrees hexhausted fun rest => ?_
    rw [if_neg hx, if_neg hy]
    exact Run.agrees_error hspan
  | @binary operator _ _ _ _ _ _ _ _ ihl ihr =>
    rw [eval, eval]
    refine Activation.push_agrees hexhausted fun rest => ?_
    refine (ihl rest).bind fun m => (ihr rest).bind fun n => ?_
    cases Word.operation? operator with
    | some f => exact .value
    | none => exact Run.agrees_misuse _
  | call hf hspan _ ih =>
    rw [eval, eval]
    refine Activation.push_agrees hexhausted fun rest => ?_
    refine (ih rest).bind fun n => Activation.push_agrees hexhausted fun inner => ?_
    exact hinvoke inner _ n _ _ hf hspan
  | case hspan _ hselects _ ihe ihb =>
    rw [eval, eval]
    refine Activation.push_agrees hexhausted fun rest => ?_
    refine (ihe rest).bind fun n => ?_
    rw [evalFirst_eq_select, evalFirst_eq_select]
    rcases Clause.select_cases (hselects n) with ⟨m, hc, hd⟩ | ⟨hc, hd⟩ | ⟨c, d, hc, hd⟩ <;> rw [hc, hd]
    · exact Run.agrees_misuse m
    · exact Run.agrees_error hspan
    · exact ihb n c d hc hd rest
  | foreign =>
    rw [eval, eval]
    exact Activation.push_agrees hexhausted fun rest => Run.agrees_misuse _

structure Definition.Corresponds (keys : Set Name) (placed : Prop) (g h : Definition) : Prop where
  name : g.name = h.name
  body : g.body.Corresponds keys placed g.param h.param h.body
  span : placed → g.span = h.span

namespace Program

/-- Under each of the keys both programs have functions that correspond, or none. -/
def Corresponds (keys : Set Name) (placed : Prop) (p q : Program) : Prop :=
  ∀ f ∈ keys, (p.find? f = none ∧ q.find? f = none) ∨
    ∃ g h, p.find? f = some g ∧ q.find? f = some h ∧ g.Corresponds keys placed h

/-- It is enough that entry by entry the keys are equal and the functions correspond. -/
theorem corresponds_of_forall₂ {p q : Program}
    (h : List.Forall₂ (fun e d => e.1 = d.1 ∧ e.2.Corresponds keys placed d.2) p.entries q.entries) :
    p.Corresponds keys placed q :=
  fun f _ => find?_of_forall₂ h f

namespace Corresponds

variable {p q : Program} {f : Name} {g h : Definition} {s t : Option Span}

theorem apply_agrees (hpq : p.Corresponds keys placed q) (limit : Int) (room : Nat) (stack : Stack)
    (hgh : g.Corresponds keys placed h) (n : Int) (hspan : placed → s = t) :
    (p.apply limit room stack g n s).Agrees placed (q.apply limit room stack h n t) := by
  -- the calls of a body have one call less room
  induction room generalizing stack g h n s t with
  | zero => exact Run.agrees_error hspan
  | succ room ih =>
    rw [apply_succ, apply_succ, hgh.name]
    refine Run.Agrees.enter ?_ h.name n
    refine hgh.body.eval_agrees (a := p.activation limit room g n s) (b := q.activation limit room h n t)
      rfl (.error fun hplaced => by rw [hspan hplaced, hgh.span hplaced]) ?_ stack
    intro stack f m s t hf hspan
    change (p.invoker limit room stack f m s).Agrees placed (q.invoker limit room stack f m t)
    unfold invoker
    rcases hpq f hf with ⟨hp, hq⟩ | ⟨g, h, hp, hq, hgh⟩ <;> rw [hp, hq]
    · exact Run.agrees_error hspan
    · exact ih stack hgh m hspan

theorem entry_agrees (hpq : p.Corresponds keys placed q) (hf : f ∈ keys) (arguments : List Argument) :
    (∃ fault fault', p.entry f arguments = .error fault ∧ q.entry f arguments = .error fault' ∧
      fault.Agrees placed fault') ∨
    ∃ g h n, p.entry f arguments = .ok (g, n) ∧ q.entry f arguments = .ok (h, n) ∧
      g.Corresponds keys placed h := by
  unfold entry
  cases arguments.mapM Argument.number with
  | error m => exact Or.inl ⟨_, _, rfl, rfl, .misuse⟩
  | ok values =>
    rcases hpq f hf with ⟨hp, hq⟩ | ⟨g, h, hp, hq, hgh⟩ <;> rw [hp, hq]
    · exact Or.inl ⟨_, _, rfl, rfl, .error fun _ => rfl⟩
    · rcases values with _ | ⟨n, _ | ⟨m, values⟩⟩
      · exact Or.inl ⟨_, _, rfl, rfl, .error hgh.span⟩
      · exact Or.inr ⟨g, h, _, rfl, rfl, hgh⟩
      · exact Or.inl ⟨_, _, rfl, rfl, .error hgh.span⟩

/-- Programs that correspond run alike, whatever a function of both is applied to. -/
theorem evaluateOn_agrees (hpq : p.Corresponds keys placed q) (hf : f ∈ keys) (stack : Stack)
    (arguments : List Argument) (limit : Int) :
    (p.evaluateOn stack f arguments limit).Agrees placed (q.evaluateOn stack f arguments limit) := by
  unfold evaluateOn
  rcases hpq.entry_agrees hf arguments with ⟨fault, fault', hp, hq, hagrees⟩ | ⟨g, h, n, hp, hq, hgh⟩ <;>
    rw [hp, hq]
  · exact .fault hagrees
  · dsimp only
    cases stack.take? Expr.callFrames with
    | some rest => exact hpq.apply_agrees limit _ rest hgh _ fun _ => rfl
    | none => exact Run.agrees_error hgh.span

/-- If their bodies are put together alike, they also ask for the same stack. -/
theorem execute_agrees (hpq : p.Corresponds keys placed q) (hshape : p.SameShape q) (hf : f ∈ keys)
    (runtime : Runtime) (arguments : List Argument) (limit : Int) :
    (p.execute runtime f arguments limit).Agrees placed (q.execute runtime f arguments limit) := by
  have hrefusal : runtime.refusal? p limit = runtime.refusal? q limit := by
    unfold Runtime.refusal?
    rw [hshape.nestingFrames_eq, hshape.framesNeeded_eq]
  cases hnone : runtime.refusal? p limit with
  | none =>
    rw [execute_of_accepted hnone, execute_of_accepted (hrefusal ▸ hnone), hshape.framesNeeded_eq]
    exact hpq.evaluateOn_agrees hf _ arguments limit
  | some m =>
    rcases hpq.entry_agrees hf arguments with ⟨fault, fault', hp, hq, hagrees⟩ | ⟨g, h, n, hp, hq, _⟩
    · rw [execute_of_entry_error hp, execute_of_entry_error hq]
      exact .fault hagrees
    · rw [execute_of_refusal hp hnone, execute_of_refusal hq (hrefusal ▸ hnone)]
      exact Run.agrees_misuse m

end Corresponds

end Program

end Casewise
