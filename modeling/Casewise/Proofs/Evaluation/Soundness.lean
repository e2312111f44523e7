import Casewise.Proofs.Evaluation.Semantics
import Casewise.Proofs.Program.Table

/-! Evaluation is sound: on any stack and under any limit, a run ends in what the program means, or it
overflows. -/
namespace Casewise

theorem Pattern.Proper.accepts {q : Pattern} {n : Int} (hq : q.Proper) (hn : Word.IsWord n) :
    (q.Matches n ∧ q.accepts n = .ok true) ∨ (¬ q.Matches n ∧ q.accepts n = .ok false) := by
  cases hq with
  | wildcard => exact Or.inl ⟨.wildcard, rfl⟩
  | @literal v span hv =>
    obtain ⟨m, hm⟩ := Option.isSome_iff_exists.mp hv
    have haccepts : (Pattern.literal v span).accepts n = .ok (decide (Word.wrap m = n)) := by
      rw [Pattern.accepts, Scalar.word, hm]
      rfl
    by_cases hmod : n % Word.modulus = m % Word.modulus
    · have heq : Word.wrap m = n := (Word.Represents.eq_wrap ⟨hn, hmod⟩).symm
      exact Or.inl ⟨.literal hm hmod, by rw [haccepts, decide_eq_true heq]⟩
    · have hne : Word.wrap m ≠ n := fun h => hmod (h ▸ (Word.represents_wrap m).2)
      refine Or.inr ⟨?_, by rw [haccepts, decide_eq_false hne]⟩
      intro hmatch
      cases hmatch with
      | literal hm' hmod' =>
        cases hm.symm.trans hm'
        exact hmod hmod'

namespace Clause

variable {n : Int} {cs : List (Clause Expr)} {c : Clause Expr} {r r' : Option (Clause Expr)}

theorem Selects.mem (h : Selects n cs (some c)) : c ∈ cs := by
  generalize hr : some c = r at h
  induction h with
  | none => cases hr
  | here _ => cases hr; simp
  | later _ _ ih => exact List.mem_cons_of_mem _ (ih hr)

theorem Selects.unique (h : Selects n cs r) (h' : Selects n cs r') : r = r' := by
  induction h with
  | none => cases h'; rfl
  | here hc =>
    cases h' with
    | here _ => rfl
    | later hn _ => exact absurd hc hn
  | later hn _ ih =>
    cases h' with
    | here hc => exact absurd hc hn
    | later _ h' => exact ih h'

theorem exists_selects (hcs : ∀ c ∈ cs, c.pattern.Proper) (hn : Word.IsWord n) :
    ∃ r, Selects n cs r ∧ select n cs = .ok r := by
  induction cs with
  | nil => exact ⟨none, .none, rfl⟩
  | cons c cs ih =>
    rcases (hcs c (by simp)).accepts hn with ⟨hmatch, hok⟩ | ⟨hmatch, hok⟩
    · exact ⟨some c, .here hmatch, by rw [select, hok]; rfl⟩
    · obtain ⟨r, hr, hselect⟩ := ih fun d hd => hcs d (by simp [hd])
      refine ⟨r, .later hmatch hr, ?_⟩
      rw [select, hok]
      exact hselect

theorem Selects.select_eq (h : Selects n cs r) (hcs : ∀ c ∈ cs, c.pattern.Proper)
    (hn : Word.IsWord n) : select n cs = .ok r := by
  obtain ⟨r', hr', hselect⟩ := exists_selects hcs hn
  rw [hselect, h.unique hr']

end Clause

theorem Word.exists_operation {operator : String} (h : operator ∈ ["+", "-", "*"]) :
    ∃ f : Int → Int → Int, (∀ m n, Operates m n operator (f m n)) ∧
      operation? operator = some fun x y => wrap (f x y) := by
  have hops : operator = "+" ∨ operator = "-" ∨ operator = "*" := by simpa using h
  rcases hops with rfl | rfl | rfl
  · exact ⟨_, fun _ _ => .add, rfl⟩
  · exact ⟨_, fun _ _ => .sub, rfl⟩
  · exact ⟨_, fun _ _ => .mul, rfl⟩

/-- The fault of a run whose calls nest too deep for the limit, or for a stack that ends. -/
def Overflows (limit : Int) (stack : Stack) (fault : Fault) : Prop :=
  ∃ depth span, fault = .of (.stackOverflow depth) span ∧ (stack = .endless → depth = limit)

namespace Run

def Within (limit : Int) (stack : Stack) (R : Except Error Int → Prop) (run : Run Int) : Prop :=
  (∃ result, R result ∧ run.outcome = result.mapError Fault.error) ∨
    ∃ fault, run.outcome = .error fault ∧ Overflows limit stack fault

variable {limit : Int} {stack rest : Stack} {R S : Except Error Int → Prop} {run : Run Int}

theorem within_value {n : Int} (h : R (.ok n)) : (value n).Within limit stack R :=
  Or.inl ⟨.ok n, h, rfl⟩

theorem within_fault {e : Error} (h : R (.error e)) : (fault (.error e)).Within limit stack R :=
  Or.inl ⟨.error e, h, rfl⟩

theorem Within.mono (h : run.Within limit stack R) (hRS : ∀ result, R result → S result) :
    run.Within limit stack S := by
  rcases h with ⟨result, hr, ho⟩ | hover
  · exact Or.inl ⟨result, hRS result hr, ho⟩
  · exact Or.inr hover

theorem Within.bind {next : Int → Run Int} (h : run.Within limit stack R)
    (herror : ∀ e, R (.error e) → S (.error e))
    (hnext : ∀ n, R (.ok n) → (next n).Within limit stack S) : (run >>= next).Within limit stack S := by
  obtain ⟨calls, outcome⟩ := run
  rcases h with ⟨result, hr, rfl⟩ | ⟨fault, rfl, hover⟩
  · cases result with
    | error e => exact Or.inl ⟨.error e, herror e hr, rfl⟩
    | ok n => exact hnext n hr
  · exact Or.inr ⟨fault, rfl, hover⟩

/-- What goes on with more frames of a stack overflows if the stack has no more. -/
theorem within_take? {k : Nat} {fault : Fault} {next : Stack → Run Int}
    (hfault : ∃ depth span, fault = .of (.stackOverflow depth) span)
    (h : ∀ rest, (next rest).Within limit rest R) :
    Within limit stack R (match stack.take? k with
      | some rest => next rest
      | none => .fault fault) := by
  obtain ⟨depth, span, rfl⟩ := hfault
  cases stack with
  | endless => exact h .endless
  | frames left =>
    split
    next rest _ =>
      rcases h rest with hresult | ⟨fault, hfault, depth, span, rfl, _⟩
      · exact Or.inl hresult
      · exact Or.inr ⟨_, hfault, depth, span, rfl, by simp⟩
    next => exact Or.inr ⟨_, rfl, depth, span, rfl, by simp⟩

end Run

/-- What the callers of an activation rely on. -/
structure Activation.Sound (p : Program) (limit : Int) (a : Activation) : Prop where
  bound : Word.IsWord a.bound
  exhausted : ∃ depth span, a.exhausted = .of (.stackOverflow depth) span
  invoke : ∀ stack f n span, Word.IsWord n →
    (a.invoke stack f n span).Within limit stack (p.Calls f n span)

theorem Activation.Sound.push {p : Program} {limit : Int} {a : Activation} (ha : a.Sound p limit)
    {k : Nat} {stack : Stack} {next : Stack → Run Int} {R : Except Error Int → Prop}
    (h : ∀ rest, (next rest).Within limit rest R) : (a.push k stack next).Within limit stack R :=
  Run.within_take? ha.exhausted h

namespace Program

variable {p : Program} {x f : Name} {a n limit : Int} {b : Expr} {span : Option Span}
  {result : Except Error Int}

theorem Evaluates.of_calls (hb : p.Evaluates x a b (.ok n)) (h : p.Calls f n span result) :
    p.Evaluates x a (.call f b span) result := by
  unfold Calls at h
  split at h
  next hf => exact h ▸ .unknown hb hf
  next hf => exact .call hb hf h

end Program

/-- An expression ends in what it means if the calls in it do. -/
theorem Expr.Proper.eval_within {p : Program} {limit : Int} {e : Expr} (he : e.Proper) {a : Activation}
    (ha : a.Sound p limit) (stack : Stack) :
    (e.eval a stack).Within limit stack (p.Evaluates a.param a.bound e) := by
  induction he generalizing stack with
  | @int v span hv =>
    obtain ⟨n, hn⟩ := Option.isSome_iff_exists.mp hv
    rw [Expr.eval]
    refine ha.push fun rest => ?_
    simp only [Scalar.word, hn]
    exact Run.within_value (.int hn (Word.represents_wrap n))
  | @var y span =>
    rw [Expr.eval]
    refine ha.push fun rest => ?_
    by_cases hy : y = a.param
    · rw [if_pos hy, hy]
      exact Run.within_value .bound
    · rw [if_neg hy]
      exact Run.within_fault (.unbound hy)
  | @binary operator l r span hop _ _ ihl ihr =>
    obtain ⟨f, hf, hoperation⟩ := Word.exists_operation hop
    rw [Expr.eval]
    refine ha.push fun rest => ?_
    refine (ihl rest).bind (fun e he => .left he) fun m hm => ?_
    refine (ihr rest).bind (fun e he => .right hm he) fun n hn => ?_
    rw [hoperation]
    exact Run.within_value (.binary hm hn (hf m n) (Word.represents_wrap _))
  | @call f b span _ ih =>
    rw [Expr.eval]
    refine ha.push fun rest => ?_
    refine (ih rest).bind (fun e he => .argument he) fun n hn => ?_
    refine ha.push fun rest => ?_
    exact (ha.invoke rest f n span (hn.isWord ha.bound)).mono fun result h => hn.of_calls h
  | @case s cs span _ hcs _ ihs ihb =>
    rw [Expr.eval]
    refine ha.push fun rest => ?_
    refine (ihs rest).bind (fun e he => .scrutinee he) fun n hn => ?_
    obtain ⟨selected, hselects, hselect⟩ := Clause.exists_selects hcs (hn.isWord ha.bound)
    rw [evalFirst_eq_select, hselect]
    cases selected with
    | none => exact Run.within_fault (.unmatched hn hselects)
    | some c => exact (ihb c hselects.mem rest).mono fun result h => .selected hn hselects h

namespace Program

variable {p : Program}

theorem Proper.of_find? (hp : p.Proper) {f : Name} {g : Definition} (hg : p.find? f = some g) :
    g.body.Proper :=
  hp g (mem_definitions_of_find? hg)

theorem Proper.apply_within (hp : p.Proper) (limit : Int) (room : Nat) (stack : Stack) {g : Definition}
    (hg : g.body.Proper) {n : Int} (hn : Word.IsWord n) (span : Option Span) :
    (p.apply limit room stack g n span).Within limit stack (p.Evaluates g.param n g.body) := by
  -- a body is run with one call less room, which is all that its calls need
  induction room generalizing stack g n span with
  | zero => exact Or.inr ⟨_, rfl, limit, span, rfl, fun _ => rfl⟩
  | succ room ih =>
    refine hg.eval_within (a := ⟨g.param, n, _, _⟩) ⟨hn, ⟨_, _, rfl⟩, fun stack f m place hm => ?_⟩ stack
    unfold Calls
    dsimp only
    cases hf : p.find? f with
    | none => exact Run.within_fault rfl
    | some h => exact ih stack (hp.of_find? hf) hm place

end Program

end Casewise
