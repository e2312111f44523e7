import Mathlib.Data.Int.ModEq
import Casewise.Proofs.Evaluation.Congruence

/-! Evaluation in unbounded integers. The evaluator reduces literals, arguments and the results of operators
to words; here it is given with any reduction in their place. Where nothing depends on which clause a value
selects, words are the exact integers reduced: it makes no difference whether every step wraps around or only
the final result does. -/
namespace Casewise

/-- The integer that a literal stands for, reduced. -/
def Scalar.reducedBy (reduce : Int → Int) (v : Scalar) : Except Misuse Int :=
  match v.number? with
  | some n => .ok (reduce n)
  | none => .error (.notNumber v)

def Pattern.acceptsBy (reduce : Int → Int) (value : Int) : Pattern → Except Misuse Bool
  | wildcard _ => .ok true
  | literal v _ => return (← v.reducedBy reduce) = value
  | foreign o => .error (.notPattern o)

theorem Pattern.acceptsBy_wrap (n : Int) (q : Pattern) : q.acceptsBy Word.wrap n = q.accepts n := by
  cases q <;> rfl

namespace Expr

mutual

/-- The run of an expression, with literals and results reduced in the given way. -/
def evalBy (reduce : Int → Int) (a : Activation) (stack : Stack) : Expr → Run Int
  | int v _ => a.push frames stack fun _ =>
    match v.reducedBy reduce with
    | .ok n => .value n
    | .error m => .fault (.misuse m)
  | var name span => a.push frames stack fun _ =>
    if name = a.param then .value a.bound else .fault (.of (.unboundVariable name) span)
  | binary operator left right _ => a.push frames stack fun stack => do
    let x ← left.evalBy reduce a stack
    let y ← right.evalBy reduce a stack
    match Word.integerOperation? operator with
    | some f => return reduce (f x y)
    | none => .fault (.misuse (.unknownOperator operator))
  | call function argument span => a.push frames stack fun stack => do
    let n ← argument.evalBy reduce a stack
    a.push callFrames stack fun stack => a.invoke stack function n span
  | case scrutinee clauses span => a.push frames stack fun stack => do
    let n ← scrutinee.evalBy reduce a stack
    evalFirstBy reduce a stack n span clauses
  | foreign o => a.push frames stack fun _ => .fault (.misuse (.notExpression o))

def evalFirstBy (reduce : Int → Int) (a : Activation) (stack : Stack) (n : Int) (span : Option Span) :
    List (Clause Expr) → Run Int
  | [] => .fault (.of (.noMatchingClause n) span)
  | ⟨pattern, body, _⟩ :: clauses =>
    match pattern.acceptsBy reduce n with
    | .ok true => body.evalBy reduce a stack
    | .ok false => evalFirstBy reduce a stack n span clauses
    | .error m => .fault (.misuse m)

end

/-- Reduced to words it is the evaluator. -/
theorem evalBy_wrap (a : Activation) (e : Expr) (stack : Stack) :
    e.evalBy Word.wrap a stack = e.eval a stack := by
  induction e generalizing stack with
  | int v span =>
    rw [evalBy, eval]
    rfl
  | var y span | foreign o => rw [evalBy, eval]
  | binary operator l r span ihl ihr =>
    rw [evalBy, eval]
    simp only [ihl, ihr, Word.operation?]
    refine congrArg (a.push frames stack) (funext fun rest => ?_)
    cases Word.integerOperation? operator <;> rfl
  | call f b span ih =>
    rw [evalBy, eval]
    simp only [ih]
  | case s cs span ihs ihcs =>
    have hfirst (rest : Stack) (n : Int) :
        evalFirstBy Word.wrap a rest n span cs = evalFirst a rest n span cs := by
      clear ihs
      induction cs with
      | nil => rw [evalFirstBy, evalFirst]
      | cons c cs ih =>
        have hbody := ihcs c List.mem_cons_self rest
        have hrest := ih fun d hd => ihcs d (List.mem_cons_of_mem c hd)
        rcases hc : c.pattern.accepts n with m | _ | _ <;>
          simp only [evalFirstBy, evalFirst, Pattern.acceptsBy_wrap, hc, hbody, hrest]
    rw [evalBy, eval]
    simp only [ihs, hfirst]

end Expr

namespace Program

def applyBy (p : Program) (reduce : Int → Int) (limit : Int) :
    Nat → Stack → Definition → Int → Option Span → Run Int
  | 0, _, _, _, span => .fault (.of (.stackOverflow limit) span)
  | room + 1, stack, f, argument, span =>
    .enter f.name argument <|
      f.body.evalBy reduce
        { param := f.param
          bound := argument
          invoke := fun stack function n span =>
            match p.find? function with
            | some g => p.applyBy reduce limit room stack g n span
            | none => .fault (.of (.unknownFunction function) span)
          exhausted := .of (.stackOverflow (limit - room)) (span <|> f.span) }
        stack

def entryBy (p : Program) (reduce : Int → Int) (function : Name) (arguments : List Argument) :
    Except Fault (Definition × Int) :=
  match arguments.mapM Argument.number with
  | .error m => .error (.misuse m)
  | .ok values =>
    match p.find? function with
    | none => .error (.of (.unknownFunction function) none)
    | some f =>
      match values with
      | [n] => .ok (f, reduce n)
      | _ => .error (.of (.arityMismatch function f.arity values.length) f.span)

/-- Applies the function under a key to arguments, with everything reduced in the given way. -/
def evaluateOnBy (p : Program) (reduce : Int → Int) (stack : Stack) (function : Name)
    (arguments : List Argument) (limit : Int) : Run Int :=
  match p.entryBy reduce function arguments with
  | .error fault => .fault fault
  | .ok (f, n) =>
    match stack.take? Expr.callFrames with
    | some stack => p.applyBy reduce limit limit.toNat stack f n none
    | none => .fault (.of (.stackOverflow 1) f.span)

theorem applyBy_wrap (p : Program) (limit : Int) (room : Nat) (stack : Stack) (g : Definition) (n : Int)
    (span : Option Span) : p.applyBy Word.wrap limit room stack g n span = p.apply limit room stack g n span := by
  induction room generalizing stack g n span with
  | zero => rfl
  | succ room ih =>
    have hinvoke : (fun stack f n span =>
        match p.find? f with
        | some g => p.applyBy Word.wrap limit room stack g n span
        | none => .fault (.of (.unknownFunction f) span)) = p.invoker limit room := by
      funext stack f n span
      unfold invoker
      cases p.find? f with
      | some g => exact ih stack g n span
      | none => rfl
    rw [apply_succ, activation, ← hinvoke]
    exact congrArg (Run.enter g.name n) (Expr.evalBy_wrap _ g.body stack)

/-- Reduced to words it is the evaluation. -/
theorem evaluateOnBy_wrap (p : Program) (stack : Stack) (f : Name) (arguments : List Argument) (limit : Int) :
    p.evaluateOnBy Word.wrap stack f arguments limit = p.evaluateOn stack f arguments limit := by
  unfold evaluateOnBy evaluateOn
  simp only [applyBy_wrap]
  rfl

end Program

/-! Exact integers on the one side, words on the other. -/

theorem Word.wrap_integerOperation {operator : String} {f : Int → Int → Int}
    (h : integerOperation? operator = some f) (m n : Int) : wrap (f (wrap m) (wrap n)) = wrap (f m n) := by
  have hm : wrap m ≡ m [ZMOD modulus] := (represents_wrap m).2
  have hn : wrap n ≡ n [ZMOD modulus] := (represents_wrap n).2
  unfold integerOperation? at h
  split at h <;> cases h
  · exact wrap_eq_of_emod_eq (hm.add hn)
  · exact wrap_eq_of_emod_eq (hm.sub hn)
  · exact wrap_eq_of_emod_eq (hm.mul hn)

namespace Call

mutual

def wrapped : Call → Call
  | node function argument inner result =>
    node function (Word.wrap argument) (wrappedAll inner) (result.map Word.wrap)

def wrappedAll : List Call → List Call
  | [] => []
  | call :: calls => call.wrapped :: wrappedAll calls

end

theorem wrappedAll_append (calls calls' : List Call) :
    wrappedAll (calls ++ calls') = wrappedAll calls ++ wrappedAll calls' := by
  induction calls with
  | nil => rfl
  | cons call calls ih => exact congrArg (call.wrapped :: ·) ih

end Call

namespace Run

/-- The run with all integers as words. What a fault reports stays as it is. -/
def wrapped (r : Run Int) : Run Int := ⟨Call.wrappedAll r.calls, r.outcome.map Word.wrap⟩

theorem wrapped_bind {r : Run Int} {next next' : Int → Run Int}
    (h : ∀ n, (next n).wrapped = next' (Word.wrap n)) : (r >>= next).wrapped = r.wrapped >>= next' := by
  obtain ⟨calls, outcome⟩ := r
  cases outcome with
  | error f => rfl
  | ok n =>
    change (⟨Call.wrappedAll (calls ++ (next n).calls), (next n).outcome.map Word.wrap⟩ : Run Int) =
      ⟨Call.wrappedAll calls ++ (next' (Word.wrap n)).calls, (next' (Word.wrap n)).outcome⟩
    rw [Call.wrappedAll_append, ← h n]
    rfl

theorem wrapped_enter (f : Name) (n : Int) (r : Run Int) :
    (enter f n r).wrapped = enter f (Word.wrap n) r.wrapped := by
  obtain ⟨calls, outcome⟩ := r
  cases outcome <;> rfl

end Run

/-- No case is a part of the expression. -/
def Expr.Caseless (e : Expr) : Prop := ∀ s cs span, case s cs span ∉ e.parts

/-- Without cases, an expression in words runs as in exact integers, which are turned into words at the end. -/
theorem Expr.wrapped_evalBy_id {a b : Activation} (hparam : a.param = b.param)
    (hbound : Word.wrap a.bound = b.bound) (hexhausted : a.exhausted = b.exhausted)
    (hinvoke : ∀ stack f n span, (a.invoke stack f n span).wrapped = b.invoke stack f (Word.wrap n) span)
    {e : Expr} (he : e.Caseless) (stack : Stack) :
    (e.evalBy id a stack).wrapped = e.evalBy Word.wrap b stack := by
  have hpush {k : Nat} {stack : Stack} {next next' : Stack → Run Int}
      (h : ∀ rest, (next rest).wrapped = next' rest) : (a.push k stack next).wrapped = b.push k stack next' := by
    unfold Activation.push
    cases stack.take? k with
    | some rest => exact h rest
    | none => exact congrArg Run.fault hexhausted
  induction e generalizing stack with
  | int v span =>
    rw [evalBy, evalBy]
    refine hpush fun rest => ?_
    unfold Scalar.reducedBy
    cases v.number? <;> rfl
  | var y span =>
    rw [evalBy, evalBy]
    refine hpush fun rest => ?_
    rw [hparam, ← hbound]
    split <;> rfl
  | binary operator l r span ihl ihr =>
    have hl : l.Caseless := fun s cs t h => he s cs t (left_parts_subset h)
    have hr : r.Caseless := fun s cs t h => he s cs t (right_parts_subset h)
    rw [evalBy, evalBy]
    refine hpush fun rest => ?_
    rw [← ihl hl, ← ihr hr]
    refine Run.wrapped_bind fun m => Run.wrapped_bind fun n => ?_
    cases hop : Word.integerOperation? operator with
    | none => rfl
    | some f => exact congrArg Run.value (Word.wrap_integerOperation hop m n).symm
  | call f c span ih =>
    have hc : c.Caseless := fun s cs t h => he s cs t (argument_parts_subset h)
    rw [evalBy, evalBy]
    refine hpush fun rest => ?_
    rw [← ih hc]
    exact Run.wrapped_bind fun n => hpush fun inner => hinvoke inner f n span
  | case s cs span => exact absurd (self_mem_parts _) (he s cs span)
  | foreign o =>
    rw [evalBy, evalBy]
    exact hpush fun rest => rfl

namespace Program

def Caseless (p : Program) : Prop := ∀ g ∈ p.definitions, g.body.Caseless

variable {p : Program}

theorem Caseless.wrapped_applyBy_id (hp : p.Caseless) (limit : Int) (room : Nat) (stack : Stack)
    {g : Definition} (hg : g ∈ p.definitions) (n : Int) (span : Option Span) :
    (p.applyBy id limit room stack g n span).wrapped =
      p.applyBy Word.wrap limit room stack g (Word.wrap n) span := by
  -- the calls of a body have one call less room
  induction room generalizing stack g n span with
  | zero => rfl
  | succ room ih =>
    rw [applyBy, applyBy, Run.wrapped_enter]
    refine congrArg (Run.enter g.name (Word.wrap n)) ?_
    refine Expr.wrapped_evalBy_id ?_ ?_ ?_ (fun rest f m place => ?_) (hp g hg) stack
    · rfl
    · rfl
    · rfl
    · dsimp only
      cases hf : p.find? f with
      | none => rfl
      | some h => exact ih rest (mem_definitions_of_find? hf) m place

theorem Caseless.wrapped_evaluateOnBy_id (hp : p.Caseless) (stack : Stack) (f : Name)
    (arguments : List Argument) (limit : Int) :
    (p.evaluateOnBy id stack f arguments limit).wrapped =
      p.evaluateOnBy Word.wrap stack f arguments limit := by
  unfold evaluateOnBy entryBy
  cases arguments.mapM Argument.number with
  | error m => rfl
  | ok values =>
    cases hf : p.find? f with
    | none => rfl
    | some g =>
      rcases values with _ | ⟨n, _ | ⟨m, values⟩⟩
      · rfl
      · dsimp only
        cases stack.take? Expr.callFrames with
        | none => rfl
        | some rest => exact hp.wrapped_applyBy_id limit _ rest (mem_definitions_of_find? hf) n none
      · rfl

/-- Wrapping around at every step is wrapping around once: without cases, a run is the run in exact integers, with
all integers turned into words. -/
theorem evaluateOn_exact (hp : p.Caseless) (stack : Stack) (f : Name) (arguments : List Argument) (limit : Int) :
    let run := p.evaluateOn stack f arguments limit
    let exact := p.evaluateOnBy id stack f arguments limit
    run = p.evaluateOnBy Word.wrap stack f arguments limit ∧
    run = exact.wrapped ∧
    (∀ n, run.outcome = .ok n ↔ ∃ v, exact.outcome = .ok v ∧ n = Word.wrap v) ∧
    (∀ v n, n = Word.wrap v ↔ Word.Represents n v) ∧
    (∀ fault, run.outcome = .error fault ↔ exact.outcome = .error fault) := by
  intro run exact
  have hrun : run = p.evaluateOnBy Word.wrap stack f arguments limit :=
    (evaluateOnBy_wrap p stack f arguments limit).symm
  have hwrapped : run = exact.wrapped :=
    hrun.trans (hp.wrapped_evaluateOnBy_id stack f arguments limit).symm
  have houtcome : run.outcome = exact.outcome.map Word.wrap := by
    rw [hwrapped]
    rfl
  refine ⟨hrun, hwrapped, fun n => ?_, fun v n => ?_, fun fault => ?_⟩
  · rw [houtcome]
    cases exact.outcome with
    | error g => simp [Except.map]
    | ok v => simp [Except.map, eq_comm]
  · exact ⟨fun h => h ▸ Word.represents_wrap v, Word.Represents.eq_wrap⟩
  · rw [houtcome]
    cases exact.outcome <;> simp [Except.map]

/-- `g (x + 2 ^ 63) - g x + 7` with `g y = y * y` is `2 ^ 64 * x + 2 ^ 126 + 7`, which as a word is 7; an unknown
function is missed on both sides. -/
theorem evaluateOn_exact_squares :
    let name (s : String) : Name := .text s
    let var (s : String) : Expr := .var (name s) none
    let n (k : Int) : Expr := .int (.int k) none
    let square (e : Expr) : Expr := .call (name "g") e none
    let shifted : Expr := .binary "+" (var "x") (n 9223372036854775808) none
    let body : Expr := .binary "+" (.binary "-" (square shifted) (square (var "x")) none) (n 7) none
    let p := ofDefinitions [⟨name "g", name "y", .binary "*" (var "y") (var "y") none, none⟩,
      ⟨name "f", name "x", body, none⟩, ⟨name "h", name "x", .call (name "k") body none, none⟩]
    p.Caseless ∧
      (p.evaluateOnBy id .endless (name "f") [.int (2 ^ 70)] 2).outcome = .ok (2 ^ 134 + 2 ^ 126 + 7) ∧
      (p.evaluateOn .endless (name "f") [.int (2 ^ 70)] 2).outcome = .ok 7 ∧
      (p.evaluateOnBy id (.frames 20) (name "h") [.int 1] 2).outcome =
        .error (.of (.unknownFunction (name "k")) none) ∧
      (p.evaluateOn (.frames 20) (name "h") [.int 1] 2).outcome =
        .error (.of (.unknownFunction (name "k")) none) := by
  intro name var n square shifted body p
  have hp : p.Caseless := by
    rw [Caseless, definitions_ofDefinitions (by decide)]
    simp [Expr.Caseless, Expr.parts, body, square, shifted, var, n]
  have hexact : (p.evaluateOnBy id .endless (name "f") [.int (2 ^ 70)] 2).outcome =
      .ok (2 ^ 134 + 2 ^ 126 + 7) := by rfl
  have hmissed : (p.evaluateOnBy id (.frames 20) (name "h") [.int 1] 2).outcome =
      .error (.of (.unknownFunction (name "k")) none) := by rfl
  obtain ⟨_, _, hvalue, _, _⟩ := evaluateOn_exact hp .endless (name "f") [.int (2 ^ 70)] 2
  obtain ⟨_, _, _, _, hfault⟩ := evaluateOn_exact hp (.frames 20) (name "h") [.int 1] 2
  exact ⟨hp, hexact, (hvalue 7).mpr ⟨_, hexact, by rfl⟩, hmissed, (hfault _).mpr hmissed⟩

end Program

end Casewise
