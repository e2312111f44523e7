import Casewise.Proofs.Evaluation.FrameBound
import Casewise.Proofs.Evaluation.Limit

/-!
The log of a run as blocks. A block is what one call writes, from its entry to its return. It holds the
blocks of the calls that the body makes, in the order in which they are made, and each of these is the
log of a run of its own, under the limit that the calls around it have left.
-/
namespace Casewise

namespace Run

/-- The runs do not differ but in the fault that they end in. -/
structure Alike (r r' : Run Int) : Prop where
  calls : r.calls = r'.calls
  result : r.outcome.toOption = r'.outcome.toOption

variable {r r' : Run Int} {next next' : Int → Run Int} {n v : Int}

theorem Alike.refl (r : Run Int) : r.Alike r := ⟨rfl, rfl⟩

theorem alike_fault (f f' : Fault) : (fault f).Alike (fault f') := ⟨rfl, rfl⟩

theorem Alike.bind (h : r.Alike r') (hnext : ∀ n, (next n).Alike (next' n)) :
    (r >>= next).Alike (r' >>= next') := by
  obtain ⟨calls, outcome⟩ := r
  obtain ⟨calls', outcome'⟩ := r'
  obtain ⟨rfl, hresult⟩ := h
  cases outcome with
  | ok n =>
    cases outcome' with
    | ok m =>
      cases hresult
      exact ⟨congrArg (calls ++ ·) (hnext n).calls, (hnext n).result⟩
    | error f => cases hresult
  | error f =>
    cases outcome' with
    | ok m => cases hresult
    | error f' => exact ⟨rfl, rfl⟩

theorem Alike.enter (h : r.Alike r') (f : Name) (n : Int) : (Run.enter f n r).Alike (Run.enter f n r') :=
  ⟨by rw [Run.enter, Run.enter, h.calls, h.result], h.result⟩

theorem outcome_eq_ok (h : r.outcome.toOption = some v) : r.outcome = .ok v := by
  cases hr : r.outcome with
  | error f =>
    rw [hr] at h
    cases h
  | ok n =>
    rw [hr] at h
    cases h
    rfl

theorem exists_of_bind (h : (r >>= next).outcome = .ok v) :
    ∃ n, r.outcome = .ok n ∧ (next n).outcome = .ok v ∧ (r >>= next).calls = r.calls ++ (next n).calls := by
  obtain ⟨calls, outcome⟩ := r
  cases outcome with
  | error f => cases h
  | ok n => exact ⟨n, rfl, h, rfl⟩

theorem bind_of_error (h : ∃ fault, r.outcome = .error fault) : r >>= next = r := by
  obtain ⟨calls, outcome⟩ := r
  obtain ⟨fault, rfl⟩ := h
  rfl

/-- Every call of the run is as it should be, and a value of it is a word. -/
structure Holds (C : Call → Prop) (r : Run Int) : Prop where
  calls : ∀ c ∈ r.calls, C c
  isWord : ∀ n, r.outcome = .ok n → Word.IsWord n

variable {C : Call → Prop}

theorem holds_value (hn : Word.IsWord n) : (value n).Holds C := by
  refine ⟨nofun, fun m hm => ?_⟩
  cases hm
  exact hn

theorem holds_fault (f : Fault) : (fault f).Holds C :=
  ⟨nofun, nofun⟩

theorem Holds.bind (h : r.Holds C) (hnext : ∀ n, Word.IsWord n → (next n).Holds C) :
    (r >>= next).Holds C := by
  obtain ⟨calls, outcome⟩ := r
  cases outcome with
  | error f => exact ⟨h.calls, nofun⟩
  | ok n =>
    have hrest := hnext n (h.isWord n rfl)
    refine ⟨fun c hc => ?_, hrest.isWord⟩
    rcases List.mem_append.mp hc with hc | hc
    · exact h.calls c hc
    · exact hrest.calls c hc

end Run

theorem Scalar.isWord_of_word {v : Scalar} {n : Int} (h : v.word = .ok n) : Word.IsWord n := by
  unfold word at h
  split at h
  · cases h
    exact Word.isWord_wrap _
  · cases h

theorem Word.isWord_of_operation {operator : String} {f : Int → Int → Int}
    (h : operation? operator = some f) (m n : Int) : IsWord (f m n) := by
  obtain ⟨g, _, rfl⟩ := Option.map_eq_some_iff.mp h
  exact isWord_wrap (g m n)

namespace Expr

/-- What holds of values that are words and of faults that report words, and is kept where a run goes on,
holds of the run of an expression if it holds of its calls. The calls have a stack without end if it has
one. -/
theorem eval_closed {P : Run Int → Prop} {a : Activation} {stack : Stack} (hbound : Word.IsWord a.bound)
    (hvalue : ∀ n, Word.IsWord n → P (.value n))
    (hfault : ∀ f, (∀ n span, f = .of (.noMatchingClause n) span → Word.IsWord n) → P (.fault f))
    (hbind : ∀ {r : Run Int} {next : Int → Run Int}, P r → (∀ n, Word.IsWord n → P (next n)) →
      P (r >>= next))
    (hexhausted : P (.fault a.exhausted))
    (hinvoke : ∀ rest, (stack = .endless → rest = .endless) → ∀ f n span, Word.IsWord n →
      P (a.invoke rest f n span)) (e : Expr) : P (e.eval a stack) := by
  have hpush {stack : Stack} {k : Nat} {next : Stack → Run Int}
      (hnext : ∀ rest, (stack = .endless → rest = .endless) → P (next rest)) : P (a.push k stack next) := by
    unfold Activation.push
    split
    next rest hrest =>
      refine hnext rest fun hendless => ?_
      rw [hendless, Stack.take?_endless] at hrest
      exact (Option.some.inj hrest).symm
    next => exact hexhausted
  induction e generalizing stack with
  | int v span =>
    rw [eval]
    refine hpush fun _ _ => ?_
    cases hv : v.word with
    | ok n => exact hvalue n (Scalar.isWord_of_word hv)
    | error m => exact hfault _ (by simp [Fault.of])
  | var y span =>
    rw [eval]
    refine hpush fun _ _ => ?_
    split
    · exact hvalue _ hbound
    · exact hfault _ (by simp [Fault.of])
  | binary operator l r span ihl ihr =>
    rw [eval]
    refine hpush fun rest hrest => ?_
    have hdeeper : ∀ deeper, (rest = .endless → deeper = .endless) → ∀ f n span, Word.IsWord n →
        P (a.invoke deeper f n span) := fun deeper h => hinvoke deeper fun hs => h (hrest hs)
    refine hbind (ihl hdeeper) fun m _ => hbind (ihr hdeeper) fun n _ => ?_
    cases hop : Word.operation? operator with
    | some f => exact hvalue _ (Word.isWord_of_operation hop m n)
    | none => exact hfault _ (by simp [Fault.of])
  | call f c span ih =>
    rw [eval]
    refine hpush fun rest hrest => ?_
    refine hbind (ih fun deeper h => hinvoke deeper fun hs => h (hrest hs)) fun n hn => ?_
    exact hpush fun deeper h => hinvoke deeper (fun hs => h (hrest hs)) f n span hn
  | case s cs span ihs ihb =>
    rw [eval]
    refine hpush fun rest hrest => ?_
    have hdeeper : ∀ deeper, (rest = .endless → deeper = .endless) → ∀ f n span, Word.IsWord n →
        P (a.invoke deeper f n span) := fun deeper h => hinvoke deeper fun hs => h (hrest hs)
    refine hbind (ihs hdeeper) fun n hn => ?_
    rw [evalFirst_eq_select]
    cases hselect : Clause.select n cs with
    | error m => exact hfault _ (by simp [Fault.of])
    | ok selected =>
      cases selected with
      | none => exact hfault _ (by simpa [Fault.of] using hn)
      | some c => exact ihb c (Clause.mem_of_select hselect) hdeeper
  | foreign o =>
    rw [eval]
    exact hpush fun _ _ => hfault _ (by simp [Fault.of])

theorem eval_holds {C : Call → Prop} {a : Activation} (hbound : Word.IsWord a.bound)
    (hinvoke : ∀ f n span, Word.IsWord n → (a.invoke .endless f n span).Holds C) (e : Expr) :
    (e.eval a .endless).Holds C := by
  refine eval_closed hbound (fun n => Run.holds_value) (fun f _ => Run.holds_fault f) Run.Holds.bind
    (Run.holds_fault _) ?_ e
  intro rest hrest f n span hn
  rw [hrest rfl]
  exact hinvoke f n span hn

end Expr

namespace Program

variable {p : Program} {f : Name} {g : Definition} {a n v limit limit' : Int} {room : Nat}
  {span span' : Option Span}

/-- The room for nested calls decides what a call does, and its place and the limit do not. -/
theorem apply_alike (limit limit' : Int) (room : Nat) (g : Definition) (n : Int) (span span' : Option Span) :
    (p.apply limit room .endless g n span).Alike (p.apply limit' room .endless g n span') := by
  induction room generalizing g n span span' with
  | zero => exact Run.alike_fault _ _
  | succ room ih =>
    refine Run.Alike.enter ?_ g.name n
    apply Expr.eval_related
    · rfl
    · rfl
    · exact fun n => .refl _
    · exact fun f _ => .refl _
    · exact Run.Alike.bind
    · intro f m place
      dsimp only
      cases p.find? f with
      | some h => exact ih h m place place
      | none => exact .refl _

theorem evaluate_eq_invoker (hn : Word.IsWord n) :
    p.evaluate f [.int n] limit = p.invoker limit limit.toNat .endless f n none := by
  unfold invoker evaluate
  cases hf : p.find? f with
  | none => rw [evaluateOn_of_find?_none hf]
  | some g => rw [evaluateOn_of_find? hf, Stack.take?_endless, Word.wrap_eq_self hn]

/-- A call in a body is a run of its own, under the limit that is left. -/
theorem invoker_alike (hn : Word.IsWord n) (hroom : limit'.toNat = room) :
    (p.invoker limit room .endless f n span).Alike (p.evaluate f [.int n] limit') := by
  rw [evaluate_eq_invoker hn, hroom]
  unfold invoker
  cases p.find? f with
  | none => exact Run.alike_fault _ _
  | some g => exact apply_alike limit limit' room g n span none

theorem name_of_find? (hkeys : p.keys = p.definitions.map Definition.name) (hf : p.find? f = some g) :
    g.name = f := by
  obtain ⟨before, after, hentries, _⟩ := List.lookup_eq_some_iff.mp hf
  rw [keys, definitions, List.map_map] at hkeys
  have hentry := List.map_inj_left.mp hkeys (f, g) (by rw [hentries]; simp)
  exact hentry.symm

def activation (p : Program) (limit : Int) (room : Nat) (g : Definition) (n : Int) (span : Option Span) :
    Activation :=
  ⟨g.param, n, p.invoker limit room, .of (.stackOverflow (limit - room)) (span <|> g.span)⟩

theorem apply_succ (stack : Stack) : p.apply limit (room + 1) stack g n span =
    .enter g.name n (g.body.eval (p.activation limit room g n span) stack) := rfl

/-- The call, and any call inside it, is all that a run of its function shows under the limit that the
calls around it leave of the room. -/
def Faithful (p : Program) (room : Nat) (c : Call) : Prop :=
  ∀ h b inner result j, Call.Stands (.node h b inner result) j [c] → j < room ∧
    ∀ limit : Int, limit.toNat = room - j →
      (p.evaluate h [.int b] limit).calls = [.node h b inner result] ∧
      (p.evaluate h [.int b] limit).outcome.toOption = result

theorem invoker_holds (hkeys : p.keys = p.definitions.map Definition.name) (hn : Word.IsWord n) :
    (p.invoker limit room .endless f n span).Holds (p.Faithful room) := by
  -- the calls of a body have one call less room, and one call more around them
  induction room generalizing f n span with
  | zero =>
    unfold invoker
    split
    · exact Run.holds_fault _
    · exact Run.holds_fault _
  | succ room ih =>
    cases hf : p.find? f with
    | none =>
      rw [invoker, hf]
      exact Run.holds_fault _
    | some g =>
      obtain rfl : g.name = f := name_of_find? hkeys hf
      have halike : ∀ limit' : Int, limit'.toNat = room + 1 →
          (p.apply limit (room + 1) .endless g n span).Alike (p.evaluate g.name [.int n] limit') := by
        intro limit' hroom
        have hinvoked : (p.invoker limit (room + 1) .endless g.name n span).Alike
            (p.evaluate g.name [.int n] limit') := invoker_alike hn hroom
        rwa [invoker, hf] at hinvoked
      rw [invoker, hf]
      dsimp only
      rw [apply_succ] at halike ⊢
      have hbody : (g.body.eval (p.activation limit room g n span) .endless).Holds (p.Faithful room) :=
        g.body.eval_holds hn fun f m place hm => ih hm
      refine ⟨fun c hc h b inner result j hstands => ?_, hbody.isWord⟩
      obtain rfl := List.mem_singleton.mp hc
      cases hstands with
      | here hmem =>
        cases List.mem_singleton.mp hmem
        refine ⟨Nat.succ_pos room, fun limit' hroom => ?_⟩
        have hrun := halike limit' (by simpa using hroom)
        exact ⟨hrun.calls.symm, hrun.result.symm⟩
      | inside hmem hstands =>
        cases List.mem_singleton.mp hmem
        obtain ⟨c, hc, hstands⟩ := hstands.exists_mem
        obtain ⟨hj, hrun⟩ := hbody.calls c hc _ _ _ _ _ hstands
        exact ⟨by omega, fun limit' hroom => hrun limit' (by omega)⟩

theorem eval_holds (hkeys : p.keys = p.definitions.map Definition.name) (hn : Word.IsWord n) (e : Expr) :
    (e.eval (p.activation limit room g n span) .endless).Holds (p.Faithful room) :=
  e.eval_holds hn fun _ _ _ hm => invoker_holds hkeys hm

end Program

theorem Pattern.proper_of_accepts {q : Pattern} {n : Int} {b : Bool} (h : q.accepts n = .ok b) :
    q.Proper := by
  cases q with
  | wildcard span => exact .wildcard
  | foreign o => cases h
  | literal v span =>
    refine .literal ?_
    rw [accepts, Scalar.word] at h
    cases hv : v.number? with
    | some m => rfl
    | none =>
      rw [hv] at h
      cases h

theorem Clause.selects_of_select {n : Int} {cs : List (Clause Expr)} {c : Clause Expr} (hn : Word.IsWord n)
    (h : select n cs = .ok (some c)) : Selects n cs (some c) := by
  induction cs with
  | nil => cases h
  | cons d cs ih =>
    rw [select] at h
    cases hd : d.pattern.accepts n with
    | error m =>
      rw [hd] at h
      cases h
    | ok accepted =>
      rw [hd] at h
      rcases (Pattern.proper_of_accepts hd).accepts hn with ⟨hmatch, hok⟩ | ⟨hmatch, hok⟩
      · cases hd.symm.trans hok
        cases h
        exact .here hmatch
      · cases hd.symm.trans hok
        exact .later hmatch (ih h)

namespace Program

/-- The calls that the evaluation of an expression makes where it comes to a value, in the order in which it
makes them. The limit is that of the calls. -/
inductive Makes (p : Program) (limit : Int) (x : Name) (a : Int) : Expr → List (Name × Int) → Int → Prop
  | int {v : Scalar} {k n : Int} {span : Option Span} : v.number? = some n → Word.Represents k n →
    Makes p limit x a (.int v span) [] k
  | bound {span : Option Span} : Makes p limit x a (.var x span) [] a
  | binary {operator : String} {l r : Expr} {span : Option Span} {cs ds : List (Name × Int)}
    {m n j k : Int} : Makes p limit x a l cs m → Makes p limit x a r ds n →
    Word.Operates m n operator j → Word.Represents k j →
    Makes p limit x a (.binary operator l r span) (cs ++ ds) k
  | call {f : Name} {b : Expr} {span : Option Span} {cs : List (Name × Int)} {n k : Int} :
    Makes p limit x a b cs n → (p.evaluate f [.int n] limit).outcome = .ok k →
    Makes p limit x a (.call f b span) (cs ++ [(f, n)]) k
  | case {s : Expr} {clauses : List (Clause Expr)} {c : Clause Expr} {span : Option Span}
    {cs ds : List (Name × Int)} {n k : Int} : Makes p limit x a s cs n →
    Clause.Selects n clauses (some c) → Makes p limit x a c.body ds k →
    Makes p limit x a (.case s clauses span) (cs ++ ds) k

variable {p : Program} {f : Name} {g : Definition} {a n v limit limit' : Int} {room : Nat}
  {span : Option Span}

def callsOf (p : Program) (limit : Int) (cs : List (Name × Int)) : List Call :=
  cs.flatMap fun c => (p.evaluate c.1 [.int c.2] limit).calls

theorem callsOf_append (limit : Int) (cs ds : List (Name × Int)) :
    p.callsOf limit (cs ++ ds) = p.callsOf limit cs ++ p.callsOf limit ds :=
  List.flatMap_append

theorem exists_makes (hkeys : p.keys = p.definitions.map Definition.name) (hn : Word.IsWord n)
    (hroom : limit'.toNat = room) {e : Expr}
    (h : (e.eval (p.activation limit room g n span) .endless).outcome = .ok v) :
    ∃ cs, p.Makes limit' g.param n e cs v ∧
      (e.eval (p.activation limit room g n span) .endless).calls = p.callsOf limit' cs := by
  induction e generalizing v with
  | int w place =>
    rw [Expr.eval, Activation.push_endless, Scalar.word] at h ⊢
    cases hw : w.number? with
    | none =>
      rw [hw] at h
      cases h
    | some k =>
      rw [hw] at h
      cases h
      exact ⟨[], .int hw (Word.represents_wrap k), rfl⟩
  | var y place =>
    rw [Expr.eval, Activation.push_endless] at h ⊢
    by_cases hy : y = (p.activation limit room g n span).param
    · rw [if_pos hy] at h ⊢
      cases h
      obtain rfl : y = g.param := hy
      exact ⟨[], .bound, rfl⟩
    · rw [if_neg hy] at h
      cases h
  | binary operator l r place ihl ihr =>
    rw [Expr.eval, Activation.push_endless] at h ⊢
    obtain ⟨m, hm, hrest, hcalls⟩ := Run.exists_of_bind h
    obtain ⟨k, hk, hvalue, hcalls'⟩ := Run.exists_of_bind hrest
    obtain ⟨cs, hcs, hl⟩ := ihl hm
    obtain ⟨ds, hds, hr⟩ := ihr hk
    rw [hcalls, hcalls', hl, hr]
    rw [Word.operation?] at hvalue ⊢
    cases hop : Word.integerOperation? operator with
    | none =>
      rw [hop] at hvalue
      cases hvalue
    | some F =>
      rw [hop] at hvalue
      cases hvalue
      refine ⟨cs ++ ds, .binary hcs hds (Word.operates_iff.mpr ⟨F, hop, rfl⟩) (Word.represents_wrap _), ?_⟩
      rw [callsOf_append]
      exact congrArg (_ ++ ·) (List.append_nil _)
  | call f b place ih =>
    rw [Expr.eval, Activation.push_endless] at h ⊢
    obtain ⟨k, hk, hrest, hcalls⟩ := Run.exists_of_bind h
    obtain ⟨cs, hcs, hb⟩ := ih hk
    have hword : Word.IsWord k := (eval_holds hkeys hn b).isWord k hk
    have halike : (p.invoker limit room .endless f k place).Alike (p.evaluate f [.int k] limit') :=
      invoker_alike hword hroom
    rw [Activation.push_endless] at hrest hcalls
    have hvalue : (p.evaluate f [.int k] limit').outcome = .ok v :=
      Run.outcome_eq_ok (halike.result.symm.trans (congrArg Except.toOption hrest))
    refine ⟨cs ++ [(f, k)], .call hcs hvalue, ?_⟩
    rw [hcalls, hb, callsOf_append]
    refine congrArg (_ ++ ·) (halike.calls.trans ?_)
    simp [callsOf]
  | case s clauses place ihs ihb =>
    rw [Expr.eval, Activation.push_endless] at h ⊢
    obtain ⟨k, hk, hrest, hcalls⟩ := Run.exists_of_bind h
    obtain ⟨cs, hcs, hs⟩ := ihs hk
    have hword : Word.IsWord k := (eval_holds hkeys hn s).isWord k hk
    rw [hcalls, hs]
    rw [Expr.evalFirst_eq_select] at hrest ⊢
    cases hselect : Clause.select k clauses with
    | error m =>
      rw [hselect] at hrest
      cases hrest
    | ok selected =>
      cases selected with
      | none =>
        rw [hselect] at hrest
        cases hrest
      | some c =>
        rw [hselect] at hrest
        obtain ⟨ds, hds, hb⟩ := ihb c (Clause.mem_of_select hselect) hrest
        refine ⟨cs ++ ds, .case hcs (Clause.selects_of_select hword hselect) hds, ?_⟩
        dsimp only
        rw [hb, callsOf_append]
  | foreign o =>
    rw [Expr.eval, Activation.push_endless] at h
    cases h

end Program

end Casewise
