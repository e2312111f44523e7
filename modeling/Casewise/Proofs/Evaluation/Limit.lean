import Casewise.Proofs.Evaluation.Recording

/-! The limit on nested calls. A larger limit changes nothing for a run that does not overflow, and only
makes the others go further. A run overflows at the first call that is nested deeper than its limit. -/
namespace Casewise

namespace Call

theorem linesOf_append (around : Nat) (calls calls' : List Call) :
    linesOf around (calls ++ calls') = linesOf around calls ++ linesOf around calls' := by
  induction calls with
  | nil => rfl
  | cons call calls ih =>
    rw [List.cons_append, linesOf, linesOf, ih, List.append_assoc]

end Call

namespace Run

variable {r r' : Run Int} {next next' : Int → Run Int} {n : Int} {f : Fault}

def Overflows (r : Run Int) : Prop :=
  ∃ depth span, r.outcome = .error (.of (.stackOverflow depth) span)

/-- The log of the one run is the beginning of the log of the other. -/
def LogBegins (r r' : Run Int) : Prop :=
  ∀ around, Call.linesOf around r.calls <+: Call.linesOf around r'.calls

/-- The first run is the second one, or it overflows on the way. -/
def Begins (r r' : Run Int) : Prop :=
  (r = r' ∧ ¬ r.Overflows) ∨ (r.Overflows ∧ r.LogBegins r')

theorem begins_value (n : Int) : (value n).Begins (value n) := by
  left
  refine ⟨rfl, ?_⟩
  rintro ⟨depth, span, h⟩
  cases h

theorem begins_fault (h : ∀ depth span, f ≠ .of (.stackOverflow depth) span) :
    (fault f).Begins (fault f) := by
  left
  refine ⟨rfl, ?_⟩
  rintro ⟨depth, span, hf⟩
  exact h depth span (Except.error.inj hf)

theorem begins_overflow (depth : Int) (span : Option Span) (r : Run Int) :
    (fault (.of (.stackOverflow depth) span)).Begins r := by
  right
  exact ⟨⟨depth, span, rfl⟩, fun around => List.nil_prefix⟩

theorem LogBegins.bind_left (h : r.LogBegins r') (next' : Int → Run Int) :
    r.LogBegins (r' >>= next') := by
  intro around
  obtain ⟨calls', outcome'⟩ := r'
  cases outcome' with
  | error f => exact h around
  | ok n =>
    have hall : Call.linesOf around (calls' ++ (next' n).calls) =
        Call.linesOf around calls' ++ Call.linesOf around (next' n).calls :=
      Call.linesOf_append around calls' _
    change Call.linesOf around r.calls <+: Call.linesOf around (calls' ++ (next' n).calls)
    rw [hall]
    exact (h around).trans (List.prefix_append _ _)

theorem LogBegins.after (h : r.LogBegins r') (calls : List Call) (outcome outcome' : Except Fault Int) :
    LogBegins ⟨calls ++ r.calls, outcome⟩ ⟨calls ++ r'.calls, outcome'⟩ := by
  intro around
  rw [Call.linesOf_append, Call.linesOf_append]
  exact (List.prefix_append_right_inj _).mpr (h around)

theorem Begins.bind (h : r.Begins r') (hnext : ∀ n, (next n).Begins (next' n)) :
    (r >>= next).Begins (r' >>= next') := by
  obtain ⟨calls, outcome⟩ := r
  rcases h with ⟨rfl, hr⟩ | ⟨⟨depth, span, hr⟩, hlog⟩
  · cases outcome with
    | error f => exact Or.inl ⟨rfl, hr⟩
    | ok n =>
      rcases hnext n with ⟨heq, hn⟩ | ⟨hn, hlog⟩
      · left
        refine ⟨?_, hn⟩
        change (⟨calls ++ (next n).calls, (next n).outcome⟩ : Run Int) =
          ⟨calls ++ (next' n).calls, (next' n).outcome⟩
        rw [heq]
      · exact Or.inr ⟨hn, hlog.after calls _ _⟩
  · obtain rfl : outcome = .error (.of (.stackOverflow depth) span) := hr
    exact Or.inr ⟨⟨depth, span, rfl⟩, hlog.bind_left next'⟩

theorem Begins.enter (h : r.Begins r') (name : Name) (n : Int) :
    (Run.enter name n r).Begins (Run.enter name n r') := by
  rcases h with ⟨rfl, hr⟩ | ⟨⟨depth, span, hr⟩, hlog⟩
  · exact Or.inl ⟨rfl, hr⟩
  · right
    refine ⟨⟨depth, span, hr⟩, fun around => ?_⟩
    have hopen : Call.linesOf around (Run.enter name n r).calls =
        Call.entry around name n :: Call.linesOf (around + 1) r.calls := by
      simp [Run.enter, Call.linesOf, Call.lines, hr, Except.toOption]
    have hclosed : Call.linesOf around (Run.enter name n r').calls =
        Call.entry around name n :: (Call.linesOf (around + 1) r'.calls ++
          (r'.outcome.toOption.map (Call.exit around name n)).toList) := by
      simp [Run.enter, Call.linesOf, Call.lines]
    rw [hopen, hclosed]
    exact List.cons_prefix_cons.mpr ⟨rfl, (hlog (around + 1)).trans (List.prefix_append _ _)⟩

end Run

/-- Two runs of an expression are related as the runs of its calls are, if that goes for values, for what
is no overflow, and for what follows on a value. -/
theorem Expr.eval_related {R : Run Int → Run Int → Prop} {a b : Activation} (hparam : a.param = b.param)
    (hbound : a.bound = b.bound) (hvalue : ∀ n, R (.value n) (.value n))
    (hfault : ∀ f, (∀ depth span, f ≠ .of (.stackOverflow depth) span) → R (.fault f) (.fault f))
    (hbind : ∀ {r r' : Run Int} {next next' : Int → Run Int}, R r r' → (∀ n, R (next n) (next' n)) →
      R (r >>= next) (r' >>= next'))
    (hinvoke : ∀ f n span, R (a.invoke .endless f n span) (b.invoke .endless f n span)) (e : Expr) :
    R (e.eval a .endless) (e.eval b .endless) := by
  induction e with
  | int v span =>
    rw [Expr.eval, Expr.eval, Activation.push_endless, Activation.push_endless]
    cases v.word with
    | ok n => exact hvalue n
    | error m => exact hfault _ (by simp [Fault.of])
  | var y span =>
    rw [Expr.eval, Expr.eval, Activation.push_endless, Activation.push_endless, hparam, hbound]
    split
    · exact hvalue _
    · exact hfault _ (by simp [Fault.of])
  | binary operator l r span ihl ihr =>
    rw [Expr.eval, Expr.eval, Activation.push_endless, Activation.push_endless]
    refine hbind ihl fun m => hbind ihr fun n => ?_
    cases Word.operation? operator with
    | some h => exact hvalue _
    | none => exact hfault _ (by simp [Fault.of])
  | call f c span ih =>
    rw [Expr.eval, Expr.eval, Activation.push_endless, Activation.push_endless]
    refine hbind ih fun n => ?_
    rw [Activation.push_endless, Activation.push_endless]
    exact hinvoke f n span
  | case s cs span ihs ihb =>
    rw [Expr.eval, Expr.eval, Activation.push_endless, Activation.push_endless]
    refine hbind ihs fun n => ?_
    rw [evalFirst_eq_select, evalFirst_eq_select]
    cases hselect : Clause.select n cs with
    | error m => exact hfault _ (by simp [Fault.of])
    | ok selected =>
      cases selected with
      | none => exact hfault _ (by simp [Fault.of])
      | some c => exact ihb c (Clause.mem_of_select hselect)
  | foreign o =>
    rw [Expr.eval, Expr.eval, Activation.push_endless, Activation.push_endless]
    exact hfault _ (by simp [Fault.of])

theorem Expr.eval_begins {a b : Activation} (hparam : a.param = b.param) (hbound : a.bound = b.bound)
    (hinvoke : ∀ f n span, (a.invoke .endless f n span).Begins (b.invoke .endless f n span))
    (e : Expr) : (e.eval a .endless).Begins (e.eval b .endless) :=
  eval_related hparam hbound Run.begins_value (fun _ => Run.begins_fault) Run.Begins.bind hinvoke e

namespace Program

variable {p : Program} {f : Name} {a limit limit' depth : Int} {span : Option Span}

theorem apply_begins (limit limit' : Int) {room room' : Nat} (hroom : room ≤ room') (g : Definition)
    (n : Int) (span : Option Span) :
    (p.apply limit room .endless g n span).Begins (p.apply limit' room' .endless g n span) := by
  -- the body of a function has one call less room under both limits
  induction room generalizing room' g n span with
  | zero => exact Run.begins_overflow limit span _
  | succ room ih =>
    cases room' with
    | zero => omega
    | succ room' =>
      have hle : room ≤ room' := by omega
      refine Run.Begins.enter ?_ g.name n
      apply Expr.eval_begins
      · rfl
      · rfl
      · intro f m place
        dsimp only
        cases p.find? f with
        | some h => exact ih hle h m place
        | none => exact Run.begins_fault (by simp [Fault.of])

theorem evaluate_begins (p : Program) (f : Name) (a : Int) (h : limit ≤ limit') :
    (p.evaluate f [.int a] limit).Begins (p.evaluate f [.int a] limit') := by
  unfold evaluate
  cases hf : p.find? f with
  | none =>
    rw [evaluateOn_of_find?_none hf, evaluateOn_of_find?_none hf]
    exact Run.begins_fault (by simp [Fault.of])
  | some g =>
    rw [evaluateOn_of_find? hf, evaluateOn_of_find? hf, Stack.take?_endless]
    have hroom : limit.toNat ≤ limit'.toNat := by omega
    exact apply_begins limit limit' hroom g _ none

/-- The first call in the order of evaluation that is nested deeper than the limit is made at the
place. The call of the whole has no place. -/
def FirstTooDeep (p : Program) (f : Name) (a : Int) (limit : Nat) (span : Option Span) : Prop :=
  ∃ g h n below, p.find? f = some g ∧ p.Passes limit (.entry g a) (.call h n span below) ∧
    Frame.calls below = limit

/-- An overflow comes from the limit, and from nothing that an expression does. -/
theorem next?_ne_overflow (m : Moment) :
    p.next? m ≠ some (.fault (.of (.stackOverflow depth) span)) := by
  intro h
  cases m with
  | eval x a e below =>
    have htake := Option.some.inj h
    cases e with
    | int v _ =>
      rw [Moment.takeUp] at htake
      cases hv : v.word with
      | ok n => simp [hv] at htake
      | error m => simp [hv, Fault.of] at htake
    | var y _ =>
      rw [Moment.takeUp] at htake
      split at htake
      · cases htake
      · cases htake
    | binary | call | case | foreign => cases htake
  | call g n _ below => cases h
  | fault f => cases h
  | value n below =>
    cases below with
    | nil => cases h
    | cons frame below =>
      have hresume := Option.some.inj h
      cases frame with
      | left | branch | callee | body => cases hresume
      | right operator m =>
        rw [Moment.resume] at hresume
        split at hresume <;> cases hresume
      | argument f _ =>
        rw [Moment.resume] at hresume
        split at hresume <;> cases hresume
      | scrutinee x a cs _ =>
        rw [Moment.resume] at hresume
        split at hresume <;> cases hresume

theorem Passes.ne_overflow {g : Definition} {m : Moment} {limit : Nat}
    (h : p.Passes limit (.entry g a) m) : m ≠ .fault (.of (.stackOverflow depth) span) := by
  refine h.keeps (P := fun m => m ≠ .fault (.of (.stackOverflow depth) span)) ?_ ?_
  · simp [Moment.entry]
  · intro s t hnext _ ht
    rw [ht] at hnext
    exact next?_ne_overflow s (nextWithin?_eq_some hnext).2

/-- A run overflows at the first call that is nested too deep, and at nothing else. -/
theorem outcome_eq_overflow_iff :
    (p.evaluate f [.int a] limit).outcome = .error (.of (.stackOverflow depth) span) ↔
      depth = limit ∧ p.FirstTooDeep f a limit.toNat span := by
  constructor
  · intro hover
    cases hf : p.find? f with
    | none =>
      rw [evaluate, evaluateOn_of_find?_none hf] at hover
      cases hover
    | some g =>
      obtain ⟨last, hlast, hnone, houtcome⟩ := exists_last hf a limit
      rw [hover] at houtcome
      cases last with
      | eval x b e below => cases houtcome
      | value n below => cases below <;> cases houtcome
      | fault fault =>
        cases houtcome
        exact absurd rfl hlast.ne_overflow
      | call h n place below =>
        cases houtcome
        have hle : Frame.calls below ≤ limit.toNat := hlast.calls_le
        have hdeep : limit.toNat ≤ Frame.calls below := nextWithin?_call_eq_none_iff.mp hnone
        exact ⟨rfl, g, h, n, below, hf, hlast, by omega⟩
  · rintro ⟨rfl, g, h, n, below, hf, hpass, hcalls⟩
    have hstop : p.nextWithin? depth.toNat (.call h n span below) = none :=
      nextWithin?_call_eq_none_iff.mpr (by omega)
    have houtcome := outcome_of_last hf hpass hstop
    exact (Option.some.inj houtcome).symm

theorem FirstTooDeep.span_eq_none (h : p.FirstTooDeep f a 0 span) : span = none := by
  obtain ⟨g, _, n, below, hf, hpass, _⟩ := h
  have hstop : p.nextWithin? 0 (.entry g a) = none :=
    nextWithin?_call_eq_none_iff.mpr (Nat.zero_le _)
  rcases Relation.ReflTransGen.cases_head hpass with heq | ⟨m, hm, _⟩
  · cases heq
    rfl
  · simp [hstop] at hm

/-- The limit on nested calls is a threshold and nothing else: an overflow reports the limit and the first call
that is nested deeper, and a larger limit can only make the log go on. -/
theorem evaluate_limit (p : Program) (f : Name) (a : Int) {limit limit' : Int} (h : limit < limit') :
    let run := p.evaluate f [.int a] limit
    let run' := p.evaluate f [.int a] limit'
    (¬ run.Overflows → run'.outcome = run.outcome ∧ Call.log run'.calls = Call.log run.calls) ∧
    (run'.Overflows → run.Overflows) ∧
    (∀ depth span, run.outcome = .error (.of (.stackOverflow depth) span) ↔
      depth = limit ∧ p.FirstTooDeep f a limit.toNat span) ∧
    (limit ≤ 0 → ∀ depth span, run.outcome = .error (.of (.stackOverflow depth) span) → span = none) ∧
    Call.log run.calls <+: Call.log run'.calls := by
  intro run run'
  have hbegins : run.Begins run' := evaluate_begins p f a (Int.le_of_lt h)
  refine ⟨fun hno => ?_, fun hover => ?_, fun depth span => outcome_eq_overflow_iff, ?_, ?_⟩
  · rcases hbegins with ⟨heq, _⟩ | ⟨hover, _⟩
    · rw [heq]
      exact ⟨rfl, rfl⟩
    · exact absurd hover hno
  · rcases hbegins with ⟨heq, _⟩ | ⟨hover', _⟩
    · rwa [heq]
    · exact hover'
  · intro hlimit depth span hover
    have hzero : limit.toNat = 0 := by omega
    have hfirst := (outcome_eq_overflow_iff.mp hover).2
    rw [hzero] at hfirst
    exact hfirst.span_eq_none
  · have hlines : Call.linesOf 0 run.calls <+: Call.linesOf 0 run'.calls := by
      rcases hbegins with ⟨heq, _⟩ | ⟨_, hlog⟩
      · rw [heq]
      · exact hlog 0
    exact hlines.map _

/-- A function that calls itself in the argument of another call. Of the two calls the inner one comes
first, and the limit 2 is exceeded there. -/
theorem evaluate_limit_inner :
    let inner : Span := ⟨"a", 2, 3, 1, 3⟩
    let outer : Span := ⟨"a", 0, 3, 1, 1⟩
    let x : Expr := .var (.text "x") none
    let less : Expr := .binary "-" x (.int (.int 1) none) none
    let again : Expr := .call (.text "g") (.call (.text "f") less (some inner)) (some outer)
    let zero : Clause Expr := ⟨.literal (.int 0) none, x, none⟩
    let other : Clause Expr := ⟨.wildcard none, again, none⟩
    let p := ofDefinitions [⟨.text "f", .text "x", .case x [zero, other] none, none⟩,
      ⟨.text "g", .text "x", x, none⟩]
    (2 : Int) < 3 ∧ (p.evaluate (.text "f") [.int 2] 3).outcome = .ok 0 ∧
      p.FirstTooDeep (.text "f") 2 2 (some inner) ∧ ¬ p.FirstTooDeep (.text "f") 2 2 (some outer) ∧
      Call.log (p.evaluate (.text "f") [.int 2] 2).calls <+:
        Call.log (p.evaluate (.text "f") [.int 2] 3).calls := by
  intro inner outer x less again zero other p
  have hlimit := evaluate_limit p (.text "f") 2 (by decide : (2 : Int) < 3)
  have hover : (p.evaluate (.text "f") [.int 2] 2).outcome =
      .error (.of (.stackOverflow 2) (some inner)) := by rfl
  refine ⟨by decide, by rfl, ((hlimit.2.2.1 _ _).mp hover).2, fun hfirst => ?_, hlimit.2.2.2.2⟩
  have hother := (hlimit.2.2.1 2 (some outer)).mpr ⟨rfl, hfirst⟩
  have hspan : inner = outer := by simpa [Fault.of] using hover.symm.trans hother
  exact absurd hspan (by decide)

end Program

end Casewise
