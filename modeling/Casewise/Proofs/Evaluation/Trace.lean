import Casewise.Proofs.Evaluation.Blocks

/-! The log of an evaluation is a record of its calls. It shows what is done in the order in which it is
done, every block of it is the log of an evaluation, and where an evaluation fails, the lines without a
return tell which calls were open. -/
namespace Casewise

open Call (Line)

namespace Program

variable {p : Program} {f : Name} {g : Definition} {a v limit : Int}

/-- What the log of an application shows. -/
def recorded (p : Program) (f : Name) (a limit : Int) : List Line :=
  Call.recordOf 0 (p.evaluate f [.int a] limit).calls

theorem log_eq_map_text (p : Program) (f : Name) (a limit : Int) :
    Call.log (p.evaluate f [.int a] limit).calls =
      (p.recorded f a limit).map ("interpreter: " ++ ·.text) := by
  rw [Call.log, recorded, ← Call.map_text_recordOf, List.map_map]
  rfl

theorem recordOf_callsOf (limit : Int) (cs : List (Name × Int)) :
    Call.recordOf 1 (p.callsOf limit cs) =
      cs.flatMap fun c => (p.recorded c.1 c.2 limit).map (.shift 1) := by
  induction cs with
  | nil => rfl
  | cons c cs ih =>
    rw [callsOf, List.flatMap_cons, List.flatMap_cons, Call.recordOf_append, recorded, ← Call.recordOf_add]
    exact congrArg (_ ++ ·) ih

theorem evaluate_eq_enter (hf : p.find? f = some g) (ha : Word.IsWord a) (hlimit : 1 ≤ limit) :
    p.evaluate f [.int a] limit = .enter g.name a
      (g.body.eval (p.activation limit (limit - 1).toNat g a none) .endless) := by
  have hroom : limit.toNat = (limit - 1).toNat + 1 := by omega
  rw [evaluate_eq_invoker ha, invoker, hf, hroom]
  rfl

theorem one_le_of_value (hf : p.find? f = some g) (ha : Word.IsWord a)
    (h : (p.evaluate f [.int a] limit).outcome = .ok v) : 1 ≤ limit := by
  by_contra hlimit
  have hroom : limit.toNat = 0 := by omega
  rw [evaluate_eq_invoker ha, invoker, hf, hroom] at h
  cases h

theorem recorded_of_value (hkeys : p.keys = p.definitions.map Definition.name) (hf : p.find? f = some g)
    (ha : Word.IsWord a) (h : (p.evaluate f [.int a] limit).outcome = .ok v) :
    ∃ cs, p.Makes (limit - 1) g.param a g.body cs v ∧
      p.recorded f a limit = .opened 0 f a ::
        ((cs.flatMap fun c => (p.recorded c.1 c.2 (limit - 1)).map (.shift 1)) ++ [.closed 0 f a v]) := by
  have hrun := evaluate_eq_enter hf ha (one_le_of_value hf ha h)
  rw [hrun] at h
  have hbody : (g.body.eval (p.activation limit (limit - 1).toNat g a none) .endless).outcome = .ok v := h
  obtain ⟨cs, hcs, hcalls⟩ := exists_makes hkeys ha rfl hbody
  refine ⟨cs, hcs, ?_⟩
  rw [recorded, hrun, Run.recordOf_enter g.name a hbody, hcalls, recordOf_callsOf, name_of_find? hkeys hf]

theorem head?_unreturned_recorded (hkeys : p.keys = p.definitions.map Definition.name)
    (hf : p.find? f = some g) (ha : Word.IsWord a) (hlimit : 1 ≤ limit) {fault : Fault}
    (h : (p.evaluate f [.int a] limit).outcome = .error fault) :
    (Line.unreturned (p.recorded f a limit)).head? = some (.opened 0 f a) := by
  have hrun := evaluate_eq_enter hf ha hlimit
  rw [hrun] at h
  have hbody : (g.body.eval (p.activation limit (limit - 1).toNat g a none) .endless).outcome =
      .error fault := h
  rw [recorded, hrun, Run.recordOf_enter_error g.name a hbody, name_of_find? hkeys hf]
  exact Line.head?_unreturned fun l hl => Call.le_around_of_mem_recordOf hl

/-- A block is all that an evaluation writes, moved to its depth. -/
theorem block_eq_recorded (hkeys : p.keys = p.definitions.map Definition.name) (ha : Word.IsWord a)
    {before block after : List Line} {m : Nat} {h h' : Name} {b b' w : Int}
    (heq : p.recorded f a limit = before ++ .opened m h b :: (block ++ .closed m h' b' w :: after))
    (hblock : ∀ l ∈ block, m < l.around) :
    h' = h ∧ b' = b ∧ (p.evaluate h [.int b] (limit - m)).outcome = .ok w ∧
      .opened m h b :: (block ++ [.closed m h b w]) = (p.recorded h b (limit - m)).map (.shift m) := by
  obtain ⟨j, sub, hj, hstands, rfl, rfl, rfl⟩ := Call.exists_of_block heq hblock
  obtain rfl : m = j := by omega
  obtain ⟨c, hc, hstands⟩ := hstands.exists_mem
  have hholds : (p.evaluate f [.int a] limit).Holds (p.Faithful limit.toNat) := by
    rw [evaluate_eq_invoker ha]
    exact invoker_holds hkeys ha
  obtain ⟨hm, hrun⟩ := hholds.calls c hc _ _ _ _ _ hstands
  obtain ⟨hcalls, hresult⟩ := hrun (limit - m) (by omega)
  refine ⟨rfl, rfl, Run.outcome_eq_ok hresult, ?_⟩
  have hshift := Call.recordOf_add 0 m [.node h' b' sub (some w)]
  rw [Nat.zero_add] at hshift
  rw [recorded, hcalls, ← hshift, Call.recordOf_cons]
  rfl

/-- Where a recorder has stopped, the lines without a return are those of the calls that are open, at
consecutive depths and no more than the limit allows; all of these depths are taken if the run overflows. -/
theorem unreturned_recorded (hf : p.find? f = some g) (a limit : Int) :
    ∃ r : Recorder, p.Records limit.toNat (.entry g a) r ∧ p.nextWithin? limit.toNat r.moment = none ∧
      r.moment.outcome? limit = some (p.evaluate f [.int a] limit).outcome ∧
      r.written = p.recorded f a limit ∧
      Line.unreturned (p.recorded f a limit) = (Line.openedBy r.active).reverse ∧
      r.active.length ≤ limit.toNat ∧
      (∀ v, (p.evaluate f [.int a] limit).outcome = .ok v → r.active = []) ∧
      ((p.evaluate f [.int a] limit).Overflows → r.active.length = limit.toNat) := by
  obtain ⟨r, hr, hstop, houtcome, hwritten, hvalue⟩ := exists_recorded hf a limit
  have hconsistent := hr.consistent (Recorder.consistent_entry _ _ _)
  refine ⟨r, hr, hstop, houtcome, hwritten, ?_, hconsistent.active_le, hvalue, ?_⟩
  · rw [recorded, ← hwritten, Line.unreturned, hconsistent.written]
  · rintro ⟨depth, span, hover⟩
    rw [hover] at houtcome
    obtain ⟨m, active, written⟩ := r
    cases m with
    | eval x b e below => cases houtcome
    | value n below => cases below <;> cases houtcome
    | fault fault =>
      cases houtcome
      exact absurd rfl hr.passes.ne_overflow
    | call h n span below =>
      have hcalls : active.length = Frame.calls below := hconsistent.calls.resolve_left (by simp)
      have hdeep : limit.toNat ≤ Frame.calls below := nextWithin?_call_eq_none_iff.mp hstop
      have hle : active.length ≤ limit.toNat := hconsistent.active_le
      change active.length = limit.toNat
      omega

/-- The log of an application is a record of its calls. The log of a value is one block, every block in a log is
that of an application of its own under the limit that is left, and where there is no value, the lines without a
return are those of the calls that are open. -/
theorem evaluate_recorded (hkeys : p.keys = p.definitions.map Definition.name) (hf : p.find? f = some g)
    (ha : Word.IsWord a) (limit : Int) :
    let run := p.evaluate f [.int a] limit
    let record := p.recorded f a limit
    Call.log run.calls = record.map ("interpreter: " ++ ·.text) ∧
    (∃ r : Recorder, p.Records limit.toNat (.entry g a) r ∧ p.Passes limit.toNat (.entry g a) r.moment ∧
      p.nextWithin? limit.toNat r.moment = none ∧ r.moment.outcome? limit = some run.outcome ∧
      r.written = record ∧ Line.unreturned record = (Line.openedBy r.active).reverse ∧
      (Line.unreturned record).map Line.around = List.range r.active.length ∧
      r.active.length ≤ limit.toNat ∧ (∀ v, run.outcome = .ok v → r.active = []) ∧
      (run.Overflows → r.active.length = limit.toNat)) ∧
    (∀ v, run.outcome = .ok v → ∃ cs, p.Makes (limit - 1) g.param a g.body cs v ∧
      record = .opened 0 f a ::
        ((cs.flatMap fun c => (p.recorded c.1 c.2 (limit - 1)).map (.shift 1)) ++ [.closed 0 f a v])) ∧
    (∀ before block after (m : Nat) h b h' b' w,
      record = before ++ .opened m h b :: (block ++ .closed m h' b' w :: after) →
      (∀ l ∈ block, m < l.around) →
      h' = h ∧ b' = b ∧ (p.evaluate h [.int b] (limit - m)).outcome = .ok w ∧
      .opened m h b :: (block ++ [.closed m h b w]) = (p.recorded h b (limit - m)).map (.shift m) ∧
      (Line.opened m h b :: (block ++ [.closed m h b w])).map Line.text =
        (Call.linesOf 0 (p.evaluate h [.int b] (limit - m)).calls).map (Call.margin m ++ ·)) ∧
    (∀ fault, run.outcome = .error fault → 1 ≤ limit →
      (Line.unreturned record).head? = some (.opened 0 f a)) ∧
    (∀ runtime : Runtime, 1 ≤ limit → runtime.Affords p limit → p.execute runtime f [.int a] limit = run) := by
  intro run record
  refine ⟨log_eq_map_text p f a limit, ?_, fun v => recorded_of_value hkeys hf ha, ?_,
    fun fault h hlimit => head?_unreturned_recorded hkeys hf ha hlimit h,
    fun runtime hlimit hafford => execute_eq_evaluate hafford f a hlimit⟩
  · obtain ⟨r, hr, hstop, houtcome, hwritten, hopen, hle, hvalue, hover⟩ := unreturned_recorded hf a limit
    refine ⟨r, hr, hr.passes, hstop, houtcome, hwritten, hopen, ?_, hle, hvalue, hover⟩
    rw [hopen, Line.around_openedBy]
  · intro before block after m h b h' b' w heq hblock
    obtain ⟨hh, hb, hvalue, hlines⟩ := block_eq_recorded hkeys ha heq hblock
    refine ⟨hh, hb, hvalue, hlines, ?_⟩
    rw [hlines, List.map_map, recorded, ← Call.map_text_recordOf, List.map_map]
    exact List.map_congr_left fun l _ => Line.text_shift m l

/-- A call in the argument of another one. The inner call comes first, and its block is the log of its
own application. -/
theorem evaluate_recorded_inner :
    let x : Expr := .var (.text "x") none
    let less : Expr := .binary "-" x (.int (.int 1) none) none
    let zero : Clause Expr := ⟨.literal (.int 0) none, x, none⟩
    let other : Clause Expr := ⟨.wildcard none, .call (.text "g") (.call (.text "f") less none) none, none⟩
    let f : Definition := ⟨.text "f", .text "x", .case x [zero, other] none, none⟩
    let p := ofDefinitions [f, ⟨.text "g", .text "x", x, none⟩]
    p.keys = p.definitions.map Definition.name ∧ p.find? (.text "f") = some f ∧ Word.IsWord 1 ∧
      Call.log (p.evaluate (.text "f") [.int 1] 3).calls = ["interpreter: call f 1",
        "interpreter:   call f 0", "interpreter:   f 0 = 0", "interpreter:   call g 0",
        "interpreter:   g 0 = 0", "interpreter: f 1 = 0"] ∧
      (∃ cs, p.Makes 2 (.text "x") 1 f.body cs 0) ∧
      [Line.opened 1 (.text "f") 0, .closed 1 (.text "f") 0 0] =
        (p.recorded (.text "f") 0 2).map (.shift 1) := by
  intro x less zero other f p
  have hkeys : p.keys = p.definitions.map Definition.name := by rfl
  have hf : p.find? (.text "f") = some f := by rfl
  have hone : Word.IsWord 1 := by decide
  have hrecord : p.recorded (.text "f") 1 3 = [.opened 0 (.text "f") 1] ++ .opened 1 (.text "f") 0 ::
      ([] ++ .closed 1 (.text "f") 0 0 :: [.opened 1 (.text "g") 0, .closed 1 (.text "g") 0 0,
        .closed 0 (.text "f") 1 0]) := by rfl
  obtain ⟨hlog, _, hvalue, hblocks, _⟩ := evaluate_recorded hkeys hf hone 3
  obtain ⟨cs, hcs, _⟩ := hvalue 0 (by rfl)
  have hblock := hblocks _ _ _ _ _ _ _ _ _ hrecord (by simp)
  refine ⟨hkeys, hf, hone, ?_, ⟨cs, hcs⟩, hblock.2.2.2.1⟩
  rw [hlog, hrecord]
  decide +kernel

/-- A variable, handed so many times to the function that it is the parameter of. -/
def again : Nat → Expr
  | 0 => .var (.text "n") none
  | k + 1 => .call (.text "f") (again k) none

/-- A program without a value, of one function that calls itself so many times in arguments. -/
def nested (k : Nat) : Program := ofDefinitions [⟨.text "f", .text "n", again k, none⟩]

theorem depth_again (k : Nat) : (again k).depth = k + 1 := by
  induction k with
  | zero => rfl
  | succ k ih => rw [again, Expr.depth, ih]

/-- On a stack that ends, the innermost call is made first if it fits, and where that comes to nothing,
nothing else is done. -/
theorem eval_again {act : Activation} (hparam : act.param = .text "n")
    (hfails : ∀ m n, ∃ fault, (act.invoke (.frames m) (.text "f") n none).outcome = .error fault) (k m : Nat) :
    (again (k + 1)).eval act (.frames m) =
      if 2 * (k + 1) + 1 < m then act.invoke (.frames (m - (2 * (k + 1) + 1))) (.text "f") act.bound none
      else .fault act.exhausted := by
  have htwo : Expr.frames = 2 := rfl
  have hone : Expr.callFrames = 1 := rfl
  by_cases hm : 2 ≤ m
  · induction k generalizing m with
    | zero =>
      rw [again, again, Expr.eval, act.push_frames (by omega), Expr.eval]
      by_cases hfits : 3 < m
      · rw [act.push_frames (by omega), if_pos hparam.symm, if_pos hfits]
        change act.push Expr.callFrames _ _ = _
        rw [act.push_frames (by omega), Nat.sub_sub]
        rfl
      · rw [act.push_frames_of_lt (by omega), if_neg hfits]
        exact Run.bind_of_error ⟨_, rfl⟩
    | succ k ih =>
      rw [again, Expr.eval, act.push_frames (by omega)]
      by_cases hrest : 2 ≤ m - Expr.frames
      · rw [ih _ hrest]
        by_cases hfits : 2 * (k + 1 + 1) + 1 < m
        · have hroom : m - Expr.frames - (2 * (k + 1) + 1) = m - (2 * (k + 1 + 1) + 1) := by omega
          rw [if_pos hfits, if_pos (by omega), hroom]
          exact Run.bind_of_error (hfails _ _)
        · rw [if_neg hfits, if_neg (by omega)]
          exact Run.bind_of_error ⟨_, rfl⟩
      · rw [again, Expr.eval, act.push_frames_of_lt (by omega), if_neg (by omega)]
        exact Run.bind_of_error ⟨_, rfl⟩
  · rw [again, Expr.eval, act.push_frames_of_lt (by omega), if_neg (by omega)]

def nestedDefinition (k : Nat) : Definition := ⟨.text "f", .text "n", again k, none⟩

theorem apply_nested_succ (limit : Int) (room k m : Nat) (n : Int)
    (hfails : ∀ m n, ∃ fault, ((nested (k + 1)).apply limit room (.frames m) (nestedDefinition (k + 1)) n
      none).outcome = .error fault) :
    (nested (k + 1)).apply limit (room + 1) (.frames m) (nestedDefinition (k + 1)) n none =
      .enter (.text "f") n (if 2 * (k + 1) + 1 < m then
        (nested (k + 1)).apply limit room (.frames (m - (2 * (k + 1) + 1))) (nestedDefinition (k + 1)) n none
      else .fault (.of (.stackOverflow (limit - room)) none)) := by
  rw [apply_succ]
  exact congrArg (Run.enter _ n) (eval_again rfl hfails k m)

theorem nested_fails (limit : Int) (k room m : Nat) (n : Int) : ∃ fault,
    ((nested (k + 1)).apply limit room (.frames m) (nestedDefinition (k + 1)) n none).outcome =
      .error fault := by
  induction room generalizing m n with
  | zero => exact ⟨_, rfl⟩
  | succ room ih =>
    rw [apply_nested_succ limit room k m n ih]
    split
    · exact ih _ n
    · exact ⟨_, rfl⟩

/-- The calls of `nested` open one inside the other until the stack ends. -/
theorem apply_nested (limit : Int) (k room q m : Nat) (n : Int) (hq : q < room)
    (hlow : q * (2 * (k + 1) + 1) < m) (hhigh : m ≤ (q + 1) * (2 * (k + 1) + 1)) (d : Nat) :
    let run := (nested (k + 1)).apply limit room (.frames m) (nestedDefinition (k + 1)) n none
    run.outcome = .error (.of (.stackOverflow (limit - room + q + 1)) none) ∧
      Call.recordOf d run.calls = (List.range (q + 1)).map fun i => .opened (d + i) (.text "f") n := by
  induction q generalizing room m d with
  | zero =>
    obtain ⟨room, rfl⟩ : ∃ r, room = r + 1 := ⟨room - 1, by omega⟩
    have hdepth : limit - (room + 1 : Nat) + (0 : Nat) + 1 = limit - room := by omega
    rw [apply_nested_succ limit room k m n (nested_fails limit k room), if_neg (by omega), hdepth]
    exact ⟨rfl, rfl⟩
  | succ q ih =>
    obtain ⟨room, rfl⟩ : ∃ r, room = r + 1 := ⟨room - 1, by omega⟩
    rw [Nat.succ_mul] at hlow hhigh
    rw [apply_nested_succ limit room k m n (nested_fails limit k room), if_pos (by omega)]
    obtain ⟨houtcome, hrecord⟩ := ih room (m - (2 * (k + 1) + 1)) (by omega) (by omega) (by omega) (d + 1)
    have hdepth : limit - (room + 1 : Nat) + (q + 1 : Nat) + 1 = limit - room + q + 1 := by omega
    refine ⟨by rw [hdepth]; exact houtcome, ?_⟩
    rw [Run.recordOf_enter_error _ n houtcome, hrecord, List.range_succ_eq_map (n := q + 1), List.map_cons,
      List.map_map]
    refine congrArg (_ :: ·) (List.map_congr_left fun i _ => ?_)
    rw [Function.comp_apply, Nat.add_assoc, Nat.succ_eq_one_add]

theorem nesting_nested (k : Nat) : (nested k).nesting = k + 1 := by
  rw [← depth_again k]
  rfl

theorem depthFrames_again (k : Nat) : (again k).depthFrames = k + 1 := by
  induction k with
  | zero => rfl
  | succ k ih => rw [again, Expr.depthFrames, ih]

theorem nestingFrames_nested (k : Nat) : (nested k).nestingFrames = k + 4 := by
  have hframes : (nested k).nestingFrames = (again k).depthFrames + Expr.sequenceFrames + 1 := rfl
  rw [hframes, depthFrames_again]
  rfl

/-- With 300 calls in the arguments of each other, the stack that is asked for ends in the 187th open call,
and so does evaluation, although the limit allows 200. -/
theorem execute_nested :
    let runtime : Runtime := ⟨12000, 10, by decide, by decide⟩
    (nested 300).keys = (nested 300).definitions.map Definition.name ∧
      (nested 300).find? (.text "f") = some (nestedDefinition 300) ∧ Word.IsWord (-2) ∧
      ((nested 300).execute runtime (.text "f") [.int (-2)] 200).outcome =
        .error (.of (.stackOverflow 187) none) ∧
      (Line.unreturned (Call.recordOf 0
        ((nested 300).execute runtime (.text "f") [.int (-2)] 200).calls)).length = 187 ∧
      (187 : Int) ≠ 200 := by
  intro runtime
  have hf : (nested 300).find? (.text "f") = some (nestedDefinition 300) := by rfl
  have hneeded : (nested 300).framesNeeded 200 = 100000 := by
    rw [framesNeeded, nesting_nested]
    decide
  have hcounted : runtime.used + (nested 300).nestingFrames ≤ runtime.limit := by
    rw [nestingFrames_nested]
    decide
  have hnone : runtime.refusal? (nested 300) 200 = none := by
    rw [refusal?_of_counted (by decide) hcounted, hneeded]
    decide
  have hexecute : (nested 300).execute runtime (.text "f") [.int (-2)] 200 =
      (nested 300).apply 200 200 (.frames 111989) (nestedDefinition 300) (-2) none := by
    rw [execute_of_accepted hnone, hneeded, evaluateOn_of_find? hf]
    rfl
  obtain ⟨houtcome, hrecord⟩ := apply_nested 200 299 200 186 111989 (-2) (by decide) (by decide) (by decide) 0
  refine ⟨by rfl, hf, by decide, by rw [hexecute]; exact houtcome, ?_, by decide⟩
  rw [hexecute, hrecord, Line.unreturned_of_opened fun l hl => ?_]
  · rw [List.length_map, List.length_range]
  · obtain ⟨i, _, rfl⟩ := List.mem_map.mp hl
    exact ⟨_, _, _, rfl⟩

end Program

end Casewise
