import Mathlib.Data.List.Basic
import Casewise.Evaluation.Call

/-!
Records: the lines of a log as what they say, before they are spelled. Every line says how many calls
are around it, which the log shows as indentation, so a stretch of a record can be moved to another depth
and a block can be told by its margin.
-/
namespace Casewise

namespace Call

/-- A line of a record: a call is entered, or left with its result. -/
inductive Line
  | opened (around : Nat) (function : Name) (argument : Int)
  | closed (around : Nat) (function : Name) (argument result : Int)
deriving DecidableEq

namespace Line

def around : Line → Nat
  | opened around _ _ | closed around _ _ _ => around

def text : Line → String
  | opened around function argument => entry around function argument
  | closed around function argument result => exit around function argument result

/-- The line with so many calls more around it. -/
def shift (n : Nat) : Line → Line
  | opened around function argument => opened (around + n) function argument
  | closed around function argument result => closed (around + n) function argument result

end Line

mutual

def record (around : Nat) : Call → List Line
  | node function argument inner result =>
    .opened around function argument :: (recordOf (around + 1) inner ++
      (result.map (.closed around function argument)).toList)

def recordOf (around : Nat) : List Call → List Line
  | [] => []
  | call :: calls => call.record around ++ recordOf around calls

end

@[elab_as_elim]
theorem forest_induct {motive : List Call → Prop} (nil : motive [])
    (cons : ∀ function argument inner result calls, motive inner → motive calls →
      motive (node function argument inner result :: calls)) (calls : List Call) : motive calls := by
  apply @Call.rec_1 (fun c => ∀ calls, motive calls → motive (c :: calls)) motive
  · exact fun function argument inner result hinner calls => cons _ _ _ _ _ hinner
  · exact nil
  · exact fun c calls hc hcalls => hc calls hcalls

variable {d m n : Nat} {f : Name} {a : Int} {l : Line} {calls inner : List Call} {r : Option Int}

@[simp] theorem recordOf_nil (d : Nat) : recordOf d [] = [] := rfl

theorem recordOf_cons (d : Nat) (f : Name) (a : Int) (inner : List Call) (r : Option Int)
    (calls : List Call) : recordOf d (node f a inner r :: calls) =
      .opened d f a :: (recordOf (d + 1) inner ++ ((r.map (.closed d f a)).toList ++ recordOf d calls)) := by
  rw [recordOf, record, List.cons_append, List.append_assoc]

theorem recordOf_append (d : Nat) (calls calls' : List Call) :
    recordOf d (calls ++ calls') = recordOf d calls ++ recordOf d calls' := by
  induction calls with
  | nil => rfl
  | cons c calls ih => rw [List.cons_append, recordOf, recordOf, ih, List.append_assoc]

/-- The log spells the record. -/
theorem map_text_recordOf (d : Nat) (calls : List Call) :
    (recordOf d calls).map Line.text = linesOf d calls := by
  induction calls using forest_induct generalizing d with
  | nil => rfl
  | cons f a inner r calls hinner hcalls =>
    rw [recordOf_cons, linesOf, lines]
    cases r <;> simp [hinner, hcalls, Line.text]

theorem recordOf_add (d n : Nat) (calls : List Call) :
    recordOf (d + n) calls = (recordOf d calls).map (.shift n) := by
  induction calls using forest_induct generalizing d with
  | nil => rfl
  | cons f a inner r calls hinner hcalls =>
    have hdeeper : recordOf (d + n + 1) inner = (recordOf (d + 1) inner).map (.shift n) := by
      rw [← hinner, Nat.add_right_comm]
    rw [recordOf_cons, recordOf_cons, hdeeper, hcalls]
    cases r <;> simp [Line.shift]

theorem margin_add (d n : Nat) : margin (d + n) = margin n ++ margin d := by
  rw [margin, margin, margin, ← String.ofList_append, ← List.replicate_add]
  congr 2
  omega

/-- A line that has calls more around it is indented by two spaces for each of them. -/
theorem Line.text_shift (n : Nat) (l : Line) : (l.shift n).text = margin n ++ l.text := by
  cases l <;> simp [shift, text, entry, exit, margin_add, String.append_assoc]

theorem le_around_of_mem_recordOf (h : l ∈ recordOf d calls) : d ≤ l.around := by
  induction calls using forest_induct generalizing d with
  | nil => cases h
  | cons f a inner r calls hinner hcalls =>
    rw [recordOf_cons] at h
    simp only [List.mem_cons, List.mem_append, Option.mem_toList,
      Option.map_eq_some_iff] at h
    rcases h with rfl | h | ⟨v, _, rfl⟩ | h
    · exact Nat.le_refl d
    · exact Nat.le_of_succ_le (hinner h)
    · exact Nat.le_refl d
    · exact hcalls h

/-- A record begins at its margin, with a call that is entered. -/
theorem exists_opened_of_recordOf {ls : List Line} (h : recordOf d calls = l :: ls) :
    ∃ f a, l = .opened d f a := by
  cases calls with
  | nil => cases h
  | cons c calls =>
    obtain ⟨f, a, inner, r⟩ := c
    rw [recordOf_cons] at h
    exact ⟨f, a, (List.cons.inj h).1.symm⟩

/-- A call that stands in a forest with so many calls of the forest around it. -/
inductive Stands (c : Call) : Nat → List Call → Prop
  | here {calls : List Call} : c ∈ calls → Stands c 0 calls
  | inside {n : Nat} {f : Name} {a : Int} {inner : List Call} {r : Option Int} {calls : List Call} :
    node f a inner r ∈ calls → Stands c n inner → Stands c (n + 1) calls

theorem Stands.cons {c d : Call} (h : Stands c n calls) : Stands c n (d :: calls) := by
  cases h with
  | here h => exact .here (List.mem_cons_of_mem d h)
  | inside hmem h => exact .inside (List.mem_cons_of_mem d hmem) h

theorem Stands.exists_mem {c : Call} (h : Stands c n calls) : ∃ d ∈ calls, Stands c n [d] := by
  cases h with
  | here h => exact ⟨c, h, .here List.mem_cons_self⟩
  | inside hmem h => exact ⟨_, hmem, .inside List.mem_cons_self h⟩

private theorem append_eq_append_cons {α : Type} {as bs cs ds : List α} {x : α}
    (h : as ++ bs = cs ++ x :: ds) :
    (∃ es, as = cs ++ x :: es ∧ ds = es ++ bs) ∨ ∃ es, cs = as ++ es ∧ bs = es ++ x :: ds := by
  rcases List.append_eq_append_iff.mp h with ⟨es, hcs, hbs⟩ | ⟨es, has, hds⟩
  · exact Or.inr ⟨es, hcs, hbs⟩
  · cases es with
    | nil => exact Or.inr ⟨[], by simpa using has.symm, by simpa using hds.symm⟩
    | cons y es =>
      obtain ⟨rfl, rfl⟩ := List.cons.inj hds
      exact Or.inl ⟨es, has, rfl⟩

/-- What follows the inside of a call begins at the margin of the call. -/
private theorem around_eq_of_behind {ls : List Line}
    (h : (r.map (Line.closed d f a)).toList ++ recordOf d calls = l :: ls) : l.around = d := by
  cases r with
  | some v =>
    rw [← (List.cons.inj h).1]
    rfl
  | none =>
    obtain ⟨_, _, rfl⟩ := exists_opened_of_recordOf h
    rfl

private theorem eq_inside {block after : List Line} {f' : Name} {a' w : Int}
    (heq : recordOf (d + 1) inner ++ ((r.map (Line.closed d f a)).toList ++ recordOf d calls) =
      block ++ .closed d f' a' w :: after)
    (hblock : ∀ l ∈ block, d < l.around) :
    r = some w ∧ f' = f ∧ a' = a ∧ block = recordOf (d + 1) inner := by
  rcases append_eq_append_cons heq with ⟨es, hes, _⟩ | ⟨es, hes, hbehind⟩
  · have hclosed : d + 1 ≤ (Line.closed d f' a' w).around := le_around_of_mem_recordOf (by rw [hes]; simp)
    exact absurd hclosed (Nat.not_succ_le_self d)
  cases es with
  | cons l es =>
    have hl : d < l.around := hblock l (by simp [hes])
    have : l.around = d := around_eq_of_behind hbehind
    omega
  | nil =>
    cases r with
    | none =>
      obtain ⟨_, _, hclosed⟩ := exists_opened_of_recordOf hbehind
      cases hclosed
    | some v =>
      cases (List.cons.inj hbehind).1
      exact ⟨rfl, rfl, rfl, by simpa using hes⟩

/-- A block of a record is what a call wrote that came to a result. It goes from a line on which a call
is entered to the first one behind it that is not further right, if there a call is left at the same
margin. -/
theorem exists_of_block {before block after : List Line} {h h' : Name} {b b' w : Int}
    (heq : recordOf d calls = before ++ .opened m h b :: (block ++ .closed m h' b' w :: after))
    (hblock : ∀ l ∈ block, m < l.around) :
    ∃ j sub, m = d + j ∧ Stands (node h b sub (some w)) j calls ∧ h' = h ∧ b' = b ∧
      block = recordOf (m + 1) sub := by
  induction calls using forest_induct generalizing d before block after with
  | nil => simp at heq
  | cons f a inner r calls hinner hcalls =>
    rw [recordOf_cons] at heq
    cases before with
    | nil =>
      obtain ⟨hopen, hrest⟩ := List.cons.inj heq
      cases hopen
      obtain ⟨rfl, rfl, rfl, rfl⟩ := eq_inside hrest hblock
      exact ⟨0, inner, rfl, .here List.mem_cons_self, rfl, rfl, rfl⟩
    | cons l before =>
      rcases append_eq_append_cons (List.cons.inj heq).2 with ⟨es, hes, hbehind⟩ | ⟨es, hes, hbehind⟩
      · -- a block that begins inside the first call ends there, since what follows is further left
        have hm : d + 1 ≤ m := le_around_of_mem_recordOf (l := .opened m h b) (by rw [hes]; simp)
        rcases append_eq_append_cons hbehind.symm with ⟨fs, rfl, _⟩ | ⟨fs, hfs, hclose⟩
        · obtain ⟨j, sub, rfl, hstands, hsame⟩ := hinner hes hblock
          exact ⟨j + 1, sub, by omega, .inside List.mem_cons_self hstands, hsame⟩
        · cases fs with
          | nil =>
            have : m = d := around_eq_of_behind hclose
            omega
          | cons x fs =>
            have hx : m < x.around := hblock x (by simp [hfs])
            have : x.around = d := around_eq_of_behind hclose
            omega
      · have hlater : ∃ before', recordOf d calls =
            before' ++ .opened m h b :: (block ++ .closed m h' b' w :: after) := by
          cases r with
          | none => exact ⟨es, hbehind⟩
          | some v =>
            cases es with
            | nil => cases (List.cons.inj hbehind).1
            | cons x es => exact ⟨es, (List.cons.inj hbehind).2⟩
        obtain ⟨before', hlater⟩ := hlater
        obtain ⟨j, sub, hj, hstands, hsame⟩ := hcalls hlater hblock
        exact ⟨j, sub, hj, hstands.cons, hsame⟩

namespace Line

/-- The calls that are open behind a line, the innermost first, if these are open in front of it. On
leaving a call it is open no more. -/
def follow (opened : List Line) : Line → List Line
  | .opened around f a => .opened around f a :: opened
  | .closed around f a _ => if opened.head? = some (.opened around f a) then opened.tail else opened

/-- The lines of a record that have no matching return behind them, in order. -/
def unreturned (lines : List Line) : List Line := (lines.foldl follow []).reverse

theorem unreturned_of_opened {lines : List Line} (h : ∀ l ∈ lines, ∃ d f a, l = .opened d f a) :
    unreturned lines = lines := by
  have hfold : ∀ opened, lines.foldl follow opened = lines.reverse ++ opened := by
    induction lines with
    | nil => exact fun _ => rfl
    | cons l lines ih =>
      intro opened
      obtain ⟨d, f, a, rfl⟩ := h l (by simp)
      rw [List.foldl_cons, ih fun x hx => h x (by simp [hx])]
      simp [follow]
  rw [unreturned, hfold, List.append_nil, List.reverse_reverse]

/-- The lines on which these calls were entered, one inside the other; the innermost call is first. -/
def openedBy : List (Name × Int) → List Line
  | [] => []
  | (f, a) :: outer => .opened outer.length f a :: openedBy outer

/-- Calls that are open one inside the other stand at consecutive depths. -/
theorem around_openedBy (active : List (Name × Int)) :
    (openedBy active).reverse.map around = List.range active.length := by
  induction active with
  | nil => rfl
  | cons c outer ih => simp [openedBy, ih, List.range_succ, around]

/-- Whatever is written further right, a call that is open at the margin stays open. -/
theorem exists_foldl_follow {lines : List Line} (h : ∀ l ∈ lines, d < l.around) (opened : List Line) :
    ∃ opened', lines.foldl follow (opened ++ [.opened d f a]) = opened' ++ [.opened d f a] := by
  induction lines generalizing opened with
  | nil => exact ⟨opened, rfl⟩
  | cons l lines ih =>
    have hlines : ∀ x ∈ lines, d < x.around := fun x hx => h x (by simp [hx])
    cases l with
    | opened e g b => exact ih hlines (.opened e g b :: opened)
    | closed e g b v =>
      have he : d < e := h (.closed e g b v) (by simp)
      cases opened with
      | nil =>
        have hne : ¬ d = e := by omega
        simpa [follow, hne] using ih hlines []
      | cons top opened =>
        by_cases htop : top = .opened e g b
        · simpa [follow, htop] using ih hlines opened
        · simpa [follow, htop] using ih hlines (top :: opened)

theorem head?_unreturned {lines : List Line} (h : ∀ l ∈ lines, d < l.around) :
    (unreturned (.opened d f a :: lines)).head? = some (.opened d f a) := by
  obtain ⟨opened, hopened⟩ := exists_foldl_follow (f := f) (a := a) h []
  rw [unreturned, List.foldl_cons]
  change (lines.foldl follow ([] ++ [.opened d f a])).reverse.head? = _
  rw [hopened, List.reverse_concat]
  rfl

end Line

end Call

namespace Run

variable {r : Run Int}

theorem recordOf_enter (f : Name) (a : Int) {v : Int} (h : r.outcome = .ok v) (d : Nat) :
    Call.recordOf d (enter f a r).calls =
      .opened d f a :: (Call.recordOf (d + 1) r.calls ++ [.closed d f a v]) := by
  rw [enter, h, Call.recordOf_cons]
  rfl

/-- A call without a value is recorded without a return. -/
theorem recordOf_enter_error (f : Name) (a : Int) {fault : Fault} (h : r.outcome = .error fault) (d : Nat) :
    Call.recordOf d (enter f a r).calls = .opened d f a :: Call.recordOf (d + 1) r.calls := by
  rw [enter, h, Call.recordOf_cons]
  exact congrArg (_ :: ·) (List.append_nil _)

end Run

end Casewise
