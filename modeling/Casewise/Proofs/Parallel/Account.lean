import Mathlib.Data.List.Count
import Mathlib.Data.List.Forall2
import Mathlib.Data.List.Perm.Subperm
import Casewise.Parallel.Crew

/-! Every request is accounted for. Whatever a crew does next, a request is in its queue, at a worker or run,
only once, and its future holds nothing but its own answer. -/
namespace Casewise

section

variable {ε α β : Type} {g : α → Except ε β} {as : List α} {bs : List β} {e : ε}

theorem mapM_eq_ok (h : List.Forall₂ (fun a b => g a = .ok b) as bs) : as.mapM g = .ok bs := by
  induction h with
  | nil => rfl
  | cons ha _ ih =>
    rw [List.mapM_cons, ha, ih]
    rfl

theorem mapM_eq_error {before after : List α} {a : α}
    (h : List.Forall₂ (fun a b => g a = .ok b) before bs) (ha : g a = .error e) :
    (before ++ a :: after).mapM g = .error e := by
  rw [List.mapM_append, mapM_eq_ok h, List.mapM_cons, ha]
  rfl

end

namespace Crew

/-- The futures that were collected hold values, and the outcome is that of the requests in order. -/
def Front.Right (rs : List Request) (answer : Request → Except Fault Int) : Front → Prop
  | collecting values => ∃ done rest, rs = done ++ rest ∧
    List.Forall₂ (fun r n => answer r = .ok n) done values
  | leaving outcome | ended outcome => outcome = rs.mapM answer

/-- Every request that was handed out is in its queue, at a worker, or run, and that once. -/
structure Sound (c : Crew) (rs : List Request) (answer : Request → Except Fault Int) (s : State) :
    Prop where
  handed : s.handed ≤ rs.length
  once : ∀ i, (s.waiting (c.queue i) ++ s.busy.map Prod.snd ++ s.ran).count i =
    (List.range s.handed).count i
  waiting : ∀ q, ∀ i ∈ s.waiting q, c.queue i = q
  busy : ∀ b ∈ s.busy, c.serves b.1 = c.queue b.2
  ran : ∀ i ∈ s.ran, s.futures i = rs[i]?.map answer
  futures : ∀ i, i ∉ s.ran → s.futures i = none
  front : s.front.Right rs answer

variable {c : Crew} {rs : List Request} {answer : Request → Except Fault Int} {s t : State}

theorem count_put (waiting : Nat → List Nat) (queue : Nat → Nat) (j i : Nat) :
    (Function.update waiting (queue j) (waiting (queue j) ++ [j]) (queue i)).count i =
      (waiting (queue i)).count i + [j].count i := by
  rw [Function.update_apply]
  by_cases hq : queue i = queue j
  · rw [if_pos hq, List.count_append, hq]
  · have hij : j ≠ i := fun h => hq (congrArg queue h.symm)
    rw [if_neg hq, List.count_singleton, beq_false_of_ne hij]
    rfl

theorem count_taken {waiting : Nat → List Nat} {queue : Nat → Nat} {j q : Nat} {before after : List Nat}
    (h : waiting q = before ++ j :: after) (hj : queue j = q) (i : Nat) :
    (Function.update waiting q (before ++ after) (queue i)).count i + [j].count i =
      (waiting (queue i)).count i := by
  rw [Function.update_apply]
  by_cases hq : queue i = q
  · rw [if_pos hq, hq, h]
    simp only [List.count_append, List.count_cons, List.count_nil]
    omega
  · have hij : j ≠ i := fun hji => hq (hji ▸ hj)
    rw [if_neg hq, List.count_singleton, beq_false_of_ne hij]
    rfl

namespace Sound

theorem hand (h : c.Sound rs answer s) (hlt : s.handed < rs.length) :
    c.Sound rs answer (s.hand (c.queue s.handed)) where
  handed := hlt
  once i := by
    have hcount := h.once i
    simp only [State.hand, List.count_append, List.range_succ, count_put] at hcount ⊢
    omega
  waiting q i hi := by
    simp only [State.hand, Function.update_apply] at hi
    split at hi
    next hq =>
      rcases List.mem_append.mp hi with hi | hi
      · rw [h.waiting _ i hi, hq]
      · rw [List.mem_singleton.mp hi, hq]
    next => exact h.waiting q i hi
  busy := h.busy
  ran := h.ran
  futures := h.futures
  front := h.front

theorem take {w i : Nat} {before after : List Nat} (h : c.Sound rs answer s)
    (htake : s.waiting (c.serves w) = before ++ i :: after) :
    c.Sound rs answer (s.take w i (c.serves w) (before ++ after)) where
  handed := h.handed
  once j := by
    have hcount := h.once j
    have hqueue : c.queue i = c.serves w := h.waiting _ i (htake ▸ by simp)
    have htaken := count_taken htake hqueue j
    simp only [State.take, List.count_append, List.map_append, List.map_cons, List.map_nil] at hcount ⊢
    omega
  waiting q j hj := by
    simp only [State.take, Function.update_apply] at hj
    split at hj
    next hq =>
      refine h.waiting q j ?_
      rw [hq, htake]
      rcases List.mem_append.mp hj with hj | hj
      · exact List.mem_append_left _ hj
      · exact List.mem_append_right _ (List.mem_cons_of_mem i hj)
    next => exact h.waiting q j hj
  busy b hb := by
    rcases List.mem_append.mp hb with hb | hb
    · exact h.busy b hb
    · rw [List.mem_singleton.mp hb]
      exact (h.waiting _ i (htake ▸ by simp)).symm
  ran := h.ran
  futures := h.futures
  front := h.front

theorem finish {w i : Nat} {before after : List (Nat × Nat)} {r : Request} (h : c.Sound rs answer s)
    (hanswer : ∀ i, c.answer (c.queue i) = answer) (hbusy : s.busy = before ++ (w, i) :: after)
    (hr : rs[i]? = some r) :
    c.Sound rs answer (s.finish i (before ++ after) (c.answer (c.serves w) r)) where
  handed := h.handed
  once j := by
    have hcount := h.once j
    rw [hbusy] at hcount
    simp only [State.finish, List.count_append, List.map_append, List.map_cons, List.count_cons,
      List.count_nil] at hcount ⊢
    omega
  waiting := h.waiting
  busy b hb := by
    refine h.busy b ?_
    rw [hbusy]
    rcases List.mem_append.mp hb with hb | hb
    · exact List.mem_append_left _ hb
    · exact List.mem_append_right _ (List.mem_cons_of_mem _ hb)
  ran j hj := by
    simp only [State.finish, Function.update_apply]
    by_cases hji : j = i
    · have hqueue : c.serves w = c.queue i := h.busy (w, i) (hbusy ▸ by simp)
      rw [if_pos hji, hji, hr, hqueue, hanswer]
      rfl
    · rw [if_neg hji]
      rcases List.mem_append.mp hj with hj | hj
      · exact h.ran j hj
      · exact absurd (List.mem_singleton.mp hj) hji
  futures j hj := by
    have hnot : j ∉ s.ran ∧ j ≠ i := by simpa [State.finish] using hj
    simp only [State.finish, Function.update_apply]
    rw [if_neg hnot.2]
    exact h.futures j hnot.1
  front := h.front

/-- The future of the request behind those whose values are collected. -/
theorem exists_rest {values : List Int} {result : Except Fault Int} (h : c.Sound rs answer s)
    (hfront : s.front = .collecting values) (hfuture : s.futures values.length = some result) :
    ∃ done r rest, rs = done ++ r :: rest ∧ List.Forall₂ (fun r n => answer r = .ok n) done values ∧
      answer r = result := by
  have hright := h.front
  rw [hfront] at hright
  obtain ⟨done, rest, hrs, hdone⟩ := hright
  have hran : values.length ∈ s.ran := by
    by_contra hnot
    rw [h.futures _ hnot] at hfuture
    cases hfuture
  rw [h.ran _ hran] at hfuture
  obtain ⟨r, hr, hresult⟩ := Option.map_eq_some_iff.mp hfuture
  rw [hrs, ← hdone.length_eq, List.getElem?_append_right (Nat.le_refl _), Nat.sub_self] at hr
  cases rest with
  | nil => cases hr
  | cons r' rest =>
    cases hr
    exact ⟨done, r, rest, hrs, hdone, hresult⟩

theorem moveFront (h : c.Sound rs answer s) {front : Front} (hfront : front.Right rs answer) :
    c.Sound rs answer { s with front } where
  handed := h.handed
  once := h.once
  waiting := h.waiting
  busy := h.busy
  ran := h.ran
  futures := h.futures
  front := hfront

/-- Every step keeps account of every request. -/
theorem step (h : c.Sound rs answer s) (hanswer : ∀ i, c.answer (c.queue i) = answer)
    (hst : c.Step rs s t) : c.Sound rs answer t := by
  cases hst with
  | hand hlt => exact h.hand hlt
  | take _ _ htake _ => exact h.take htake
  | finish hbusy hr => exact h.finish hanswer hbusy hr
  | @collect values n _ hfront hfuture =>
    obtain ⟨done, r, rest, hrs, hdone, hr⟩ := h.exists_rest hfront hfuture
    refine h.moveFront ⟨done ++ [r], rest, by simp [hrs], ?_⟩
    exact List.rel_append hdone (.cons hr .nil)
  | fail _ hfront hfuture =>
    obtain ⟨done, r, rest, hrs, hdone, hr⟩ := h.exists_rest hfront hfuture
    refine h.moveFront ?_
    rw [hrs]
    exact (mapM_eq_error hdone hr).symm
  | complete _ hfront hlength =>
    have hright := h.front
    rw [hfront] at hright
    obtain ⟨done, rest, hrs, hdone⟩ := hright
    have hrest : rest = [] := by
      have hall : done.length + rest.length = rs.length := by rw [hrs, List.length_append]
      have hdoneLength := hdone.length_eq
      exact List.length_eq_zero_iff.mp (by omega)
    rw [hrest, List.append_nil] at hrs
    refine h.moveFront ?_
    rw [hrs]
    exact (mapM_eq_ok hdone).symm
  | leave hfront _ =>
    have hright := h.front
    rw [hfront] at hright
    exact h.moveFront hright

/-- A future that is filled is that of a request that was run, and holds its answer. -/
theorem own (h : c.Sound rs answer s) {i : Nat} {result : Except Fault Int}
    (hi : s.futures i = some result) : i ∈ s.ran ∧ ∃ r, rs[i]? = some r ∧ result = answer r := by
  have hran : i ∈ s.ran := by
    by_contra hnot
    rw [h.futures i hnot] at hi
    cases hi
  rw [h.ran i hran] at hi
  obtain ⟨r, hr, hresult⟩ := Option.map_eq_some_iff.mp hi
  exact ⟨hran, r, hr, hresult.symm⟩

end Sound

end Crew

end Casewise
