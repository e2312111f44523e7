import Casewise.Proofs.Evaluation.Runtime
import Casewise.Proofs.Evaluation.Recording

/-! The stack of an evaluation. At no moment are there more frames than the limit on nested calls and the
nesting of the bodies allow, so an evaluation never runs out of the stack that it asks for. -/
namespace Casewise

namespace Frame

def size : Frame → Nat
  | body => Expr.callFrames
  | _ => Expr.frames

def total : List Frame → Nat
  | [] => 0
  | frame :: below => frame.size + total below

end Frame

/-- The frames of the stack that are in use. -/
def Moment.frames : Moment → Nat
  | eval _ _ _ below => Expr.frames + Frame.total below
  | call _ _ _ below => Expr.callFrames + Frame.total below
  | value _ below => Frame.total below
  | fault _ => 0

namespace Program

variable {p : Program} {f : Name} {g : Definition} {a n limit : Int} {m m' : Moment}
  {below : List Frame} {frame : Frame} {j : Nat} {span : Option Span}

theorem depth_le_nesting (hg : g ∈ p.definitions) : g.body.depth ≤ p.nesting := by
  have hmem : g.body.depth ∈ p.definitions.map (·.body.depth) := List.mem_map_of_mem hg
  unfold nesting
  cases hmax : (p.definitions.map (·.body.depth)).max? with
  | none =>
    rw [List.max?_eq_none_iff] at hmax
    rw [hmax] at hmem
    cases hmem
  | some k => exact (List.max?_eq_some_iff.mp hmax).2 _ hmem

/-- The frames hold parts of bodies, and an expression of so many levels has room above them. -/
inductive Fits (p : Program) : List Frame → Nat → Prop
  | nil : Fits p [] 0
  | left {below : List Frame} {j : Nat} {x : Name} {a : Int} {operator : String} {r : Expr} :
    Fits p below (j + 1) → r.depth ≤ j → Fits p (.left x a operator r :: below) j
  | right {below : List Frame} {j : Nat} {operator : String} {m : Int} :
    Fits p below (j + 1) → Fits p (.right operator m :: below) j
  | argument {below : List Frame} {j : Nat} {f : Name} {span : Option Span} :
    Fits p below (j + 1) → 0 < j → Fits p (.argument f span :: below) j
  | scrutinee {below : List Frame} {j : Nat} {x : Name} {a : Int} {cs : List (Clause Expr)}
    {span : Option Span} :
    Fits p below (j + 1) → (∀ c ∈ cs, c.body.depth ≤ j) → Fits p (.scrutinee x a cs span :: below) j
  | branch {below : List Frame} {j : Nat} : Fits p below (j + 1) → Fits p (.branch :: below) j
  | callee {below : List Frame} {j : Nat} : Fits p below (j + 1) → Fits p (.callee :: below) j
  | entered : Fits p [.body] p.nesting
  | body {below : List Frame} {j : Nat} : Fits p below j → 0 < j → Fits p (.body :: below) p.nesting

/-- What comes next has room above the frames. -/
def Sized (p : Program) : Moment → Prop
  | .eval _ _ e below => ∃ j, p.Fits below j ∧ e.depth ≤ j
  | .call g _ _ below => g ∈ p.definitions ∧ (below = [] ∨ ∃ j, p.Fits below j ∧ 0 < j)
  | .value _ below => ∃ j, p.Fits below j
  | .fault _ => True

theorem Fits.sized_takeUp {x : Name} {e : Expr} (h : p.Fits below j) (he : e.depth ≤ j) :
    p.Sized (.takeUp x a below e) := by
  cases e with
  | int v span =>
    rw [Moment.takeUp]
    cases v.word with
    | ok n => exact ⟨j, h⟩
    | error m => trivial
  | var y span =>
    rw [Moment.takeUp]
    split
    · exact ⟨j, h⟩
    · trivial
  | foreign o => trivial
  | binary operator l r span =>
    rw [Expr.depth] at he
    obtain ⟨k, rfl⟩ : ∃ k, j = k + 1 := ⟨j - 1, by omega⟩
    exact ⟨k, .left h (by omega), by omega⟩
  | call f b span =>
    rw [Expr.depth] at he
    have hpos : 0 < b.depth := b.depth_pos
    obtain ⟨k, rfl⟩ : ∃ k, j = k + 1 := ⟨j - 1, by omega⟩
    exact ⟨k, .argument h (by omega), by omega⟩
  | case s cs span =>
    rw [Expr.depth] at he
    obtain ⟨k, rfl⟩ : ∃ k, j = k + 1 := ⟨j - 1, by omega⟩
    refine ⟨k, .scrutinee h fun c hc => ?_, by omega⟩
    have hbody : c.body.depth ≤ Expr.bodiesDepth cs := Expr.depth_body_le hc
    omega

theorem Fits.sized_resume (h : p.Fits (frame :: below) j) : p.Sized (.resume p n below frame) := by
  cases h with
  | left hbelow hr => exact ⟨j, .right hbelow, hr⟩
  | @right _ _ operator m hbelow =>
    rw [Moment.resume]
    cases Word.operation? operator with
    | some f => exact ⟨_, hbelow⟩
    | none => trivial
  | @argument _ _ f span hbelow hj =>
    rw [Moment.resume]
    cases hf : p.find? f with
    | some g => exact ⟨mem_definitions_of_find? hf, Or.inr ⟨j, .callee hbelow, hj⟩⟩
    | none => trivial
  | @scrutinee _ _ x a cs span hbelow hcs =>
    rw [Moment.resume]
    split
    next c hselect => exact ⟨j, .branch hbelow, hcs c (Clause.mem_of_select hselect)⟩
    next => trivial
    next => trivial
  | branch hbelow => exact ⟨_, hbelow⟩
  | callee hbelow => exact ⟨_, hbelow⟩
  | entered => exact ⟨_, .nil⟩
  | body hbelow _ => exact ⟨_, hbelow⟩

theorem Sized.next? (hm : p.Sized m) (h : p.next? m = some m') : p.Sized m' := by
  cases m with
  | eval x a e below =>
    cases h
    obtain ⟨j, hfits, he⟩ := hm
    exact hfits.sized_takeUp he
  | call g n span below =>
    cases h
    have hdepth : g.body.depth ≤ p.nesting := depth_le_nesting hm.1
    rcases hm.2 with rfl | ⟨j, hfits, hj⟩
    · exact ⟨_, .entered, hdepth⟩
    · exact ⟨_, .body hfits hj, hdepth⟩
  | value n below =>
    cases below with
    | nil => cases h
    | cons frame below =>
      cases h
      obtain ⟨j, hfits⟩ := hm
      exact hfits.sized_resume
  | fault f => cases h

end Program

theorem Activation.push_frames (a : Activation) {k n : Nat} (hk : k ≤ n) (next : Stack → Run Int) :
    a.push k (.frames n) next = next (.frames (n - k)) := by
  rw [push, Stack.take?_frames hk]

theorem Activation.push_frames_of_lt (a : Activation) {k n : Nat} (hn : n < k) (next : Stack → Run Int) :
    a.push k (.frames n) next = .fault a.exhausted := by
  rw [push, Stack.take?_frames_eq_none_iff.mpr hn]

/-- Where the frames suffice for an expression, and for whatever is left when a call in it is made, it
runs as on a stack without end. -/
theorem Expr.eval_frames {a : Activation} {k : Nat}
    (hinvoke : ∀ n f m span, k ≤ n → a.invoke (.frames n) f m span = a.invoke .endless f m span)
    (e : Expr) {n : Nat} (hn : 2 * e.depth + k ≤ n) : e.eval a (.frames n) = e.eval a .endless := by
  have htwo : Expr.frames = 2 := rfl
  have hone : Expr.callFrames = 1 := rfl
  induction e generalizing n with
  | int v span | var y span | foreign o =>
    have hleaf : 2 * 1 + k ≤ n := hn
    rw [eval, eval, Activation.push_endless, Activation.push_frames a (by omega)]
  | binary operator l r span ihl ihr =>
    rw [depth] at hn
    rw [eval, eval, Activation.push_endless, Activation.push_frames a (by omega),
      ihl (by omega), ihr (by omega)]
  | call f b span ih =>
    rw [depth] at hn
    have hpos : 0 < b.depth := b.depth_pos
    rw [eval, eval, Activation.push_endless, Activation.push_frames a (by omega), ih (by omega)]
    refine congrArg (_ >>= ·) (funext fun m => ?_)
    rw [Activation.push_endless, Activation.push_frames a (by omega)]
    exact hinvoke _ f m span (by omega)
  | case s cs span ihs ihb =>
    rw [depth] at hn
    rw [eval, eval, Activation.push_endless, Activation.push_frames a (by omega), ihs (by omega)]
    refine congrArg (_ >>= ·) (funext fun m => ?_)
    rw [evalFirst_eq_select, evalFirst_eq_select]
    cases hselect : Clause.select m cs with
    | error m => rfl
    | ok selected =>
      cases selected with
      | none => rfl
      | some c =>
        have hmem : c ∈ cs := Clause.mem_of_select hselect
        have hbody : c.body.depth ≤ bodiesDepth cs := depth_body_le hmem
        exact ihb c hmem (by omega)

namespace Program

variable {p : Program} {f : Name} {g : Definition} {a limit : Int}

theorem apply_frames (hg : g ∈ p.definitions) {room n : Nat} (hn : room * (2 * p.nesting + 1) ≤ n + 1)
    (m : Int) (span : Option Span) :
    p.apply limit room (.frames n) g m span = p.apply limit room .endless g m span := by
  induction room generalizing g n m span with
  | zero => rfl
  | succ room ih =>
    have hdepth : g.body.depth ≤ p.nesting := depth_le_nesting hg
    rw [Nat.succ_mul] at hn
    have hbody : 2 * g.body.depth + room * (2 * p.nesting + 1) ≤ n := by omega
    rw [apply, apply]
    refine congrArg (Run.enter g.name m) (Expr.eval_frames ?_ g.body hbody)
    intro k h l place hk
    dsimp only
    cases hf : p.find? h with
    | none => rfl
    | some d => exact ih (mem_definitions_of_find? hf) (by omega) l place

theorem natCast_callFrames (p : Program) (h : 0 ≤ limit) :
    ((limit.toNat * (2 * p.nesting + 1) : Nat) : Int) = limit * (2 * p.nesting + 1) := by
  push_cast
  rw [Int.toNat_of_nonneg h]

/-- On a stack of so many frames a function runs as on one without end. -/
theorem evaluateOn_frames (hf : p.find? f = some g) {n : Nat} (hlimit : 0 < limit)
    (hn : limit * (2 * p.nesting + 1) ≤ n) :
    p.evaluateOn (.frames n) f [.int a] limit = p.evaluate f [.int a] limit := by
  have hcast := p.natCast_callFrames (Int.le_of_lt hlimit)
  have hroom : limit.toNat * (2 * p.nesting + 1) ≤ n := by omega
  have hpos : 0 < limit.toNat * (2 * p.nesting + 1) := Nat.mul_pos (by omega) (by omega)
  have hone : Expr.callFrames = 1 := rfl
  have hg : g ∈ p.definitions := mem_definitions_of_find? hf
  rw [evaluate, evaluateOn_of_find? hf, evaluateOn_of_find? hf, Stack.take?_endless,
    Stack.take?_frames (by omega)]
  exact apply_frames hg (by omega) _ none

theorem framesNeeded_pos (p : Program) (h : 0 ≤ limit) : 0 < p.framesNeeded limit := by
  have hcast := p.natCast_callFrames h
  have hslack : frameSlack = 200 := rfl
  have hmax : maxFrames = 100000 := rfl
  unfold framesNeeded
  omega

end Program

/-- The process lets an evaluation have a stack for all calls up to the limit: how many frames that takes can be
found out, they are no more than an evaluation asks for, and a limit with them can be set. -/
structure Runtime.Affords (runtime : Runtime) (p : Program) (limit : Int) : Prop where
  counted : runtime.used + p.nestingFrames ≤ runtime.limit
  capped : limit * (2 * p.nesting + 1) + Program.frameSlack ≤ Program.maxFrames
  raised : runtime.limit + p.framesNeeded limit ≤ maxLimit

namespace Program

variable {p : Program} {f : Name} {g : Definition} {a limit : Int} {runtime : Runtime}

theorem refusal?_of_counted (hlimit : 0 ≤ limit) (hcounted : runtime.used + p.nestingFrames ≤ runtime.limit) :
    runtime.refusal? p limit =
      if runtime.limit + p.framesNeeded limit ≤ maxLimit then none else some .hugeLimit := by
  have hused := runtime.used_lt
  have hpos := p.framesNeeded_pos hlimit
  rw [Runtime.refusal?, if_neg (by omega)]
  split
  next hraised => exact Host.standard_eq_none_iff.mpr ⟨by omega, hraised⟩
  next hraised => exact if_pos (Or.inr (by omega))

/-- What can be had of the stack that is asked for is as good as a stack without end. -/
theorem execute_eq_evaluate (h : runtime.Affords p limit) (f : Name) (a : Int) (hlimit : 1 ≤ limit) :
    p.execute runtime f [.int a] limit = p.evaluate f [.int a] limit := by
  have hnone : runtime.refusal? p limit = none := by
    rw [refusal?_of_counted (by omega) h.counted, if_pos h.raised]
  rw [execute_of_accepted hnone]
  cases hf : p.find? f with
  | none => rw [evaluate, evaluateOn_of_find?_none hf, evaluateOn_of_find?_none hf]
  | some g =>
    have hneeded : p.framesNeeded limit = limit * (2 * p.nesting + 1) + frameSlack := min_eq_left h.capped
    have hslack : frameSlack = 200 := rfl
    have hused := runtime.used_lt
    exact evaluateOn_frames hf (by omega) (by omega)

end Program

end Casewise
