import Casewise.Proofs.Evaluation.Correspondence

/-! Parameters are local. A function does not care what its parameter is called, so parameters can be renamed
in any functions, to names of other parameters and of functions as well. -/
namespace Casewise

namespace Expr

mutual

/-- The expression with one variable renamed. Functions keep their names. -/
def rename (x y : Name) : Expr → Expr
  | var z span => var (if z = x then y else z) span
  | binary operator l r span => binary operator (l.rename x y) (r.rename x y) span
  | call f b span => call f (b.rename x y) span
  | case s cs span => case (s.rename x y) (renameClauses x y cs) span
  | e => e

def renameClauses (x y : Name) : List (Clause Expr) → List (Clause Expr)
  | [] => []
  | ⟨pattern, body, span⟩ :: cs => ⟨pattern, body.rename x y, span⟩ :: renameClauses x y cs

end

variable {x y : Name} {cs : List (Clause Expr)}

theorem renameClauses_eq_map (x y : Name) (cs : List (Clause Expr)) :
    renameClauses x y cs = cs.map fun c => ⟨c.pattern, c.body.rename x y, c.span⟩ := by
  induction cs with
  | nil => rfl
  | cons c cs ih => rw [renameClauses, ih, List.map_cons]

theorem forall₂_renameClauses {R : Clause Expr → Clause Expr → Prop}
    (h : ∀ c ∈ cs, R c ⟨c.pattern, c.body.rename x y, c.span⟩) :
    List.Forall₂ R cs (renameClauses x y cs) := by
  rw [renameClauses_eq_map, List.forall₂_map_right_iff, List.forall₂_same]
  exact h

theorem sameShape_rename (x y : Name) (e : Expr) : e.SameShape (e.rename x y) := by
  induction e with
  | int => exact .int
  | var => exact .var
  | binary operator l r span ihl ihr => exact .binary ihl ihr
  | call f b span ih => exact .call ih
  | case s cs span ihs ihcs => exact .case_of_forall₂ ihs (forall₂_renameClauses ihcs)
  | foreign => exact .foreign

/-- A parameter stands for another one that the expression does not mention. -/
theorem corresponds_rename {placed : Prop} {e : Expr} (hy : ∀ span, .var y span ∉ e.parts) :
    e.Corresponds Set.univ placed x y (e.rename x y) := by
  induction e with
  | int v span => exact .int rfl
  | var z span =>
    rw [rename]
    by_cases hz : z = x
    · rw [if_pos hz, hz]
      exact .bound
    · rw [if_neg hz]
      refine .unbound hz ?_ fun _ => rfl
      rintro rfl
      exact hy span (self_mem_parts _)
  | binary operator l r span ihl ihr =>
    exact .binary (ihl fun s hs => hy s (left_parts_subset hs)) (ihr fun s hs => hy s (right_parts_subset hs))
  | call f b span ih =>
    exact .call trivial (fun _ => rfl) (ih fun s hs => hy s (argument_parts_subset hs))
  | case e cs span ihe ihcs =>
    refine .case_of_forall₂ (fun _ => rfl) (ihe fun s hs => hy s (scrutinee_parts_subset hs)) ?_
    exact forall₂_renameClauses fun c hc =>
      ⟨fun _ => rfl, ihcs c hc fun s hs => hy s (body_parts_subset hc hs)⟩
  | foreign o => exact .foreign

end Expr

namespace Definition

def renamed (g : Definition) : Option Name → Definition
  | some y => { g with param := y, body := g.body.rename g.param y }
  | none => g

variable {g : Definition} {y? : Option Name}

theorem sameShape_renamed (g : Definition) (y? : Option Name) : g.body.SameShape (g.renamed y?).body := by
  cases y? with
  | none => exact g.body.sameShape_self
  | some y => exact Expr.sameShape_rename g.param y g.body

theorem corresponds_renamed (hy : ∀ y ∈ y?, ∀ span, .var y span ∉ g.body.parts) :
    g.Corresponds Set.univ True (g.renamed y?) := by
  cases y? with
  | none => exact ⟨rfl, Expr.corresponds_self g.param fun _ _ _ _ => trivial, fun _ => rfl⟩
  | some y => exact ⟨rfl, Expr.corresponds_rename (hy y rfl), fun _ => rfl⟩

end Definition

namespace Program

def renamed (p : Program) (new : Name → Option Name) : Program where
  entries := p.entries.map fun e => (e.1, e.2.renamed (new e.1))
  nodup := by
    rw [List.map_map]
    exact p.nodup

/-- No body mentions the new parameter of its function. -/
def Fresh (p : Program) (new : Name → Option Name) : Prop :=
  ∀ e ∈ p.entries, ∀ y ∈ new e.1, ∀ span, .var y span ∉ e.2.body.parts

variable {p : Program} {new : Name → Option Name}

theorem forall₂_renamed {R : Name × Definition → Name × Definition → Prop}
    (h : ∀ e ∈ p.entries, R e (e.1, e.2.renamed (new e.1))) :
    List.Forall₂ R p.entries (p.renamed new).entries := by
  unfold renamed
  rw [List.forall₂_map_right_iff, List.forall₂_same]
  exact h

theorem sameShape_renamed (p : Program) (new : Name → Option Name) : p.SameShape (p.renamed new) :=
  forall₂_renamed fun e _ => e.2.sameShape_renamed (new e.1)

theorem Fresh.corresponds (h : p.Fresh new) : p.Corresponds Set.univ True (p.renamed new) :=
  corresponds_of_forall₂ (forall₂_renamed fun e he => ⟨rfl, Definition.corresponds_renamed (h e he)⟩)

/-- Renaming parameters changes nothing, on the stack that is asked for and on any other. -/
theorem execute_renamed (h : p.Fresh new) (runtime : Runtime) (f : Name) (a limit : Int) :
    let q := p.renamed new
    (q.execute runtime f [.int a] limit).outcome = (p.execute runtime f [.int a] limit).outcome ∧
    Call.log (q.execute runtime f [.int a] limit).calls = Call.log (p.execute runtime f [.int a] limit).calls ∧
    (∀ stack, q.evaluateOn stack f [.int a] limit = p.evaluateOn stack f [.int a] limit) := by
  intro q
  have hexecute : p.execute runtime f [.int a] limit = q.execute runtime f [.int a] limit :=
    (h.corresponds.execute_agrees (p.sameShape_renamed new) trivial runtime [.int a] limit).eq
  refine ⟨by rw [hexecute], by rw [hexecute], fun stack => ?_⟩
  exact (h.corresponds.evaluateOn_agrees trivial stack [.int a] limit).eq.symm

/-- Both parameters are renamed to `g`, which is one of the functions. `f` counts down through `g`, and in the
end reads a variable that is not there, though its caller has it. -/
theorem execute_renamed_clash :
    let var (x : String) : Expr := .var (.text x) none
    let n (k : Int) : Expr := .int (.int k) none
    let call (f : String) (e : Expr) : Expr := .call (.text f) e none
    let place : Span := ⟨"a", 0, 1, 1, 1⟩
    let zero : Clause Expr := ⟨.literal (.int 0) none, .var (.text "y") (some place), none⟩
    let other : Clause Expr := ⟨.wildcard none, call "g" (.binary "-" (var "x") (n 1) none), none⟩
    let f : Definition := ⟨.text "f", .text "x", .case (var "x") [zero, other] none, none⟩
    let g : Definition := ⟨.text "g", .text "y", call "f" (var "y"), none⟩
    let p := ofDefinitions [f, g]
    let new (_ : Name) : Option Name := some (.text "g")
    let q := p.renamed new
    let runtime : Runtime := ⟨1000, 10, by decide, by decide⟩
    p.Fresh new ∧ q.definitions.map Definition.param = [.text "g", .text "g"] ∧
      (q.evaluate (.text "f") [.int 2] 9).outcome =
        .error (.of (.unboundVariable (.text "y")) (some place)) ∧
      Call.log (q.execute runtime (.text "f") [.int 2] 9).calls =
        Call.log (p.execute runtime (.text "f") [.int 2] 9).calls := by
  intro var n call place zero other f g p new q runtime
  have hfresh : p.Fresh new := by
    refine List.forall_mem_cons.mpr ⟨?_, List.forall_mem_singleton.mpr ?_⟩
    · simp [new, f, zero, other, var, n, call, Expr.parts, Expr.bodiesParts]
    · simp [new, g, var, call, Expr.parts]
  obtain ⟨_, hlog, hstacks⟩ := execute_renamed hfresh runtime (.text "f") 2 9
  refine ⟨hfresh, rfl, ?_, hlog⟩
  rw [evaluate, hstacks .endless]
  rfl

end Program

end Casewise
