import Casewise.Evaluation.Frames
import Casewise.Proofs.Program.Table

/-! The shape of expressions. What counts for the stack is how the parts are nested, and neither what stands in
the leaves nor which operators and functions are applied. -/
namespace Casewise

/-- The expressions are put together alike. -/
inductive Expr.SameShape : Expr → Expr → Prop
  | int {v w : Scalar} {s t : Option Span} : SameShape (.int v s) (.int w t)
  | var {x y : Name} {s t : Option Span} : SameShape (.var x s) (.var y t)
  | binary {operator operator' : String} {l l' r r' : Expr} {s t : Option Span} : SameShape l l' →
    SameShape r r' → SameShape (.binary operator l r s) (.binary operator' l' r' t)
  | call {f g : Name} {b b' : Expr} {s t : Option Span} : SameShape b b' →
    SameShape (.call f b s) (.call g b' t)
  | case {e e' : Expr} {cs ds : List (Clause Expr)} {s t : Option Span} : SameShape e e' →
    cs.length = ds.length → (∀ c ∈ cs.zip ds, SameShape c.1.body c.2.body) →
    SameShape (.case e cs s) (.case e' ds t)
  | foreign {o o' : Outline} : SameShape (.foreign o) (.foreign o')

namespace Expr.SameShape

variable {e e' : Expr} {cs ds : List (Clause Expr)} {s t : Option Span}

theorem case_of_forall₂ (he : e.SameShape e') (hcs : List.Forall₂ (fun c d => c.body.SameShape d.body) cs ds) :
    (Expr.case e cs s).SameShape (.case e' ds t) := by
  obtain ⟨hlength, hzip⟩ := List.forall₂_iff_zip.mp hcs
  exact .case he hlength fun c hc => hzip hc

theorem bodiesDepth_eq (h : List.Forall₂ (fun c d => c.body.depth = d.body.depth) cs ds) :
    bodiesDepth cs = bodiesDepth ds := by
  induction h with
  | nil => rfl
  | cons hcd _ ih => rw [bodiesDepth, bodiesDepth, hcd, ih]

theorem depth_eq (h : e.SameShape e') : e.depth = e'.depth := by
  induction h with
  | int | var | foreign => rfl
  | binary _ _ ihl ihr => rw [depth, depth, ihl, ihr]
  | call _ ih => rw [depth, depth, ih]
  | case _ hlength _ ihe ihbodies =>
    rw [depth, depth, ihe, bodiesDepth_eq (List.forall₂_iff_zip.mpr ⟨hlength, fun hc => ihbodies _ hc⟩)]

theorem bodiesDepthFrames_eq (h : List.Forall₂ (fun c d => c.body.depthFrames = d.body.depthFrames) cs ds) :
    bodiesDepthFrames cs = bodiesDepthFrames ds := by
  induction h with
  | nil => rfl
  | cons hcd _ ih => rw [bodiesDepthFrames, bodiesDepthFrames, hcd, ih]

theorem depthFrames_eq (h : e.SameShape e') : e.depthFrames = e'.depthFrames := by
  induction h with
  | int | var | foreign => rfl
  | binary _ _ ihl ihr => rw [depthFrames, depthFrames, ihl, ihr]
  | call _ ih => rw [depthFrames, depthFrames, ih]
  | case _ hlength _ ihe ihbodies =>
    rw [depthFrames, depthFrames, ihe,
      bodiesDepthFrames_eq (List.forall₂_iff_zip.mpr ⟨hlength, fun hc => ihbodies _ hc⟩)]

end Expr.SameShape

theorem Expr.sameShape_self (e : Expr) : e.SameShape e := by
  induction e with
  | int => exact .int
  | var => exact .var
  | binary operator l r span ihl ihr => exact .binary ihl ihr
  | call f b span ih => exact .call ih
  | case s cs span ihs ihcs => exact .case_of_forall₂ ihs (List.forall₂_same.mpr ihcs)
  | foreign => exact .foreign

namespace Program

/-- The programs have bodies that are put together alike, one by one. -/
def SameShape (p q : Program) : Prop :=
  List.Forall₂ (fun e d => e.2.body.SameShape d.2.body) p.entries q.entries

variable {p q : Program}

theorem SameShape.framesNeeded_eq (h : p.SameShape q) (limit : Int) :
    p.framesNeeded limit = q.framesNeeded limit := by
  have hdepths : p.definitions.map (·.body.depth) = q.definitions.map (·.body.depth) :=
    map_definitions_eq_of_forall₂ (h.imp fun _ _ => Expr.SameShape.depth_eq)
  unfold framesNeeded nesting
  rw [hdepths]

theorem SameShape.nestingFrames_eq (h : p.SameShape q) : p.nestingFrames = q.nestingFrames := by
  have hframes : p.definitions.map (·.body.depthFrames) = q.definitions.map (·.body.depthFrames) :=
    map_definitions_eq_of_forall₂ (h.imp fun _ _ => Expr.SameShape.depthFrames_eq)
  unfold nestingFrames
  rw [hframes]

end Program

end Casewise
