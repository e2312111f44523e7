import Casewise.Misuse

/-!
Indented listings of syntax trees: a line for each node, which shows the scalars in it.
-/
namespace Casewise

structure Outline.Line where
  depth : Nat
  label : String
  scalars : List Scalar
  span : Option Span

namespace Outline

def scalars (fields : List (String × Outline)) : List Scalar :=
  fields.filterMap fun field => field.2.scalar?

mutual

/-- All nodes, each before its children. A list stands for its parts; a scalar has no line. -/
def lines : Outline → Nat → List Line
  | scalar _, _ => []
  | node label span fields, depth =>
    ⟨depth, label, scalars fields, span⟩ :: linesOfFields fields (depth + 1)
  | list parts, depth => linesOfParts parts depth

private def linesOfFields : List (String × Outline) → Nat → List Line
  | [], _ => []
  | (_, o) :: fields, depth => o.lines depth ++ linesOfFields fields depth

private def linesOfParts : List Outline → Nat → List Line
  | [], _ => []
  | o :: parts, depth => o.lines depth ++ linesOfParts parts depth

end

theorem lines_node (label : String) (span : Option Span) (fields : List (String × Outline)) (depth : Nat) :
    (node label span fields).lines depth =
      ⟨depth, label, scalars fields, span⟩ :: fields.flatMap fun field => field.2.lines (depth + 1) := by
  rw [lines]
  congr 1
  induction fields with
  | nil => rfl
  | cons field fields ih => rw [linesOfFields, ih, List.flatMap_cons]

theorem lines_list (parts : List Outline) (depth : Nat) :
    (list parts).lines depth = parts.flatMap (·.lines depth) := by
  rw [lines]
  induction parts with
  | nil => rfl
  | cons o parts ih => rw [linesOfParts, ih, List.flatMap_cons]

def Line.render (line : Line) (indent : Int) : String :=
  let margin := String.ofList (List.replicate (2 * (indent + line.depth).toNat) ' ')
  let values :=
    if line.scalars.isEmpty then ""
    else "(" ++ ", ".intercalate (line.scalars.map Scalar.quoted) ++ ")"
  margin ++ line.label ++ values ++ "\n"

mutual

/-- Whether every place below a node is filled: a field with a node or a value, and a place in a
list with a node. -/
def isFilled : Outline → Bool
  | scalar _ => false
  | node _ _ fields => fieldsFilled fields
  | list parts => partsFilled parts

private def fieldsFilled : List (String × Outline) → Bool
  | [] => true
  | (_, o) :: fields =>
    (match o with
      | scalar v => v ≠ .absent
      | o => o.isFilled) && fieldsFilled fields

private def partsFilled : List Outline → Bool
  | [] => true
  | o :: parts => o.isFilled && partsFilled parts

end

theorem isFilled_node {label : String} {span : Option Span} {fields : List (String × Outline)}
    (h : ∀ field ∈ fields, field.2.isFilled ∨ ∃ v, field.2 = .scalar v ∧ v ≠ .absent) :
    (node label span fields).isFilled := by
  rw [isFilled]
  induction fields with
  | nil => rfl
  | cons field fields ih =>
    have hrest := ih fun f hf => h f (by simp [hf])
    obtain ⟨name, o⟩ := field
    have ho : o.isFilled ∨ ∃ v, o = scalar v ∧ v ≠ .absent := h (name, o) (by simp)
    cases o with
    | scalar v =>
      rcases ho with ho | ⟨w, hw, hne⟩
      · cases ho
      · cases hw
        simp [fieldsFilled, hrest, hne]
    | node _ _ _ | list _ =>
      rcases ho with ho | ⟨w, hw, _⟩
      · simp [fieldsFilled, hrest, ho]
      · cases hw

theorem isFilled_list {parts : List Outline} (h : ∀ o ∈ parts, o.isFilled) :
    (list parts).isFilled := by
  rw [isFilled]
  induction parts with
  | nil => rfl
  | cons o parts ih => rw [partsFilled, ih fun p hp => h p (by simp [hp]), h o (by simp)]; rfl

def dump (o : Outline) (indent : Int) : Except Misuse String :=
  if o.isFilled then .ok (String.join ((o.lines 0).map (·.render indent)))
  else .error .missingPart

end Outline

end Casewise
