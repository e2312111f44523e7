import Casewise.Scalar
import Casewise.Source.Span

/-!
Outlines show any syntax tree as labelled nodes with named fields. From the outline comes the
description of a tree on one line, and the equality of trees.
-/
namespace Casewise

inductive Outline
  | scalar (value : Scalar)
  | node (label : String) (span : Option Span) (fields : List (String × Outline))
  | list (parts : List Outline)

namespace Outline

/-- A scalar where a node is expected is just that scalar. -/
def scalar? : Outline → Option Scalar
  | scalar v => some v
  | _ => none

@[simp] theorem scalar?_scalar (v : Scalar) : (scalar v).scalar? = some v := rfl

@[simp] theorem scalar?_list (parts : List Outline) : (list parts).scalar? = none := rfl

mutual

/-- Outlines are the same if they differ in spans only. -/
def same : Outline → Outline → Bool
  | scalar v, scalar w => v.same w
  | node a _ fs, node b _ gs => a == b && sameFields fs gs
  | list ps, list qs => sameParts ps qs
  | _, _ => false

private def sameFields : List (String × Outline) → List (String × Outline) → Bool
  | [], [] => true
  | (a, o) :: fs, (b, p) :: gs => a == b && o.same p && sameFields fs gs
  | _, _ => false

private def sameParts : List Outline → List Outline → Bool
  | [], [] => true
  | o :: ps, p :: qs => o.same p && sameParts ps qs
  | _, _ => false

end

mutual

def describe : Outline → String
  | scalar v => v.quoted
  | node label _ fields => label ++ "(" ++ ", ".intercalate (describeFields fields) ++ ")"
  | list [p] => "(" ++ p.describe ++ ",)"
  | list parts => "(" ++ ", ".intercalate (describeParts parts) ++ ")"

private def describeFields : List (String × Outline) → List String
  | [] => []
  | (name, o) :: fields => (name ++ "=" ++ o.describe) :: describeFields fields

private def describeParts : List Outline → List String
  | [] => []
  | o :: parts => o.describe :: describeParts parts

end

end Outline

end Casewise
