import Casewise.Expr
import Casewise.Error

/-!
The surroundings of an expression that is being read: a definition with a hole, from the hole
outwards. Every construct that is open and waits for an expression is one layer.
-/
namespace Casewise

inductive Context
  | body (start : Span) (name param : Name)
  /-- The right operand of `+` or `-`. -/
  | sum (left : Expr) (operator : String) (outer : Context)
  /-- The right operand of `*`. -/
  | product (left : Expr) (operator : String) (outer : Context)
  | group (outer : Context)
  | argument (function : Name) (start : Span) (outer : Context)
  | scrutinee (start : Span) (outer : Context)
  /-- The body of a clause, behind the clauses that are complete. -/
  | branch (start : Span) (scrutinee : Expr) (earlier : List (Clause Expr)) (pattern : Pattern)
    (outer : Context)

namespace Context

def combine (left : Expr) (operator : String) (right : Expr) : Expr :=
  .binary operator left right (Span.join? left.span right.span)

def clause (pattern : Pattern) (body : Expr) : Clause Expr :=
  ⟨pattern, body, Span.join? pattern.span body.span⟩

def complete (start : Span) (scrutinee : Expr) (earlier : List (Clause Expr))
    (last : Clause Expr) : Expr :=
  .case scrutinee (earlier ++ [last]) (Span.join? (some start) last.span)

/-- Closes the products that end with the expression. -/
def closeProducts : Context → Expr → Context × Expr
  | product left operator outer, e => outer.closeProducts (combine left operator e)
  | context, e => (context, e)

def closeSums : Context → Expr → Context × Expr
  | product left operator outer, e | sum left operator outer, e =>
    outer.closeSums (combine left operator e)
  | context, e => (context, e)

end Context

end Casewise
