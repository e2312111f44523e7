import Casewise.Token
import Casewise.Error

/-!
Token streams. A stream goes on until its first end token, or until it breaks off with a fault; the
tokens in front of a fault are there all the same.
-/
namespace Casewise.Token

inductive Stream
  | more (token : Token) (rest : Stream)
  | stop (last : Token)
  | fail (fault : Fault)

def anonymous : String := "<input>"

namespace Stream

/-- The end token of a list that has none: it stands behind the last token. -/
def missingEnd (previous : Option Token) : Token :=
  endOf <| match previous with
    | some t => t.span.behind
    | none => Span.between anonymous .start .start

/-- The stream of a list of tokens, of which the given one is the previous. What follows the
first end token is never looked at. -/
def ofListAfter (previous : Option Token) : List Token → Stream
  | [] => stop (missingEnd previous)
  | t :: ts => if t.kind = .eof then stop t else more t (ofListAfter (some t) ts)

def ofList (ts : List Token) : Stream := ofListAfter none ts

def toList : Stream → List Token
  | more t rest => t :: rest.toList
  | stop t => [t]
  | fail _ => []

def fault? : Stream → Option Fault
  | more _ rest => rest.fault?
  | stop _ => none
  | fail fault => some fault

/-- The fault that shows when at most `n` tokens are pulled. -/
def faultWithin? : Stream → Nat → Option Fault
  | _, 0 => none
  | more _ rest, n + 1 => rest.faultWithin? n
  | stop _, _ + 1 => none
  | fail fault, _ + 1 => some fault

end Stream

end Casewise.Token
