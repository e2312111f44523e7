import Casewise.Evaluation.Call
import Casewise.Evaluation.Stack
import Casewise.Expr.Matching
import Casewise.Program

/-!
Evaluation. A function body sees its own parameter and nothing else; a call evaluates its argument,
then looks up the function, then enters it if the limit on nested calls allows. Whatever is being
evaluated takes up frames of a stack. The first fault ends the run.
-/
namespace Casewise

inductive Argument
  | int (n : Int)
  | other (kind : String)

namespace Argument

def isInt : Argument → Bool
  | int _ => true
  | other _ => false

def number : Argument → Except Misuse Int
  | int n => .ok n
  | other kind => .error (.notInteger kind)

end Argument

structure Activation where
  param : Name
  bound : Int
  /-- Calls a function on what is left of the stack, from the place with the given span. -/
  invoke : Stack → Name → Int → Option Span → Run Int
  /-- What it ends in when the stack runs out during its evaluation. -/
  exhausted : Fault

namespace Activation

def push (a : Activation) (n : Nat) (stack : Stack) (next : Stack → Run Int) : Run Int :=
  match stack.take? n with
  | some rest => next rest
  | none => .fault a.exhausted

@[simp] theorem push_endless (a : Activation) (n : Nat) (next : Stack → Run Int) :
    a.push n .endless next = next .endless := rfl

end Activation

namespace Expr

/-- The frames of an expression that is being evaluated. -/
def frames : Nat := 2

/-- The frames of a call, apart from those of its body. -/
def callFrames : Nat := 1

mutual

def eval (a : Activation) (stack : Stack) : Expr → Run Int
  | int v _ => a.push frames stack fun _ =>
    match v.word with
    | .ok n => .value n
    | .error m => .fault (.misuse m)
  | var name span => a.push frames stack fun _ =>
    if name = a.param then .value a.bound else .fault (.of (.unboundVariable name) span)
  | binary operator left right _ => a.push frames stack fun stack => do
    let x ← left.eval a stack
    let y ← right.eval a stack
    match Word.operation? operator with
    | some f => return f x y
    | none => .fault (.misuse (.unknownOperator operator))
  | call function argument span => a.push frames stack fun stack => do
    let n ← argument.eval a stack
    a.push callFrames stack fun stack => a.invoke stack function n span
  | case scrutinee clauses span => a.push frames stack fun stack => do
    let n ← scrutinee.eval a stack
    evalFirst a stack n span clauses
  | foreign o => a.push frames stack fun _ => .fault (.misuse (.notExpression o))

def evalFirst (a : Activation) (stack : Stack) (n : Int) (span : Option Span) :
    List (Clause Expr) → Run Int
  | [] => .fault (.of (.noMatchingClause n) span)
  | ⟨pattern, body, _⟩ :: clauses =>
    match pattern.accepts n with
    | .ok true => body.eval a stack
    | .ok false => evalFirst a stack n span clauses
    | .error m => .fault (.misuse m)

end

theorem evalFirst_eq_select (a : Activation) (stack : Stack) (n : Int) (span : Option Span)
    (clauses : List (Clause Expr)) :
    evalFirst a stack n span clauses =
      match Clause.select n clauses with
      | .ok (some c) => c.body.eval a stack
      | .ok none => .fault (.of (.noMatchingClause n) span)
      | .error m => .fault (.misuse m) := by
  induction clauses with
  | nil => rfl
  | cons c cs ih =>
    simp only [evalFirst, Clause.select]
    cases h : c.pattern.accepts n with
    | error m => rfl
    | ok b => cases b <;> simp [bind, Except.bind, pure, Except.pure, ih]

end Expr

namespace Program

def defaultLimit : Int := 1000

/-- The run of a function that is entered from the given call, with room for so many nested calls,
itself included. Without room the run overflows at that call; if the stack runs out first, it
overflows at the innermost call, as deep as that call is nested. -/
def apply (p : Program) (limit : Int) : Nat → Stack → Definition → Int → Option Span → Run Int
  | 0, _, _, _, span => .fault (.of (.stackOverflow limit) span)
  | room + 1, stack, f, argument, span =>
    .enter f.name argument <|
      f.body.eval
        { param := f.param
          bound := argument
          invoke := fun stack function n span =>
            match p.find? function with
            | some g => p.apply limit room stack g n span
            | none => .fault (.of (.unknownFunction function) span)
          exhausted := .of (.stackOverflow (limit - room)) (span <|> f.span) }
        stack

/-- What an application begins with: the function under a key, and its argument as a word. All
arguments have to be integers, and there has to be one. -/
def entry (p : Program) (function : Name) (arguments : List Argument) :
    Except Fault (Definition × Int) :=
  match arguments.mapM Argument.number with
  | .error m => .error (.misuse m)
  | .ok values =>
    match p.find? function with
    | none => .error (.of (.unknownFunction function) none)
    | some f =>
      match values with
      | [n] => .ok (f, Word.wrap n)
      | _ => .error (.of (.arityMismatch function f.arity values.length) f.span)

def evaluateOn (p : Program) (stack : Stack) (function : Name) (arguments : List Argument)
    (limit : Int) : Run Int :=
  match p.entry function arguments with
  | .error fault => .fault fault
  | .ok (f, n) =>
    match stack.take? Expr.callFrames with
    | some stack => p.apply limit limit.toNat stack f n none
    | none => .fault (.of (.stackOverflow 1) f.span)

/-- Applies the function under a key to arguments, with all the stack that this takes. -/
def evaluate (p : Program) (function : Name) (arguments : List Argument) (limit : Int) :
    Run Int :=
  p.evaluateOn .endless function arguments limit

end Program

end Casewise
