import Casewise.Program.Context
import Casewise.Program
import Casewise.Token.Lexer

/-!
Reading programs. The reader takes one token at a time and keeps what is open around it, so every
error is found at the earliest token that rules the program out, before the next one is pulled:

    definition  = "fun" identifier identifier "=" expression
    expression  = case | sum
    case        = "case" expression "in" clause { "|" clause }
    clause      = ( integer | "_" ) "=>" expression
    sum         = product { ( "+" | "-" ) product }
    product     = application { "*" application }
    application = identifier [ atom ] | atom
    atom        = integer | identifier | "(" expression ")"

A bar belongs to the innermost case that is open.
-/
namespace Casewise

inductive Phase
  | item
  | name (start : Span)
  | param (start : Span) (name : Name)
  | equals (start : Span) (name param : Name)
  | expression (context : Context)
  /-- An expression that is no case. -/
  | operand (context : Context)
  /-- An argument, or what may follow an operand: a name was read. -/
  | head (context : Context) (name : Name) (span : Span)
  | after (context : Context) (operand : Expr)
  | first (start : Span) (scrutinee : Expr) (inWord : Span) (context : Context)
  | pattern (start : Span) (scrutinee : Expr) (earlier : List (Clause Expr)) (context : Context)
  | arrow (start : Span) (scrutinee : Expr) (earlier : List (Clause Expr)) (pattern : Pattern)
    (context : Context)
  /-- Nothing: the end was read. -/
  | done

/-- How far a program has been read: the definitions that are complete, and what may follow. -/
structure Reader where
  defined : List Definition
  phase : Phase

/-- A program that is refused: why, and which definitions were complete before. -/
structure Refusal where
  fault : Fault
  defined : List Definition

namespace Reader

def start : Reader := ⟨[], .item⟩

private def refuse (defined : List Definition) (t : Token) (expected : String) :
    Except Refusal Reader :=
  .error ⟨.of (.unexpectedToken expected t.describe) (some t.span), defined⟩

def item (defined : List Definition) (t : Token) : Except Refusal Reader :=
  if t.kind = .eof then .ok ⟨defined, .done⟩
  else if t.is .keyword "fun" then .ok ⟨defined, .name t.span⟩
  else refuse defined t "'fun'"

/-- Takes a definition that is complete at the given token. No name is defined twice. -/
def define (defined : List Definition) (f : Definition) (t : Token) : Except Refusal Reader :=
  if f.name ∈ defined.map Definition.name then
    .error ⟨.of (.duplicateFunction f.name) f.span, defined⟩
  else item (defined ++ [f]) t

def close (defined : List Definition) : Context → Expr → Token → Except Refusal Reader
  | .body start name param, e, t =>
    define defined ⟨name, param, e, Span.join? (some start) e.span⟩ t
  | .sum left operator outer, e, t | .product left operator outer, e, t =>
    close defined outer (Context.combine left operator e) t
  | .group outer, e, t =>
    if t.is .punctuation ")" then .ok ⟨defined, .after outer e⟩ else refuse defined t "')'"
  | .argument function start outer, e, t =>
    if t.is .punctuation ")" then
      .ok ⟨defined, .after outer (.call function e (Span.join? (some start) e.span))⟩
    else refuse defined t "')'"
  | .scrutinee start outer, e, t =>
    if t.is .keyword "in" then .ok ⟨defined, .first start e t.span outer⟩
    else refuse defined t "'in'"
  | .branch start scrutinee earlier pattern outer, e, t =>
    let clause := Context.clause pattern e
    if t.is .punctuation "|" then
      .ok ⟨defined, .pattern start scrutinee (earlier ++ [clause]) outer⟩
    else close defined outer (Context.complete start scrutinee earlier clause) t

/-- Takes an operand that is complete at the given token: an operator goes on from it, anything
else closes the expression. -/
def settle (defined : List Definition) (context : Context) (e : Expr) (t : Token) :
    Except Refusal Reader :=
  let (inner, factor) := context.closeProducts e
  if t.is .operator "*" then .ok ⟨defined, .operand (.product factor "*" inner)⟩
  else
    let (outer, term) := inner.closeSums factor
    if t.is .operator "+" then .ok ⟨defined, .operand (.sum term "+" outer)⟩
    else if t.is .operator "-" then .ok ⟨defined, .operand (.sum term "-" outer)⟩
    else close defined outer term t

def operand (defined : List Definition) (context : Context) (t : Token) :
    Except Refusal Reader :=
  if t.kind = .identifier then .ok ⟨defined, .head context t.value t.span⟩
  else if t.kind = .integer then .ok ⟨defined, .after context (.int t.value (some t.span))⟩
  else if t.is .punctuation "(" then .ok ⟨defined, .expression (.group context)⟩
  else refuse defined t "expression"

def expression (defined : List Definition) (context : Context) (t : Token) :
    Except Refusal Reader :=
  if t.is .keyword "case" then .ok ⟨defined, .expression (.scrutinee t.span context)⟩
  else operand defined context t

/-- Behind a name: an atom is its argument, anything else makes it a variable. -/
def head (defined : List Definition) (context : Context) (name : Name) (span : Span)
    (t : Token) : Except Refusal Reader :=
  let call (argument : Expr) : Except Refusal Reader :=
    .ok ⟨defined, .after context (.call name argument (some (span.join t.span)))⟩
  if t.kind = .integer then call (.int t.value (some t.span))
  else if t.kind = .identifier then call (.var t.value (some t.span))
  else if t.is .punctuation "(" then .ok ⟨defined, .expression (.argument name span context)⟩
  else settle defined context (.var name (some span)) t

def pattern (defined : List Definition) (start : Span) (scrutinee : Expr)
    (earlier : List (Clause Expr)) (context : Context) (t : Token) : Except Refusal Reader :=
  if t.kind = .integer then
    .ok ⟨defined, .arrow start scrutinee earlier (.literal t.value (some t.span)) context⟩
  else if t.is .punctuation "_" then
    .ok ⟨defined, .arrow start scrutinee earlier (.wildcard (some t.span)) context⟩
  else refuse defined t "pattern (integer or '_')"

def endsExpression (t : Token) : Bool :=
  t.kind = .eof || t.is .keyword "fun" || t.is .punctuation ")" || t.is .punctuation "|"

def step (r : Reader) (t : Token) : Except Refusal Reader :=
  match r.phase with
  | .item => item r.defined t
  | .name start =>
    if t.kind = .identifier then .ok ⟨r.defined, .param start t.value⟩
    else refuse r.defined t "function name"
  | .param start name =>
    if t.kind = .identifier then .ok ⟨r.defined, .equals start name t.value⟩
    else refuse r.defined t "parameter name"
  | .equals start name param =>
    if t.is .punctuation "=" then .ok ⟨r.defined, .expression (.body start name param)⟩
    else refuse r.defined t "'='"
  | .expression context => expression r.defined context t
  | .operand context => operand r.defined context t
  | .head context name span => head r.defined context name span t
  | .after context e => settle r.defined context e t
  | .first start scrutinee inWord context =>
    if endsExpression t then
      .error ⟨.of .emptyCaseBody (some (start.join inWord)), r.defined⟩
    else pattern r.defined start scrutinee [] context t
  | .pattern start scrutinee earlier context =>
    pattern r.defined start scrutinee earlier context t
  | .arrow start scrutinee earlier pattern context =>
    if t.is .punctuation "=>" then
      .ok ⟨r.defined, .expression (.branch start scrutinee earlier pattern context)⟩
    else refuse r.defined t "'=>'"
  | .done => .ok r

def read (r : Reader) : Token.Stream → Except Refusal (List Definition)
  | .more t rest => r.step t >>= (·.read rest)
  | .stop t => return (← r.step t).defined
  | .fail fault => .error ⟨fault, r.defined⟩

end Reader

def Definition.logLine (f : Definition) : String :=
  "parsing: parsed function " ++ f.name.plain ++ " " ++ f.param.plain

def Refusal.log (r : Refusal) : List String := r.defined.map Definition.logLine

namespace Program

def ofTokens (s : Token.Stream) : Except Refusal Program :=
  return ofDefinitions (← Reader.start.read s)

def ofSource (source file : String) : Except Refusal Program :=
  ofTokens (Token.tokenize source file)

def readingLog (p : Program) : List String := p.definitions.map Definition.logLine

end Program

end Casewise
