import Casewise.Proofs.Program.Acceptance
import Casewise.Proofs.Expr.Sameness
import Casewise.Proofs.Token.Spacing

/-! Reading pays no attention to places. If all tokens are moved to one place, what is read moves with
them, so texts of the same tokens are read alike, or refused for the same cause. -/
namespace Casewise

def Span.moved? (z : Span) (span : Option Span) : Option Span := span.map fun _ => z

def Pattern.moved (z : Span) : Pattern → Pattern
  | literal v span => literal v (z.moved? span)
  | wildcard span => wildcard (z.moved? span)
  | foreign o => foreign o

namespace Expr

mutual

/-- The expression with all its spans moved to one place. -/
def moved (z : Span) : Expr → Expr
  | int v span => int v (z.moved? span)
  | var x span => var x (z.moved? span)
  | binary operator l r span => binary operator (l.moved z) (r.moved z) (z.moved? span)
  | call f a span => call f (a.moved z) (z.moved? span)
  | case s cs span => case (s.moved z) (movedClauses z cs) (z.moved? span)
  | foreign o => foreign o

def movedClauses (z : Span) : List (Clause Expr) → List (Clause Expr)
  | [] => []
  | ⟨pattern, body, span⟩ :: cs =>
    ⟨pattern.moved z, body.moved z, z.moved? span⟩ :: movedClauses z cs

end

end Expr

def Clause.moved (z : Span) (c : Clause Expr) : Clause Expr :=
  ⟨c.pattern.moved z, c.body.moved z, z.moved? c.span⟩

def Definition.moved (z : Span) (f : Definition) : Definition :=
  { f with body := f.body.moved z, span := z.moved? f.span }

def Token.moved (z : Span) (t : Token) : Token := { t with span := z }

def Context.moved (z : Span) : Context → Context
  | body _ name param => body z name param
  | sum l operator outer => sum (l.moved z) operator (outer.moved z)
  | product l operator outer => product (l.moved z) operator (outer.moved z)
  | group outer => group (outer.moved z)
  | argument f _ outer => argument f z (outer.moved z)
  | scrutinee _ outer => scrutinee z (outer.moved z)
  | branch _ s cs p outer =>
    branch z (s.moved z) (Expr.movedClauses z cs) (p.moved z) (outer.moved z)

def Phase.moved (z : Span) : Phase → Phase
  | item => item
  | name _ => name z
  | param _ f => param z f
  | equals _ f x => equals z f x
  | expression k => expression (k.moved z)
  | operand k => operand (k.moved z)
  | head k f _ => head (k.moved z) f z
  | after k e => after (k.moved z) (e.moved z)
  | first _ s _ k => first z (s.moved z) z (k.moved z)
  | pattern _ s cs k => pattern z (s.moved z) (Expr.movedClauses z cs) (k.moved z)
  | arrow _ s cs p k => arrow z (s.moved z) (Expr.movedClauses z cs) (p.moved z) (k.moved z)
  | done => done

def Fault.moved (z : Span) : Fault → Fault
  | error e => error ⟨e.cause, z.moved? e.span⟩
  | misuse m => misuse m

def Refusal.moved (z : Span) (x : Refusal) : Refusal := ⟨x.fault.moved z, x.defined.map (·.moved z)⟩

def Reader.moved (z : Span) (r : Reader) : Reader := ⟨r.defined.map (·.moved z), r.phase.moved z⟩

/-- What a step leads to, moved to one place. -/
def Reader.movedResult (z : Span) : Except Refusal Reader → Except Refusal Reader
  | .ok r => .ok (r.moved z)
  | .error x => .error (x.moved z)

theorem Token.map_moved_eq {ts us : List Token} (z : Span) (h : ts.map content = us.map content) :
    ts.map (·.moved z) = us.map (·.moved z) := by
  have hcontent : (·.moved z) = (fun c => Token.mk c.1 c.2 z) ∘ content := rfl
  rw [hcontent, ← List.map_map, ← List.map_map, h]

theorem Span.join?_moved? (z : Span) (s t : Option Span) :
    join? (z.moved? s) (z.moved? t) = z.moved? (join? s t) := by
  cases s with
  | none => rfl
  | some s =>
    cases t with
    | none => rfl
    | some t => rfl

theorem Expr.span_moved (z : Span) (e : Expr) : (e.moved z).span = z.moved? e.span := by
  cases e <;> rfl

theorem Pattern.span_moved (z : Span) (p : Pattern) : (p.moved z).span = z.moved? p.span := by
  cases p <;> rfl

theorem Expr.movedClauses_concat (z : Span) (cs : List (Clause Expr)) (c : Clause Expr) :
    movedClauses z (cs ++ [c]) = movedClauses z cs ++ [c.moved z] := by
  induction cs with
  | nil => rfl
  | cons d cs ih => exact congrArg (d.moved z :: ·) ih

namespace Context

variable (z : Span)

theorem combine_moved (l r : Expr) (operator : String) :
    combine (l.moved z) operator (r.moved z) = (combine l operator r).moved z := by
  rw [combine, combine, Expr.moved, Expr.span_moved, Expr.span_moved, Span.join?_moved?]

theorem clause_moved (p : Pattern) (e : Expr) :
    clause (p.moved z) (e.moved z) = (clause p e).moved z := by
  rw [clause, clause, Clause.moved, Pattern.span_moved, Expr.span_moved, Span.join?_moved?]

theorem complete_moved (start : Span) (s : Expr) (cs : List (Clause Expr)) (c : Clause Expr) :
    complete z (s.moved z) (Expr.movedClauses z cs) (c.moved z) = (complete start s cs c).moved z := by
  have hspan : Span.join? (some z) (z.moved? c.span) = z.moved? (Span.join? (some start) c.span) :=
    Span.join?_moved? z (some start) c.span
  rw [complete, complete, Expr.moved, Expr.movedClauses_concat, ← hspan]
  rfl

theorem closeProducts_moved (k : Context) (e : Expr) :
    (k.moved z).closeProducts (e.moved z) =
      ((k.closeProducts e).1.moved z, (k.closeProducts e).2.moved z) := by
  induction k generalizing e with
  | product l operator outer ih =>
    rw [moved, closeProducts, closeProducts, combine_moved, ih]
  | _ => rfl

theorem closeSums_moved (k : Context) (e : Expr) :
    (k.moved z).closeSums (e.moved z) = ((k.closeSums e).1.moved z, (k.closeSums e).2.moved z) := by
  induction k generalizing e with
  | product l operator outer ih | sum l operator outer ih =>
    rw [moved, closeSums, closeSums, combine_moved, ih]
  | _ => rfl

end Context

namespace Reader

variable (z : Span) (ds : List Definition) (t : Token)

theorem names_moved : (ds.map (·.moved z)).map Definition.name = ds.map Definition.name := by
  rw [List.map_map]
  rfl

/-- A choice that does not look at places is made alike. -/
theorem ite_moved {c : Prop} [Decidable c] {a a' b b' : Except Refusal Reader}
    (ha : a' = movedResult z a) (hb : b' = movedResult z b) :
    (if c then a' else b') = movedResult z (if c then a else b) := by
  rw [apply_ite (movedResult z), ha, hb]

theorem item_moved : item (ds.map (·.moved z)) (t.moved z) = movedResult z (item ds t) := by
  unfold item
  exact ite_moved z rfl (ite_moved z rfl rfl)

theorem define_moved (f : Definition) :
    define (ds.map (·.moved z)) (f.moved z) (t.moved z) = movedResult z (define ds f t) := by
  have hitem := item_moved z (ds ++ [f]) t
  rw [List.map_append] at hitem
  unfold define
  rw [names_moved]
  exact ite_moved z rfl hitem

theorem close_moved (k : Context) (e : Expr) :
    close (ds.map (·.moved z)) (k.moved z) (e.moved z) (t.moved z) =
      movedResult z (close ds k e t) := by
  induction k generalizing e with
  | body start name param =>
    have hspan := Span.join?_moved? z (some start) e.span
    rw [← Expr.span_moved] at hspan
    have hdefine := define_moved z ds t ⟨name, param, e, Span.join? (some start) e.span⟩
    rw [Definition.moved, ← hspan] at hdefine
    exact hdefine
  | sum l operator outer ih | product l operator outer ih =>
    rw [Context.moved, close, close, Context.combine_moved, ih]
  | group outer ih => exact ite_moved z rfl rfl
  | argument f start outer ih =>
    have hspan := Span.join?_moved? z (some start) e.span
    rw [← Expr.span_moved] at hspan
    refine ite_moved z ?_ rfl
    change _ = Except.ok (Reader.mk _ (Phase.after _ (Expr.call f (e.moved z) _)))
    rw [← hspan]
    rfl
  | scrutinee start outer ih => exact ite_moved z rfl rfl
  | branch start s cs p outer ih =>
    rw [Context.moved, close, close, Context.clause_moved, Context.complete_moved z start, ih]
    rw [← Expr.movedClauses_concat]
    exact ite_moved z rfl rfl

theorem settle_moved (k : Context) (e : Expr) :
    settle (ds.map (·.moved z)) (k.moved z) (e.moved z) (t.moved z) =
      movedResult z (settle ds k e t) := by
  unfold settle
  rw [Context.closeProducts_moved]
  refine ite_moved z rfl ?_
  dsimp only
  rw [Context.closeSums_moved]
  exact ite_moved z rfl (ite_moved z rfl (close_moved z ds t _ _))

theorem operand_moved (k : Context) :
    operand (ds.map (·.moved z)) (k.moved z) (t.moved z) = movedResult z (operand ds k t) := by
  unfold operand
  exact ite_moved z rfl (ite_moved z rfl (ite_moved z rfl rfl))

theorem expression_moved (k : Context) :
    expression (ds.map (·.moved z)) (k.moved z) (t.moved z) = movedResult z (expression ds k t) := by
  unfold expression
  exact ite_moved z rfl (operand_moved z ds t k)

theorem head_moved (k : Context) (name : Name) (span : Span) :
    head (ds.map (·.moved z)) (k.moved z) name z (t.moved z) =
      movedResult z (head ds k name span t) := by
  unfold head
  have hsettle := settle_moved z ds t k (.var name (some span))
  exact ite_moved z rfl (ite_moved z rfl (ite_moved z rfl hsettle))

theorem pattern_moved (start : Span) (s : Expr) (cs : List (Clause Expr)) (k : Context) :
    pattern (ds.map (·.moved z)) z (s.moved z) (Expr.movedClauses z cs) (k.moved z) (t.moved z) =
      movedResult z (pattern ds start s cs k t) := by
  unfold pattern
  exact ite_moved z rfl (ite_moved z rfl rfl)

theorem step_moved (r : Reader) : (r.moved z).step (t.moved z) = movedResult z (r.step t) := by
  obtain ⟨ds, phase⟩ := r
  cases phase with
  | item => exact item_moved z ds t
  | name start => exact ite_moved z rfl rfl
  | param start f => exact ite_moved z rfl rfl
  | equals start f x => exact ite_moved z rfl rfl
  | expression k => exact expression_moved z ds t k
  | operand k => exact operand_moved z ds t k
  | head k f span => exact head_moved z ds t k f span
  | after k e => exact settle_moved z ds t k e
  | first start s inWord k =>
    exact ite_moved z rfl (pattern_moved z ds t start s [] k)
  | pattern start s cs k => exact pattern_moved z ds t start s cs k
  | arrow start s cs p k => exact ite_moved z rfl rfl
  | done => rfl

theorem take_moved (ts : List Token) (r : Reader) :
    (r.moved z).take (ts.map (·.moved z)) = movedResult z (r.take ts) := by
  induction ts generalizing r with
  | nil => rfl
  | cons t ts ih =>
    have hstep := step_moved z t r
    cases hr : r.step t with
    | ok s =>
      rw [hr] at hstep
      rw [take_cons hr, List.map_cons, take_cons hstep, ih]
    | error x =>
      rw [hr] at hstep
      change ((r.moved z).step (t.moved z) >>= fun s => s.take (ts.map (·.moved z))) =
        movedResult z (r.step t >>= fun s => s.take ts)
      rw [hr, hstep]
      rfl

end Reader

/-! What is moved to the same is the same. -/

section

variable {z : Span}

theorem Pattern.same_of_moved {p q : Pattern} (h : p.moved z = q.moved z) : p.Same q := by
  cases p with
  | literal v s =>
    cases q with
    | literal w t =>
      obtain ⟨rfl, _⟩ := Pattern.literal.inj h
      exact same_literal v s t
    | _ => cases h
  | wildcard s =>
    cases q with
    | wildcard t => exact same_wildcard s t
    | _ => cases h
  | foreign o =>
    cases q with
    | foreign o' =>
      obtain rfl := Pattern.foreign.inj h
      exact o.same_self
    | _ => cases h

theorem SameClauses.of_moved {cs ds : List (Clause Expr)}
    (hbodies : ∀ c ∈ cs, ∀ e : Expr, c.body.moved z = e.moved z → c.body.same e)
    (h : Expr.movedClauses z cs = Expr.movedClauses z ds) : SameClauses cs ds := by
  induction cs generalizing ds with
  | nil =>
    cases ds with
    | nil => exact .nil
    | cons d ds => cases h
  | cons c cs ih =>
    cases ds with
    | nil => cases h
    | cons d ds =>
      obtain ⟨hclause, hrest⟩ := List.cons.inj h
      obtain ⟨hpattern, hbody, _⟩ := Clause.mk.inj hclause
      exact .cons (Pattern.same_of_moved hpattern) (hbodies c List.mem_cons_self d.body hbody)
        (ih (fun c hc => hbodies c (List.mem_cons_of_mem _ hc)) hrest)

theorem Expr.same_of_moved {e e' : Expr} (h : e.moved z = e'.moved z) : e.same e' := by
  induction e generalizing e' with
  | int v s =>
    cases e' with
    | int w t =>
      obtain ⟨rfl, _⟩ := Expr.int.inj h
      exact same_int v s t
    | _ => cases h
  | var x s =>
    cases e' with
    | var y t =>
      obtain ⟨rfl, _⟩ := Expr.var.inj h
      exact same_var x s t
    | _ => cases h
  | binary operator l r s ihl ihr =>
    cases e' with
    | binary operator' l' r' t =>
      obtain ⟨rfl, hl, hr, _⟩ := Expr.binary.inj h
      exact same_binary operator s t (ihl hl) (ihr hr)
    | _ => cases h
  | call f a s ih =>
    cases e' with
    | call g b t =>
      obtain ⟨rfl, ha, _⟩ := Expr.call.inj h
      exact same_call f s t (ih ha)
    | _ => cases h
  | case e cs s ihe ihcs =>
    cases e' with
    | case e' ds t =>
      obtain ⟨he, hcs, _⟩ := Expr.case.inj h
      exact same_case s t (ihe he) (.of_moved (fun c hc _ => ihcs c hc) hcs)
    | _ => cases h
  | foreign o =>
    cases e' with
    | foreign o' =>
      obtain rfl := Expr.foreign.inj h
      exact o.same_self
    | _ => cases h

theorem Definition.same_of_moved {f g : Definition} (h : f.moved z = g.moved z) : f.same g := by
  obtain ⟨name, param, e, s⟩ := f
  obtain ⟨name', param', e', t⟩ := g
  obtain ⟨rfl, rfl, he, _⟩ := Definition.mk.inj h
  exact same_mk name param s t (Expr.same_of_moved he)

theorem Fault.cause_eq_of_moved {e e' : Error}
    (h : Fault.moved z (.error e) = Fault.moved z (.error e')) : e.cause = e'.cause := by
  obtain ⟨hcause, _⟩ := Error.mk.inj (Fault.error.inj h)
  exact hcause

theorem Definition.all_same_of_moved {fs gs : List Definition}
    (h : fs.map (·.moved z) = gs.map (·.moved z)) : (fs.zip gs).all fun (f, g) => f.same g := by
  induction fs generalizing gs with
  | nil => rfl
  | cons f fs ih =>
    cases gs with
    | nil => rfl
    | cons g gs =>
      obtain ⟨hfg, hrest⟩ := List.cons.inj h
      rw [List.zip_cons_cons, List.all_cons, ih hrest, Bool.and_true]
      exact same_of_moved hfg

/-- Definitions that differ in places only make up the same program. -/
theorem Program.same_of_moved {fs gs : List Definition} (hfs : (fs.map Definition.name).Nodup)
    (h : fs.map (·.moved z) = gs.map (·.moved z)) : (ofDefinitions fs).same (ofDefinitions gs) := by
  have hnames : fs.map Definition.name = gs.map Definition.name := by
    rw [← Reader.names_moved z fs, ← Reader.names_moved z gs, h]
  have hgs : (gs.map Definition.name).Nodup := hnames ▸ hfs
  unfold same
  rw [keys_ofDefinitions hfs, keys_ofDefinitions hgs, definitions_ofDefinitions hfs,
    definitions_ofDefinitions hgs, decide_eq_true_iff]
  exact ⟨hnames, Definition.all_same_of_moved h⟩

end

end Casewise
