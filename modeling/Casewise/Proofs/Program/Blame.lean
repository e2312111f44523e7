import Casewise.Evaluation.Session
import Casewise.Proofs.Evaluation.Blocks
import Casewise.Proofs.Expr.Parts
import Casewise.Proofs.Program.Extents

/-! Where the errors of a text are placed. A fault of the characters is placed where they stand, one of the
grammar at a token or where a definition or a case begins, and one of an evaluation at a node. So each of
them begins in the text, on the line and in the column that it names. -/
namespace Casewise

/-- The span begins in the text or right behind it, where its line and its column say. -/
structure Span.BeginsIn (span : Span) (source : List Char) : Prop where
  placed : span.Placed source
  start_nonneg : 0 ≤ span.start
  start_le : span.start ≤ source.length

section

variable {file : String} {p : Position} {front : List Char}

theorem Span.beginsIn_between (hp : p = Position.start.after front) (rest : List Char) (q : Position) :
    (between file p q).BeginsIn (front ++ rest) := by
  rw [hp]
  refine ⟨placed_between file front rest q, Int.natCast_nonneg _, ?_⟩
  simp [between, Position.start]

theorem Position.after_eq (hp : p = Position.start.after front) (used : List Char) :
    p.after used = Position.start.after (front ++ used) := by
  rw [hp, after_append]

end

/-- The place of the error is among the given ones, if it has one and is an error of the language. -/
def Fault.Marks (P : Span → Prop) (f : Fault) : Prop := ∀ e, f = .error e → ∀ span ∈ e.span, P span

variable {P : Span → Prop}

theorem Fault.marks_of {cause : Error.Cause} {span : Option Span} (h : ∀ s ∈ span, P s) :
    (of cause span).Marks P := by
  intro e he
  cases he
  exact h

theorem Fault.marks_at {cause : Error.Cause} {s : Span} (h : P s) : (of cause (some s)).Marks P := by
  refine marks_of fun u hu => ?_
  cases hu
  exact h

theorem Fault.marks_misuse (m : Misuse) : (misuse m).Marks P := fun _ => nofun

namespace Token

/-- The places of the tokens are among the given ones, and so is that of the error with which the stream breaks
off. -/
structure Stream.Marks (P : Span → Prop) (s : Stream) : Prop where
  tokens : ∀ t ∈ s.toList, P t.span
  fault : ∀ fault, s.fault? = some fault → fault.Marks P

namespace Stream

variable {t : Token} {rest : Stream}

theorem marks_more (ht : P t.span) (hrest : rest.Marks P) : (more t rest).Marks P :=
  ⟨List.forall_mem_cons.mpr ⟨ht, hrest.tokens⟩, hrest.fault⟩

theorem marks_stop (ht : P t.span) : (stop t).Marks P :=
  ⟨List.forall_mem_singleton.mpr ht, fun _ => nofun⟩

theorem marks_fail {fault : Fault} (h : fault.Marks P) : (fail fault).Marks P := by
  refine ⟨fun _ => nofun, fun f hf => ?_⟩
  cases hf
  exact h

end Stream

variable {file : String} {p : Position} {front : List Char}

theorem marks_strangerFault (hp : p = Position.start.after front) (c : Char) (rest : List Char) :
    (strangerFault file p c rest).Marks (·.BeginsIn (front ++ c :: rest)) := by
  unfold strangerFault
  split
  · exact Fault.marks_misuse _
  · exact Fault.marks_at (Span.beginsIn_between hp (c :: rest) _)

/-- All tokens begin in the text, and so does what breaks it off. -/
theorem scan_marks {s : List Char} (hp : p = Position.start.after front) :
    (scan file p s).Marks (·.BeginsIn (front ++ s)) := by
  fun_induction scan file p s generalizing front with
  | case1 p => exact Stream.marks_stop (Span.beginsIn_between hp [] p)
  | case2 p s inside behind hsplit ih =>
    have hsource : front ++ '(' :: '*' :: s = front ++ ('(' :: '*' :: inside ++ ['*', ')']) ++ behind := by
      simp [splitComment?_eq hsplit]
    rw [hsource]
    exact ih (Position.after_eq hp _)
  | case3 p s hsplit => exact Stream.marks_fail (Fault.marks_at (Span.beginsIn_between hp _ _))
  | case4 p c s _ hc ih =>
    have hsource : front ++ c :: s = front ++ [c] ++ s := by simp
    rw [hsource]
    exact ih (Position.after_eq hp [c])
  | case5 p c s _ _ digits hdigits => exact Stream.marks_fail (Fault.marks_misuse _)
  | case6 p c s hopen _ hn l hf ih =>
    have hsource : front ++ c :: s = front ++ l.text ++ (c :: s).drop l.text.length := by
      rw [List.append_assoc, Lexeme.text_append_drop hf]
    have hrest := ih (Position.after_eq hp l.text)
    rw [← hsource] at hrest
    exact Stream.marks_more (Span.beginsIn_between hp _ _) hrest
  | case7 p c s _ hblank _ hf => exact Stream.marks_fail (marks_strangerFault hp c s)

end Token

/-- The definitions and the cases that are open around the hole began at places that are among the given
ones. -/
def Context.Began (P : Span → Prop) : Context → Prop
  | body start _ _ => P start
  | scrutinee start outer => P start ∧ outer.Began P
  | sum _ _ outer | product _ _ outer | group outer | argument _ _ outer | branch _ _ _ _ outer =>
    outer.Began P

def Phase.Began (P : Span → Prop) : Phase → Prop
  | item | done => True
  | name start | param start _ | equals start _ _ => P start
  | expression k | operand k | head k _ _ | after k _ | pattern _ _ _ k | arrow _ _ _ _ k => k.Began P
  | first start _ _ k => P start ∧ k.Began P

namespace Context

variable {k : Context}

theorem Began.closeProducts (hk : k.Began P) (e : Expr) : (k.closeProducts e).1.Began P := by
  induction k generalizing e with
  | product l operator outer ih => exact ih hk _
  | _ => exact hk

theorem Began.closeSums (hk : k.Began P) (e : Expr) : (k.closeSums e).1.Began P := by
  induction k generalizing e with
  | product l operator outer ih | sum l operator outer ih => exact ih hk _
  | _ => exact hk

end Context

namespace Reader

/-- What a step leads to: what is open began at given places, or the error is placed at one. -/
def Marks (P : Span → Prop) : Except Refusal Reader → Prop
  | .ok r => r.phase.Began P
  | .error x => x.fault.Marks P

section

variable {t : Token} (ht : P t.span) (hjoin : ∀ s u, P s → P (s.join u))

include ht

theorem marks_error (expected : String) (defined : List Definition) :
    Marks P (.error ⟨.of (.unexpectedToken expected t.describe) (some t.span), defined⟩) :=
  Fault.marks_at ht

theorem marks_item (defined : List Definition) : Marks P (item defined t) := by
  unfold item
  split
  · trivial
  split
  · exact ht
  · exact marks_error ht _ defined

theorem marks_define (defined : List Definition) {f : Definition} (hf : ∀ s ∈ f.span, P s) :
    Marks P (define defined f t) := by
  unfold define
  split
  · exact Fault.marks_of hf
  · exact marks_item ht _

include hjoin

theorem marks_close (defined : List Definition) {k : Context} (hk : k.Began P) (e : Expr) :
    Marks P (close defined k e t) := by
  induction k generalizing e with
  | body start name param =>
    refine marks_define ht defined fun s hs => ?_
    obtain ⟨u, _, rfl⟩ : ∃ u, e.span = some u ∧ start.join u = s := by
      simpa [Span.join?, Option.bind_eq_some_iff] using hs
    exact hjoin start u hk
  | sum l operator outer ih | product l operator outer ih => exact ih hk _
  | group outer _ | argument f start outer _ =>
    unfold close
    split
    · exact hk
    · exact marks_error ht _ defined
  | scrutinee start outer _ =>
    unfold close
    split
    · exact hk
    · exact marks_error ht _ defined
  | branch start s cs p outer ih =>
    unfold close
    dsimp only
    split
    · exact hk
    · exact ih hk _

theorem marks_settle (defined : List Definition) {k : Context} (hk : k.Began P) (e : Expr) :
    Marks P (settle defined k e t) := by
  have hinner := hk.closeProducts e
  have houter := hinner.closeSums (k.closeProducts e).2
  unfold settle
  dsimp only
  split
  · exact hinner
  split
  · exact houter
  split
  · exact houter
  · exact marks_close ht hjoin defined houter _

omit hjoin in
theorem marks_operand (defined : List Definition) {k : Context} (hk : k.Began P) :
    Marks P (operand defined k t) := by
  unfold operand
  split
  · exact hk
  split
  · exact hk
  split
  · exact hk
  · exact marks_error ht _ defined

theorem marks_head (defined : List Definition) {k : Context} (hk : k.Began P) (name : Name) (span : Span) :
    Marks P (head defined k name span t) := by
  unfold head
  dsimp only
  split
  · exact hk
  split
  · exact hk
  split
  · exact hk
  · exact marks_settle ht hjoin defined hk _

omit hjoin in
theorem marks_pattern (defined : List Definition) (start : Span) (s : Expr) (cs : List (Clause Expr))
    {k : Context} (hk : k.Began P) : Marks P (pattern defined start s cs k t) := by
  unfold pattern
  split
  · exact hk
  split
  · exact hk
  · exact marks_error ht _ defined

/-- An error is placed at the token, or where what is open began. -/
theorem marks_step {r : Reader} (hr : r.phase.Began P) : Marks P (r.step t) := by
  obtain ⟨defined, phase⟩ := r
  cases phase with
  | item => exact marks_item ht defined
  | name start | param start name =>
    simp only [step]
    split
    · exact hr
    · exact marks_error ht _ defined
  | equals start name param | arrow start s cs p k =>
    simp only [step]
    split
    · exact hr
    · exact marks_error ht _ defined
  | expression k =>
    simp only [step, expression]
    split
    · exact ⟨ht, hr⟩
    · exact marks_operand ht defined hr
  | operand k => exact marks_operand ht defined hr
  | head k name span => exact marks_head ht hjoin defined hr name span
  | after k e => exact marks_settle ht hjoin defined hr e
  | first start s inWord k =>
    simp only [step]
    split
    · exact Fault.marks_at (hjoin start inWord hr.1)
    · exact marks_pattern ht defined start s [] hr.2
  | pattern start s cs k => exact marks_pattern ht defined start s cs hr
  | done => trivial

end

/-- A stream is refused at one of its tokens, where a definition or a case began, or where it breaks off. -/
theorem marks_of_read (hjoin : ∀ s u, P s → P (s.join u)) {r : Reader} {stream : Token.Stream} {x : Refusal}
    (hr : r.phase.Began P) (hstream : stream.Marks P) (h : r.read stream = .error x) : x.fault.Marks P := by
  induction stream generalizing r with
  | more t rest ih =>
    obtain ⟨ht, hrest⟩ := List.forall_mem_cons.mp hstream.tokens
    have hstep := marks_step ht hjoin hr
    cases hs : r.step t with
    | error y =>
      rw [read, hs] at h
      cases h
      rwa [hs] at hstep
    | ok next =>
      rw [read, hs] at h
      rw [hs] at hstep
      exact ih hstep ⟨hrest, hstream.fault⟩ h
  | stop last =>
    have hstep := marks_step (hstream.tokens last List.mem_cons_self) hjoin hr
    cases hs : r.step last with
    | error y =>
      rw [read, hs] at h
      cases h
      rwa [hs] at hstep
    | ok next =>
      rw [read, hs] at h
      cases h
  | fail fault =>
    cases h
    exact hstream.fault fault rfl

end Reader

/-! An evaluation that fails blames a node of the program, or no place. -/

namespace Run

/-- The error in which the run ends is placed at one of the given places, if it has a place. -/
def Marks (P : Span → Prop) (r : Run Int) : Prop := ∀ fault, r.outcome = .error fault → fault.Marks P

variable {r : Run Int} {next : Int → Run Int}

theorem marks_value (n : Int) : (value n).Marks P := fun _ => nofun

theorem marks_fault {fault : Fault} (h : fault.Marks P) : (Run.fault fault).Marks P := by
  intro f hf
  cases hf
  exact h

theorem Marks.bind (h : r.Marks P) (hnext : ∀ n, (next n).Marks P) : (r >>= next).Marks P := by
  obtain ⟨calls, outcome⟩ := r
  cases outcome with
  | error f => exact h
  | ok n => exact hnext n

end Run

def Expr.PlacedIn (P : Span → Prop) (e : Expr) : Prop := ∀ b ∈ e.parts, ∀ span ∈ b.span, P span

theorem Expr.PlacedIn.eval_marks {a : Activation} (hexhausted : a.exhausted.Marks P)
    (hinvoke : ∀ stack f n span, (∀ s ∈ span, P s) → (a.invoke stack f n span).Marks P) {e : Expr}
    (he : e.PlacedIn P) (stack : Stack) : (e.eval a stack).Marks P := by
  have hpush {k : Nat} {stack : Stack} {next : Stack → Run Int} (h : ∀ rest, (next rest).Marks P) :
      (a.push k stack next).Marks P := by
    unfold Activation.push
    split
    · exact h _
    · exact Run.marks_fault hexhausted
  have hmisuse (m : Misuse) : (Run.fault (.misuse m)).Marks P := Run.marks_fault (Fault.marks_misuse m)
  have hhere := he e (self_mem_parts e)
  induction e generalizing stack with
  | int v span =>
    rw [eval]
    refine hpush fun rest => ?_
    split
    · exact Run.marks_value _
    · exact hmisuse _
  | var y span =>
    rw [eval]
    refine hpush fun rest => ?_
    split
    · exact Run.marks_value _
    · exact Run.marks_fault (Fault.marks_of hhere)
  | binary operator l r span ihl ihr =>
    have hl : l.PlacedIn P := fun b hb => he b (left_parts_subset hb)
    have hr : r.PlacedIn P := fun b hb => he b (right_parts_subset hb)
    rw [eval]
    refine hpush fun rest => ?_
    refine (ihl hl rest (hl l (self_mem_parts l))).bind fun m => ?_
    refine (ihr hr rest (hr r (self_mem_parts r))).bind fun n => ?_
    cases Word.operation? operator with
    | some f => exact Run.marks_value _
    | none => exact hmisuse _
  | call f c span ih =>
    have hc : c.PlacedIn P := fun b hb => he b (argument_parts_subset hb)
    rw [eval]
    refine hpush fun rest => ?_
    refine (ih hc rest (hc c (self_mem_parts c))).bind fun n => ?_
    exact hpush fun inner => hinvoke inner f n span hhere
  | case s cs span ihs ihcs =>
    have hs : s.PlacedIn P := fun b hb => he b (scrutinee_parts_subset hb)
    rw [eval]
    refine hpush fun rest => ?_
    refine (ihs hs rest (hs s (self_mem_parts s))).bind fun n => ?_
    rw [evalFirst_eq_select]
    split
    next c hselect =>
      have hmem := Clause.mem_of_select hselect
      have hbody : c.body.PlacedIn P := fun b hb => he b (body_parts_subset hmem hb)
      exact ihcs c hmem hbody rest (hbody c.body (self_mem_parts c.body))
    next => exact Run.marks_fault (Fault.marks_of hhere)
    next => exact hmisuse _
  | foreign o =>
    rw [eval]
    exact hpush fun rest => hmisuse _

namespace Program

variable {p : Program}

structure PlacedIn (p : Program) (P : Span → Prop) : Prop where
  span : ∀ g ∈ p.definitions, ∀ s ∈ g.span, P s
  body : ∀ g ∈ p.definitions, g.body.PlacedIn P

theorem PlacedIn.apply_marks (hp : p.PlacedIn P) (limit : Int) (room : Nat) (stack : Stack) {g : Definition}
    (hg : g ∈ p.definitions) (n : Int) {span : Option Span} (hspan : ∀ s ∈ span, P s) :
    (p.apply limit room stack g n span).Marks P := by
  -- the calls of a body have one call less room
  induction room generalizing stack g n span with
  | zero => exact Run.marks_fault (Fault.marks_of hspan)
  | succ room ih =>
    have hplace : ∀ s ∈ (span <|> g.span), P s := by
      cases span with
      | none => exact hp.span g hg
      | some s => exact hspan
    rw [apply_succ]
    refine (hp.body g hg).eval_marks (a := p.activation limit room g n span) (Fault.marks_of hplace) ?_ stack
    intro stack f m place hplace
    change (p.invoker limit room stack f m place).Marks P
    unfold invoker
    split
    next h hf => exact ih stack (mem_definitions_of_find? hf) m hplace
    next => exact Run.marks_fault (Fault.marks_of hplace)

theorem PlacedIn.evaluateOn_marks (hp : p.PlacedIn P) (stack : Stack) (f : Name) (arguments : List Argument)
    (limit : Int) : (p.evaluateOn stack f arguments limit).Marks P := by
  unfold evaluateOn entry
  cases arguments.mapM Argument.number with
  | error m => exact Run.marks_fault (Fault.marks_misuse m)
  | ok values =>
    cases hf : p.find? f with
    | none => exact Run.marks_fault (Fault.marks_of nofun)
    | some g =>
      have hg := mem_definitions_of_find? hf
      rcases values with _ | ⟨n, _ | ⟨m, values⟩⟩
      · exact Run.marks_fault (Fault.marks_of (hp.span g hg))
      · dsimp only
        cases stack.take? Expr.callFrames with
        | some rest => exact hp.apply_marks limit _ rest hg _ nofun
        | none => exact Run.marks_fault (Fault.marks_of (hp.span g hg))
      · exact Run.marks_fault (Fault.marks_of (hp.span g hg))

theorem HasNode.part {e b : Expr} (h : p.HasNode (.expression e)) (hb : b ∈ e.parts) :
    p.HasNode (.expression b) := by
  induction e with
  | int v span | var y span | foreign o =>
    cases List.mem_singleton.mp hb
    exact h
  | binary operator l r span ihl ihr =>
    rw [Expr.parts, List.mem_cons, List.mem_append] at hb
    rcases hb with rfl | hb | hb
    · exact h
    · exact ihl (h.child (by simp [Node.children])) hb
    · exact ihr (h.child (by simp [Node.children])) hb
  | call f c span ih =>
    rw [Expr.parts, List.mem_cons] at hb
    rcases hb with rfl | hb
    · exact h
    · exact ih (h.child (by simp [Node.children])) hb
  | case s cs span ihs ihcs =>
    rw [Expr.parts, List.mem_cons, List.mem_append] at hb
    rcases hb with rfl | hb | hb
    · exact h
    · exact ihs (h.child (by simp [Node.children])) hb
    · obtain ⟨c, hc, hb⟩ := Expr.exists_of_mem_bodiesParts hb
      have hclause : p.HasNode (.clause c) := h.child (by simp [Node.children, hc])
      exact ihcs c hc (hclause.child (by simp [Node.children])) hb

/-- The nodes of a program that is read from a text begin in the text. -/
theorem placedIn_of_ofSource {source file : String} (h : ofSource source file = .ok p) :
    p.PlacedIn (·.BeginsIn source.toList) := by
  obtain ⟨fs, ts, hl, hd, hn, rfl⟩ := exists_reading h
  have hs := Token.splits_of_layout hl
  have hspread : Node.Spread ((ofDefinitions fs).definitions.map .definition) ts := by
    rw [definitions_ofDefinitions hn]
    exact hd.spread_definitions
  have hnode (n : Node) (hn : (ofDefinitions fs).HasNode n) : ∀ s ∈ n.span, s.BeginsIn source.toList := by
    intro s hspan
    obtain ⟨before, mine, after, rfl, hmine⟩ := hn.exists_takes hspread
    obtain ⟨first, hfirst, last, _, hjoin⟩ := hmine.exists_ends
    cases hspan.symm.trans hjoin
    have hmem : first ∈ before ++ (mine ++ after) := by simp [(Token.words_sublist mine).subset hfirst]
    obtain ⟨hstart, hstop, hle⟩ := hs.inside first hmem
    refine ⟨hs.placed first hmem, hstart, ?_⟩
    change first.span.start ≤ _
    omega
  refine ⟨fun g hg => hnode (.definition g) (.definition hg), fun g hg b hb => ?_⟩
  have hbody : (ofDefinitions fs).HasNode (.expression g.body) :=
    (HasNode.definition hg).child (by simp [Node.children])
  exact hnode _ (hbody.part hb)

end Program

/-- An error with a place, of whatever stage, begins in the text. -/
theorem Session.marks_run (source file : String) (f : Name) (arguments : List Argument) (limit : Int)
    (stack : Program → Stack) :
    (ofProgram (Program.ofSource source file) fun p => p.evaluateOn (stack p) f arguments limit).run.Marks
      (·.BeginsIn source.toList) := by
  cases hread : Program.ofSource source file with
  | ok p => exact (Program.placedIn_of_ofSource hread).evaluateOn_marks (stack p) f arguments limit
  | error x =>
    refine Run.marks_fault ?_
    have hstart : Position.start = Position.start.after [] := rfl
    have hstream : (Token.tokenize source file).Marks (·.BeginsIn source.toList) := Token.scan_marks hstart
    refine Reader.marks_of_read (fun s u hs => ?_) (r := .start) trivial hstream
      (Program.read_of_ofTokens hread)
    exact ⟨hs.placed, hs.start_nonneg, hs.start_le⟩

end Casewise
