import Casewise.Expr.Printer
import Casewise.Proofs.Expr.Genuine
import Casewise.Proofs.Token.Openings

/-! The parentheses that an expression cannot do without. An operand, an argument and whatever else the
grammar wants to bind more tightly than it does needs a pair, and no tokens that are read as the expression
open fewer in front of any word. -/
namespace Casewise

open Token

namespace Expr

/-- How tightly an expression binds. Literals and variables bind as tightly as any place demands. -/
def strength : Expr → Int
  | call .. => applicationPrecedence
  | binary operator .. => (precedence? operator).getD 1
  | case .. => 0
  | _ => applicationPrecedence + 1

/-- What a pair of parentheses around a text opens, if its place demands a tighter binding than it has. -/
def enclosed (demanded own : Int) (ns : List Nat) : List Nat :=
  if demanded > own then ns.modifyHead (· + 1) else ns

mutual

/-- The parentheses that the parts of an expression need, in front of each of its words. -/
def openings : Expr → List Nat
  | call _ argument _ => 0 :: enclosed (applicationPrecedence + 1) argument.strength argument.openings
  | binary operator left right _ =>
    let own := (precedence? operator).getD 1
    enclosed own left.strength left.openings ++ 0 :: enclosed (own + 1) right.strength right.openings
  | case scrutinee clauses _ => 0 :: (scrutinee.openings ++ clauseOpenings clauses)
  | _ => [0]

/-- The parentheses that the parts of clauses need. In front of each clause stands a word, `in` or a bar. -/
def clauseOpenings : List (Clause Expr) → List Nat
  | [] => []
  | ⟨_, body, _⟩ :: clauses => 0 :: 0 :: 0 :: (body.openings ++ clauseOpenings clauses)

end

def openingsAt (e : Expr) (demanded : Int) : List Nat := enclosed demanded e.strength e.openings

variable {e e' l r : Expr} {operator : String} {f : Name} {cs ds : List (Clause Expr)} {c : Clause Expr}
  {span : Option Span} {demanded own : Int} {ns : List Nat}

@[simp] theorem length_enclosed : (enclosed demanded own ns).length = ns.length := by
  unfold enclosed
  split
  next => exact List.length_modifyHead
  next => rfl

theorem enclosed_of_lt (h : own < demanded) : enclosed demanded own ns = ns.modifyHead (· + 1) := if_pos h

theorem enclosed_of_le (h : demanded ≤ own) : enclosed demanded own ns = ns := if_neg (Int.not_lt.mpr h)

theorem precedence?_bounds (h : precedence? operator = some own) : 0 < own ∧ own ≤ 2 := by
  unfold precedence? at h
  split at h <;> cases h <;> decide

theorem exists_precedence (hop : operator ∈ ["+", "-", "*"]) : ∃ own, precedence? operator = some own := by
  have hops : operator = "+" ∨ operator = "-" ∨ operator = "*" := by simpa using hop
  rcases hops with rfl | rfl | rfl <;> exact ⟨_, rfl⟩

theorem strength_binary_bounds :
    0 < (binary operator l r span).strength ∧ (binary operator l r span).strength ≤ 2 := by
  rw [strength]
  cases h : precedence? operator with
  | none => decide
  | some own => exact precedence?_bounds h

theorem strength_nonneg (e : Expr) : 0 ≤ e.strength := by
  cases e with
  | binary operator l r span => exact Int.le_of_lt strength_binary_bounds.1
  | _ => simp [strength, applicationPrecedence]

theorem strength_le (e : Expr) : e.strength ≤ 4 := by
  cases e with
  | binary operator l r span => exact Int.le_trans strength_binary_bounds.2 (by decide)
  | _ => simp [strength, applicationPrecedence]

theorem strength_binary (h : precedence? operator = some own) : (binary operator l r span).strength = own := by
  rw [strength, h]
  rfl

theorem openingsAt_zero (e : Expr) : e.openingsAt 0 = e.openings := enclosed_of_le e.strength_nonneg

@[simp] theorem length_openingsAt (e : Expr) : (e.openingsAt demanded).length = e.openings.length :=
  length_enclosed

theorem openings_ne_nil (e : Expr) : e.openings ≠ [] := by
  cases e <;> simp [openings]

theorem openingsAt_ne_nil (e : Expr) : e.openingsAt demanded ≠ [] := by
  rw [← List.length_pos_iff, length_openingsAt]
  exact List.length_pos_iff.mpr e.openings_ne_nil

theorem openings_call : (call f e span).openings = 0 :: e.openingsAt (applicationPrecedence + 1) := by
  rw [openings]
  rfl

theorem openings_binary (h : precedence? operator = some own) :
    (binary operator l r span).openings = l.openingsAt own ++ 0 :: r.openingsAt (own + 1) := by
  rw [openings, h]
  rfl

theorem openings_case : (case e cs span).openings = 0 :: (e.openings ++ clauseOpenings cs) := by
  rw [openings]

/-- Only a case binds as loosely as can be, and the word that it begins with needs no parentheses. -/
theorem exists_openings_of_strength (h : e.strength ≤ 0) : ∃ ns, e.openings = 0 :: ns := by
  cases e with
  | case s cs span => exact ⟨_, openings_case⟩
  | binary operator l r span => exact absurd strength_binary_bounds.1 (Int.not_lt.mpr h)
  | _ => simp [openings]

theorem clauseOpenings_append : clauseOpenings (cs ++ ds) = clauseOpenings cs ++ clauseOpenings ds := by
  induction cs with
  | nil => rfl
  | cons c cs ih => simp only [List.cons_append, clauseOpenings, ih, List.append_assoc]

theorem clauseOpenings_cons :
    clauseOpenings (c :: cs) = 0 :: 0 :: 0 :: (c.body.openings ++ clauseOpenings cs) := by
  rw [clauseOpenings]

theorem Genuine.openings_eq (he : e.Genuine) (he' : e'.Genuine) (h : e.same e') :
    e.strength = e'.strength ∧ e.openings = e'.openings := by
  refine he.same_induct (motive := fun e e' => e.strength = e'.strength ∧ e.openings = e'.openings)
    ?_ ?_ ?_ ?_ ?_ he' h
  · exact fun _ _ _ _ _ => ⟨rfl, by simp [openings]⟩
  · exact fun _ _ _ => ⟨rfl, by simp [openings]⟩
  · rintro operator l l' r r' s t ⟨hls, hl⟩ ⟨hrs, hr⟩
    exact ⟨rfl, by rw [openings, openings, hls, hl, hrs, hr]⟩
  · rintro f b b' s t ⟨hstrength, hb⟩
    exact ⟨rfl, by rw [openings, openings, hstrength, hb]⟩
  · rintro e e' cs ds s t ⟨_, he⟩ hcs
    refine ⟨rfl, ?_⟩
    have hclauses : clauseOpenings cs = clauseOpenings ds := by
      induction hcs with
      | nil => rfl
      | cons hcd _ ih => rw [clauseOpenings_cons, clauseOpenings_cons, hcd.2.2, ih]
    rw [openings_case, openings_case, he, hclauses]

end Expr

/-- The tokens open at least so many parentheses in front of each word. -/
def Token.Covers (ts : List Token) (ns : List Nat) : Prop := ∃ ms, Opens ts ms ∧ List.Forall₂ (· ≤ ·) ns ms

namespace Token.Covers

variable {ts us : List Token} {t l r : Token} {ns ms : List Nat} {e : Expr} {demanded demanded' : Int}

theorem word (ht : t.IsWord) : Covers [t] [0] := ⟨[0], .word ht, .cons (Nat.le_refl 0) .nil⟩

theorem append (h : Covers ts ns) (h' : Covers us ms) : Covers (ts ++ us) (ns ++ ms) := by
  obtain ⟨ns', hns, hle⟩ := h
  obtain ⟨ms', hms, hle'⟩ := h'
  exact ⟨_, hns.append hms, List.rel_append hle hle'⟩

theorem cons (ht : t.IsWord) (h : Covers ts ns) : Covers (t :: ts) (0 :: ns) := (word ht).append h

theorem modifyHead (h : Covers ts ns) (hne : ns ≠ []) (hl : l.is .punctuation "(")
    (hr : r.is .punctuation ")") : Covers (l :: (ts ++ [r])) (ns.modifyHead (· + 1)) := by
  obtain ⟨ms, hms, hle⟩ := h
  cases hle with
  | nil => exact absurd rfl hne
  | cons hn hle => exact ⟨_, hms.group hl (by simp) hr, .cons (Nat.succ_le_succ hn) hle⟩

theorem of_modifyHead (h : Covers ts (ns.modifyHead (· + 1))) : Covers ts ns := by
  obtain ⟨ms, hms, hle⟩ := h
  cases ns with
  | nil => exact ⟨ms, hms, hle⟩
  | cons n ns =>
    cases hle with
    | cons hn hle => exact ⟨_, hms, .cons (Nat.le_of_succ_le hn) hle⟩

/-- Where less is demanded, no more parentheses are needed. -/
theorem mono (h : Covers ts (e.openingsAt demanded')) (hle : demanded ≤ demanded') :
    Covers ts (e.openingsAt demanded) := by
  unfold Expr.openingsAt at h ⊢
  by_cases hd : demanded ≤ e.strength
  · rw [Expr.enclosed_of_le hd]
    by_cases hd' : demanded' ≤ e.strength
    · rwa [Expr.enclosed_of_le hd'] at h
    · rw [Expr.enclosed_of_lt (Int.not_le.mp hd')] at h
      exact h.of_modifyHead
  · have hlt := Int.not_le.mp hd
    rw [Expr.enclosed_of_lt (Int.lt_of_lt_of_le hlt hle)] at h
    rwa [Expr.enclosed_of_lt hlt]

/-- Between parentheses stands whatever was demanded. -/
theorem group (h : Covers ts (e.openingsAt 0)) (hl : l.is .punctuation "(") (hr : r.is .punctuation ")") :
    Covers (l :: (ts ++ [r])) (e.openingsAt demanded) := by
  rw [Expr.openingsAt_zero] at h
  have hpair := h.modifyHead e.openings_ne_nil hl hr
  unfold Expr.openingsAt Expr.enclosed
  split
  next => exact hpair
  next => exact hpair.of_modifyHead

end Token.Covers

/-- The tokens of a phrase open the parentheses that its expressions need. -/
private def Phrase.Covered : Phrase → List Token → Prop
  | .atom e, ts => Covers ts (e.openingsAt 4)
  | .application e, ts => Covers ts (e.openingsAt 3)
  | .product e, ts => Covers ts (e.openingsAt 2)
  | .sum e, ts => Covers ts (e.openingsAt 1)
  | .expression e _, ts => Covers ts (e.openingsAt 0)
  | .pattern _, ts => Covers ts [0]
  | .clause c _, ts => Covers ts (0 :: 0 :: c.body.openings)
  | .clauses cs, ts => ∀ t : Token, t.IsWord → Covers (t :: ts) (Expr.clauseOpenings cs)
  | .definition _, _ | .program _, _ => True

private theorem Derives.covered {bars : Bars} {ph : Phrase} {ts : List Token} (h : Derives bars ph ts) :
    ph.Covered ts := by
  induction h with
  | number h => exact .word (isWord_of_kind (Or.inr h))
  | word h | name h => exact .word (isWord_of_kind (Or.inl h))
  | group hl _ hr ih => exact Covers.group ih hl hr
  | @call t e ts ht _ ih =>
    have hword := isWord_of_kind (Or.inl ht)
    have hcall : Covers (t :: ts) (0 :: e.openingsAt 4) := Covers.cons hword ih
    exact hcall
  | operand _ ih => exact Covers.mono ih (by decide)
  | factor _ ih => exact Covers.mono ih (by decide)
  | term _ ih => exact Covers.mono ih (by decide)
  | plain _ ih => exact Covers.mono ih (by decide)
  | product _ ho _ ihl ihr =>
    have hword := isWord_of_is ho (by decide)
    exact Covers.append ihl (.cons hword ihr)
  | sum _ hop ho _ ihl ihr =>
    rcases hop with rfl | rfl
    · exact Covers.append ihl (.cons (isWord_of_is ho (by decide)) ihr)
    · exact Covers.append ihl (.cons (isWord_of_is ho (by decide)) ihr)
  | case ht _ hi _ ihs ihc =>
    have hcase := isWord_of_is ht (by decide)
    have hin := isWord_of_is hi (by decide)
    simp only [Phrase.Covered, Expr.openingsAt_zero, Expr.openings_case] at ihs ⊢
    exact .cons hcase (ihs.append (ihc _ hin))
  | literal h => exact .word (isWord_of_kind (Or.inr h))
  | wildcard h => exact .word (isWord_of_is h (by decide))
  | clause _ ha _ ihp ihe =>
    have harrow := isWord_of_is ha (by decide)
    simp only [Phrase.Covered, Expr.openingsAt_zero] at ihe
    exact Covers.append ihp (.cons harrow ihe)
  | last _ ih =>
    intro t ht
    rw [Expr.clauseOpenings_cons, Expr.clauseOpenings, List.append_nil]
    exact .cons ht ih
  | bar _ hb _ _ ihc ihs =>
    intro t ht
    have hbar := isWord_of_is hb (by decide)
    rw [Expr.clauseOpenings_cons]
    exact (Covers.cons ht ihc).append (ihs _ hbar)
  | definition _ _ _ _ _ _ | empty | item _ _ _ _ => trivial

theorem Derives.covers {bars : Bars} {e : Expr} {unclosed : Bool} {ts : List Token}
    (h : Derives bars (.expression e unclosed) ts) : Covers ts e.openings := by
  rw [← e.openingsAt_zero]
  exact h.covered

end Casewise
