import Casewise.Proofs.Expr.Openings
import Casewise.Proofs.Expr.Printing

/-! Where the parts of an expression are printed. A part right below an expression stands between two texts that
the rest of it is printed as, and so, from one to the next, does whatever is printed inside. -/
namespace Casewise

open Token

theorem Pattern.Writable.exists_format {p : Pattern} (h : p.Writable) : ∃ text, p.format = .ok text := by
  cases h with
  | literal => exact ⟨_, rfl⟩
  | wildcard => exact ⟨_, rfl⟩

namespace Expr

/-- What stands in front of a text in a place that demands a tighter binding than it has. -/
def leftParenthesis (demanded own : Int) : String := if demanded > own then "(" else ""

/-- What stands behind it. -/
def rightParenthesis (demanded own : Int) : String := if demanded > own then ")" else ""

theorem enclose_of_le {demanded own : Int} (h : demanded ≤ own) (text : String) :
    enclose demanded own text = text :=
  if_neg (Int.not_lt.mpr h)

theorem enclose_eq (demanded own : Int) (text : String) :
    enclose demanded own text = leftParenthesis demanded own ++ text ++ rightParenthesis demanded own := by
  unfold enclose leftParenthesis rightParenthesis
  split
  next => rfl
  next => simp

/-- The first expression is a part of the second right below it, and is printed between those two texts in a
place that demands the given binding strength. -/
inductive StandsIn : Expr → Int → Expr → String → String → Prop
  | left {operator text : String} {l r : Expr} {span : Option Span} {own : Int} :
    precedence? operator = some own → r.format (own + 1) = .ok text →
    StandsIn l own (.binary operator l r span) "" (" " ++ operator ++ " " ++ text)
  | right {operator text : String} {l r : Expr} {span : Option Span} {own : Int} :
    precedence? operator = some own → l.format own = .ok text →
    StandsIn r (own + 1) (.binary operator l r span) (text ++ " " ++ operator ++ " ") ""
  | argument {f : Name} {a : Expr} {span : Option Span} :
    StandsIn a (applicationPrecedence + 1) (.call f a span) (f.plain ++ " ") ""
  | scrutinee {s : Expr} {cs : List (Clause Expr)} {span : Option Span} {texts : List String} :
    formatClauses cs = .ok texts →
    StandsIn s 1 (.case s cs span) "case " (" in " ++ " | ".intercalate texts)
  | body {s b : Expr} {cs ds : List (Clause Expr)} {p : Pattern} {span span' : Option Span}
    {text pattern : String} {earlier later : List String} : s.format 1 = .ok text →
    formatClauses cs = .ok earlier → p.format = .ok pattern → formatClauses ds = .ok later →
    StandsIn b 1 (.case s (cs ++ ⟨p, b, span'⟩ :: ds) span)
      ("case " ++ text ++ " in " ++ String.join (earlier.map (· ++ " | ")) ++ pattern ++ " => ")
      (String.join (later.map (" | " ++ ·)))

/-- An expression is printed somewhere in another one, which stands where `demanded` is demanded: between those
two texts, and itself where `place` is demanded. -/
inductive ShownIn (b : Expr) (place : Int) : Expr → Int → String → String → Prop
  | here : ShownIn b place b place "" ""
  | inside {c e : Expr} {inner demanded : Int} {before behind left right : String} :
    StandsIn c inner e before behind → ShownIn b place c inner left right →
    ShownIn b place e demanded (leftParenthesis demanded e.strength ++ before ++ left)
      (right ++ behind ++ rightParenthesis demanded e.strength)

variable {b c e : Expr} {cs ds : List (Clause Expr)} {p : Pattern} {place demanded : Int} {span : Option Span}
  {text pattern before behind left right : String} {earlier later texts : List String}

theorem formatClauses_cons (hp : p.format = .ok pattern) (hb : b.format 1 = .ok text)
    (hcs : formatClauses cs = .ok texts) :
    formatClauses (⟨p, b, span⟩ :: cs) = .ok ((pattern ++ " => " ++ text) :: texts) := by
  simp only [formatClauses, hp, hb, hcs]
  rfl

theorem formatClauses_append (cs ds : List (Clause Expr)) :
    formatClauses (cs ++ ds) = do return (← formatClauses cs) ++ (← formatClauses ds) := by
  induction cs with
  | nil =>
    rw [List.nil_append, formatClauses]
    cases formatClauses ds <;> rfl
  | cons c cs ih => simp [formatClauses, ih]

theorem intercalate_around (earlier later : List String) (text : String) :
    " | ".intercalate (earlier ++ text :: later) =
      String.join (earlier.map (· ++ " | ")) ++ text ++ String.join (later.map (" | " ++ ·)) := by
  induction earlier with
  | nil =>
    induction later generalizing text with
    | nil => simp
    | cons next later ih =>
      rw [List.nil_append, String.intercalate_cons_of_ne_nil (by simp), ← List.nil_append (next :: later), ih]
      simp [String.join_cons, String.append_assoc]
  | cons first earlier ih =>
    rw [List.cons_append, String.intercalate_cons_of_ne_nil (by simp), ih]
    simp [String.join_cons, String.append_assoc]

/-- The text of a part is where the part stands. -/
theorem StandsIn.format (h : StandsIn c place e before behind) (hc : c.format place = .ok text)
    (demanded : Int) :
    e.format demanded = .ok (enclose demanded e.strength (before ++ text ++ behind)) := by
  cases h with
  | left hop hr =>
    rw [format_binary hop hc hr, strength_binary hop]
    simp [String.append_assoc]
  | right hop hl =>
    rw [format_binary hop hl hc, strength_binary hop]
    simp [String.append_assoc]
  | argument =>
    rw [format_call hc, strength]
    simp
  | scrutinee hcs =>
    rw [format_case hc hcs, strength]
    simp [String.append_assoc]
  | @body s _ cs ds p span span' _ pattern earlier later hs hcs hp hds =>
    have hclauses : formatClauses (cs ++ ⟨p, c, span'⟩ :: ds) =
        .ok (earlier ++ (pattern ++ " => " ++ text) :: later) := by
      rw [formatClauses_append, hcs, formatClauses_cons hp hc hds]
      rfl
    rw [format_case hs hclauses, strength, intercalate_around]
    simp [String.append_assoc]

/-- So is the text of whatever is shown in an expression. -/
theorem ShownIn.format (h : b.ShownIn place e demanded left right) (hb : b.format place = .ok text) :
    e.format demanded = .ok (left ++ text ++ right) := by
  induction h with
  | here => simpa using hb
  | inside hc _ ih =>
    rw [hc.format ih, enclose_eq]
    simp only [String.append_assoc]

theorem StandsIn.writable (h : StandsIn c place e before behind) (he : e.Writable) : c.Writable := by
  cases h with
  | left _ _ =>
    cases he with
    | binary _ hl _ => exact hl
  | right _ _ =>
    cases he with
    | binary _ _ hr => exact hr
  | argument =>
    cases he with
    | call _ ha => exact ha
  | scrutinee _ =>
    cases he with
    | case hs _ _ _ => exact hs
  | body _ _ _ _ =>
    cases he with
    | case _ _ _ hbodies =>
      have hbody := hbodies _ (List.mem_append_right _ List.mem_cons_self)
      exact hbody

theorem ShownIn.writable (h : b.ShownIn place e demanded left right) (he : e.Writable) : b.Writable := by
  induction h with
  | here => exact he
  | inside hc _ ih => exact ih (hc.writable he)

end Expr

end Casewise
