import Casewise.Evaluation

/-! What programs mean: to which value or error an expression comes. Nothing here knows of a limit on
nested calls or of a stack, so an expression that goes on for ever comes to nothing. -/
namespace Casewise

namespace Word

def Represents (k n : Int) : Prop := IsWord k ∧ k % modulus = n % modulus

theorem represents_wrap (n : Int) : Represents (wrap n) n := ⟨isWord_wrap n, Int.bmod_emod⟩

theorem Represents.eq_wrap {k n : Int} (h : Represents k n) : k = wrap n := by
  calc k = wrap k := (wrap_eq_self h.1).symm
    _ = (k % modulus).bmod modulus := (Int.emod_bmod k modulus).symm
    _ = (n % modulus).bmod modulus := by rw [h.2]
    _ = wrap n := Int.emod_bmod n modulus

/-- The operators of the language, and the integers that they give. -/
inductive Operates (m n : Int) : String → Int → Prop
  | add : Operates m n "+" (m + n)
  | sub : Operates m n "-" (m - n)
  | mul : Operates m n "*" (m * n)

theorem operates_iff {operator : String} {m n k : Int} :
    Operates m n operator k ↔ ∃ f, integerOperation? operator = some f ∧ f m n = k := by
  constructor
  · rintro (_ | _ | _) <;> exact ⟨_, rfl, rfl⟩
  · rintro ⟨f, hf, rfl⟩
    unfold integerOperation? at hf
    split at hf
    · cases hf
      exact .add
    · cases hf
      exact .sub
    · cases hf
      exact .mul
    · cases hf

end Word

/-- A value matches the wildcard, and every literal congruent to it. -/
inductive Pattern.Matches (n : Int) : Pattern → Prop
  | wildcard {span : Option Span} : Matches n (.wildcard span)
  | literal {v : Scalar} {m : Int} {span : Option Span} : v.number? = some m →
    n % Word.modulus = m % Word.modulus → Matches n (.literal v span)

inductive Clause.Selects (n : Int) : List (Clause Expr) → Option (Clause Expr) → Prop
  | none : Selects n [] none
  | here {c : Clause Expr} {cs : List (Clause Expr)} : c.pattern.Matches n →
    Selects n (c :: cs) (some c)
  | later {c : Clause Expr} {cs : List (Clause Expr)} {r : Option (Clause Expr)} :
    ¬ c.pattern.Matches n → Selects n cs r → Selects n (c :: cs) r

namespace Program

/-- What an expression comes to where a parameter is bound to a value. -/
inductive Evaluates (p : Program) : Name → Int → Expr → Except Error Int → Prop
  | int {x : Name} {a k n : Int} {v : Scalar} {span : Option Span} : v.number? = some n →
    Word.Represents k n → Evaluates p x a (.int v span) (.ok k)
  | bound {x : Name} {a : Int} {span : Option Span} : Evaluates p x a (.var x span) (.ok a)
  | unbound {x y : Name} {a : Int} {span : Option Span} : y ≠ x →
    Evaluates p x a (.var y span) (.error ⟨.unboundVariable y, span⟩)
  | binary {x : Name} {a m n j k : Int} {operator : String} {l r : Expr} {span : Option Span} :
    Evaluates p x a l (.ok m) → Evaluates p x a r (.ok n) → Word.Operates m n operator j →
    Word.Represents k j → Evaluates p x a (.binary operator l r span) (.ok k)
  | left {x : Name} {a : Int} {operator : String} {l r : Expr} {span : Option Span} {e : Error} :
    Evaluates p x a l (.error e) → Evaluates p x a (.binary operator l r span) (.error e)
  | right {x : Name} {a m : Int} {operator : String} {l r : Expr} {span : Option Span} {e : Error} :
    Evaluates p x a l (.ok m) → Evaluates p x a r (.error e) →
    Evaluates p x a (.binary operator l r span) (.error e)
  | argument {x f : Name} {a : Int} {b : Expr} {span : Option Span} {e : Error} :
    Evaluates p x a b (.error e) → Evaluates p x a (.call f b span) (.error e)
  | unknown {x f : Name} {a n : Int} {b : Expr} {span : Option Span} : Evaluates p x a b (.ok n) →
    p.find? f = none → Evaluates p x a (.call f b span) (.error ⟨.unknownFunction f, span⟩)
  | call {x f : Name} {a n : Int} {b : Expr} {span : Option Span} {g : Definition}
    {result : Except Error Int} : Evaluates p x a b (.ok n) → p.find? f = some g →
    Evaluates p g.param n g.body result → Evaluates p x a (.call f b span) result
  | scrutinee {x : Name} {a : Int} {s : Expr} {cs : List (Clause Expr)} {span : Option Span}
    {e : Error} : Evaluates p x a s (.error e) → Evaluates p x a (.case s cs span) (.error e)
  | unmatched {x : Name} {a n : Int} {s : Expr} {cs : List (Clause Expr)} {span : Option Span} :
    Evaluates p x a s (.ok n) → Clause.Selects n cs none →
    Evaluates p x a (.case s cs span) (.error ⟨.noMatchingClause n, span⟩)
  | selected {x : Name} {a n : Int} {s : Expr} {cs : List (Clause Expr)} {c : Clause Expr}
    {span : Option Span} {result : Except Error Int} : Evaluates p x a s (.ok n) →
    Clause.Selects n cs (some c) → Evaluates p x a c.body result →
    Evaluates p x a (.case s cs span) result

/-- What a call comes to that the given place makes. -/
def Calls (p : Program) (f : Name) (n : Int) (span : Option Span) (result : Except Error Int) : Prop :=
  match p.find? f with
  | none => result = .error ⟨.unknownFunction f, span⟩
  | some g => p.Evaluates g.param n g.body result

/-- What the function under a key comes to for any integer. -/
def Yields (p : Program) (f : Name) (a : Int) (result : Except Error Int) : Prop :=
  ∃ n, Word.Represents n a ∧ p.Calls f n none result

theorem Evaluates.isWord {p : Program} {x : Name} {a n : Int} {e : Expr}
    (h : p.Evaluates x a e (.ok n)) (ha : Word.IsWord a) : Word.IsWord n := by
  generalize hr : Except.ok n = r at h
  induction h generalizing n with
  | int _ hk => cases hr; exact hk.1
  | bound => cases hr; exact ha
  | binary _ _ _ hk _ _ => cases hr; exact hk.1
  | call _ _ _ ihb ihg => exact ihg (ihb ha rfl) hr
  | selected _ _ _ _ ih => exact ih ha hr
  | _ => cases hr

/-- No expression comes to an overflow of itself. -/
theorem Evaluates.not_overflow {p : Program} {x : Name} {a depth : Int} {e : Expr} {place : Option Span}
    {r : Except Error Int} (h : p.Evaluates x a e r) : r ≠ .error ⟨.stackOverflow depth, place⟩ := by
  induction h with
  | left _ ih | argument _ ih | scrutinee _ ih => exact ih
  | right _ _ _ ih | call _ _ _ _ ih | selected _ _ _ _ ih => exact ih
  | _ => simp

end Program

inductive Pattern.Proper : Pattern → Prop
  | literal {v : Scalar} {span : Option Span} : v.number?.isSome → Proper (.literal v span)
  | wildcard {span : Option Span} : Proper (.wildcard span)

/-- A tree of expressions, in which literals are integers and the operators are those of the language. -/
inductive Expr.Proper : Expr → Prop
  | int {v : Scalar} {span : Option Span} : v.number?.isSome → Proper (.int v span)
  | var {x : Name} {span : Option Span} : Proper (.var x span)
  | binary {operator : String} {l r : Expr} {span : Option Span} : operator ∈ ["+", "-", "*"] →
    Proper l → Proper r → Proper (.binary operator l r span)
  | call {f : Name} {b : Expr} {span : Option Span} : Proper b → Proper (.call f b span)
  | case {s : Expr} {cs : List (Clause Expr)} {span : Option Span} : Proper s →
    (∀ c ∈ cs, c.pattern.Proper) → (∀ c ∈ cs, Proper c.body) → Proper (.case s cs span)

def Program.Proper (p : Program) : Prop := ∀ f ∈ p.definitions, f.body.Proper

end Casewise
