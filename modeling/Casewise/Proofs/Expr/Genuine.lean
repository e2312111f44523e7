import Casewise.Expr.Matching
import Casewise.Proofs.Expr.Sameness
import Casewise.Proofs.Program.WellFormed

/-! Genuine trees have expressions where expressions belong, patterns where patterns belong, and names for
names, as well-formed trees do, and all trees that the printer can write. Two of them that are the same have the
same form throughout. -/
namespace Casewise

/-- Something that tells functions and variables apart. A truth value does not, being the same as a number. -/
def Scalar.IsName (v : Scalar) : Prop := ∀ b, v ≠ .truth b

theorem Scalar.IsName.eq_of_same {v w : Scalar} (hv : v.IsName) (hw : w.IsName) (h : v.same w) : v = w := by
  cases v with
  | truth b => exact absurd rfl (hv b)
  | text | absent => exact of_decide_eq_true h
  | int m =>
    cases w with
    | truth b => exact absurd rfl (hw b)
    | text | absent => exact of_decide_eq_true h
    | int n => exact congrArg int (eq_of_beq h)

theorem Scalar.word_eq_of_same {v w : Scalar} (h : v.same w) : v.word = w.word := by
  unfold same at h
  split at h
  next hv hw => rw [word, word, hv, hw, eq_of_beq h]
  next => rw [of_decide_eq_true h]

inductive Pattern.Genuine : Pattern → Prop
  | literal {v : Scalar} {span : Option Span} : Genuine (.literal v span)
  | wildcard {span : Option Span} : Genuine (.wildcard span)

theorem Pattern.Genuine.accepts_eq {q q' : Pattern} (hq : q.Genuine) (hq' : q'.Genuine) (h : q.Same q')
    (n : Int) : q.accepts n = q'.accepts n := by
  cases hq with
  | wildcard =>
    cases hq' with
    | wildcard => rfl
    | literal => cases h
  | literal =>
    cases hq' with
    | wildcard => cases h
    | literal =>
      rw [accepts, accepts, Scalar.word_eq_of_same (same_literal_iff.mp h)]

namespace Expr

inductive Genuine : Expr → Prop
  | int {v : Scalar} {span : Option Span} : Genuine (.int v span)
  | var {x : Name} {span : Option Span} : x.IsName → Genuine (.var x span)
  | binary {operator : String} {l r : Expr} {span : Option Span} : Genuine l → Genuine r →
    Genuine (.binary operator l r span)
  | call {f : Name} {b : Expr} {span : Option Span} : f.IsName → Genuine b → Genuine (.call f b span)
  | case {s : Expr} {cs : List (Clause Expr)} {span : Option Span} : Genuine s →
    (∀ c ∈ cs, c.pattern.Genuine) → (∀ c ∈ cs, Genuine c.body) → Genuine (.case s cs span)

/-- Induction on two genuine expressions that are the same, and so come apart in the same way. -/
theorem Genuine.same_induct {motive : Expr → Expr → Prop}
    (int : ∀ v w s t, v.same w → motive (.int v s) (.int w t))
    (var : ∀ x s t, motive (.var x s) (.var x t))
    (binary : ∀ operator l l' r r' s t, motive l l' → motive r r' →
      motive (.binary operator l r s) (.binary operator l' r' t))
    (call : ∀ f b b' s t, motive b b' → motive (.call f b s) (.call f b' t))
    (case : ∀ e e' cs ds s t, motive e e' →
      List.Forall₂ (fun c d => (∀ n, c.pattern.accepts n = d.pattern.accepts n) ∧ motive c.body d.body) cs ds →
      motive (.case e cs s) (.case e' ds t))
    {e e' : Expr} (he : e.Genuine) (he' : e'.Genuine) (h : e.same e') : motive e e' := by
  -- two labels that differ are not the same
  induction he generalizing e' with
  | int =>
    cases he' with
    | int => exact int _ _ _ _ (same_int_iff.mp h)
    | _ => cases h
  | var hx =>
    cases he' with
    | var hy =>
      rw [hx.eq_of_same hy (same_var_iff.mp h)]
      exact var _ _ _
    | _ => cases h
  | binary _ _ ihl ihr =>
    cases he' with
    | binary hl hr =>
      obtain ⟨rfl, hsamel, hsamer⟩ := same_binary_iff.mp h
      exact binary _ _ _ _ _ _ _ (ihl hl hsamel) (ihr hr hsamer)
    | _ => cases h
  | call hf _ ih =>
    cases he' with
    | call hg hb =>
      obtain ⟨hname, hsame⟩ := same_call_iff.mp h
      rw [hf.eq_of_same hg hname]
      exact call _ _ _ _ _ (ih hb hsame)
    | _ => cases h
  | case _ hpatterns _ ihe ihbodies =>
    cases he' with
    | case he hpatterns' hbodies' =>
      obtain ⟨hsame, hclauses⟩ := same_case_iff.mp h
      obtain ⟨hlength, hzip⟩ := List.forall₂_iff_zip.mp hclauses.forall₂
      refine case _ _ _ _ _ _ (ihe he hsame) (List.forall₂_iff_zip.mpr ⟨hlength, fun {c d} hcd => ?_⟩)
      obtain ⟨hc, hd⟩ := List.of_mem_zip hcd
      obtain ⟨hpattern, hbody⟩ := hzip hcd
      exact ⟨(hpatterns c hc).accepts_eq (hpatterns' d hd) hpattern, ihbodies c hc (hbodies' d hd) hbody⟩
    | _ => cases h

end Expr

theorem Scalar.IsIdentifier.isName {v : Scalar} (h : v.IsIdentifier) : v.IsName := by
  obtain ⟨c, s, rfl, _⟩ := h
  exact nofun

/-- A pattern that the printer can write. -/
inductive Pattern.Writable : Pattern → Prop
  | literal {n : Nat} {span : Option Span} : Writable (.literal (.int n) span)
  | wildcard {span : Option Span} : Writable (.wildcard span)

/-- An expression that the printer can write in the words of the language. Numbers have no sign, but may have more
digits than a source text can hold. -/
inductive Expr.Writable : Expr → Prop
  | int {n : Nat} {span : Option Span} : Writable (.int (.int n) span)
  | var {x : Name} {span : Option Span} : x.IsIdentifier → Writable (.var x span)
  | binary {operator : String} {l r : Expr} {span : Option Span} : operator ∈ ["+", "-", "*"] →
    Writable l → Writable r → Writable (.binary operator l r span)
  | call {f : Name} {a : Expr} {span : Option Span} : f.IsIdentifier → Writable a →
    Writable (.call f a span)
  | case {s : Expr} {cs : List (Clause Expr)} {span : Option Span} : Writable s → cs ≠ [] →
    (∀ c ∈ cs, c.pattern.Writable) → (∀ c ∈ cs, Writable c.body) → Writable (.case s cs span)

theorem Pattern.Writable.genuine {p : Pattern} (h : p.Writable) : p.Genuine := by
  cases h with
  | literal => exact .literal
  | wildcard => exact .wildcard

theorem Expr.Writable.genuine {e : Expr} (h : e.Writable) : e.Genuine := by
  induction h with
  | int => exact .int
  | var hx => exact .var hx.isName
  | binary _ _ _ ihl ihr => exact .binary ihl ihr
  | call hf _ ih => exact .call hf.isName ih
  | case _ _ hpatterns _ ihs ihbodies =>
    exact .case ihs (fun c hc => (hpatterns c hc).genuine) ihbodies

theorem Pattern.WellFormed.writable {p : Pattern} (h : p.WellFormed) : p.Writable := by
  cases h with
  | literal hv =>
    obtain ⟨n, rfl, _⟩ := hv
    exact .literal
  | wildcard => exact .wildcard

theorem Expr.WellFormed.writable {e : Expr} (h : e.WellFormed) : e.Writable := by
  induction h with
  | int hv =>
    obtain ⟨n, rfl, _⟩ := hv
    exact .int
  | var hx => exact .var hx
  | binary hop _ _ ihl ihr => exact .binary hop ihl ihr
  | call hf _ ih => exact .call hf ih
  | case _ hne hpatterns _ ihs ihbodies =>
    exact .case ihs hne (fun c hc => (hpatterns c hc).writable) ihbodies

theorem Expr.WellFormed.genuine {e : Expr} (h : e.WellFormed) : e.Genuine := h.writable.genuine

end Casewise
