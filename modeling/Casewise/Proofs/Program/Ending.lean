import Casewise.Proofs.Token.Stream

/-! The end of a token list is its first end token, or else the end of the list. A list that lacks an end
token is read as if it had one, and what follows an end token is not read. The end shows in nothing that is
read; only an error that finds the end has its place. -/
namespace Casewise

namespace Token.Stream

variable {ts : List Token} {last : Token}

theorem ofListAfter_append_cons (hts : ∀ t ∈ ts, t.kind ≠ .eof) (hlast : last.kind = .eof)
    (previous : Option Token) (rest : List Token) :
    ofListAfter previous (ts ++ last :: rest) = closed ts last := by
  induction ts generalizing previous with
  | nil => exact if_pos hlast
  | cons t ts ih =>
    have hrest := ih (fun u hu => hts u (List.mem_cons_of_mem t hu)) (some t)
    rw [List.cons_append, ofListAfter, if_neg (hts t List.mem_cons_self), hrest]
    rfl

theorem ofListAfter_of_no_end (hts : ∀ t ∈ ts, t.kind ≠ .eof) (previous : Option Token) :
    ofListAfter previous ts = closed ts (missingEnd (ts.getLast? <|> previous)) := by
  induction ts generalizing previous with
  | nil => rfl
  | cons t ts ih =>
    have hrest := ih (fun u hu => hts u (List.mem_cons_of_mem t hu)) (some t)
    have hend : (ts.getLast? <|> some t) = ((t :: ts).getLast? <|> previous) := by
      rw [List.getLast?_cons]
      cases ts.getLast? <;> rfl
    rw [ofListAfter, if_neg (hts t List.mem_cons_self), hrest, hend]
    rfl

end Token.Stream

/-- Both are the same, or an error that finds the end of the input, and finds it at the one place and at the
other. The definitions that were complete are the same. -/
inductive EndsAlike (s s' : Span) {α : Type} : Except Refusal α → Except Refusal α → Prop
  | same (result : Except Refusal α) : EndsAlike s s' result result
  | unexpected (expected : String) (defined : List Definition) : EndsAlike s s'
    (.error ⟨.of (.unexpectedToken expected "end of input") (some s), defined⟩)
    (.error ⟨.of (.unexpectedToken expected "end of input") (some s'), defined⟩)

theorem EndsAlike.map {α β : Type} {s s' : Span} {x y : Except Refusal α} (h : EndsAlike s s' x y)
    (f : α → β) : EndsAlike s s' (x.map f) (y.map f) := by
  cases h with
  | same => exact .same _
  | unexpected expected defined => exact .unexpected expected defined

namespace Reader

section

variable {t u : Token} (ht : t.kind = .eof) (hu : u.kind = .eof) {α : Type} {a a' b b' : Except Refusal α}

include ht hu

/-- An end token is no other token. -/
theorem ite_kind_ends {kind : Token.Kind} (hk : kind ≠ .eof) (h : EndsAlike t.span u.span b b') :
    EndsAlike t.span u.span (if t.kind = kind then a else b) (if u.kind = kind then a' else b') := by
  have hne {t : Token} (ht : t.kind = .eof) : t.kind ≠ kind := fun h => hk (h.symm.trans ht)
  rwa [if_neg (hne ht), if_neg (hne hu)]

theorem ite_is_ends {kind : Token.Kind} (text : String) (hk : kind ≠ .eof) (h : EndsAlike t.span u.span b b') :
    EndsAlike t.span u.span (if t.is kind text then a else b) (if u.is kind text then a' else b') := by
  have hne {t : Token} (ht : t.kind = .eof) : ¬ t.is kind text :=
    fun h => hk ((Token.is_iff.mp h).1.symm.trans ht)
  rwa [if_neg (hne ht), if_neg (hne hu)]

theorem error_ends (expected : String) (defined : List Definition) : EndsAlike t.span u.span
    (.error ⟨.of (.unexpectedToken expected t.describe) (some t.span), defined⟩ : Except Refusal α)
    (.error ⟨.of (.unexpectedToken expected u.describe) (some u.span), defined⟩) := by
  have hdescribe {t : Token} (ht : t.kind = .eof) : t.describe = "end of input" := by
    rw [Token.describe, ht]
  rw [hdescribe ht, hdescribe hu]
  exact .unexpected expected defined

theorem item_ends (defined : List Definition) :
    EndsAlike t.span u.span (item defined t) (item defined u) := by
  unfold item
  rw [if_pos ht, if_pos hu]
  exact .same _

theorem define_ends (defined : List Definition) (f : Definition) :
    EndsAlike t.span u.span (define defined f t) (define defined f u) := by
  unfold define
  split
  · exact .same _
  · exact item_ends ht hu _

theorem close_ends (defined : List Definition) (k : Context) (e : Expr) :
    EndsAlike t.span u.span (close defined k e t) (close defined k e u) := by
  -- the end closes what is around the expression as well, up to where something else is missing
  induction k generalizing e with
  | body start name param => exact define_ends ht hu defined _
  | sum l operator outer ih | product l operator outer ih => exact ih _
  | group outer _ | argument f start outer _ | scrutinee start outer _ =>
    exact ite_is_ends ht hu _ (by decide) (error_ends ht hu _ defined)
  | branch start s cs p outer ih => exact ite_is_ends ht hu _ (by decide) (ih _)

theorem settle_ends (defined : List Definition) (k : Context) (e : Expr) :
    EndsAlike t.span u.span (settle defined k e t) (settle defined k e u) := by
  unfold settle
  refine ite_is_ends ht hu _ (by decide) ?_
  refine ite_is_ends ht hu _ (by decide) ?_
  exact ite_is_ends ht hu _ (by decide) (close_ends ht hu defined _ _)

theorem operand_ends (defined : List Definition) (k : Context) :
    EndsAlike t.span u.span (operand defined k t) (operand defined k u) := by
  unfold operand
  refine ite_kind_ends ht hu (by decide) ?_
  refine ite_kind_ends ht hu (by decide) ?_
  exact ite_is_ends ht hu _ (by decide) (error_ends ht hu _ defined)

theorem head_ends (defined : List Definition) (k : Context) (name : Name) (span : Span) :
    EndsAlike t.span u.span (head defined k name span t) (head defined k name span u) := by
  unfold head
  refine ite_kind_ends ht hu (by decide) ?_
  refine ite_kind_ends ht hu (by decide) ?_
  exact ite_is_ends ht hu _ (by decide) (settle_ends ht hu defined k _)

theorem pattern_ends (defined : List Definition) (start : Span) (s : Expr) (cs : List (Clause Expr))
    (k : Context) :
    EndsAlike t.span u.span (pattern defined start s cs k t) (pattern defined start s cs k u) := by
  unfold pattern
  refine ite_kind_ends ht hu (by decide) ?_
  exact ite_is_ends ht hu _ (by decide) (error_ends ht hu _ defined)

/-- No reader tells one end token from another. -/
theorem step_ends (r : Reader) : EndsAlike t.span u.span (r.step t) (r.step u) := by
  obtain ⟨defined, phase⟩ := r
  cases phase with
  | item => exact item_ends ht hu defined
  | name start | param start name =>
    exact ite_kind_ends ht hu (by decide) (error_ends ht hu _ defined)
  | equals start name param | arrow start s cs p k =>
    exact ite_is_ends ht hu _ (by decide) (error_ends ht hu _ defined)
  | expression k => exact ite_is_ends ht hu _ (by decide) (operand_ends ht hu defined k)
  | operand k => exact operand_ends ht hu defined k
  | head k name span => exact head_ends ht hu defined k name span
  | after k e => exact settle_ends ht hu defined k e
  | first start s inWord k =>
    have hends {t : Token} (ht : t.kind = .eof) : endsExpression t := by simp [endsExpression, ht]
    simp only [step, if_pos (hends ht), if_pos (hends hu)]
    exact .same _
  | pattern start s cs k => exact pattern_ends ht hu defined start s cs k
  | done => exact .same _

theorem take_ends (r : Reader) (ts : List Token) :
    EndsAlike t.span u.span (r.take (ts ++ [t])) (r.take (ts ++ [u])) := by
  induction ts generalizing r with
  | nil =>
    have hone (t : Token) : r.take [t] = r.step t := by
      cases hr : r.step t with
      | ok s => rw [take_one hr]
      | error x => rw [take_cons_error hr]
    rw [List.nil_append, List.nil_append, hone, hone]
    exact step_ends ht hu r
  | cons v ts ih =>
    rw [List.cons_append, List.cons_append]
    cases hr : r.step v with
    | ok s =>
      rw [take_cons hr, take_cons hr]
      exact ih s
    | error x =>
      rw [take_cons_error hr, take_cons_error hr]
      exact .same _

end

end Reader

namespace Program

open Token.Stream

def logOf : Except Refusal Program → List String
  | .ok p => p.readingLog
  | .error x => x.log

variable {ts : List Token} {last : Token}

/-- The end of a list is its first end token, or the end of the list; there it is read alike, but for the place of
an error that finds the end. -/
theorem ofTokens_ends (hts : ∀ t ∈ ts, t.kind ≠ .eof) (hlast : last.kind = .eof) (rest : List Token) :
    ofTokens (.ofList (ts ++ last :: rest)) = ofTokens (.ofList (ts ++ [last])) ∧
    EndsAlike (missingEnd ts.getLast?).span last.span (ofTokens (.ofList ts))
      (ofTokens (.ofList (ts ++ [last]))) ∧
    logOf (ofTokens (.ofList ts)) = logOf (ofTokens (.ofList (ts ++ [last]))) := by
  have hbehind (rest : List Token) : Token.Stream.ofList (ts ++ last :: rest) = closed ts last :=
    ofListAfter_append_cons hts hlast none rest
  have hmissing : Token.Stream.ofList ts = closed ts (missingEnd ts.getLast?) := by
    rw [Token.Stream.ofList, ofListAfter_of_no_end hts]
    cases ts.getLast? <;> rfl
  have halike : EndsAlike (missingEnd ts.getLast?).span last.span (ofTokens (.ofList ts))
      (ofTokens (.ofList (ts ++ [last]))) := by
    rw [hbehind, hmissing, ofTokens_closed, ofTokens_closed]
    exact (Reader.take_ends rfl hlast Reader.start ts).map _
  refine ⟨by rw [hbehind, hbehind], halike, ?_⟩
  generalize ofTokens (.ofList ts) = result, ofTokens (.ofList (ts ++ [last])) = result' at halike
  cases halike <;> rfl

/-- `fun 7 x = (`, with a number for a name, is refused where its end is found: behind the parenthesis if the
list just ends, at the end token if there is one, whatever that carries. -/
theorem ofTokens_ends_open :
    let span (n : Int) : Span := ⟨"f", n, n + 1, 1, n + 1⟩
    let ts : List Token := [⟨.keyword, .text "fun", span 0⟩, ⟨.identifier, .int 7, span 4⟩,
      ⟨.identifier, .text "x", span 6⟩, ⟨.punctuation, .text "=", span 8⟩, ⟨.punctuation, .text "(", span 10⟩]
    let last : Token := ⟨.eof, .text ")", span 40⟩
    let rest : List Token := [⟨.integer, .int 1, span 50⟩, last]
    let refused (place : Span) : Except Refusal Program :=
      .error ⟨.of (.unexpectedToken "expression" "end of input") (some place), []⟩
    (∀ t ∈ ts, t.kind ≠ .eof) ∧ last.kind = .eof ∧
      ofTokens (.ofList ts) = refused ⟨"f", 11, 11, 1, 11⟩ ∧
      ofTokens (.ofList (ts ++ [last])) = refused (span 40) ∧
      ofTokens (.ofList (ts ++ last :: rest)) = refused (span 40) ∧
      EndsAlike ⟨"f", 11, 11, 1, 11⟩ (span 40) (ofTokens (.ofList ts)) (ofTokens (.ofList (ts ++ [last]))) := by
  intro span ts last rest refused
  have hts : ∀ t ∈ ts, t.kind ≠ .eof := by simp [ts]
  have hend : last.kind = .eof := rfl
  obtain ⟨hrest, halike, _⟩ := ofTokens_ends hts hend rest
  have hlast : ofTokens (.ofList (ts ++ [last])) = refused (span 40) := by rfl
  exact ⟨hts, hend, rfl, hlast, hrest.trans hlast, halike⟩

end Program

end Casewise
