import Casewise.Expr.Printer
import Casewise.Proofs.Expr.Sameness
import Casewise.Proofs.Program.WellFormed
import Casewise.Proofs.Token.Writing

/-! Printed expressions read as what they were. The parentheses of the printer are those that the
grammar needs: the text printed for a demanded binding strength is a phrase of that strength. -/
namespace Casewise

open Token

/-- The tokens are a phrase that binds at least as tightly as demanded. -/
inductive Expr.ReadsAt (demanded : Int) (e : Expr) (ts : List Token) : Prop
  | expression {unclosed : Bool} : demanded ≤ 0 → Derives .innermost (.expression e unclosed) ts →
    ReadsAt demanded e ts
  | sum : demanded ≤ 1 → Derives .innermost (.sum e) ts → ReadsAt demanded e ts
  | product : demanded ≤ 2 → Derives .innermost (.product e) ts → ReadsAt demanded e ts
  | application : demanded ≤ 3 → Derives .innermost (.application e) ts → ReadsAt demanded e ts
  | atom : Derives .innermost (.atom e) ts → ReadsAt demanded e ts

namespace Expr.ReadsAt

variable {demanded own : Int} {e : Expr} {ts : List Token}

theorem mono (h : ReadsAt own e ts) (hle : demanded ≤ own) : ReadsAt demanded e ts := by
  cases h with
  | expression h he => exact .expression (Int.le_trans hle h) he
  | sum h he => exact .sum (Int.le_trans hle h) he
  | product h he => exact .product (Int.le_trans hle h) he
  | application h he => exact .application (Int.le_trans hle h) he
  | atom he => exact .atom he

theorem toAtom (h : ReadsAt demanded e ts) (hd : 3 < demanded) : Derives .innermost (.atom e) ts := by
  cases h with
  | atom he => exact he
  | _ => omega

theorem toApplication (h : ReadsAt demanded e ts) (hd : 2 < demanded) :
    Derives .innermost (.application e) ts := by
  cases h with
  | application _ he => exact he
  | atom he => exact .operand he
  | _ => omega

theorem toProduct (h : ReadsAt demanded e ts) (hd : 1 < demanded) :
    Derives .innermost (.product e) ts := by
  cases h with
  | product _ he => exact he
  | application _ he => exact .factor he
  | atom he => exact .factor (.operand he)
  | _ => omega

theorem toSum (h : ReadsAt demanded e ts) (hd : 0 < demanded) : Derives .innermost (.sum e) ts := by
  cases h with
  | sum _ he => exact he
  | product _ he => exact .term he
  | application _ he => exact .term (.factor he)
  | atom he => exact .term (.factor (.operand he))
  | expression _ _ => omega

theorem toExpression (h : ReadsAt demanded e ts) :
    ∃ unclosed, Derives .innermost (.expression e unclosed) ts := by
  cases h with
  | expression _ he => exact ⟨_, he⟩
  | sum _ he => exact ⟨_, .plain he⟩
  | product _ he => exact ⟨_, .plain (.term he)⟩
  | application _ he => exact ⟨_, .plain (.term (.factor he))⟩
  | atom he => exact ⟨_, .plain (.term (.factor (.operand he)))⟩

end Expr.ReadsAt

/-- The text stands for the expression where the binding strength is demanded. It does not begin with
a star, which would make a comment of a parenthesis in front of it. -/
structure Expr.Printed (e : Expr) (demanded : Int) (text : String) : Prop where
  head : text.toList.head? ≠ some '*'
  writes : Writes text.toList fun ts => ∃ e', ReadsAt demanded e' ts ∧ e.same e'

theorem Expr.Printed.enclose {e : Expr} {demanded own : Int} {text : String} (h : e.Printed own text) :
    e.Printed demanded (enclose demanded own text) := by
  unfold Expr.enclose
  split
  next =>
    have htext : ("(" ++ text ++ ")").toList = '(' :: (text.toList ++ [')']) := by simp
    refine ⟨by simp [htext], ?_⟩
    rw [htext]
    refine (h.writes.group h.head).mono ?_
    rintro ts ⟨l, r, us, rfl, hl, hr, e', he, hs⟩
    obtain ⟨unclosed, he⟩ := he.toExpression
    exact ⟨e', .atom (.group hl he hr), hs⟩
  next hle =>
    refine ⟨h.head, h.writes.mono ?_⟩
    rintro ts ⟨e', he, hs⟩
    exact ⟨e', he.mono (Int.not_lt.mp hle), hs⟩

theorem Scalar.IsNumeral.exists_lexeme {v : Scalar} (h : v.IsNumeral) :
    ∃ l : Lexeme, l.Formed ∧ l.kind = .integer ∧ l.value = v ∧ v.plain.toList = l.text := by
  obtain ⟨n, rfl, hlen⟩ := h
  refine ⟨⟨.integer, Nat.toDigits 10 n⟩, .integer Nat.toDigits_ne_nil ?_ hlen, rfl, ?_, ?_⟩
  · exact fun c hc => Nat.isDigit_of_mem_toDigits (by decide) (by decide) hc
  · simp only [Lexeme.value, digitsValue, ← Nat.ofDigitChars_eq_foldl]
    rw [Nat.ofDigitChars_ten_toDigits]
  · change n.repr.toList = _
    exact Nat.toList_repr

theorem Scalar.IsIdentifier.exists_lexeme {v : Scalar} (h : v.IsIdentifier) :
    ∃ l : Lexeme, l.Formed ∧ l.kind = .identifier ∧ l.value = v ∧ v.plain.toList = l.text := by
  obtain ⟨c, s, rfl, hc, hw, hk⟩ := h
  have hl : Lexeme.Formed ⟨.identifier, c :: s⟩ := by
    rw [← Lexeme.word_of_not_mem hk]
    exact .word hc hw
  exact ⟨_, hl, rfl, rfl, String.toList_ofList⟩

namespace Expr

variable {l r s : Expr} {left right text : String} {v : Scalar} {cs : List (Clause Expr)}
  {span : Option Span} {demanded : Int}

theorem printed_int (hv : v.IsNumeral) : (int v span).Printed demanded v.plain := by
  obtain ⟨l, hl, hk, hvalue, htext⟩ := hv.exists_lexeme
  refine ⟨by rw [htext]; exact hl.head_ne_star (by simp [hk]), ?_⟩
  rw [htext]
  refine (Writes.single hl).mono ?_
  rintro ts ⟨place, rfl⟩
  refine ⟨_, .atom (.number hk), ?_⟩
  simp only [Lexeme.token, hvalue]
  exact same_int v _ _

theorem printed_var (hv : v.IsIdentifier) : (var v span).Printed demanded v.plain := by
  obtain ⟨l, hl, hk, hvalue, htext⟩ := hv.exists_lexeme
  refine ⟨by rw [htext]; exact hl.head_ne_star (by simp [hk]), ?_⟩
  rw [htext]
  refine (Writes.single hl).mono ?_
  rintro ts ⟨place, rfl⟩
  refine ⟨_, .atom (.word hk), ?_⟩
  simp only [Lexeme.token, hvalue]
  exact same_var v _ _

theorem printed_call (hv : v.IsIdentifier) (hr : r.Printed 4 right) :
    (call v r span).Printed 3 (v.plain ++ " " ++ right) := by
  obtain ⟨l, hl, hk, hvalue, htext⟩ := hv.exists_lexeme
  have htoList : (v.plain ++ " " ++ right).toList = l.text ++ ' ' :: right.toList := by simp [htext]
  refine ⟨?_, ?_⟩
  · rw [htoList]
    exact head_append_ne (hl.head_ne_star (by simp [hk])) (by simp)
  · rw [htoList]
    refine (Writes.word hl hr.writes).mono ?_
    rintro ts ⟨place, us, rfl, r', hr', hs⟩
    refine ⟨_, .application (by decide) (.call hk (hr'.toAtom (by decide))), ?_⟩
    simp only [Lexeme.token, hvalue]
    exact same_call v _ _ hs

/-- The text of an operator between two operands. -/
theorem writes_operator {c : Char} {R S : List Token → Prop} (hc : isOperatorChar c)
    (hl : Writes left.toList R) (hr : Writes right.toList S) :
    Writes (left ++ " " ++ String.singleton c ++ " " ++ right).toList fun ts =>
      ∃ us o vs, ts = us ++ o :: vs ∧ o.is .operator (String.singleton c) ∧ R us ∧ S vs := by
  have hlexeme : Lexeme.Formed ⟨.operator, [c]⟩ := .operator hc
  have htoList : (left ++ " " ++ String.singleton c ++ " " ++ right).toList =
      left.toList ++ ' ' :: ([c] ++ ' ' :: right.toList) := by simp
  rw [htoList]
  refine (hl.infixed hlexeme hr).mono ?_
  rintro ts ⟨us, place, vs, rfl, hus, hvs⟩
  have hsign : (Lexeme.token ⟨.operator, [c]⟩ place).is .operator (String.ofList [c]) :=
    Lexeme.token_is (by decide) place
  exact ⟨us, _, vs, rfl, by simpa using hsign, hus, hvs⟩

theorem printed_sum {c : Char} (hc : c = '+' ∨ c = '-') (hl : l.Printed 1 left)
    (hr : r.Printed 2 right) : (binary (String.singleton c) l r span).Printed 1
      (left ++ " " ++ String.singleton c ++ " " ++ right) := by
  have hop : isOperatorChar c := by rcases hc with rfl | rfl <;> decide
  refine ⟨?_, (writes_operator hop hl.writes hr.writes).mono ?_⟩
  · simpa only [String.toList_append, List.append_assoc] using head_append_ne hl.head (by simp)
  · rintro ts ⟨us, o, vs, rfl, ho, ⟨l', hl', hsl⟩, r', hr', hsr⟩
    have hsign : String.singleton c = "+" ∨ String.singleton c = "-" := by
      rcases hc with rfl | rfl <;> decide
    exact ⟨_, .sum (by decide) (.sum (hl'.toSum (by decide)) hsign ho (hr'.toProduct (by decide))),
      same_binary _ _ _ hsl hsr⟩

theorem printed_product (hl : l.Printed 2 left) (hr : r.Printed 3 right) :
    (binary "*" l r span).Printed 2 (left ++ " " ++ "*" ++ " " ++ right) := by
  refine ⟨?_, (writes_operator (c := '*') (by decide) hl.writes hr.writes).mono ?_⟩
  · simpa only [String.toList_append, List.append_assoc] using head_append_ne hl.head (by simp)
  · rintro ts ⟨us, o, vs, rfl, ho, ⟨l', hl', hsl⟩, r', hr', hsr⟩
    exact ⟨_, .product (by decide) (.product (hl'.toProduct (by decide)) ho
      (hr'.toApplication (by decide))), same_binary _ _ _ hsl hsr⟩

end Expr

theorem Pattern.WellFormed.printed {p : Pattern} (h : p.WellFormed) :
    ∃ text, p.format = .ok text ∧ Writes text.toList fun ts =>
      ∃ p', Derives .innermost (.pattern p') ts ∧ p.Same p' := by
  cases h with
  | literal hv =>
    obtain ⟨l, hl, hk, hvalue, htext⟩ := hv.exists_lexeme
    refine ⟨_, rfl, ?_⟩
    rw [htext]
    refine (Writes.single hl).mono ?_
    rintro ts ⟨place, rfl⟩
    refine ⟨_, .literal hk, ?_⟩
    simp only [Lexeme.token, hvalue]
    exact same_literal _ _ _
  | wildcard =>
    have hl : Lexeme.Formed ⟨.punctuation, ['_']⟩ := .punctuation (by decide)
    refine ⟨_, rfl, (Writes.single hl).mono ?_⟩
    rintro ts ⟨place, rfl⟩
    exact ⟨_, .wildcard (Lexeme.token_is (by decide) place), same_wildcard _ _⟩

namespace Expr

/-- The text of a clause. Its body is a sum, so no case in it is left open. -/
theorem writes_clause {p : Pattern} {e : Expr} {left right : String}
    (hp : Writes left.toList fun ts => ∃ p', Derives .innermost (.pattern p') ts ∧ p.Same p')
    (he : e.Printed 1 right) : Writes (left ++ " => " ++ right).toList fun ts =>
      ∃ c, Derives .innermost (.clause c false) ts ∧ p.Same c.pattern ∧ e.same c.body := by
  have htoList : (left ++ " => " ++ right).toList =
      left.toList ++ ' ' :: (['=', '>'] ++ ' ' :: right.toList) := by simp
  rw [htoList]
  refine (hp.infixed .arrow he.writes).mono ?_
  rintro ts ⟨us, place, vs, rfl, ⟨p', hp', hsp⟩, e', he', hse⟩
  have harrow : (Lexeme.token ⟨.punctuation, ['=', '>']⟩ place).is .punctuation "=>" :=
    Lexeme.token_is (by decide) place
  exact ⟨_, .clause hp' harrow (.plain (he'.toSum (by decide))), hsp, hse⟩

theorem printed_clauses {cs : List (Clause Expr)} (hne : cs ≠ [])
    (hp : ∀ c ∈ cs, c.pattern.WellFormed)
    (hb : ∀ c ∈ cs, ∃ text, c.body.format 1 = .ok text ∧ c.body.Printed 1 text) :
    ∃ texts, formatClauses cs = .ok texts ∧ texts ≠ [] ∧
      Writes (" | ".intercalate texts).toList fun ts =>
        ∃ ds, Derives .innermost (.clauses ds) ts ∧ SameClauses cs ds := by
  induction cs with
  | nil => exact absurd rfl hne
  | cons c cs ih =>
    obtain ⟨left, hleft, hpattern⟩ := (hp c (by simp)).printed
    obtain ⟨right, hright, hbody⟩ := hb c (by simp)
    have hclause := writes_clause hpattern hbody
    by_cases hcs : cs = []
    · subst hcs
      refine ⟨[left ++ " => " ++ right], ?_, by simp, ?_⟩
      · simp [formatClauses, hleft, hright]
        rfl
      · rw [String.intercalate_singleton]
        refine hclause.mono ?_
        rintro ts ⟨d, hd, hsp, hsb⟩
        exact ⟨[d], .last hd, .cons hsp hsb .nil⟩
    · obtain ⟨texts, htexts, hne', hrest⟩ := ih hcs (fun d hd => hp d (by simp [hd]))
        fun d hd => hb d (by simp [hd])
      have hbar : Lexeme.Formed ⟨.punctuation, ['|']⟩ := .punctuation (by decide)
      refine ⟨(left ++ " => " ++ right) :: texts, ?_, by simp, ?_⟩
      · simp [formatClauses, hleft, hright, htexts]
        rfl
      · have htoList : (" | ".intercalate ((left ++ " => " ++ right) :: texts)).toList =
            (left ++ " => " ++ right).toList ++
              ' ' :: (['|'] ++ ' ' :: (" | ".intercalate texts).toList) := by
          rw [String.intercalate_cons_of_ne_nil hne']
          simp
        rw [htoList]
        refine (hclause.infixed hbar hrest).mono ?_
        rintro ts ⟨us, place, vs, rfl, ⟨d, hd, hsp, hsb⟩, ds, hds, hs⟩
        have his : (Lexeme.token ⟨.punctuation, ['|']⟩ place).is .punctuation "|" :=
          Lexeme.token_is (by decide) place
        exact ⟨d :: ds, .bar hd his hds fun _ => rfl, .cons hsp hsb hs⟩

theorem printed_case {s : Expr} {cs : List (Clause Expr)} {span : Option Span} {left right : String}
    (hs : s.Printed 1 left) (hcs : Writes right.toList fun ts =>
      ∃ ds, Derives .innermost (.clauses ds) ts ∧ SameClauses cs ds) :
    (case s cs span).Printed 0 ("case " ++ left ++ " in " ++ right) := by
  have hcase : Lexeme.Formed ⟨.keyword, ['c', 'a', 's', 'e']⟩ :=
    Lexeme.formed_word (c := 'c') (s := ['a', 's', 'e']) (by decide) (by decide)
  have hin : Lexeme.Formed ⟨.keyword, ['i', 'n']⟩ :=
    Lexeme.formed_word (c := 'i') (s := ['n']) (by decide) (by decide)
  have htoList : ("case " ++ left ++ " in " ++ right).toList = ['c', 'a', 's', 'e'] ++
      ' ' :: (left.toList ++ ' ' :: (['i', 'n'] ++ ' ' :: right.toList)) := by simp
  refine ⟨by simp [htoList], ?_⟩
  rw [htoList]
  refine (Writes.word hcase (hs.writes.infixed hin hcs)).mono ?_
  rintro ts ⟨place, _, rfl, us, place', vs, rfl, ⟨s', hs', hss⟩, ds, hds, hsc⟩
  have hkey : (Lexeme.token ⟨.keyword, ['c', 'a', 's', 'e']⟩ place).is .keyword "case" :=
    Lexeme.token_is (by decide) place
  have hkey' : (Lexeme.token ⟨.keyword, ['i', 'n']⟩ place').is .keyword "in" :=
    Lexeme.token_is (by decide) place'
  exact ⟨_, .expression (by decide) (.case hkey (.plain (hs'.toSum (by decide))) hkey' hds),
    same_case _ _ hss hsc⟩

theorem format_binary {l r : Expr} {operator left right : String} {span : Option Span}
    {demanded own : Int} (hop : precedence? operator = some own) (hl : l.format own = .ok left)
    (hr : r.format (own + 1) = .ok right) : (binary operator l r span).format demanded =
      .ok (enclose demanded own (left ++ " " ++ operator ++ " " ++ right)) := by
  simp only [format, hop, hl, hr]
  rfl

theorem format_call {f : Name} {a : Expr} {text : String} {span : Option Span}
    (ha : a.format (applicationPrecedence + 1) = .ok text) (demanded : Int) :
    (call f a span).format demanded =
      .ok (enclose demanded applicationPrecedence (f.plain ++ " " ++ text)) := by
  simp only [format, ha]
  rfl

theorem format_case {s : Expr} {cs : List (Clause Expr)} {text : String} {texts : List String}
    {span : Option Span} (hs : s.format 1 = .ok text) (hcs : formatClauses cs = .ok texts) (demanded : Int) :
    (case s cs span).format demanded =
      .ok (enclose demanded 0 ("case " ++ text ++ " in " ++ " | ".intercalate texts)) := by
  simp only [format, hs, hcs]
  rfl

/-- Every well-formed expression is printed, wherever it stands. -/
theorem WellFormed.printed {e : Expr} (h : e.WellFormed) (demanded : Int) :
    ∃ text, e.format demanded = .ok text ∧ e.Printed demanded text := by
  induction h generalizing demanded with
  | int hv => exact ⟨_, by rw [format], printed_int hv⟩
  | var hv => exact ⟨_, by rw [format], printed_var hv⟩
  | @binary operator l r span hop _ _ ihl ihr =>
    -- a left operand may be of the operator's own strength, a right one binds more tightly
    have hops : operator = "+" ∨ operator = "-" ∨ operator = "*" := by simpa using hop
    rcases hops with rfl | rfl | rfl
    · obtain ⟨left, hleft, hl⟩ := ihl 1
      obtain ⟨right, hright, hr⟩ := ihr 2
      exact ⟨_, format_binary rfl hleft hright, (printed_sum (c := '+') (Or.inl rfl) hl hr).enclose⟩
    · obtain ⟨left, hleft, hl⟩ := ihl 1
      obtain ⟨right, hright, hr⟩ := ihr 2
      exact ⟨_, format_binary rfl hleft hright, (printed_sum (c := '-') (Or.inr rfl) hl hr).enclose⟩
    · obtain ⟨left, hleft, hl⟩ := ihl 2
      obtain ⟨right, hright, hr⟩ := ihr 3
      exact ⟨_, format_binary rfl hleft hright, (printed_product hl hr).enclose⟩
  | call hv _ ih =>
    obtain ⟨right, hright, hr⟩ := ih 4
    exact ⟨_, format_call hright demanded, (printed_call hv hr).enclose⟩
  | case _ hne hp _ ihs ihc =>
    obtain ⟨left, hleft, hs⟩ := ihs 1
    obtain ⟨texts, htexts, _, hcs⟩ := printed_clauses hne hp fun c hc => ihc c hc 1
    exact ⟨_, format_case hleft htexts demanded, (printed_case hs hcs).enclose⟩

end Expr

end Casewise
