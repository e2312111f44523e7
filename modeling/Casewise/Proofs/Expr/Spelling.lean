import Casewise.Proofs.Expr.Parts
import Casewise.Proofs.Expr.Shown

/-! The words that an expression is printed with. There are as many as it has, and in front of the first one, if
not of the others, stand just the parentheses that it needs: where a case is a scrutinee or a body it is given a
pair that the grammar would not ask for. -/
namespace Casewise

open Token

/-- There are as many numbers, and the first of them is the same. -/
def SameFirst (ns ms : List Nat) : Prop := ms.length = ns.length ∧ ms.head? = ns.head?

namespace SameFirst

variable {ns ms ns' ms' : List Nat} {n : Nat} {demanded own : Int}

theorem append (h : SameFirst ns ms) (hne : ns ≠ []) (hlength : ms'.length = ns'.length) :
    SameFirst (ns ++ ns') (ms ++ ms') := by
  obtain ⟨hms, hhead⟩ := h
  refine ⟨by rw [List.length_append, List.length_append, hms, hlength], ?_⟩
  obtain ⟨n, ns, rfl⟩ := List.exists_cons_of_ne_nil hne
  cases ms with
  | nil => cases hhead
  | cons m ms => exact hhead

theorem enclosed (h : SameFirst ns ms) :
    SameFirst (Expr.enclosed demanded own ns) (Expr.enclosed demanded own ms) := by
  refine ⟨by simpa using h.1, ?_⟩
  unfold Expr.enclosed
  split
  next => rw [List.head?_modifyHead, List.head?_modifyHead, h.2]
  next => exact h.2

end SameFirst

theorem Opening.enclose {text : String} {R : List Nat → Prop} {demanded own : Int} (h : Opening text R)
    (hne : ∀ ns, R ns → ns ≠ []) : Opening (Expr.enclose demanded own text) fun ns =>
      ∃ ms, ns = Expr.enclosed demanded own ms ∧ R ms := by
  unfold Expr.enclose Expr.enclosed
  split
  next => exact h.group hne
  next => exact h.mono fun ns hns => ⟨ns, rfl, hns⟩

namespace Expr

variable {b c e : Expr} {cs ds : List (Clause Expr)} {p : Pattern} {place demanded : Int} {f : Name}
  {operator text pattern before behind left right : String} {earlier later texts : List String}
  {R S : List Nat → Prop}

theorem opening_identifier {v : Scalar} (hv : v.IsIdentifier) : Opening v.plain (· = [0]) := by
  obtain ⟨l, hl, hk, _, htext⟩ := hv.exists_lexeme
  exact .word (Lexeme.isWord_of_kind hl (Or.inl hk)) (hl.head_ne_star (by simp [hk])) htext

/-- A number that is too long for a source text is not read at all. -/
theorem opening_number (n : Nat) : Opening (Scalar.int n).plain (· = [0]) := by
  by_cases hlong : maxDigits < (Nat.toDigits 10 n).length
  · have hdigits : ∀ c ∈ Nat.toDigits 10 n, c.isDigit := fun c hc =>
      Nat.isDigit_of_mem_toDigits (by decide) (by decide) hc
    have htext : (Scalar.int n).plain.toList = Nat.toDigits 10 n := Nat.toList_repr
    refine ⟨?_, ?_⟩
    · rw [htext]
      intro hstar
      exact absurd (hdigits '*' (List.mem_of_head? hstar)) (by decide)
    · rw [htext]
      exact .of_long hdigits hlong
  · have hv : (Scalar.int n).IsNumeral := ⟨n, rfl, Nat.not_lt.mp hlong⟩
    obtain ⟨l, hl, hk, _, htext⟩ := hv.exists_lexeme
    exact .word (Lexeme.isWord_of_kind hl (Or.inr hk)) (hl.head_ne_star (by simp [hk])) htext

theorem isWord_operator (hop : operator ∈ ["+", "-", "*"]) :
    ∃ c, operator = String.ofList [c] ∧ Lexeme.IsWord ⟨.operator, [c]⟩ := by
  have hops : operator = "+" ∨ operator = "-" ∨ operator = "*" := by simpa using hop
  rcases hops with rfl | rfl | rfl
  · exact ⟨'+', rfl, Lexeme.isWord_of_not_mem (.operator (by decide)) (by decide) (by decide)⟩
  · exact ⟨'-', rfl, Lexeme.isWord_of_not_mem (.operator (by decide)) (by decide) (by decide)⟩
  · exact ⟨'*', rfl, Lexeme.isWord_of_not_mem (.operator (by decide)) (by decide) (by decide)⟩

theorem opening_binary (hop : operator ∈ ["+", "-", "*"]) (h : Opening left R) (h' : Opening right S) :
    Opening (left ++ " " ++ operator ++ " " ++ right) fun ns => ∃ ls rs, ns = ls ++ 0 :: rs ∧ R ls ∧ S rs := by
  obtain ⟨c, rfl, hl⟩ := isWord_operator hop
  have hsign := Opening.infixed (" " ++ String.ofList [c] ++ " ") hl (by simp) h h'
  simpa only [String.append_assoc] using hsign

theorem opening_call (hf : f.IsIdentifier) (h : Opening right R) :
    Opening (f.plain ++ " " ++ right) fun ns => ∃ ms, ns = 0 :: ms ∧ R ms := by
  obtain ⟨l, hl, hk, _, htext⟩ := hf.exists_lexeme
  exact .prefixed _ (Lexeme.isWord_of_kind hl (Or.inl hk)) (hl.head_ne_star (by simp [hk])) (by simp [htext]) h

theorem opening_case (h : Opening left R) (h' : Opening right S) :
    Opening ("case " ++ left ++ " in " ++ right) fun ns =>
      ∃ ls rs, ns = 0 :: (ls ++ 0 :: rs) ∧ R ls ∧ S rs := by
  have hcase : Lexeme.IsWord ⟨.keyword, ['c', 'a', 's', 'e']⟩ :=
    Lexeme.isWord_of_not_mem (Lexeme.formed_word (c := 'c') (s := ['a', 's', 'e']) (by decide) (by decide))
      (by decide) (by decide)
  have hin : Lexeme.IsWord ⟨.keyword, ['i', 'n']⟩ :=
    Lexeme.isWord_of_not_mem (Lexeme.formed_word (c := 'i') (s := ['n']) (by decide) (by decide))
      (by decide) (by decide)
  have hrest := Opening.infixed " in " hin (by simp) h h'
  have hwhole := Opening.prefixed "case " hcase (by decide) (by simp) hrest
  simp only [← String.append_assoc] at hwhole
  refine hwhole.mono ?_
  rintro ns ⟨ms, rfl, ls, rs, rfl, hR, hS⟩
  exact ⟨ls, rs, rfl, hR, hS⟩

theorem opening_pattern (hp : p.Writable) (hpattern : p.format = .ok pattern) :
    Opening pattern (· = [0]) := by
  cases hp with
  | literal =>
    cases hpattern
    exact opening_number _
  | wildcard =>
    cases hpattern
    have hl : Lexeme.IsWord ⟨.punctuation, ['_']⟩ :=
      Lexeme.isWord_of_not_mem (.punctuation (by decide)) (by decide) (by decide)
    exact .word hl (by decide) (by simp)

theorem opening_clause (hp : p.Writable) (hpattern : p.format = .ok pattern) (h : Opening text R) :
    Opening (pattern ++ " => " ++ text) fun ns => ∃ ms, ns = 0 :: 0 :: ms ∧ R ms := by
  have harrow : Lexeme.IsWord ⟨.punctuation, ['=', '>']⟩ :=
    Lexeme.isWord_of_not_mem .arrow (by decide) (by decide)
  refine (Opening.infixed " => " harrow (by simp) (opening_pattern hp hpattern) h).mono ?_
  rintro ns ⟨ls, ms, rfl, rfl, hR⟩
  exact ⟨ms, rfl, hR⟩

theorem opening_bar (h : Opening left R) (h' : Opening right S) :
    Opening (left ++ " | " ++ right) fun ns => ∃ ls rs, ns = ls ++ 0 :: rs ∧ R ls ∧ S rs := by
  have hbar : Lexeme.IsWord ⟨.punctuation, ['|']⟩ :=
    Lexeme.isWord_of_not_mem (.punctuation (by decide)) (by decide) (by decide)
  exact Opening.infixed " | " hbar (by simp) h h'

/-- The text has the words of a clause: a pattern, an arrow and those of the body. -/
def SpellsClause (c : Clause Expr) (text : String) : Prop :=
  Opening text fun ns => ns.length = c.body.openings.length + 2

theorem spellsClause {d : Clause Expr} (hp : d.pattern.Writable) (hpattern : d.pattern.format = .ok pattern)
    (h : Opening text fun ns => ns.length = d.body.openings.length) :
    SpellsClause d (pattern ++ " => " ++ text) := by
  refine (opening_clause hp hpattern h).mono ?_
  rintro ns ⟨ms, rfl, hms⟩
  simpa using hms

/-- The texts of clauses around that of another one. In front of them all stands a word. -/
theorem opening_clauses (hcs : List.Forall₂ SpellsClause cs earlier) (hds : List.Forall₂ SpellsClause ds later)
    (h : Opening text R) : Opening (" | ".intercalate (earlier ++ text :: later)) fun ns =>
      ∃ ls ms rs, 0 :: ns = ls ++ 0 :: (ms ++ rs) ∧ ls.length = (clauseOpenings cs).length ∧ R ms ∧
        rs.length = (clauseOpenings ds).length := by
  induction hcs with
  | nil =>
    rw [List.nil_append]
    induction hds generalizing text R with
    | nil =>
      rw [String.intercalate_singleton]
      exact h.mono fun ns hns => ⟨[], ns, [], by simp, rfl, hns, rfl⟩
    | cons hd _ ih =>
      rw [String.intercalate_cons_of_ne_nil (by simp)]
      refine (opening_bar h (ih hd)).mono ?_
      rintro ns ⟨ms, rest, rfl, hms, ls, body, rs, hrest, hls, hbody, hrs⟩
      obtain rfl := List.length_eq_zero_iff.mp hls
      obtain rfl : rest = body ++ rs := by simpa using hrest
      refine ⟨[], ms, 0 :: (body ++ rs), rfl, rfl, hms, ?_⟩
      rw [clauseOpenings_cons]
      simp only [List.length_cons, List.length_append, hbody, hrs]
      omega
  | cons hc _ ih =>
    rw [List.cons_append, String.intercalate_cons_of_ne_nil (by simp)]
    refine (opening_bar hc ih).mono ?_
    rintro ns ⟨first, rest, rfl, hfirst, ls, ms, rs, hrest, hls, hms, hrs⟩
    refine ⟨0 :: (first ++ ls), ms, rs, ?_, ?_, hms, hrs⟩
    · rw [hrest]
      simp
    · rw [clauseOpenings_cons]
      simp only [List.length_cons, List.length_append, hfirst, hls]
      omega

/-- Clauses whose parts are printed are printed, each as the text that it has alone. -/
theorem exists_formatClauses {Q : Clause Expr → String → Prop}
    (h : ∀ c ∈ cs, ∃ pattern text, c.pattern.format = .ok pattern ∧ c.body.format 1 = .ok text ∧
      Q c (pattern ++ " => " ++ text)) : ∃ texts, formatClauses cs = .ok texts ∧ List.Forall₂ Q cs texts := by
  induction cs with
  | nil => exact ⟨[], rfl, .nil⟩
  | cons c cs ih =>
    obtain ⟨pattern, text, hpattern, htext, hQ⟩ := h c List.mem_cons_self
    obtain ⟨texts, htexts, hall⟩ := ih fun d hd => h d (List.mem_cons_of_mem c hd)
    exact ⟨_, formatClauses_cons hpattern htext htexts, .cons hQ hall⟩

theorem opening_all_clauses (h : List.Forall₂ SpellsClause cs texts) (hne : cs ≠ []) :
    Opening (" | ".intercalate texts) fun ns => (0 :: ns).length = (clauseOpenings cs).length := by
  cases h with
  | nil => exact absurd rfl hne
  | cons hfirst hrest =>
    refine (opening_clauses .nil hrest hfirst).mono ?_
    rintro ns ⟨front, body, rest, hns, hfront, hbody, hlater⟩
    obtain rfl := List.length_eq_zero_iff.mp hfront
    rw [hns, clauseOpenings_cons]
    simp only [List.length_cons, List.length_append, List.nil_append, hbody, hlater]
    omega

theorem opening_enclose (h : Opening text (SameFirst e.openings)) (demanded : Int) :
    Opening (enclose demanded e.strength text) (SameFirst (e.openingsAt demanded)) := by
  have hne (ns : List Nat) (hns : SameFirst e.openings ns) : ns ≠ [] := by
    rw [← List.length_pos_iff, hns.1]
    exact List.length_pos_iff.mpr e.openings_ne_nil
  refine (h.enclose hne).mono ?_
  rintro ns ⟨ms, rfl, hms⟩
  exact hms.enclosed

/-- An expression is printed with the words that it has, and in front of the first one with the parentheses that
it needs. -/
theorem Writable.exists_opening (he : e.Writable) :
    ∃ text, (∀ demanded ≤ 4, e.format demanded = .ok (enclose demanded e.strength text)) ∧
      Opening text (SameFirst e.openings) := by
  induction he with
  | @int n span =>
    refine ⟨_, fun demanded hd => ?_, (opening_number n).mono ?_⟩
    · rw [format]
      exact congrArg Except.ok (enclose_of_le hd _).symm
    · rintro ns rfl
      simp [SameFirst, openings]
  | @var x span hx =>
    refine ⟨_, fun demanded hd => ?_, (opening_identifier hx).mono ?_⟩
    · rw [format]
      exact congrArg Except.ok (enclose_of_le hd _).symm
    · rintro ns rfl
      simp [SameFirst, openings]
  | @binary operator l r span hop _ _ ihl ihr =>
    obtain ⟨left, hleft, hl⟩ := ihl
    obtain ⟨right, hright, hr⟩ := ihr
    obtain ⟨own, hown⟩ := exists_precedence hop
    obtain ⟨_, hle⟩ := precedence?_bounds hown
    refine ⟨_, fun demanded _ => ?_, (opening_binary hop (opening_enclose hl own)
      (opening_enclose hr (own + 1))).mono ?_⟩
    · rw [strength_binary hown]
      exact format_binary hown (hleft own (by omega)) (hright (own + 1) (by omega))
    · rintro ns ⟨ls, rs, rfl, hls, hrs⟩
      rw [openings_binary hown]
      exact hls.append l.openingsAt_ne_nil (by simp [hrs.1])
  | @call f a span hf _ ih =>
    obtain ⟨text, htext, ha⟩ := ih
    refine ⟨_, fun demanded _ => format_call (htext _ (by decide)) demanded,
      (opening_call hf (opening_enclose ha (applicationPrecedence + 1))).mono ?_⟩
    rintro ns ⟨ms, rfl, hms⟩
    rw [openings_call]
    exact ⟨congrArg Nat.succ hms.1, rfl⟩
  | @case s cs span _ hne hpatterns _ ihs ihbodies =>
    obtain ⟨left, hleft, hs⟩ := ihs
    obtain ⟨texts, htexts, hall⟩ := exists_formatClauses (Q := SpellsClause) fun c hc => by
      obtain ⟨pattern, hpattern⟩ := (hpatterns c hc).exists_format
      obtain ⟨text, htext, hbody⟩ := ihbodies c hc
      have hlength := (opening_enclose hbody 1).mono fun ns hns => hns.1.trans c.body.length_openingsAt
      exact ⟨pattern, _, hpattern, htext 1 (by decide), spellsClause (hpatterns c hc) hpattern hlength⟩
    refine ⟨_, fun demanded _ => format_case (hleft 1 (by decide)) htexts demanded,
      (opening_case (opening_enclose hs 1) (opening_all_clauses hall hne)).mono ?_⟩
    rintro ns ⟨ls, rs, rfl, hls, hrs⟩
    rw [openings_case]
    refine ⟨?_, rfl⟩
    rw [List.length_cons, List.length_cons, List.length_append, List.length_append, hls.1, hrs, length_openingsAt]

theorem Writable.exists_format (he : e.Writable) (hd : demanded ≤ 4) :
    ∃ text, e.format demanded = .ok text ∧ Opening text fun ns => ns.length = e.openings.length := by
  obtain ⟨text, htext, hopening⟩ := he.exists_opening
  refine ⟨_, htext demanded hd, (opening_enclose hopening demanded).mono fun ns hns => ?_⟩
  exact hns.1.trans e.length_openingsAt

theorem Writable.opening (he : e.Writable) (hd : demanded ≤ 4) (h : e.format demanded = .ok text) :
    Opening text fun ns => ns.length = e.openings.length := by
  obtain ⟨text', htext', hopening⟩ := he.exists_format hd
  rwa [Except.ok.inj (h.symm.trans htext')]

theorem exists_clause_texts (hp : ∀ c ∈ cs, c.pattern.Writable) (hb : ∀ c ∈ cs, c.body.Writable) :
    ∃ texts, formatClauses cs = .ok texts ∧ List.Forall₂ SpellsClause cs texts := by
  refine exists_formatClauses fun c hc => ?_
  obtain ⟨pattern, hpattern⟩ := (hp c hc).exists_format
  obtain ⟨text, htext, hbody⟩ := (hb c hc).exists_format (by decide : (1 : Int) ≤ 4)
  exact ⟨pattern, text, hpattern, htext, spellsClause (hp c hc) hpattern hbody⟩

theorem spellsClauses (hp : ∀ c ∈ cs, c.pattern.Writable) (hb : ∀ c ∈ cs, c.body.Writable)
    (h : formatClauses cs = .ok texts) : List.Forall₂ SpellsClause cs texts := by
  obtain ⟨texts', htexts', hall⟩ := exists_clause_texts hp hb
  rwa [Except.ok.inj (h.symm.trans htexts')]

theorem ShownIn.exists_inside (hc : StandsIn c place e before behind)
    (h : ∃ place' left right, b.ShownIn place' c place left right) (demanded : Int) :
    ∃ place' left right, b.ShownIn place' e demanded left right := by
  obtain ⟨place', left, right, h⟩ := h
  exact ⟨place', _, _, .inside hc h⟩

/-- Every part of an expression is printed somewhere in its text. -/
theorem Writable.exists_shownIn (he : e.Writable) (hb : b ∈ e.parts) (demanded : Int) :
    ∃ place left right, b.ShownIn place e demanded left right := by
  induction he generalizing demanded with
  | int | var _ =>
    obtain rfl := List.mem_singleton.mp hb
    exact ⟨demanded, _, _, .here⟩
  | binary hop hl hr ihl ihr =>
    obtain ⟨own, hown⟩ := exists_precedence hop
    obtain ⟨_, hle⟩ := precedence?_bounds hown
    rw [parts, List.mem_cons, List.mem_append] at hb
    rcases hb with rfl | hb | hb
    · exact ⟨demanded, _, _, .here⟩
    · obtain ⟨right, hright, _⟩ := hr.exists_format (by omega : own + 1 ≤ 4)
      exact ShownIn.exists_inside (.left hown hright) (ihl hb own) demanded
    · obtain ⟨left, hleft, _⟩ := hl.exists_format (by omega : own ≤ 4)
      exact ShownIn.exists_inside (.right hown hleft) (ihr hb (own + 1)) demanded
  | call _ _ ih =>
    rw [parts, List.mem_cons] at hb
    rcases hb with rfl | hb
    · exact ⟨demanded, _, _, .here⟩
    · exact ShownIn.exists_inside .argument (ih hb _) demanded
  | case hs _ hpatterns hbodies ihs ihbodies =>
    rw [parts, List.mem_cons, List.mem_append] at hb
    rcases hb with rfl | hb | hb
    · exact ⟨demanded, _, _, .here⟩
    · obtain ⟨texts, htexts, _⟩ := exists_clause_texts hpatterns hbodies
      exact ShownIn.exists_inside (.scrutinee htexts) (ihs hb 1) demanded
    · obtain ⟨text, htext, _⟩ := hs.exists_format (by decide : (1 : Int) ≤ 4)
      obtain ⟨c, hc, hb⟩ := exists_of_mem_bodiesParts hb
      have hshown := ihbodies c hc hb 1
      obtain ⟨pattern, hpattern⟩ := (hpatterns c hc).exists_format
      obtain ⟨cs, ds, rfl⟩ := List.append_of_mem hc
      have hcs : cs ⊆ cs ++ c :: ds := List.subset_append_left _ _
      have hds : ds ⊆ cs ++ c :: ds := fun d hd => by simp [hd]
      obtain ⟨earlier, hearlier, _⟩ := exists_clause_texts (fun d hd => hpatterns d (hcs hd))
        fun d hd => hbodies d (hcs hd)
      obtain ⟨later, hlater, _⟩ := exists_clause_texts (fun d hd => hpatterns d (hds hd))
        fun d hd => hbodies d (hds hd)
      exact ShownIn.exists_inside (.body htext hearlier hpattern hlater) hshown demanded

end Expr

end Casewise
