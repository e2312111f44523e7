import Casewise.Proofs.Expr.Spelling
import Casewise.Proofs.Program.RoundTrip

/-!
No operator and no call is put in parentheses without need. A printed text opens in front of its words what
the expression needs there, and only a case that is a scrutinee or a body is given a pair for clarity. So
without the pair around an operator or a call there are too few in front of its first word, and whatever the
text is then read as is another expression.
-/
namespace Casewise

open Token

/-- There are as many numbers, but not each is as large as it needs to be. -/
def TooFew (ns ms : List Nat) : Prop := ms.length = ns.length ∧ ¬ List.Forall₂ (· ≤ ·) ns ms

namespace TooFew

variable {ns ms ns' ms' : List Nat} {n : Nat} {demanded own : Int}

theorem ne_nil (h : TooFew ns ms) : ms ≠ [] := by
  rintro rfl
  obtain ⟨hlength, hshort⟩ := h
  obtain rfl := List.length_eq_zero_iff.mp hlength.symm
  exact hshort .nil

theorem append_left (h : TooFew ns ms) (hlength : ms'.length = ns'.length) : TooFew (ns ++ ns') (ms ++ ms') := by
  refine ⟨by simp [h.1, hlength], fun hall => h.2 ?_⟩
  have htake := List.forall₂_take_append _ _ _ hall
  rwa [h.1, List.take_left] at htake

theorem append_right (hlength : ms'.length = ns'.length) (h : TooFew ns ms) : TooFew (ns' ++ ns) (ms' ++ ms) := by
  refine ⟨by simp [h.1, hlength], fun hall => h.2 ?_⟩
  have hdrop := List.forall₂_drop_append _ _ _ hall
  rwa [hlength, List.drop_left] at hdrop

theorem cons (h : TooFew ns ms) : TooFew (n :: ns) (n :: ms) := by
  have hlength : [n].length = [n].length := rfl
  exact append_right hlength h

theorem enclosed (h : TooFew ns ms) :
    TooFew (Expr.enclosed demanded own ns) (Expr.enclosed demanded own ms) := by
  refine ⟨by simp [h.1], fun hall => h.2 ?_⟩
  unfold Expr.enclosed at hall
  split at hall
  next =>
    cases ns with
    | nil =>
      cases ms with
      | nil => exact .nil
      | cons m ms => cases hall
    | cons n ns =>
      cases ms with
      | nil => cases hall
      | cons m ms =>
        cases hall with
        | cons hle hrest => exact .cons (Nat.le_of_succ_le_succ hle) hrest
  next => exact hall

/-- Where the first number need not be any larger than zero, it is not what falls short. -/
theorem modifyHead (h : TooFew (0 :: ns) ms) : TooFew (0 :: ns) (ms.modifyHead (· + 1)) := by
  refine ⟨by simpa using h.1, fun hall => h.2 ?_⟩
  cases ms with
  | nil => cases hall
  | cons m ms =>
    cases hall with
    | cons _ hrest => exact .cons (Nat.zero_le m) hrest

/-- Without the pair around a text, its first word has too few parentheses in front of it. -/
theorem of_unenclosed (h : SameFirst ns ms) (hne : ns ≠ []) (hlt : own < demanded) :
    TooFew (Expr.enclosed demanded own ns) ms := by
  obtain ⟨hlength, hhead⟩ := h
  rw [Expr.enclosed_of_lt hlt]
  refine ⟨by simpa using hlength, fun hall => ?_⟩
  cases ns with
  | nil => exact hne rfl
  | cons n ns =>
    cases hall with
    | cons hle _ =>
      obtain rfl := Option.some.inj hhead
      exact Nat.not_succ_le_self _ hle

end TooFew

namespace Expr

inductive IsOperation : Expr → Prop
  | binary {operator : String} {l r : Expr} {span : Option Span} : IsOperation (.binary operator l r span)
  | call {f : Name} {a : Expr} {span : Option Span} : IsOperation (.call f a span)

variable {b c e : Expr} {place demanded : Int} {text before behind left right inner : String}

/-- The numbers fall short of what an expression needs where it stands. In a scrutinee or a body, where a pair of
parentheses is for clarity, they fall short of what it needs without one. -/
structure Lacks (e : Expr) (demanded : Int) (ns : List Nat) : Prop where
  short : TooFew (e.openingsAt demanded) ns
  inside : demanded ≤ 1 → TooFew e.openings ns

/-- Where a part lacks parentheses, so does the expression that it stands in. -/
theorem StandsIn.short (h : StandsIn c place e before behind) (he : e.Writable)
    (hc : Opening text (c.Lacks place)) : Opening (before ++ text ++ behind) (TooFew e.openings) := by
  cases h with
  | @left operator right l r span own hown hright =>
    cases he with
    | binary hop hl hr =>
      obtain ⟨_, hle⟩ := precedence?_bounds hown
      have hsibling := hr.opening (by omega) hright
      have hwhole := opening_binary hop hc hsibling
      simp only [String.append_assoc, String.empty_append] at hwhole ⊢
      refine hwhole.mono ?_
      rintro ns ⟨ls, rs, rfl, hls, hrs⟩
      rw [openings_binary hown]
      exact hls.short.append_left (by simp [hrs])
  | @right operator left l r span own hown hleft =>
    cases he with
    | binary hop hl hr =>
      obtain ⟨_, hle⟩ := precedence?_bounds hown
      have hsibling := hl.opening (by omega) hleft
      have hwhole := opening_binary hop hsibling hc
      simp only [String.append_assoc, String.append_empty] at hwhole ⊢
      refine hwhole.mono ?_
      rintro ns ⟨ls, rs, rfl, hls, hrs⟩
      rw [openings_binary hown]
      exact .append_right (by simp [hls]) hrs.short.cons
  | argument =>
    cases he with
    | call hf ha =>
      rw [String.append_empty]
      refine (opening_call hf hc).mono ?_
      rintro ns ⟨ms, rfl, hms⟩
      rw [openings_call]
      exact hms.short.cons
  | @scrutinee s cs span texts htexts =>
    cases he with
    | case hs hne hpatterns hbodies =>
      have hclauses := opening_all_clauses (spellsClauses hpatterns hbodies htexts) hne
      have hwhole := opening_case hc hclauses
      simp only [String.append_assoc] at hwhole ⊢
      refine hwhole.mono ?_
      rintro ns ⟨ls, rs, rfl, hls, hrs⟩
      rw [openings_case]
      exact ((hls.inside (by decide)).append_left hrs).cons
  | @body s _ cs ds p span span' left pattern earlier later hleft hearlier hpattern hlater =>
    cases he with
    | case hs hne hpatterns hbodies =>
      have hcs : cs ⊆ cs ++ ⟨p, c, span'⟩ :: ds := List.subset_append_left _ _
      have hds : ds ⊆ cs ++ ⟨p, c, span'⟩ :: ds := fun d hd => by simp [hd]
      have hall := spellsClauses (fun d hd => hpatterns d (hcs hd)) (fun d hd => hbodies d (hcs hd)) hearlier
      have hall' := spellsClauses (fun d hd => hpatterns d (hds hd)) (fun d hd => hbodies d (hds hd)) hlater
      have hp := hpatterns ⟨p, c, span'⟩ (by simp)
      have hclause := opening_clause hp hpattern hc
      have hwhole := opening_case (hs.opening (by decide) hleft) (opening_clauses hall hall' hclause)
      rw [intercalate_around] at hwhole
      simp only [String.append_assoc] at hwhole ⊢
      refine hwhole.mono ?_
      rintro ns ⟨ls, rs, rfl, hls, front, _, rest, hrs, hfront, ⟨ms, rfl, hms⟩, hrest⟩
      rw [hrs, openings_case, clauseOpenings_append, clauseOpenings_cons]
      have hbody := (hms.inside (by decide)).append_left hrest
      exact (TooFew.append_right hls (.append_right hfront hbody.cons.cons.cons)).cons

theorem Lacks.enclosed {ns : List Nat} (h : TooFew e.openings ns) :
    Lacks e demanded (Expr.enclosed demanded e.strength ns) := by
  refine ⟨h.enclosed, fun hle => ?_⟩
  by_cases hd : demanded ≤ e.strength
  · rwa [enclosed_of_le hd]
  · rw [enclosed_of_lt (Int.not_le.mp hd)]
    obtain ⟨ms, hms⟩ := exists_openings_of_strength (e := e) (by omega)
    rw [hms] at h ⊢
    exact h.modifyHead

theorem IsOperation.strength_pos (h : b.IsOperation) : 0 < b.strength := by
  cases h with
  | binary => exact strength_binary_bounds.1
  | call => simp [strength, applicationPrecedence]

/-- Without the pair around an operator or a call, the whole expression lacks parentheses. -/
theorem ShownIn.lacks {inner : String} (h : b.ShownIn place e demanded left right) (he : e.Writable)
    (hb : b.IsOperation) (hlt : b.strength < place) (hinner : b.format 0 = .ok inner) :
    Opening (left ++ inner ++ right) (Lacks e demanded) := by
  induction h with
  | here =>
    obtain ⟨text, htext, hopening⟩ := he.exists_opening
    rw [htext 0 (by decide), enclose_of_le b.strength_nonneg, Except.ok.injEq] at hinner
    rw [String.empty_append, String.append_empty, ← hinner]
    refine hopening.mono fun ns hns => ⟨.of_unenclosed hns b.openings_ne_nil hlt, fun hle => ?_⟩
    have hpos := hb.strength_pos
    omega
  | @inside c e place' demanded before behind left right hc _ ih =>
    have hstep := hc.short he (ih (hc.writable he))
    have hwhole : Opening (enclose demanded e.strength _) _ := hstep.enclose fun ns hns => hns.ne_nil
    rw [enclose_eq] at hwhole
    simp only [String.append_assoc] at hwhole ⊢
    refine hwhole.mono ?_
    rintro ns ⟨ms, rfl, hms⟩
    exact .enclosed hms

/-- Parentheses around an expression come from its place. -/
theorem Writable.strength_lt (hb : b.Writable) (hinner : b.format 0 = .ok inner)
    (houter : b.format place = .ok ("(" ++ inner ++ ")")) : b.strength < place := by
  obtain ⟨text, htext, _⟩ := hb.exists_opening
  by_contra hle
  have hplace := Int.not_lt.mp hle
  rw [htext 0 (by decide), enclose_of_le b.strength_nonneg, Except.ok.injEq] at hinner
  rw [htext place (Int.le_trans hplace b.strength_le), enclose_of_le hplace, Except.ok.injEq, hinner] at houter
  have hlength := congrArg String.length houter
  have hone : "(".length = 1 := rfl
  rw [String.length_append, String.length_append] at hlength
  omega

end Expr

/-- Where no token behind the first sign of equality begins a definition, there is only one. -/
theorem Derives.eq_singleton {bars : Bars} {fs : List Definition} {k f x q : Token} {us : List Token}
    (h : Derives bars (.program fs) (k :: f :: x :: q :: us)) (hus : ∀ t ∈ us, t.isFun = false) :
    ∃ e unclosed span, fs = [⟨f.value, x.value, e, span⟩] ∧ Derives bars (.expression e unclosed) us := by
  generalize hts : k :: f :: x :: q :: us = ts at h
  cases h with
  | empty => cases hts
  | @item g gs vs ws hg hgs =>
    cases hg with
    | definition _ _ _ _ he =>
      simp only [List.cons_append, List.cons.injEq] at hts
      obtain ⟨rfl, rfl, rfl, rfl, rfl⟩ := hts
      cases gs with
      | nil =>
        cases hgs
        rw [List.append_nil]
        exact ⟨_, _, _, rfl, he⟩
      | cons g' gs =>
        obtain ⟨t, rest, rfl, ht⟩ := Reader.exists_fun hgs (by simp)
        have hno := hus t (by simp)
        exact absurd ht (Bool.eq_false_iff.mp hno)

/-- No parentheses around an operator or a call are redundant. Every part of an expression is printed somewhere in
its text, and where it is an operator or a call between parentheses, the text without the two of them is no body
that is read as the same expression. -/
theorem Program.parentheses_needed {e : Expr} (he : e.Writable) :
    (∀ b ∈ e.parts, ∃ place left right, b.ShownIn place e 0 left right) ∧
    ∀ (b : Expr) (place : Int) (left right inner : String), b.ShownIn place e 0 left right → b.IsOperation →
      b.format 0 = .ok inner → b.format place = .ok ("(" ++ inner ++ ")") →
      e.format 0 = .ok (left ++ "(" ++ inner ++ ")" ++ right) ∧
      ∀ (f x : Name) (file : String) (p : Program), f.IsIdentifier → x.IsIdentifier →
        ofSource ("fun " ++ f.plain ++ " " ++ x.plain ++ " = " ++ (left ++ inner ++ right)) file = .ok p →
        ∃ g, p.definitions = [g] ∧ g.name = f ∧ g.param = x ∧ ¬ e.same g.body := by
  refine ⟨fun b hb => he.exists_shownIn hb 0, ?_⟩
  intro b place left right inner hshown hop hinner houter
  have hlt := (hshown.writable he).strength_lt hinner houter
  have hlacks := hshown.lacks he hop hlt hinner
  refine ⟨by simpa only [String.append_assoc] using hshown.format houter, ?_⟩
  intro f x file p hf hx hp
  have hwellFormed := wellFormed_of_ofSource hp
  obtain ⟨fs, ts, hlayout, hfs, hnodup, rfl⟩ := exists_reading hp
  obtain ⟨k, f', x', q, us, rfl, _, ⟨_, rfl⟩, ⟨_, rfl⟩, _, ns, hns, hlacks⟩ :=
    (Reads.composes.definition hf hx hlacks.reads).of_layout hlayout
  obtain ⟨e', unclosed, span, rfl, he'⟩ := hfs.eq_singleton hns.isFun
  have hdefinitions := definitions_ofDefinitions hnodup
  refine ⟨_, hdefinitions, rfl, rfl, fun hsame => ?_⟩
  have hread : e'.WellFormed := by
    have hdefinition := hwellFormed.definitions _ (by rw [hdefinitions]; exact List.mem_singleton_self _)
    exact hdefinition.body
  obtain ⟨_, heq⟩ := he.genuine.openings_eq hread.genuine hsame
  obtain ⟨ms, hms, hcovered⟩ := he'.covers
  rw [hms.unique hns, ← heq] at hcovered
  exact (hlacks.inside (by decide)).2 hcovered

/-- A difference that is subtracted: without its parentheses the text is read as another one. -/
theorem Program.parentheses_needed_difference :
    let n (k : Nat) : Expr := .int (.int k) none
    let b : Expr := .binary "-" (n 2) (n 3) none
    let e : Expr := .binary "-" (n 1) b none
    e.Writable ∧ b.ShownIn 2 e 0 "1 - " "" ∧ e.format 0 = .ok "1 - (2 - 3)" ∧
      ∃ p g, ofSource "fun f x = 1 - 2 - 3" "a" = .ok p ∧ p.definitions = [g] ∧ ¬ e.same g.body := by
  intro n b e
  have he : e.Writable := .binary (by simp) .int (.binary (by simp) .int .int)
  have hshown : b.ShownIn 2 e 0 "1 - " "" := by
    have hright : b.StandsIn (1 + 1) e ("1" ++ " " ++ "-" ++ " ") "" := .right rfl rfl
    exact .inside hright .here
  have hf : (Scalar.text "f").IsIdentifier := ⟨'f', [], rfl, by decide, by simp, by decide⟩
  have hx : (Scalar.text "x").IsIdentifier := ⟨'x', [], rfl, by decide, by simp, by decide⟩
  obtain ⟨_, hneeded⟩ := parentheses_needed he
  obtain ⟨hformat, hdiffers⟩ := hneeded b 2 "1 - " "" "2 - 3" hshown .binary rfl rfl
  refine ⟨he, hshown, hformat, ?_⟩
  have hread : (ofSource "fun f x = 1 - 2 - 3" "a").toOption.isSome := by decide +kernel
  cases hp : ofSource "fun f x = 1 - 2 - 3" "a" with
  | error refusal =>
    rw [hp] at hread
    cases hread
  | ok p =>
    obtain ⟨g, hg, _, _, hbody⟩ := hdiffers (.text "f") (.text "x") "a" p hf hx hp
    exact ⟨p, g, rfl, hg, hbody⟩

end Casewise
