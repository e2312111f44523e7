import Casewise.Program.Printer
import Casewise.Proofs.Expr.Printing

/-! Printed programs are read back. A well-formed program is printed as a text whose only innermost
derivation has the same trees, and only well-formed programs are ever read. -/
namespace Casewise

open Token

theorem Token.Composes.definition {W : List Char → (List Token → Prop) → Prop} (hw : Composes W)
    {name param : Name} {text : String} {R : List Token → Prop} (hname : name.IsIdentifier)
    (hparam : param.IsIdentifier) (h : W text.toList R) :
    W ("fun " ++ name.plain ++ " " ++ param.plain ++ " = " ++ text).toList fun ts =>
      ∃ k f x q us, ts = k :: f :: x :: q :: us ∧ k.is .keyword "fun" ∧
        (f.kind = .identifier ∧ f.value = name) ∧ (x.kind = .identifier ∧ x.value = param) ∧
        q.is .punctuation "=" ∧ R us := by
  obtain ⟨k, hk, hkname, hvname, hname⟩ := hname.exists_lexeme
  obtain ⟨l, hl, hkparam, hvparam, hparam⟩ := hparam.exists_lexeme
  have hfun : Lexeme.Formed ⟨.keyword, ['f', 'u', 'n']⟩ :=
    Lexeme.formed_word (c := 'f') (s := ['u', 'n']) (by decide) (by decide)
  have hequals : Lexeme.Formed ⟨.punctuation, ['=']⟩ := .punctuation (by decide)
  have htoList : ("fun " ++ name.plain ++ " " ++ param.plain ++ " = " ++ text).toList =
      ['f', 'u', 'n'] ++ ' ' :: (k.text ++ ' ' :: (l.text ++ ' ' :: (['='] ++ ' ' :: text.toList))) := by
    simp [hname, hparam]
  rw [htoList]
  refine hw.mono (hw.word hfun (hw.word hk (hw.word hl (hw.word hequals h)))) ?_
  rintro ts ⟨place, _, rfl, place', _, rfl, place'', _, rfl, place''', us, rfl, hR⟩
  exact ⟨_, _, _, _, us, rfl, Lexeme.token_is (by decide) place, ⟨hkname, hvname⟩, ⟨hkparam, hvparam⟩,
    Lexeme.token_is (by decide) place''', hR⟩

theorem Definition.WellFormed.printed {f : Definition} (h : f.WellFormed) :
    ∃ text, f.format = .ok text ∧ Writes text.toList fun ts =>
      ∃ g : Definition, Derives .innermost (.definition g) ts ∧ g.name = f.name ∧ f.same g := by
  obtain ⟨name, param, body, span⟩ := f
  obtain ⟨text, htext, hbody⟩ := h.body.printed 0
  have hwrites := Writes.composes.definition h.name h.param hbody.writes
  refine ⟨_, by rw [Definition.format, htext]; rfl, hwrites.mono ?_⟩
  rintro ts ⟨k, f, x, q, us, rfl, hk, ⟨hf, hvname⟩, ⟨hx, hvparam⟩, hq, e, he, hs⟩
  obtain ⟨unclosed, he⟩ := he.toExpression
  refine ⟨_, .definition hk hf hx hq he, hvname, ?_⟩
  rw [hvname, hvparam]
  exact same_mk name param _ _ hs

/-- The texts of definitions, each on its own line, are the text of a program. -/
theorem Definition.printed_lines {fs : List Definition} (h : ∀ f ∈ fs, f.WellFormed) :
    ∃ texts, fs.mapM Definition.format = .ok texts ∧
      Writes (String.join (texts.map (· ++ "\n"))).toList fun ts =>
        ∃ gs : List Definition, Derives .innermost (.program gs) ts ∧
          gs.map Definition.name = fs.map Definition.name ∧ (fs.zip gs).all fun (f, g) => f.same g := by
  induction fs with
  | nil =>
    refine ⟨[], rfl, Writes.empty.mono ?_⟩
    rintro ts rfl
    exact ⟨[], .empty, rfl, rfl⟩
  | cons f fs ih =>
    obtain ⟨text, htext, hf⟩ := (h f (by simp)).printed
    obtain ⟨texts, htexts, hrest⟩ := ih fun g hg => h g (by simp [hg])
    refine ⟨text :: texts, by rw [List.mapM_cons, htext, htexts]; rfl, ?_⟩
    have htoList : (String.join ((text :: texts).map (· ++ "\n"))).toList =
        text.toList ++ '\n' :: (String.join (texts.map (· ++ "\n"))).toList := by
      simp [String.join_cons]
    rw [htoList]
    have hline := hrest.blank (c := '\n') (by decide)
    refine (hf.append hline fun c hc => by cases hc; exact separates_lineFeed).mono ?_
    rintro ts ⟨us, vs, rfl, ⟨g, hg, hname, hs⟩, gs, hgs, hnames, hall⟩
    exact ⟨g :: gs, .item hg hgs, by simp [hname, hnames], by simp [hs, hall]⟩

namespace Program

variable {p : Program}

theorem WellFormed.ofSource_format (h : p.WellFormed) : ∃ text, p.format = .ok text ∧
    ∀ file, ∃ q, ofSource text file = .ok q ∧ p.same q := by
  obtain ⟨texts, htexts, hwrites⟩ := Definition.printed_lines h.definitions
  refine ⟨_, by rw [format, htexts]; rfl, fun file => ?_⟩
  obtain ⟨ts, hl, gs, hgs, hnames, hs⟩ := hwrites file .start
  have hn : (gs.map Definition.name).Nodup := by
    rw [hnames, ← h.keys]
    exact p.nodup
  have hts := fun t ht => (hl.lexed t ht).kind_ne_eof
  refine ⟨ofDefinitions gs, ?_, ?_⟩
  · rw [ofSource, tokenize, scan_of_layout hl, ← Stream.ofList_eq_closed hts rfl]
    exact ofTokens_of_nodup hts rfl hgs hn
  · rw [same, keys_ofDefinitions hn, definitions_ofDefinitions hn, hnames, h.keys]
    simpa using hs

/-- Programs that are read are well-formed, and a well-formed program is the same up to spans after
printing and reading it. -/
theorem ofSource_format_roundTrip :
    (∀ source file p, ofSource source file = .ok p → p.WellFormed) ∧
    ∀ p : Program, p.WellFormed → ∃ text, p.format = .ok text ∧
      ∀ file, ∃ q, ofSource text file = .ok q ∧ p.same q :=
  ⟨fun _ _ _ h => wellFormed_of_ofSource h, fun _ h => h.ofSource_format⟩

/-- Cases in a scrutinee, in an operand and in a body, a right operand of the same strength, and a call
of a call. -/
theorem ofSource_format_roundTrip_nested :
    let x : Expr := .var (.text "x") none
    let n (k : Nat) : Expr := .int (.int k) none
    let inner : Expr := .case x [⟨.wildcard none, x, none⟩] none
    let call (e : Expr) : Expr := .call (.text "f") e none
    let body : Expr := .case inner [⟨.literal (.int 0) none, inner, none⟩,
      ⟨.wildcard none, .binary "*" (.binary "-" (n 1) (.binary "-" (n 2) inner none) none)
        (call (call x)) none, none⟩] none
    let p := ofDefinitions [⟨.text "f", .text "x", body, none⟩]
    p.WellFormed ∧ ∀ file, ∃ q, ofSource ("fun f x = case (case x in _ => x) in " ++
      "0 => (case x in _ => x) | _ => (1 - (2 - (case x in _ => x))) * f (f x)\n") file = .ok q ∧
      p.same q := by
  intro x n inner call body p
  have hx : (Scalar.text "x").IsIdentifier := ⟨'x', [], rfl, by decide, by simp, by decide⟩
  have hf : (Scalar.text "f").IsIdentifier := ⟨'f', [], rfl, by decide, by simp, by decide⟩
  have hn (k : Nat) (hk : k < 10) : (n k).WellFormed :=
    .int ⟨k, rfl, by rw [Nat.toDigits_of_lt_base hk]; simp [maxDigits]⟩
  have hinner : inner.WellFormed :=
    .case (.var hx) (by simp) (by simpa using .wildcard) (by simpa using .var hx)
  have hlast : Expr.WellFormed (.binary "*" (.binary "-" (n 1) (.binary "-" (n 2) inner none) none)
      (call (call x)) none) :=
    .binary (by simp)
      (.binary (by simp) (hn 1 (by decide)) (.binary (by simp) (hn 2 (by decide)) hinner))
      (.call hf (.call hf (.var hx)))
  have hbody : body.WellFormed := by
    refine .case hinner (by simp) ?_ ?_
    · have hzero : (Scalar.int 0).IsNumeral := ⟨0, rfl, by decide⟩
      simpa using And.intro (.literal hzero) .wildcard
    · simpa using And.intro hinner hlast
  have hdefinitions : p.definitions = [⟨.text "f", .text "x", body, none⟩] := rfl
  have hp : p.WellFormed := by
    refine ⟨rfl, fun f h => ?_⟩
    rw [hdefinitions] at h
    obtain rfl := List.mem_singleton.mp h
    exact ⟨hf, hx, hbody⟩
  refine ⟨hp, fun file => ?_⟩
  obtain ⟨text, htext, hread⟩ := ofSource_format_roundTrip.2 p hp
  have hformat : p.format = .ok ("fun f x = case (case x in _ => x) in " ++
      "0 => (case x in _ => x) | _ => (1 - (2 - (case x in _ => x))) * f (f x)\n") := by rfl
  rw [hformat] at htext
  cases htext
  exact hread file

end Program

end Casewise
