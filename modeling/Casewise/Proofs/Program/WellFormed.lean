import Mathlib.Algebra.Group.Nat.Defs
import Casewise.Proofs.Program.Acceptance
import Casewise.Proofs.Token.Layout

/-! Well-formed programs: those made of the names, numbers and operators that a source text can hold.
Whatever is read from a source text is well-formed. -/
namespace Casewise

/-- A name that a text can spell: a letter, then letters, digits and underscores, but no keyword. -/
def Scalar.IsIdentifier (v : Scalar) : Prop :=
  ∃ c s, v = .text (String.ofList (c :: s)) ∧ c.isAlpha ∧ (∀ d ∈ s, Token.isWordChar d) ∧
    String.ofList (c :: s) ∉ ["fun", "case", "in"]

/-- A number that a text can spell: no sign, and not too many decimal digits. -/
def Scalar.IsNumeral (v : Scalar) : Prop :=
  ∃ n : Nat, v = .int n ∧ (Nat.toDigits 10 n).length ≤ maxDigits

inductive Pattern.WellFormed : Pattern → Prop
  | literal {v : Scalar} {span : Option Span} : v.IsNumeral → WellFormed (.literal v span)
  | wildcard {span : Option Span} : WellFormed (.wildcard span)

inductive Expr.WellFormed : Expr → Prop
  | int {v : Scalar} {span : Option Span} : v.IsNumeral → WellFormed (.int v span)
  | var {x : Name} {span : Option Span} : x.IsIdentifier → WellFormed (.var x span)
  | binary {operator : String} {l r : Expr} {span : Option Span} : operator ∈ ["+", "-", "*"] →
    WellFormed l → WellFormed r → WellFormed (.binary operator l r span)
  | call {f : Name} {a : Expr} {span : Option Span} : f.IsIdentifier → WellFormed a →
    WellFormed (.call f a span)
  | case {s : Expr} {cs : List (Clause Expr)} {span : Option Span} : WellFormed s → cs ≠ [] →
    (∀ c ∈ cs, c.pattern.WellFormed) → (∀ c ∈ cs, WellFormed c.body) → WellFormed (.case s cs span)

structure Definition.WellFormed (f : Definition) : Prop where
  name : f.name.IsIdentifier
  param : f.param.IsIdentifier
  body : f.body.WellFormed

structure Program.WellFormed (p : Program) : Prop where
  keys : p.keys = p.definitions.map Definition.name
  definitions : ∀ f ∈ p.definitions, f.WellFormed

namespace Token

/-- The token is a lexeme somewhere in a text. -/
def Lexed (t : Token) : Prop := ∃ l : Lexeme, ∃ span, l.Formed ∧ t = l.token span

theorem Layout.lexed {file : String} {p : Position} {s : List Char} {ts : List Token}
    (h : Layout file p s ts) : ∀ t ∈ ts, t.Lexed := by
  induction h with
  | last _ => simp
  | next _ hl _ _ ih =>
    intro t ht
    rcases List.mem_cons.mp ht with rfl | ht
    · exact ⟨_, _, hl, rfl⟩
    · exact ih t ht

theorem Lexed.kind_ne_eof {t : Token} (ht : t.Lexed) : t.kind ≠ .eof := by
  obtain ⟨l, span, hl, rfl⟩ := ht
  cases hl with
  | word _ _ =>
    simp only [Lexeme.token, Lexeme.word]
    split <;> simp
  | _ => simp [Lexeme.token]

theorem Lexed.isIdentifier {t : Token} (ht : t.Lexed) (hk : t.kind = .identifier) :
    t.value.IsIdentifier := by
  obtain ⟨l, span, hl, rfl⟩ := ht
  cases hl with
  | @word c s hc hw =>
    by_cases hkey : String.ofList (c :: s) ∈ keywords
    · rw [Lexeme.word_of_mem hkey] at hk
      cases hk
    · rw [Lexeme.word_of_not_mem hkey]
      exact ⟨c, s, rfl, hc, hw, hkey⟩
  | _ => simp [Lexeme.token] at hk

private theorem ofDigitChars_lt {digits : List Char} (hd : ∀ c ∈ digits, c.isDigit) (n : Nat) :
    Nat.ofDigitChars 10 digits n < (n + 1) * 10 ^ digits.length := by
  induction digits generalizing n with
  | nil => simp
  | cons c digits ih =>
    have hc := isDigit_iff.mp (hd c (by simp))
    have hrest := ih (fun d hd' => hd d (by simp [hd'])) (10 * n + (c.toNat - '0'.toNat))
    have hle : 10 * n + (c.toNat - '0'.toNat) + 1 ≤ (n + 1) * 10 := by
      change 10 * n + (c.toNat - 48) + 1 ≤ (n + 1) * 10
      omega
    calc Nat.ofDigitChars 10 (c :: digits) n
        < (10 * n + (c.toNat - '0'.toNat) + 1) * 10 ^ digits.length := by
          rw [Nat.ofDigitChars_cons]
          exact hrest
      _ ≤ (n + 1) * 10 * 10 ^ digits.length := Nat.mul_le_mul_right _ hle
      _ = (n + 1) * 10 ^ (digits.length + 1) := by rw [Nat.pow_succ', Nat.mul_assoc]

/-- The number that a numeral writes has no more digits than the numeral. -/
theorem Lexed.isNumeral {t : Token} (ht : t.Lexed) (hk : t.kind = .integer) :
    t.value.IsNumeral := by
  obtain ⟨l, span, hl, rfl⟩ := ht
  cases hl with
  | @integer digits hne hd hlen =>
    refine ⟨digitsValue digits, rfl, ?_⟩
    have hpos := List.length_pos_iff.mpr hne
    have hlt := ofDigitChars_lt hd 0
    have hle : (Nat.toDigits 10 (digitsValue digits)).length ≤ digits.length := by
      rw [Nat.length_toDigits_le_iff (by decide) hpos, digitsValue, ← Nat.ofDigitChars_eq_foldl]
      simpa using hlt
    exact Nat.le_trans hle hlen
  | @word c s _ _ =>
    simp only [Lexeme.token, Lexeme.word] at hk
    split at hk <;> cases hk
  | _ => simp [Lexeme.token] at hk

end Token

private def Phrase.WellFormed : Phrase → Prop
  | .atom e | .application e | .product e | .sum e | .expression e _ => e.WellFormed
  | .pattern p => p.WellFormed
  | .clause c _ => c.pattern.WellFormed ∧ c.body.WellFormed
  | .clauses cs => cs ≠ [] ∧ (∀ c ∈ cs, c.pattern.WellFormed) ∧ ∀ c ∈ cs, c.body.WellFormed
  | .definition f => f.WellFormed
  | .program fs => ∀ f ∈ fs, f.WellFormed

private theorem Derives.wellFormed {bars : Bars} {ph : Phrase} {ts : List Token}
    (h : Derives bars ph ts) (hts : ∀ t ∈ ts, t.Lexed) : ph.WellFormed := by
  induction h with
  | number h => exact .int ((hts _ (by simp)).isNumeral h)
  | word h | name h => exact .var ((hts _ (by simp)).isIdentifier h)
  | group _ _ _ ih => exact ih fun t ht => hts t (by simp [ht])
  | call h _ ih => exact .call ((hts _ (by simp)).isIdentifier h) (ih fun t ht => hts t (by simp [ht]))
  | operand _ ih | factor _ ih | term _ ih | plain _ ih => exact ih hts
  | product _ _ _ ihl ihr =>
    exact .binary (by simp) (ihl fun t ht => hts t (by simp [ht])) (ihr fun t ht => hts t (by simp [ht]))
  | sum _ hop _ _ ihl ihr =>
    exact .binary (by rcases hop with rfl | rfl <;> simp) (ihl fun t ht => hts t (by simp [ht]))
      (ihr fun t ht => hts t (by simp [ht]))
  | case _ _ _ _ ihs ihc =>
    obtain ⟨hne, hpatterns, hbodies⟩ := ihc fun t ht => hts t (by simp [ht])
    exact .case (ihs fun t ht => hts t (by simp [ht])) hne hpatterns hbodies
  | literal h => exact .literal ((hts _ (by simp)).isNumeral h)
  | wildcard _ => exact .wildcard
  | clause _ _ _ ihp ihe =>
    exact ⟨ihp fun t ht => hts t (by simp [ht]), ihe fun t ht => hts t (by simp [ht])⟩
  | last _ ih =>
    have hc := ih hts
    exact ⟨by simp, by simpa using hc.1, by simpa using hc.2⟩
  | bar _ _ _ _ ihc ihs =>
    have hc := ihc fun t ht => hts t (by simp [ht])
    obtain ⟨_, hpatterns, hbodies⟩ := ihs fun t ht => hts t (by simp [ht])
    refine ⟨by simp, ?_, ?_⟩
    · simpa using And.intro hc.1 hpatterns
    · simpa using And.intro hc.2 hbodies
  | definition _ hf hx _ _ ih =>
    exact ⟨(hts _ (by simp)).isIdentifier hf, (hts _ (by simp)).isIdentifier hx,
      ih fun t ht => hts t (by simp [ht])⟩
  | empty => simp [Phrase.WellFormed]
  | item _ _ ihd ihp =>
    have hf := ihd fun t ht => hts t (by simp [ht])
    have hfs := ihp fun t ht => hts t (by simp [ht])
    simpa [Phrase.WellFormed] using And.intro hf hfs

/-- No program is read from a stream that breaks off. -/
theorem Reader.fault?_eq_none {r : Reader} {s : Token.Stream} {fs : List Definition}
    (h : r.read s = .ok fs) : s.fault? = none := by
  induction s generalizing r with
  | more t rest ih =>
    cases hs : r.step t with
    | error x =>
      rw [read, hs] at h
      cases h
    | ok next =>
      rw [read, hs] at h
      exact ih h
  | stop _ => rfl
  | fail fault => cases h

namespace Program

variable {source file : String} {p : Program}

/-- A program read from a text has the definitions of an innermost derivation from the tokens that
the text is laid out in. -/
theorem exists_reading (h : ofSource source file = .ok p) :
    ∃ fs ts, Token.Layout file .start source.toList ts ∧ Derives .innermost (.program fs) ts ∧
      (fs.map Definition.name).Nodup ∧ p = ofDefinitions fs := by
  have hfault : (Token.tokenize source file).fault? = none := by
    cases hr : Reader.start.read (Token.tokenize source file) with
    | error x =>
      rw [ofSource, ofTokens, hr] at h
      cases h
    | ok fs => exact Reader.fault?_eq_none hr
  obtain ⟨ts, hl⟩ := Token.exists_layout hfault
  have hts := fun t ht => (hl.lexed t ht).kind_ne_eof
  rw [ofSource, Token.tokenize, Token.scan_of_layout hl, ← Token.Stream.ofList_eq_closed hts rfl] at h
  rcases ofTokens_sound hts (rfl : (Token.endOf _).kind = .eof) with ⟨fs, hfs, hd, hn⟩ | ⟨x, hx, _⟩
  · rw [hfs] at h
    exact ⟨fs, ts, hl, hd, hn, (Except.ok.inj h).symm⟩
  · rw [hx] at h
    cases h

theorem exists_derives (h : ofSource source file = .ok p) :
    ∃ fs ts, (∀ t ∈ ts, t.Lexed) ∧ Derives .innermost (.program fs) ts ∧
      (fs.map Definition.name).Nodup ∧ p = ofDefinitions fs := by
  obtain ⟨fs, ts, hl, hd⟩ := exists_reading h
  exact ⟨fs, ts, hl.lexed, hd⟩

theorem wellFormed_of_ofSource (h : ofSource source file = .ok p) : p.WellFormed := by
  obtain ⟨fs, ts, hts, hd, hn, rfl⟩ := exists_derives h
  refine ⟨?_, ?_⟩
  · rw [keys_ofDefinitions hn, definitions_ofDefinitions hn]
  · rw [definitions_ofDefinitions hn]
    exact hd.wellFormed hts

end Program

end Casewise
