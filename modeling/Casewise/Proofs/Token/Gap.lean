import Casewise.Token.Lexer

/-! What stands between tokens. A comment ends at the first closing mark behind its opening mark,
and a gap is any sequence of blanks and comments. -/
namespace Casewise.Token

/-- A text that holds no closing mark, not even one that the first star behind it would begin. -/
def NeverCloses (inside : List Char) : Prop := ¬ ['*', ')'] <:+: inside ++ ['*']

inductive Gap : List Char → Prop
  | nil : Gap []
  | blank {c : Char} {s : List Char} : Text.isBlank c → Gap s → Gap (c :: s)
  | comment {inside s : List Char} : NeverCloses inside → Gap s →
    Gap ('(' :: '*' :: inside ++ '*' :: ')' :: s)

theorem Gap.append {s t : List Char} (hs : Gap s) (ht : Gap t) : Gap (s ++ t) := by
  induction hs with
  | nil => exact ht
  | blank hc _ ih => exact .blank hc ih
  | @comment inside s hi _ ih =>
    have : '(' :: '*' :: inside ++ '*' :: ')' :: s ++ t =
        '(' :: '*' :: inside ++ '*' :: ')' :: (s ++ t) := by simp
    rw [this]
    exact .comment hi ih

theorem NeverCloses.of_cons {c : Char} {inside : List Char} (h : NeverCloses (c :: inside)) :
    NeverCloses inside :=
  fun hi => h (hi.trans (List.infix_cons List.infix_rfl))

/-- A star that a closing parenthesis follows is the only way to close. -/
theorem neverCloses_cons {c : Char} {inside : List Char} (h : NeverCloses inside)
    (hc : ∀ rest, c :: inside ≠ '*' :: ')' :: rest) : NeverCloses (c :: inside) := by
  intro hi
  rcases List.infix_cons_iff.mp hi with hp | hi
  · obtain ⟨rfl, hrest⟩ := List.cons_prefix_cons.mp hp
    cases inside with
    | nil => simp at hrest
    | cons d inside =>
      obtain ⟨rfl, _⟩ := List.cons_prefix_cons.mp hrest
      exact hc inside rfl
  · exact h hi

/-- A comment is cut at the first closing mark, and at no other. -/
theorem splitComment?_eq_some_iff {s inside behind : List Char} :
    splitComment? s = some (inside, behind) ↔
      s = inside ++ '*' :: ')' :: behind ∧ NeverCloses inside := by
  constructor
  · intro h
    refine ⟨splitComment?_eq h, ?_⟩
    fun_induction splitComment? s generalizing inside with
    | case1 rest =>
      cases h
      exact fun hi => by simpa using hi.length_le
    | case2 c rest hc ih =>
      obtain ⟨⟨inner, after⟩, hi, hp⟩ := Option.map_eq_some_iff.mp h
      obtain ⟨rfl, rfl⟩ := Prod.mk.inj hp
      refine neverCloses_cons (ih hi) fun tail ht => ?_
      obtain ⟨rfl, rfl⟩ := List.cons.inj ht
      exact hc (tail ++ '*' :: ')' :: after) rfl (splitComment?_eq hi)
    | case3 => cases h
  · rintro ⟨rfl, hn⟩
    induction inside with
    | nil => rfl
    | cons c inside ih =>
      have hrest := ih hn.of_cons
      rw [List.cons_append]
      unfold splitComment?
      split
      next rest heq =>
        -- the mark would be inside the comment, or its star the comment's own
        exfalso
        obtain ⟨rfl, htail⟩ := List.cons.inj heq
        refine hn ?_
        cases inside with
        | nil => simp at htail
        | cons d inside =>
          obtain ⟨rfl, _⟩ := List.cons.inj htail
          exact ⟨[], inside ++ ['*'], rfl⟩
      next d rest _ heq =>
        obtain ⟨rfl, rfl⟩ := List.cons.inj heq
        rw [hrest]
        rfl
      next heq => cases heq

theorem isDigit_iff {c : Char} : c.isDigit ↔ 48 ≤ c.toNat ∧ c.toNat ≤ 57 := Char.isDigit_iff_toNat

theorem isAlpha_iff {c : Char} :
    c.isAlpha ↔ 65 ≤ c.toNat ∧ c.toNat ≤ 90 ∨ 97 ≤ c.toNat ∧ c.toNat ≤ 122 := by
  change (decide ('A'.val ≤ c.val ∧ c.val ≤ 'Z'.val) ||
    (decide ('a'.val ≤ c.val) && decide (c.val ≤ 'z'.val))) = true ↔ _
  simp only [Bool.or_eq_true, Bool.and_eq_true, decide_eq_true_eq, UInt32.le_iff_toNat_le]
  rfl

/-- No blank begins a lexeme or a comment. -/
theorem beginsLexeme_of_isBlank {c : Char} (h : Text.isBlank c) : beginsLexeme c = false := by
  rw [Bool.eq_false_iff]
  intro hb
  simp only [beginsLexeme, isOperatorChar, isPunctuationChar, isDigit_iff, isAlpha_iff, Bool.or_eq_true,
    decide_eq_true_eq] at hb
  simp only [Text.isBlank, Bool.or_eq_true, Bool.and_eq_true, decide_eq_true_eq, beq_iff_eq] at h
  rcases hb with (((hd | hu | hl) | ho) | hp)
  · omega
  · omega
  · omega
  · rcases ho with (rfl | rfl) | rfl <;> revert h <;> decide
  · rcases hp with (((rfl | rfl) | rfl) | rfl) | rfl <;> revert h <;> decide

end Casewise.Token
