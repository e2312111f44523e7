/-! The characters that may stand between tokens without meaning anything. -/
namespace Casewise.Text

/-- Blank characters: the white space of Unicode and the four information separators. -/
def isBlank (c : Char) : Bool :=
  let n := c.toNat
  (0x09 ≤ n && n ≤ 0x0d) || (0x1c ≤ n && n ≤ 0x20) || n == 0x85 || n == 0xa0 || n == 0x1680 ||
    (0x2000 ≤ n && n ≤ 0x200a) || n == 0x2028 || n == 0x2029 || n == 0x202f || n == 0x205f ||
    n == 0x3000

/-- An information separator is blank between tokens, but no margin of a numeral. -/
def isInformationSeparator (c : Char) : Bool :=
  0x1c ≤ c.toNat && c.toNat ≤ 0x1f

theorem isBlank_of_isWhitespace {c : Char} (h : c.isWhitespace) : isBlank c := by
  simp only [Char.isWhitespace, Bool.or_eq_true, decide_eq_true_eq] at h
  rcases h with (((rfl | rfl) | rfl) | rfl) <;> decide

end Casewise.Text
