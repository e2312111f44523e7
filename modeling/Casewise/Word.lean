/-! Signed 64-bit words, and the arithmetic that wraps around in them. -/
namespace Casewise.Word

/-- The number of words, `2 ^ 64`. -/
def modulus : Nat := 18446744073709551616

/-- The word congruent to an integer, in two's complement. -/
def wrap (n : Int) : Int := n.bmod modulus

def IsWord (n : Int) : Prop := -9223372036854775808 ≤ n ∧ n < 9223372036854775808

instance (n : Int) : Decidable (IsWord n) := inferInstanceAs (Decidable (_ ∧ _))

theorem isWord_wrap (n : Int) : IsWord (wrap n) :=
  ⟨Int.le_bmod (by decide), Int.bmod_lt (by decide)⟩

theorem wrap_eq_self {n : Int} (h : IsWord n) : wrap n = n :=
  Int.bmod_eq_of_le h.1 h.2

@[simp] theorem wrap_wrap (n : Int) : wrap (wrap n) = wrap n :=
  wrap_eq_self (isWord_wrap n)

/-- The exact operation that an operator stands for. -/
def integerOperation? : String → Option (Int → Int → Int)
  | "+" => some (· + ·)
  | "-" => some (· - ·)
  | "*" => some (· * ·)
  | _ => none

def operation? (operator : String) : Option (Int → Int → Int) :=
  (integerOperation? operator).map fun f x y => wrap (f x y)

end Casewise.Word
