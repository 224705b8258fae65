/-!
Division of signed 64-bit words. The quotient is rounded down and the remainder
goes with it, so that a remainder other than zero has the sign of the divisor.
Like all arithmetic on words, a result that does not fit wraps around; of the
quotients only that of the least word by minus one does not fit.
-/
namespace Lisplet.Word

/-- The truncated quotient, lowered by one where truncation rounded up. -/
def floorDiv (a b : Int64) : Int64 :=
  let q := a / b
  if a % b ≠ 0 ∧ (a < 0 ↔ ¬ b < 0) then q - 1 else q

def floorMod (a b : Int64) : Int64 := a - floorDiv a b * b

example : floorDiv (-7) 2 = -4 ∧ floorMod (-7) 2 = 1 := by decide
example : floorDiv 7 (-2) = -4 ∧ floorMod 7 (-2) = -1 := by decide
example : floorDiv Int64.minValue (-1) = Int64.minValue := by decide

end Lisplet.Word
