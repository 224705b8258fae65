import Lisplet.Eval.Form

/-!
Division of words with all checks. The divisor has to be other than zero, and
lowering the quotient must not take it below the least word. Only one and minus
one divide the least word into a quotient of its magnitude, and they leave no
remainder; where there is one, the quotient has half the magnitude at most.
-/
namespace Lisplet

namespace Word

def pred? (q : Int64) : Option Int64 :=
  if Int64.minValue.toInt ≤ q.toInt - 1 then some (q - 1) else none

/-- The rounded quotient, with the divisor and the subtraction checked. -/
def floorDiv? (a b : Int64) : Option Int64 :=
  if b = 0 then none
  else
    let q := a / b
    if a % b ≠ 0 ∧ (a < 0 ↔ ¬ b < 0) then pred? q else some q

def floorMod? (a b : Int64) : Option Int64 := (floorDiv? a b).map fun q => a - q * b

/-- A divisor that leaves something is neither one nor minus one. -/
theorem two_le_natAbs_of_mod_ne_zero {a b : Int64} (hb : b ≠ 0) (hmod : a % b ≠ 0) :
    2 ≤ b.toInt.natAbs := by
  refine Nat.le_of_not_lt fun hlt => ?_
  have hzero : b.toInt ≠ 0 := fun h => hb (Int64.toInt_inj.1 h)
  have hone : b.toInt = 1 ∨ b.toInt = -1 := by omega
  refine hmod (Int64.toInt_inj.1 ?_)
  rw [Int64.toInt_mod]
  rcases hone with h | h
  · rw [h, Int.tmod_one]
    rfl
  · rw [h, Int.tmod_neg, Int.tmod_one]
    rfl

/-- The least word by minus one wraps, but it leaves nothing. -/
theorem minValue_lt_div {a b : Int64} (hb : b ≠ 0) (hmod : a % b ≠ 0) :
    Int64.minValue.toInt < (a / b).toInt := by
  have htwo := two_le_natAbs_of_mod_ne_zero hb hmod
  have hne : b ≠ -1 := by
    rintro rfl
    exact absurd htwo (by decide)
  have hhalf : (a.toInt.tdiv b.toInt).natAbs ≤ a.toInt.natAbs / 2 := by
    rw [Int.natAbs_tdiv]
    exact Nat.div_le_div_left htwo (by decide)
  have hleast := Int64.le_toInt a
  have hgreatest := Int64.toInt_lt a
  rw [Int64.toInt_div_of_ne_right a b hne, Int64.toInt_minValue]
  omega

/-- Wherever it is called for, the division passes all checks. -/
theorem floorDiv?_eq (a : Int64) {b : Int64} (hb : b ≠ 0) : floorDiv? a b = some (floorDiv a b) := by
  unfold floorDiv? floorDiv
  rw [if_neg hb]
  split
  next h =>
    have hlt := minValue_lt_div hb h.1
    exact if_pos (by omega)
  next => rfl

theorem floorMod?_eq (a : Int64) {b : Int64} (hb : b ≠ 0) : floorMod? a b = some (floorMod a b) := by
  rw [floorMod?, floorDiv?_eq a hb]
  rfl

/-- The least word is divided where the quotient is rounded, and where it is not. -/
example : floorDiv? Int64.minValue 3 = some (-3074457345618258603) ∧
    floorDiv? Int64.minValue (-1) = some Int64.minValue := by decide

end Word

namespace Form

variable {ε : Type}

def arith? (op : ArithOp) (a b : Int64) (divisor : Place) : Option (Run ε Int64) :=
  match op with
  | .add => some (return a + b)
  | .sub => some (return a - b)
  | .mul => some (return a * b)
  | .div => if b = 0 then some (Eval.fail .divisionByZero divisor) else (Word.floorDiv? a b).map pure
  | .mod => if b = 0 then some (Eval.fail .divisionByZero divisor) else (Word.floorMod? a b).map pure

/-- All checks in the arithmetic of a form pass. -/
theorem arith?_eq (op : ArithOp) (a b : Int64) (divisor : Place) :
    (arith? op a b divisor : Option (Run ε Int64)) = some (arith op a b divisor) := by
  cases op with
  | add | sub | mul => rfl
  | div =>
    simp only [arith?, arith]
    split
    · rfl
    next hb => rw [Word.floorDiv?_eq a hb, Option.map_some]
  | mod =>
    simp only [arith?, arith]
    split
    · rfl
    next hb => rw [Word.floorMod?_eq a hb, Option.map_some]

end Form
end Lisplet
