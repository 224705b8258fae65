import Lisplet.Proofs.Word
import Mathlib.Algebra.Order.Floor.Ring
import Mathlib.Data.Int.ModEq
import Mathlib.Data.Rat.Floor

/-!
Quotients and remainders of words as integers. The truncated quotient of two
integers is the rounded one, except where there is a remainder and the signs are
different; then it is one too large. So the quotient of words is the greatest
integer that is not above the exact one, if that is a word, which it always is
but once. The remainder is what the quotient leaves of the dividend, and it
always is a word.
-/
namespace Lisplet.Word

theorem fdiv_eq_floor (a b : Int) : a.fdiv b = ⌊(a : ℚ) / b⌋ := by
  have hnat : ∀ (a : Int) (n : Nat), a.fdiv n = ⌊(a : ℚ) / ((n : Int) : ℚ)⌋ := by
    intro a n
    rw [Int.fdiv_eq_ediv_of_nonneg a (Int.natCast_nonneg n), Int.cast_natCast,
      Rat.floor_intCast_div_natCast]
  obtain ⟨n, rfl | rfl⟩ := b.eq_nat_or_neg
  · exact hnat a n
  · rw [← Int.neg_fdiv_neg, Int.neg_neg, hnat (-a) n, Int.cast_neg, Int.cast_neg, neg_div, div_neg]

/-- Truncation rounds up exactly where there is a remainder and the signs are different. -/
theorem fdiv_eq_ite {a b : Int} (hb : b ≠ 0) :
    a.fdiv b = if a.tmod b ≠ 0 ∧ (a < 0 ↔ ¬ b < 0) then a.tdiv b - 1 else a.tdiv b := by
  rw [Int.fdiv_eq_tdiv]
  by_cases hdvd : b ∣ a
  · simp [hdvd, Int.tmod_eq_zero_of_dvd hdvd]
  · have hmod : a.tmod b ≠ 0 := fun h => hdvd (Int.dvd_of_tmod_eq_zero h)
    rcases Int.lt_or_gt_of_ne hb with hneg | hpos
    · by_cases ha : 0 ≤ a <;>
        simp [hdvd, hmod, hneg, ha, Int.not_le.2 hneg, Int.sign_eq_neg_one_of_neg hneg]
    · by_cases ha : 0 ≤ a <;> simp [hdvd, hmod, hpos.le, ha, Int.sign_eq_one_of_pos hpos]

/-- What is left is less than the divisor, on the same side of zero. -/
theorem fmod_bounds (a b : Int) :
    (0 < b → 0 ≤ a.fmod b ∧ a.fmod b < b) ∧ (b < 0 → b < a.fmod b ∧ a.fmod b ≤ 0) := by
  refine ⟨fun h => ⟨Int.fmod_nonneg_of_pos a h, Int.fmod_lt_of_pos a h⟩, fun h => ?_⟩
  have hnonneg := Int.fmod_nonneg_of_pos (-a) (Int.neg_pos.2 h)
  have hlt := Int.fmod_lt_of_pos (-a) (Int.neg_pos.2 h)
  rw [Int.neg_fmod_neg] at hnonneg hlt
  omega

variable {x y : Int64}

theorem lt_zero_iff (x : Int64) : x < 0 ↔ x.toInt < 0 := by
  rw [Int64.lt_iff_toInt_lt, Int64.toInt_zero]

theorem toInt_ne_zero (hy : y ≠ 0) : y.toInt ≠ 0 := fun h => hy (Int64.toInt_inj.1 h)

theorem mod_ne_zero_iff : x % y ≠ 0 ↔ x.toInt.tmod y.toInt ≠ 0 := by
  rw [ne_eq, ← Int64.toInt_inj, Int64.toInt_mod, Int64.toInt_zero]

theorem toInt_pred {q : Int64} (h : Int64.minValue.toInt ≤ q.toInt - 1) :
    (q - 1).toInt = q.toInt - 1 := by
  have hlt := Int64.toInt_lt q
  rw [Int64.toInt_minValue] at h
  rw [Int64.toInt_sub, Int64.toInt_one]
  exact Int.bmod_eq_of_le (by omega) (by omega)

/-- Of all quotients only that of the least word and minus one is no word. -/
theorem toInt_div (h : ¬ (x = Int64.minValue ∧ y = -1)) :
    (x / y).toInt = x.toInt.tdiv y.toInt := by
  by_cases hy : y = -1
  · exact Int64.toInt_div_of_ne_left x y fun hx => h ⟨hx, hy⟩
  · exact Int64.toInt_div_of_ne_right x y hy

/-- Within the range of a word, the quotient is rounded down. -/
theorem toInt_floorDiv (hy : y ≠ 0) (h : ¬ (x = Int64.minValue ∧ y = -1)) :
    (floorDiv x y).toInt = x.toInt.fdiv y.toInt := by
  have hdiv := toInt_div h
  simp only [floorDiv, fdiv_eq_ite (toInt_ne_zero hy), lt_zero_iff, mod_ne_zero_iff]
  split
  next hlower =>
    have hlt := minValue_lt_div hy (mod_ne_zero_iff.2 hlower.1)
    rw [toInt_pred (by omega), hdiv]
  next => exact hdiv

/-- The remainder is what is left of the quotient that is rounded down, and it always fits. -/
theorem toInt_floorMod (hy : y ≠ 0) : (floorMod x y).toInt = x.toInt.fmod y.toInt := by
  by_cases h : x = Int64.minValue ∧ y = -1
  · obtain ⟨rfl, rfl⟩ := h
    decide
  · have hbounds := fmod_bounds x.toInt y.toInt
    have hleast := Int64.le_toInt y
    have hgreatest := Int64.toInt_lt y
    have hzero := toInt_ne_zero hy
    rw [floorMod, Int64.toInt_sub, Int64.toInt_mul, Int.sub_bmod_bmod, toInt_floorDiv hy h,
      Int.mul_comm, ← Int.fmod_def]
    exact Int.bmod_eq_of_le (by omega) (by omega)

/-- `q` and `r` are the words for the rounded quotient of `x` and `y` and what it leaves. -/
structure FloorDivision (x y q r : Int64) : Prop where
  remainder : r.toInt = x.toInt - y.toInt * ⌊(x.toInt : ℚ) / y.toInt⌋
  sign : r = 0 ∨ (r < 0 ↔ y < 0)
  bound : |r.toInt| < |y.toInt|
  quotient : ¬ (x = Int64.minValue ∧ y = -1) → q.toInt = ⌊(x.toInt : ℚ) / y.toInt⌋
  wraps : x = Int64.minValue ∧ y = -1 → q = Int64.minValue
  whole : x.toInt ≡ q.toInt * y.toInt + r.toInt [ZMOD 2 ^ 64]
  /-- Where the truncated quotient has to be lowered, that is not below the least word. -/
  lowers : x % y ≠ 0 → (x < 0 ↔ ¬ y < 0) → Int64.minValue.toInt ≤ (x / y).toInt - 1

/-- Quotient and remainder are the words for the rounded ones, with the one quotient that wraps. -/
theorem floorDivision (x : Int64) (hy : y ≠ 0) :
    FloorDivision x y (floorDiv x y) (floorMod x y) := by
  have hmod := toInt_floorMod (x := x) hy
  have hbounds := fmod_bounds x.toInt y.toInt
  have hzero := toInt_ne_zero hy
  rw [← hmod] at hbounds
  refine ⟨?_, ?_, ?_, ?_, ?_, ?_, ?_⟩
  · rw [hmod, Int.fmod_def, fdiv_eq_floor]
  · rw [lt_zero_iff, lt_zero_iff, ← Int64.toInt_inj, Int64.toInt_zero]
    omega
  · rw [Int.abs_eq_natAbs, Int.abs_eq_natAbs]
    omega
  · intro h
    rw [toInt_floorDiv hy h, fdiv_eq_floor]
  · rintro ⟨rfl, rfl⟩
    decide
  · have hsum : floorDiv x y * y + floorMod x y = x := by
      rw [Int64.add_comm]
      exact Int64.sub_add_cancel x _
    have htotal := congrArg (fun w : Int64 => w.toInt % 2 ^ 64) hsum
    simp only [Int64.toInt_add, Int64.toInt_mul, Int.bmod_add_bmod] at htotal
    exact htotal.symm.trans Int.bmod_emod
  · intro hne _
    have hlt := minValue_lt_div hy hne
    omega

end Lisplet.Word
