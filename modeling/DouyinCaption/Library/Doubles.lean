import Mathlib.Algebra.Order.Ring.Rat
import Mathlib.Data.Int.Log
import Mathlib.Data.Rat.Floor

/-!
# Doubles

The value of an operation on doubles is the double `nearest` its exact value. A double is
`m * 2 ^ e` with a mantissa of at most 53 bits and `-1074 ≤ e`; there is no largest one here.
-/

namespace DouyinCaption.Doubles

/-- The nearest integer, of two the even one. -/
def roundHalfEven (x : ℚ) : ℤ :=
  let n := ⌊x⌋
  if x - n < 1 / 2 then n
  else if 1 / 2 < x - n then n + 1
  else if n % 2 = 0 then n
  else n + 1

/-- The distance of doubles near `x` is two to the power of this. -/
def exponent (x : ℚ) : ℤ := max (Int.log 2 |x| - 52) (-1074)

/-- The nearest double. -/
def nearest (x : ℚ) : ℚ := roundHalfEven (x / 2 ^ exponent x) * 2 ^ exponent x

/-- 0.3 and 60.3 are decimals, not doubles, and sixty more than the one is not the other. -/
example : nearest (nearest (3 / 10) + 60) = nearest (603 / 10) ∧
    nearest (603 / 10) < nearest (3 / 10) + 60 := by decide +kernel

theorem roundHalfEven_intCast (n : ℤ) : roundHalfEven n = n := by
  simp [roundHalfEven]

/-- Doubles near `m * 2 ^ e` are not further apart than `2 ^ e`. -/
theorem exponent_le {m e : ℤ} (hne : m ≠ 0) (hm : |m| < 2 ^ 53) (he : -1074 ≤ e) :
    exponent (m * 2 ^ e) ≤ e := by
  refine max_le ?_ he
  have htwo : (0 : ℚ) < 2 ^ e := zpow_pos two_pos e
  have hpos : 0 < |(m : ℚ) * 2 ^ e| :=
    abs_pos.mpr (mul_ne_zero (Int.cast_ne_zero.mpr hne) htwo.ne')
  have hlt : |(m : ℚ) * 2 ^ e| < ((2 : ℕ) : ℚ) ^ (53 + e) := by
    have hm : |(m : ℚ)| < 2 ^ 53 := by exact_mod_cast hm
    rw [abs_mul, abs_of_pos htwo, Nat.cast_ofNat, zpow_add₀ two_ne_zero]
    exact mul_lt_mul_of_pos_right hm htwo
  have hlog := (Int.lt_zpow_iff_log_lt one_lt_two hpos).mp hlt
  omega

/-- A double is itself. -/
theorem nearest_mul_zpow {m e : ℤ} (hm : |m| < 2 ^ 53) (he : -1074 ≤ e) :
    nearest (m * 2 ^ e) = m * 2 ^ e := by
  rcases eq_or_ne m 0 with rfl | hne
  · simp [nearest, roundHalfEven]
  -- it is a whole number of distances
  obtain ⟨k, hk⟩ := Int.le.dest (exponent_le hne hm he)
  have hwhole : (m : ℚ) * 2 ^ e / 2 ^ exponent (m * 2 ^ e) = ((m * 2 ^ k : ℤ) : ℚ) := by
    generalize exponent (m * 2 ^ e) = d at hk ⊢
    subst hk
    rw [zpow_add₀ two_ne_zero, zpow_natCast, mul_div_assoc, mul_div_cancel_left₀]
    · push_cast
      rfl
    · exact (zpow_pos two_pos d).ne'
  rw [nearest, hwhole, roundHalfEven_intCast, ← hwhole]
  exact div_mul_cancel₀ _ (zpow_pos two_pos _).ne'

theorem nearest_intCast {n : ℤ} (hn : |n| < 2 ^ 53) : nearest n = n := by
  have h := nearest_mul_zpow hn (e := 0) (by decide)
  rwa [zpow_zero, mul_one] at h

end DouyinCaption.Doubles
