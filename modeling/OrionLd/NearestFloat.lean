import Mathlib.Data.Int.Log
import Mathlib.Data.Rat.Floor
import Mathlib.Tactic.Positivity

/-! Rounding to the nearest number of a binary floating point format, ties to even. A format has a
precision and a least exponent; numbers above its range are not treated here. -/
namespace NearestFloat

structure Format where
  precision : ℕ
  least : ℤ

def binary32 : Format := ⟨24, -149⟩

def binary64 : Format := ⟨53, -1074⟩

def halfEven (x : ℚ) : ℤ :=
  let low := ⌊x⌋
  if x - low < 1 / 2 ∨ x - low = 1 / 2 ∧ low % 2 = 0 then low else low + 1

def unitExponent (f : Format) (x : ℚ) : ℤ := max (Int.log 2 |x| - (f.precision - 1)) f.least

def nearest (f : Format) (x : ℚ) : ℚ :=
  if x = 0 then 0 else halfEven (x / 2 ^ unitExponent f x) * 2 ^ unitExponent f x

def truncate (x : ℚ) : ℤ := if x < 0 then -⌊-x⌋ else ⌊x⌋

variable {f : Format}

theorem halfEven_intCast (n : ℤ) : halfEven n = n := by
  unfold halfEven
  simp

theorem truncate_intCast (n : ℤ) : truncate n = n := by
  unfold truncate
  split
  · rw [← Int.cast_neg, Int.floor_intCast, neg_neg]
  · exact Int.floor_intCast n

theorem nearest_intCast (hleast : f.least ≤ 0) {n : ℤ} (hn : |n| < 2 ^ f.precision) :
    nearest f n = n := by
  unfold nearest
  split
  · rename_i hzero
    exact hzero.symm
  rename_i hne
  have hne' : (n : ℚ) ≠ 0 := hne
  have hpos : (0 : ℚ) < |(n : ℚ)| := abs_pos.mpr hne'
  have hlog : Int.log 2 |(n : ℚ)| < f.precision := by
    rw [← Int.lt_zpow_iff_log_lt one_lt_two hpos]
    exact_mod_cast hn
  have hunit : unitExponent f n ≤ 0 := by
    unfold unitExponent
    rw [max_le_iff]
    exact ⟨by omega, hleast⟩
  obtain ⟨k, hk⟩ := Int.eq_ofNat_of_zero_le (neg_nonneg.mpr hunit)
  have hexponent : unitExponent f n = -(k : ℤ) := by
    rw [← hk, neg_neg]
  rw [hexponent, zpow_neg, zpow_natCast, div_inv_eq_mul,
    show (n : ℚ) * 2 ^ k = ((n * 2 ^ k : ℤ) : ℚ) by push_cast; rfl, halfEven_intCast]
  push_cast
  field_simp

theorem nearest_zero : nearest f 0 = 0 := if_pos rfl

end NearestFloat
