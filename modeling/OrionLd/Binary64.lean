import Mathlib.Algebra.CharP.Defs
import Mathlib.Algebra.Field.Rat
import Mathlib.Tactic.Linarith
import Mathlib.Tactic.NormNum
import Mathlib.Tactic.Positivity

/-! Doubles of IEEE 754 as patterns of 64 bits, as far as they are compared. Two patterns that
compare as equal are one, or two zeros, and a pattern that is not a number differs from all. -/
namespace Binary64

open Float.Model

inductive Double where
  | nan
  | infinite (negative : Bool)
  | finite (x : ℚ)
  deriving DecidableEq

def Double.equal (a b : Double) : Bool := a ≠ .nan && a = b

theorem Double.equal_iff {a b : Double} : a.equal b = true ↔ a ≠ .nan ∧ a = b := by
  simp [Double.equal]

def signed (negative : Bool) (x : ℚ) : ℚ := if negative then -x else x

def isNegative : UnpackedFloat.Sign → Bool
  | .negative => true
  | .positive => false

def valueOf : UnpackedFloat → Double
  | .infinity s => .infinite (isNegative s)
  | .notANumber => .nan
  | .zero _ => .finite 0
  | .finite s m e _ => .finite (signed (isNegative s) (m * 2 ^ e))

def ofBits (b : BitVec 64) : Double := valueOf (UnpackedFloat.unpack Format.binary64 b)

variable {b c : BitVec 64}

def fraction (b : BitVec 64) : ℕ := b.toNat % 2 ^ 52

def exponentField (b : BitVec 64) : ℕ := b.toNat / 2 ^ 52 % 2 ^ 11

def negative (b : BitVec 64) : Bool := decide (2 ^ 63 ≤ b.toNat)

/-- The fraction with the implicit bit of a normal number. -/
def significand (b : BitVec 64) : ℕ :=
  if exponentField b = 0 then fraction b else 2 ^ 52 + fraction b

def shift (b : BitVec 64) : ℕ := exponentField b - 1

theorem fraction_lt (b : BitVec 64) : fraction b < 2 ^ 52 := Nat.mod_lt _ (by decide)

theorem toNat_mantissa (b : BitVec 64) :
    (@UnpackedFloat.unpackMantissa Format.binary64 b).toNat = fraction b := by
  simp [UnpackedFloat.unpackMantissa, fraction]

theorem toNat_exponent (b : BitVec 64) :
    (@UnpackedFloat.unpackExponent Format.binary64 b).toNat = exponentField b := by
  simp [UnpackedFloat.unpackExponent, exponentField, Nat.shiftRight_eq_div_pow]

theorem sign_negative (b : BitVec 64) :
    isNegative (.ofBitVec (@UnpackedFloat.unpackSign Format.binary64 b)) = negative b := by
  have hbit : @UnpackedFloat.unpackSign Format.binary64 b = b.extractLsb 63 63 := rfl
  have hsign : (@UnpackedFloat.unpackSign Format.binary64 b).toNat = b.toNat / 2 ^ 63 := by
    rw [hbit, BitVec.extractLsb_toNat, Nat.shiftRight_eq_div_pow]
    omega
  unfold UnpackedFloat.Sign.ofBitVec negative
  by_cases hnegative : 2 ^ 63 ≤ b.toNat
  · have hone : @UnpackedFloat.unpackSign Format.binary64 b ≠ 0#1 := by
      intro h
      rw [h] at hsign
      simp only [BitVec.toNat_ofNat] at hsign
      omega
    rw [if_neg hone, decide_eq_true hnegative]
    rfl
  · have hzero : @UnpackedFloat.unpackSign Format.binary64 b = 0#1 := by
      apply BitVec.eq_of_toNat_eq
      simp only [BitVec.toNat_ofNat]
      omega
    rw [if_pos hzero, decide_eq_false hnegative]
    rfl

theorem exponent_eq {k : ℕ} (hk : k < 2 ^ 11) :
    @UnpackedFloat.unpackExponent Format.binary64 b = BitVec.ofNat 11 k ↔ exponentField b = k := by
  rw [← toNat_exponent, ← BitVec.toNat_inj, BitVec.toNat_ofNat, Nat.mod_eq_of_lt hk]

theorem mantissa_eq_zero :
    @UnpackedFloat.unpackMantissa Format.binary64 b = 0#52 ↔ fraction b = 0 := by
  rw [← toNat_mantissa, ← BitVec.toNat_inj]
  rfl

theorem ofBits_top (h : exponentField b = 2047) :
    ofBits b = if fraction b = 0 then .infinite (negative b) else .nan := by
  have hexponent : @UnpackedFloat.unpackExponent Format.binary64 b = -1#11 :=
    (exponent_eq (by decide)).mpr h
  unfold ofBits UnpackedFloat.unpack
  rw [if_pos hexponent]
  by_cases hzero : fraction b = 0
  · rw [if_pos hzero, if_pos (mantissa_eq_zero.mpr hzero), ← sign_negative]
    rfl
  · rw [if_neg hzero, if_neg (mantissa_eq_zero.not.mpr hzero)]
    rfl

theorem ofBits_subnormal (h : exponentField b = 0) :
    ofBits b = .finite (signed (negative b) (fraction b * 2 ^ (-1074 : ℤ))) := by
  have hexponent : @UnpackedFloat.unpackExponent Format.binary64 b = 0#11 :=
    (exponent_eq (by decide)).mpr h
  have htop : @UnpackedFloat.unpackExponent Format.binary64 b ≠ -1#11 := by
    rw [hexponent]
    decide
  unfold ofBits UnpackedFloat.unpack
  rw [if_neg htop, if_pos hexponent]
  by_cases hzero : fraction b = 0
  · rw [dif_pos (mantissa_eq_zero.mpr hzero), hzero]
    change Double.finite 0 = _
    simp [signed]
  · rw [dif_neg (mantissa_eq_zero.not.mpr hzero), hexponent]
    change Double.finite (signed (isNegative _) (_ * 2 ^ (_ : ℤ))) = _
    rw [sign_negative, toNat_mantissa]
    simp [Format.exponentBias]

theorem ofBits_normal (hlow : exponentField b ≠ 0) (hhigh : exponentField b ≠ 2047) :
    ofBits b = .finite (signed (negative b)
      ((2 ^ 52 + fraction b : ℕ) * 2 ^ ((exponentField b : ℤ) - 1075))) := by
  have htop : @UnpackedFloat.unpackExponent Format.binary64 b ≠ -1#11 :=
    (exponent_eq (k := 2047) (by decide)).not.mpr hhigh
  have hbottom : @UnpackedFloat.unpackExponent Format.binary64 b ≠ 0#11 :=
    (exponent_eq (by decide)).not.mpr hlow
  have hbits : (1#1 ++ @UnpackedFloat.unpackMantissa Format.binary64 b).toNat =
      2 ^ 52 + fraction b := by
    rw [BitVec.toNat_append, toNat_mantissa, ← Nat.shiftLeft_add_eq_or_of_lt (fraction_lt b)]
    rfl
  unfold ofBits UnpackedFloat.unpack
  rw [if_neg htop, if_neg hbottom]
  change Double.finite (signed (isNegative _) ((_ : ℕ) * 2 ^ (_ : ℤ))) = _
  rw [hbits, sign_negative, toNat_exponent]
  rfl

theorem ofBits_finite (h : exponentField b ≠ 2047) : ofBits b =
    .finite (signed (negative b) ((significand b * 2 ^ shift b : ℕ) * 2 ^ (-1074 : ℤ))) := by
  by_cases hlow : exponentField b = 0
  · have hsignificand : significand b = fraction b := if_pos hlow
    rw [ofBits_subnormal hlow, hsignificand, shift, hlow]
    simp
  have hsignificand : significand b = 2 ^ 52 + fraction b := if_neg hlow
  have hpow : (2 : ℚ) ^ shift b * 2 ^ (-1074 : ℤ) = 2 ^ ((exponentField b : ℤ) - 1075) := by
    rw [← zpow_natCast, ← zpow_add₀ two_ne_zero]
    congr 1
    unfold shift
    omega
  rw [ofBits_normal hlow h, hsignificand, Nat.cast_mul, Nat.cast_pow, Nat.cast_ofNat, mul_assoc,
    hpow]

theorem ofBits_eq_nan : ofBits b = .nan ↔ exponentField b = 2047 ∧ fraction b ≠ 0 := by
  by_cases htop : exponentField b = 2047
  · rw [ofBits_top htop]
    by_cases hzero : fraction b = 0
    · simp [hzero]
    · simp [hzero, htop]
  · rw [ofBits_finite htop]
    simp [htop]

/-- The patterns of two's complement that are no number. -/
theorem ofInt_eq_nan {i : ℤ} (hlow : -2 ^ 63 ≤ i) (hhigh : i < 2 ^ 63) :
    ofBits (BitVec.ofInt 64 i) = .nan ↔ -2 ^ 52 < i ∧ i < 0 ∨ 2 ^ 63 - 2 ^ 52 < i := by
  have hnat : ((BitVec.ofInt 64 i).toNat : ℤ) = i % 2 ^ 64 := by
    rw [BitVec.toNat_ofInt]
    omega
  rw [ofBits_eq_nan]
  unfold exponentField fraction
  omega

end Binary64
