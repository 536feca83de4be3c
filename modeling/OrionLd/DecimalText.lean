import Mathlib.Data.List.TakeWhile
import Mathlib.Data.Rat.Floor

/-! Decimal numbers as texts: digits with an optional sign and an optional fraction, and the
number that they stand for. -/
namespace DecimalText

open List

def fraction : List Char → Option (List Char)
  | [] => some []
  | c :: digits => if c = '.' ∧ digits.all Char.isDigit then some digits else none

def unsignedValue (t : List Char) : Option ℚ :=
  let whole := t.takeWhile Char.isDigit
  if whole = [] then none
  else (fraction (t.dropWhile Char.isDigit)).map fun digits =>
    (Nat.ofDigitChars 10 (whole ++ digits) 0 : ℚ) / 10 ^ digits.length

def decimalValue : List Char → Option ℚ
  | [] => none
  | c :: t => if c = '-' then (unsignedValue t).map Neg.neg else unsignedValue (c :: t)

def isNumeric (c : Char) : Bool := c.isDigit || c = '.' || c = '-'

variable {whole digits : List Char}

theorem isDigit_of_toDigits {n : ℕ} {c : Char} (h : c ∈ Nat.toDigits 10 n) : c.isDigit = true :=
  Nat.isDigit_of_mem_toDigits (by decide) (by decide) h

theorem all_toDigits (n : ℕ) : (Nat.toDigits 10 n).all Char.isDigit = true :=
  all_eq_true.mpr fun _ => isDigit_of_toDigits

theorem unsignedValue_whole (hall : whole.all Char.isDigit = true) (hne : whole ≠ []) :
    unsignedValue whole = some (Nat.ofDigitChars 10 whole 0 : ℚ) := by
  have hdigits : ∀ c ∈ whole, c.isDigit = true := all_eq_true.mp hall
  have htake : whole.takeWhile Char.isDigit = whole := takeWhile_eq_self_iff.mpr hdigits
  unfold unsignedValue
  rw [htake, dropWhile_eq_nil_iff.mpr hdigits, if_neg hne]
  simp [fraction]

theorem unsignedValue_fixed (hall : whole.all Char.isDigit = true) (hne : whole ≠ [])
    (hdigits : digits.all Char.isDigit = true) :
    unsignedValue (whole ++ '.' :: digits) =
      some ((Nat.ofDigitChars 10 (whole ++ digits) 0 : ℚ) / 10 ^ digits.length) := by
  have hwhole : ∀ c ∈ whole, c.isDigit = true := all_eq_true.mp hall
  have htake : (whole ++ '.' :: digits).takeWhile Char.isDigit = whole := by
    rw [takeWhile_append_of_pos hwhole, takeWhile_cons_of_neg (by decide),
      append_nil]
  have hdrop : (whole ++ '.' :: digits).dropWhile Char.isDigit = '.' :: digits := by
    rw [dropWhile_append_of_pos hwhole, dropWhile_cons_of_neg (by decide)]
  unfold unsignedValue
  rw [htake, hdrop, if_neg hne, fraction, if_pos ⟨rfl, hdigits⟩]
  rfl

theorem decimalValue_signed {t : List Char} {x : ℚ} (negative : Bool)
    (hstart : ∀ c ∈ t.head?, c.isDigit = true) (h : unsignedValue t = some x) :
    decimalValue ((if negative then ['-'] else []) ++ t) = some (if negative then -x else x) := by
  cases negative with
  | true =>
    change (if '-' = '-' then (unsignedValue t).map Neg.neg else unsignedValue ('-' :: t)) = _
    rw [if_pos rfl, h]
    rfl
  | false =>
    cases t with
    | nil => cases h
    | cons c t =>
      have hc : c ≠ '-' := by
        rintro rfl
        exact absurd (hstart '-' rfl) (by decide)
      change (if c = '-' then (unsignedValue t).map Neg.neg else unsignedValue (c :: t)) = _
      rw [if_neg hc, h]
      rfl

theorem head_digits (hall : whole.all Char.isDigit = true) (t : List Char) (hne : whole ≠ []) :
    ∀ c ∈ (whole ++ t).head?, c.isDigit = true := by
  intro c hc
  obtain ⟨d, ds, rfl⟩ := exists_cons_of_ne_nil hne
  cases hc
  exact all_eq_true.mp hall _ mem_cons_self

theorem decimalValue_int (negative : Bool) (n : ℕ) :
    decimalValue ((if negative then ['-'] else []) ++ Nat.toDigits 10 n) =
      some (if negative then -(n : ℚ) else n) := by
  have hvalue := unsignedValue_whole (all_toDigits n) Nat.toDigits_ne_nil
  rw [Nat.ofDigitChars_toDigits (by decide) (by decide)] at hvalue
  have hstart := head_digits (all_toDigits n) [] Nat.toDigits_ne_nil
  rw [append_nil] at hstart
  exact decimalValue_signed negative hstart hvalue

def padded (width n : ℕ) : List Char :=
  List.replicate (width - (Nat.toDigits 10 n).length) '0' ++ Nat.toDigits 10 n

theorem all_padded (width n : ℕ) : (padded width n).all Char.isDigit = true := by
  unfold padded
  rw [all_append, all_toDigits, all_replicate]
  split <;> rfl

theorem length_padded {width n : ℕ} (hwidth : 0 < width) (h : n < 10 ^ width) :
    (padded width n).length = width := by
  have hle : (Nat.toDigits 10 n).length ≤ width :=
    (Nat.length_toDigits_le_iff (by decide) hwidth).mpr h
  unfold padded
  rw [length_append, length_replicate]
  omega

theorem ofDigitChars_padded (width n init : ℕ) (hwidth : 0 < width) (h : n < 10 ^ width) :
    Nat.ofDigitChars 10 (padded width n) init = 10 ^ width * init + n := by
  rw [Nat.ofDigitChars_eq_ofDigitChars_zero, length_padded hwidth h]
  unfold padded
  rw [Nat.ofDigitChars_append, Nat.ofDigitChars_replicate_zero, Nat.mul_zero,
    Nat.ofDigitChars_toDigits (by decide) (by decide)]

theorem decimalValue_fixed (negative : Bool) (width n : ℕ) (hwidth : 0 < width) :
    decimalValue ((if negative then ['-'] else []) ++ (Nat.toDigits 10 (n / 10 ^ width) ++
        '.' :: padded width (n % 10 ^ width))) =
      some (if negative then -((n : ℚ) / 10 ^ width) else (n : ℚ) / 10 ^ width) := by
  have hmod : n % 10 ^ width < 10 ^ width := Nat.mod_lt n (Nat.pow_pos (by decide))
  have hvalue := unsignedValue_fixed (all_toDigits (n / 10 ^ width)) Nat.toDigits_ne_nil
    (all_padded width (n % 10 ^ width))
  rw [Nat.ofDigitChars_append, Nat.ofDigitChars_toDigits (by decide) (by decide),
    ofDigitChars_padded width _ _ hwidth hmod, Nat.div_add_mod, length_padded hwidth hmod]
    at hvalue
  exact decimalValue_signed negative (head_digits (all_toDigits _) _ Nat.toDigits_ne_nil) hvalue

end DecimalText
