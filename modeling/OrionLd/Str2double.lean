import OrionLd.KjTree
import OrionLd.Strtod

/-! str2double of string.cpp. A text without a number is taken as zero, since the pointer that
strtod gives back is then at the beginning of the text, and only white space is asked for there. -/
namespace Str2double

open KjTree Scanf Strtod List
open Binary64 (Double)
open NearestFloat

/-- None where the function returns false. -/
def str2double (s : Text) : Option Double :=
  let conversion := strtod s
  if conversion.erange then none
  else if skipSpace conversion.rest = [] then some conversion.value
  else none

def Blank (t : Text) : Prop := ∀ c ∈ t, isSpace c = true

def Reads (s t : Text) : Prop :=
  ∃ a b, Blank a ∧ Blank b ∧ s = a ++ (t ++ b) ∧ Accepts .start t

variable {s t u : Text} {x : ℚ}

theorem skipSpace_eq_nil : skipSpace s = [] ↔ Blank s := by
  unfold skipSpace
  rw [dropWhile_eq_nil_iff]
  rfl

variable {a b : Text}

theorem skipSpace_blank (ha : Blank a) (s : Text) : skipSpace (a ++ s) = skipSpace s :=
  dropWhile_append_of_pos ha

theorem skipSpace_split (s : Text) : ∃ a, Blank a ∧ s = a ++ skipSpace s := by
  refine ⟨s.takeWhile isSpace, ?_, takeWhile_append_dropWhile.symm⟩
  intro c hc
  exact mem_takeWhile_imp hc

theorem skipSpace_number (h : Accepts .start t) (b : Text) : skipSpace (t ++ b) = t ++ b := by
  cases t with
  | nil => cases h
  | cons c t =>
    obtain ⟨next, hstep, -⟩ := h
    refine skipSpace_of_false ?_
    by_contra hc
    rw [Bool.not_eq_false] at hc
    rw [step_foreign wordy_start (foreign_space hc)] at hstep
    cases hstep

theorem blank_head (hb : Blank b) : ∀ c ∈ b.head?, Foreign c :=
  fun c hc => foreign_space (hb c (mem_of_mem_head? hc))

theorem longest_reads (ha : Blank a) (hb : Blank b) (h : Accepts .start t) :
    longest .start (skipSpace (a ++ (t ++ b))) = some (t, b) := by
  rw [skipSpace_blank ha, skipSpace_number h]
  exact longest_foreign h (blank_head hb)

theorem Reads.unique (h : Reads s t) (h' : Reads s u) : t = u := by
  obtain ⟨a, b, ha, hb, rfl, ht⟩ := h
  obtain ⟨a', b', ha', hb', heq, hu⟩ := h'
  have hlongest := longest_reads ha hb ht
  rw [heq, longest_reads ha' hb' hu] at hlongest
  exact (Prod.mk.inj (Option.some.inj hlongest)).1.symm

theorem str2double_reads (h : Reads s t) :
    str2double s = if (exactOf t).any outOfRange then none else some (realOf t) := by
  obtain ⟨a, b, ha, hb, rfl, ht⟩ := h
  unfold str2double strtod
  simp only [longest_reads ha hb ht, skipSpace_eq_nil.mpr hb, if_true]

theorem str2double_blank (h : Blank s) : str2double s = some (.finite 0) := by
  have hstrtod : strtod s = ⟨.finite 0, false, s⟩ := by
    unfold strtod
    rw [skipSpace_eq_nil.mpr h]
    rfl
  unfold str2double
  rw [hstrtod, if_neg Bool.false_ne_true, if_pos (skipSpace_eq_nil.mpr h)]

/-- What is taken is white space, or has a number in it. -/
theorem str2double_some {d : Double} : str2double s = some d ↔ Blank s ∧ d = .finite 0 ∨
    ∃ t, Reads s t ∧ d = realOf t ∧ (exactOf t).any outOfRange = false := by
  constructor
  · intro h
    unfold str2double strtod at h
    obtain ⟨a, ha, hs⟩ := skipSpace_split s
    cases hlongest : longest .start (skipSpace s) with
    | none =>
      simp only [hlongest, Bool.false_eq_true, if_false] at h
      split at h
      · rename_i hblank
        exact .inl ⟨skipSpace_eq_nil.mp hblank, (Option.some.inj h).symm⟩
      · cases h
    | some r =>
      obtain ⟨t, rest⟩ := r
      simp only [hlongest] at h
      obtain ⟨htext, haccepts⟩ := longest_accepts hlongest
      split at h
      · cases h
      rename_i hrange
      split at h
      · rename_i hblank
        refine .inr ⟨t, ⟨a, rest, ha, skipSpace_eq_nil.mp hblank, ?_, haccepts⟩,
          (Option.some.inj h).symm, Bool.not_eq_true _ ▸ hrange⟩
        rw [← htext]
        exact hs
      · cases h
  · rintro (⟨hblank, rfl⟩ | ⟨t, ht, rfl, hrange⟩)
    · exact str2double_blank hblank
    · rw [str2double_reads ht, hrange]
      exact if_neg Bool.false_ne_true

theorem Blank.append (ha : Blank a) (hb : Blank b) : Blank (a ++ b) :=
  forall_mem_append.mpr ⟨ha, hb⟩

theorem Reads.not_blank (h : Reads s t) : ¬ Blank s := by
  intro hblank
  obtain ⟨a, b, ha, hb, rfl, ht⟩ := h
  have hlongest := longest_reads ha hb ht
  rw [skipSpace_eq_nil.mpr hblank] at hlongest
  cases hlongest

theorem reads_blanks (ha : Blank a) (hb : Blank b) : Reads (a ++ (s ++ b)) t ↔ Reads s t := by
  constructor
  · rintro ⟨a', b', ha', hb', heq, ht⟩
    obtain ⟨c, hc, hs⟩ := skipSpace_split s
    have hlongest := longest_reads ha' hb' ht
    rw [← heq, skipSpace_blank ha] at hlongest
    by_cases hblank : Blank s
    · have hboth := skipSpace_eq_nil.mpr (hblank.append hb)
      rw [hboth] at hlongest
      cases hlongest
    have hne : skipSpace s ≠ [] := fun h => hblank (skipSpace_eq_nil.mp h)
    have hskip : skipSpace (s ++ b) = skipSpace s ++ b := by
      unfold skipSpace at hne ⊢
      rw [dropWhile_append, if_neg (by simpa using hne)]
    rw [hskip] at hlongest
    have htext := (longest_accepts hlongest).1
    rcases append_eq_append_iff.mp htext with ⟨more, hmore, hrest⟩ | ⟨more, hmore, hrest⟩
    · -- the number would go on in the white space
      cases more with
      | nil => exact ⟨c, [], hc, fun _ h => (nomatch h), by rw [hs, hmore]; simp, ht⟩
      | cons d more =>
        have hspace := hb d (by rw [hrest]; exact mem_cons_self)
        refine absurd ?_ (accepts_foreign wordy_start ht (foreign_space hspace))
        rw [hmore]
        exact mem_append_right _ mem_cons_self
    · refine ⟨c, more, hc, ?_, by rw [← hmore]; exact hs, ht⟩
      intro d hd
      exact hb' d (hrest ▸ mem_append_left _ hd)
  · rintro ⟨a', b', ha', hb', rfl, ht⟩
    refine ⟨a ++ a', b' ++ b, ha.append ha', hb'.append hb, ?_, ht⟩
    simp

theorem blank_blanks (ha : Blank a) (hb : Blank b) : Blank (a ++ (s ++ b)) ↔ Blank s := by
  constructor
  · intro h c hc
    exact h c (mem_append_right _ (mem_append_left _ hc))
  · intro h
    exact ha.append (h.append hb)

theorem str2double_blanks (ha : Blank a) (hb : Blank b) :
    str2double (a ++ (s ++ b)) = str2double s := by
  apply Option.ext
  intro d
  simp only [str2double_some, reads_blanks ha hb, blank_blanks ha hb]

theorem finite_of_range (h : outOfRange x = false) :
    realOf.finite x = .finite (nearest binary64 x) := by
  unfold outOfRange at h
  rw [Bool.or_eq_false_iff, decide_eq_false_iff_not] at h
  unfold realOf.finite
  simp only [if_neg h.1]

theorem str2double_exact (h : Reads s t) (hexact : exactOf t = some x)
    (hreal : realOf t = realOf.finite x) :
    str2double s = if outOfRange x then none else some (.finite (nearest binary64 x)) := by
  rw [str2double_reads h, hexact, Option.any_some]
  cases hrange : outOfRange x with
  | false => rw [hreal, finite_of_range hrange]
  | true => rfl

theorem str2double_decimal (ha : Blank a) (hb : Blank b) (h : IsDecimal t x) :
    str2double (a ++ (t ++ b)) =
      if outOfRange x then none else some (.finite (nearest binary64 x)) :=
  str2double_exact ⟨a, b, ha, hb, rfl, accepts_kinds.mpr (.inl ⟨x, h⟩)⟩ (exactOf_decimal h).1
    (exactOf_decimal h).2

theorem halfEven_le {y : ℚ} {n : ℤ} (h : y ≤ n) : halfEven y ≤ n := by
  have hfloor : ⌊y⌋ ≤ n := by
    have hle := Int.floor_mono h
    rwa [Int.floor_intCast] at hle
  unfold halfEven
  dsimp only
  split
  · exact hfloor
  rename_i hhalf
  by_contra hlt
  have hn : ⌊y⌋ = n := by omega
  apply hhalf
  left
  rw [hn]
  linarith

theorem le_halfEven {y : ℚ} {n : ℤ} (h : (n : ℚ) ≤ y) : n ≤ halfEven y := by
  have hfloor : n ≤ ⌊y⌋ := Int.le_floor.mpr h
  unfold halfEven
  dsimp only
  split <;> omega

theorem abs_nearest_le {n : ℕ} (hn : n < 2 ^ 52) (h : |x| ≤ n) : |nearest binary64 x| ≤ n := by
  unfold nearest
  split
  · rw [abs_zero]
    exact Nat.cast_nonneg n
  rename_i hne
  have hpos : 0 < |x| := abs_pos.mpr hne
  have hunit : NearestFloat.unitExponent binary64 x ≤ 0 := by
    have hlog : Int.log 2 |x| < (52 : ℕ) := by
      rw [← Int.lt_zpow_iff_log_lt one_lt_two hpos, zpow_natCast]
      calc |x| ≤ n := h
        _ < (2 ^ 52 : ℕ) := by exact_mod_cast hn
        _ = _ := by norm_num
    unfold NearestFloat.unitExponent
    rw [max_le_iff]
    exact ⟨by simp only [binary64]; omega, by decide⟩
  obtain ⟨k, hk⟩ := Int.eq_ofNat_of_zero_le (neg_nonneg.mpr hunit)
  have hexponent : NearestFloat.unitExponent binary64 x = -(k : ℤ) := by rw [← hk, neg_neg]
  have hpow : (0 : ℚ) < 2 ^ k := by positivity
  rw [hexponent, zpow_neg, zpow_natCast, div_inv_eq_mul, ← div_eq_mul_inv, abs_le]
  rw [abs_le] at h
  have hhigh : x * 2 ^ k ≤ ((n * 2 ^ k : ℤ) : ℚ) := by
    push_cast
    exact mul_le_mul_of_nonneg_right h.2 hpow.le
  have hlow : ((-(n * 2 ^ k) : ℤ) : ℚ) ≤ x * 2 ^ k := by
    push_cast
    rw [← neg_mul]
    exact mul_le_mul_of_nonneg_right h.1 hpow.le
  have hle : ((halfEven (x * 2 ^ k) : ℤ) : ℚ) ≤ ((n * 2 ^ k : ℤ) : ℚ) :=
    Int.cast_le.mpr (halfEven_le hhigh)
  have hge : ((-(n * 2 ^ k) : ℤ) : ℚ) ≤ ((halfEven (x * 2 ^ k) : ℤ) : ℚ) :=
    Int.cast_le.mpr (le_halfEven hlow)
  push_cast at hle hge
  constructor
  · rw [le_div_iff₀ hpow, neg_mul]
    exact hge
  · rw [div_le_iff₀ hpow]
    exact hle

end Str2double
