import Mathlib.Algebra.Order.BigOperators.Group.Finset
import Mathlib.Tactic.Ring

/-! The Gregorian calendar, also before it was used: dates, the day after a date, the number of a
date, and timegm. -/
namespace Calendar

def isLeap (year : ℤ) : Bool := year % 4 == 0 && (year % 100 != 0 || year % 400 == 0)

/-- With the months since January. -/
def daysInMonth (year : ℤ) : ℕ → ℕ
  | 1 => if isLeap year then 29 else 28
  | 3 | 5 | 8 | 10 => 30
  | _ => 31

def daysBeforeMonth (year : ℤ) (month : ℕ) : ℕ := ∑ m ∈ Finset.range month, daysInMonth year m

/-- From the first day of 1970. -/
def daysBeforeYear (year : ℤ) : ℤ :=
  365 * (year - 1970) + ((year - 1) / 4 - (year - 1) / 100 + (year - 1) / 400 - 477)

variable {year : ℤ} {month : ℕ}

theorem daysInMonth_pos (year : ℤ) (month : ℕ) : 1 ≤ daysInMonth year month := by
  unfold daysInMonth
  split
  · split <;> decide
  all_goals decide

theorem daysInMonth_le (year : ℤ) (month : ℕ) : daysInMonth year month ≤ 31 := by
  unfold daysInMonth
  split
  · split <;> decide
  all_goals decide

theorem daysBeforeMonth_succ (year : ℤ) (month : ℕ) :
    daysBeforeMonth year (month + 1) = daysBeforeMonth year month + daysInMonth year month :=
  Finset.sum_range_succ _ _

theorem daysBeforeMonth_mono (year : ℤ) : Monotone (daysBeforeMonth year) := fun _ _ h =>
  Finset.sum_le_sum_of_subset (Finset.range_mono h)

theorem daysBeforeYear_succ (year : ℤ) :
    daysBeforeYear (year + 1) = daysBeforeYear year + daysBeforeMonth year 12 := by
  have hmonths : daysBeforeMonth year 12 = 337 + if isLeap year then 29 else 28 := by
    simp only [daysBeforeMonth, Finset.sum_range_succ, Finset.range_zero, Finset.sum_empty,
      daysInMonth]
    omega
  rw [hmonths]
  unfold daysBeforeYear
  split
  · rename_i hleap
    simp only [isLeap, Bool.and_eq_true, Bool.or_eq_true, beq_iff_eq, bne_iff_ne] at hleap
    omega
  rename_i hleap
  simp only [isLeap, Bool.and_eq_true, Bool.or_eq_true, beq_iff_eq, bne_iff_ne] at hleap
  omega

theorem daysBeforeYear_mono {year later : ℤ} (h : year ≤ later) :
    daysBeforeYear year ≤ daysBeforeYear later := by
  induction later, h using Int.leInduction with
  | base => exact Int.le_refl _
  | succ later _ ih =>
    rw [daysBeforeYear_succ]
    exact ih.trans (Int.le_add_of_nonneg_right (Int.natCast_nonneg _))

@[ext]
structure Date where
  year : ℤ
  /-- Since January. -/
  month : ℕ
  day : ℕ
  month_lt : month < 12
  day_pos : 1 ≤ day
  day_le : day ≤ daysInMonth year month

def epoch : Date := ⟨1970, 0, 1, by decide, by decide, by decide⟩

def Date.next (d : Date) : Date :=
  if h : d.day < daysInMonth d.year d.month then
    ⟨d.year, d.month, d.day + 1, d.month_lt, Nat.le_add_left 1 d.day, h⟩
  else if h : d.month + 1 < 12 then ⟨d.year, d.month + 1, 1, h, le_rfl, daysInMonth_pos _ _⟩
  else ⟨d.year + 1, 0, 1, by decide, le_rfl, daysInMonth_pos _ _⟩

/-- The second date comes that many days after the first one, or before it. -/
def DaysAfter (d e : Date) (n : ℤ) : Prop := Date.next^[n.toNat] d = Date.next^[(-n).toNat] e

def Date.dayNumber (d : Date) : ℤ :=
  daysBeforeYear d.year + daysBeforeMonth d.year d.month + (d.day - 1)

variable {d e : Date}

theorem dayNumber_epoch : epoch.dayNumber = 0 := rfl

theorem dayNumber_next (d : Date) : d.next.dayNumber = d.dayNumber + 1 := by
  have hle := d.day_le
  unfold Date.next
  split
  · unfold Date.dayNumber
    push_cast
    ring
  rename_i hday
  have hlast : d.day = daysInMonth d.year d.month := by omega
  split
  · unfold Date.dayNumber
    rw [daysBeforeMonth_succ, hlast]
    push_cast
    ring
  · rename_i hmonth
    have hdecember : d.month + 1 = 12 := by
      have hlt := d.month_lt
      omega
    have hyear := daysBeforeMonth_succ d.year d.month
    rw [hdecember] at hyear
    have hnone : daysBeforeMonth (d.year + 1) 0 = 0 := rfl
    unfold Date.dayNumber
    rw [daysBeforeYear_succ, hyear, hnone, hlast]
    push_cast
    ring

theorem dayNumber_iterate (d : Date) (n : ℕ) : (Date.next^[n] d).dayNumber = d.dayNumber + n := by
  induction n with
  | zero => exact (Int.add_zero _).symm
  | succ n ih =>
    rw [Function.iterate_succ_apply', dayNumber_next, ih]
    push_cast
    ring

theorem dayNumber_lt (d : Date) :
    d.dayNumber < daysBeforeYear d.year + daysBeforeMonth d.year (d.month + 1) := by
  have hle := d.day_le
  unfold Date.dayNumber
  rw [daysBeforeMonth_succ]
  omega

theorem le_dayNumber (d : Date) :
    daysBeforeYear d.year + daysBeforeMonth d.year d.month ≤ d.dayNumber := by
  have hpos := d.day_pos
  unfold Date.dayNumber
  omega

theorem dayNumber_year_lt (h : d.year < e.year) : d.dayNumber < e.dayNumber := by
  have hmonth := daysBeforeMonth_mono d.year d.month_lt
  calc d.dayNumber < daysBeforeYear d.year + daysBeforeMonth d.year (d.month + 1) := dayNumber_lt d
    _ ≤ daysBeforeYear d.year + daysBeforeMonth d.year 12 :=
      Int.add_le_add_left (Int.ofNat_le.mpr hmonth) _
    _ = daysBeforeYear (d.year + 1) := (daysBeforeYear_succ d.year).symm
    _ ≤ daysBeforeYear e.year := daysBeforeYear_mono h
    _ ≤ daysBeforeYear e.year + daysBeforeMonth e.year e.month :=
      Int.le_add_of_nonneg_right (Int.natCast_nonneg _)
    _ ≤ e.dayNumber := le_dayNumber e

theorem dayNumber_month_lt (hyear : d.year = e.year) (h : d.month < e.month) :
    d.dayNumber < e.dayNumber := by
  have hmonth := daysBeforeMonth_mono d.year h
  calc d.dayNumber < daysBeforeYear d.year + daysBeforeMonth d.year (d.month + 1) := dayNumber_lt d
    _ ≤ daysBeforeYear d.year + daysBeforeMonth d.year e.month :=
      Int.add_le_add_left (Int.ofNat_le.mpr hmonth) _
    _ ≤ e.dayNumber := hyear ▸ le_dayNumber e

theorem dayNumber_injective : Function.Injective Date.dayNumber := by
  intro d e h
  have hyear : d.year = e.year := by
    rcases lt_trichotomy d.year e.year with hlt | heq | hlt
    · exact absurd h (dayNumber_year_lt hlt).ne
    · exact heq
    · exact absurd h (dayNumber_year_lt hlt).ne'
  have hmonth : d.month = e.month := by
    rcases lt_trichotomy d.month e.month with hlt | heq | hlt
    · exact absurd h (dayNumber_month_lt hyear hlt).ne
    · exact heq
    · exact absurd h (dayNumber_month_lt hyear.symm hlt).ne'
  refine Date.ext hyear hmonth ?_
  unfold Date.dayNumber at h
  rw [hyear, hmonth] at h
  omega

theorem daysAfter_iff (n : ℤ) : DaysAfter d e n ↔ e.dayNumber = d.dayNumber + n := by
  unfold DaysAfter
  rw [← dayNumber_injective.eq_iff, dayNumber_iterate, dayNumber_iterate]
  omega

structure Tm where
  year : ℤ
  mon : ℤ
  mday : ℤ
  hour : ℤ
  min : ℤ
  sec : ℤ

/-- Fields out of their ranges count on. -/
def timegm (tm : Tm) : ℤ :=
  let year := tm.year + 1900 + tm.mon / 12
  let days := daysBeforeYear year + daysBeforeMonth year (tm.mon % 12).toNat + (tm.mday - 1)
  days * 86400 + tm.hour * 3600 + tm.min * 60 + tm.sec

theorem timegm_date (d : Date) (hour min sec : ℤ) :
    timegm ⟨d.year - 1900, d.month, d.day, hour, min, sec⟩ =
      d.dayNumber * 86400 + hour * 3600 + min * 60 + sec := by
  have hlt := d.month_lt
  have hdiv : (d.month : ℤ) / 12 = 0 := by omega
  have hmod : ((d.month : ℤ) % 12).toNat = d.month := by omega
  simp only [timegm, hdiv, hmod, Int.sub_add_cancel, Int.add_zero, Date.dayNumber]

end Calendar
