import OrionLd.DocumentedTimes
import Mathlib.Data.NNRat.Floor
import Mathlib.Tactic.IntervalCases

/-! The date-times that the broker writes. The decimals of the second are corrected upwards apart
from the second, and have four digits in the last microsecond of every second. -/
namespace NumberToDate

open KjTree (Text)
open Calendar (Date)
open DocumentedTimes
open Parse8601Time (parse8601Time)

structure Tm where
  date : Date
  hour : Fin 24
  min : Fin 60
  sec : Fin 60

def gmtime_r (fromEpoch : ℕ) : Tm where
  date := Date.next^[fromEpoch / 86400] Calendar.epoch
  hour := ⟨fromEpoch / 3600 % 24, Nat.mod_lt _ (by decide)⟩
  min := ⟨fromEpoch / 60 % 60, Nat.mod_lt _ (by decide)⟩
  sec := ⟨fromEpoch % 60, Nat.mod_lt _ (by decide)⟩

def timeText (tm : Tm) : Text :=
  Nat.toDigits 10 tm.date.year.toNat ++ '-' ::
      (two (tm.date.month + 1) ++ '-' :: (two tm.date.day ++
    'T' :: (two tm.hour ++ ':' :: (two tm.min ++ ':' :: two tm.sec))))

-- What is in a buffer that is too small.
variable (undefined : Text)

def strftime (dateLen : ℕ) (tm : Tm) : Text :=
  if (timeText tm).length < dateLen then timeText tm else undefined

def dMicros (millis : ℚ≥0) : ℕ := ⌊millis * 1000000⌋₊ + 1
def dMillis (millis : ℚ≥0) : ℕ := dMicros millis / 1000

def decimals (dMillis : ℕ) : Text := '.' :: ((Nat.toDigits 10 dMillis).leftpad 3 '0' ++ ['Z'])

def numberToDate (timestamp : ℚ≥0) (dateLen : ℕ) : Option Text :=
  let fromEpoch := ⌊timestamp⌋₊
  let millis := timestamp - fromEpoch
  let date := strftime undefined dateLen (gmtime_r fromEpoch)
  if dateLen ≤ date.length + 5 then none
  else
    some (date ++ (decimals (dMillis millis)).take (dateLen - date.length - 1))

structure Time where
  seconds : ℚ≥0
  lt : seconds < 253402300800

def three (n : ℕ) : Text := Nat.digitChar (n / 100) :: two (n % 100)

/-- The text has three decimals, means the time to the millisecond, and is read as its second. -/
def Rendered (t : Time) (date : Text) : Prop :=
  ∃ (stamp : Stamp) (h : Fin 24) (m s : Fin 60) (n : ℤ) (ms : Fin 1000),
    stamp.clock = .seconds true h m s ∧ stamp.zone = .absent ∧
    date = stamp.text ++ '.' :: (three ms ++ ['Z']) ∧
    stamp.Means n ∧ |(n : ℚ) + ms / 1000 - t.seconds| < 1 / 1000 ∧
    parse8601Time stamp.text = some (⌊t.seconds⌋₊ : ℚ)

variable {n : ℕ}

theorem toDigits_two (hlow : 10 ≤ n) (hhigh : n < 100) : Nat.toDigits 10 n = two n := by
  rw [Nat.toDigits_of_base_le (by decide) hlow, Nat.toDigits_of_lt_base (by omega)]
  rfl

theorem toDigits_year {y : ℕ} (hlow : 1000 ≤ y) (hhigh : y < 10000) :
    Nat.toDigits 10 y = two (y / 100) ++ two (y % 100) := by
  have hmod : y / 10 % 10 = y % 100 / 10 := by omega
  have hlast : y % 100 % 10 = y % 10 := by omega
  rw [Nat.toDigits_of_base_le (by decide) (by omega),
    Nat.toDigits_of_base_le (by decide) (by omega), Nat.div_div_eq_div_mul,
    toDigits_two (by omega) (by omega), hmod, List.append_assoc, two, two, hlast]
  rfl

theorem leftpad_toDigits (h : n < 1000) : (Nat.toDigits 10 n).leftpad 3 '0' = three n := by
  rcases lt_or_ge n 10 with hlt | hge
  · rw [Nat.toDigits_of_lt_base hlt]
    interval_cases n <;> rfl
  rcases lt_or_ge n 100 with hlt | hge
  · have hdiv : n / 100 = 0 := by omega
    rw [toDigits_two hge hlt, three, hdiv, Nat.mod_eq_of_lt hlt]
    rfl
  have hmod : n / 10 % 10 = n % 100 / 10 := by omega
  have hlast : n % 100 % 10 = n % 10 := by omega
  rw [Nat.toDigits_of_base_le (by decide) (by omega),
    toDigits_two (by omega) (by omega), three, two, two, Nat.div_div_eq_div_mul, hmod, hlast]
  rfl

variable {fromEpoch : ℕ}

theorem dayNumber_gmtime (fromEpoch : ℕ) :
    (gmtime_r fromEpoch).date.dayNumber = (fromEpoch / 86400 : ℕ) := by
  rw [gmtime_r, Calendar.dayNumber_iterate, Calendar.dayNumber_epoch, zero_add]

theorem year_gmtime (h : fromEpoch < 253402300800) :
    1970 ≤ (gmtime_r fromEpoch).date.year ∧ (gmtime_r fromEpoch).date.year < 10000 := by
  have hday := dayNumber_gmtime fromEpoch
  constructor
  · by_contra hlt
    have hbefore := Calendar.dayNumber_year_lt (e := Calendar.epoch) (not_le.mp hlt)
    rw [Calendar.dayNumber_epoch] at hbefore
    omega
  · by_contra hge
    have hyears := Calendar.daysBeforeYear_mono (not_lt.mp hge)
    have hle := Calendar.le_dayNumber (gmtime_r fromEpoch).date
    have hmillennia : Calendar.daysBeforeYear 10000 = 2932897 := rfl
    omega

def stampOf (fromEpoch : ℕ) (h : fromEpoch < 253402300800) : Stamp where
  date := (gmtime_r fromEpoch).date
  clock := .seconds true (gmtime_r fromEpoch).hour (gmtime_r fromEpoch).min (gmtime_r fromEpoch).sec
  zone := .absent
  year_nonneg := by
    have hyear := (year_gmtime h).1
    omega
  year_lt := (year_gmtime h).2

theorem timeText_gmtime (h : fromEpoch < 253402300800) :
    timeText (gmtime_r fromEpoch) = (stampOf fromEpoch h).text := by
  obtain ⟨hlow, hhigh⟩ := year_gmtime h
  rw [timeText, toDigits_year (by omega) (by omega)]
  simp [Stamp.text, stampOf, dateText, Clock.text, TimeZone.text, colon]

theorem means_stampOf (h : fromEpoch < 253402300800) : (stampOf fromEpoch h).Means fromEpoch := by
  rw [means_iff]
  change (fromEpoch : ℤ) = (gmtime_r fromEpoch).date.dayNumber * 86400 +
    ((fromEpoch / 3600 % 24 : ℕ) * 3600 + (fromEpoch / 60 % 60 : ℕ) * 60 + (fromEpoch % 60 : ℕ)) - 0
  rw [dayNumber_gmtime]
  omega

theorem parse_stampOf (h : fromEpoch < 253402300800) :
    parse8601Time (stampOf fromEpoch h).text = some (fromEpoch : ℚ) := by
  have hclosed : ¬ (stampOf fromEpoch h).clock.Open := id
  rw [parse_closed fun hopen => absurd hopen hclosed, ← means_iff.mp (means_stampOf h),
    Int.cast_natCast]

theorem dMillis_near (x : ℚ≥0) :
    |(dMillis x : ℚ) / 1000 - x| < 1 / 1000 ∧ (dMillis x < 1000 ↔ x < 999999 / 1000000) := by
  have hle : ((⌊x * 1000000⌋₊ : ℚ≥0) : ℚ) ≤ (x * 1000000 : ℚ≥0) :=
    NNRat.cast_le.mpr (Nat.floor_le zero_le)
  have hlt : ((x * 1000000 : ℚ≥0) : ℚ) < (⌊x * 1000000⌋₊ + 1 : ℚ≥0) :=
    NNRat.cast_lt.mpr (Nat.lt_floor_add_one _)
  have hfloor : ⌊x * 1000000⌋₊ < 999999 ↔ x * 1000000 < 999999 := Nat.floor_lt zero_le
  push_cast at hle hlt
  unfold dMillis dMicros
  generalize ⌊x * 1000000⌋₊ = k at *
  have hlow : (((k + 1) / 1000 : ℕ) : ℚ) * 1000 ≤ k + 1 := by
    exact_mod_cast (show (k + 1) / 1000 * 1000 ≤ k + 1 by omega)
  have hhigh : (k : ℚ) + 1 ≤ ((k + 1) / 1000 : ℕ) * 1000 + 999 := by
    exact_mod_cast (show k + 1 ≤ (k + 1) / 1000 * 1000 + 999 by omega)
  constructor
  · rw [abs_lt]
    constructor <;> linarith
  · have hmillis : (k + 1) / 1000 < 1000 ↔ k < 999999 := by omega
    rw [hmillis, hfloor, lt_div_iff₀ (by norm_num)]

variable (t : Time) (room : ℕ)

theorem fraction_lt (t : ℚ≥0) : t - ⌊t⌋₊ < 1 :=
  (tsub_lt_iff_left (Nat.floor_le zero_le)).mpr (Nat.lt_floor_add_one t)

theorem length_decimals (h : n ≤ 1000) : (decimals n).length = if n < 1000 then 5 else 6 := by
  split
  · rename_i hlt
    rw [decimals, leftpad_toDigits hlt]
    rfl
  rename_i hge
  obtain rfl : n = 1000 := by omega
  decide

theorem dMillis_le (t : ℚ≥0) : dMillis (t - ⌊t⌋₊) ≤ 1000 := by
  have hlt : ⌊(t - ⌊t⌋₊) * 1000000⌋₊ < 1000000 := by
    rw [Nat.floor_lt zero_le]
    exact (mul_lt_iff_lt_one_left (by norm_num)).mpr (fraction_lt t)
  unfold dMillis dMicros
  omega

theorem numberToDate_eq (h : ⌊t.seconds⌋₊ < 253402300800) :
    numberToDate undefined t.seconds (64 + room) =
      some ((stampOf ⌊t.seconds⌋₊ h).text ++ decimals (dMillis (t.seconds - ⌊t.seconds⌋₊))) := by
  have hlength : (timeText (gmtime_r ⌊t.seconds⌋₊)).length = 19 := by
    rw [timeText_gmtime h]
    rfl
  have hdate : strftime undefined (64 + room) (gmtime_r ⌊t.seconds⌋₊) =
      timeText (gmtime_r ⌊t.seconds⌋₊) := if_pos (by omega)
  have hdecimals : (decimals (dMillis (t.seconds - ⌊t.seconds⌋₊))).length ≤ 64 + room - 19 - 1 := by
    rw [length_decimals (dMillis_le _)]
    split <;> omega
  simp only [numberToDate, hdate, hlength]
  rw [if_neg (by omega), ← timeText_gmtime h]
  exact congrArg (fun d => some (_ ++ d)) (List.take_of_length_le hdecimals)

theorem floor_lt (t : Time) : ⌊t.seconds⌋₊ < 253402300800 := (Nat.floor_lt zero_le).mpr t.lt

variable {t}

theorem three_decimals
    (h : ∃ date ∈ numberToDate undefined t.seconds (64 + room), Rendered t date) :
    dMillis (t.seconds - ⌊t.seconds⌋₊) < 1000 := by
  obtain ⟨date, hdate, stamp, h', m, s, n, ms, hclock, hzone, htext, -⟩ := h
  rw [numberToDate_eq undefined t room (floor_lt t)] at hdate
  by_contra hge
  have hlength := congrArg List.length ((Option.mem_some_iff.mp hdate).trans htext)
  have hstamp : stamp.text.length = 19 := by
    rw [Stamp.text, hclock, hzone]
    rfl
  rw [List.length_append, length_decimals (dMillis_le _), if_neg hge, List.length_append,
    hstamp] at hlength
  exact absurd hlength (show ¬ 19 + 6 = 19 + 5 by decide)

theorem rendered_of_three (h : dMillis (t.seconds - ⌊t.seconds⌋₊) < 1000) :
    ∃ date ∈ numberToDate undefined t.seconds (64 + room), Rendered t date := by
  have hnear := (dMillis_near (t.seconds - ⌊t.seconds⌋₊)).1
  rw [NNRat.coe_sub (Nat.floor_le zero_le), NNRat.cast_natCast] at hnear
  refine ⟨_, numberToDate_eq undefined t room (floor_lt t), stampOf _ (floor_lt t), _, _, _, _,
    ⟨_, h⟩, rfl, rfl, ?_, means_stampOf (floor_lt t), ?_, parse_stampOf (floor_lt t)⟩
  · rw [decimals, leftpad_toDigits h]
  · rw [Int.cast_natCast, add_comm, ← sub_sub_eq_add_sub]
    exact hnear

variable (t)

/-- A time is rendered as documented if and only if it is not in the last microsecond of a second.
-/
theorem rendered_iff : (∃ date ∈ numberToDate undefined t.seconds (64 + room), Rendered t date) ↔
    t.seconds - ⌊t.seconds⌋₊ < 999999 / 1000000 := by
  rw [← (dMillis_near (t.seconds - ⌊t.seconds⌋₊)).2]
  exact ⟨three_decimals undefined room, rendered_of_three undefined room⟩

def lastMicrosecond : Time := ⟨9999995 / 10000000, by norm_num⟩

theorem last_microsecond_four_digits : ¬ ∀ undefined t room,
    ∃ date ∈ numberToDate undefined t.seconds (64 + room), Rendered t date := by
  intro h
  have hlt := three_decimals [] 0 (h [] lastMicrosecond 0)
  have hfraction := (dMillis_near (lastMicrosecond.seconds - ⌊lastMicrosecond.seconds⌋₊)).2.mp hlt
  have hfloor : ⌊lastMicrosecond.seconds⌋₊ = 0 := Nat.floor_eq_zero.mpr (by
    change (9999995 / 10000000 : ℚ≥0) < 1
    norm_num)
  rw [hfloor, Nat.cast_zero, tsub_zero] at hfraction
  exact absurd hfraction (by change ¬ (9999995 / 10000000 : ℚ≥0) < _; norm_num)

end NumberToDate
