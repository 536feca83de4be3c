import OrionLd.Parse8601Time
import Mathlib.Data.Bool.AllAny

/-! The date-times of the comments of parse8601Time, and the moments that they mean. An hour, or
hours and minutes without a colon, with a time zone of digits behind them are read otherwise. -/
namespace DocumentedTimes

open KjTree Scanf Parse8601Time List Option
open Calendar (Date DaysAfter)

def two (n : ℕ) : Text := [Nat.digitChar (n / 10), Nat.digitChar (n % 10)]

def colon (separated : Bool) : Text := if separated then [':'] else []

/-- hh:mm:ss, hhmmss, hh:mm, hhmm and hh. -/
inductive Clock where
  | seconds (separated : Bool) (h : Fin 24) (m s : Fin 60)
  | minutes (separated : Bool) (h : Fin 24) (m : Fin 60)
  | hours (h : Fin 24)

def Clock.text : Clock → Text
  | .seconds separated h m s =>
    two h ++ (colon separated ++ (two m ++ (colon separated ++ two s)))
  | .minutes separated h m => two h ++ (colon separated ++ two m)
  | .hours h => two h

def Clock.value : Clock → ℤ
  | .seconds _ h m s => h * 3600 + m * 60 + s
  | .minutes _ h m => h * 3600 + m * 60
  | .hours h => h * 3600

/-- Nothing, Z, and the offsets ±hh, ±hhmm and ±hh:mm. -/
inductive TimeZone where
  | absent
  | utc
  | hours (west : Bool) (h : Fin 24)
  | minutes (west separated : Bool) (h : Fin 24) (m : Fin 60)

def signOf (west : Bool) : Char := if west then '-' else '+'

def TimeZone.text : TimeZone → Text
  | .absent => []
  | .utc => ['Z']
  | .hours west h => signOf west :: two h
  | .minutes west separated h m => signOf west :: (two h ++ (colon separated ++ two m))

def TimeZone.value : TimeZone → ℤ
  | .absent | .utc => 0
  | .hours west h => signedBy [signOf west] (h * 3600 : ℤ)
  | .minutes west _ h m => signedBy [signOf west] (h * 3600 + m * 60 : ℤ)

structure Stamp where
  date : Date
  clock : Clock
  zone : TimeZone
  year_nonneg : 0 ≤ date.year
  year_lt : date.year < 10000

def dateText (d : Date) : Text :=
  two (d.year.toNat / 100) ++ (two (d.year.toNat % 100) ++
    ('-' :: (two (d.month + 1) ++ ('-' :: two d.day))))

def Stamp.text (stamp : Stamp) : Text :=
  dateText stamp.date ++ 'T' :: (stamp.clock.text ++ stamp.zone.text)

/-- The seconds from the beginning of 1970, where the days are counted one by one. -/
def Stamp.Means (stamp : Stamp) (t : ℤ) : Prop :=
  ∃ n, DaysAfter Calendar.epoch stamp.date n ∧
    t = n * 86400 + stamp.clock.value - stamp.zone.value

def Digits (n : ℕ) (text : Text) : Prop := text.length = n ∧ ∀ c ∈ text, c.isDigit = true

def IsFraction (text : Text) : Prop :=
  text = [] ∨ ∃ digits, text = '.' :: digits ∧ digits ≠ [] ∧ ∀ c ∈ digits, c.isDigit = true

def IsClock (text : Text) : Prop :=
  (∃ h m s fraction, Digits 2 h ∧ Digits 2 m ∧ Digits 2 s ∧ IsFraction fraction ∧
      ∃ separated, text = h ++ colon separated ++ m ++ colon separated ++ s ++ fraction) ∨
    (∃ h m, Digits 2 h ∧ Digits 2 m ∧ ∃ separated, text = h ++ colon separated ++ m) ∨
      Digits 2 text

def IsZone (text : Text) : Prop :=
  text = [] ∨ text = ['Z'] ∨ ∃ west h, Digits 2 h ∧ (text = signOf west :: h ∨
    ∃ m, Digits 2 m ∧ ∃ separated, text = signOf west :: (h ++ colon separated ++ m))

def Documented (text : Text) : Prop :=
  ∃ y m d rest, Digits 4 y ∧ Digits 2 m ∧ Digits 2 d ∧
    text = y ++ '-' :: (m ++ '-' :: (d ++ rest)) ∧
      (rest = [] ∨ ∃ clock zone, IsClock clock ∧ IsZone zone ∧ rest = 'T' :: (clock ++ zone))

def MeansWhatItSays (text : Text) : Prop :=
  (∀ (stamp : Stamp) (t : ℤ), text = stamp.text → stamp.Means t →
    parse8601Time text = some (t : ℚ)) ∧
  (¬ Documented text → parse8601Time text = some (-1))

/-- Behind its digits, what stands for the time zone could be read as a field of the time. -/
def Clock.Open : Clock → Prop
  | .seconds _ _ _ _ => False
  | .minutes separated _ _ => separated = false
  | .hours _ => True

/-- An offset of zero is read as no minutes and no seconds, unless it has a colon. -/
def TimeZone.Counts (zone : TimeZone) : Prop :=
  zone.value ≠ 0 ∨ ∃ west h m, zone = .minutes west true h m

/-- Z, or a sign with an hour behind it, whatever comes then. -/
def HasZone (tz : Text) : Prop :=
  tz = ['Z'] ∨ ∃ west t, tz = signOf west :: t ∧ scanInt 2 t ≠ none

def LastSecond (f : Fields) : Prop :=
  ∃ offset, timezoneOffset f.tz = some offset ∧ moment f offset = some (-1)

/-- What -1 is returned for: nothing is read, or no time zone, or the last second of 1969. -/
def Refused (text : Text) : Prop :=
  29 < text.length ∨ fieldsRead text = some none ∨
    ∃ f, fieldsRead text = some (some f) ∧ (¬ HasZone f.tz ∨ LastSecond f)

structure ReadAsMeant (text : Text) : Prop where
  stamp : ∀ stamp : Stamp, text = stamp.text → ¬ (stamp.clock.Open ∧ stamp.zone.Counts)
  other : ¬ Documented text → Refused text

section

structure Numeral (digits : Text) (n : ℕ) : Prop where
  ne_nil : digits ≠ []
  isDigit : ∀ c ∈ digits, c.isDigit = true
  value : valueOf 10 digits = n

variable {digits more rest : Text} {n m : ℕ} {c : Char}

theorem numeral_digitChar (h : n < 10) : Numeral [Nat.digitChar n] n := by
  refine ⟨cons_ne_nil _ _, ?_, ?_⟩
  · rw [forall_mem_singleton]
    revert n
    decide
  · revert n
    decide

theorem Numeral.append (h : Numeral digits n) (h' : Numeral more m) :
    Numeral (digits ++ more) (n * 10 ^ more.length + m) := by
  refine ⟨append_ne_nil_of_left_ne_nil h.ne_nil more, ?_, ?_⟩
  · rw [forall_mem_append]
    exact ⟨h.isDigit, h'.isDigit⟩
  · rw [valueOf_append, h.value, h'.value]

theorem numeral_two (h : n < 100) : Numeral (two n) n := by
  have hboth := (numeral_digitChar (show n / 10 < 10 by omega)).append
    (numeral_digitChar (show n % 10 < 10 by omega))
  have hvalue : n / 10 * 10 ^ [Nat.digitChar (n % 10)].length + n % 10 = n := by
    rw [length_singleton]
    omega
  rw [hvalue] at hboth
  exact hboth

theorem Numeral.scanInt (h : Numeral digits n) (rest : Text) :
    scanInt digits.length (digits ++ rest) = some ((n : ℤ), rest) := by
  rw [scanInt_digits h.ne_nil h.isDigit rfl, h.value]

theorem scanInt_two (h : n < 100) (rest : Text) :
    Scanf.scanInt 2 (two n ++ rest) = some ((n : ℤ), rest) := (numeral_two h).scanInt rest

theorem Numeral.scanReal (h : Numeral digits n) (hn : n < 2 ^ 53) (hend : EndsNumber rest) :
    scanReal (digits ++ rest) = some (.finite (n : ℤ), rest) := by
  have hscan := scanReal_digits (.inl rfl) h.ne_nil h.isDigit (by rw [h.value]; exact hn) hend
  rw [h.value] at hscan
  exact hscan

theorem Numeral.scanReal_signed (h : Numeral digits n) (hn : n < 2 ^ 53) (hsign : isSign c = true)
    (hend : EndsNumber rest) :
    Scanf.scanReal (c :: (digits ++ rest)) = some (.finite (signedBy [c] (n : ℤ) : ℤ), rest) := by
  have hscan := scanReal_digits (.inr ⟨c, hsign, rfl⟩) h.ne_nil h.isDigit
    (by rw [h.value]; exact hn) hend
  rw [h.value] at hscan
  exact hscan

end

section

variable {zone : TimeZone} {rest : Text}

theorem isSign_signOf (west : Bool) : isSign (signOf west) = true := by
  cases west <;> rfl

theorem dateRead_dateText {d : Date} (hpos : 0 ≤ d.year) (hlt : d.year < 10000) (rest : Text) :
    dateRead (dateText d ++ rest) =
      some ((d.year, ((d.month + 1 : ℕ) : ℤ), (d.day : ℤ)), rest) := by
  have hmonth := d.month_lt
  have hday := d.day_le.trans (Calendar.daysInMonth_le _ _)
  have hyear : Numeral (two (d.year.toNat / 100) ++ two (d.year.toNat % 100)) d.year.toNat := by
    have hboth := (numeral_two (show d.year.toNat / 100 < 100 by omega)).append
      (numeral_two (show d.year.toNat % 100 < 100 by omega))
    have hvalue : d.year.toNat / 100 * 10 ^ (two (d.year.toNat % 100)).length +
        d.year.toNat % 100 = d.year.toNat := by
      change d.year.toNat / 100 * 100 + d.year.toNat % 100 = d.year.toNat
      omega
    rw [hvalue] at hboth
    exact hboth
  have hscan := hyear.scanInt ('-' :: (two (d.month + 1) ++ '-' :: (two d.day ++ rest)))
  have hnat : ((d.year.toNat : ℕ) : ℤ) = d.year := Int.toNat_of_nonneg hpos
  rw [append_assoc, hnat] at hscan
  unfold dateRead dateText
  simp only [append_assoc, cons_append]
  rw [show (4 : ℕ) = (two (d.year.toNat / 100) ++ two (d.year.toNat % 100)).length from rfl, hscan]
  simp only [bind_eq_bind, bind_some, scanLiteral, if_true,
    scanInt_two (show d.month + 1 < 100 by omega), scanInt_two (show d.day < 100 by omega)]
  rfl

theorem sign_mul (west : Bool) (x : ℤ) :
    (if signOf west = '+' then (1 : ℤ) else -1) * x = signedBy [signOf west] x := by
  cases west
  · exact one_mul x
  · exact neg_one_mul x

theorem timezoneOffset_signed (west : Bool) (t : Text) : timezoneOffset (signOf west :: t) = (do
    let (n, z) ← scan [.int 2, .literal ':', .int 2] [zoneHour, zoneMinute] t ⟨0, 0⟩
    if n = 2 then return signedBy [signOf west] (z.h * 60 * 60 + z.m * 60)
    let (n, z) ← scan [.int 2, .int 2] [zoneHour, zoneMinute] t z
    if n = 2 then return signedBy [signOf west] (z.h * 60 * 60 + z.m * 60)
    let (n, z) ← scan [.int 2] [zoneHour] t z
    if n = 1 then return signedBy [signOf west] (z.h * 60 * 60)
    return -1) := by
  have hhead : signOf west :: t ≠ ['Z'] := by cases west <;> exact nofun
  have hsign : ¬ ((signOf west :: t).head? ≠ some '+' ∧
      (signOf west :: t).head? ≠ some '-') := by
    cases west <;> simp [signOf]
  unfold timezoneOffset
  rw [if_neg hhead, if_neg hsign]
  simp only [List.head?_cons, some.injEq, tail_cons, sign_mul]
  rfl

theorem signedBy_ne (west : Bool) (h m : ℤ) :
    signedBy [signOf west] (h * 60 * 60 + m * 60) ≠ -1 := by
  cases west <;> simp [signedBy, signOf] <;> omega

theorem timezoneOffset_refused {tz : Text} : timezoneOffset tz = some (-1) ↔ ¬ HasZone tz := by
  by_cases hz : tz = ['Z']
  · subst hz
    exact iff_of_false (by decide) fun h => h (.inl rfl)
  by_cases hsigned : ∃ west t, tz = signOf west :: t
  · obtain ⟨west, t, rfl⟩ := hsigned
    have hzone : HasZone (signOf west :: t) ↔ scanInt 2 t ≠ none := by
      refine ⟨?_, fun h => .inr ⟨west, t, rfl, h⟩⟩
      rintro (h | ⟨west', t', heq, h⟩)
      · exact absurd h hz
      · exact (cons.inj heq).2 ▸ h
    rw [hzone, not_not, timezoneOffset_signed]
    cases hh : scanInt 2 t with
    | none => simp [scan, zoneHour, zoneMinute, hh]
    | some r =>
      refine iff_of_false ?_ (Option.some_ne_none _)
      obtain ⟨h, rest⟩ := r
      have hne := signedBy_ne west h
      have hhour := signedBy_ne west h 0
      rw [zero_mul, add_zero] at hhour
      simp only [scan, zoneHour, zoneMinute, hh]
      cases scanLiteral ':' rest with
      | none =>
        cases scanInt 2 rest with
        | none => simpa using hhour
        | some m => simpa using hne m.1
      | some rest' =>
        dsimp only
        cases scanInt 2 rest' with
        | some m => simpa using hne m.1
        | none =>
          cases scanInt 2 rest with
          | none => simpa using hhour
          | some m => simpa using hne m.1
  · have hnone : ¬ HasZone tz := by
      rintro (h | ⟨west, t, ht, -⟩)
      · exact hz h
      · exact hsigned ⟨west, t, ht⟩
    refine iff_of_true ?_ hnone
    unfold timezoneOffset
    rw [if_neg hz, if_pos]
    constructor <;> intro hhead <;> obtain ⟨c, rfl⟩ := head?_eq_some_iff.mp hhead
    · exact hsigned ⟨false, c, rfl⟩
    · exact hsigned ⟨true, c, rfl⟩

theorem seconds_of (h m : ℤ) : h * 60 * 60 + m * 60 = h * 3600 + m * 60 := by ring

theorem timezoneOffset_hours (west : Bool) (h : Fin 24) :
    timezoneOffset (signOf west :: two h) = some (TimeZone.hours west h).value := by
  have hhour : scanInt 2 (two h) = some (((h : ℕ) : ℤ), []) := by
    have htwo := scanInt_two (show (h : ℕ) < 100 by omega) []
    rwa [append_nil] at htwo
  have hextended : ∀ z, scan [.int 2, .literal ':', .int 2] [zoneHour, zoneMinute] (two h) z =
      some (1, { z with h := (h : ℕ) }) := fun z => by
    simp only [scan, zoneHour, hhour, scanLiteral, map_some]
  have hbasic : ∀ z, scan [.int 2, .int 2] [zoneHour, zoneMinute] (two h) z =
      some (1, { z with h := (h : ℕ) }) := fun z => by
    simp only [scan, zoneHour, zoneMinute, hhour, scanInt_nil, map_some]
  have halone : ∀ z, scan [.int 2] [zoneHour] (two h) z = some (1, { z with h := (h : ℕ) }) :=
    fun z => by simp only [scan, zoneHour, hhour, map_some]
  rw [timezoneOffset_signed, hextended]
  simp only [bind_eq_bind, bind_some, OfNat.one_ne_ofNat, if_false, hbasic, halone,
    if_true]
  rw [show ((h : ℕ) : ℤ) * 60 * 60 = (h : ℕ) * 3600 by ring]
  rfl

theorem timezoneOffset_minutes (west separated : Bool) (h : Fin 24) (m : Fin 60) :
    timezoneOffset (signOf west :: (two h ++ (colon separated ++ two m))) =
      some (TimeZone.minutes west separated h m).value := by
  have hhour := scanInt_two (show (h : ℕ) < 100 by omega) (colon separated ++ two m)
  have hminute : scanInt 2 (two m) = some (((m : ℕ) : ℤ), []) := by
    have htwo := scanInt_two (show (m : ℕ) < 100 by omega) []
    rwa [append_nil] at htwo
  rw [timezoneOffset_signed]
  cases separated with
  | true =>
    have hextended : scan [.int 2, .literal ':', .int 2] [zoneHour, zoneMinute]
        (two h ++ (colon true ++ two m)) ⟨0, 0⟩ = some (2, ⟨(h : ℕ), (m : ℕ)⟩) := by
      simp only [scan, zoneHour, zoneMinute, hhour]
      simp [colon, scanLiteral, hminute]
    rw [hextended]
    simp only [bind_eq_bind, bind_some, if_true, seconds_of]
    rfl
  | false =>
    have hliteral : scanLiteral ':' (two m) = none := by
      have hdigit := (numeral_two (show (m : ℕ) < 100 by omega)).isDigit _ mem_cons_self
      exact if_neg (ne_of_isDigit hdigit (by decide))
    have hextended : ∀ z, scan [.int 2, .literal ':', .int 2] [zoneHour, zoneMinute]
        (two h ++ (colon false ++ two m)) z = some (1, { z with h := (h : ℕ) }) := fun z => by
      simp only [scan, zoneHour, hhour]
      simp [colon, hliteral]
    have hbasic : ∀ z, scan [.int 2, .int 2] [zoneHour, zoneMinute]
        (two h ++ (colon false ++ two m)) z = some (2, ⟨(h : ℕ), (m : ℕ)⟩) := fun z => by
      simp only [scan, zoneHour, zoneMinute, hhour]
      simp [colon, hminute]
    rw [hextended]
    simp only [bind_eq_bind, bind_some, OfNat.one_ne_ofNat, if_false, hbasic,
      if_true, seconds_of]
    rfl

theorem isSpace_two {n : ℕ} (h : n < 100) : ∀ c ∈ two n, isSpace c = false := fun c hc =>
  isSpace_of_isDigit ((numeral_two h).isDigit c hc)

theorem isSpace_colon (separated : Bool) : ∀ c ∈ colon separated, isSpace c = false := by
  cases separated <;> exact all_iff_forall_prop.mp rfl

theorem zoneRead_word {word : Text} (hne : word ≠ []) (h : ∀ c ∈ word, isSpace c = false)
    (hlength : word.length < 10) : zoneRead word = some word := by
  unfold zoneRead
  rw [scanWord_all hne h]
  exact if_pos hlength

theorem isSpace_zone (zone : TimeZone) : ∀ c ∈ zone.text, isSpace c = false := by
  cases zone with
  | absent => exact fun c hc => nomatch hc
  | utc => exact forall_mem_singleton.mpr rfl
  | hours west h =>
    rw [TimeZone.text, forall_mem_cons]
    exact ⟨isSpace_of_isSign (isSign_signOf west), isSpace_two (by omega)⟩
  | minutes west separated h m =>
    rw [TimeZone.text, forall_mem_cons, forall_mem_append, forall_mem_append]
    exact ⟨isSpace_of_isSign (isSign_signOf west), isSpace_two (by omega),
      isSpace_colon separated, isSpace_two (by omega)⟩

theorem length_zone (zone : TimeZone) : zone.text.length ≤ 6 := by
  cases zone with
  | minutes west separated h m => cases separated <;> simp [TimeZone.text, colon, two]
  | _ => simp [TimeZone.text, two]

theorem zone_offset (zone : TimeZone) :
    ∃ tz, zoneRead zone.text = some tz ∧ timezoneOffset tz = some zone.value := by
  have hlength := length_zone zone
  have hword : zone.text ≠ [] → zoneRead zone.text = some zone.text := fun hne =>
    zoneRead_word hne (isSpace_zone zone) (by omega)
  cases zone with
  | absent => exact ⟨['Z'], rfl, rfl⟩
  | utc => exact ⟨['Z'], hword (cons_ne_nil _ _), rfl⟩
  | hours west h => exact ⟨_, hword (cons_ne_nil _ _), timezoneOffset_hours west h⟩
  | minutes west separated h m =>
    exact ⟨_, hword (cons_ne_nil _ _), timezoneOffset_minutes west separated h m⟩

theorem zone_head (zone : TimeZone) : ∀ c ∈ zone.text.head?, c = 'Z' ∨ isSign c = true := by
  cases zone with
  | absent => exact fun c hc => nomatch hc
  | utc => exact fun c hc => .inl (some.inj hc).symm
  | hours west h => exact fun c hc => .inr (some.inj hc ▸ isSign_signOf west)
  | minutes west separated h m =>
    exact fun c hc => .inr (some.inj hc ▸ isSign_signOf west)

theorem endsNumber_of_head (h : ∀ c ∈ rest.head?, c = 'Z' ∨ isSign c = true) :
    EndsNumber rest := by
  intro c hc
  rcases h c hc with rfl | hsign
  · decide
  unfold isSign at hsign
  rw [Bool.or_eq_true, beq_iff_eq, beq_iff_eq] at hsign
  rcases hsign with rfl | rfl <;> decide

theorem scanLiteral_of_head (h : ∀ c ∈ rest.head?, c ≠ ':') : scanLiteral ':' rest = none := by
  cases rest with
  | nil => rfl
  | cons c rest => exact if_neg (h c rfl)

theorem scanLiteral_zone (zone : TimeZone) : scanLiteral ':' zone.text = none := by
  refine scanLiteral_of_head fun c hc hcolon => ?_
  subst hcolon
  rcases zone_head zone ':' hc with h | h
  · cases h
  · cases h

theorem scanLiteral_two {n : ℕ} (h : n < 100) : scanLiteral ':' (two n ++ rest) = none :=
  if_neg (ne_of_isDigit ((numeral_two h).isDigit _ mem_cons_self) (by decide))

end

section

variable {zone : TimeZone} {rest t : Text} {h n : ℕ} {m : ℤ}

theorem timeRead_colon (hh : h < 100) (hm : scanInt 2 rest = some (m, t)) :
    timeRead (two h ++ ':' :: rest) =
      some (secondRead h m ((scanLiteral ':' t).bind scanReal) t) := by
  unfold timeRead
  rw [scanInt_two hh]
  simp only [map_some, scanLiteral, if_true, bind_some, hm]

theorem timeRead_bare (hh : h < 100) (hcolon : scanLiteral ':' rest = none)
    (hm : scanInt 2 rest = some (m, t)) :
    timeRead (two h ++ rest) = some (secondRead h m (scanReal t) t) := by
  unfold timeRead
  rw [scanInt_two hh]
  simp only [map_some, hcolon, bind_none, hm]

theorem timeRead_hour (hh : h < 100) (hcolon : scanLiteral ':' rest = none)
    (hm : scanInt 2 rest = none) :
    timeRead (two h ++ rest) = some (((h : ℤ), 0, .finite 0), rest) := by
  unfold timeRead
  rw [scanInt_two hh]
  simp [hcolon, hm]

theorem seconds_read (hn : n < 100) (zone : TimeZone) :
    scanReal (two n ++ zone.text) = some (.finite (n : ℤ), zone.text) :=
  (numeral_two hn).scanReal (by omega) (endsNumber_of_head (zone_head zone))

/-- The time, when its time zone is not taken for more of it. -/
theorem timeRead_clock {clock : Clock} (hclosed : clock.Open → zone = .absent ∨ zone = .utc) :
    ∃ h m s : ℤ, timeRead (clock.text ++ zone.text) = some ((h, m, .finite s), zone.text) ∧
      h * 3600 + m * 60 + s = clock.value ∧ |h| < 60 ∧ |m| < 60 ∧ |s| < 60 := by
  cases clock with
  | seconds separated h m s =>
    refine ⟨(h : ℕ), (m : ℕ), (s : ℕ), ?_, rfl, ?_, ?_, ?_⟩
    · unfold Clock.text
      cases separated with
      | true =>
        simp only [colon, if_true, append_assoc, cons_append, nil_append]
        rw [timeRead_colon (by omega) (scanInt_two (show (m : ℕ) < 100 by omega) _)]
        simp only [scanLiteral, if_true, bind_some, seconds_read (show (s : ℕ) < 100 by omega)]
        rfl
      | false =>
        simp only [colon, Bool.false_eq_true, if_false, nil_append, append_assoc]
        rw [timeRead_bare (by omega) (scanLiteral_two (by omega))
          (scanInt_two (show (m : ℕ) < 100 by omega) _), seconds_read (by omega)]
        rfl
    all_goals
      rw [abs_lt]
      constructor <;> omega
  | minutes separated h m =>
    refine ⟨(h : ℕ), (m : ℕ), 0, ?_, Int.add_zero _, ?_, ?_, by decide⟩
    · unfold Clock.text
      cases separated with
      | true =>
        simp only [colon, if_true, append_assoc, cons_append, nil_append]
        rw [timeRead_colon (by omega) (scanInt_two (show (m : ℕ) < 100 by omega) _),
          scanLiteral_zone]
        rfl
      | false =>
        have hreal : scanReal zone.text = none := by
          rcases hclosed rfl with rfl | rfl <;> rfl
        simp only [colon, Bool.false_eq_true, if_false, nil_append, append_assoc]
        rw [timeRead_bare (by omega) (scanLiteral_two (by omega))
          (scanInt_two (show (m : ℕ) < 100 by omega) _), hreal]
        rfl
    all_goals
      rw [abs_lt]
      constructor <;> omega
  | hours h =>
    have hint : scanInt 2 zone.text = none := by
      rcases hclosed trivial with rfl | rfl <;> rfl
    refine ⟨(h : ℕ), 0, 0, ?_, by unfold Clock.value; ring, ?_, by decide, by decide⟩
    · unfold Clock.text
      rw [timeRead_hour (by omega) (scanLiteral_zone zone) hint]
      rfl
    · rw [abs_lt]
      constructor <;> omega

theorem endsNumber_colon (rest : Text) : EndsNumber (':' :: rest) := by
  intro c hc
  cases hc
  decide

theorem endsNumber_nil : EndsNumber [] := fun _ hc => nomatch hc

theorem scanInt_sign (west : Bool) (hn : n < 100) (rest : Text) :
    scanInt 2 (signOf west :: (two n ++ rest)) =
      some (signedBy [signOf west] ((n / 10 : ℕ) : ℤ), Nat.digitChar (n % 10) :: rest) := by
  have hdigit := numeral_digitChar (show n / 10 < 10 by omega)
  have hvalue : digitValue (Nat.digitChar (n / 10)) = n / 10 := by
    have h := hdigit.value
    unfold valueOf at h
    simpa using h
  unfold two
  rw [cons_append, scanInt_signed (isSign_signOf west)
    (hdigit.isDigit _ (mem_singleton_self _)), hvalue]
  rfl

theorem Numeral.more {digits more : Text} {v k : ℕ} (h : Numeral digits v)
    (hmore : more = [] ∧ k = 0 ∨ more = two k ∧ k < 100) :
    Numeral (digits ++ more) (v * 10 ^ more.length + k) := by
  rcases hmore with ⟨rfl, rfl⟩ | ⟨rfl, hk⟩
  · rw [append_nil, length_nil, pow_zero, mul_one, add_zero]
    exact h
  · exact h.append (numeral_two hk)

theorem misread_hours (west : Bool) {q r k p : ℕ} (hp : p = 1 ∨ p = 100) :
    signedBy [signOf west] (q : ℤ) * 60 + (r * p + k : ℤ) =
        -signedBy [signOf west] ((10 * q + r : ℤ) * 3600 + k * 60) ↔ q = 0 ∧ r = 0 ∧ k = 0 := by
  cases west with
  | false =>
    change (q : ℤ) * 60 + (r * p + k : ℤ) = -((10 * q + r : ℤ) * 3600 + k * 60) ↔ _
    rcases hp with rfl | rfl <;> push_cast <;> omega
  | true =>
    change -(q : ℤ) * 60 + (r * p + k : ℤ) = - -((10 * q + r : ℤ) * 3600 + k * 60) ↔ _
    rcases hp with rfl | rfl <;> push_cast <;> omega

/-- Digits of a time zone that are read as seconds, or as minutes and seconds: the moment is the
right one only when they are zeros. -/
theorem open_hours {clock : Clock} (hopen : clock.Open) (west : Bool) {k : ℕ} (hn : n < 100)
    {more : Text} (hmore : more = [] ∧ k = 0 ∨ more = two k ∧ k < 100) (hend : EndsNumber rest) :
    ∃ h m s : ℤ,
      timeRead (clock.text ++ signOf west :: (two n ++ (more ++ rest))) =
        some ((h, m, .finite s), rest) ∧ |h| < 60 ∧ |m| < 60 ∧ |s| < 10000 ∧
      (h * 3600 + m * 60 + s = clock.value - signedBy [signOf west] (n * 3600 + k * 60 : ℤ) ↔
        n = 0 ∧ k = 0) := by
  have hpow : (10 ^ more.length = 1 ∨ 10 ^ more.length = 100) ∧ k < 100 := by
    rcases hmore with ⟨rfl, rfl⟩ | ⟨rfl, hk⟩
    · exact ⟨.inl rfl, by omega⟩
    · exact ⟨.inr rfl, hk⟩
  obtain ⟨hpow, hk⟩ := hpow
  cases clock with
  | seconds separated h m s => exact hopen.elim
  | minutes separated h m =>
    obtain rfl : separated = false := hopen
    have hnumeral := (numeral_two hn).more hmore
    generalize 10 ^ more.length = p at hpow hnumeral
    have hreal := hnumeral.scanReal_signed (by rcases hpow with rfl | rfl <;> omega)
      (isSign_signOf west) hend
    rw [append_assoc] at hreal
    refine ⟨(h : ℕ), (m : ℕ), signedBy [signOf west] ((n * p + k : ℕ) : ℤ), ?_, ?_, ?_, ?_, ?_⟩
    · simp only [Clock.text, colon, Bool.false_eq_true, if_false, nil_append,
        append_assoc]
      rw [timeRead_bare (by omega) (scanLiteral_two (by omega))
        (scanInt_two (show (m : ℕ) < 100 by omega) _), hreal]
      rfl
    · rw [abs_lt]
      constructor <;> omega
    · rw [abs_lt]
      constructor <;> omega
    · rw [abs_signedBy, abs_lt]
      rcases hpow with rfl | rfl <;> constructor <;> omega
    · unfold Clock.value
      rcases hpow with rfl | rfl <;> cases west <;> simp [signedBy, signOf] <;> omega
  | hours h =>
    have hdigit := (numeral_digitChar (show n % 10 < 10 by omega)).more hmore
    generalize 10 ^ more.length = p at hpow hdigit
    have hreal := hdigit.scanReal (by rcases hpow with rfl | rfl <;> omega) hend
    rw [append_assoc, singleton_append] at hreal
    have hcolon : scanLiteral ':' (signOf west :: (two n ++ (more ++ rest))) = none := by
      cases west <;> rfl
    refine ⟨(h : ℕ), signedBy [signOf west] ((n / 10 : ℕ) : ℤ), ((n % 10 * p + k : ℕ) : ℤ),
      ?_, ?_, ?_, ?_, ?_⟩
    · unfold Clock.text
      rw [timeRead_bare (by omega) hcolon (scanInt_sign west hn _), hreal]
      rfl
    · rw [abs_lt]
      constructor <;> omega
    · rw [abs_signedBy, abs_lt]
      constructor <;> omega
    · rw [abs_lt]
      rcases hpow with rfl | rfl <;> constructor <;> omega
    · have hdiv : (n : ℤ) = 10 * (n / 10 : ℕ) + (n % 10 : ℕ) := by omega
      have hzero : n = 0 ↔ n / 10 = 0 ∧ n % 10 = 0 := by omega
      rw [hzero, hdiv, and_assoc, ← misread_hours west hpow]
      unfold Clock.value
      push_cast
      rw [sub_eq_add_neg, add_assoc, add_right_inj]

end

variable {stamp : Stamp} {h m s offset : ℤ} {t tz : Text}

theorem dayNumber_bounds (stamp : Stamp) : |stamp.date.dayNumber| < 4000000 := by
  have hnonneg := stamp.year_nonneg
  have hlt := stamp.year_lt
  have hlow := Calendar.le_dayNumber stamp.date
  have hhigh := Calendar.dayNumber_lt stamp.date
  have hmonths : Calendar.daysBeforeMonth stamp.date.year (stamp.date.month + 1) ≤
      Calendar.daysBeforeMonth stamp.date.year 12 :=
    Calendar.daysBeforeMonth_mono stamp.date.year stamp.date.month_lt
  have hnext := Calendar.daysBeforeYear_succ stamp.date.year
  unfold Calendar.daysBeforeYear at hlow hhigh hnext
  rw [abs_lt]
  constructor <;> omega

theorem moment_stamp (stamp : Stamp) (tz : Text) (hh : |h| < 60) (hm : |m| < 60)
    (hs : |s| < 10000) (hoffset : |offset| < 100000) :
    moment ⟨stamp.date.year, ((stamp.date.month + 1 : ℕ) : ℤ), stamp.date.day, h, m, .finite s, tz⟩
      offset =
        some ((stamp.date.dayNumber * 86400 + (h * 3600 + m * 60 + s) - offset : ℤ) : ℚ) := by
  have hday := dayNumber_bounds stamp
  rw [abs_lt] at hh hm hs hoffset hday
  have hint : intOf (.finite (s : ℚ)) = some s := by
    unfold intOf
    simp only [NearestFloat.truncate_intCast]
    exact if_pos ⟨by omega, by omega⟩
  have hmonth : ((stamp.date.month + 1 : ℕ) : ℤ) - 1 = stamp.date.month := by
    push_cast
    ring
  have htotal : stamp.date.dayNumber * 86400 + h * 3600 + m * 60 + s - offset =
      stamp.date.dayNumber * 86400 + (h * 3600 + m * 60 + s) - offset := by ring
  have hmillis : millis (.finite (s : ℚ)) s = 0 := by
    change NearestFloat.nearest _ (NearestFloat.nearest _ ((s : ℚ) - s)) = 0
    rw [sub_self, NearestFloat.nearest_zero, NearestFloat.nearest_zero]
  unfold moment
  simp only [hint, hmonth, Calendar.timegm_date, htotal, hmillis, bind_eq_bind,
    bind_some, add_zero]
  have hsmall : |stamp.date.dayNumber * 86400 + (h * 3600 + m * 60 + s) - offset| <
      2 ^ NearestFloat.binary64.precision := by
    change _ < (2 : ℤ) ^ 53
    rw [abs_lt]
    constructor <;> omega
  rw [NearestFloat.nearest_intCast (by decide) hsmall,
    NearestFloat.nearest_intCast (by decide) hsmall]
  rfl

theorem length_stamp (stamp : Stamp) : stamp.text.length ≤ 29 := by
  have hzone := length_zone stamp.zone
  have hclock : stamp.clock.text.length ≤ 8 := by
    cases stamp.clock with
    | seconds separated h m s => cases separated <;> simp [Clock.text, colon, two]
    | minutes separated h m => cases separated <;> simp [Clock.text, colon, two]
    | hours h => simp [Clock.text, two]
  have hdate : (dateText stamp.date).length = 10 := rfl
  unfold Stamp.text
  rw [length_append, length_cons, length_append, hdate]
  omega

theorem fieldsRead_stamp (stamp : Stamp) {x : Binary64.Double}
    (htime : timeRead (stamp.clock.text ++ stamp.zone.text) = some ((h, m, x), t))
    (hzone : zoneRead t = some tz) : fieldsRead stamp.text = some (some
      ⟨stamp.date.year, ((stamp.date.month + 1 : ℕ) : ℤ), stamp.date.day, h, m, x, tz⟩) := by
  unfold fieldsRead Stamp.text
  rw [dateRead_dateText stamp.year_nonneg stamp.year_lt]
  simp only [scanLiteral, if_true, bind_some, htime, hzone, map_some]

theorem parse_stamp (stamp : Stamp)
    (htime : timeRead (stamp.clock.text ++ stamp.zone.text) = some ((h, m, .finite s), t))
    (hh : |h| < 60) (hm : |m| < 60) (hs : |s| < 10000) (hzone : zoneRead t = some tz)
    (htz : timezoneOffset tz = some offset) (hoffset : |offset| < 100000) :
    parse8601Time stamp.text = if offset = -1 then some (-1) else
      some ((stamp.date.dayNumber * 86400 + (h * 3600 + m * 60 + s) - offset : ℤ) : ℚ) := by
  rw [parse8601Time_eq, if_neg (by have := length_stamp stamp; omega),
    fieldsRead_stamp stamp htime hzone]
  simp only [bind_some, map_some, getD_some, timestamp, htz,
    bind_eq_bind]
  rw [moment_stamp stamp tz hh hm hs hoffset]
  rfl

theorem means_iff {t : ℤ} : stamp.Means t ↔
    t = stamp.date.dayNumber * 86400 + stamp.clock.value - stamp.zone.value := by
  unfold Stamp.Means
  simp only [Calendar.daysAfter_iff, Calendar.dayNumber_epoch, zero_add]
  exact ⟨fun ⟨n, hn, ht⟩ => hn ▸ ht, fun ht => ⟨_, rfl, ht⟩⟩

theorem signedBy_signOf (west : Bool) (x : ℤ) :
    signedBy [signOf west] x = if west then -x else x := by
  cases west <;> rfl

theorem zone_value (zone : TimeZone) : |zone.value| < 86400 ∧ zone.value % 60 = 0 := by
  cases zone with
  | absent => exact ⟨by decide, rfl⟩
  | utc => exact ⟨by decide, rfl⟩
  | hours west h | minutes west separated h m =>
    simp only [TimeZone.value, abs_lt, signedBy_signOf]
    refine ⟨by constructor <;> omega, ?_⟩
    split <;> omega

theorem parse_closed (hclosed : stamp.clock.Open → stamp.zone = .absent ∨ stamp.zone = .utc) :
    parse8601Time stamp.text = some ((stamp.date.dayNumber * 86400 + stamp.clock.value -
      stamp.zone.value : ℤ) : ℚ) := by
  obtain ⟨h, m, s, htime, hvalue, hh, hm, hs⟩ := timeRead_clock hclosed
  obtain ⟨tz, hzone, htz⟩ := zone_offset stamp.zone
  obtain ⟨hbound, hminutes⟩ := zone_value stamp.zone
  rw [parse_stamp stamp htime hh hm (hs.trans (by decide)) hzone htz (hbound.trans (by decide)),
    if_neg (by omega), hvalue]

theorem parse_open_separated (hopen : stamp.clock.Open) {west : Bool} {h : Fin 24} {m : Fin 60}
    (hzone : stamp.zone = .minutes west true h m) : parse8601Time stamp.text = some (-1) := by
  obtain ⟨h', m', s, htime, hh, hm, hs, -⟩ := open_hours hopen west (show (h : ℕ) < 100 by omega)
    (.inl ⟨rfl, rfl⟩) (endsNumber_colon (two m))
  have htext : stamp.zone.text = signOf west :: (two h ++ ([] ++ ':' :: two m)) := by
    rw [hzone]
    rfl
  have hrest : zoneRead (':' :: two m) = some (':' :: two m) :=
    zoneRead_word (cons_ne_nil _ _)
      (forall_mem_cons.mpr ⟨by decide, isSpace_two (by omega)⟩) (by simp [two])
  have htz : timezoneOffset (':' :: two m) = some (-1) := by
    unfold timezoneOffset
    rw [if_neg nofun, if_pos ⟨by simp, by simp⟩]
  rw [← htext] at htime
  rw [parse_stamp stamp htime hh hm hs hrest htz (by decide), if_pos rfl]

theorem parse_open_digits (hopen : stamp.clock.Open) {west : Bool} {n k : ℕ} (hn : n < 100)
    {more : Text} (hmore : more = [] ∧ k = 0 ∨ more = two k ∧ k < 100)
    (htext : stamp.zone.text = signOf west :: (two n ++ more))
    (hvalue : stamp.zone.value = signedBy [signOf west] (n * 3600 + k * 60 : ℤ)) :
    parse8601Time stamp.text = some ((stamp.date.dayNumber * 86400 + stamp.clock.value -
      stamp.zone.value : ℤ) : ℚ) ↔ stamp.zone.value = 0 := by
  obtain ⟨h, m, s, htime, hh, hm, hs, hiff⟩ := open_hours hopen west hn hmore endsNumber_nil
  rw [append_nil, ← htext] at htime
  have hparse := parse_stamp stamp htime hh hm hs rfl rfl (show |(0 : ℤ)| < 100000 by decide)
  rw [if_neg (by decide)] at hparse
  have hzero : stamp.zone.value = 0 ↔ n = 0 ∧ k = 0 := by
    rw [hvalue, signedBy_signOf]
    split <;> omega
  rw [hparse, some.injEq, Int.cast_inj, hzero, ← hiff, ← hvalue]
  constructor <;> intro heq <;> omega

theorem clock_value {clock : Clock} (h : clock.Open) : clock.value % 60 = 0 := by
  cases clock with
  | seconds separated h' m s => exact h.elim
  | minutes separated h' m | hours h' =>
    simp only [Clock.value]
    omega

/-- The moment is the right one if and only if no time zone that counts is read as time. -/
theorem parse_stamp_iff (stamp : Stamp) :
    parse8601Time stamp.text = some ((stamp.date.dayNumber * 86400 + stamp.clock.value -
      stamp.zone.value : ℤ) : ℚ) ↔ ¬ (stamp.clock.Open ∧ stamp.zone.Counts) := by
  by_cases hopen : stamp.clock.Open
  · cases hzone : stamp.zone with
    | absent =>
      rw [← hzone, parse_closed fun _ => .inl hzone]
      simp [hzone, TimeZone.Counts, TimeZone.value]
    | utc =>
      rw [← hzone, parse_closed fun _ => .inr hzone]
      simp [hzone, TimeZone.Counts, TimeZone.value]
    | hours west h =>
      have hvalue : (TimeZone.hours west h).value =
          signedBy [signOf west] ((h : ℕ) * 3600 + (0 : ℕ) * 60 : ℤ) := by
        rw [TimeZone.value]
        norm_num
      rw [← hzone, parse_open_digits hopen (show (h : ℕ) < 100 by omega) (.inl ⟨rfl, rfl⟩)
        (hzone ▸ rfl) (hzone ▸ hvalue), hzone]
      simp [TimeZone.Counts, hopen]
    | minutes west separated h m =>
      cases separated with
      | true =>
        rw [parse_open_separated hopen hzone]
        have hclock := clock_value hopen
        have hminutes := (zone_value (.minutes west true h m)).2
        refine ⟨fun heq => ?_, fun hnot => absurd ⟨hopen, .inr ⟨west, h, m, rfl⟩⟩ hnot⟩
        have hminus : (-1 : ℤ) = stamp.date.dayNumber * 86400 + stamp.clock.value -
            (TimeZone.minutes west true h m).value := by exact_mod_cast some.inj heq
        omega
      | false =>
        have htext : stamp.zone.text = signOf west :: (two h ++ two m) := by
          rw [hzone]
          rfl
        have hvalue : stamp.zone.value =
            signedBy [signOf west] ((h : ℕ) * 3600 + (m : ℕ) * 60 : ℤ) := by
          rw [hzone]
          rfl
        rw [← hzone, parse_open_digits hopen (show (h : ℕ) < 100 by omega)
          (.inr ⟨rfl, show (m : ℕ) < 100 by omega⟩) htext hvalue, hzone]
        simp [TimeZone.Counts, hopen]
  · rw [parse_closed fun h => absurd h hopen]
    simp [hopen]

/-- The code asks for -1 where it reads nothing that it takes for a time. -/
theorem refused_iff (text : Text) : parse8601Time text = some (-1) ↔ Refused text := by
  rw [parse8601Time_eq]
  unfold Refused
  by_cases hlength : 29 < text.length
  · simp [hlength]
  rw [if_neg hlength]
  simp only [hlength, false_or]
  cases fieldsRead text with
  | none => simp
  | some fields =>
    cases fields with
    | none => simp
    | some f =>
      simp only [← timezoneOffset_refused, LastSecond]
      cases htz : timezoneOffset f.tz with
      | none => simp [timestamp, htz]
      | some offset =>
        by_cases hoffset : offset = -1
        · simp [timestamp, htz, hoffset]
        · simp [timestamp, htz, hoffset]

/-- A string means what it says if and only if no hour and no hours and minutes without a colon are
followed by a time zone with digits that count, and what has none of the documented forms is not
read either. -/
theorem means_what_it_says_iff (text : Text) : MeansWhatItSays text ↔ ReadAsMeant text := by
  constructor
  · rintro ⟨hstamps, hothers⟩
    refine ⟨?_, fun hnot => (refused_iff text).mp (hothers hnot)⟩
    rintro stamp rfl
    exact (parse_stamp_iff stamp).mp (hstamps stamp _ rfl (means_iff.mpr rfl))
  · rintro ⟨hstamps, hothers⟩
    refine ⟨?_, fun hnot => (refused_iff text).mpr (hothers hnot)⟩
    rintro stamp t rfl ht
    rw [means_iff.mp ht]
    exact (parse_stamp_iff stamp).mpr (hstamps stamp rfl)

def morning : Stamp where
  date := ⟨2020, 0, 1, Calendar.epoch.month_lt, Calendar.epoch.day_pos, by decide⟩
  clock := .hours 10
  zone := .hours false 5
  year_nonneg := by decide
  year_lt := by decide

theorem zone_behind_hour_misread : ¬ ∀ text, MeansWhatItSays text := by
  intro h
  have hparse := (h morning.text).1 morning _ rfl (means_iff.mpr rfl)
  exact (parse_stamp_iff morning).mp hparse ⟨trivial, .inl (by decide)⟩

end DocumentedTimes
