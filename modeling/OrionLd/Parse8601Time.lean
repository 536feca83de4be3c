import OrionLd.Calendar
import OrionLd.KjTree
import OrionLd.Scanf

/-! parse8601Time of globals.cpp. Six formats are tried one after the other, on variables that keep
what a format that fails has assigned. `none` is undefined behaviour: a time zone that does not fit
into its buffer of ten bytes, or seconds that are no int. A text is the list of the bytes before the
NUL. -/
namespace Parse8601Time

open KjTree Scanf
open Binary64 (Double)
open NearestFloat

structure Zone where
  h : ℤ
  m : ℤ

def zoneHour : Argument Zone := .int fun i z => { z with h := i }

def zoneMinute : Argument Zone := .int fun i z => { z with m := i }

/-- The value -1 stands for a wrong time zone. -/
def timezoneOffset (tz : Text) : Option ℤ :=
  if tz = ['Z'] then some 0
  else if tz.head? ≠ some '+' ∧ tz.head? ≠ some '-' then some (-1)
  else do
    let sign : ℤ := if tz.head? = some '+' then 1 else -1
    let (n, z) ← sscanf tz.tail "%2d:%2d" [zoneHour, zoneMinute] ⟨0, 0⟩
    if n = 2 then return sign * (z.h * 60 * 60 + z.m * 60)
    let (n, z) ← sscanf tz.tail "%2d%2d" [zoneHour, zoneMinute] z
    if n = 2 then return sign * (z.h * 60 * 60 + z.m * 60)
    let (n, z) ← sscanf tz.tail "%2d" [zoneHour] z
    if n = 1 then return sign * (z.h * 60 * 60)
    return -1

structure Fields where
  y : ℤ
  M : ℤ
  d : ℤ
  h : ℤ
  m : ℤ
  s : Double
  tz : Text

def year : Argument Fields := .int fun i f => { f with y := i }

def month : Argument Fields := .int fun i f => { f with M := i }

def day : Argument Fields := .int fun i f => { f with d := i }

def hour : Argument Fields := .int fun i f => { f with h := i }

def minute : Argument Fields := .int fun i f => { f with m := i }

def second : Argument Fields := .real fun x f => { f with s := x }

def timeZone : Argument Fields := .word 10 fun word f => { f with tz := word }

/-- A format with its arguments, and the numbers of items with which it is the right one. -/
structure Trial where
  format : String
  args : List (Argument Fields)
  enough : ℕ → Bool

def trials : List Trial :=
  [⟨"%4d-%2d-%2dT%2d:%2d:%lf%s", [year, month, day, hour, minute, second, timeZone], (6 ≤ ·)⟩,
    ⟨"%4d-%2d-%2dT%2d%2d%lf%s", [year, month, day, hour, minute, second, timeZone], (6 ≤ ·)⟩,
    ⟨"%4d-%2d-%2dT%2d:%2d%s", [year, month, day, hour, minute, timeZone], (5 ≤ ·)⟩,
    ⟨"%4d-%2d-%2dT%2d%2d%s", [year, month, day, hour, minute, timeZone], (5 ≤ ·)⟩,
    ⟨"%4d-%2d-%2dT%2d%s", [year, month, day, hour, timeZone], (4 ≤ ·)⟩,
    ⟨"%4d-%2d-%2d%s", [year, month, day, timeZone], (· == 3)⟩]

def validDate (ss : Text) : List Trial → Fields → Option (Bool × Fields)
  | [], f => some (false, f)
  | t :: ts, f =>
    (sscanf ss t.format t.args f).bind fun (n, f) =>
      if t.enough n then some (true, f) else validDate ss ts f

def intOf : Double → Option ℤ
  | .finite x =>
    let i := truncate x
    if -2 ^ 31 ≤ i ∧ i < 2 ^ 31 then some i else none
  | _ => none

def millis : Double → ℤ → ℚ
  | .finite x, i => nearest binary32 (nearest binary64 (x - i))
  | _, _ => 0

def moment (f : Fields) (offset : ℤ) : Option ℚ := do
  let sec ← intOf f.s
  let totalSecs := Calendar.timegm ⟨f.y - 1900, f.M - 1, f.d, f.h, f.m, sec⟩ - offset
  return nearest binary64 (nearest binary64 totalSecs + millis f.s sec)

def timestamp (f : Fields) : Option ℚ := do
  let offset ← timezoneOffset f.tz
  if offset = -1 then return -1
  moment f offset

def parse8601Time (ss : Text) : Option ℚ :=
  if 29 < ss.length then some (-1)
  else do
    let (valid, f) ← validDate ss trials ⟨0, 0, 0, 0, 0, .finite 0, ['Z']⟩
    if valid then timestamp f else return -1

def dateRead (ss : Text) : Option ((ℤ × ℤ × ℤ) × Text) := do
  let (y, t) ← scanInt 4 ss
  let t ← scanLiteral '-' t
  let (M, t) ← scanInt 2 t
  let t ← scanLiteral '-' t
  let (d, t) ← scanInt 2 t
  return ((y, M, d), t)

def secondRead (h m : ℤ) (scanned : Option (Double × Text)) (t : Text) :
    (ℤ × ℤ × Double) × Text :=
  match scanned with
  | some (s, t) => ((h, m, s), t)
  | none => ((h, m, .finite 0), t)

def timeRead (t : Text) : Option ((ℤ × ℤ × Double) × Text) :=
  (scanInt 2 t).map fun (h, t) =>
    match (scanLiteral ':' t).bind (scanInt 2) with
    | some (m, t) => secondRead h m ((scanLiteral ':' t).bind scanReal) t
    | none =>
      match scanInt 2 t with
      | some (m, t) => secondRead h m (scanReal t) t
      | none => ((h, 0, .finite 0), t)

/-- The text for the time zone, and nothing when it is too long. -/
def zoneRead (t : Text) : Option Text :=
  match scanWord t with
  | none => some ['Z']
  | some (word, _) => if word.length < 10 then some word else none

def fieldsRead (ss : Text) : Option (Option Fields) :=
  match dateRead ss with
  | none => some none
  | some ((y, M, d), t) =>
    match (scanLiteral 'T' t).bind timeRead with
    | some ((h, m, s), t) => (zoneRead t).map fun tz => some ⟨y, M, d, h, m, s, tz⟩
    | none =>
      match scanWord t with
      | none => some (some ⟨y, M, d, 0, 0, .finite 0, ['Z']⟩)
      | some (word, _) => if word.length < 10 then some none else none

variable {ds : List Directive} {args : List (Argument Fields)} {ss t : Text} {f : Fields}

def dateDirectives : List Directive := [.int 4, .literal '-', .int 2, .literal '-', .int 2]

theorem scan_date (ds : List Directive) (args : List (Argument Fields)) (ss : Text) (f : Fields) :
    match dateRead ss with
    | none => ∃ n f', scan (dateDirectives ++ ds) (year :: month :: day :: args) ss f =
        some (n, f') ∧ n < 3
    | some ((y, M, d), t) => scan (dateDirectives ++ ds) (year :: month :: day :: args) ss f =
        (scan ds args t { f with y := y, M := M, d := d }).map fun (n, f) => (n + 3, f) := by
  unfold dateRead dateDirectives year month day
  cases hy : scanInt 4 ss with
  | none => exact ⟨0, f, by simp [scan, hy], by decide⟩
  | some r =>
    obtain ⟨y, t⟩ := r
    cases hl : scanLiteral '-' t with
    | none => simp [scan, hy, hl]
    | some t₁ =>
      cases hM : scanInt 2 t₁ with
      | none => simp [scan, hy, hl, hM]
      | some r =>
        obtain ⟨M, t₂⟩ := r
        cases hl' : scanLiteral '-' t₂ with
        | none => simp [scan, hy, hl, hM, hl']
        | some t₃ =>
          cases hd : scanInt 2 t₃ with
          | none => simp [scan, hy, hl, hM, hl', hd]
          | some r =>
            obtain ⟨d, t₄⟩ := r
            simp only [scan, hy, hl, hM, hl', hd, List.cons_append, List.nil_append,
              Option.bind_eq_bind, Option.bind_some, Option.pure_def]
            cases scan ds args t₄ _ <;> simp

theorem validDate_step {y M d : ℤ} (h : dateRead ss = some ((y, M, d), t))
    {enough : ℕ → Bool} {ts : List Trial} (format : String) (ds : List Directive)
    (hformat : directives format.toList = dateDirectives ++ ds) :
    validDate ss (⟨format, year :: month :: day :: args, enough⟩ :: ts) f =
      (scan ds args t { f with y := y, M := M, d := d }).bind fun (n, f) =>
        if enough (n + 3) then some (true, f) else validDate ss ts f := by
  have hdate := scan_date ds args ss f
  rw [h] at hdate
  rw [validDate, sscanf, hformat, hdate, Option.bind_map]
  rfl

theorem scan_literal {c : Char} : scan (.literal c :: ds) args t f =
    match scanLiteral c t with
    | none => some (0, f)
    | some rest => scan ds args rest f := by
  cases args <;> rfl

theorem scan_int {width : ℕ} {assign : ℤ → Fields → Fields} :
    scan (.int width :: ds) (.int assign :: args) t f =
      match scanInt width t with
      | none => some (0, f)
      | some (i, rest) => (scan ds args rest (assign i f)).map fun (n, f) => (n + 1, f) := rfl

theorem scan_real {assign : Double → Fields → Fields} :
    scan (.real :: ds) (.real assign :: args) t f =
      match scanReal t with
      | none => some (0, f)
      | some (x, rest) => (scan ds args rest (assign x f)).map fun (n, f) => (n + 1, f) := rfl

theorem scan_zone (t : Text) : ∃ n, ∀ f : Fields, f.tz = ['Z'] →
    scan [.word] [timeZone] t f = (zoneRead t).map fun tz => (n, { f with tz := tz }) := by
  unfold zoneRead timeZone
  cases hword : scanWord t with
  | none =>
    refine ⟨0, fun f hf => ?_⟩
    simp [scan, hword, ← hf]
  | some w =>
    refine ⟨1, fun f _ => ?_⟩
    by_cases hlength : w.1.length < 10 <;> simp [scan, hword, hlength]

theorem scanInt_of_colon {width : ℕ} {t' : Text} (h : scanLiteral ':' t = some t') :
    scanInt width t = none := by
  unfold scanLiteral at h
  split at h
  · cases h
  split at h
  · rename_i c rest hc
    subst hc
    exact scanInt_other (by decide) (by decide) (by decide)
  · cases h

/-- Each format begins with the date, and three items are not enough without it. -/
def DateFirst (t : Trial) : Prop :=
  ∃ ds args, directives t.format.toList = dateDirectives ++ ds ∧
    t.args = year :: month :: day :: args ∧ ∀ n < 3, t.enough n = false

theorem trials_dateFirst : ∀ t ∈ trials, DateFirst t := by
  intro t ht
  simp only [trials, List.mem_cons, List.not_mem_nil, or_false] at ht
  rcases ht with rfl | rfl | rfl | rfl | rfl | rfl
  all_goals exact ⟨_, _, rfl, rfl, by decide⟩

theorem validDate_noDate (h : dateRead ss = none) {ts : List Trial}
    (hts : ∀ t ∈ ts, DateFirst t) : ∀ f, ∃ f', validDate ss ts f = some (false, f') := by
  induction ts with
  | nil => exact fun f => ⟨f, rfl⟩
  | cons trial ts ih =>
    intro f
    obtain ⟨⟨ds, args, hformat, hargs, henough⟩, hrest⟩ := List.forall_mem_cons.mp hts
    have hdate := scan_date ds args ss f
    rw [h] at hdate
    obtain ⟨n, f', hscan, hn⟩ := hdate
    unfold validDate sscanf
    rw [hformat, hargs, hscan, Option.bind_some]
    simp only [henough n hn, Bool.false_eq_true, if_false]
    exact ih hrest f'

theorem validDate_eq (ss : Text) :
    (validDate ss trials ⟨0, 0, 0, 0, 0, .finite 0, ['Z']⟩).map
      (fun r => if r.1 then some r.2 else none) = fieldsRead ss := by
  unfold fieldsRead
  cases hdate : dateRead ss with
  | none =>
    obtain ⟨f', hf'⟩ := validDate_noDate hdate trials_dateFirst ⟨0, 0, 0, 0, 0, .finite 0, ['Z']⟩
    rw [hf']
    rfl
  | some r =>
    obtain ⟨⟨y, M, d⟩, t⟩ := r
    unfold trials
    simp only [validDate_step hdate "%4d-%2d-%2dT%2d:%2d:%lf%s"
        [.literal 'T', .int 2, .literal ':', .int 2, .literal ':', .real, .word] rfl,
      validDate_step hdate "%4d-%2d-%2dT%2d%2d%lf%s"
        [.literal 'T', .int 2, .int 2, .real, .word] rfl,
      validDate_step hdate "%4d-%2d-%2dT%2d:%2d%s"
        [.literal 'T', .int 2, .literal ':', .int 2, .word] rfl,
      validDate_step hdate "%4d-%2d-%2dT%2d%2d%s" [.literal 'T', .int 2, .int 2, .word] rfl,
      validDate_step hdate "%4d-%2d-%2dT%2d%s" [.literal 'T', .int 2, .word] rfl,
      validDate_step hdate "%4d-%2d-%2d%s" [.word] rfl]
    cases hT : scanLiteral 'T' t with
    | none =>
      cases hword : scanWord t with
      | none => simp [scan, hT, hword, timeZone, validDate]
      | some w =>
        by_cases hlength : w.1.length < 10 <;>
          simp [scan, hT, hword, hlength, timeZone, validDate]
    | some t₁ =>
      cases hh : scanInt 2 t₁ with
      | none =>
        cases hword : scanWord t with
        | none => simp [scan, hT, hh, hword, hour, timeZone, validDate, timeRead]
        | some w =>
          by_cases hlength : w.1.length < 10 <;>
            simp [scan, hT, hh, hword, hlength, hour, timeZone, validDate, timeRead]
      | some r =>
        obtain ⟨h, t₂⟩ := r
        cases hcolon : scanLiteral ':' t₂ with
        | none =>
          cases hm : scanInt 2 t₂ with
          | none =>
            obtain ⟨n, hzone⟩ := scan_zone t₂
            cases hz : zoneRead t₂ <;>
              simp [scan_literal, scan_int, hour, minute, hT, hh, hcolon, hm, hzone, hz, timeRead]
          | some r =>
            obtain ⟨m, t₃⟩ := r
            cases hs : scanReal t₃ with
            | none =>
              obtain ⟨n, hzone⟩ := scan_zone t₃
              cases hz : zoneRead t₃ <;>
                simp [scan_literal, scan_int, scan_real, hour, minute, second, hT, hh, hcolon, hm,
                  hs, hzone, hz, timeRead, secondRead]
            | some r =>
              obtain ⟨x, t₄⟩ := r
              obtain ⟨n, hzone⟩ := scan_zone t₄
              cases hz : zoneRead t₄ <;>
                simp [scan_literal, scan_int, scan_real, hour, minute, second, hT, hh, hcolon, hm,
                  hs, hzone, hz, timeRead, secondRead]
        | some t₃ =>
          have hnone : scanInt 2 t₂ = none := scanInt_of_colon hcolon
          cases hm : scanInt 2 t₃ with
          | none =>
            obtain ⟨n, hzone⟩ := scan_zone t₂
            cases hz : zoneRead t₂ <;>
              simp [scan_literal, scan_int, hour, minute, hT, hh, hcolon, hm, hnone, hzone, hz,
                timeRead]
          | some r =>
            obtain ⟨m, t₄⟩ := r
            cases hs : (scanLiteral ':' t₄).bind scanReal with
            | none =>
              obtain ⟨n, hzone⟩ := scan_zone t₄
              cases hcolon' : scanLiteral ':' t₄ with
              | none =>
                cases hz : zoneRead t₄ <;>
                  simp [scan_literal, scan_int, hour, minute, hT, hh, hcolon, hm, hnone, hcolon',
                    hzone, hz, timeRead, secondRead]
              | some t₅ =>
                have hreal : scanReal t₅ = none := by simpa [hcolon'] using hs
                cases hz : zoneRead t₄ <;>
                  simp [scan_literal, scan_int, scan_real, hour, minute, second, hT, hh, hcolon, hm,
                    hnone, hcolon', hreal, hzone, hz, timeRead, secondRead]
            | some r =>
              obtain ⟨x, t₆⟩ := r
              obtain ⟨t₅, hcolon', hreal⟩ := Option.bind_eq_some_iff.mp hs
              obtain ⟨n, hzone⟩ := scan_zone t₆
              cases hz : zoneRead t₆ <;>
                simp [scan_literal, scan_int, scan_real, hour, minute, second, hT, hh, hcolon, hm,
                  hcolon', hreal, hzone, hz, timeRead, secondRead]

theorem parse8601Time_eq (ss : Text) : parse8601Time ss =
    if 29 < ss.length then some (-1)
    else (fieldsRead ss).bind fun fields => (fields.map timestamp).getD (some (-1)) := by
  rw [← validDate_eq]
  unfold parse8601Time
  split
  · rfl
  cases validDate ss trials ⟨0, 0, 0, 0, 0, .finite 0, ['Z']⟩ with
  | none => rfl
  | some r =>
    obtain ⟨valid, f⟩ := r
    cases valid <;> rfl

end Parse8601Time
