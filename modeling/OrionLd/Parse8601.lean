import OrionLd.KjTree
import OrionLd.Strtod

/-! parse8601 of globals.cpp: the durations of ISO 8601. The number in front of a designator is
looked at in the part of the days only, what stands before T is dropped, and the conversions are
those of atoi and, for seconds, of a float. -/
namespace Parse8601

open KjTree Scanf Strtod List
open NearestFloat (nearest binary32)

def toSeconds (value : ℤ) (what : Char) (dayPart : Bool) : ℤ :=
  if dayPart then
    if what = 'Y' then 365 * 24 * 3600 * value
    else if what = 'M' then 30 * 24 * 3600 * value
    else if what = 'W' then 7 * 24 * 3600 * value
    else if what = 'D' then 24 * 3600 * value
    else -1
  else if what = 'H' then 3600 * value
  else if what = 'M' then 60 * value
  else if what = 'S' then value
  else -1

/-- round of the C library, halves away from zero. -/
def roundAway (x : ℚ) : ℤ := if x < 0 then -⌊-x + 1 / 2⌋ else ⌊x + 1 / 2⌋

/-- The number of seconds goes through a float; none where it does not fit in an int. -/
def rounded (start : Text) : Option ℤ :=
  match atof start with
  | .finite secs =>
    let value := roundAway (nearest binary32 secs)
    if -2 ^ 31 ≤ value ∧ value < 2 ^ 31 then some value else none
  | _ => none

structure Scanner where
  dayPart : Bool
  digitsPending : Bool
  start : Text
  accumulated : ℤ

/-- None where the 64 bits overflow. -/
def accumulate (z : Scanner) (value : ℤ) (what : Char) : Option Scanner :=
  let accumulated := z.accumulated + toSeconds value what z.dayPart
  if -2 ^ 63 ≤ accumulated ∧ accumulated < 2 ^ 63 then some ⟨z.dayPart, false, [], accumulated⟩
  else none

/-- None is undefined behaviour, and none inside the return of -1. -/
def step (z : Scanner) (c : Char) : Option (Option Scanner) :=
  if c.isDigit || c == '.' || c == ',' then
    some (some { z with start := z.start ++ [c], digitsPending := true })
  else if z.dayPart && (c == 'Y' || c == 'M' || c == 'D' || c == 'W') then
    let value := atoi z.start
    if value = 0 ∧ z.start.head? ≠ some '0' then some none
    else (accumulate z value c).map some
  else if z.dayPart && c == 'T' then
    some (some { z with dayPart := false, start := [], digitsPending := false })
  else if !z.dayPart && (c == 'H' || c == 'M' || c == 'S') then
    let value := if c = 'S' then rounded z.start else some (atoi z.start)
    value.bind fun value => (accumulate z value c).map some
  else some none

def scan : Scanner → Text → Option (Option ℤ)
  | z, [] => some (if z.digitsPending then none else some z.accumulated)
  | z, c :: duration =>
    match step z c with
    | none => none
    | some none => some none
    | some (some z) => scan z duration

def parse8601 (s : Text) : Option ℤ :=
  match cString s with
  | 'P' :: duration =>
    if duration = [] then some (-1)
    else (scan ⟨true, false, [], 0⟩ duration).map fun result => result.getD (-1)
  | _ => some (-1)

structure Item where
  number : Text
  what : Char

def designates (dayPart : Bool) (c : Char) : Bool :=
  if dayPart then c == 'Y' || c == 'M' || c == 'D' || c == 'W'
  else c == 'H' || c == 'M' || c == 'S'

def textOf (items : List Item) : Text := items.flatMap fun i => i.number ++ [i.what]

/-- The items before T and behind it. The characters between the last designator and T belong to no
item. -/
structure Reading where
  days : List Item
  time : Option (Text × List Item)

def Reading.body (r : Reading) : Text :=
  textOf r.days ++ r.time.elim [] fun p => p.1 ++ 'T' :: textOf p.2

def Reading.text (r : Reading) : Text := 'P' :: r.body

def Reading.items (r : Reading) : List Item := r.time.elim [] Prod.snd

/-- Digits, and more of them behind a point or a comma. -/
def IsNumber (t : Text) : Prop :=
  ∃ whole decimals, (∀ c ∈ whole ++ decimals, c.isDigit = true) ∧ whole ++ decimals ≠ [] ∧
    (decimals = [] ∧ t = whole ∨ ∃ c, (c = '.' ∨ c = ',') ∧ t = whole ++ c :: decimals)

def IsInteger (t : Text) : Prop := t ≠ [] ∧ ∀ c ∈ t, c.isDigit = true

/-- Pairs of a number and a designator, at least one of them, and at least one behind T. -/
structure Reading.Proper (r : Reading) : Prop where
  days : ∀ i ∈ r.days, IsNumber i.number ∧ designates true i.what = true
  time : ∀ p ∈ r.time, p.1 = [] ∧ p.2 ≠ [] ∧
    ∀ i ∈ p.2, IsNumber i.number ∧ designates false i.what = true
  some : r.days ≠ [] ∨ r.time ≠ none

def WellFormed (s : Text) : Prop := ∃ r : Reading, r.Proper ∧ s = r.text

def Reading.Integers (r : Reading) : Prop := ∀ i ∈ r.days ++ r.items, IsInteger i.number

def unitOf (dayPart : Bool) (what : Char) : ℤ :=
  if dayPart then
    if what = 'Y' then 365 * 24 * 3600
    else if what = 'M' then 30 * 24 * 3600
    else if what = 'W' then 7 * 24 * 3600
    else 24 * 3600
  else if what = 'H' then 3600
  else if what = 'M' then 60
  else 1

def worth (dayPart : Bool) (i : Item) : ℤ := unitOf dayPart i.what * valueOf 10 i.number

def Reading.total (r : Reading) : ℤ :=
  (r.days.map (worth true)).sum + (r.items.map (worth false)).sum

def ParsedExactly (s : Text) : Prop :=
  ∃ result, parse8601 s = some result ∧ (¬ WellFormed s → result = -1) ∧
    (∀ r : Reading, r.Proper → s = r.text → r.Integers → r.total < 2 ^ 31 → result = r.total) ∧
    (result = -1 ∨ 0 ≤ result)

def IsMark (c : Char) : Prop := c.isDigit = true ∨ c = '.' ∨ c = ','

def Marks (t : Text) : Prop := ∀ c ∈ t, IsMark c

def Checked (dayPart : Bool) (number : Text) : Prop :=
  dayPart = true → atoi number ≠ 0 ∨ number.head? = some '0'

structure Item.Taken (dayPart : Bool) (i : Item) : Prop where
  number : Marks i.number
  what : designates dayPart i.what = true
  checked : Checked dayPart i.number

def valueOfItem (dayPart : Bool) (i : Item) : Option ℤ :=
  if dayPart = false ∧ i.what = 'S' then rounded i.number else some (atoi i.number)

def extend (dayPart : Bool) (accumulated : ℤ) (i : Item) : Option ℤ :=
  (valueOfItem dayPart i).bind fun value =>
    let accumulated := accumulated + unitOf dayPart i.what * value
    if -2 ^ 63 ≤ accumulated ∧ accumulated < 2 ^ 63 then some accumulated else none

def scanner (dayPart : Bool) (start : Text) (accumulated : ℤ) : Scanner :=
  ⟨dayPart, !start.isEmpty, start, accumulated⟩

variable {dayPart : Bool} {start rest : Text} {accumulated : ℤ} {c : Char}

theorem designates_cases (h : designates dayPart c = true) :
    dayPart = true ∧ (c = 'Y' ∨ c = 'M' ∨ c = 'D' ∨ c = 'W') ∨
      dayPart = false ∧ (c = 'H' ∨ c = 'M' ∨ c = 'S') := by
  cases dayPart <;> simpa [designates, or_assoc] using h

theorem marks_nil : Marks [] := fun _ h => nomatch h

theorem isMark_iff : IsMark c ↔ (c.isDigit || c == '.' || c == ',') = true := by
  simp [IsMark, or_assoc]

theorem not_mark (h : designates dayPart c = true) : ¬ IsMark c := by
  rcases designates_cases h with ⟨-, rfl | rfl | rfl | rfl⟩ | ⟨-, rfl | rfl | rfl⟩
  all_goals exact fun h => absurd (isMark_iff.mp h) (by decide)

theorem not_mark_time : ¬ IsMark 'T' := fun h => absurd (isMark_iff.mp h) (by decide)

theorem toSeconds_eq (h : designates dayPart c = true) (value : ℤ) :
    toSeconds value c dayPart = unitOf dayPart c * value := by
  rcases designates_cases h with ⟨rfl, rfl | rfl | rfl | rfl⟩ | ⟨rfl, rfl | rfl | rfl⟩
  all_goals simp [toSeconds, unitOf]

theorem step_mark (h : IsMark c) :
    step (scanner dayPart start accumulated) c =
      some (some (scanner dayPart (start ++ [c]) accumulated)) := by
  rw [step, if_pos (isMark_iff.mp h)]
  simp [scanner]

theorem accumulate_eq (h : designates dayPart c = true) (value : ℤ) :
    accumulate (scanner dayPart start accumulated) value c =
      (let sum := accumulated + unitOf dayPart c * value
       if -2 ^ 63 ≤ sum ∧ sum < 2 ^ 63 then some sum else none).map (scanner dayPart []) := by
  unfold accumulate
  dsimp only [scanner]
  rw [toSeconds_eq h]
  split <;> rfl

theorem step_item (h : designates dayPart c = true) (hchecked : Checked dayPart start) :
    step (scanner dayPart start accumulated) c =
      (extend dayPart accumulated ⟨start, c⟩).map fun sum => some (scanner dayPart [] sum) := by
  have hmark : ¬ (c.isDigit || c == '.' || c == ',') = true :=
    fun hc => not_mark h (isMark_iff.mpr hc)
  unfold step
  rw [if_neg hmark]
  cases dayPart with
  | true =>
    have hdays : (c == 'Y' || c == 'M' || c == 'D' || c == 'W') = true := h
    have hzero : ¬ (atoi start = 0 ∧ start.head? ≠ some '0') := by
      rintro ⟨hzero, hhead⟩
      exact (hchecked rfl).elim (fun hne => hne hzero) hhead
    simp only [scanner, hdays, Bool.and_self, if_true]
    refine (if_neg hzero).trans ?_
    refine (congrArg (Option.map some) (accumulate_eq h (atoi start))).trans ?_
    rw [Option.map_map]
    rfl
  | false =>
    have hclock : (c == 'H' || c == 'M' || c == 'S') = true := h
    simp only [scanner, hclock, Bool.false_and, Bool.not_false, Bool.and_self, if_true,
      Bool.false_eq_true, if_false]
    rw [show (⟨false, !start.isEmpty, start, accumulated⟩ : Scanner) =
      scanner false start accumulated from rfl]
    simp only [accumulate_eq h, Option.map_map, extend, valueOfItem, true_and, Option.map_bind]
    rfl

theorem step_unchecked (h : designates true c = true) (hchecked : ¬ Checked true start) :
    step (scanner true start accumulated) c = some none := by
  have hmark : ¬ (c.isDigit || c == '.' || c == ',') = true :=
    fun hc => not_mark h (isMark_iff.mpr hc)
  have hdays : (c == 'Y' || c == 'M' || c == 'D' || c == 'W') = true := h
  have hzero : atoi start = 0 ∧ start.head? ≠ some '0' := by
    constructor
    · by_contra hne
      exact hchecked fun _ => .inl hne
    · intro hhead
      exact hchecked fun _ => .inr hhead
  unfold step
  rw [if_neg hmark]
  simp only [scanner, hdays, Bool.and_self, if_true]
  exact if_pos hzero

theorem step_mark_time :
    step (scanner true start accumulated) 'T' = some (some (scanner false [] accumulated)) := rfl

theorem step_other (hmark : ¬ IsMark c) (hwhat : designates dayPart c = false)
    (htime : dayPart = true → c ≠ 'T') :
    step (scanner dayPart start accumulated) c = some none := by
  unfold step
  rw [if_neg fun hc => hmark (isMark_iff.mpr hc)]
  cases dayPart with
  | true =>
    have hdays : (c == 'Y' || c == 'M' || c == 'D' || c == 'W') = false := hwhat
    have hT : (c == 'T') = false := beq_eq_false_iff_ne.mpr (htime rfl)
    simp [scanner, hdays, hT]
  | false =>
    have hclock : (c == 'H' || c == 'M' || c == 'S') = false := hwhat
    simp only [scanner, hclock, Bool.false_and, Bool.and_false, Bool.false_eq_true, if_false]

theorem scan_marks {t : Text} (h : Marks t) :
    scan (scanner dayPart start accumulated) (t ++ rest) =
      scan (scanner dayPart (start ++ t) accumulated) rest := by
  induction t generalizing start with
  | nil => rw [nil_append, append_nil]
  | cons c t ih =>
    obtain ⟨hc, ht⟩ := forall_mem_cons.mp h
    rw [cons_append, scan, step_mark hc]
    refine (ih ht).trans ?_
    rw [append_assoc, singleton_append]

theorem scan_item {i : Item} (h : i.Taken dayPart) :
    scan (scanner dayPart [] accumulated) (i.number ++ i.what :: rest) =
      (extend dayPart accumulated i).bind fun sum => scan (scanner dayPart [] sum) rest := by
  rw [scan_marks h.number, nil_append, scan, step_item h.what h.checked]
  cases extend dayPart accumulated i <;> rfl

theorem scan_items {items : List Item} (h : ∀ i ∈ items, i.Taken dayPart) :
    scan (scanner dayPart [] accumulated) (textOf items ++ rest) =
      (items.foldlM (extend dayPart) accumulated).bind fun sum =>
        scan (scanner dayPart [] sum) rest := by
  induction items generalizing accumulated with
  | nil => rfl
  | cons i items ih =>
    obtain ⟨hi, hitems⟩ := forall_mem_cons.mp h
    have htext : textOf (i :: items) ++ rest = i.number ++ i.what :: (textOf items ++ rest) := by
      simp [textOf]
    rw [htext, scan_item hi, foldlM_cons]
    cases extend dayPart accumulated i with
    | none => rfl
    | some sum => exact ih hitems

structure Reading.Taken (r : Reading) : Prop where
  days : ∀ i ∈ r.days, i.Taken true
  time : ∀ p ∈ r.time, Marks p.1 ∧ ∀ i ∈ p.2, i.Taken false

def Reading.sum (r : Reading) : Option ℤ :=
  (r.days.foldlM (extend true) 0).bind fun sum => r.items.foldlM (extend false) sum

def Reading.inDays (r : Reading) : Bool := r.time.isNone

def Reading.markTime (r : Reading) (stray : Text) : Reading := ⟨r.days, some (stray, [])⟩

def Reading.snoc (r : Reading) (i : Item) : Reading :=
  match r.time with
  | none => ⟨r.days ++ [i], none⟩
  | some p => ⟨r.days, some (p.1, p.2 ++ [i])⟩

variable {r : Reading}

theorem textOf_snoc (items : List Item) (i : Item) :
    textOf (items ++ [i]) = textOf items ++ (i.number ++ [i.what]) := by
  simp [textOf]

theorem scan_reading (h : r.Taken) :
    scan (scanner true [] 0) (r.body ++ rest) =
      r.sum.bind fun sum => scan (scanner r.inDays [] sum) rest := by
  obtain ⟨days, time⟩ := r
  unfold Reading.body Reading.sum
  rw [append_assoc, scan_items h.days, Option.bind_assoc]
  congr 1
  funext sum
  cases time with
  | none => rfl
  | some p =>
    obtain ⟨hstray, hitems⟩ := h.time p rfl
    have htext : (some p).elim [] (fun p : Text × List Item => p.1 ++ 'T' :: textOf p.2) ++ rest =
        p.1 ++ 'T' :: (textOf p.2 ++ rest) := by simp
    rw [htext, scan_marks hstray, scan, step_mark_time]
    exact scan_items hitems

theorem body_snoc (r : Reading) (i : Item) :
    (r.snoc i).body = r.body ++ (i.number ++ [i.what]) := by
  obtain ⟨days, time⟩ := r
  cases time <;> simp [Reading.snoc, Reading.body, textOf_snoc]

theorem body_markTime (h : r.time = none) (stray : Text) :
    (r.markTime stray).body = r.body ++ (stray ++ ['T']) := by
  simp [Reading.markTime, Reading.body, h, textOf]

theorem sum_snoc (h : r.sum = some accumulated) (i : Item) :
    (r.snoc i).sum = extend r.inDays accumulated i := by
  obtain ⟨days, time⟩ := r
  cases time with
  | none =>
    have hdays : days.foldlM (extend true) 0 = some accumulated := by
      simpa [Reading.sum, Reading.items] using h
    simp [Reading.snoc, Reading.sum, Reading.items, Reading.inDays, foldlM_append, hdays]
  | some p =>
    simp only [Reading.snoc, Reading.sum, Reading.items, Option.elim_some, foldlM_append,
      Reading.inDays] at h ⊢
    cases hdays : days.foldlM (extend true) 0 with
    | none =>
      rw [hdays] at h
      cases h
    | some sum =>
      rw [hdays] at h
      have hitems : p.2.foldlM (extend false) sum = some accumulated := h
      simp [hitems]

theorem sum_markTime (h : r.sum = some accumulated) (htime : r.time = none) (stray : Text) :
    (r.markTime stray).sum = some accumulated := by
  rw [← h]
  simp [Reading.markTime, Reading.sum, Reading.items, htime]

theorem taken_snoc (h : r.Taken) {i : Item} (hi : i.Taken r.inDays) : (r.snoc i).Taken := by
  obtain ⟨days, time⟩ := r
  cases time with
  | none =>
    constructor
    · intro j hj
      rcases mem_append.mp hj with hj | hj
      · exact h.days j hj
      · obtain rfl := mem_singleton.mp hj
        exact hi
    · intro p hp
      cases hp
  | some p =>
    constructor
    · exact h.days
    · rintro _ ⟨⟩
      obtain ⟨hstray, hitems⟩ := h.time p rfl
      refine ⟨hstray, ?_⟩
      intro j hj
      rcases mem_append.mp hj with hj | hj
      · exact hitems j hj
      · obtain rfl := mem_singleton.mp hj
        exact hi

theorem taken_markTime (h : r.Taken) {stray : Text} (hstray : Marks stray) :
    (r.markTime stray).Taken := by
  constructor
  · exact h.days
  · rintro _ ⟨⟩
    exact ⟨hstray, fun _ hi => nomatch hi⟩

theorem inDays_snoc (r : Reading) (i : Item) : (r.snoc i).inDays = r.inDays := by
  obtain ⟨days, time⟩ := r
  cases time <;> rfl

/-- A beginning has been read; the rest is read too, or refused, or a sum is not defined. -/
theorem scan_cases (h : r.Taken) (hstart : Marks start) (hsum : r.sum = some accumulated)
    (rest : Text) : (∃ q : Reading, q.Taken ∧ q.body = r.body ++ (start ++ rest) ∧
      scan (scanner r.inDays start accumulated) rest = q.sum.map some) ∨
    scan (scanner r.inDays start accumulated) rest = some none ∨
    scan (scanner r.inDays start accumulated) rest = none ∧
      ∃ q : Reading, q.Taken ∧ q.body <+: r.body ++ (start ++ rest) ∧ q.body ≠ [] ∧
        q.sum = none := by
  induction rest generalizing r start accumulated with
  | nil =>
    cases start with
    | nil =>
      refine .inl ⟨r, h, by simp, ?_⟩
      rw [hsum]
      rfl
    | cons c start => exact .inr (.inl rfl)
  | cons c rest ih =>
    by_cases hmark : IsMark c
    · have hmarks : Marks (start ++ [c]) := forall_mem_append.mpr ⟨hstart, by simpa using hmark⟩
      have htext : start ++ c :: rest = start ++ [c] ++ rest := by simp
      rw [scan, step_mark hmark, htext]
      exact ih h hmarks hsum
    · by_cases hwhat : designates r.inDays c = true
      · by_cases hchecked : Checked r.inDays start
        · have htaken : (r.snoc ⟨start, c⟩).Taken := taken_snoc h ⟨hstart, hwhat, hchecked⟩
          have htext : r.body ++ (start ++ c :: rest) =
            (r.snoc ⟨start, c⟩).body ++ ([] ++ rest) := by
            rw [body_snoc]
            simp
          have hsnoc := sum_snoc hsum ⟨start, c⟩
          rw [scan, step_item hwhat hchecked, htext]
          cases hextend : extend r.inDays accumulated ⟨start, c⟩ with
          | none =>
            refine .inr (.inr ⟨rfl, _, htaken, prefix_append _ _, ?_, hsnoc.trans hextend⟩)
            rw [body_snoc]
            simp
          | some sum =>
            have hnext := ih htaken marks_nil (hsnoc.trans hextend)
            rw [inDays_snoc] at hnext
            exact hnext
        · have hdays : r.inDays = true := by
            by_contra hdays
            exact hchecked fun h => absurd h hdays
          rw [hdays] at hwhat hchecked ⊢
          refine .inr (.inl ?_)
          rw [scan, step_unchecked hwhat hchecked]
      · by_cases htime : r.inDays = true ∧ c = 'T'
        · obtain ⟨hdays, rfl⟩ := htime
          have hnone : r.time = none := Option.isNone_iff_eq_none.mp hdays
          have htext : r.body ++ (start ++ 'T' :: rest) =
            (r.markTime start).body ++ ([] ++ rest) := by
            rw [body_markTime hnone]
            simp
          rw [hdays, scan, step_mark_time, htext]
          exact ih (taken_markTime h hstart) marks_nil (sum_markTime hsum hnone start)
        · refine .inr (.inl ?_)
          rw [scan, step_other hmark (Bool.eq_false_of_not_eq_true hwhat)
            fun hdays hc => htime ⟨hdays, hc⟩]

/-- A reading whose items have numbers of the right characters and designators of their part. -/
structure Reading.Valid (r : Reading) : Prop where
  days : ∀ i ∈ r.days, Marks i.number ∧ designates true i.what = true
  time : ∀ p ∈ r.time, Marks p.1 ∧ ∀ i ∈ p.2, Marks i.number ∧ designates false i.what = true

variable {q : Reading} {s : Text}

theorem Reading.Taken.valid (h : r.Taken) : r.Valid := by
  constructor
  · exact fun i hi => ⟨(h.days i hi).number, (h.days i hi).what⟩
  · intro p hp
    obtain ⟨hstray, hitems⟩ := h.time p hp
    exact ⟨hstray, fun i hi => ⟨(hitems i hi).number, (hitems i hi).what⟩⟩

theorem IsNumber.marks {t : Text} (h : IsNumber t) : Marks t := by
  obtain ⟨whole, decimals, hdigits, -, ⟨-, rfl⟩ | ⟨c, hc, rfl⟩⟩ := h
  · exact fun c hc => .inl (hdigits c (mem_append_left _ hc))
  intro d hd
  rcases mem_append.mp hd with hd | hd
  · exact .inl (hdigits d (mem_append_left _ hd))
  rcases mem_cons.mp hd with rfl | hd
  · exact .inr hc
  · exact .inl (hdigits d (mem_append_right _ hd))

theorem Reading.Proper.valid (h : r.Proper) : r.Valid := by
  constructor
  · exact fun i hi => ⟨(h.days i hi).1.marks, (h.days i hi).2⟩
  · intro p hp
    obtain ⟨hstray, -, hitems⟩ := h.time p hp
    exact ⟨hstray ▸ marks_nil, fun i hi => ⟨(hitems i hi).1.marks, (hitems i hi).2⟩⟩

theorem marks_unique {a b t : Text} {d : Char} (ha : Marks a) (hb : Marks b) (hc : ¬ IsMark c)
    (hd : ¬ IsMark d) (h : a ++ c :: s = b ++ d :: t) : a = b ∧ c = d ∧ s = t := by
  induction a generalizing b with
  | nil =>
    cases b with
    | nil =>
      cases h
      exact ⟨rfl, rfl, rfl⟩
    | cons e b =>
      obtain ⟨rfl, -⟩ := cons.inj h
      exact absurd (hb c mem_cons_self) hc
  | cons e a ih =>
    cases b with
    | nil =>
      obtain ⟨rfl, -⟩ := cons.inj h
      exact absurd (ha e mem_cons_self) hd
    | cons f b =>
      obtain ⟨rfl, hrest⟩ := cons.inj h
      obtain ⟨rfl, rfl, rfl⟩ := ih (forall_mem_cons.mp ha).2 (forall_mem_cons.mp hb).2 hrest
      exact ⟨rfl, rfl, rfl⟩

theorem textOf_cons (i : Item) (items : List Item) (rest : Text) :
    textOf (i :: items) ++ rest = i.number ++ i.what :: (textOf items ++ rest) := by
  simp [textOf]

theorem textOf_unique {items more : List Item}
    (hitems : ∀ i ∈ items, Marks i.number ∧ designates dayPart i.what = true)
    (hmore : ∀ i ∈ more, Marks i.number ∧ designates dayPart i.what = true)
    (h : textOf items = textOf more) : items = more := by
  induction items generalizing more with
  | nil =>
    cases more with
    | nil => rfl
    | cons j more => simp [textOf] at h
  | cons i items ih =>
    cases more with
    | nil => simp [textOf] at h
    | cons j more =>
      obtain ⟨hi, hitems⟩ := forall_mem_cons.mp hitems
      obtain ⟨hj, hmore⟩ := forall_mem_cons.mp hmore
      rw [← append_nil (textOf (i :: items)), ← append_nil (textOf (j :: more)),
        textOf_cons, textOf_cons] at h
      obtain ⟨hnumber, hwhat, hrest⟩ := marks_unique hi.1 hj.1 (not_mark hi.2) (not_mark hj.2) h
      rw [append_nil, append_nil] at hrest
      rw [ih hitems hmore hrest]
      cases i
      cases j
      simp_all

def timeText (time : Option (Text × List Item)) : Text :=
  time.elim [] fun p => p.1 ++ 'T' :: textOf p.2

theorem time_unique {time time' : Option (Text × List Item)}
    (h : ∀ p ∈ time, Marks p.1 ∧ ∀ i ∈ p.2, Marks i.number ∧ designates false i.what = true)
    (h' : ∀ p ∈ time', Marks p.1 ∧ ∀ i ∈ p.2, Marks i.number ∧ designates false i.what = true)
    (heq : timeText time = timeText time') : time = time' := by
  cases time with
  | none =>
    cases time' with
    | none => rfl
    | some p => simp [timeText] at heq
  | some p =>
    cases time' with
    | none => simp [timeText] at heq
    | some q =>
      obtain ⟨hp, hitems⟩ := h p rfl
      obtain ⟨hq, hmore⟩ := h' q rfl
      obtain ⟨hstray, -, hrest⟩ := marks_unique hp hq not_mark_time not_mark_time heq
      exact congrArg some (Prod.ext hstray (textOf_unique hitems hmore hrest))

theorem days_not_time {i : Item} {time : Option (Text × List Item)}
    (hi : Marks i.number ∧ designates true i.what = true) (h : ∀ p ∈ time, Marks p.1) :
    i.number ++ i.what :: rest ≠ timeText time := by
  intro heq
  cases time with
  | none => simp [timeText] at heq
  | some p =>
    obtain ⟨-, hwhat, -⟩ := marks_unique hi.1 (h p rfl) (not_mark hi.2) not_mark_time heq
    have hT := hi.2
    rw [hwhat] at hT
    cases hT

theorem reading_unique (hr : r.Valid) (hq : q.Valid) (h : r.body = q.body) : r = q := by
  obtain ⟨days, time⟩ := r
  obtain ⟨days', time'⟩ := q
  have htext : textOf days ++ timeText time = textOf days' ++ timeText time' := h
  obtain ⟨hdays, htime⟩ := hr
  obtain ⟨hdays', htime'⟩ := hq
  dsimp only at hdays htime hdays' htime'
  clear h
  induction days generalizing days' with
  | nil =>
    cases days' with
    | nil =>
      have heq : timeText time = timeText time' := htext
      rw [time_unique htime htime' heq]
    | cons j days' =>
      rw [textOf_cons] at htext
      exact absurd htext.symm (days_not_time (hdays' j mem_cons_self) fun p hp => (htime p hp).1)
  | cons i days ih =>
    obtain ⟨hi, hdays⟩ := forall_mem_cons.mp hdays
    cases days' with
    | nil =>
      rw [textOf_cons] at htext
      exact absurd htext (days_not_time hi fun p hp => (htime' p hp).1)
    | cons j days' =>
      obtain ⟨hj, hdays'⟩ := forall_mem_cons.mp hdays'
      rw [textOf_cons, textOf_cons] at htext
      obtain ⟨hnumber, hwhat, hrest⟩ := marks_unique hi.1 hj.1 (not_mark hi.2) (not_mark hj.2) htext
      have hsame := ih days' hrest hdays hdays'
      cases i
      cases j
      simp_all

theorem cString_text (h : r.Valid) : cString r.text = r.text := by
  refine takeWhile_eq_self_iff.mpr ?_
  have hitem : ∀ {dayPart : Bool} {items : List Item},
      (∀ i ∈ items, Marks i.number ∧ designates dayPart i.what = true) →
      ∀ c ∈ textOf items, c ≠ '\x00' := by
    intro dayPart items hitems c hc
    obtain ⟨i, hi, hc⟩ := mem_flatMap.mp hc
    obtain ⟨hnumber, hwhat⟩ := hitems i hi
    rcases mem_append.mp hc with hc | hc
    · rintro rfl
      exact absurd (isMark_iff.mp (hnumber _ hc)) (by decide)
    obtain rfl := mem_singleton.mp hc
    intro hnul
    rw [hnul] at hwhat
    revert hwhat
    cases dayPart <;> decide
  intro c hc
  rw [decide_eq_true_eq]
  rcases mem_cons.mp hc with rfl | hc
  · decide
  rcases mem_append.mp hc with hc | hc
  · exact hitem h.days c hc
  cases htime : r.time with
  | none =>
    rw [htime] at hc
    cases hc
  | some p =>
    rw [htime] at hc
    obtain ⟨hstray, hitems⟩ := h.time p htime
    rcases mem_append.mp hc with hc | hc
    · rintro rfl
      exact absurd (isMark_iff.mp (hstray _ hc)) (by decide)
    rcases mem_cons.mp hc with rfl | hc
    · decide
    · exact hitem hitems c hc

/-- The scanner comes to the end of such a text. -/
structure Reading.Accepted (r : Reading) : Prop extends r.Taken where
  some : r.body ≠ []

def seconds (items : List Item) : List Item := items.filter fun i => i.what = 'S'

/-- The halves and the bits that a float drops make no difference to the sum. -/
def Reading.SecondsExact (r : Reading) : Prop :=
  ((seconds r.items).map fun i => (rounded i.number).getD 0).sum =
    ((seconds r.items).map fun i => (valueOf 10 i.number : ℤ)).sum

/-- The leading digits of a number, held within a long and cut to an int. -/
def cut (number : Text) : ℤ :=
  (min (2 ^ 63 - 1) (valueOf 10 (number.takeWhile Char.isDigit) : ℤ)).bmod (2 ^ 32)

def cutWorth (dayPart : Bool) (i : Item) : ℤ :=
  unitOf dayPart i.what *
    if dayPart = false ∧ i.what = 'S' then (rounded i.number).getD 0 else cut i.number

def Reading.cutTotal (r : Reading) : ℤ :=
  (r.days.map (cutWorth true)).sum + (r.items.map (cutWorth false)).sum

def Reading.Fits (r : Reading) : Prop :=
  (∀ i ∈ seconds r.items, rounded i.number ≠ none) ∧ -2 ^ 63 ≤ r.cutTotal ∧ r.cutTotal < 2 ^ 63

/-- No beginning has seconds beyond an int or a total beyond a long, and a string that is read to
its end is a duration, loses nothing of its seconds and does not become negative. What comes out as
-1 for a total is an error to the callers as well. -/
structure ReadAsMeant (s : Text) : Prop where
  fits : ∀ r : Reading, r.Accepted → r.text <+: cString s → r.Fits
  proper : ∀ r : Reading, r.Accepted → r.text = cString s →
    cString s = s ∧ r.Proper ∨ r.cutTotal = -1
  seconds : ∀ r : Reading, r.Accepted → r.text = s → r.Proper → r.Integers → r.total < 2 ^ 31 →
    r.SecondsExact
  sign : ∀ r : Reading, r.Accepted → r.text = cString s → r.cutTotal = -1 ∨ 0 ≤ r.cutTotal

theorem parse_accepted (h : r.Accepted) (hs : cString s = r.text ++ rest) :
    parse8601 s = (r.sum.bind fun sum => scan (scanner r.inDays [] sum) rest).map
      fun result => result.getD (-1) := by
  have hbody : r.body ++ rest ≠ [] := fun hnil => h.some (append_eq_nil_iff.mp hnil).1
  have hP : cString s = 'P' :: (r.body ++ rest) := hs
  unfold parse8601
  rw [hP]
  refine (if_neg hbody).trans ?_
  exact congrArg _ (scan_reading h.toTaken)

theorem parse_reading (h : r.Accepted) (hs : cString s = r.text) : parse8601 s = r.sum := by
  rw [parse_accepted h (hs.trans (append_nil _).symm)]
  cases r.sum <;> rfl

theorem parse_undefined (h : r.Accepted) (hs : r.text <+: cString s) (hsum : r.sum = none) :
    parse8601 s = none := by
  obtain ⟨rest, hrest⟩ := hs
  rw [parse_accepted h hrest.symm, hsum]
  rfl

theorem parse_cases (s : Text) :
    (∃ r : Reading, r.Accepted ∧ r.text = cString s ∧ parse8601 s = r.sum) ∨
    parse8601 s = some (-1) ∨
    ∃ r : Reading, r.Accepted ∧ r.text <+: cString s ∧ r.sum = none := by
  by_cases hP : ∃ duration, cString s = 'P' :: duration ∧ duration ≠ []
  · obtain ⟨duration, hs, hne⟩ := hP
    have hparse : parse8601 s =
        (scan (scanner true [] 0) duration).map fun result => result.getD (-1) := by
      unfold parse8601
      rw [hs]
      exact if_neg hne
    have hempty : (⟨[], none⟩ : Reading).Taken :=
      ⟨fun _ hi => (nomatch hi), fun _ hp => (nomatch hp)⟩
    rcases scan_cases hempty marks_nil rfl duration with
      ⟨r, hr, hbody, -⟩ | hrefused | ⟨-, r, hr, hbody, hsome, hsum⟩
    · have htext : r.text = cString s := by
        rw [hs]
        exact congrArg _ hbody
      have haccepted : r.Accepted := ⟨hr, fun hnil => hne (hbody.symm.trans hnil)⟩
      exact .inl ⟨r, haccepted, htext, parse_reading haccepted htext.symm⟩
    · refine .inr (.inl ?_)
      rw [hparse]
      exact congrArg _ hrefused
    · refine .inr (.inr ⟨r, ⟨hr, hsome⟩, ?_, hsum⟩)
      rw [hs]
      exact cons_prefix_cons.mpr ⟨rfl, hbody⟩
  · refine .inr (.inl ?_)
    unfold parse8601
    split
    · rename_i duration hs
      exact if_pos (by_contra fun hne => hP ⟨duration, hs, hne⟩)
    · rfl

theorem unitOf_pos (dayPart : Bool) (what : Char) : 1 ≤ unitOf dayPart what := by
  unfold unitOf
  split_ifs <;> norm_num

theorem worth_nonneg (dayPart : Bool) (i : Item) : 0 ≤ worth dayPart i :=
  Int.mul_nonneg (by have h := unitOf_pos dayPart i.what; omega) (Int.natCast_nonneg _)

theorem value_le_worth (dayPart : Bool) (i : Item) : (valueOf 10 i.number : ℤ) ≤ worth dayPart i :=
  le_mul_of_one_le_left (Int.natCast_nonneg _) (unitOf_pos dayPart i.what)

theorem worth_le {dayPart : Bool} {i : Item} {items : List Item} (h : i ∈ items) :
    worth dayPart i ≤ (items.map (worth dayPart)).sum := by
  apply single_le_sum
  · intro x hx
    obtain ⟨j, -, rfl⟩ := mem_map.mp hx
    exact worth_nonneg dayPart j
  · exact mem_map_of_mem h

theorem worths_nonneg (dayPart : Bool) (items : List Item) :
    0 ≤ (items.map (worth dayPart)).sum := by
  apply sum_nonneg
  intro x hx
  obtain ⟨j, -, rfl⟩ := mem_map.mp hx
  exact worth_nonneg dayPart j

theorem checked_integer {number : Text} (h : IsInteger number)
    (hsmall : (valueOf 10 number : ℤ) < 2 ^ 31) (dayPart : Bool) : Checked dayPart number := by
  intro _
  rw [atoi_small h.2 hsmall]
  obtain ⟨c, more, rfl⟩ := exists_cons_of_ne_nil h.1
  by_cases hc : c = '0'
  · exact .inr (congrArg some hc)
  · have hpos := valueOf_pos (h.2 c mem_cons_self) hc more
    exact .inl (by omega)

theorem IsInteger.marks {t : Text} (h : IsInteger t) : Marks t := fun c hc => .inl (h.2 c hc)

theorem atoi_marks {number : Text} (h : Marks number) : atoi number = cut number := by
  refine atoi_unsigned ?_
  intro c hc
  rcases h c (mem_of_mem_head? hc) with hdigit | rfl | rfl
  · exact ⟨isSpace_of_isDigit hdigit, isSign_of_isDigit hdigit⟩
  · decide
  · decide

theorem extend_some {i : Item} {start sum : ℤ} (hi : Marks i.number)
    (h : extend dayPart start i = some sum) :
    sum = start + cutWorth dayPart i ∧ -2 ^ 63 ≤ sum ∧ sum < 2 ^ 63 ∧
      (dayPart = false → i.what = 'S' → rounded i.number ≠ none) := by
  unfold extend valueOfItem at h
  unfold cutWorth
  by_cases hS : dayPart = false ∧ i.what = 'S'
  · rw [if_pos hS] at h ⊢
    cases hrounded : rounded i.number with
    | none =>
      rw [hrounded] at h
      cases h
    | some value =>
      rw [hrounded, Option.bind_some] at h
      dsimp only at h
      split at h
      · rename_i hrange
        cases h
        exact ⟨rfl, hrange.1, hrange.2, fun _ _ hnone => nomatch hnone⟩
      · cases h
  · rw [if_neg hS, Option.bind_some, atoi_marks hi] at h
    rw [if_neg hS]
    dsimp only at h
    split at h
    · rename_i hrange
      cases h
      exact ⟨rfl, hrange.1, hrange.2, fun hdays hwhat => absurd ⟨hdays, hwhat⟩ hS⟩
    · cases h

theorem extend_none {i : Item} {start : ℤ} (hi : Marks i.number)
    (h : extend dayPart start i = none) :
    dayPart = false ∧ i.what = 'S' ∧ rounded i.number = none ∨
      ¬ (-2 ^ 63 ≤ start + cutWorth dayPart i ∧ start + cutWorth dayPart i < 2 ^ 63) := by
  unfold extend valueOfItem at h
  unfold cutWorth
  by_cases hS : dayPart = false ∧ i.what = 'S'
  · rw [if_pos hS] at h ⊢
    cases hrounded : rounded i.number with
    | none => exact .inl ⟨hS.1, hS.2, rfl⟩
    | some value =>
      rw [hrounded, Option.bind_some] at h
      dsimp only at h
      split at h
      · cases h
      · rename_i hrange
        exact .inr hrange
  · rw [if_neg hS, Option.bind_some, atoi_marks hi] at h
    rw [if_neg hS]
    dsimp only at h
    split at h
    · cases h
    · rename_i hrange
      exact .inr hrange

theorem fold_some {items : List Item} {start sum : ℤ} (hitems : ∀ i ∈ items, Marks i.number)
    (hlow : -2 ^ 63 ≤ start) (hhigh : start < 2 ^ 63)
    (h : items.foldlM (extend dayPart) start = some sum) :
    sum = start + (items.map (cutWorth dayPart)).sum ∧ -2 ^ 63 ≤ sum ∧ sum < 2 ^ 63 ∧
      (dayPart = false → ∀ i ∈ seconds items, rounded i.number ≠ none) := by
  induction items generalizing start with
  | nil =>
    obtain rfl : start = sum := Option.some.inj h
    exact ⟨by simp, hlow, hhigh, fun _ _ hi => nomatch hi⟩
  | cons i items ih =>
    obtain ⟨hi, hitems⟩ := forall_mem_cons.mp hitems
    rw [foldlM_cons] at h
    cases hextend : extend dayPart start i with
    | none =>
      rw [hextend] at h
      cases h
    | some next =>
      rw [hextend] at h
      obtain ⟨hnext, hlow, hhigh, hrounded⟩ := extend_some hi hextend
      obtain ⟨hsum, hlow, hhigh, hrest⟩ := ih hitems hlow hhigh h
      refine ⟨?_, hlow, hhigh, ?_⟩
      · rw [hsum, hnext, map_cons, sum_cons, add_assoc]
      · intro hdays j hj
        obtain ⟨hmem, hwhat⟩ := mem_filter.mp hj
        rcases mem_cons.mp hmem with rfl | hmem
        · exact hrounded hdays (by simpa using hwhat)
        · exact hrest hdays j (mem_filter.mpr ⟨hmem, hwhat⟩)

theorem Reading.Taken.items (h : r.Taken) : ∀ i ∈ r.items, i.Taken false := by
  intro i hi
  cases htime : r.time with
  | none =>
    rw [Reading.items, htime] at hi
    cases hi
  | some p =>
    rw [Reading.items, htime] at hi
    exact (h.time p htime).2 i hi

theorem sum_some {sum : ℤ} (h : r.Taken) (hsum : r.sum = some sum) : sum = r.cutTotal ∧ r.Fits := by
  unfold Reading.sum at hsum
  cases hdays : r.days.foldlM (extend true) 0 with
  | none =>
    rw [hdays] at hsum
    cases hsum
  | some start =>
    rw [hdays, Option.bind_some] at hsum
    obtain ⟨hstart, hlow, hhigh, -⟩ :=
      fold_some (fun i hi => (h.days i hi).number) (by norm_num) (by norm_num) hdays
    obtain ⟨hend, hlow, hhigh, hseconds⟩ :=
      fold_some (fun i hi => (h.items i hi).number) hlow hhigh hsum
    have htotal : sum = r.cutTotal := by
      rw [hend, hstart, zero_add, Reading.cutTotal]
    exact ⟨htotal, hseconds rfl, htotal ▸ hlow, htotal ▸ hhigh⟩

theorem fold_none {items : List Item} {start : ℤ} (h : items.foldlM (extend dayPart) start = none) :
    ∃ front i back sum, items = front ++ i :: back ∧
      front.foldlM (extend dayPart) start = some sum ∧ extend dayPart sum i = none := by
  induction items generalizing start with
  | nil => cases h
  | cons i items ih =>
    rw [foldlM_cons] at h
    cases hextend : extend dayPart start i with
    | none => exact ⟨[], i, items, start, rfl, rfl, hextend⟩
    | some next =>
      rw [hextend] at h
      obtain ⟨front, j, back, sum, rfl, hfront, hnone⟩ := ih h
      refine ⟨i :: front, j, back, sum, rfl, ?_, hnone⟩
      rw [foldlM_cons, hextend]
      exact hfront

theorem snoc_unfit {sum : ℤ} {i : Item} (h : r.Taken) (hi : i.Taken r.inDays)
    (hsum : r.sum = some sum) (hnone : extend r.inDays sum i = none) : ¬ (r.snoc i).Fits := by
  obtain ⟨rfl, -⟩ := sum_some h hsum
  have htotal : (r.snoc i).cutTotal = r.cutTotal + cutWorth r.inDays i := by
    obtain ⟨days, time⟩ := r
    cases time with
    | none =>
      simp [Reading.snoc, Reading.cutTotal, Reading.items, Reading.inDays]
    | some p =>
      simp [Reading.snoc, Reading.cutTotal, Reading.items, Reading.inDays]
      ring
  rintro ⟨hseconds, hrange⟩
  rw [htotal] at hrange
  rcases extend_none hi.number hnone with ⟨hdays, hwhat, hrounded⟩ | hunfit
  · refine hseconds i ?_ hrounded
    obtain ⟨days, time⟩ := r
    cases time with
    | none => cases hdays
    | some p => simp [Reading.snoc, Reading.items, seconds, hwhat]
  · exact hunfit hrange

theorem textOf_append (items more : List Item) :
    textOf (items ++ more) = textOf items ++ textOf more :=
  flatMap_append

theorem sum_none (h : r.Taken) (hsum : r.sum = none) :
    ∃ q : Reading, q.Accepted ∧ q.text <+: r.text ∧ ¬ q.Fits := by
  have hsnoc : ∀ (q : Reading) (i : Item), (q.snoc i).body ≠ [] := by
    intro q i
    rw [body_snoc]
    simp
  unfold Reading.sum at hsum
  cases hdays : r.days.foldlM (extend true) 0 with
  | none =>
    obtain ⟨front, i, back, sum, hsplit, hfront, hnone⟩ := fold_none hdays
    have htaken : ∀ j ∈ front ++ i :: back, j.Taken true := hsplit ▸ h.days
    have hq : (⟨front, none⟩ : Reading).Taken :=
      ⟨fun j hj => htaken j (mem_append_left _ hj), fun _ hp => (nomatch hp)⟩
    have hi : i.Taken true := htaken i (mem_append_right _ mem_cons_self)
    have hqsum : (⟨front, none⟩ : Reading).sum = some sum := by
      unfold Reading.sum
      rw [hfront]
      rfl
    refine ⟨_, ⟨taken_snoc hq hi, hsnoc _ _⟩, ?_, snoc_unfit hq hi hqsum hnone⟩
    rw [Reading.text, Reading.text, body_snoc, Reading.body, Reading.body, hsplit, textOf_append]
    refine cons_prefix_cons.mpr ⟨rfl, textOf back ++ timeText r.time, ?_⟩
    simp [textOf, timeText]
  | some start =>
    rw [hdays, Option.bind_some] at hsum
    obtain ⟨front, i, back, sum, hsplit, hfront, hnone⟩ := fold_none hsum
    cases htime : r.time with
    | none =>
      rw [Reading.items, htime] at hsplit
      simp at hsplit
    | some p =>
      obtain ⟨hstray, hitems⟩ := h.time p htime
      have hitemsSplit : p.2 = front ++ i :: back := by
        rw [Reading.items, htime] at hsplit
        exact hsplit
      have htaken : ∀ j ∈ front ++ i :: back, j.Taken false := hitemsSplit ▸ hitems
      have hq : (⟨r.days, some (p.1, front)⟩ : Reading).Taken := by
        constructor
        · exact h.days
        · rintro _ ⟨⟩
          exact ⟨hstray, fun j hj => htaken j (mem_append_left _ hj)⟩
      have hi : i.Taken false := htaken i (mem_append_right _ mem_cons_self)
      have hqsum : (⟨r.days, some (p.1, front)⟩ : Reading).sum = some sum := by
        unfold Reading.sum
        rw [hdays]
        exact hfront
      refine ⟨_, ⟨taken_snoc hq hi, hsnoc _ _⟩, ?_, snoc_unfit hq hi hqsum hnone⟩
      rw [Reading.text, Reading.text, body_snoc, Reading.body, Reading.body, htime,
        Option.elim_some, Option.elim_some, hitemsSplit, textOf_append]
      refine cons_prefix_cons.mpr ⟨rfl, textOf back, ?_⟩
      simp [textOf]

theorem sum_of_fits (hfits : ∀ q : Reading, q.Accepted → q.text <+: s → q.Fits) (h : r.Accepted)
    (hs : r.text <+: s) : r.sum = some r.cutTotal := by
  cases hsum : r.sum with
  | none =>
    obtain ⟨q, hq, htext, hunfit⟩ := sum_none h.toTaken hsum
    exact absurd (hfits q hq (htext.trans hs)) hunfit
  | some sum => rw [(sum_some h.toTaken hsum).1]

theorem sum_items {items : List Item} {start sum : ℤ}
    (hsum : items.foldlM (extend dayPart) start = some sum)
    (hitems : ∀ i ∈ items, IsInteger i.number ∧ (valueOf 10 i.number : ℤ) < 2 ^ 31 ∧
    designates dayPart i.what = true) : sum = start + (items.map (worth dayPart)).sum +
      if dayPart then 0
      else ((seconds items).map fun i => (rounded i.number).getD 0).sum -
        ((seconds items).map fun i => (valueOf 10 i.number : ℤ)).sum := by
  induction items generalizing start with
  | nil =>
    obtain rfl : start = sum := Option.some.inj hsum
    cases dayPart <;> simp [seconds]
  | cons i items ih =>
    obtain ⟨⟨hinteger, hsmall, hwhat⟩, hitems⟩ := forall_mem_cons.mp hitems
    rw [foldlM_cons] at hsum
    cases hextend : extend dayPart start i with
    | none =>
      rw [hextend] at hsum
      cases hsum
    | some next =>
      rw [hextend] at hsum
      have hrest := ih hsum hitems
      unfold extend valueOfItem at hextend
      rw [map_cons, sum_cons]
      by_cases hS : dayPart = false ∧ i.what = 'S'
      · obtain ⟨rfl, hS⟩ := hS
        rw [if_pos ⟨rfl, hS⟩] at hextend
        cases hrounded : rounded i.number with
        | none =>
          rw [hrounded] at hextend
          cases hextend
        | some value =>
          rw [hrounded, Option.bind_some] at hextend
          dsimp only at hextend
          have hunit : unitOf false i.what = 1 := by rw [hS]; rfl
          have hworth : worth false i = valueOf 10 i.number := by rw [worth, hunit, one_mul]
          have hfilter : seconds (i :: items) = i :: seconds items := by simp [seconds, hS]
          rw [hfilter, map_cons, sum_cons, map_cons, sum_cons, hrounded, hworth, Option.getD_some]
          simp only [Bool.false_eq_true, if_false] at hrest ⊢
          split at hextend
          · cases hextend
            rw [hrest, hunit]
            ring
          · cases hextend
      · rw [if_neg hS, Option.bind_some, atoi_small hinteger.2 hsmall] at hextend
        dsimp only at hextend
        split at hextend
        · cases hextend
          rw [hrest]
          cases dayPart with
          | true =>
            simp only [if_true, worth]
            ring
          | false =>
            have hfilter : seconds (i :: items) = seconds items :=
              filter_cons_of_neg (by simpa using fun hwhat => hS ⟨rfl, hwhat⟩)
            rw [hfilter, worth]
            ring
        · cases hextend

theorem small_items (hintegers : r.Integers) (htotal : r.total < 2 ^ 31) :
    ∀ i ∈ r.days ++ r.items, IsInteger i.number ∧ (valueOf 10 i.number : ℤ) < 2 ^ 31 := by
  intro i hi
  refine ⟨hintegers i hi, ?_⟩
  have hdays := worths_nonneg true r.days
  have hitems := worths_nonneg false r.items
  unfold Reading.total at htotal
  rcases mem_append.mp hi with hi | hi
  · have hle := @worth_le true i r.days hi
    have hvalue := value_le_worth true i
    omega
  have hle := @worth_le false i r.items hi
  have hvalue := value_le_worth false i
  omega

theorem Reading.Proper.items (h : r.Proper) :
    ∀ i ∈ r.items, IsNumber i.number ∧ designates false i.what = true := by
  intro i hi
  cases htime : r.time with
  | none =>
    rw [Reading.items, htime] at hi
    cases hi
  | some p =>
    rw [Reading.items, htime] at hi
    exact (h.time p htime).2.2 i hi

theorem sum_total {sum : ℤ} (h : r.Proper) (hintegers : r.Integers) (htotal : r.total < 2 ^ 31)
    (hsum : r.sum = some sum) : sum = r.total ↔ r.SecondsExact := by
  have hsmall := small_items hintegers htotal
  unfold Reading.sum at hsum
  cases hdays : r.days.foldlM (extend true) 0 with
  | none =>
    rw [hdays] at hsum
    cases hsum
  | some start =>
    rw [hdays, Option.bind_some] at hsum
    have hstart := sum_items hdays fun i hi =>
      ⟨(hsmall i (mem_append_left _ hi)).1, (hsmall i (mem_append_left _ hi)).2, (h.days i hi).2⟩
    have hend := sum_items hsum fun i hi =>
      ⟨(hsmall i (mem_append_right _ hi)).1, (hsmall i (mem_append_right _ hi)).2, (h.items i hi).2⟩
    simp only [if_true, Bool.false_eq_true, if_false] at hstart hend
    unfold Reading.total Reading.SecondsExact
    omega

theorem accepted_integers (h : r.Proper) (hintegers : r.Integers) (htotal : r.total < 2 ^ 31) :
    r.Accepted := by
  have hsmall := small_items hintegers htotal
  refine ⟨⟨?_, ?_⟩, ?_⟩
  · intro i hi
    obtain ⟨hinteger, hvalue⟩ := hsmall i (mem_append_left _ hi)
    exact ⟨hinteger.marks, (h.days i hi).2, checked_integer hinteger hvalue true⟩
  · intro p hp
    obtain ⟨hstray, -, hitems⟩ := h.time p hp
    refine ⟨hstray ▸ marks_nil, ?_⟩
    intro i hi
    exact ⟨(hitems i hi).1.marks, (hitems i hi).2, fun hdays => nomatch hdays⟩
  · intro hnil
    obtain ⟨hdays, htime⟩ := append_eq_nil_iff.mp hnil
    rcases h.some with hsome | hsome
    · obtain ⟨i, more, hcons⟩ := exists_cons_of_ne_nil hsome
      rw [hcons] at hdays
      simp [textOf] at hdays
    obtain ⟨p, hp⟩ := Option.ne_none_iff_exists'.mp hsome
    rw [hp] at htime
    simp at htime

/-- Durations are parsed exactly where they are read as they are meant. -/
theorem parsed_exactly_iff (s : Text) : ParsedExactly s ↔ ReadAsMeant s := by
  constructor
  · rintro ⟨result, hparse, hill, hinteger, hsign⟩
    have hwhole : ∀ r : Reading, r.Accepted → r.text = cString s → result = r.cutTotal := by
      intro r hr hs
      have hsum := (parse_reading hr hs.symm).symm.trans hparse
      exact (sum_some hr.toTaken hsum).1
    constructor
    · intro r hr hs
      cases hsum : r.sum with
      | none =>
        rw [parse_undefined hr hs hsum] at hparse
        cases hparse
      | some sum => exact (sum_some hr.toTaken hsum).2
    · intro r hr hs
      rw [← hwhole r hr hs]
      by_cases hwell : WellFormed s
      · obtain ⟨q, hq, rfl⟩ := hwell
        rw [cString_text hq.valid] at hs ⊢
        obtain rfl := reading_unique hr.valid hq.valid (cons.inj hs).2
        exact .inl ⟨rfl, hq⟩
      · exact .inr (hill hwell)
    · rintro r hr rfl hproper hintegers htotal
      have hsum := (parse_reading hr (cString_text hr.valid)).symm.trans hparse
      exact (sum_total hproper hintegers htotal hsum).mp (hinteger r hproper rfl hintegers htotal)
    · intro r hr hs
      rw [← hwhole r hr hs]
      exact hsign
  · intro h
    rcases parse_cases s with ⟨r, hr, hs, hparse⟩ | hparse | ⟨r, hr, hs, hsum⟩
    · have hsum := sum_of_fits h.fits hr (hs ▸ prefix_refl _)
      refine ⟨r.cutTotal, hparse.trans hsum, ?_, ?_, h.sign r hr hs⟩
      · intro hill
        rcases h.proper r hr hs with ⟨hstring, hproper⟩ | herror
        · exact absurd ⟨r, hproper, (hs.trans hstring).symm⟩ hill
        · exact herror
      · rintro q hq rfl hintegers htotal
        rw [cString_text hq.valid] at hs
        obtain rfl := reading_unique hr.valid hq.valid (cons.inj hs).2
        exact (sum_total hq hintegers htotal hsum).mpr (h.seconds r hr rfl hq hintegers htotal)
    · refine ⟨-1, hparse, fun _ => rfl, ?_, .inl rfl⟩
      rintro q hq rfl hintegers htotal
      have haccepted := accepted_integers hq hintegers htotal
      have hsum := (parse_reading haccepted (cString_text hq.valid)).symm.trans hparse
      exact (sum_total hq hintegers htotal hsum).mpr (h.seconds q haccepted rfl hq hintegers htotal)
    · rw [sum_of_fits h.fits hr hs] at hsum
      cases hsum

theorem bare_time_accepted : ¬ ∀ s, ParsedExactly s := by
  intro h
  obtain ⟨result, hparse, hill, -⟩ := h "PT".toList
  have hzero : parse8601 "PT".toList = some 0 := rfl
  have hresult : result = 0 := Option.some.inj (hparse.symm.trans hzero)
  have hbad : ¬ WellFormed "PT".toList := by
    rintro ⟨r, hr, hs⟩
    have hvalid : (⟨[], some ([], [])⟩ : Reading).Valid := by
      constructor
      · exact fun _ hi => nomatch hi
      · rintro _ ⟨⟩
        exact ⟨marks_nil, fun _ hi => nomatch hi⟩
    have hsame := reading_unique hvalid hr.valid (cons.inj hs).2
    obtain rfl := hsame
    exact (hr.time _ rfl).2.1 rfl
  rw [hill hbad] at hresult
  cases hresult

end Parse8601
