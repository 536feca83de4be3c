import OrionLd.Str2double
import OrionLd.StringFilter

/-! string2coords of string.cpp: two numbers with a comma between them, in the ranges of a latitude
and a longitude. A part without a number counts as zero, a NaN is in every range, and the ranges
are asked for after rounding. -/
namespace String2coords

open KjTree Scanf Strtod Str2double List
open Binary64 (Double)
open NearestFloat (nearest binary64)
open StringFilter (isWs wsStrip)

/-- The comparison >, which no NaN satisfies. -/
def greater : Double → ℚ → Bool
  | .nan, _ => false
  | .infinite negative, _ => !negative
  | .finite x, bound => decide (bound < x)

def less : Double → ℚ → Bool
  | .nan, _ => false
  | .infinite negative, _ => negative
  | .finite x, bound => decide (x < bound)

def coordinate (bound : ℕ) (number : Text) : Option Double :=
  (str2double number).filter fun x => !(greater x bound || less x (-bound))

structure Coords where
  accepted : Bool
  latitude : Double
  longitude : Double

/-- number1 and number2, where there is a comma between them. -/
def numbers (initial : Text) : Option (Text × Text) :=
  let cP := wsStrip initial
  if ',' ∈ cP then
    some (wsStrip (cP.takeWhile (· ≠ ',')), wsStrip ((cP.dropWhile (· ≠ ',')).drop 1))
  else none

/-- With the copy that strdup has made. -/
def split (initial : Text) (latitude longitude : Double) : Coords :=
  match numbers initial with
  | some (number1, number2) =>
    match coordinate 90 number1, coordinate 180 number2 with
    | some newLatitude, some newLongitude => ⟨true, newLatitude, newLongitude⟩
    | _, _ => ⟨false, latitude, longitude⟩
  | none => ⟨false, latitude, longitude⟩

def string2coords (s : Text) (latitude longitude : Double) : Coords :=
  split (cString s) latitude longitude

/-- A decimal number from -bound to bound, with white space before and behind it. -/
def IsCoordinate (bound : ℕ) (part : Text) (x : ℚ) : Prop :=
  (∃ t, Reads part t ∧ IsDecimal t x) ∧ |x| ≤ bound

def AreCoordinates (s : Text) (x y : ℚ) : Prop :=
  ∃ p q, s = p ++ ',' :: q ∧ IsCoordinate 90 p x ∧ IsCoordinate 180 q y

def TakenExactly (s : Text) : Prop := ∀ latitude longitude,
  (∀ x y, AreCoordinates s x y → string2coords s latitude longitude =
    ⟨true, .finite (nearest binary64 x), .finite (nearest binary64 y)⟩) ∧
  ((∀ x y, ¬ AreCoordinates s x y) →
    string2coords s latitude longitude = ⟨false, latitude, longitude⟩)

/-- No range error, and in the range once it is rounded to a double. -/
def RoundsInto (bound : ℕ) (x : ℚ) : Prop :=
  outOfRange x = false ∧ |nearest binary64 x| ≤ bound

/-- What is taken for a number of the range although it is none. -/
inductive Stray (bound : ℕ) (part : Text) : Prop where
  | nothing (blank : Blank part)
  | nan {t : Text} (reads : Reads part t) (nan : IsNan t)
  | hexadecimal {t : Text} {x : ℚ} (reads : Reads part t) (hex : IsHexadecimal t x)
    (rounds : RoundsInto bound x)
  | beyond {t : Text} {x : ℚ} (reads : Reads part t) (decimal : IsDecimal t x)
    (rounds : RoundsInto bound x) (outside : bound < |x|)

/-- A number of the range that strtod reports as too small. -/
def Tiny (bound : ℕ) (part : Text) : Prop := ∃ x, IsCoordinate bound part x ∧ outOfRange x = true

def Plain (bound : ℕ) (part : Text) : Prop := ∃ x, IsCoordinate bound part x ∧ outOfRange x = false

/-- What stands before and behind the first comma: a stray part comes only with a part that is
refused, of two numbers none is too small, and none of them comes before a zero in the string. -/
def NoStray (s : Text) : Prop := ∀ p q, ',' ∉ p → cString s = p ++ ',' :: q →
  (Stray 90 p → ¬ Stray 180 q ∧ ¬ Plain 180 q) ∧ (Stray 180 q → ¬ Plain 90 p) ∧
    if '\x00' ∈ s then Plain 90 p → ¬ Plain 180 q
    else (Tiny 90 p → ¬ Tiny 180 q ∧ ¬ Plain 180 q) ∧ (Tiny 180 q → ¬ Plain 90 p)

variable {s t part p q : Text} {bound : ℕ} {x : ℚ} {d : Double}

theorem isSpace_of_isWs {c : Char} (h : isWs c = true) : isSpace c = true := by
  unfold isWs at h
  simp only [Bool.or_eq_true, beq_iff_eq] at h
  rcases h with (rfl | rfl) | rfl <;> decide

theorem wsStrip_split (s : Text) : ∃ a b, Blank a ∧ Blank b ∧ s = a ++ (wsStrip s ++ b) := by
  refine ⟨s.takeWhile isWs, (s.dropWhile isWs).rtakeWhile isWs, ?_, ?_, ?_⟩
  · intro c hc
    exact isSpace_of_isWs (mem_takeWhile_imp hc)
  · intro c hc
    exact isSpace_of_isWs (mem_rtakeWhile_imp hc)
  · unfold wsStrip
    rw [rdropWhile_append_rtakeWhile, takeWhile_append_dropWhile]

theorem coordinate_blanks {a b : Text} (ha : Blank a) (hb : Blank b) :
    coordinate bound (a ++ (s ++ b)) = coordinate bound s := by
  unfold coordinate
  rw [str2double_blanks ha hb]

theorem coordinate_wsStrip (s : Text) : coordinate bound (wsStrip s) = coordinate bound s := by
  obtain ⟨a, b, ha, hb, hs⟩ := wsStrip_split s
  conv_rhs => rw [hs, coordinate_blanks ha hb]

theorem comma_notMem_blank {a : Text} (ha : Blank a) : ',' ∉ a :=
  fun h => absurd (ha ',' h) (by decide)

theorem wsStrip_comma (p q : Text) : ∃ a b p' q', Blank a ∧ Blank b ∧ p = a ++ p' ∧
    q = q' ++ b ∧ wsStrip (p ++ ',' :: q) = p' ++ ',' :: q' := by
  obtain ⟨a, b, ha, hb, hs⟩ := wsStrip_split (p ++ ',' :: q)
  have hsplit : ∃ p', p = a ++ p' ∧ p' ++ ',' :: q = wsStrip (p ++ ',' :: q) ++ b := by
    rcases append_eq_append_iff.mp hs with ⟨more, hmore, hrest⟩ | ⟨more, hmore, hrest⟩
    · cases more with
      | nil => exact ⟨[], by rw [hmore]; simp, hrest⟩
      | cons d more =>
        obtain ⟨rfl, -⟩ := cons.inj hrest
        refine absurd ?_ (comma_notMem_blank ha)
        rw [hmore]
        exact mem_append_right _ mem_cons_self
    · exact ⟨more, hmore, hrest.symm⟩
  obtain ⟨p', hp', hw⟩ := hsplit
  rcases append_eq_append_iff.mp hw with ⟨more, hmore, hrest⟩ | ⟨more, hmore, hrest⟩
  · cases more with
    | nil =>
      rw [nil_append] at hrest
      refine absurd ?_ (comma_notMem_blank hb)
      rw [← hrest]
      exact mem_cons_self
    | cons d more =>
      obtain ⟨rfl, hq⟩ := cons.inj hrest
      exact ⟨a, b, p', more, ha, hb, hp', hq, hmore⟩
  · refine absurd ?_ (comma_notMem_blank hb)
    rw [hrest]
    exact mem_append_right _ mem_cons_self

theorem takeWhile_comma (hp : ',' ∉ p) (q : Text) : (p ++ ',' :: q).takeWhile (· ≠ ',') = p := by
  have hall : ∀ c ∈ p, decide (c ≠ ',') = true := by
    intro c hc
    refine decide_eq_true ?_
    rintro rfl
    exact hp hc
  rw [takeWhile_append_of_pos hall, takeWhile_cons_of_neg (by decide), append_nil]

theorem split_comma (hp : ',' ∉ p) (latitude longitude : Double) :
    split (p ++ ',' :: q) latitude longitude =
      match coordinate 90 p, coordinate 180 q with
      | some newLatitude, some newLongitude => ⟨true, newLatitude, newLongitude⟩
      | _, _ => ⟨false, latitude, longitude⟩ := by
  obtain ⟨a, b, p', q', ha, hb, rfl, rfl, hstrip⟩ := wsStrip_comma p q
  have htake := takeWhile_comma (fun hc => hp (mem_append_right _ hc)) q'
  have hdrop : (p' ++ ',' :: q').dropWhile (· ≠ ',') = ',' :: q' := by
    have hboth := takeWhile_append_dropWhile (p := fun c => decide (c ≠ ',')) (l := p' ++ ',' :: q')
    rw [htake] at hboth
    exact append_cancel_left hboth
  have hlatitude : coordinate 90 (a ++ p') = coordinate 90 (wsStrip p') := by
    rw [coordinate_wsStrip, ← append_nil p', coordinate_blanks ha (forall_mem_nil _), append_nil]
  have hlongitude : coordinate 180 (q' ++ b) = coordinate 180 (wsStrip q') := by
    rw [coordinate_wsStrip, ← nil_append (q' ++ b), coordinate_blanks (forall_mem_nil _) hb]
  unfold split numbers
  simp only [hstrip, htake, hdrop, drop_succ_cons, drop_zero, hlatitude, hlongitude]
  rw [if_pos (mem_append_right _ mem_cons_self)]

theorem split_commaless (h : ',' ∉ s) (latitude longitude : Double) :
    split s latitude longitude = ⟨false, latitude, longitude⟩ := by
  obtain ⟨a, b, -, -, hs⟩ := wsStrip_split s
  have hstrip : ',' ∉ wsStrip s := by
    intro hc
    apply h
    rw [hs]
    exact mem_append_right _ (mem_append_left _ hc)
  unfold split numbers
  rw [if_neg hstrip]

theorem coordinate_some : coordinate bound part = some d ↔ str2double part = some d ∧
    greater d bound = false ∧ less d (-bound) = false := by
  unfold coordinate
  rw [Option.filter_eq_some_iff, Bool.not_eq_true', Bool.or_eq_false_iff]

theorem finite_between {y : ℚ} :
    (greater (.finite y) bound = false ∧ less (.finite y) (-bound) = false) ↔ |y| ≤ bound := by
  unfold greater less
  rw [decide_eq_false_iff_not, decide_eq_false_iff_not, not_lt, not_lt, abs_le, and_comm]

theorem coordinate_exact (h : Reads part t) (hexact : exactOf t = some x)
    (hreal : realOf t = realOf.finite x) (hrounds : RoundsInto bound x) :
    coordinate bound part = some (.finite (nearest binary64 x)) := by
  rw [coordinate_some, str2double_exact h hexact hreal, hrounds.1]
  exact ⟨rfl, finite_between.mpr hrounds.2⟩

theorem coordinate_plain (hbound : bound < 2 ^ 52) (h : IsCoordinate bound part x)
    (hrange : outOfRange x = false) :
    coordinate bound part = some (.finite (nearest binary64 x)) := by
  obtain ⟨⟨t, hreads, hdecimal⟩, hle⟩ := h
  obtain ⟨hexact, hreal⟩ := exactOf_decimal hdecimal
  exact coordinate_exact hreads hexact hreal (⟨hrange, abs_nearest_le hbound hle⟩)

theorem coordinate_tiny (h : IsCoordinate bound part x) (hrange : outOfRange x = true) :
    coordinate bound part = none := by
  obtain ⟨⟨t, hreads, hdecimal⟩, -⟩ := h
  obtain ⟨hexact, hreal⟩ := exactOf_decimal hdecimal
  unfold coordinate
  rw [str2double_exact hreads hexact hreal, hrange]
  rfl

theorem coordinate_stray (h : Stray bound part) : ∃ d, coordinate bound part = some d := by
  cases h with
  | nothing hblank =>
    refine ⟨.finite 0, coordinate_some.mpr ⟨str2double_blank hblank, finite_between.mpr ?_⟩⟩
    exact Nat.cast_nonneg bound
  | nan hreads hnan =>
    obtain ⟨hexact, hreal⟩ := exactOf_nan hnan
    refine ⟨.nan, coordinate_some.mpr ⟨?_, rfl, rfl⟩⟩
    rw [str2double_reads hreads, hexact, hreal]
    rfl
  | hexadecimal hreads hhex hrounds =>
    obtain ⟨hexact, hreal⟩ := exactOf_hexadecimal hhex
    exact ⟨_, coordinate_exact hreads hexact hreal hrounds⟩
  | beyond hreads hdecimal hrounds =>
    obtain ⟨hexact, hreal⟩ := exactOf_decimal hdecimal
    exact ⟨_, coordinate_exact hreads hexact hreal hrounds⟩

/-- Whatever is taken is a number of the range, or stray. -/
theorem stray_or_plain (h : coordinate bound part = some d) :
    Stray bound part ∨ Plain bound part := by
  obtain ⟨hd, hbetween⟩ := coordinate_some.mp h
  rcases str2double_some.mp hd with ⟨hblank, -⟩ | ⟨t, hreads, rfl, hrange⟩
  · exact .inl (.nothing hblank)
  obtain ⟨a, b, ha, hb, -, haccepts⟩ := id hreads
  rcases accepts_kinds.mp haccepts with ⟨x, hx⟩ | ⟨x, hx⟩ | hinf | hnan
  · obtain ⟨hexact, hreal⟩ := exactOf_decimal hx
    rw [hexact, Option.any_some] at hrange
    rw [hreal, finite_of_range hrange] at hbetween
    have hrounds : RoundsInto bound x := ⟨hrange, finite_between.mp hbetween⟩
    by_cases hle : |x| ≤ bound
    · exact .inr ⟨x, ⟨⟨t, hreads, hx⟩, hle⟩, hrange⟩
    · exact .inl (.beyond hreads hx hrounds (not_le.mp hle))
  · obtain ⟨hexact, hreal⟩ := exactOf_hexadecimal hx
    rw [hexact, Option.any_some] at hrange
    rw [hreal, finite_of_range hrange] at hbetween
    exact .inl (.hexadecimal hreads hx ⟨hrange, finite_between.mp hbetween⟩)
  · obtain ⟨-, negative, hreal⟩ := exactOf_infinity hinf
    rw [hreal] at hbetween
    cases negative
    · cases hbetween.1
    · cases hbetween.2
  · exact .inl (.nan hreads hnan)

theorem not_stray (h : IsCoordinate bound part x) : ¬ Stray bound part := by
  obtain ⟨⟨t, hreads, hdecimal⟩, hle⟩ := h
  have hexact := (exactOf_decimal hdecimal).1
  intro hstray
  cases hstray with
  | nothing hblank => exact hreads.not_blank hblank
  | nan hreads' hnan =>
    rw [hreads'.unique hreads] at hnan
    rw [(exactOf_nan hnan).1] at hexact
    cases hexact
  | hexadecimal hreads' hhex =>
    rw [hreads'.unique hreads] at hhex
    exact decimal_not_hexadecimal hdecimal hhex
  | beyond hreads' hdecimal' _ houtside =>
    rw [hreads'.unique hreads] at hdecimal'
    rw [(exactOf_decimal hdecimal').1] at hexact
    rw [Option.some.inj hexact] at houtside
    exact absurd hle (not_le.mpr houtside)

theorem foreign_notMem {c : Char} (h : IsCoordinate bound part x) (hc : Foreign c)
    (hspace : isSpace c = false) : c ∉ part := by
  obtain ⟨⟨t, ⟨a, b, ha, hb, rfl, haccepts⟩, -⟩, -⟩ := h
  have hblank : ∀ {a : Text}, Blank a → c ∉ a := by
    intro a ha hmem
    rw [ha c hmem] at hspace
    cases hspace
  simp only [mem_append, not_or]
  exact ⟨hblank ha, accepts_foreign wordy_start haccepts hc, hblank hb⟩

theorem comma_notMem (h : IsCoordinate bound part x) : ',' ∉ part :=
  foreign_notMem h foreign_comma (by decide)

theorem foreign_nul : Foreign '\x00' :=
  ⟨by decide, by decide, by rfl, by decide, by decide, by decide, by decide, by decide⟩

theorem nul_notMem {y : ℚ} (h : AreCoordinates s x y) : '\x00' ∉ s := by
  obtain ⟨p, q, rfl, hx, hy⟩ := h
  have hp := foreign_notMem hx foreign_nul (by decide)
  have hq := foreign_notMem hy foreign_nul (by decide)
  simp [hp, hq]

theorem cString_eq_self (h : '\x00' ∉ s) : cString s = s := by
  refine takeWhile_eq_self_iff.mpr fun c hc => decide_eq_true ?_
  rintro rfl
  exact h hc

theorem tiny_or_plain (h : IsCoordinate bound part x) : Tiny bound part ∨ outOfRange x = false := by
  cases hrange : outOfRange x with
  | false => exact .inr rfl
  | true => exact .inl ⟨x, h, hrange⟩

theorem exists_first_comma (h : ',' ∈ s) : ∃ p q, ',' ∉ p ∧ s = p ++ ',' :: q := by
  obtain ⟨p, q, hs, hp⟩ := eq_append_cons_of_mem h
  exact ⟨p, q, hp, hs⟩

theorem first_comma_unique {p' q' : Text} (hp : ',' ∉ p) (hp' : ',' ∉ p')
    (h : p ++ ',' :: q = p' ++ ',' :: q') : p = p' ∧ q = q' := by
  have hfirst := congrArg (List.takeWhile (· ≠ ',')) h
  rw [takeWhile_comma hp, takeWhile_comma hp'] at hfirst
  subst hfirst
  exact ⟨rfl, (cons.inj (append_cancel_left h)).2⟩

theorem taken_of_noStray (h : NoStray s) : TakenExactly s := by
  intro latitude longitude
  constructor
  · rintro x y hcoordinates
    have hnul := nul_notMem hcoordinates
    obtain ⟨p, q, rfl, hx, hy⟩ := hcoordinates
    rw [NoStray, cString_eq_self hnul] at h
    obtain ⟨-, -, hsmall⟩ := h p q (comma_notMem hx) rfl
    obtain ⟨htiny, htiny'⟩ := if_neg hnul ▸ hsmall
    have hrange : outOfRange x = false ∧ outOfRange y = false := by
      rcases tiny_or_plain hx with hx' | hx' <;> rcases tiny_or_plain hy with hy' | hy'
      · exact absurd hy' (htiny hx').1
      · exact absurd ⟨y, hy, hy'⟩ (htiny hx').2
      · exact absurd ⟨x, hx, hx'⟩ (htiny' hy')
      · exact ⟨hx', hy'⟩
    rw [string2coords, cString_eq_self hnul, split_comma (comma_notMem hx),
      coordinate_plain (by decide) hx hrange.1, coordinate_plain (by decide) hy hrange.2]
  · intro hnone
    unfold string2coords
    by_cases hcomma : ',' ∈ cString s
    · obtain ⟨p, q, hp, hs⟩ := exists_first_comma hcomma
      obtain ⟨hstray, hstray', hplain⟩ := h p q hp hs
      rw [hs, split_comma hp]
      cases hx : coordinate 90 p with
      | none => rfl
      | some lat =>
        cases hy : coordinate 180 q with
        | none => rfl
        | some lon =>
          rcases stray_or_plain hx with hx' | hx' <;> rcases stray_or_plain hy with hy' | hy'
          · exact absurd hy' (hstray hx').1
          · exact absurd hy' (hstray hx').2
          · exact absurd hx' (hstray' hy')
          by_cases hnul : '\x00' ∈ s
          · exact absurd hy' ((if_pos hnul ▸ hplain) hx')
          obtain ⟨x, hx', -⟩ := hx'
          obtain ⟨y, hy', -⟩ := hy'
          rw [cString_eq_self hnul] at hs
          exact absurd ⟨p, q, hs, hx', hy'⟩ (hnone x y)
    · exact split_commaless hcomma latitude longitude

theorem refused_of_taken (h : TakenExactly s) (hs : cString s = p ++ ',' :: q) (hp : ',' ∉ p)
    (hnone : ∀ x y, ¬ AreCoordinates s x y) (hlatitude : ∃ d, coordinate 90 p = some d)
    (hlongitude : ∃ d, coordinate 180 q = some d) : False := by
  have hrefused := (h .nan .nan).2 hnone
  obtain ⟨lat, hlat⟩ := hlatitude
  obtain ⟨lon, hlon⟩ := hlongitude
  rw [string2coords, hs, split_comma hp, hlat, hlon] at hrefused
  cases hrefused

theorem refused_of_stray (h : TakenExactly s) (hs : cString s = p ++ ',' :: q) (hp : ',' ∉ p)
    (hstray : Stray 90 p ∨ Stray 180 q) (hlatitude : ∃ d, coordinate 90 p = some d)
    (hlongitude : ∃ d, coordinate 180 q = some d) : False := by
  refine refused_of_taken h hs hp (fun x y hcoordinates => ?_) hlatitude hlongitude
  have hnul := nul_notMem hcoordinates
  obtain ⟨p', q', heq, hx, hy⟩ := hcoordinates
  rw [cString_eq_self hnul, heq] at hs
  obtain ⟨rfl, rfl⟩ := first_comma_unique hp (comma_notMem hx) hs.symm
  rcases hstray with hstray | hstray
  · exact not_stray hx hstray
  · exact not_stray hy hstray

theorem Plain.taken (hbound : bound < 2 ^ 52) (h : Plain bound part) :
    ∃ d, coordinate bound part = some d := by
  obtain ⟨x, hx, hrange⟩ := h
  exact ⟨_, coordinate_plain hbound hx hrange⟩

theorem not_tiny (h : TakenExactly (p ++ ',' :: q)) {y : ℚ} (hx : IsCoordinate 90 p x)
    (hy : IsCoordinate 180 q y) : outOfRange x = false ∧ outOfRange y = false := by
  have hcoordinates : AreCoordinates (p ++ ',' :: q) x y := ⟨p, q, rfl, hx, hy⟩
  have htaken := (h .nan .nan).1 x y hcoordinates
  rw [string2coords, cString_eq_self (nul_notMem hcoordinates),
    split_comma (comma_notMem hx)] at htaken
  constructor
  · by_contra hrange
    rw [Bool.not_eq_false] at hrange
    rw [coordinate_tiny hx hrange] at htaken
    cases htaken
  · by_contra hrange
    rw [Bool.not_eq_false] at hrange
    rw [coordinate_tiny hy hrange] at htaken
    cases hlat : coordinate 90 p <;> rw [hlat] at htaken <;> cases htaken

/-- The two numbers are taken as they are, and nothing else is, exactly when no stray part comes
with a part that is taken, no number is too small and no zero ends the string before its end. -/
theorem taken_exactly_iff (s : Text) : TakenExactly s ↔ NoStray s := by
  refine ⟨fun h p q hp hs => ⟨fun hstray => ?_, fun hstray hplain => ?_, ?_⟩, taken_of_noStray⟩
  · have hlatitude := coordinate_stray hstray
    constructor
    · intro hstray'
      exact refused_of_stray h hs hp (.inl hstray) hlatitude (coordinate_stray hstray')
    · intro hplain
      exact refused_of_stray h hs hp (.inl hstray) hlatitude (hplain.taken (by decide))
  · exact refused_of_stray h hs hp (.inr hstray) (hplain.taken (by decide))
      (coordinate_stray hstray)
  split_ifs with hnul
  · intro hplain hplain'
    exact refused_of_taken h hs hp (fun x y hcoordinates => nul_notMem hcoordinates hnul)
      (hplain.taken (by decide)) (hplain'.taken (by decide))
  rw [cString_eq_self hnul] at hs
  subst hs
  refine ⟨fun htiny => ?_, fun htiny hplain => ?_⟩
  · obtain ⟨x, hx, hrange⟩ := htiny
    constructor
    · rintro ⟨y, hy, -⟩
      rw [(not_tiny h hx hy).1] at hrange
      cases hrange
    · rintro ⟨y, hy, -⟩
      rw [(not_tiny h hx hy).1] at hrange
      cases hrange
  · obtain ⟨y, hy, hrange⟩ := htiny
    obtain ⟨x, hx, -⟩ := hplain
    rw [(not_tiny h hx hy).2] at hrange
    cases hrange

theorem comma_taken : ¬ ∀ s, TakenExactly s := by
  intro h
  have hblank : ∀ bound, Stray bound [] := fun _ => .nothing (forall_mem_nil _)
  exact refused_of_stray (h [',']) (by decide) not_mem_nil (.inl (hblank 90))
    (coordinate_stray (hblank 90)) (coordinate_stray (hblank 180))

end String2coords
