import OrionLd.Scanf
import Mathlib.Data.Bool.AllAny

/-! strtod and strtol of the C library in the C locale. strtod takes the longest beginning of a text
that is a number: a decimal or a hexadecimal numeral, an infinity or a NaN. -/
namespace Strtod

open Scanf List
open Binary64 (Double)
open NearestFloat (nearest binary64)

def cString (s : List Char) : List Char := s.takeWhile (· ≠ '\x00')

def strtol (input : List Char) : ℤ :=
  let (sign, input) := splitSign (skipSpace input)
  max (-2 ^ 63) (min (2 ^ 63 - 1) (signedBy sign (valueOf 10 (input.takeWhile Char.isDigit) : ℤ)))

/-- The long of strtol, cast to an int. -/
def atoi (input : List Char) : ℤ := (strtol input).bmod (2 ^ 32)

def longest : Phase → List Char → Option (List Char × List Char)
  | phase, [] => if phase.complete then some ([], []) else none
  | phase, c :: input =>
    let here := if phase.complete then some ([], c :: input) else none
    match phase.step c with
    | none => here
    | some next =>
      match longest next input with
      | some (text, rest) => some (c :: text, rest)
      | none => here

def exactOf (text : List Char) : Option ℚ :=
  let (sign, text) := splitSign text
  match text.map Char.toLower with
  | 'i' :: _ => none
  | 'n' :: _ => none
  | '0' :: 'x' :: text => some (signedBy sign (numberOf true text))
  | text => some (signedBy sign (numberOf false text))

/-- Whether errno is set to ERANGE: the number is too great, or it is less than the least normal
double and not a double itself. -/
def outOfRange (x : ℚ) : Bool :=
  let y := nearest binary64 x
  decide (2 ^ 1024 ≤ |y|) || (decide (|y| < 2 ^ (-1022 : ℤ)) && y != x)

structure Conversion where
  value : Double
  erange : Bool
  rest : List Char

def strtod (input : List Char) : Conversion :=
  match longest .start (skipSpace input) with
  | none => ⟨.finite 0, false, input⟩
  | some (text, rest) => ⟨realOf text, (exactOf text).any outOfRange, rest⟩

def atof (input : List Char) : Double := (strtod input).value

def IsSign (sign : List Char) : Prop := sign = [] ∨ ∃ c, isSign c = true ∧ sign = [c]

abbrev Exponent := Option (Char × List Char × List Char)

def exponentText (e : Exponent) : List Char := e.elim [] fun e => e.1 :: (e.2.1 ++ e.2.2)

def ExponentValid (hex : Bool) (e : Exponent) : Prop :=
  ∀ p ∈ e, isMarker hex p.1 = true ∧ IsSign p.2.1 ∧ p.2.2 ≠ [] ∧ ∀ c ∈ p.2.2, c.isDigit = true

structure Magnitude where
  whole : List Char
  point : Bool
  decimals : List Char
  exponent : Exponent

def Magnitude.text (m : Magnitude) : List Char :=
  m.whole ++ ((if m.point then '.' :: m.decimals else []) ++ exponentText m.exponent)

structure Magnitude.Valid (hex : Bool) (m : Magnitude) : Prop where
  whole : ∀ c ∈ m.whole, isDigitOf hex c = true
  decimals : ∀ c ∈ m.decimals, isDigitOf hex c = true
  pointless : m.point = false → m.decimals = []
  exponent : ExponentValid hex m.exponent

def baseOf (hex : Bool) : ℕ := if hex then 16 else 10

def Magnitude.scale (m : Magnitude) : ℤ :=
  m.exponent.elim 0 fun e => signedBy e.2.1 (valueOf 10 e.2.2 : ℤ)

def Magnitude.value (hex : Bool) (m : Magnitude) : ℚ :=
  valueOf (baseOf hex) (m.whole ++ m.decimals) / (baseOf hex : ℚ) ^ m.decimals.length *
    (if hex then 2 else 10 : ℚ) ^ m.scale

def IsDecimal (text : List Char) (x : ℚ) : Prop :=
  ∃ sign, ∃ m : Magnitude, IsSign sign ∧ m.Valid false ∧ m.whole ++ m.decimals ≠ [] ∧
    text = sign ++ m.text ∧ x = signedBy sign (m.value false)

/-- A hexadecimal numeral has an x behind a zero. -/
def IsHexadecimal (text : List Char) (x : ℚ) : Prop :=
  ∃ sign c, ∃ m : Magnitude, IsSign sign ∧ c.toLower = 'x' ∧ m.Valid true ∧
    m.whole ++ m.decimals ≠ [] ∧ text = sign ++ '0' :: c :: m.text ∧
      x = signedBy sign (m.value true)

def IsInfinity (text : List Char) : Prop :=
  ∃ sign word, IsSign sign ∧ text = sign ++ word ∧
    (word.map Char.toLower = ['i', 'n', 'f'] ∨
      word.map Char.toLower = ['i', 'n', 'f', 'i', 'n', 'i', 't', 'y'])

def IsNanText (more : List Char) : Prop :=
  more = [] ∨ ∃ chars, (∀ c ∈ chars, (c.isAlphanum || c == '_') = true) ∧
    more = '(' :: (chars ++ [')'])

def IsNan (text : List Char) : Prop :=
  ∃ sign word more, IsSign sign ∧ text = sign ++ (word ++ more) ∧
    word.map Char.toLower = ['n', 'a', 'n'] ∧ IsNanText more

def Accepts : Phase → List Char → Prop
  | phase, [] => phase.complete = true
  | phase, c :: text => ∃ next, phase.step c = some next ∧ Accepts next text

variable {phase : Phase} {text t rest : List Char}

theorem longest_accepts (h : longest phase text = some (t, rest)) :
    text = t ++ rest ∧ Accepts phase t := by
  induction text generalizing phase t with
  | nil =>
    unfold longest at h
    split at h
    · rename_i hcomplete
      cases h
      exact ⟨rfl, hcomplete⟩
    · cases h
  | cons c text ih =>
    have hhere : (if phase.complete then some (([] : List Char), c :: text) else none) =
        some (t, rest) → c :: text = t ++ rest ∧ Accepts phase t := by
      intro h
      split at h
      · rename_i hcomplete
        cases h
        exact ⟨rfl, hcomplete⟩
      · cases h
    unfold longest at h
    cases hstep : phase.step c with
    | none =>
      rw [hstep] at h
      exact hhere h
    | some next =>
      rw [hstep] at h
      dsimp only at h
      cases hnext : longest next text with
      | none =>
        rw [hnext] at h
        exact hhere h
      | some r =>
        rw [hnext] at h
        cases h
        obtain ⟨htext, haccepts⟩ := ih hnext
        exact ⟨by rw [htext, cons_append], next, hstep, haccepts⟩

def Stops : Phase → List Char → List Char → Prop
  | phase, [], rest => ∀ c ∈ rest.head?, phase.step c = none
  | phase, c :: text, rest => ∀ next, phase.step c = some next → Stops next text rest

theorem longest_of_accepts (h : Accepts phase text) (hstops : Stops phase text rest) :
    longest phase (text ++ rest) = some (text, rest) := by
  induction text generalizing phase with
  | nil =>
    have hcomplete : phase.complete = true := h
    cases rest with
    | nil => exact if_pos hcomplete
    | cons c rest =>
      have hnone : phase.step c = none := hstops c rfl
      unfold longest
      simp only [nil_append, hnone, hcomplete, if_true]
  | cons c text ih =>
    obtain ⟨next, hstep, haccepts⟩ := h
    rw [cons_append, longest]
    simp only [hstep, ih haccepts (hstops next hstep)]

variable {c : Char} {hex : Bool}

theorem isDigitOf_false : isDigitOf false c = c.isDigit := by simp [isDigitOf]

theorem marker_cases (h : isMarker hex c = true) : isDigitOf hex c = false ∧ c ≠ '.' := by
  unfold isMarker at h
  rw [beq_iff_eq] at h
  constructor
  · by_contra hdigit
    rw [Bool.not_eq_false, isDigitOf, Bool.or_eq_true] at hdigit
    rcases hdigit with hdigit | hletter
    · rw [toLower_digit hdigit] at h
      cases hex <;> exact absurd h (ne_of_isDigit hdigit (by decide))
    cases hex with
    | false => exact absurd hletter (by simp)
    | true =>
      rw [h] at hletter
      exact absurd hletter (by decide)
  · rintro rfl
    cases hex <;> exact absurd h (by decide)

theorem point_not_digit : isDigitOf hex '.' = false := by cases hex <;> decide

theorem accepts_exponentDigits : Accepts .exponentDigits t ↔ ∀ c ∈ t, c.isDigit = true := by
  induction t with
  | nil => simp [Accepts, Phase.complete]
  | cons c t ih =>
    rw [forall_mem_cons, ← ih]
    by_cases hdigit : c.isDigit = true <;> simp [Accepts, Phase.step, hdigit]

theorem accepts_exponentSigned :
    Accepts .exponentSigned t ↔ t ≠ [] ∧ ∀ c ∈ t, c.isDigit = true := by
  cases t with
  | nil => simp [Accepts, Phase.complete]
  | cons c t =>
    rw [forall_mem_cons, ← accepts_exponentDigits]
    by_cases hdigit : c.isDigit = true <;> simp [Accepts, Phase.step, hdigit]

theorem accepts_exponent : Accepts .exponent t ↔ ∃ sign digits, IsSign sign ∧ digits ≠ [] ∧
    (∀ d ∈ digits, d.isDigit = true) ∧ t = sign ++ digits := by
  constructor
  · intro h
    cases t with
    | nil => cases h
    | cons c t =>
      obtain ⟨next, hstep, haccepts⟩ := h
      simp only [Phase.step] at hstep
      split at hstep
      · rename_i hsign
        cases hstep
        obtain ⟨hne, hdigits⟩ := accepts_exponentSigned.mp haccepts
        exact ⟨[c], t, .inr ⟨c, hsign, rfl⟩, hne, hdigits, rfl⟩
      · split at hstep
        · rename_i hdigit
          cases hstep
          refine ⟨[], c :: t, .inl rfl, cons_ne_nil _ _, ?_, rfl⟩
          exact forall_mem_cons.mpr ⟨hdigit, accepts_exponentDigits.mp haccepts⟩
        · cases hstep
  · rintro ⟨sign, digits, hsign, hne, hdigits, rfl⟩
    rcases hsign with rfl | ⟨c, hsign, rfl⟩
    · obtain ⟨d, ds, rfl⟩ := exists_cons_of_ne_nil hne
      obtain ⟨hd, hds⟩ := forall_mem_cons.mp hdigits
      refine ⟨.exponentDigits, ?_, accepts_exponentDigits.mpr hds⟩
      simp [Phase.step, isSign_of_isDigit hd, hd]
    · exact ⟨.exponentSigned, if_pos hsign, accepts_exponentSigned.mpr ⟨hne, hdigits⟩⟩

theorem accepts_marker (hmarker : isMarker hex c = true) :
    Accepts .exponent t ↔ ∃ e, ExponentValid hex e ∧ c :: t = exponentText e := by
  rw [accepts_exponent]
  constructor
  · rintro ⟨sign, digits, hsign, hne, hdigits, rfl⟩
    refine ⟨some (c, sign, digits), ?_, rfl⟩
    rintro p hp
    cases hp
    exact ⟨hmarker, hsign, hne, hdigits⟩
  · rintro ⟨e, hvalid, h⟩
    cases e with
    | none => cases h
    | some p =>
      obtain ⟨-, hsign, hne, hdigits⟩ := hvalid p rfl
      exact ⟨p.2.1, p.2.2, hsign, hne, hdigits, (cons.inj h).2⟩

theorem exponentValid_none : ExponentValid hex none := by
  intro p hp
  cases hp

variable {e : Exponent} {left : List Char}

theorem exponent_head (hvalid : ExponentValid hex e) (h : c :: t = exponentText e) :
    isMarker hex c = true := by
  cases e with
  | none => cases h
  | some p =>
    rw [(cons.inj h).1]
    exact (hvalid p rfl).1

theorem accepts_fraction : Accepts (.fraction hex) t ↔ ∃ digits e,
    (∀ d ∈ digits, isDigitOf hex d = true) ∧ ExponentValid hex e ∧
      t = digits ++ exponentText e := by
  induction t with
  | nil =>
    refine ⟨fun _ => ⟨[], none, forall_mem_nil _, exponentValid_none, rfl⟩, fun _ => rfl⟩
  | cons c t ih =>
    constructor
    · rintro ⟨next, hstep, haccepts⟩
      simp only [Phase.step] at hstep
      split at hstep
      · rename_i hdigit
        cases hstep
        obtain ⟨digits, e, hdigits, he, rfl⟩ := ih.mp haccepts
        exact ⟨c :: digits, e, forall_mem_cons.mpr ⟨hdigit, hdigits⟩, he, rfl⟩
      · split at hstep
        · rename_i hmarker
          cases hstep
          obtain ⟨e, he, htext⟩ := (accepts_marker hmarker).mp haccepts
          exact ⟨[], e, forall_mem_nil _, he, htext⟩
        · cases hstep
    · rintro ⟨digits, e, hdigits, he, h⟩
      cases digits with
      | nil =>
        have hmarker := exponent_head he h
        refine ⟨.exponent, ?_, (accepts_marker hmarker).mpr ⟨e, he, h⟩⟩
        simp [Phase.step, (marker_cases hmarker).1, hmarker]
      | cons d ds =>
        cases h
        obtain ⟨hd, hds⟩ := forall_mem_cons.mp hdigits
        exact ⟨.fraction hex, if_pos hd, ih.mpr ⟨ds, e, hds, he, rfl⟩⟩

theorem accepts_point : Accepts (.point hex) t ↔ ∃ digits e, digits ≠ [] ∧
    (∀ d ∈ digits, isDigitOf hex d = true) ∧ ExponentValid hex e ∧
      t = digits ++ exponentText e := by
  constructor
  · intro h
    cases t with
    | nil => cases h
    | cons c t =>
      obtain ⟨next, hstep, haccepts⟩ := h
      simp only [Phase.step] at hstep
      split at hstep
      · rename_i hdigit
        cases hstep
        obtain ⟨digits, e, hdigits, he, rfl⟩ := accepts_fraction.mp haccepts
        exact ⟨c :: digits, e, cons_ne_nil _ _, forall_mem_cons.mpr ⟨hdigit, hdigits⟩, he, rfl⟩
      · cases hstep
  · rintro ⟨digits, e, hne, hdigits, he, rfl⟩
    obtain ⟨d, ds, rfl⟩ := exists_cons_of_ne_nil hne
    obtain ⟨hd, hds⟩ := forall_mem_cons.mp hdigits
    exact ⟨.fraction hex, if_pos hd, accepts_fraction.mpr ⟨ds, e, hds, he, rfl⟩⟩

theorem accepts_whole : Accepts (.whole hex) t ↔ ∃ m : Magnitude, m.Valid hex ∧ t = m.text := by
  induction t with
  | nil =>
    refine ⟨fun _ => ⟨⟨[], false, [], none⟩, ?_, rfl⟩, fun _ => rfl⟩
    exact ⟨forall_mem_nil _, forall_mem_nil _, fun _ => rfl, exponentValid_none⟩
  | cons c t ih =>
    constructor
    · rintro ⟨next, hstep, haccepts⟩
      simp only [Phase.step, Phase.afterWhole] at hstep
      split at hstep
      · rename_i hdigit
        cases hstep
        obtain ⟨m, hm, rfl⟩ := ih.mp haccepts
        exact ⟨{ m with whole := c :: m.whole },
          { hm with whole := forall_mem_cons.mpr ⟨hdigit, hm.whole⟩ }, rfl⟩
      · split at hstep
        · rename_i hpoint
          subst hpoint
          cases hstep
          obtain ⟨digits, e, hdigits, he, rfl⟩ := accepts_fraction.mp haccepts
          refine ⟨⟨[], true, digits, e⟩, ⟨forall_mem_nil _, hdigits, ?_, he⟩, rfl⟩
          intro h
          cases h
        · split at hstep
          · rename_i hmarker
            cases hstep
            obtain ⟨e, he, htext⟩ := (accepts_marker hmarker).mp haccepts
            exact ⟨⟨[], false, [], e⟩,
              ⟨forall_mem_nil _, forall_mem_nil _, fun _ => rfl, he⟩, htext⟩
          · cases hstep
    · rintro ⟨⟨whole, point, decimals, e⟩, hm, h⟩
      cases whole with
      | cons d ds =>
        cases h
        obtain ⟨hd, hds⟩ := forall_mem_cons.mp hm.whole
        exact ⟨.whole hex, if_pos hd,
          ih.mpr ⟨⟨ds, point, decimals, e⟩, { hm with whole := hds }, rfl⟩⟩
      | nil =>
        cases point with
        | true =>
          cases h
          refine ⟨.fraction hex, ?_,
            accepts_fraction.mpr ⟨decimals, e, hm.decimals, hm.exponent, rfl⟩⟩
          simp [Phase.step, Phase.afterWhole, point_not_digit]
        | false =>
          have htext : c :: t = exponentText e := h
          have hmarker := exponent_head hm.exponent htext
          obtain ⟨hdigit, hpoint⟩ := marker_cases hmarker
          refine ⟨.exponent, ?_, (accepts_marker hmarker).mpr ⟨e, hm.exponent, htext⟩⟩
          simp [Phase.step, Phase.afterWhole, hdigit, hpoint, hmarker]

theorem magnitude_cons : (∃ m : Magnitude, m.Valid hex ∧ m.whole ++ m.decimals ≠ [] ∧
    c :: t = m.text) ↔ (isDigitOf hex c = true ∧ Accepts (.whole hex) t) ∨
      (c = '.' ∧ Accepts (.point hex) t) := by
  constructor
  · rintro ⟨⟨whole, point, decimals, e⟩, hm, hdigits, h⟩
    cases whole with
    | cons d ds =>
      cases h
      obtain ⟨hd, hds⟩ := forall_mem_cons.mp hm.whole
      exact .inl ⟨hd, accepts_whole.mpr ⟨⟨ds, point, decimals, e⟩, { hm with whole := hds }, rfl⟩⟩
    | nil =>
      cases point with
      | true =>
        cases h
        exact .inr ⟨rfl, accepts_point.mpr ⟨decimals, e, hdigits, hm.decimals, hm.exponent, rfl⟩⟩
      | false => exact absurd (hm.pointless rfl) hdigits
  · rintro (⟨hdigit, haccepts⟩ | ⟨rfl, haccepts⟩)
    · obtain ⟨m, hm, rfl⟩ := accepts_whole.mp haccepts
      exact ⟨{ m with whole := c :: m.whole },
        { hm with whole := forall_mem_cons.mpr ⟨hdigit, hm.whole⟩ },
        cons_ne_nil _ _, rfl⟩
    · obtain ⟨digits, e, hne, hdigits, he, rfl⟩ := accepts_point.mp haccepts
      refine ⟨⟨[], true, digits, e⟩, ⟨forall_mem_nil _, hdigits, ?_, he⟩, hne, rfl⟩
      intro h
      cases h

theorem accepts_marked : Accepts .marked t ↔ ∃ m : Magnitude, m.Valid true ∧
    m.whole ++ m.decimals ≠ [] ∧ t = m.text := by
  cases t with
  | nil =>
    constructor
    · intro h
      cases h
    · rintro ⟨⟨whole, point, decimals, e⟩, hm, hdigits, h⟩
      cases whole with
      | cons d ds => cases h
      | nil =>
        cases point with
        | true => cases h
        | false => exact absurd (hm.pointless rfl) hdigits
  | cons c t =>
    rw [magnitude_cons]
    constructor
    · rintro ⟨next, hstep, haccepts⟩
      simp only [Phase.step] at hstep
      split at hstep
      · rename_i hdigit
        cases hstep
        exact .inl ⟨hdigit, haccepts⟩
      split at hstep
      · rename_i hpoint
        cases hstep
        exact .inr ⟨hpoint, haccepts⟩
      · cases hstep
    · rintro (⟨hdigit, haccepts⟩ | ⟨rfl, haccepts⟩)
      · exact ⟨.whole true, if_pos hdigit, haccepts⟩
      · refine ⟨.point true, ?_, haccepts⟩
        simp [Phase.step, point_not_digit]

theorem afterWhole_x (hx : c.toLower = 'x') : Phase.afterWhole false c = none := by
  have hdigit : c.isDigit = false := by
    by_contra hdigit
    rw [Bool.not_eq_false] at hdigit
    rw [toLower_digit hdigit] at hx
    exact ne_of_isDigit hdigit (by decide) hx
  have hpoint : c ≠ '.' := by
    rintro rfl
    exact absurd hx (by decide)
  simp [Phase.afterWhole, isDigitOf, isMarker, hdigit, hpoint, hx]

theorem accepts_zero : Accepts .zero t ↔ Accepts (.whole false) t ∨
    ∃ x rest, x.toLower = 'x' ∧ t = x :: rest ∧ Accepts .marked rest := by
  cases t with
  | nil => simp [Accepts, Phase.complete]
  | cons c t =>
    by_cases hx : c.toLower = 'x'
    · have hnone := afterWhole_x hx
      constructor
      · rintro ⟨next, hstep, haccepts⟩
        simp only [Phase.step, if_pos hx] at hstep
        cases hstep
        exact .inr ⟨c, t, hx, rfl, haccepts⟩
      · rintro (⟨next, hstep, -⟩ | ⟨x, rest, -, h, haccepts⟩)
        · simp only [Phase.step, hnone] at hstep
          cases hstep
        · cases h
          exact ⟨.marked, if_pos hx, haccepts⟩
    · constructor
      · rintro ⟨next, hstep, haccepts⟩
        simp only [Phase.step, if_neg hx] at hstep
        exact .inl ⟨next, hstep, haccepts⟩
      · rintro (⟨next, hstep, haccepts⟩ | ⟨x, rest, hx', h, -⟩)
        · refine ⟨next, ?_, haccepts⟩
          simp only [Phase.step, if_neg hx]
          exact hstep
        · cases h
          exact absurd hx' hx

variable {next : Phase}

theorem accepts_letters (hne : left ≠ []) : Accepts (.letters left next) t ↔
    ∃ word rest, word.map Char.toLower = left ∧ t = word ++ rest ∧ Accepts next rest := by
  induction left generalizing t with
  | nil => exact absurd rfl hne
  | cons first left ih =>
    cases t with
    | nil =>
      constructor
      · intro h
        cases h
      · rintro ⟨word, rest, hword, h, -⟩
        rw [eq_comm, append_eq_nil_iff] at h
        rw [h.1] at hword
        cases hword
    | cons c t =>
      cases left with
      | nil =>
        constructor
        · rintro ⟨next', hstep, haccepts⟩
          simp only [Phase.step, Phase.letter] at hstep
          split at hstep
          · rename_i hc
            cases hstep
            exact ⟨[c], t, congrArg (· :: []) hc, rfl, haccepts⟩
          · cases hstep
        · rintro ⟨word, rest, hword, h, haccepts⟩
          obtain ⟨d, rfl, hd⟩ := map_eq_singleton_iff.mp hword
          cases h
          exact ⟨next, if_pos hd, haccepts⟩
      | cons second left =>
        have hih := fun t => @ih t (cons_ne_nil _ _)
        constructor
        · rintro ⟨next', hstep, haccepts⟩
          simp only [Phase.step, Phase.letter] at hstep
          split at hstep
          · rename_i hc
            cases hstep
            obtain ⟨word, rest, hword, rfl, hrest⟩ := (hih t).mp haccepts
            exact ⟨c :: word, rest, by rw [map_cons, hc, hword], rfl, hrest⟩
          · cases hstep
        · rintro ⟨word, rest, hword, h, haccepts⟩
          obtain ⟨d, ds, rfl, hd, hds⟩ := map_eq_cons_iff.mp hword
          cases h
          exact ⟨.letters (second :: left) next, if_pos hd,
            (hih _).mpr ⟨ds, rest, hds, rfl, haccepts⟩⟩

theorem accepts_done : Accepts .done t ↔ t = [] := by
  cases t with
  | nil => simp [Accepts, Phase.complete]
  | cons c t => simp [Accepts, Phase.step]

theorem accepts_nanText : Accepts .nanText t ↔ ∃ chars,
    (∀ c ∈ chars, (c.isAlphanum || c == '_') = true) ∧ t = chars ++ [')'] := by
  induction t with
  | nil => simp [Accepts, Phase.complete]
  | cons c t ih =>
    constructor
    · rintro ⟨next, hstep, haccepts⟩
      simp only [Phase.step] at hstep
      split at hstep
      · rename_i hc
        cases hstep
        obtain rfl := accepts_done.mp haccepts
        exact ⟨[], forall_mem_nil _, by rw [hc]; rfl⟩
      · split at hstep
        · rename_i hword
          cases hstep
          obtain ⟨chars, hchars, rfl⟩ := ih.mp haccepts
          exact ⟨c :: chars, forall_mem_cons.mpr ⟨hword, hchars⟩, rfl⟩
        · cases hstep
    · rintro ⟨chars, hchars, h⟩
      cases chars with
      | nil =>
        cases h
        exact ⟨.done, rfl, accepts_done.mpr rfl⟩
      | cons d ds =>
        cases h
        obtain ⟨hd, hds⟩ := forall_mem_cons.mp hchars
        have hparen : c ≠ ')' := by
          rintro rfl
          exact absurd hd (by decide)
        refine ⟨.nanText, ?_, ih.mpr ⟨ds, hds, rfl⟩⟩
        simp only [Phase.step, if_neg hparen]
        exact if_pos hd

theorem accepts_nan : Accepts .nan t ↔ IsNanText t := by
  cases t with
  | nil =>
    refine ⟨fun _ => .inl rfl, fun _ => rfl⟩
  | cons c t =>
    constructor
    · rintro ⟨next, hstep, haccepts⟩
      simp only [Phase.step] at hstep
      split at hstep
      · rename_i hc
        cases hstep
        obtain ⟨chars, hchars, rfl⟩ := accepts_nanText.mp haccepts
        exact .inr ⟨chars, hchars, by rw [hc]⟩
      · cases hstep
    · rintro (h | ⟨chars, hchars, h⟩)
      · cases h
      · cases h
        exact ⟨.nanText, rfl, accepts_nanText.mpr ⟨chars, hchars, rfl⟩⟩

theorem accepts_inf : Accepts .inf t ↔ t = [] ∨ t.map Char.toLower = ['i', 'n', 'i', 't', 'y'] := by
  cases t with
  | nil => exact ⟨fun _ => .inl rfl, fun _ => rfl⟩
  | cons c t =>
    have hstep : Accepts .inf (c :: t) ↔
        Accepts (.letters ['i', 'n', 'i', 't', 'y'] .done) (c :: t) := Iff.rfl
    rw [hstep, accepts_letters (cons_ne_nil _ _)]
    constructor
    · rintro ⟨word, rest, hword, h, hrest⟩
      rw [accepts_done.mp hrest, append_nil] at h
      exact .inr (h ▸ hword)
    · rintro (h | h)
      · cases h
      · exact ⟨c :: t, [], h, (append_nil _).symm, accepts_done.mpr rfl⟩

inductive Unsigned : List Char → Prop where
  | decimal {m : Magnitude} (valid : m.Valid false) (digits : m.whole ++ m.decimals ≠ []) :
    Unsigned m.text
  | hexadecimal {m : Magnitude} {x : Char} (marker : x.toLower = 'x') (valid : m.Valid true)
    (digits : m.whole ++ m.decimals ≠ []) : Unsigned ('0' :: x :: m.text)
  | infinity {word : List Char} (letters : word.map Char.toLower = ['i', 'n', 'f'] ∨
    word.map Char.toLower = ['i', 'n', 'f', 'i', 'n', 'i', 't', 'y']) : Unsigned word
  | nan {word more : List Char} (letters : word.map Char.toLower = ['n', 'a', 'n'])
    (text : IsNanText more) : Unsigned (word ++ more)

theorem accepts_begin (h : ∃ next, Phase.begin c = some next ∧ Accepts next t) :
    Unsigned (c :: t) := by
  obtain ⟨next, hstep, haccepts⟩ := h
  unfold Phase.begin at hstep
  split at hstep
  · rename_i hzero
    subst hzero
    cases hstep
    rcases accepts_zero.mp haccepts with hwhole | ⟨x, rest, hx, rfl, hmarked⟩
    · have hzero : isDigitOf false '0' = true := by decide
      obtain ⟨m, hm, hdigits, htext⟩ := magnitude_cons.mpr (.inl ⟨hzero, hwhole⟩)
      rw [htext]
      exact .decimal hm hdigits
    · obtain ⟨m, hm, hdigits, rfl⟩ := accepts_marked.mp hmarked
      exact .hexadecimal hx hm hdigits
  · split at hstep
    · rename_i hdigit
      cases hstep
      obtain ⟨m, hm, hdigits, htext⟩ :=
        magnitude_cons.mpr (.inl ⟨by rw [isDigitOf, hdigit, Bool.true_or], haccepts⟩)
      rw [htext]
      exact .decimal hm hdigits
    · split at hstep
      · rename_i hpoint
        cases hstep
        obtain ⟨m, hm, hdigits, htext⟩ := magnitude_cons.mpr (.inr ⟨hpoint, haccepts⟩)
        rw [htext]
        exact .decimal hm hdigits
      · split at hstep
        · rename_i hi
          cases hstep
          obtain ⟨word, rest, hword, rfl, hrest⟩ := (accepts_letters (cons_ne_nil _ _)).mp haccepts
          rw [← cons_append]
          rcases accepts_inf.mp hrest with rfl | hmore
          · rw [append_nil]
            exact .infinity (.inl (by rw [map_cons, hi, hword]))
          · exact .infinity (.inr (by rw [map_append, map_cons, hi, hword, hmore]; rfl))
        · split at hstep
          · rename_i hn
            cases hstep
            obtain ⟨word, rest, hword, rfl, hrest⟩ :=
              (accepts_letters (cons_ne_nil _ _)).mp haccepts
            exact .nan (by rw [map_cons, hn, hword]) (accepts_nan.mp hrest)
          · cases hstep

variable {a : Char}

theorem digit_of_lower (ha : c.toLower = a) (h : a.isDigit = false) : c.isDigit = false := by
  by_contra hdigit
  rw [Bool.not_eq_false] at hdigit
  rw [toLower_digit hdigit] at ha
  rw [← ha, hdigit] at h
  cases h

theorem ne_of_lower {b : Char} (ha : c.toLower = a) (h : b.toLower ≠ a) : c ≠ b := by
  rintro rfl
  exact h ha

theorem isSign_of_lower (ha : c.toLower = a) (hplus : a ≠ '+') (hminus : a ≠ '-') :
    isSign c = false := by
  have hp := ne_of_lower ha (b := '+') (Ne.symm hplus)
  have hm := ne_of_lower ha (b := '-') (Ne.symm hminus)
  simp [isSign, hp, hm]

theorem begin_word {word : List Char} (hletters : word.map Char.toLower = a :: left)
    (hleft : left ≠ [])
    (hbegin : ∀ c : Char, c.toLower = a → Phase.begin c = some (.letters left next))
    (hplus : a ≠ '+') (hminus : a ≠ '-') (hrest : Accepts next rest) :
    ∃ c t, word ++ rest = c :: t ∧ isSign c = false ∧
      ∃ next, Phase.begin c = some next ∧ Accepts next t := by
  obtain ⟨c, cs, rfl, hc, hcs⟩ := map_eq_cons_iff.mp hletters
  refine ⟨c, cs ++ rest, rfl, isSign_of_lower hc hplus hminus, _, hbegin c hc, ?_⟩
  exact (accepts_letters hleft).mpr ⟨cs, rest, hcs, rfl, hrest⟩

theorem begin_i (hc : c.toLower = 'i') : Phase.begin c = some (.letters ['n', 'f'] .inf) := by
  have hzero := ne_of_lower hc (b := '0') (by decide)
  have hpoint := ne_of_lower hc (b := '.') (by decide)
  have hdigit := digit_of_lower hc (by decide)
  simp [Phase.begin, hzero, hpoint, hdigit, hc]

theorem begin_n (hc : c.toLower = 'n') : Phase.begin c = some (.letters ['a', 'n'] .nan) := by
  have hzero := ne_of_lower hc (b := '0') (by decide)
  have hpoint := ne_of_lower hc (b := '.') (by decide)
  have hdigit := digit_of_lower hc (by decide)
  simp [Phase.begin, hzero, hpoint, hdigit, hc]

theorem begin_digit_whole (hc : c.isDigit = true) (h : Accepts (.whole false) t) :
    ∃ next, Phase.begin c = some next ∧ Accepts next t := by
  by_cases hzero : c = '0'
  · exact ⟨.zero, if_pos hzero, accepts_zero.mpr (.inl h)⟩
  · refine ⟨.whole false, ?_, h⟩
    rw [Phase.begin, if_neg hzero, if_pos hc]

theorem unsigned_begins (h : Unsigned t) : ∃ c rest, t = c :: rest ∧ isSign c = false ∧
    ∃ next, Phase.begin c = some next ∧ Accepts next rest := by
  cases h with
  | @decimal m hm hdigits =>
    cases htext : m.text with
    | nil =>
      obtain ⟨whole, point, decimals, e⟩ := m
      cases whole with
      | cons d ds => cases htext
      | nil =>
        cases point with
        | true => cases htext
        | false => exact absurd (hm.pointless rfl) hdigits
    | cons c rest =>
      refine ⟨c, rest, rfl, ?_⟩
      rcases magnitude_cons.mp ⟨m, hm, hdigits, htext.symm⟩ with ⟨hdigit, hwhole⟩ | ⟨rfl, hpoint⟩
      · rw [isDigitOf_false] at hdigit
        exact ⟨isSign_of_isDigit hdigit, begin_digit_whole hdigit hwhole⟩
      · exact ⟨by decide, .point false, rfl, hpoint⟩
  | @hexadecimal m x hx hm hdigits =>
    refine ⟨'0', x :: m.text, rfl, by decide, .zero, rfl, ?_⟩
    exact accepts_zero.mpr (.inr ⟨x, m.text, hx, rfl, accepts_marked.mpr ⟨m, hm, hdigits, rfl⟩⟩)
  | infinity hletters =>
    rcases hletters with hshort | hlong
    · have hend : Accepts .inf [] := accepts_inf.mpr (.inl rfl)
      have hword := begin_word hshort (by decide) (fun _ => begin_i) (by decide) (by decide) hend
      rwa [append_nil] at hword
    obtain ⟨word, rest, rfl, hword, hrest⟩ := map_eq_append_iff.mp
      (show t.map Char.toLower = ['i', 'n', 'f'] ++ ['i', 'n', 'i', 't', 'y'] from hlong)
    exact begin_word hword (by decide) (fun _ => begin_i) (by decide) (by decide)
      (accepts_inf.mpr (.inr hrest))
  | nan hletters htext =>
    exact begin_word hletters (by decide) (fun _ => begin_n) (by decide) (by decide)
      (accepts_nan.mpr htext)

/-- What strtod takes as a whole: a sign or none, and a numeral, an infinity or a NaN. -/
theorem accepts_iff : Accepts .start t ↔ ∃ sign u, IsSign sign ∧ Unsigned u ∧ t = sign ++ u := by
  constructor
  · intro h
    cases t with
    | nil => cases h
    | cons c t =>
      obtain ⟨next, hstep, haccepts⟩ := h
      simp only [Phase.step] at hstep
      split at hstep
      · rename_i hsign
        cases hstep
        cases t with
        | nil => cases haccepts
        | cons d t => exact ⟨[c], d :: t, .inr ⟨c, hsign, rfl⟩, accepts_begin haccepts, rfl⟩
      · exact ⟨[], c :: t, .inl rfl, accepts_begin ⟨next, hstep, haccepts⟩, rfl⟩
  · rintro ⟨sign, u, hsign, hu, rfl⟩
    obtain ⟨c, rest, rfl, hc, next, hbegin, haccepts⟩ := unsigned_begins hu
    rcases hsign with rfl | ⟨s, hs, rfl⟩
    · refine ⟨next, ?_, haccepts⟩
      simp only [Phase.step, hc]
      exact hbegin
    · exact ⟨.signed, if_pos hs, next, hbegin, haccepts⟩

theorem accepts_kinds : Accepts .start t ↔
    (∃ x, IsDecimal t x) ∨ (∃ x, IsHexadecimal t x) ∨ IsInfinity t ∨ IsNan t := by
  rw [accepts_iff]
  constructor
  · rintro ⟨sign, u, hsign, hu, rfl⟩
    cases hu with
    | @decimal m hm hdigits => exact .inl ⟨_, sign, m, hsign, hm, hdigits, rfl, rfl⟩
    | @hexadecimal m x hx hm hdigits =>
      exact .inr (.inl ⟨_, sign, x, m, hsign, hx, hm, hdigits, rfl, rfl⟩)
    | infinity hletters => exact .inr (.inr (.inl ⟨sign, u, hsign, rfl, hletters⟩))
    | nan hletters htext => exact .inr (.inr (.inr ⟨sign, _, _, hsign, rfl, hletters, htext⟩))
  · rintro (⟨_, sign, m, hsign, hm, hdigits, rfl, -⟩ |
      ⟨_, sign, x, m, hsign, hx, hm, hdigits, rfl, -⟩ | ⟨sign, word, hsign, rfl, hletters⟩ |
      ⟨sign, word, more, hsign, rfl, hletters, htext⟩)
    · exact ⟨sign, _, hsign, .decimal hm hdigits, rfl⟩
    · exact ⟨sign, _, hsign, .hexadecimal hx hm hdigits, rfl⟩
    · exact ⟨sign, _, hsign, .infinity hletters, rfl⟩
    · exact ⟨sign, _, hsign, .nan hletters htext, rfl⟩

variable {u sign : List Char} {x : ℚ}

theorem splitSign_unsigned (hsign : IsSign sign) (hu : Unsigned u) :
    splitSign (sign ++ u) = (sign, u) := by
  obtain ⟨c, rest, rfl, hc, -⟩ := unsigned_begins hu
  rcases hsign with rfl | ⟨s, hs, rfl⟩
  · exact if_neg (by simp [hc])
  · exact if_pos hs

theorem toNat_toLower (c : Char) : c.toLower.toNat =
    if 65 ≤ c.toNat ∧ c.toNat ≤ 90 then c.toNat + 32 else c.toNat := by
  unfold Char.toLower
  split
  · rename_i h
    have hlow : 65 ≤ c.toNat := UInt32.le_iff_toNat_le.mp h.1
    have hhigh : c.toNat ≤ 90 := UInt32.le_iff_toNat_le.mp h.2
    rw [if_pos ⟨hlow, hhigh⟩]
    change (c.val + ('a'.val - 'A'.val)).toNat = _
    change (c.toNat + 32) % 2 ^ 32 = _
    omega
  · rename_i h
    rw [if_neg]
    rintro ⟨hlow, hhigh⟩
    exact h ⟨UInt32.le_iff_toNat_le.mpr hlow, UInt32.le_iff_toNat_le.mpr hhigh⟩

theorem toLower_idem (c : Char) : c.toLower.toLower = c.toLower := by
  apply Char.toNat_inj.mp
  rw [toNat_toLower, if_neg]
  rw [toNat_toLower]
  split <;> omega

theorem isDigit_iff (c : Char) : c.isDigit = true ↔ 48 ≤ c.toNat ∧ c.toNat ≤ 57 := by
  refine ⟨isDigit_range, ?_⟩
  rintro ⟨hlow, hhigh⟩
  unfold Char.isDigit
  rw [Bool.and_eq_true, decide_eq_true_eq, decide_eq_true_eq]
  exact ⟨UInt32.le_iff_toNat_le.mpr hlow, UInt32.le_iff_toNat_le.mpr hhigh⟩

theorem isDigit_toLower (c : Char) : c.toLower.isDigit = c.isDigit := by
  rw [Bool.eq_iff_iff, isDigit_iff, isDigit_iff, toNat_toLower]
  split <;> omega

theorem digitValue_toLower (c : Char) : digitValue c.toLower = digitValue c := by
  unfold digitValue
  rw [isDigit_toLower, toLower_idem]
  split
  · rename_i hdigit
    rw [toLower_digit hdigit]
  · rfl

theorem valueOf_toLower (base : ℕ) (digits : List Char) :
    valueOf base (digits.map Char.toLower) = valueOf base digits := by
  unfold valueOf
  rw [foldl_map]
  simp only [digitValue_toLower]

theorem isDigitOf_toLower (c : Char) : isDigitOf hex c.toLower = isDigitOf hex c := by
  rw [isDigitOf, isDigitOf, isDigit_toLower, toLower_idem]

theorem digits_end {digits : List Char} (hdigits : ∀ c ∈ digits, isDigitOf hex c = true)
    (hrest : ∀ c ∈ rest.head?, isDigitOf hex c = false) :
    (digits ++ rest).takeWhile (isDigitOf hex) = digits ∧
      (digits ++ rest).dropWhile (isDigitOf hex) = rest := by
  rw [takeWhile_append_of_pos hdigits, dropWhile_append_of_pos hdigits]
  cases rest with
  | nil => simp
  | cons c rest =>
    have hc := hrest c rfl
    simp [hc]

theorem exponent_first (he : ExponentValid hex e) :
    ∀ c ∈ ((exponentText e).map Char.toLower).head?, isDigitOf hex c = false ∧ c ≠ '.' := by
  intro c hc
  cases e with
  | none => cases hc
  | some p =>
    obtain rfl : p.1.toLower = c := Option.some.inj hc
    have hmarker : isMarker hex p.1.toLower = true := by
      rw [isMarker, toLower_idem]
      exact (he p rfl).1
    exact marker_cases hmarker

theorem map_digits {digits : List Char} (h : ∀ c ∈ digits, isDigitOf hex c = true) :
    ∀ c ∈ digits.map Char.toLower, isDigitOf hex c = true := by
  intro c hc
  obtain ⟨d, hd, rfl⟩ := mem_map.mp hc
  rw [isDigitOf_toLower]
  exact h d hd

theorem map_sign (hsign : IsSign sign) : sign.map Char.toLower = sign := by
  rcases hsign with rfl | ⟨s, hs, rfl⟩
  · rfl
  unfold isSign at hs
  rw [Bool.or_eq_true, beq_iff_eq, beq_iff_eq] at hs
  rcases hs with rfl | rfl <;> decide

theorem scale_read (he : ExponentValid hex e) :
    splitSign (((exponentText e).map Char.toLower).drop 1) =
      (e.elim [] (·.2.1), e.elim [] (·.2.2)) := by
  cases e with
  | none => rfl
  | some p =>
    obtain ⟨-, hsign, hne, hdigits⟩ := he p rfl
    have hlower : p.2.2.map Char.toLower = p.2.2 :=
      (map_congr_left fun c hc => toLower_digit (hdigits c hc)).trans (map_id _)
    change splitSign ((p.2.1 ++ p.2.2).map Char.toLower) = _
    rw [map_append, map_sign hsign, hlower]
    exact splitSign_append hsign hne hdigits

variable {whole decimals digits : List Char}

theorem numberOf_point (hwhole : ∀ c ∈ whole, isDigitOf hex c = true)
    (hdecimals : ∀ c ∈ decimals, isDigitOf hex c = true)
    (hrest : ∀ c ∈ rest.head?, isDigitOf hex c = false)
    (hscale : splitSign (rest.drop 1) = (sign, digits)) :
    numberOf hex (whole ++ '.' :: (decimals ++ rest)) =
      valueOf (baseOf hex) (whole ++ decimals) / (baseOf hex : ℚ) ^ decimals.length *
        (if hex then 2 else 10 : ℚ) ^ signedBy sign (valueOf 10 digits : ℤ) := by
  have hpoint : ∀ c ∈ ('.' :: (decimals ++ rest)).head?, isDigitOf hex c = false :=
    fun c hc => Option.some.inj hc ▸ point_not_digit
  obtain ⟨htake, hdrop⟩ := digits_end hwhole hpoint
  have hmore := (digits_end hdecimals hrest).1
  rw [drop_one] at hscale
  unfold numberOf baseOf
  simp only [htake, hdrop, drop_one, hmore, List.head?_cons, if_true, drop_succ_cons,
    drop_zero, drop_left, hscale]

theorem numberOf_whole (hwhole : ∀ c ∈ whole, isDigitOf hex c = true)
    (hrest : ∀ c ∈ rest.head?, isDigitOf hex c = false ∧ c ≠ '.')
    (hscale : splitSign (rest.drop 1) = (sign, digits)) :
    numberOf hex (whole ++ rest) = valueOf (baseOf hex) whole *
      (if hex then 2 else 10 : ℚ) ^ signedBy sign (valueOf 10 digits : ℤ) := by
  obtain ⟨htake, hdrop⟩ := digits_end hwhole fun c hc => (hrest c hc).1
  have hhead : rest.head? ≠ some '.' := fun h => (hrest '.' h).2 rfl
  unfold numberOf baseOf
  simp only [htake, hdrop, if_neg hhead, append_nil, length_nil, pow_zero, div_one, hscale]

theorem numberOf_magnitude {m : Magnitude} (hm : m.Valid hex) :
    numberOf hex (m.text.map Char.toLower) = m.value hex := by
  obtain ⟨whole, point, decimals, e⟩ := m
  have hfirst := exponent_first hm.exponent
  have hscale := scale_read hm.exponent
  have hexponent : (signedBy (e.elim [] (·.2.1)) (valueOf 10 (e.elim [] (·.2.2)) : ℤ) : ℤ) =
      Magnitude.scale ⟨whole, point, decimals, e⟩ := by
    cases e <;> rfl
  cases point with
  | true =>
    have htext : (Magnitude.text ⟨whole, true, decimals, e⟩).map Char.toLower =
        whole.map Char.toLower ++ '.' :: (decimals.map Char.toLower ++
          (exponentText e).map Char.toLower) := by
      unfold Magnitude.text
      rw [map_append, map_append, if_pos rfl, map_cons]
      rfl
    rw [htext, numberOf_point (map_digits hm.whole) (map_digits hm.decimals)
      (fun c hc => (hfirst c hc).1) hscale, hexponent, ← map_append, valueOf_toLower,
      length_map]
    rfl
  | false =>
    have hnil : decimals = [] := hm.pointless rfl
    subst hnil
    have htext : (Magnitude.text ⟨whole, false, [], e⟩).map Char.toLower =
        whole.map Char.toLower ++ (exponentText e).map Char.toLower := by
      unfold Magnitude.text
      rw [if_neg Bool.false_ne_true, nil_append, map_append]
    rw [htext, numberOf_whole (map_digits hm.whole) hfirst hscale, hexponent, valueOf_toLower,
      Magnitude.value, append_nil, length_nil, pow_zero, div_one]

theorem decimal_unmarked {m : Magnitude} (hm : m.Valid false) (hdigits : m.whole ++ m.decimals ≠ [])
    {r : List Char} (h : m.text.map Char.toLower = c :: r) :
    (c.isDigit = true ∨ c = '.') ∧ r.head? ≠ some 'x' := by
  obtain ⟨d, t, htext, hd, ht⟩ := map_eq_cons_iff.mp h
  rcases magnitude_cons.mp ⟨m, hm, hdigits, htext.symm⟩ with ⟨hdigit, haccepts⟩ | ⟨rfl, haccepts⟩
  · rw [isDigitOf_false] at hdigit
    rw [toLower_digit hdigit] at hd
    refine ⟨.inl (hd ▸ hdigit), ?_⟩
    cases t with
    | nil =>
      rw [← ht]
      simp
    | cons e t =>
      obtain ⟨next, hstep, -⟩ := haccepts
      rw [← ht]
      intro hx
      simp only [Phase.step, afterWhole_x (Option.some.inj hx)] at hstep
      cases hstep
  · refine ⟨.inr hd.symm, ?_⟩
    cases t with
    | nil =>
      rw [← ht]
      simp
    | cons e t =>
      obtain ⟨next, hstep, -⟩ := haccepts
      rw [← ht]
      intro hx
      have hnone := afterWhole_x (Option.some.inj hx)
      simp only [Phase.step, Phase.afterWhole] at hstep hnone
      split at hstep
      · rename_i hdigit
        rw [if_pos hdigit] at hnone
        cases hnone
      · cases hstep

theorem exactOf_decimal (h : IsDecimal t x) : exactOf t = some x ∧ realOf t = realOf.finite x := by
  obtain ⟨sign, m, hsign, hm, hdigits, rfl, rfl⟩ := h
  have hsplit := splitSign_unsigned hsign (.decimal hm hdigits)
  have hvalue := numberOf_magnitude hm
  unfold exactOf realOf
  simp only [hsplit]
  constructor
  · split
    · rename_i r heq
      rcases (decimal_unmarked hm hdigits heq).1 with hc | hc <;> exact absurd hc (by decide)
    · rename_i r heq
      rcases (decimal_unmarked hm hdigits heq).1 with hc | hc <;> exact absurd hc (by decide)
    · rename_i r heq
      exact absurd rfl (decimal_unmarked hm hdigits heq).2
    · rw [hvalue]
  · split
    · rename_i r heq
      rcases (decimal_unmarked hm hdigits heq).1 with hc | hc <;> exact absurd hc (by decide)
    · rename_i r heq
      rcases (decimal_unmarked hm hdigits heq).1 with hc | hc <;> exact absurd hc (by decide)
    · rename_i r heq
      exact absurd rfl (decimal_unmarked hm hdigits heq).2
    · rw [hvalue]

theorem exactOf_hexadecimal (h : IsHexadecimal t x) :
    exactOf t = some x ∧ realOf t = realOf.finite x := by
  obtain ⟨sign, c, m, hsign, hc, hm, hdigits, rfl, rfl⟩ := h
  have hsplit := splitSign_unsigned hsign (.hexadecimal hc hm hdigits)
  have hvalue := numberOf_magnitude hm
  have hlower : ('0' :: c :: m.text).map Char.toLower = '0' :: 'x' :: m.text.map Char.toLower := by
    rw [map_cons, map_cons, hc]
    rfl
  unfold exactOf realOf
  simp only [hsplit, hlower, hvalue, and_self]

theorem decimal_not_hexadecimal {y : ℚ} (h : IsDecimal t x) : ¬ IsHexadecimal t y := by
  rintro ⟨sign', c, m', hsign', hc, hm', hdigits', heq, -⟩
  obtain ⟨sign, m, hsign, hm, hdigits, rfl, -⟩ := h
  have hsplit := splitSign_unsigned hsign (.decimal hm hdigits)
  rw [heq, splitSign_unsigned hsign' (.hexadecimal hc hm' hdigits')] at hsplit
  have htext := (Prod.mk.inj hsplit).2
  have hlower : m.text.map Char.toLower = '0' :: 'x' :: m'.text.map Char.toLower := by
    rw [← htext, map_cons, map_cons, hc]
    rfl
  exact (decimal_unmarked hm hdigits hlower).2 rfl

theorem exactOf_infinity (h : IsInfinity t) :
    exactOf t = none ∧ ∃ negative, realOf t = .infinite negative := by
  obtain ⟨sign, word, hsign, rfl, hletters⟩ := h
  have hsplit := splitSign_unsigned hsign (.infinity hletters)
  unfold exactOf realOf
  simp only [hsplit]
  rcases hletters with hshort | hlong
  · simp only [hshort]
    exact ⟨trivial, _, rfl⟩
  · simp only [hlong]
    exact ⟨trivial, _, rfl⟩

theorem exactOf_nan (h : IsNan t) : exactOf t = none ∧ realOf t = .nan := by
  obtain ⟨sign, word, more, hsign, rfl, hletters, htext⟩ := h
  have hsplit := splitSign_unsigned hsign (.nan hletters htext)
  unfold exactOf realOf
  simp only [hsplit, map_append, hletters, cons_append, and_self]

/-- The letters that a phase waits for. -/
def Wordy : Phase → Prop
  | .letters left next => (∀ c ∈ left, c.isAlphanum = true) ∧ Wordy next
  | _ => True

/-- A character that is part of no number. -/
structure Foreign (c : Char) : Prop where
  lower : c.toLower = c
  letter : c.isAlphanum = false
  begins : Phase.begin c = none
  sign : isSign c = false
  point : c ≠ '.'
  digit : ∀ hex, isDigitOf hex c = false
  marker : ∀ hex, isMarker hex c = false
  word : c ≠ '(' ∧ c ≠ ')' ∧ c ≠ '_'

theorem isSpace_cases (h : isSpace c = true) :
    c = ' ' ∨ c = '\x09' ∨ c = '\x0a' ∨ c = '\x0b' ∨ c = '\x0c' ∨ c = '\x0d' := by
  unfold isSpace at h
  rw [Bool.or_eq_true, beq_iff_eq, Bool.and_eq_true, decide_eq_true_eq, decide_eq_true_eq] at h
  rcases h with h | ⟨hlow, hhigh⟩
  · exact .inl h
  have hlow' : 9 ≤ c.toNat := hlow
  have hhigh' : c.toNat ≤ 13 := hhigh
  have hcode : c.toNat = 9 ∨ c.toNat = 10 ∨ c.toNat = 11 ∨ c.toNat = 12 ∨ c.toNat = 13 := by
    omega
  rcases hcode with h | h | h | h | h
  · exact .inr (.inl (Char.toNat_inj.mp h))
  · exact .inr (.inr (.inl (Char.toNat_inj.mp h)))
  · exact .inr (.inr (.inr (.inl (Char.toNat_inj.mp h))))
  · exact .inr (.inr (.inr (.inr (.inl (Char.toNat_inj.mp h)))))
  · exact .inr (.inr (.inr (.inr (.inr (Char.toNat_inj.mp h)))))

theorem foreign_space (h : isSpace c = true) : Foreign c := by
  rcases isSpace_cases h with rfl | rfl | rfl | rfl | rfl | rfl
  all_goals exact ⟨by decide, by decide, by rfl, by decide, by decide, by decide, by decide,
    by decide⟩

theorem foreign_comma : Foreign ',' :=
  ⟨by decide, by decide, by rfl, by decide, by decide, by decide, by decide, by decide⟩

theorem letter_foreign (hleft : ∀ d ∈ left, d.isAlphanum = true) (h : Foreign c) :
    Phase.letter c left next = none := by
  have hne : ∀ d ∈ left, c.toLower ≠ d := by
    rintro d hd rfl
    have hd' := hleft _ hd
    rw [h.lower, h.letter] at hd'
    cases hd'
  match left, hne with
  | [], _ => rfl
  | [last], hne => exact if_neg (hne last mem_cons_self)
  | first :: second :: left, hne => exact if_neg (hne first mem_cons_self)

theorem inity_letters : ∀ d ∈ ['i', 'n', 'i', 't', 'y'], d.isAlphanum = true :=
  all_iff_forall_prop.mp rfl

theorem step_foreign (hwordy : Wordy phase) (h : Foreign c) : phase.step c = none := by
  have hdigit := h.digit false
  rw [isDigitOf_false] at hdigit
  cases phase with
  | start => simp [Phase.step, h.sign, h.begins]
  | signed => exact h.begins
  | zero =>
    have hx : c.toLower ≠ 'x' := by
      intro hx
      have hletter := h.letter
      rw [← h.lower, hx] at hletter
      cases hletter
    simp [Phase.step, Phase.afterWhole, hx, h.digit false, h.point, h.marker false]
  | marked => simp [Phase.step, h.digit true, h.point]
  | whole hex => simp [Phase.step, Phase.afterWhole, h.digit hex, h.point, h.marker hex]
  | point hex => simp [Phase.step, h.digit hex]
  | fraction hex => simp [Phase.step, h.digit hex, h.marker hex]
  | exponent => simp [Phase.step, h.sign, hdigit]
  | exponentSigned | exponentDigits => simp [Phase.step, hdigit]
  | letters left next => exact letter_foreign hwordy.1 h
  | inf => exact letter_foreign inity_letters h
  | nan => exact if_neg h.word.1
  | nanText => simp [Phase.step, h.word, h.letter]
  | done => rfl

theorem wordy_letter {next' : Phase} (hleft : ∀ d ∈ left, d.isAlphanum = true) (hnext : Wordy next)
    (h : Phase.letter c left next = some next') : Wordy next' := by
  match left, hleft, h with
  | [last], _, h =>
    simp only [Phase.letter] at h
    split at h
    · exact Option.some.inj h ▸ hnext
    · cases h
  | first :: second :: left, hleft, h =>
    simp only [Phase.letter] at h
    split at h
    · cases h
      exact ⟨(forall_mem_cons.mp hleft).2, hnext⟩
    · cases h

theorem wordy_begin (h : Phase.begin c = some next) : Wordy next := by
  unfold Phase.begin at h
  repeat' split at h
  all_goals cases h
  · trivial
  · trivial
  · trivial
  · exact ⟨all_iff_forall_prop.mp rfl, trivial⟩
  · exact ⟨all_iff_forall_prop.mp rfl, trivial⟩

theorem wordy_step (hwordy : Wordy phase) (h : phase.step c = some next) : Wordy next := by
  cases phase with
  | letters left after => exact wordy_letter hwordy.1 hwordy.2 h
  | inf =>
    have hend : Wordy .done := trivial
    exact wordy_letter inity_letters hend h
  | start =>
    simp only [Phase.step] at h
    split at h
    · exact Option.some.inj h ▸ trivial
    · exact wordy_begin h
  | signed => exact wordy_begin h
  | _ =>
    simp only [Phase.step, Phase.afterWhole] at h
    repeat' split at h
    all_goals cases h
    all_goals trivial

theorem stops_foreign (hwordy : Wordy phase) (h : ∀ c ∈ rest.head?, Foreign c) :
    Stops phase text rest := by
  induction text generalizing phase with
  | nil => exact fun c hc => step_foreign hwordy (h c hc)
  | cons d text ih => exact fun next hnext => ih (wordy_step hwordy hnext)

theorem accepts_foreign (hwordy : Wordy phase) (h : Accepts phase text) (hc : Foreign c) :
    c ∉ text := by
  induction text generalizing phase with
  | nil => exact not_mem_nil
  | cons d text ih =>
    obtain ⟨next, hstep, haccepts⟩ := h
    rw [mem_cons, not_or]
    refine ⟨?_, ih (wordy_step hwordy hstep) haccepts⟩
    rintro rfl
    rw [step_foreign hwordy hc] at hstep
    cases hstep

theorem wordy_start : Wordy .start := trivial

/-- A number with something behind it that cannot be part of it. -/
theorem longest_foreign (h : Accepts .start text) (hrest : ∀ c ∈ rest.head?, Foreign c) :
    longest .start (text ++ rest) = some (text, rest) :=
  longest_of_accepts h (stops_foreign wordy_start hrest)

theorem atoi_unsigned (h : ∀ c ∈ t.head?, isSpace c = false ∧ isSign c = false) :
    atoi t = (min (2 ^ 63 - 1) (valueOf 10 (t.takeWhile Char.isDigit) : ℤ)).bmod (2 ^ 32) := by
  have hunsigned : ∀ n : ℤ, signedBy [] n = n := fun n => if_neg (by simp)
  have hlong : ∀ n : ℕ, max (-2 ^ 63) (min (2 ^ 63 - 1) (n : ℤ)) = min (2 ^ 63 - 1) (n : ℤ) := by
    intro n
    omega
  cases t with
  | nil => rfl
  | cons c t =>
    obtain ⟨hspace, hsign⟩ := h c rfl
    have hskip : skipSpace (c :: t) = c :: t := skipSpace_of_false hspace
    have hsplit : splitSign (c :: t) = ([], c :: t) := if_neg (by simp [hsign])
    unfold atoi strtol
    simp only [hskip, hsplit, hunsigned, hlong]

theorem atoi_small (hdigits : ∀ c ∈ digits, c.isDigit = true)
    (hsmall : (valueOf 10 digits : ℤ) < 2 ^ 31) : atoi digits = valueOf 10 digits := by
  have hfirst : ∀ c ∈ digits.head?, isSpace c = false ∧ isSign c = false := by
    intro c hc
    have hdigit := hdigits c (mem_of_mem_head? hc)
    exact ⟨isSpace_of_isDigit hdigit, isSign_of_isDigit hdigit⟩
  rw [atoi_unsigned hfirst, takeWhile_eq_self_iff.mpr hdigits, min_eq_right (by omega),
    Int.bmod_eq_of_le] <;> omega

theorem valueOf_pos (hc : c.isDigit = true) (hzero : c ≠ '0') (more : List Char) :
    0 < valueOf 10 (c :: more) := by
  have hvalue := valueOf_append 10 [c] more
  have hfirst : 0 < valueOf 10 [c] := by
    have hrange := isDigit_range hc
    have hne : c.toNat ≠ '0'.toNat := fun h => hzero (Char.toNat_inj.mp h)
    have hone : valueOf 10 [c] = c.toNat - '0'.toNat := by simp [valueOf, digitValue, hc]
    have h0 : '0'.toNat = 48 := rfl
    omega
  have hpow : 0 < 10 ^ more.length := Nat.pow_pos (by decide)
  have hproduct := Nat.mul_pos hfirst hpow
  rw [singleton_append] at hvalue
  omega

end Strtod
