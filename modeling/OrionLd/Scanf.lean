import OrionLd.Binary64
import OrionLd.NearestFloat
import Mathlib.Data.List.TakeWhile

/-! sscanf of the C library in the C locale, as far as %d with a width, %lf and %s go: directives
are executed from the left until one fails, and what was assigned before that stays assigned. An
input item of %lf is the longest text that is a number or the beginning of one. -/
namespace Scanf

open List
open Binary64 (Double)
open NearestFloat (nearest binary64)

def isSpace (c : Char) : Bool := c == ' ' || ('\x09' ≤ c && c ≤ '\x0d')

def skipSpace (input : List Char) : List Char := input.dropWhile isSpace

def isSign (c : Char) : Bool := c == '+' || c == '-'

def splitSign : List Char → List Char × List Char
  | [] => ([], [])
  | c :: input => if isSign c then ([c], input) else ([], c :: input)

def digitValue (c : Char) : ℕ :=
  if c.isDigit then c.toNat - '0'.toNat else c.toLower.toNat - 'a'.toNat + 10

def valueOf (base : ℕ) (digits : List Char) : ℕ :=
  digits.foldl (fun value c => base * value + digitValue c) 0

def signedBy {α : Type} [Neg α] (sign : List Char) (x : α) : α :=
  if sign = ['-'] then -x else x

/-- The conversion %d with a width, which counts the sign. -/
def scanInt (width : ℕ) (input : List Char) : Option (ℤ × List Char) :=
  let (sign, input) := splitSign (skipSpace input)
  let digits := (input.take (width - sign.length)).takeWhile Char.isDigit
  if digits = [] then none
  else some (signedBy sign (valueOf 10 digits : ℤ), input.drop digits.length)

/-- How far a text is a number for strtod. After the last letter of a word comes what may follow
it. -/
inductive Phase where
  | start
  | signed
  | zero
  | marked
  | whole (hex : Bool)
  | point (hex : Bool)
  | fraction (hex : Bool)
  | exponent
  | exponentSigned
  | exponentDigits
  | letters (left : List Char) (next : Phase)
  | inf
  | nan
  | nanText
  | done

def isDigitOf (hex : Bool) (c : Char) : Bool :=
  c.isDigit || hex && 'a' ≤ c.toLower && c.toLower ≤ 'f'

def isMarker (hex : Bool) (c : Char) : Bool := c.toLower == if hex then 'p' else 'e'

def Phase.begin (c : Char) : Option Phase :=
  if c = '0' then some .zero
  else if c.isDigit then some (.whole false)
  else if c = '.' then some (.point false)
  else if c.toLower = 'i' then some (.letters ['n', 'f'] .inf)
  else if c.toLower = 'n' then some (.letters ['a', 'n'] .nan)
  else none

def Phase.afterWhole (hex : Bool) (c : Char) : Option Phase :=
  if isDigitOf hex c then some (.whole hex)
  else if c = '.' then some (.fraction hex)
  else if isMarker hex c then some .exponent
  else none

def Phase.letter (c : Char) : List Char → Phase → Option Phase
  | [], _ => none
  | [last], next => if c.toLower = last then some next else none
  | first :: left, next => if c.toLower = first then some (.letters left next) else none

def Phase.step : Phase → Char → Option Phase
  | .start, c => if isSign c then some .signed else begin c
  | .signed, c => begin c
  | .zero, c => if c.toLower = 'x' then some .marked else afterWhole false c
  | .marked, c =>
    if isDigitOf true c then some (.whole true) else if c = '.' then some (.point true) else none
  | .whole hex, c => afterWhole hex c
  | .point hex, c => if isDigitOf hex c then some (.fraction hex) else none
  | .fraction hex, c =>
    if isDigitOf hex c then some (.fraction hex)
    else if isMarker hex c then some .exponent else none
  | .exponent, c =>
    if isSign c then some .exponentSigned
    else if c.isDigit then some .exponentDigits else none
  | .exponentSigned, c => if c.isDigit then some .exponentDigits else none
  | .exponentDigits, c => if c.isDigit then some .exponentDigits else none
  | .letters left next, c => letter c left next
  | .inf, c => letter c ['i', 'n', 'i', 't', 'y'] .done
  | .nan, c => if c = '(' then some .nanText else none
  | .nanText, c =>
    if c = ')' then some .done else if c.isAlphanum || c == '_' then some .nanText else none
  | .done, _ => none

def Phase.complete : Phase → Bool
  | .zero | .whole _ | .fraction _ | .exponentDigits | .inf | .nan | .done => true
  | _ => false

def item : Phase → List Char → Phase × List Char × List Char
  | phase, [] => (phase, [], [])
  | phase, c :: input =>
    match phase.step c with
    | none => (phase, [], c :: input)
    | some next =>
      let (last, text, rest) := item next input
      (last, c :: text, rest)

/-- The number that digits, a fraction and an exponent write. -/
def numberOf (hex : Bool) (text : List Char) : ℚ :=
  let base := if hex then 16 else 10
  let whole := text.takeWhile (isDigitOf hex)
  let text := text.dropWhile (isDigitOf hex)
  let decimals := (text.drop 1).takeWhile (isDigitOf hex)
  let decimals := if text.head? = some '.' then decimals else []
  let text := if text.head? = some '.' then text.drop (decimals.length + 1) else text
  let (sign, digits) := splitSign (text.drop 1)
  let exponent : ℤ := signedBy sign (valueOf 10 digits)
  valueOf base (whole ++ decimals) / (base : ℚ) ^ decimals.length *
    (if hex then 2 else 10 : ℚ) ^ exponent

/-- strtod of an item, rounded to the nearest double. -/
def realOf (text : List Char) : Double :=
  let (sign, text) := splitSign text
  match text.map Char.toLower with
  | 'i' :: _ => .infinite (sign = ['-'])
  | 'n' :: _ => .nan
  | '0' :: 'x' :: text => finite (signedBy sign (numberOf true text))
  | text => finite (signedBy sign (numberOf false text))
where
  finite (x : ℚ) : Double :=
    let x := nearest binary64 x
    if 2 ^ 1024 ≤ |x| then .infinite (decide (x < 0)) else .finite x

def scanReal (input : List Char) : Option (Double × List Char) :=
  let (last, text, rest) := item .start (skipSpace input)
  if last.complete then some (realOf text, rest) else none

def scanLiteral (c : Char) : List Char → Option (List Char)
  | [] => none
  | c' :: input => if c' = c then some input else none

def scanWord (input : List Char) : Option (List Char × List Char) :=
  let input := skipSpace input
  let word := input.takeWhile (!isSpace ·)
  if word = [] then none else some (word, input.drop word.length)

inductive Directive where
  | literal (c : Char)
  | int (width : ℕ)
  | real
  | word
  deriving DecidableEq

def directives : List Char → List Directive
  | '%' :: 'l' :: 'f' :: format => .real :: directives format
  | '%' :: 's' :: format => .word :: directives format
  | '%' :: width :: 'd' :: format => .int (digitValue width) :: directives format
  | c :: format => .literal c :: directives format
  | [] => []

/-- The objects that the arguments point to; a word has a size. -/
inductive Argument (σ : Type) where
  | int (assign : ℤ → σ → σ)
  | real (assign : Double → σ → σ)
  | word (size : ℕ) (assign : List Char → σ → σ)

variable {σ : Type}

/-- The number of items assigned, where the end of the input counts as none. There is no result when
a word with its NUL is longer than its object, or an argument does not fit. -/
def scan : List Directive → List (Argument σ) → List Char → σ → Option (ℕ × σ)
  | [], _, _, s => some (0, s)
  | .literal c :: ds, args, input, s =>
    match scanLiteral c input with
    | none => some (0, s)
    | some rest => scan ds args rest s
  | .int width :: ds, .int assign :: args, input, s =>
    match scanInt width input with
    | none => some (0, s)
    | some (i, rest) => (scan ds args rest (assign i s)).map fun (n, s) => (n + 1, s)
  | .real :: ds, .real assign :: args, input, s =>
    match scanReal input with
    | none => some (0, s)
    | some (x, rest) => (scan ds args rest (assign x s)).map fun (n, s) => (n + 1, s)
  | .word :: ds, .word size assign :: args, input, s =>
    match scanWord input with
    | none => some (0, s)
    | some (word, rest) =>
      if word.length < size then
        (scan ds args rest (assign word s)).map fun (n, s) => (n + 1, s)
      else none
  | _, _, _, _ => none

def sscanf (input : List Char) (format : String) (args : List (Argument σ)) (s : σ) :
    Option (ℕ × σ) :=
  scan (directives format.toList) args input s

variable {c : Char} {digits rest sign : List Char} {width : ℕ}

theorem isDigit_range (h : c.isDigit = true) : 48 ≤ c.toNat ∧ c.toNat ≤ 57 := by
  unfold Char.isDigit at h
  rw [Bool.and_eq_true, decide_eq_true_eq, decide_eq_true_eq] at h
  exact ⟨UInt32.le_iff_toNat_le.mp h.1, UInt32.le_iff_toNat_le.mp h.2⟩

theorem isSpace_of_isDigit (h : c.isDigit = true) : isSpace c = false := by
  obtain ⟨hlow, hhigh⟩ := isDigit_range h
  have hne : c ≠ ' ' := by
    rintro rfl
    exact absurd hlow (by decide)
  have hrange : ¬ c ≤ '\x0d' := by
    intro hle
    have hle' : c.toNat ≤ 13 := hle
    omega
  simp [isSpace, hne, hrange]

theorem isSign_of_isDigit (h : c.isDigit = true) : isSign c = false := by
  have hlow := (isDigit_range h).1
  have hplus : c ≠ '+' := by
    rintro rfl
    exact absurd hlow (by decide)
  have hminus : c ≠ '-' := by
    rintro rfl
    exact absurd hlow (by decide)
  simp [isSign, hplus, hminus]

theorem isSpace_of_isSign (h : isSign c = true) : isSpace c = false := by
  unfold isSign at h
  rw [Bool.or_eq_true, beq_iff_eq, beq_iff_eq] at h
  rcases h with rfl | rfl <;> decide

theorem skipSpace_of_false (h : isSpace c = false) : skipSpace (c :: rest) = c :: rest := by
  unfold skipSpace
  rw [dropWhile_cons_of_neg (by simp [h])]

theorem scanInt_digits (hne : digits ≠ []) (h : ∀ c ∈ digits, c.isDigit = true)
    (hwidth : digits.length = width) :
    scanInt width (digits ++ rest) = some ((valueOf 10 digits : ℤ), rest) := by
  cases digits with
  | nil => exact absurd rfl hne
  | cons d ds =>
    have hd := h d mem_cons_self
    unfold scanInt
    rw [cons_append, skipSpace_of_false (isSpace_of_isDigit hd), splitSign,
      if_neg (by simp [isSign_of_isDigit hd])]
    have htake : ((d :: (ds ++ rest)).take (width - ([] : List Char).length)).takeWhile
        Char.isDigit = d :: ds := by
      rw [← cons_append, length_nil, Nat.sub_zero, ← hwidth, take_left, takeWhile_eq_self_iff.mpr h]
    simp only [htake, reduceCtorEq, if_false]
    rw [← cons_append, drop_left]
    rfl

theorem scanInt_signed (hsign : isSign c = true) {d : Char} (hd : d.isDigit = true) :
    scanInt 2 (c :: d :: rest) = some (signedBy [c] (digitValue d : ℤ), rest) := by
  unfold scanInt
  rw [skipSpace_of_false (isSpace_of_isSign hsign), splitSign, if_pos hsign]
  simp [hd, valueOf]

theorem scanInt_nil : scanInt width [] = none := by
  simp [scanInt, skipSpace, splitSign]

theorem scanInt_other (hspace : isSpace c = false) (hsign : isSign c = false)
    (hdigit : c.isDigit = false) : scanInt width (c :: rest) = none := by
  unfold scanInt
  rw [skipSpace_of_false hspace, splitSign, if_neg (by simp [hsign])]
  have hnone : ((c :: rest).take (width - ([] : List Char).length)).takeWhile Char.isDigit =
    [] := by
    cases width - ([] : List Char).length with
    | zero => rfl
    | succ n => rw [take_succ_cons, takeWhile_cons_of_neg (by simp [hdigit])]
  simp only [hnone, if_true]

theorem toLower_digit (h : c.isDigit = true) : c.toLower = c := by
  have hrange := isDigit_range h
  unfold Char.toLower
  split
  · rename_i hupper
    have hge : 65 ≤ c.toNat := hupper.1
    omega
  · rfl

theorem ne_of_isDigit {d : Char} (h : c.isDigit = true) (hd : d.isDigit = false) : c ≠ d := by
  rintro rfl
  rw [h] at hd
  cases hd

theorem begin_digit (h : c.isDigit = true) :
    Phase.begin c = some .zero ∨ Phase.begin c = some (.whole false) := by
  unfold Phase.begin
  split
  · exact .inl rfl
  · exact .inr rfl

/-- What ends a number after its digits. -/
def EndsNumber (rest : List Char) : Prop :=
  ∀ c ∈ rest.head?, c.isDigit = false ∧ c ≠ '.' ∧ c.toLower ≠ 'e' ∧ c.toLower ≠ 'x'

theorem item_stop {phase : Phase} (h : ∀ c ∈ rest.head?, phase.step c = none) :
    item phase rest = (phase, [], rest) := by
  cases rest with
  | nil => rfl
  | cons c rest => rw [item, h c rfl]

theorem afterWhole_end (h : EndsNumber rest) :
    ∀ c ∈ rest.head?, Phase.afterWhole false c = none := by
  intro c hc
  obtain ⟨hdigit, hpoint, hmarker, -⟩ := h c hc
  simp [Phase.afterWhole, isDigitOf, isMarker, hdigit, hpoint, hmarker]

theorem item_whole (hdigits : ∀ c ∈ digits, c.isDigit = true) (h : EndsNumber rest) :
    item (.whole false) (digits ++ rest) = (.whole false, digits, rest) := by
  induction digits with
  | nil => exact item_stop (afterWhole_end h)
  | cons d ds ih =>
    obtain ⟨hd, hds⟩ := forall_mem_cons.mp hdigits
    have hstep : Phase.step (.whole false) d = some (.whole false) := by
      change Phase.afterWhole false d = _
      rw [Phase.afterWhole, isDigitOf, hd]
      rfl
    rw [cons_append, item, hstep]
    simp only [ih hds]

theorem item_zero (hdigits : ∀ c ∈ digits, c.isDigit = true) (h : EndsNumber rest) :
    ∃ last, item .zero (digits ++ rest) = (last, digits, rest) ∧ last.complete = true := by
  cases digits with
  | nil =>
    refine ⟨.zero, item_stop fun c hc => ?_, rfl⟩
    change (if c.toLower = 'x' then some Phase.marked else Phase.afterWhole false c) = none
    rw [if_neg (h c hc).2.2.2, afterWhole_end h c hc]
  | cons d ds =>
    obtain ⟨hd, hds⟩ := forall_mem_cons.mp hdigits
    have hstep : Phase.step .zero d = some (.whole false) := by
      have hx : d.toLower ≠ 'x' := by
        rw [toLower_digit hd]
        exact ne_of_isDigit hd (by decide)
      change (if d.toLower = 'x' then some Phase.marked else Phase.afterWhole false d) = _
      rw [if_neg hx, Phase.afterWhole, isDigitOf, hd]
      rfl
    refine ⟨.whole false, ?_, rfl⟩
    rw [cons_append, item, hstep]
    simp only [item_whole hds h]

theorem item_digits (hne : digits ≠ []) (hdigits : ∀ c ∈ digits, c.isDigit = true)
    (h : EndsNumber rest) : ∃ last, last.complete = true ∧
      (item .start (digits ++ rest) = (last, digits, rest)) ∧
      item .signed (digits ++ rest) = (last, digits, rest) := by
  cases digits with
  | nil => exact absurd rfl hne
  | cons d ds =>
    obtain ⟨hd, hds⟩ := forall_mem_cons.mp hdigits
    have hstart : Phase.step .start d = Phase.begin d := if_neg (by simp [isSign_of_isDigit hd])
    have hsigned : Phase.step .signed d = Phase.begin d := rfl
    rcases begin_digit hd with hbegin | hbegin
    · obtain ⟨last, hitem, hcomplete⟩ := item_zero hds h
      refine ⟨last, hcomplete, ?_, ?_⟩
      · rw [cons_append, item, hstart, hbegin]
        simp only [hitem]
      · rw [cons_append, item, hsigned, hbegin]
        simp only [hitem]
    · refine ⟨.whole false, rfl, ?_, ?_⟩
      · rw [cons_append, item, hstart, hbegin]
        simp only [item_whole hds h]
      · rw [cons_append, item, hsigned, hbegin]
        simp only [item_whole hds h]

theorem valueOf_append (base : ℕ) (digits more : List Char) :
    valueOf base (digits ++ more) =
      valueOf base digits * base ^ more.length + valueOf base more := by
  induction more using List.reverseRecOn with
  | nil => simp [valueOf]
  | append_singleton more c ih =>
    have hlast : ∀ ds, valueOf base (ds ++ [c]) = base * valueOf base ds + digitValue c :=
      fun ds => foldl_append
    rw [← append_assoc, hlast, ih, hlast, length_append, length_singleton, pow_succ]
    ring

theorem numberOf_digits (h : ∀ c ∈ digits, c.isDigit = true) :
    numberOf false digits = (valueOf 10 digits : ℤ) := by
  have hall : ∀ c ∈ digits, isDigitOf false c = true := fun c hc => by
    rw [isDigitOf, h c hc]
    rfl
  have htake : digits.takeWhile (isDigitOf false) = digits := takeWhile_eq_self_iff.mpr hall
  have hdrop : digits.dropWhile (isDigitOf false) = [] := dropWhile_eq_nil_iff.mpr hall
  have hvalue : valueOf 10 [] = 0 := rfl
  unfold numberOf
  simp [htake, hdrop, splitSign, signedBy, hvalue]

theorem signedBy_intCast (sign : List Char) (n : ℤ) :
    signedBy sign (n : ℚ) = ((signedBy sign n : ℤ) : ℚ) := by
  unfold signedBy
  split
  · exact (Int.cast_neg n).symm
  · rfl

theorem abs_signedBy (sign : List Char) (n : ℤ) : |signedBy sign n| = |n| := by
  unfold signedBy
  split
  · exact abs_neg n
  · rfl

theorem finite_intCast {n : ℤ} (hn : |n| < 2 ^ 53) : realOf.finite n = .finite n := by
  unfold realOf.finite
  have hnearest : nearest binary64 n = n := NearestFloat.nearest_intCast (by decide) hn
  have hsmall : ¬ (2 : ℚ) ^ 1024 ≤ |(n : ℚ)| := by
    rw [not_le]
    calc |(n : ℚ)| < 2 ^ 53 := by exact_mod_cast hn
      _ ≤ 2 ^ 1024 := pow_le_pow_right₀ (by norm_num) (by norm_num)
  simp only [hnearest, if_neg hsmall]

theorem splitSign_append (hsign : sign = [] ∨ ∃ c, isSign c = true ∧ sign = [c])
    (hne : digits ≠ []) (hdigits : ∀ c ∈ digits, c.isDigit = true) :
    splitSign (sign ++ digits) = (sign, digits) := by
  rcases hsign with rfl | ⟨c, hc, rfl⟩
  · cases digits with
    | nil => exact absurd rfl hne
    | cons d ds => exact if_neg (by simp [isSign_of_isDigit (hdigits d mem_cons_self)])
  · exact if_pos hc

theorem realOf_digits (hsign : sign = [] ∨ ∃ c, isSign c = true ∧ sign = [c]) (hne : digits ≠ [])
    (hdigits : ∀ c ∈ digits, c.isDigit = true) (hsmall : valueOf 10 digits < 2 ^ 53) :
    realOf (sign ++ digits) = .finite (signedBy sign (valueOf 10 digits : ℤ) : ℤ) := by
  have hlower : digits.map Char.toLower = digits :=
    (map_congr_left fun c hc => toLower_digit (hdigits c hc)).trans (map_id digits)
  unfold realOf
  simp only [splitSign_append hsign hne hdigits, hlower]
  split
  · exact absurd rfl (ne_of_isDigit (hdigits _ mem_cons_self) (by decide))
  · exact absurd rfl (ne_of_isDigit (hdigits _ mem_cons_self) (by decide))
  · have hx := hdigits 'x' (mem_cons_of_mem _ mem_cons_self)
    exact absurd hx (by decide)
  rw [numberOf_digits hdigits, signedBy_intCast]
  refine finite_intCast ?_
  rw [abs_signedBy, Nat.abs_cast]
  exact_mod_cast hsmall

theorem scanReal_digits (hsign : sign = [] ∨ ∃ c, isSign c = true ∧ sign = [c]) (hne : digits ≠ [])
    (hdigits : ∀ c ∈ digits, c.isDigit = true) (hsmall : valueOf 10 digits < 2 ^ 53)
    (hend : EndsNumber rest) : scanReal (sign ++ digits ++ rest) =
      some (.finite (signedBy sign (valueOf 10 digits : ℤ) : ℤ), rest) := by
  obtain ⟨last, hcomplete, hstart, hsigned⟩ := item_digits hne hdigits hend
  have hitem : item .start (sign ++ digits ++ rest) = (last, sign ++ digits, rest) := by
    rcases hsign with rfl | ⟨c, hc, rfl⟩
    · exact hstart
    have hstep : Phase.step .start c = some .signed := if_pos hc
    rw [singleton_append, cons_append, item, hstep]
    simp only [hsigned]
  have hspace : skipSpace (sign ++ digits ++ rest) = sign ++ digits ++ rest := by
    rcases hsign with rfl | ⟨c, hc, rfl⟩
    · cases digits with
      | nil => exact absurd rfl hne
      | cons d ds =>
        exact skipSpace_of_false (isSpace_of_isDigit (hdigits d mem_cons_self))
    · exact skipSpace_of_false (isSpace_of_isSign hc)
  unfold scanReal
  rw [hspace, hitem]
  simp only [hcomplete, if_true, realOf_digits hsign hne hdigits hsmall]

theorem scanWord_all {word : List Char} (hne : word ≠ []) (h : ∀ c ∈ word, isSpace c = false) :
    scanWord word = some (word, []) := by
  cases word with
  | nil => exact absurd rfl hne
  | cons c word =>
    have htake : (c :: word).takeWhile (!isSpace ·) = c :: word :=
      takeWhile_eq_self_iff.mpr fun d hd => by simp [h d hd]
    unfold scanWord
    rw [skipSpace_of_false (h c mem_cons_self)]
    simp only [htake, reduceCtorEq, if_false, drop_length]

end Scanf
