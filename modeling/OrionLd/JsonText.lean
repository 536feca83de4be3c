import Mathlib.Data.List.TakeWhile
import Mathlib.Tactic.IntervalCases

/-! JSON values and the texts of RFC 8259 that are read as them. A text that is written without
any escapes is read as the value again exactly if no string of the value needs one. -/
namespace JsonText

open List Option

inductive Json where
  | null
  | bool (b : Bool)
  | number (x : ℚ)
  | string (s : List Char)
  | array (items : List Json)
  | object (members : List (List Char × Json))

def isSpace (c : Char) : Bool := c = ' ' || c = '\t' || c = '\n' || c = '\r'

def skipSpace (text : List Char) : List Char := text.dropWhile isSpace

def hexValue (c : Char) : Option ℕ :=
  if c.isDigit then some (c.toNat - '0'.toNat)
  else if 'a' ≤ c ∧ c ≤ 'f' then some (c.toNat - 'a'.toNat + 10)
  else if 'A' ≤ c ∧ c ≤ 'F' then some (c.toNat - 'A'.toNat + 10)
  else none

/-- Between two characters, behind a backslash, in the digits of a code unit, or behind a high
surrogate, which needs a low one next. -/
inductive Pending where
  | plain
  | escape (high : Option ℕ)
  | digits (high : Option ℕ) (left value : ℕ)
  | surrogate (high : ℕ)
  deriving DecidableEq

def shortEscape : Char → Option Char
  | '"' => some '"'
  | '\\' => some '\\'
  | '/' => some '/'
  | 'b' => some '\x08'
  | 'f' => some '\x0c'
  | 'n' => some '\n'
  | 'r' => some '\r'
  | 't' => some '\t'
  | _ => none

/-- What a whole code unit stands for. -/
def codeUnit (unit : ℕ) : Option ℕ → Option (Option Char × Pending)
  | none =>
    if 0xd800 ≤ unit ∧ unit < 0xdc00 then some (none, .surrogate unit)
    else if 0xdc00 ≤ unit ∧ unit < 0xe000 then none
    else some (some (Char.ofNat unit), .plain)
  | some high =>
    if 0xdc00 ≤ unit ∧ unit < 0xe000 then
      some (some (Char.ofNat (0x10000 + (high - 0xd800) * 0x400 + (unit - 0xdc00))), .plain)
    else none

/-- The character that is complete with the next one of the text, where one is. -/
def Pending.step (c : Char) : Pending → Option (Option Char × Pending)
  | .plain =>
    if c = '\\' then some (none, .escape none)
    else if c.toNat < 32 then none
    else some (some c, .plain)
  | .escape high =>
    if c = 'u' then some (none, .digits high 3 0)
    else if high.isSome then none
    else (shortEscape c).map fun d => (some d, .plain)
  | .digits high left value =>
    match hexValue c, left with
    | none, _ => none
    | some digit, 0 => codeUnit (16 * value + digit) high
    | some digit, left + 1 => some (none, .digits high left (16 * value + digit))
  | .surrogate high => if c = '\\' then some (none, .escape (some high)) else none

def readChars : Pending → List Char → Option (List Char × List Char)
  | _, [] => none
  | pending, c :: text =>
    if pending = .plain ∧ c = '"' then some ([], text)
    else match pending.step c with
    | none => none
    | some (none, next) => readChars next text
    | some (some d, next) => (readChars next text).map (Prod.map (d :: ·) id)

def readDigits (text : List Char) : Option (List Char × List Char) :=
  let digits := text.takeWhile Char.isDigit
  if digits = [] then none else some (digits, text.dropWhile Char.isDigit)

/-- A zero stands alone in front of the fraction. -/
def readWhole : List Char → Option (ℕ × List Char)
  | '0' :: text => some (0, text)
  | text => (readDigits text).map (Prod.map (Nat.ofDigitChars 10 · 0) id)

def readFraction : List Char → Option (ℚ × List Char)
  | '.' :: text => (readDigits text).map fun (digits, rest) =>
    ((Nat.ofDigitChars 10 digits 0 : ℚ) / 10 ^ digits.length, rest)
  | text => some (0, text)

def readExponent : List Char → Option (ℤ × List Char)
  | [] => some (0, [])
  | c :: text =>
    if c = 'e' ∨ c = 'E' then
      let (sign, text) := match text with
        | '-' :: text => (-1, text)
        | '+' :: text => (1, text)
        | text => ((1 : ℤ), text)
      (readDigits text).map fun (digits, rest) => (sign * Nat.ofDigitChars 10 digits 0, rest)
    else some (0, c :: text)

def readUnsigned (text : List Char) : Option (ℚ × List Char) :=
  (readWhole text).bind fun (whole, text) =>
    (readFraction text).bind fun (fraction, text) =>
      (readExponent text).map fun (exponent, rest) => ((whole + fraction) * 10 ^ exponent, rest)

def readNumber : List Char → Option (ℚ × List Char)
  | '-' :: text => (readUnsigned text).map (Prod.map Neg.neg id)
  | text => readUnsigned text

def readWord (text : List Char) : Option (Json × List Char) :=
  [("null", Json.null), ("true", .bool true), ("false", .bool false)].findSome? fun (word, v) =>
    if word.toList.isPrefixOf text then some (v, text.drop word.length) else none

variable {α : Type}

def readElements (close : Char) (read : List Char → Option (List α × List Char))
    (text : List Char) : Option (List α × List Char) :=
  match skipSpace text with
  | [] => none
  | c :: rest => if c = close then some ([], rest) else read text

def readOthers (close : Char) (read : List Char → Option (List α × List Char)) (element : α)
    (text : List Char) : Option (List α × List Char) :=
  match skipSpace text with
  | [] => none
  | c :: rest =>
    if c = close then some ([element], rest)
    else if c = ',' then (read rest).map (Prod.map (element :: ·) id)
    else none

def readQuoted (text : List Char) : Option (List Char × List Char) :=
  match skipSpace text with
  | '"' :: text => readChars .plain text
  | _ => none

def readColon (text : List Char) : Option (List Char) :=
  match skipSpace text with
  | ':' :: rest => some rest
  | _ => none

def readMember (read : List Char → Option (α × List Char)) (text : List Char) :
    Option ((List Char × α) × List Char) :=
  (readQuoted text).bind fun r =>
    (readColon r.2).bind fun rest => (read rest).map (Prod.map (Prod.mk r.1) id)

mutual
/-- With what follows it. A value takes at least one character, so that the length is a bound. -/
def readValue : ℕ → List Char → Option (Json × List Char)
  | 0, _ => none
  | n + 1, text =>
    match skipSpace text with
    | [] => none
    | c :: rest =>
      if c = '"' then (readChars .plain rest).map (Prod.map .string id)
      else if c = '[' then (readElements ']' (readItems n) rest).map (Prod.map .array id)
      else if c = '{' then (readElements '}' (readMembers n) rest).map (Prod.map .object id)
      else if c = '-' ∨ c.isDigit then (readNumber (c :: rest)).map (Prod.map .number id)
      else readWord (c :: rest)
def readItems : ℕ → List Char → Option (List Json × List Char)
  | 0, _ => none
  | n + 1, text =>
    (readValue n text).bind fun r => readOthers ']' (readItems n) r.1 r.2
def readMembers : ℕ → List Char → Option (List (List Char × Json) × List Char)
  | 0, _ => none
  | n + 1, text =>
    (readMember (readValue n) text).bind fun r => readOthers '}' (readMembers n) r.1 r.2
end

def parse (text : List Char) : Option Json :=
  (readValue text.length text).bind fun (v, rest) =>
    if skipSpace rest = [] then some v else none

def quoted (s : List Char) : List Char := '"' :: (s ++ ['"'])

def integerText (i : ℤ) : List Char :=
  if i < 0 then '-' :: Nat.toDigits 10 i.natAbs else Nat.toDigits 10 i.natAbs

mutual
/-- The text of a value without any spaces and escapes. Numbers are integers here. -/
def plainText : Json → List Char
  | .null => "null".toList
  | .bool b => if b then "true".toList else "false".toList
  | .number x => integerText x.num
  | .string s => quoted s
  | .array items => '[' :: (itemsText items ++ [']'])
  | .object members => '{' :: (membersText members ++ ['}'])
def itemsText : List Json → List Char
  | [] => []
  | [item] => plainText item
  | item :: items => plainText item ++ ',' :: itemsText items
def membersText : List (List Char × Json) → List Char
  | [] => []
  | [(name, value)] => quoted name ++ ':' :: plainText value
  | (name, value) :: members => quoted name ++ ':' ::
      (plainText value ++ ',' :: membersText members)
end

def CleanChars (s : List Char) : Prop := ∀ c ∈ s, c ≠ '"' ∧ c ≠ '\\' ∧ 32 ≤ c.toNat

mutual
/-- No string and no name in the value has a character that needs an escape. -/
def Clean : Json → Prop
  | .null => True
  | .bool _ => True
  | .number x => x.den = 1
  | .string s => CleanChars s
  | .array items => CleanItems items
  | .object members => CleanMembers members
def CleanItems : List Json → Prop
  | [] => True
  | item :: items => Clean item ∧ CleanItems items
def CleanMembers : List (List Char × Json) → Prop
  | [] => True
  | (name, value) :: members => CleanChars name ∧ Clean value ∧ CleanMembers members
end

variable {s y rest rest' : List Char} {p next : Pending} {c : Char} {e : Option Char}

theorem readChars_end (text : List Char) : readChars .plain ('"' :: text) = some ([], text) := by
  rw [readChars]
  exact if_pos ⟨rfl, rfl⟩

theorem readChars_step (h : ¬ (p = .plain ∧ c = '"')) (hstep : p.step c = some (e, next))
    (text : List Char) : readChars p (c :: text) =
      (readChars next text).map (Prod.map (e.toList ++ ·) id) := by
  rw [readChars, if_neg h, hstep]
  cases e with
  | none =>
    exact (map_id' (x := readChars next text)).symm
  | some d => rfl

theorem readChars_stuck (h : ¬ (p = .plain ∧ c = '"')) (hstep : p.step c = none)
    (text : List Char) : readChars p (c :: text) = none := by
  rw [readChars, if_neg h, hstep]

theorem step_clean (h : c ≠ '"' ∧ c ≠ '\\' ∧ 32 ≤ c.toNat) :
    Pending.plain.step c = some (some c, .plain) := by
  unfold Pending.step
  rw [if_neg h.2.1, if_neg (by omega)]

theorem step_plain (hquote : c ≠ '"') (hstep : Pending.plain.step c = some (e, next)) :
    e = none ∧ next ≠ .plain ∨ e = some c ∧ next = .plain ∧ c ≠ '"' ∧ c ≠ '\\' ∧ 32 ≤ c.toNat := by
  rw [Pending.step] at hstep
  split at hstep
  · cases hstep
    exact .inl ⟨rfl, by decide⟩
  rename_i hbackslash
  split at hstep
  · cases hstep
  rename_i hcontrol
  cases hstep
  exact .inr ⟨rfl, rfl, hquote, hbackslash, by omega⟩

theorem step_quote (h : p ≠ .plain) (hstep : p.step '"' = some (e, next)) : e = some '"' := by
  cases p with
  | plain => exact absurd rfl h
  | escape high =>
    cases high with
    | none =>
      cases hstep
      rfl
    | some high => cases hstep
  | digits high left value => cases hstep
  | surrogate high => cases hstep

theorem readChars_clean (h : CleanChars s) (rest : List Char) :
    readChars .plain (s ++ '"' :: rest) = some (s, rest) := by
  induction s with
  | nil => exact readChars_end rest
  | cons c s ih =>
    obtain ⟨hc, hs⟩ := forall_mem_cons.mp h
    rw [cons_append, readChars_step (fun hend => hc.1 hend.2) (step_clean hc), ih hs]
    rfl

/-- With y the characters that are read but not given out: inside of an escape it is not empty, and
it never gets empty again. -/
theorem clean_of_readChars (hy : '"' ∉ y) (hp : p ≠ .plain → y ≠ [])
    (h : readChars p (s ++ '"' :: rest) = some (y ++ s, rest')) :
    y = [] ∧ CleanChars s ∧ rest' = rest := by
  induction s generalizing p y with
  | nil =>
    rw [nil_append, append_nil] at h
    by_cases hplain : p = .plain
    · rw [hplain, readChars_end] at h
      cases h
      exact ⟨rfl, forall_mem_nil _, rfl⟩
    have hnot : ¬ (p = .plain ∧ '"' = '"') := fun hend => hplain hend.1
    cases hstep : p.step '"' with
    | none =>
      rw [readChars_stuck hnot hstep] at h
      cases h
    | some given =>
      rw [readChars_step hnot hstep, step_quote hplain hstep, map_eq_some_iff] at h
      obtain ⟨r, -, hr⟩ := h
      refine absurd ?_ hy
      rw [← (Prod.mk.inj hr).1]
      exact mem_cons_self
  | cons c s ih =>
    rw [cons_append] at h
    by_cases hend : p = .plain ∧ c = '"'
    · rw [hend.1, hend.2, readChars_end] at h
      exact absurd (congrArg Prod.fst (some.inj h)).symm (by simp)
    cases hstep : p.step c with
    | none =>
      rw [readChars_stuck hend hstep] at h
      cases h
    | some given =>
      obtain ⟨e, next⟩ := given
      have hquote : c ≠ '"' := by
        rintro rfl
        have hplain : p ≠ .plain := fun hplain => hend ⟨hplain, rfl⟩
        rw [readChars_step hend hstep, step_quote hplain hstep, map_eq_some_iff] at h
        obtain ⟨r, -, hr⟩ := h
        cases y with
        | nil => exact hp hplain rfl
        | cons d y =>
          obtain ⟨rfl, -⟩ := cons.inj (Prod.mk.inj hr).1
          exact hy mem_cons_self
      rw [readChars_step hend hstep, map_eq_some_iff] at h
      obtain ⟨⟨given, left⟩, hread, hr⟩ := h
      obtain ⟨hgiven, rfl⟩ := Prod.mk.inj hr
      have hlater : ∀ z, (∀ d ∈ z, d ∈ y) → given ≠ z ++ c :: s := by
        rintro z hz rfl
        have hnot : '"' ∉ z ++ [c] := by
          intro hmem
          rcases mem_append.mp hmem with hmem | hmem
          · exact hy (hz _ hmem)
          · exact hquote (mem_singleton.mp hmem).symm
        rw [append_cons z] at hread
        have hempty := (ih hnot (fun _ => concat_ne_nil c z) hread).1
        exact concat_ne_nil c z hempty
      cases e with
      | none => exact absurd hgiven (hlater y fun d hd => hd)
      | some d =>
        cases y with
        | nil =>
          obtain ⟨-, hgiven⟩ := cons.inj hgiven
          have hplain : p = .plain := by
            by_contra hplain
            exact hp hplain rfl
          rw [hplain] at hstep
          rcases step_plain hquote hstep with ⟨hnone, -⟩ | ⟨-, hnext, hclean⟩
          · cases hnone
          have hread' : readChars next (s ++ '"' :: rest) = some ([] ++ s, left) :=
            hread.trans (congrArg some (Prod.ext hgiven rfl))
          obtain ⟨-, hs, hleft⟩ := ih not_mem_nil (fun hne => absurd hnext hne) hread'
          exact ⟨rfl, forall_mem_cons.mpr ⟨hclean, hs⟩, hleft⟩
        | cons d' y =>
          obtain ⟨-, hgiven⟩ := cons.inj hgiven
          exact absurd hgiven (hlater y fun _ => mem_cons_of_mem d')

theorem readChars_iff : readChars .plain (s ++ '"' :: rest) = some (s, rest') ↔
    CleanChars s ∧ rest' = rest := by
  constructor
  · intro h
    exact (clean_of_readChars not_mem_nil (fun hne => absurd rfl hne) h).2
  · rintro ⟨hs, rfl⟩
    exact readChars_clean hs rest'

variable {n : ℕ}

def Ends (rest : List Char) : Prop := ∀ c ∈ rest.head?, c = ',' ∨ c = ']' ∨ c = '}'

theorem ends_nil : Ends [] := by
  intro c hc
  cases hc

theorem ends_cons (h : c = ',' ∨ c = ']' ∨ c = '}') (rest : List Char) : Ends (c :: rest) := by
  intro d hd
  cases hd
  exact h

theorem not_isDigit_of_ends (h : Ends rest) : ∀ c ∈ rest.head?, c.isDigit = false := by
  intro c hc
  rcases h c hc with rfl | rfl | rfl
  · rfl
  · rfl
  · rfl

theorem isDigit_of_toDigits (h : c ∈ Nat.toDigits 10 n) : c.isDigit = true :=
  Nat.isDigit_of_mem_toDigits (by decide) (by decide) h

theorem readDigits_toDigits (n : ℕ) (h : Ends rest) :
    readDigits (Nat.toDigits 10 n ++ rest) = some (Nat.toDigits 10 n, rest) := by
  have hall : ∀ c ∈ Nat.toDigits 10 n, c.isDigit = true := fun _ => isDigit_of_toDigits
  have hrest : rest.takeWhile Char.isDigit = [] ∧ rest.dropWhile Char.isDigit = rest := by
    cases rest with
    | nil => exact ⟨rfl, rfl⟩
    | cons c rest =>
      have hc : ¬ c.isDigit = true := Bool.eq_false_iff.mp (not_isDigit_of_ends h c rfl)
      exact ⟨takeWhile_cons_of_neg hc, dropWhile_cons_of_neg hc⟩
  unfold readDigits
  rw [takeWhile_append_of_pos hall, dropWhile_append_of_pos hall, hrest.1, hrest.2,
    append_nil, if_neg Nat.toDigits_ne_nil]

theorem toDigits_cons (n : ℕ) :
    ∃ c digits, Nat.toDigits 10 n = c :: digits ∧ (0 < n → c ≠ '0') := by
  induction n using Nat.strongRecOn with
  | ind n ih =>
    by_cases hlt : n < 10
    · refine ⟨n.digitChar, [], Nat.toDigits_of_lt_base hlt, ?_⟩
      intro hpos
      interval_cases n <;> decide
    have hle : 10 ≤ n := Nat.le_of_not_lt hlt
    obtain ⟨c, digits, hdigits, hzero⟩ := ih (n / 10) (by omega)
    refine ⟨c, digits ++ [(n % 10).digitChar], ?_, fun _ => hzero (by omega)⟩
    rw [Nat.toDigits_of_base_le (by decide) hle, hdigits, cons_append]

theorem readWhole_of_ne (h : c ≠ '0') (text : List Char) : readWhole (c :: text) =
    (readDigits (c :: text)).map (Prod.map (Nat.ofDigitChars 10 · 0) id) := by
  unfold readWhole
  split
  · rename_i heq
    exact absurd (cons.inj heq).1 h
  · rfl

theorem readWhole_toDigits (n : ℕ) (h : Ends rest) :
    readWhole (Nat.toDigits 10 n ++ rest) = some (n, rest) := by
  rcases Nat.eq_zero_or_pos n with rfl | hpos
  · rw [Nat.toDigits_zero]
    rfl
  obtain ⟨c, digits, hdigits, hzero⟩ := toDigits_cons n
  have hread := readDigits_toDigits n h
  rw [hdigits, cons_append] at hread ⊢
  rw [readWhole_of_ne (hzero hpos), hread, map_some, ← hdigits, Prod.map_apply,
    Nat.ofDigitChars_ten_toDigits, id_eq]

theorem readFraction_of_ends (h : Ends rest) : readFraction rest = some (0, rest) := by
  unfold readFraction
  split
  · exact absurd (h '.' rfl) (by decide)
  · rfl

theorem readExponent_of_ends (h : Ends rest) : readExponent rest = some (0, rest) := by
  cases rest with
  | nil => rfl
  | cons c rest =>
    refine if_neg ?_
    rcases h c rfl with rfl | rfl | rfl
    · decide
    · decide
    · decide

theorem readUnsigned_toDigits (n : ℕ) (h : Ends rest) :
    readUnsigned (Nat.toDigits 10 n ++ rest) = some ((n : ℚ), rest) := by
  have hvalue : ((n : ℚ) + 0) * 10 ^ (0 : ℤ) = n := by rw [add_zero, zpow_zero, mul_one]
  simp only [readUnsigned, readWhole_toDigits n h, readFraction_of_ends h, readExponent_of_ends h,
    bind_some, map_some, hvalue]

theorem readNumber_of_ne (h : c ≠ '-') (text : List Char) :
    readNumber (c :: text) = readUnsigned (c :: text) := by
  unfold readNumber
  split
  · rename_i heq
    exact absurd (cons.inj heq).1 h
  · rfl

theorem readNumber_integerText (i : ℤ) (h : Ends rest) :
    readNumber (integerText i ++ rest) = some ((i : ℚ), rest) := by
  have hread := readUnsigned_toDigits i.natAbs h
  unfold integerText
  split
  · rename_i hneg
    have hvalue : -((i.natAbs : ℕ) : ℚ) = i := by
      rw [Nat.cast_natAbs, abs_of_neg hneg, Int.cast_neg, neg_neg]
    rw [cons_append, readNumber, hread, map_some, Prod.map_apply, hvalue, id_eq]
  · rename_i hnot
    have hvalue : ((i.natAbs : ℕ) : ℚ) = i := by
      rw [Nat.cast_natAbs, abs_of_nonneg (by omega)]
    obtain ⟨c, digits, hdigits, -⟩ := toDigits_cons i.natAbs
    have hc : c ≠ '-' := by
      rintro rfl
      have hmem : '-' ∈ Nat.toDigits 10 i.natAbs := by rw [hdigits]; exact mem_cons_self
      exact absurd (isDigit_of_toDigits hmem) (by decide)
    rw [hdigits, cons_append] at hread ⊢
    rw [readNumber_of_ne hc, hread, hvalue]

variable {close : Char} {read : List Char → Option (α × List Char)}
variable {readAll : List Char → Option (List α × List Char)} {x : Option (α × List Char)}
variable {a : α} {as : List α} {name text : List Char}

theorem skipSpace_cons (h : isSpace c = false) (rest : List Char) :
    skipSpace (c :: rest) = c :: rest :=
  dropWhile_cons_of_neg (Bool.eq_false_iff.mp h)

theorem map_fst_iff {β : Type} {f : α → β} (hf : Function.Injective f) :
    x.map (Prod.map f id) = some (f a, rest) ↔ x = some (a, rest) :=
  (map_injective (hf.prodMap Function.injective_id)).eq_iff (b := some (a, rest))

theorem readElements_nil (h : isSpace close = false) :
    readElements close readAll (close :: rest) = some ([], rest') ↔ rest' = rest := by
  unfold readElements
  rw [skipSpace_cons h]
  dsimp only
  rw [if_pos rfl, some_inj, Prod.mk_right_inj]
  exact eq_comm

theorem readElements_other (h : isSpace c = false) (hc : c ≠ close) (rest : List Char) :
    readElements close readAll (c :: rest) = readAll (c :: rest) := by
  unfold readElements
  rw [skipSpace_cons h]
  exact if_neg hc

theorem readOthers_close (h : isSpace close = false) :
    readOthers close readAll a (close :: rest) = some ([a], rest') ↔ rest' = rest := by
  unfold readOthers
  rw [skipSpace_cons h]
  dsimp only
  rw [if_pos rfl, some_inj, Prod.mk_right_inj]
  exact eq_comm

theorem readOthers_comma (hc : ',' ≠ close) :
    readOthers close readAll a (',' :: rest) = some (a :: as, rest') ↔
      readAll rest = some (as, rest') := by
  unfold readOthers
  rw [skipSpace_cons rfl]
  dsimp only
  rw [if_neg hc, if_pos rfl]
  exact map_fst_iff fun _ _ => tail_eq_of_cons_eq

theorem readOthers_first {b : α} (h : readOthers close readAll b text = some (a :: as, rest)) :
    b = a := by
  unfold readOthers at h
  split at h
  · cases h
  split at h
  · cases h
    rfl
  split at h
  · obtain ⟨r, -, hr⟩ := map_eq_some_iff.mp h
    exact (cons.inj (Prod.mk.inj hr).1).1
  · cases h

theorem elements_iff {P : Prop} (h : ∀ left, x = some (a, left) ↔ P ∧ left = text) :
    (x.bind fun r => readOthers close readAll r.1 r.2) = some (a :: as, rest) ↔
      P ∧ readOthers close readAll a text = some (a :: as, rest) := by
  rw [bind_eq_some_iff]
  constructor
  · rintro ⟨⟨b, left⟩, hx, hothers⟩
    obtain rfl := readOthers_first hothers
    obtain ⟨hp, rfl⟩ := (h left).mp hx
    exact ⟨hp, hothers⟩
  · rintro ⟨hp, hothers⟩
    exact ⟨(a, text), (h text).mpr ⟨hp, rfl⟩, hothers⟩

theorem readQuoted_iff : readQuoted (quoted name ++ text) = some (name, rest) ↔
    CleanChars name ∧ rest = text := by
  have hread : readQuoted (quoted name ++ text) = readChars .plain (name ++ '"' :: text) := by
    unfold quoted
    rw [cons_append, append_assoc]
    rfl
  rw [hread, readChars_iff]

theorem readMember_iff : readMember read (quoted name ++ ':' :: text) = some ((name, a), rest) ↔
    CleanChars name ∧ read text = some (a, rest) := by
  unfold readMember
  rw [bind_eq_some_iff]
  constructor
  · rintro ⟨⟨s, left⟩, hname, hvalue⟩
    obtain ⟨left', hcolon, hvalue⟩ := bind_eq_some_iff.mp hvalue
    obtain ⟨r, hr, heq⟩ := map_eq_some_iff.mp hvalue
    obtain ⟨hmember, rfl⟩ := Prod.mk.inj heq
    cases hmember
    obtain ⟨hclean, rfl⟩ := readQuoted_iff.mp hname
    cases hcolon
    exact ⟨hclean, hr⟩
  · rintro ⟨hclean, hvalue⟩
    refine ⟨(name, ':' :: text), readQuoted_iff.mpr ⟨hclean, rfl⟩, ?_⟩
    have hcolon : readColon (':' :: text) = some text := rfl
    rw [hcolon, bind_some, map_fst_iff (Prod.mk_right_injective name)]
    exact hvalue

mutual
def size : Json → ℕ
  | .array items => sizeItems items + 1
  | .object members => sizeMembers members + 1
  | _ => 1
def sizeItems : List Json → ℕ
  | [] => 0
  | item :: items => size item + sizeItems items + 1
def sizeMembers : List (List Char × Json) → ℕ
  | [] => 0
  | (_, value) :: members => size value + sizeMembers members + 1
end

theorem integerText_cons (i : ℤ) :
    ∃ c text, integerText i = c :: text ∧ (c = '-' ∨ c.isDigit = true) := by
  unfold integerText
  split
  · exact ⟨'-', _, rfl, .inl rfl⟩
  obtain ⟨c, digits, hdigits, -⟩ := toDigits_cons i.natAbs
  refine ⟨c, digits, hdigits, .inr (isDigit_of_toDigits (n := i.natAbs) ?_)⟩
  rw [hdigits]
  exact mem_cons_self

theorem not_of_numeric (h : c = '-' ∨ c.isDigit = true) :
    isSpace c = false ∧ c ≠ '"' ∧ c ≠ '[' ∧ c ≠ '{' ∧ c ≠ ']' := by
  rcases h with rfl | hdigit
  · decide
  have hne : ∀ d : Char, d.isDigit = false → c ≠ d := by
    rintro d hd rfl
    exact Bool.false_ne_true (hd.symm.trans hdigit)
  refine ⟨?_, hne _ rfl, hne _ rfl, hne _ rfl, hne _ rfl⟩
  simp [isSpace, hne ' ' rfl, hne '\t' rfl, hne '\n' rfl, hne '\r' rfl]

theorem plainText_cons (v : Json) :
    ∃ c text, plainText v = c :: text ∧ isSpace c = false ∧ c ≠ ']' := by
  cases v with
  | null => exact ⟨'n', _, rfl, rfl, by decide⟩
  | bool b =>
    cases b with
    | true => exact ⟨'t', _, rfl, rfl, by decide⟩
    | false => exact ⟨'f', _, rfl, rfl, by decide⟩
  | number x =>
    obtain ⟨c, text, htext, hc⟩ := integerText_cons x.num
    obtain ⟨hspace, -, -, -, hclose⟩ := not_of_numeric hc
    exact ⟨c, text, htext, hspace, hclose⟩
  | string s => exact ⟨'"', _, rfl, rfl, by decide⟩
  | array items => exact ⟨'[', _, rfl, rfl, by decide⟩
  | object members => exact ⟨'{', _, rfl, rfl, by decide⟩

theorem itemsText_cons (item next : Json) (items : List Json) :
    itemsText (item :: next :: items) = plainText item ++ ',' :: itemsText (next :: items) := by
  rw [itemsText]
  exact cons_ne_nil next items

theorem membersText_cons (name : List Char) (value : Json) (next : List Char × Json)
    (members : List (List Char × Json)) : membersText ((name, value) :: next :: members) =
      quoted name ++ ':' :: (plainText value ++ ',' :: membersText (next :: members)) := by
  rw [membersText]
  exact cons_ne_nil next members

theorem length_pos (v : Json) : 0 < (plainText v).length := by
  obtain ⟨c, text, htext, -⟩ := plainText_cons v
  rw [htext]
  exact Nat.succ_pos _

mutual
theorem size_le : ∀ v : Json, size v ≤ (plainText v).length
  | .null => length_pos .null
  | .bool b => length_pos (.bool b)
  | .number x => length_pos (.number x)
  | .string s => length_pos (.string s)
  | .array items => by
    have hitems := sizeItems_le items
    simp only [size, plainText, length_cons, length_append, length_nil]
    omega
  | .object members => by
    have hmembers := sizeMembers_le members
    simp only [size, plainText, length_cons, length_append, length_nil]
    omega
theorem sizeItems_le : ∀ items : List Json, sizeItems items ≤ (itemsText items).length + 1
  | [] => Nat.zero_le _
  | [item] => Nat.succ_le_succ (size_le item)
  | item :: next :: items => by
    have hitem := size_le item
    have hitems := sizeItems_le (next :: items)
    rw [sizeItems, itemsText_cons, length_append, length_cons]
    omega
theorem sizeMembers_le : ∀ members : List (List Char × Json),
    sizeMembers members ≤ (membersText members).length + 1
  | [] => Nat.zero_le _
  | [(name, value)] => by
    have hvalue := size_le value
    simp only [sizeMembers, membersText, length_append, length_cons]
    omega
  | (name, value) :: next :: members => by
    have hvalue := size_le value
    have hmembers := sizeMembers_le (next :: members)
    rw [sizeMembers, membersText_cons]
    simp only [length_append, length_cons]
    omega
end

theorem readValue_string (n : ℕ) (text : List Char) :
    readValue (n + 1) ('"' :: text) = (readChars .plain text).map (Prod.map .string id) := by
  rfl

theorem readValue_array (n : ℕ) (text : List Char) : readValue (n + 1) ('[' :: text) =
    (readElements ']' (readItems n) text).map (Prod.map .array id) := by
  rfl

theorem readValue_object (n : ℕ) (text : List Char) : readValue (n + 1) ('{' :: text) =
    (readElements '}' (readMembers n) text).map (Prod.map .object id) := by
  rfl

theorem readValue_number (n : ℕ) (i : ℤ) (h : Ends rest) :
    readValue (n + 1) (integerText i ++ rest) = some (.number i, rest) := by
  have hread := readNumber_integerText i h
  obtain ⟨c, text, htext, hc⟩ := integerText_cons i
  obtain ⟨hspace, hstring, harray, hobject, -⟩ := not_of_numeric hc
  rw [htext, cons_append] at hread ⊢
  rw [readValue, skipSpace_cons hspace]
  dsimp only
  rw [if_neg hstring, if_neg harray, if_neg hobject, if_pos hc, hread]
  rfl

theorem size_pos (v : Json) : 0 < size v := by
  cases v with
  | array items => exact Nat.succ_pos _
  | object members => exact Nat.succ_pos _
  | _ => exact Nat.one_pos

theorem bound_succ {v : Json} (h : size v ≤ n) : ∃ m, n = m + 1 :=
  Nat.exists_eq_add_one.mpr ((size_pos v).trans_le h)

theorem itemsText_head (item : Json) (items : List Json) : ∃ c text,
    itemsText (item :: items) = c :: text ∧ isSpace c = false ∧ c ≠ ']' := by
  obtain ⟨c, text, htext, hc⟩ := plainText_cons item
  cases items with
  | nil => exact ⟨c, text, htext, hc⟩
  | cons next items =>
    refine ⟨c, text ++ ',' :: itemsText (next :: items), ?_, hc⟩
    rw [itemsText_cons, htext, cons_append]

theorem membersText_head (member : List Char × Json) (members : List (List Char × Json)) :
    ∃ text, membersText (member :: members) = '"' :: text := by
  cases members with
  | nil => exact ⟨_, rfl⟩
  | cons next members =>
    exact ⟨_, rfl⟩

theorem read_iff {v : Json} (h : readValue n text = some (v, rest)) :
    readValue n text = some (v, rest') ↔ rest' = rest := by
  rw [h, some_inj, Prod.mk_right_inj]
  exact eq_comm

mutual
/-- The reader stops where the text ends exactly if the strings and the names are clean. -/
theorem readValue_plainText : ∀ (v : Json) {n : ℕ} {rest rest' : List Char}, size v ≤ n →
    Ends rest → (readValue n (plainText v ++ rest) = some (v, rest') ↔ Clean v ∧ rest' = rest)
  | .null, n, rest, rest', hn, _ => by
    obtain ⟨n, rfl⟩ := bound_succ hn
    rw [Clean, true_and]
    exact read_iff rfl
  | .bool true, n, rest, rest', hn, _ => by
    obtain ⟨n, rfl⟩ := bound_succ hn
    rw [Clean, true_and]
    exact read_iff rfl
  | .bool false, n, rest, rest', hn, _ => by
    obtain ⟨n, rfl⟩ := bound_succ hn
    rw [Clean, true_and]
    exact read_iff rfl
  | .number x, n, rest, rest', hn, hrest => by
    obtain ⟨n, rfl⟩ := bound_succ hn
    rw [plainText, readValue_number n x.num hrest, some_inj, Prod.mk_inj, Json.number.injEq,
      Clean, Rat.den_eq_one_iff, eq_comm (a := rest)]
  | .string s, n, rest, rest', hn, _ => by
    obtain ⟨n, rfl⟩ := bound_succ hn
    rw [plainText, quoted, cons_append, append_assoc, readValue_string,
      map_fst_iff fun _ _ => Json.string.inj]
    exact readChars_iff
  | .array items, n, rest, rest', hn, _ => by
    obtain ⟨n, rfl⟩ := bound_succ hn
    have hitems := @readItems_itemsText items n rest rest' (Nat.le_of_succ_le_succ hn)
    rw [plainText, cons_append, readValue_array, map_fst_iff fun _ _ => Json.array.inj, Clean,
      append_assoc]
    cases items with
    | nil =>
      rw [CleanItems, true_and]
      exact readElements_nil rfl
    | cons item items =>
      obtain ⟨c, text, htext, hspace, hclose⟩ := itemsText_head item items
      rw [htext, cons_append] at hitems ⊢
      rw [readElements_other hspace hclose]
      exact hitems (cons_ne_nil item items)
  | .object members, n, rest, rest', hn, _ => by
    obtain ⟨n, rfl⟩ := bound_succ hn
    have hmembers := @readMembers_membersText members n rest rest' (Nat.le_of_succ_le_succ hn)
    rw [plainText, cons_append, readValue_object, map_fst_iff fun _ _ => Json.object.inj,
      Clean, append_assoc]
    cases members with
    | nil =>
      rw [CleanMembers, true_and]
      exact readElements_nil rfl
    | cons member members =>
      obtain ⟨text, htext⟩ := membersText_head member members
      rw [htext, cons_append] at hmembers ⊢
      rw [readElements_other rfl (by decide)]
      exact hmembers (cons_ne_nil member members)
theorem readItems_itemsText : ∀ (items : List Json) {n : ℕ} {rest rest' : List Char},
    sizeItems items ≤ n → items ≠ [] →
    (readItems n (itemsText items ++ ']' :: rest) = some (items, rest') ↔
      CleanItems items ∧ rest' = rest)
  | [], _, _, _, _, hne => absurd rfl hne
  | _ :: _, 0, _, _, hn, _ => absurd hn (Nat.not_succ_le_zero _)
  | [item], n + 1, rest, rest', hn, _ => by
    rw [sizeItems] at hn
    have hitem := fun left => @readValue_plainText item n _ left (by omega)
      (ends_cons (.inr (.inl rfl)) rest)
    rw [readItems, itemsText, elements_iff hitem, readOthers_close rfl, CleanItems, CleanItems,
      and_true]
  | item :: next :: items, n + 1, rest, rest', hn, _ => by
    rw [sizeItems] at hn
    have hitem := fun left => @readValue_plainText item n _ left (by omega)
      (ends_cons (.inl rfl) (itemsText (next :: items) ++ ']' :: rest))
    have hitems := @readItems_itemsText (next :: items) n rest rest'
      (by omega) (cons_ne_nil next items)
    rw [readItems, itemsText_cons, append_assoc, cons_append, elements_iff hitem,
      readOthers_comma (by decide), hitems, CleanItems.eq_2 item, and_assoc]
theorem readMembers_membersText : ∀ (members : List (List Char × Json))
    {n : ℕ} {rest rest' : List Char}, sizeMembers members ≤ n → members ≠ [] →
    (readMembers n (membersText members ++ '}' :: rest) = some (members, rest') ↔
      CleanMembers members ∧ rest' = rest)
  | [], _, _, _, _, hne => absurd rfl hne
  | _ :: _, 0, _, _, hn, _ => absurd hn (Nat.not_succ_le_zero _)
  | [(name, value)], n + 1, rest, rest', hn, _ => by
    rw [sizeMembers] at hn
    have hvalue := fun left => @readValue_plainText value n _ left (by omega)
      (ends_cons (.inr (.inr rfl)) rest)
    have hmember := fun left => readMember_iff.trans
      ((and_congr_right fun _ : CleanChars name => hvalue left).trans and_assoc.symm)
    rw [readMembers, membersText, append_assoc, cons_append, elements_iff hmember,
      readOthers_close rfl, CleanMembers, CleanMembers, and_true]
  | (name, value) :: next :: members, n + 1, rest, rest', hn, _ => by
    rw [sizeMembers] at hn
    have hvalue := fun left => @readValue_plainText value n _ left (by omega)
      (ends_cons (.inl rfl) (membersText (next :: members) ++ '}' :: rest))
    have hmember := fun left => readMember_iff.trans
      ((and_congr_right fun _ : CleanChars name => hvalue left).trans and_assoc.symm)
    have hmembers := @readMembers_membersText (next :: members) n rest rest'
      (by omega) (cons_ne_nil next members)
    rw [readMembers, membersText_cons, append_assoc, cons_append, append_assoc,
      cons_append, elements_iff hmember, readOthers_comma (by decide), hmembers,
      CleanMembers.eq_2 name, and_assoc, and_assoc, and_assoc]
end

theorem parse_plainText (v : Json) : parse (plainText v) = some v ↔ Clean v := by
  have hread := fun rest => @readValue_plainText v _ _ rest (size_le v) ends_nil
  rw [append_nil] at hread
  unfold parse
  rw [bind_eq_some_iff]
  constructor
  · rintro ⟨⟨w, rest⟩, hw, hv⟩
    obtain ⟨-, heq⟩ := ite_none_right_eq_some.mp hv
    cases heq
    exact ((hread rest).mp hw).1
  · intro hclean
    exact ⟨(v, []), (hread []).mpr ⟨hclean, rfl⟩, rfl⟩

end JsonText
