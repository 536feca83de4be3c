import OrionLd.KjTree

/-! The lookup of a service by the path of a URL: restServicePrepare and orionldServiceLookup.
Strings are the lists of their characters. A fault is a read of a checksum that was not computed, or
of memory outside the path or the text compared with. -/
namespace OrionldServiceLookup

open List
open KjTree (Text)

/-- A char is signed. -/
def charValue (c : Char) : ℤ := (BitVec.ofNat 8 c.toNat).toInt

def checksum (t : Text) : ℤ := (t.map charValue).sum

def orionLdServicePrefixLen : ℕ := 9
def maxCharsBeforeWildcard : ℕ := 34
def sizeofMatchForSecondWildcard : ℕ := 16

structure OrionLdRestService where
  url : Text
  wildcards : ℕ
  charsBeforeFirstWildcard : ℕ
  charsBeforeFirstWildcardSum : ℤ
  matchForSecondWildcard : Text
  matchForSecondWildcardLen : ℕ
  deriving DecidableEq, Repr

structure Scan where
  ix : ℕ
  wildcards : ℕ
  charsBeforeFirstWildcard : ℕ
  charsBeforeFirstWildcardSum : ℤ
  wildCardStart : Option ℕ
  wildCardEnd : Option ℕ
  deriving DecidableEq, Repr

def Scan.wildcard (s : Scan) : Scan :=
  { s with
    ix := s.ix + 1
    wildcards := s.wildcards + 1
    wildCardStart := if s.wildcards = 0 then some (s.ix + 1) else s.wildCardStart
    wildCardEnd := if s.wildcards = 1 then some s.ix else s.wildCardEnd }

def Scan.char (s : Scan) (c : Char) : Scan :=
  if s.wildcards = 0 then
    { s with
      ix := s.ix + 1
      charsBeforeFirstWildcard := s.charsBeforeFirstWildcard + 1
      charsBeforeFirstWildcardSum := s.charsBeforeFirstWildcardSum + charValue c }
  else { s with ix := s.ix + 1 }

def scanUrl : Text → Scan → Scan
  | [], s => s
  | c :: cs, s => scanUrl cs (if c = '*' then s.wildcard else s.char c)

/-- None when the process exits. -/
def restServicePrepare (url : Text) : Option OrionLdRestService :=
  let s := scanUrl (url.drop orionLdServicePrefixLen)
    ⟨orionLdServicePrefixLen, 0, 0, 0, none, none⟩
  let start := s.wildCardStart.getD 0
  let len := s.wildCardEnd.getD s.ix - start
  if s.wildcards = 0 then
    some ⟨url, 0, s.charsBeforeFirstWildcard, s.charsBeforeFirstWildcardSum, [], 0⟩
  else if len > sizeofMatchForSecondWildcard then none
  else some ⟨url, s.wildcards, s.charsBeforeFirstWildcard, s.charsBeforeFirstWildcardSum,
    (url.drop start).take len, len⟩

inductive Fault where
  | checksumNotComputed
  | outsideUrlPath
  | unterminatedMatch
  deriving DecidableEq, Repr

def cSumsFrom (sum : ℤ) : Text → List ℤ
  | [] => []
  | c :: cs => (sum + charValue c) :: cSumsFrom (sum + charValue c) cs

def requestPrepare (url : Text) : List ℤ × ℕ :=
  let url := url.drop orionLdServicePrefixLen
  (cSumsFrom 0 (url.take maxCharsBeforeWildcard), url.length)

def cSumBefore (cSumV : List ℤ) (n : ℕ) : Except Fault ℤ :=
  match n with
  | 0 => .error .checksumNotComputed
  | ix + 1 =>
    match cSumV[ix]? with
    | some sum => .ok sum
    | none => .error .checksumNotComputed

def strncmp (a b : Text) (n : ℕ) : Bool := a.take n == b.take n

def strstr (needle : Text) : Text → Option ℕ
  | [] => if needle = [] then some 0 else none
  | c :: cs =>
    if needle.isPrefixOf (c :: cs) then some 0 else (strstr needle cs).map (· + 1)

/-- What a pointer to an offset of the path reads once a zero is written at another. -/
def stringAt (urlPath : Text) (nul start : ℕ) : Text :=
  if start ≤ nul then (urlPath.take nul).drop start else urlPath.drop start

variable (urlPath : Text) (cSumV : List ℤ) (sLen : ℕ)

def noWildcard (s : OrionLdRestService) : Except Fault (Option (List Text)) :=
  if s.charsBeforeFirstWildcard = sLen then do
    let sum ← cSumBefore cSumV sLen
    if s.charsBeforeFirstWildcardSum = sum ∧
        s.url.drop orionLdServicePrefixLen = urlPath.drop orionLdServicePrefixLen then
      .ok (some [])
    else .ok none
  else .ok none

/-- The ending is looked for at the end of the path, wherever the first text ends. -/
def endingMatch (s : OrionLdRestService) : Except Fault (Option (List Text)) :=
  let first := s.charsBeforeFirstWildcard + orionLdServicePrefixLen
  if s.matchForSecondWildcardLen ≠ 0 then
    let nul := sLen + orionLdServicePrefixLen - s.matchForSecondWildcardLen
    if sLen + orionLdServicePrefixLen < s.matchForSecondWildcardLen then
      .error .outsideUrlPath
    else if strncmp (urlPath.drop nul) s.matchForSecondWildcard s.matchForSecondWildcardLen then
      .ok (some [stringAt urlPath nul first])
    else .ok none
  else .ok (some [urlPath.drop first])

def oneWildcard (s : OrionLdRestService) : Except Fault (Option (List Text)) :=
  if s.charsBeforeFirstWildcard < sLen then do
    let sum ← cSumBefore cSumV s.charsBeforeFirstWildcard
    if s.charsBeforeFirstWildcardSum = sum then
      if strncmp (s.url.drop orionLdServicePrefixLen) (urlPath.drop orionLdServicePrefixLen)
          s.charsBeforeFirstWildcard then
        endingMatch urlPath sLen s
      else .ok none
    else .ok none
  else .ok none

/-- From the start of the path, and the text before the first wildcard is not compared. -/
def middleMatch (s : OrionLdRestService) : Except Fault (Option (List Text)) :=
  if s.matchForSecondWildcardLen = sizeofMatchForSecondWildcard then .error .unterminatedMatch
  else match strstr s.matchForSecondWildcard (urlPath.drop orionLdServicePrefixLen) with
    | some offset =>
      let matchP := orionLdServicePrefixLen + offset
      .ok (some [stringAt urlPath matchP (s.charsBeforeFirstWildcard + orionLdServicePrefixLen),
        stringAt urlPath matchP (matchP + s.matchForSecondWildcardLen)])
    | none => .ok none

def twoWildcards (s : OrionLdRestService) : Except Fault (Option (List Text)) :=
  if s.charsBeforeFirstWildcard < sLen then do
    let sum ← cSumBefore cSumV s.charsBeforeFirstWildcard
    if s.charsBeforeFirstWildcardSum = sum then middleMatch urlPath s else .ok none
  else .ok none

def serviceMatch (s : OrionLdRestService) : Except Fault (Option (List Text)) :=
  match s.wildcards with
  | 0 => noWildcard urlPath cSumV sLen s
  | 1 => oneWildcard urlPath cSumV sLen s
  | _ => twoWildcards urlPath cSumV sLen s

def lookupFrom : ℕ → List OrionLdRestService → Except Fault (Option (ℕ × List Text))
  | _, [] => .ok none
  | serviceIx, s :: services => do
    match ← serviceMatch urlPath cSumV sLen s with
    | some wildcard => .ok (some (serviceIx, wildcard))
    | none => lookupFrom (serviceIx + 1) services

def orionldServiceLookup (serviceV : List OrionLdRestService) (urlPath : Text) :
    Except Fault (Option (ℕ × List Text)) :=
  lookupFrom urlPath (requestPrepare urlPath).1 (requestPrepare urlPath).2 0 serviceV

theorem getElem_cSumsFrom (sum : ℤ) (t : Text) (ix : ℕ) (h : ix < t.length) :
    (cSumsFrom sum t)[ix]? = some (sum + checksum (t.take (ix + 1))) := by
  induction t generalizing sum ix with
  | nil => simp at h
  | cons c cs ih =>
    cases ix with
    | zero => simp [cSumsFrom, checksum]
    | succ ix =>
      rw [length_cons] at h
      rw [cSumsFrom, List.getElem?_cons_succ, ih _ _ (by omega), take_succ_cons]
      simp only [checksum, map_cons, sum_cons, add_assoc]

theorem cSumBefore_prepared (path : Text) (n : ℕ) (hpos : 0 < n) (hlen : n ≤ path.length)
    (hmax : n ≤ maxCharsBeforeWildcard) :
    cSumBefore (cSumsFrom 0 (path.take maxCharsBeforeWildcard)) n =
      .ok (checksum (path.take n)) := by
  obtain ⟨ix, rfl⟩ : ∃ ix, n = ix + 1 := ⟨n - 1, by omega⟩
  have hix : ix < (path.take maxCharsBeforeWildcard).length := by
    rw [length_take]
    omega
  have hmin : min (ix + 1) maxCharsBeforeWildcard = ix + 1 := by omega
  rw [cSumBefore, getElem_cSumsFrom _ _ _ hix, take_take, hmin, zero_add]

theorem strstr_eq_none_iff (needle hay : Text) :
    strstr needle hay = none ↔ ∀ k, ¬ needle <+: hay.drop k := by
  induction hay with
  | nil =>
    rw [strstr]
    by_cases h : needle = []
    · simp [h]
    · simp [h]
  | cons c cs ih =>
    rw [strstr]
    by_cases h : needle.isPrefixOf (c :: cs) = true
    · rw [if_pos h]
      constructor
      · intro hnone
        cases hnone
      · intro hall
        exact absurd (List.isPrefixOf_iff_prefix.mp h) (hall 0)
    · rw [if_neg h, Option.map_eq_none_iff, ih]
      constructor
      · intro hall k
        cases k with
        | zero => exact fun hp => h (List.isPrefixOf_iff_prefix.mpr hp)
        | succ k => exact hall k
      · intro hall k
        exact hall (k + 1)

theorem strstr_eq_some_iff (needle hay : Text) (k : ℕ) :
    strstr needle hay = some k ↔ needle <+: hay.drop k ∧ ∀ j < k, ¬ needle <+: hay.drop j := by
  induction hay generalizing k with
  | nil =>
    rw [strstr]
    by_cases h : needle = []
    · subst h
      constructor
      · intro hk
        cases hk
        simp
      · rintro ⟨-, hfirst⟩
        cases k with
        | zero => rfl
        | succ k => exact absurd nil_prefix (hfirst 0 (by omega))
    · simp [h]
  | cons c cs ih =>
    rw [strstr]
    split
    · next h =>
      constructor
      · intro hk
        cases hk
        exact ⟨List.isPrefixOf_iff_prefix.mp h, fun j hj => absurd hj (by omega)⟩
      · rintro ⟨-, hfirst⟩
        cases k with
        | zero => rfl
        | succ k => exact absurd (List.isPrefixOf_iff_prefix.mp h) (hfirst 0 (by omega))
    · next h =>
      have hzero : ¬ needle <+: c :: cs := fun hp => h (List.isPrefixOf_iff_prefix.mpr hp)
      cases k with
      | zero =>
        constructor
        · intro hk
          obtain ⟨j, -, hj⟩ := Option.map_eq_some_iff.mp hk
          omega
        · rintro ⟨hp, -⟩
          exact absurd hp hzero
      | succ k =>
        have hsucc : (strstr needle cs).map (· + 1) = some (k + 1) ↔ strstr needle cs = some k := by
          simp
        rw [hsucc, ih]
        constructor
        · rintro ⟨hp, hfirst⟩
          refine ⟨hp, fun j hj => ?_⟩
          cases j with
          | zero => exact hzero
          | succ j => exact hfirst j (by omega)
        · rintro ⟨hp, hfirst⟩
          exact ⟨hp, fun j hj => hfirst (j + 1) (by omega)⟩

end OrionldServiceLookup
