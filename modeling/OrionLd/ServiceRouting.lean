import OrionLd.OrionldServiceLookup
import OrionLd.Fallible

/-! Requests are routed by their whole path, except for the paths listed here.
A pattern is the texts between its wildcards. A path belongs to a pattern when non-empty
strings in the place of the wildcards give it. The lookup is compared with the first pattern
that a path belongs to. -/
namespace ServiceRouting

open KjTree (Text)
open OrionldServiceLookup List Option

def servicePrefix : Text := "/ngsi-ld/".toList

structure Pattern where
  before : Text
  rest : List Text
  starless : ∀ t ∈ before :: rest, '*' ∉ t
  few : rest.length ≤ 2
  short : before.length ≤ maxCharsBeforeWildcard

def Pattern.text (p : Pattern) : Text :=
  servicePrefix ++ p.before ++ p.rest.flatMap ('*' :: ·)

def fill : List Text → List Text → Text
  | w :: ws, t :: ts => w ++ t ++ fill ws ts
  | _, _ => []

def Pattern.Matches (p : Pattern) (path : Text) (ws : List Text) : Prop :=
  ws.length = p.rest.length ∧ (∀ w ∈ ws, w ≠ []) ∧ path = p.before ++ fill ws p.rest

/-- The text between two wildcards does not occur earlier behind a non-empty first string. -/
def Pattern.FirstSplit (p : Pattern) (path : Text) (ws : List Text) : Prop :=
  ∀ m t w₁ w₂, p.rest = [m, t] → ws = [w₁, w₂] →
    ∀ j, 0 < j → j < w₁.length → ¬ m <+: path.drop (p.before.length + j)

def Pattern.Routed (p : Pattern) (path : Text) (ws : List Text) : Prop :=
  p.Matches path ws ∧ p.FirstSplit path ws

def IsRoute (patterns : List Pattern) (path : Text) : Option (ℕ × List Text) → Prop
  | some (i, ws) => (∃ p, patterns[i]? = some p ∧ p.Routed path ws) ∧
      ∀ j < i, ∀ p, patterns[j]? = some p → ¬ ∃ ws, p.Matches path ws
  | none => ∀ p ∈ patterns, ¬ ∃ ws, p.Matches path ws

/-- The path holds the first text and the ending, but not one after the other with something
between, or it is too short for the comparison. -/
def EndingOverlaps (before ending path : Text) : Prop :=
  before <+: path ∧ before.length < path.length ∧ ending ≠ [] ∧
    path.length ≤ before.length + ending.length ∧
    (ending <:+ servicePrefix ++ path ∨
      path.length + orionLdServicePrefixLen < ending.length)

/-- The first text, a string, the first occurrence of the middle text anywhere in the path, and
another string. -/
def SplitsAtFirst (before middle path : Text) : Prop :=
  ∃ w₁ w₂, w₁ ≠ [] ∧ w₂ ≠ [] ∧ path = before ++ w₁ ++ middle ++ w₂ ∧
    ∀ j < before.length + w₁.length, ¬ middle <+: path.drop j

/-- The checksum of the first text fits, and the middle text occurs in the path or fills its
buffer. -/
def ChecksumFits (before middle path : Text) : Prop :=
  before.length < path.length ∧ checksum before = checksum (path.take before.length) ∧
    (middle.length = sizeofMatchForSecondWildcard ∨ middle <:+: path)

def Pattern.Misroutes (p : Pattern) (path : Text) : Prop :=
  match p.rest with
  | [] => False
  | [ending] => p.before = [] ∨ EndingOverlaps p.before ending path
  | [middle, last] => p.before = [] ∨ (ChecksumFits p.before middle path ∧
      ¬ (middle.length ≠ sizeofMatchForSecondWildcard ∧ last = [] ∧
        SplitsAtFirst p.before middle path))
  | _ => False

theorem scanUrl_append (a b : Text) (s : Scan) : scanUrl (a ++ b) s = scanUrl b (scanUrl a s) := by
  induction a generalizing s with
  | nil => rfl
  | cons c cs ih => exact ih _

variable {t : Text}

theorem scanUrl_first (h : '*' ∉ t) (s : Scan) (hw : s.wildcards = 0) : scanUrl t s = { s with
      ix := s.ix + t.length
      charsBeforeFirstWildcard := s.charsBeforeFirstWildcard + t.length
      charsBeforeFirstWildcardSum := s.charsBeforeFirstWildcardSum + checksum t } := by
  induction t generalizing s with
  | nil => simp [scanUrl, checksum]
  | cons c cs ih =>
    have hc : c ≠ '*' := fun e => h (e ▸ mem_cons_self)
    have hcs : '*' ∉ cs := fun hm => h (mem_cons_of_mem c hm)
    rw [scanUrl, if_neg hc, Scan.char, if_pos hw, ih hcs]
    · simp only [checksum, map_cons, sum_cons, length_cons, Scan.mk.injEq, and_true, true_and]
      omega
    · exact hw

theorem scanUrl_later (h : '*' ∉ t) (s : Scan) (hw : s.wildcards ≠ 0) :
    scanUrl t s = { s with ix := s.ix + t.length } := by
  induction t generalizing s with
  | nil => simp [scanUrl]
  | cons c cs ih =>
    have hc : c ≠ '*' := fun e => h (e ▸ mem_cons_self)
    have hcs : '*' ∉ cs := fun hm => h (mem_cons_of_mem c hm)
    rw [scanUrl, if_neg hc, Scan.char, if_neg hw, ih hcs]
    · simp only [length_cons, Scan.mk.injEq, and_true]
      omega
    · exact hw

def Pattern.second (p : Pattern) : Text := p.rest.head?.getD []

def Pattern.service (p : Pattern) : OrionLdRestService where
  url := p.text
  wildcards := p.rest.length
  charsBeforeFirstWildcard := p.before.length
  charsBeforeFirstWildcardSum := checksum p.before
  matchForSecondWildcard := p.second
  matchForSecondWildcardLen := p.second.length

theorem length_servicePrefix : servicePrefix.length = orionLdServicePrefixLen := rfl

theorem drop_text (p : Pattern) :
    p.text.drop orionLdServicePrefixLen = p.before ++ p.rest.flatMap ('*' :: ·) := by
  rw [Pattern.text, append_assoc, ← length_servicePrefix, drop_left]

def Pattern.scan (p : Pattern) : Scan :=
  let first := orionLdServicePrefixLen + p.before.length
  match p.rest with
  | [] => ⟨first, 0, p.before.length, checksum p.before, none, none⟩
  | [m] => ⟨first + 1 + m.length, 1, p.before.length, checksum p.before, some (first + 1), none⟩
  | m :: t :: _ => ⟨first + 1 + m.length + 1 + t.length, 2, p.before.length, checksum p.before,
      some (first + 1), some (first + 1 + m.length)⟩

theorem scanUrl_text (p : Pattern) :
    scanUrl (p.text.drop orionLdServicePrefixLen)
      ⟨orionLdServicePrefixLen, 0, 0, 0, none, none⟩ = p.scan := by
  obtain ⟨before, rest, starless, few, short⟩ := p
  have hbefore : '*' ∉ before := starless before mem_cons_self
  rw [drop_text, scanUrl_append, scanUrl_first hbefore _ rfl]
  rcases rest with _ | ⟨m, _ | ⟨t, _ | ⟨u, us⟩⟩⟩
  · simp [Pattern.scan, scanUrl]
  · have hm : '*' ∉ m := starless m (by simp)
    simp [Pattern.scan, scanUrl, Scan.wildcard, scanUrl_later hm]
  · have hm : '*' ∉ m := starless m (by simp)
    have ht : '*' ∉ t := starless t (by simp)
    simp [Pattern.scan, scanUrl, Scan.wildcard, scanUrl_append, scanUrl_later hm, scanUrl_later ht]
  · simp at few

theorem second_text (p : Pattern) (h : p.rest ≠ []) :
    (p.text.drop (orionLdServicePrefixLen + p.before.length + 1)).take p.second.length =
      p.second := by
  rw [← drop_drop, ← drop_drop, drop_text, drop_left]
  obtain ⟨m, ms, hrest⟩ := exists_cons_of_ne_nil h
  rw [Pattern.second, hrest]
  simp

theorem restServicePrepare_text (p : Pattern) :
    restServicePrepare p.text =
      if p.second.length > sizeofMatchForSecondWildcard then none else some p.service := by
  rw [restServicePrepare, scanUrl_text]
  have hsecond := second_text p
  have hfew := p.few
  rcases hrest : p.rest with _ | ⟨m, _ | ⟨t, _ | ⟨u, us⟩⟩⟩
  · simp [Pattern.scan, Pattern.service, Pattern.second, hrest]
  · have hlen : p.second = m := by rw [Pattern.second, hrest]; rfl
    rw [hlen, hrest] at hsecond
    simp [Pattern.scan, Pattern.service, hrest, hlen, hsecond]
  · have hlen : p.second = m := by rw [Pattern.second, hrest]; rfl
    rw [hlen, hrest] at hsecond
    simp [Pattern.scan, Pattern.service, hrest, hlen, hsecond]
  · rw [hrest] at hfew
    simp at hfew

variable {p : Pattern} {path : Text}

def outcome (p : Pattern) (path : Text) : Except Fault (Option (List Text)) :=
  serviceMatch (servicePrefix ++ path) (cSumsFrom 0 (path.take maxCharsBeforeWildcard))
    path.length p.service

theorem drop_servicePrefix (path : Text) :
    (servicePrefix ++ path).drop orionLdServicePrefixLen = path := by
  rw [← length_servicePrefix, drop_left]

theorem drop_path (path : Text) (n : ℕ) :
    (servicePrefix ++ path).drop (n + orionLdServicePrefixLen) = path.drop n := by
  rw [Nat.add_comm, ← drop_drop, drop_servicePrefix]

theorem take_path (path : Text) (n : ℕ) :
    (servicePrefix ++ path).take (n + orionLdServicePrefixLen) = servicePrefix ++ path.take n := by
  rw [Nat.add_comm, ← length_servicePrefix, take_length_add_append]

theorem stringAt_path (path : Text) (nul start : ℕ) :
    stringAt (servicePrefix ++ path) (nul + orionLdServicePrefixLen)
        (start + orionLdServicePrefixLen) =
      if start ≤ nul then (path.take nul).drop start else path.drop start := by
  by_cases h : start ≤ nul
  · rw [stringAt, if_pos (by omega), take_path, drop_path, if_pos h]
  · rw [stringAt, if_neg (by omega), drop_path, if_neg h]

theorem drop_take_middle (a w e : Text) :
    ((a ++ w ++ e).take (a.length + w.length)).drop a.length = w := by
  rw [← length_append, take_left, drop_left]

theorem take_text (p : Pattern) :
    (p.text.drop orionLdServicePrefixLen).take p.before.length = p.before := by
  rw [drop_text, take_left]

theorem checksum_read (hb : p.before ≠ []) (hlen : p.before.length ≤ path.length) :
    cSumBefore (cSumsFrom 0 (path.take maxCharsBeforeWildcard)) p.before.length =
      .ok (checksum (path.take p.before.length)) :=
  cSumBefore_prepared path _ (length_pos_iff.mpr hb) hlen p.short

theorem outcome_zero (hrest : p.rest = []) (hpath : path ≠ []) :
    outcome p path = .ok (if p.before = path then some [] else none) := by
  have hurl : p.text.drop orionLdServicePrefixLen = p.before := by
    rw [drop_text, hrest]
    simp
  rw [outcome, serviceMatch]
  simp only [Pattern.service, hrest, length_nil, noWildcard, hurl, drop_servicePrefix]
  by_cases hlen : p.before.length = path.length
  · have hb : p.before ≠ [] := fun e => hpath (length_eq_zero_iff.mp (by rw [← hlen, e]; rfl))
    rw [if_pos hlen, ← hlen, checksum_read hb hlen.le, hlen, take_length]
    by_cases heq : p.before = path
    · simp [heq, Bind.bind, Except.bind]
    · simp [heq, Bind.bind, Except.bind]
  · have hne : p.before ≠ path := fun e => hlen (by rw [e])
    rw [if_neg hlen, if_neg hne]

theorem outcome_before_nil (hrest : p.rest ≠ []) (hb : p.before = []) (hpath : path ≠ []) :
    outcome p path = .error .checksumNotComputed := by
  have hfew := p.few
  have hpos : 0 < path.length := length_pos_iff.mpr hpath
  rcases hr : p.rest with _ | ⟨m, _ | ⟨t, _ | ⟨u, us⟩⟩⟩
  · exact absurd hr hrest
  · simp [outcome, serviceMatch, Pattern.service, hr, oneWildcard, hb, hpos, cSumBefore, Bind.bind,
      Except.bind]
  · simp [outcome, serviceMatch, Pattern.service, hr, twoWildcards, hb, hpos, cSumBefore,
      Bind.bind, Except.bind]
  · rw [hr] at hfew
    simp at hfew

theorem outcome_one {e : Text} (path : Text) (hrest : p.rest = [e]) (hb : p.before ≠ []) :
    outcome p path =
      if p.before.length < path.length ∧ p.before <+: path then
        endingMatch (servicePrefix ++ path) path.length p.service
      else .ok none := by
  rw [outcome, serviceMatch]
  have hw : p.service.wildcards = 1 := by rw [Pattern.service, hrest]; rfl
  rw [hw]
  simp only [oneWildcard]
  by_cases hlen : p.before.length < path.length
  · have hread := checksum_read hb hlen.le
    by_cases hpre : p.before <+: path
    · have htake : path.take p.before.length = p.before := (prefix_iff_eq_take.mp hpre).symm
      simp [Pattern.service, hlen, hread, hpre, strncmp, take_text, drop_servicePrefix, htake,
        Bind.bind, Except.bind]
    have htake : p.before ≠ path.take p.before.length := fun e => hpre (prefix_iff_eq_take.mpr e)
    simp [Pattern.service, hlen, hread, hpre, strncmp, take_text, drop_servicePrefix, htake,
      Bind.bind, Except.bind]
  · simp [Pattern.service, hlen]

theorem outcome_two {m : Text} (path : Text) (hrest : p.rest = [m, t]) (hb : p.before ≠ []) :
    outcome p path =
      if p.before.length < path.length ∧
          checksum p.before = checksum (path.take p.before.length) then
        middleMatch (servicePrefix ++ path) p.service
      else .ok none := by
  rw [outcome, serviceMatch]
  have hw : p.service.wildcards = 2 := by rw [Pattern.service, hrest]; rfl
  rw [hw]
  simp only [twoWildcards]
  by_cases hlen : p.before.length < path.length
  · have hread := checksum_read hb hlen.le
    by_cases hsum : checksum p.before = checksum (path.take p.before.length)
    · simp [Pattern.service, hlen, hread, hsum, Bind.bind, Except.bind]
    · simp [Pattern.service, hlen, hread, hsum, Bind.bind, Except.bind]
  · simp [Pattern.service, hlen]
variable {ws : List Text} {e : Text}

theorem matches_zero (hrest : p.rest = []) : p.Matches path ws ↔ ws = [] ∧ p.before = path := by
  rw [Pattern.Matches, hrest]
  constructor
  · rintro ⟨hlen, -, heq⟩
    have hws : ws = [] := length_eq_zero_iff.mp hlen
    subst hws
    simp [fill] at heq
    exact ⟨rfl, heq.symm⟩
  · rintro ⟨rfl, rfl⟩
    simp [fill]

theorem matches_one (hrest : p.rest = [e]) :
    p.Matches path ws ↔ ∃ w, w ≠ [] ∧ ws = [w] ∧ path = p.before ++ w ++ e := by
  rw [Pattern.Matches, hrest]
  constructor
  · rintro ⟨hlen, hne, heq⟩
    obtain ⟨w, rfl⟩ := length_eq_one_iff.mp hlen
    refine ⟨w, hne w mem_cons_self, rfl, ?_⟩
    simpa [fill] using heq
  · rintro ⟨w, hw, rfl, heq⟩
    refine ⟨rfl, by simpa using hw, ?_⟩
    simpa [fill] using heq

theorem matches_two {m : Text} (hrest : p.rest = [m, t]) :
    p.Matches path ws ↔ ∃ w₁ w₂, w₁ ≠ [] ∧ w₂ ≠ [] ∧ ws = [w₁, w₂] ∧
      path = p.before ++ w₁ ++ m ++ w₂ ++ t := by
  rw [Pattern.Matches, hrest]
  constructor
  · rintro ⟨hlen, hne, heq⟩
    rcases ws with _ | ⟨w₁, _ | ⟨w₂, _ | ⟨w₃, ws⟩⟩⟩ <;> simp at hlen
    refine ⟨w₁, w₂, hne w₁ (by simp), hne w₂ (by simp), rfl, ?_⟩
    simpa [fill] using heq
  · rintro ⟨w₁, w₂, h₁, h₂, rfl, heq⟩
    refine ⟨rfl, by simp [h₁, h₂], ?_⟩
    simpa [fill] using heq

theorem strncmp_ending (he : e.length ≤ path.length + orionLdServicePrefixLen) :
    strncmp ((servicePrefix ++ path).drop (path.length + orionLdServicePrefixLen - e.length)) e
      e.length = true ↔ e <:+ servicePrefix ++ path := by
  have hlen : (servicePrefix ++ path).length = path.length + orionLdServicePrefixLen := by
    rfl
  rw [strncmp, beq_iff_eq, take_length, suffix_iff_eq_drop, hlen]
  rw [take_of_length_le]
  · exact eq_comm
  · rw [length_drop, hlen]
    omega

theorem ending_cons (hrest : p.rest = [e]) (he : e ≠ [])
    (hlen : e.length ≤ path.length + orionLdServicePrefixLen) :
    endingMatch (servicePrefix ++ path) path.length p.service =
      .ok (if e <:+ servicePrefix ++ path then
        some [stringAt (servicePrefix ++ path) (path.length + orionLdServicePrefixLen - e.length)
          (p.before.length + orionLdServicePrefixLen)] else none) := by
  have hpos : e.length ≠ 0 := fun h => he (length_eq_zero_iff.mp h)
  have hsecond : p.second = e := by rw [Pattern.second, hrest]; rfl
  rw [endingMatch]
  simp only [Pattern.service, hsecond]
  rw [if_pos hpos, if_neg (by omega)]
  by_cases hsuf : e <:+ servicePrefix ++ path
  · rw [if_pos ((strncmp_ending hlen).mpr hsuf), if_pos hsuf]
  · rw [if_neg fun h => hsuf ((strncmp_ending hlen).mp h), if_neg hsuf]

theorem ending_too_long (hrest : p.rest = [e])
    (hlen : path.length + orionLdServicePrefixLen < e.length) :
    endingMatch (servicePrefix ++ path) path.length p.service = .error .outsideUrlPath := by
  have hsecond : p.second = e := by rw [Pattern.second, hrest]; rfl
  rw [endingMatch]
  simp only [Pattern.service, hsecond]
  rw [if_pos (by omega), if_pos hlen]

theorem ending_splits {before : Text} (hpre : before <+: path) (hsuf : e <:+ servicePrefix ++ path)
    (hlong : before.length + e.length < path.length) : ∃ w, w ≠ [] ∧ path = before ++ w ++ e := by
  have hsub : e <:+ path := suffix_of_suffix_length_le hsuf (suffix_append _ _) (by omega)
  obtain ⟨r, rfl⟩ := hpre
  rw [length_append] at hlong
  have hr : e <:+ r := suffix_of_suffix_length_le hsub (suffix_append _ _) (by omega)
  obtain ⟨w, rfl⟩ := hr
  refine ⟨w, ?_, by simp⟩
  rintro rfl
  rw [nil_append] at hlong
  omega

theorem not_firstSplit_one (hrest : p.rest = [e]) : p.FirstSplit path ws := by
  intro m t w₁ w₂ htwo
  rw [hrest] at htwo
  simp at htwo

def Agrees (p : Pattern) (path : Text) : Prop :=
  (∃ ws, outcome p path = .ok (some ws) ∧ p.Routed path ws) ∨
    (outcome p path = .ok none ∧ ¬ ∃ ws, p.Matches path ws)

def Disagrees (p : Pattern) (path : Text) : Prop :=
  (∃ f, outcome p path = .error f) ∨ ∃ ws, outcome p path = .ok (some ws) ∧ ¬ p.Routed path ws

theorem zero_agrees (hrest : p.rest = []) (hpath : path ≠ []) : Agrees p path := by
  have hout := outcome_zero hrest hpath
  split at hout
  · next heq =>
    refine .inl ⟨[], hout, (matches_zero hrest).mpr ⟨rfl, heq⟩, ?_⟩
    intro m t w₁ w₂ htwo
    rw [hrest] at htwo
    simp at htwo
  · next heq =>
    refine .inr ⟨hout, ?_⟩
    rintro ⟨ws, hm⟩
    exact heq ((matches_zero hrest).mp hm).2

theorem one_agrees (hrest : p.rest = [e]) (hb : p.before ≠ [])
    (hov : ¬ EndingOverlaps p.before e path) : Agrees p path := by
  have hout := outcome_one path hrest hb
  split at hout
  · next hpre =>
    obtain ⟨hlt, hpre⟩ := hpre
    by_cases he : e = []
    · subst he
      rw [endingMatch, Pattern.service, Pattern.second, hrest, drop_path] at hout
      obtain ⟨w, rfl⟩ := hpre
      rw [drop_left] at hout
      refine .inl ⟨[w], hout, (matches_one hrest).mpr ⟨w, ?_, rfl, by simp⟩,
        not_firstSplit_one hrest⟩
      rintro rfl
      simp at hlt
    · by_cases hlong : p.before.length + e.length < path.length
      · rw [ending_cons hrest he (by omega)] at hout
        split at hout
        · next hsuf =>
          obtain ⟨w, hw, hsplit⟩ := ending_splits hpre hsuf hlong
          refine .inl ⟨[w], ?_, (matches_one hrest).mpr ⟨w, hw, rfl, hsplit⟩,
            not_firstSplit_one hrest⟩
          have hnul : path.length + orionLdServicePrefixLen - e.length =
              (p.before.length + w.length) + orionLdServicePrefixLen := by
            rw [hsplit]
            simp only [length_append]
            omega
          rw [hout, hnul, stringAt_path, if_pos (by omega), hsplit, drop_take_middle]
        · next hsuf =>
          refine .inr ⟨hout, ?_⟩
          rintro ⟨ws, hm⟩
          obtain ⟨w, -, -, heq⟩ := (matches_one hrest).mp hm
          apply hsuf
          rw [heq, ← append_assoc]
          exact suffix_append _ _
      · have hshort : ¬ (e <:+ servicePrefix ++ path ∨
            path.length + orionLdServicePrefixLen < e.length) :=
          fun h => hov ⟨hpre, hlt, he, by omega, h⟩
        rw [not_or] at hshort
        rw [ending_cons hrest he (by omega), if_neg hshort.1] at hout
        refine .inr ⟨hout, ?_⟩
        rintro ⟨ws, hm⟩
        obtain ⟨w, -, -, heq⟩ := (matches_one hrest).mp hm
        rw [heq] at hlong
        apply hshort.1
        rw [heq, ← append_assoc]
        exact suffix_append _ _
  · next hpre =>
    refine .inr ⟨hout, ?_⟩
    rintro ⟨ws, hm⟩
    obtain ⟨w, hw, -, heq⟩ := (matches_one hrest).mp hm
    have hwpos := length_pos_iff.mpr hw
    apply hpre
    constructor
    · rw [heq]
      simp only [length_append]
      omega
    · exact ⟨w ++ e, by rw [heq, append_assoc]⟩

theorem one_disagrees (hrest : p.rest = [e]) (hb : p.before ≠ [])
    (hov : EndingOverlaps p.before e path) : Disagrees p path := by
  obtain ⟨hpre, hlt, he, hshort, hend⟩ := hov
  have hout := outcome_one path hrest hb
  rw [if_pos ⟨hlt, hpre⟩] at hout
  by_cases hlong : path.length + orionLdServicePrefixLen < e.length
  · rw [ending_too_long hrest hlong] at hout
    exact .inl ⟨_, hout⟩
  have hsuf : e <:+ servicePrefix ++ path := hend.resolve_right hlong
  rw [ending_cons hrest he (by omega), if_pos hsuf] at hout
  refine .inr ⟨_, hout, ?_⟩
  rintro ⟨hm, -⟩
  obtain ⟨w, hw, -, heq⟩ := (matches_one hrest).mp hm
  have hwpos := length_pos_iff.mpr hw
  rw [heq] at hshort
  simp only [length_append] at hshort
  omega

theorem infix_iff_drop (m path : Text) : m <:+: path ↔ ∃ k, m <+: path.drop k := by
  constructor
  · rintro ⟨a, b, rfl⟩
    refine ⟨a.length, ?_⟩
    rw [append_assoc, drop_left]
    exact prefix_append m b
  · rintro ⟨k, h⟩
    exact h.isInfix.trans (drop_suffix k path).isInfix

variable {m : Text}

theorem middle_found {k : ℕ} (hrest : p.rest = [m, t])
    (hm : m.length ≠ sizeofMatchForSecondWildcard) (hk : strstr m path = some k) :
    middleMatch (servicePrefix ++ path) p.service =
      .ok (some [if p.before.length ≤ k then (path.take k).drop p.before.length
          else path.drop p.before.length,
        if m = [] then [] else path.drop (k + m.length)]) := by
  have hsecond : p.second = m := by rw [Pattern.second, hrest]; rfl
  rw [middleMatch]
  simp only [Pattern.service, hsecond]
  rw [if_neg hm, drop_servicePrefix, hk]
  simp only [Nat.add_comm orionLdServicePrefixLen k]
  have hstart : k + orionLdServicePrefixLen + m.length =
      (k + m.length) + orionLdServicePrefixLen := by omega
  rw [stringAt_path, hstart, stringAt_path]
  by_cases hnil : m = []
  · subst hnil
    simp
  · have hpos := length_pos_iff.mpr hnil
    rw [if_neg (c := k + m.length ≤ k) (by omega), if_neg hnil]

theorem middle_missing (hrest : p.rest = [m, t]) (hm : m.length ≠ sizeofMatchForSecondWildcard)
    (hk : strstr m path = none) : middleMatch (servicePrefix ++ path) p.service = .ok none := by
  have hsecond : p.second = m := by rw [Pattern.second, hrest]; rfl
  rw [middleMatch]
  simp only [Pattern.service, hsecond]
  rw [if_neg hm, drop_servicePrefix, hk]

theorem middle_unterminated (hrest : p.rest = [m, t])
    (hm : m.length = sizeofMatchForSecondWildcard) :
    middleMatch (servicePrefix ++ path) p.service = .error .unterminatedMatch := by
  have hsecond : p.second = m := by rw [Pattern.second, hrest]; rfl
  rw [middleMatch]
  simp only [Pattern.service, hsecond]
  rw [if_pos hm]

theorem checksum_of_matches (hrest : p.rest = [m, t]) (hm : p.Matches path ws) :
    p.before.length < path.length ∧
      checksum p.before = checksum (path.take p.before.length) ∧ m <:+: path := by
  obtain ⟨w₁, w₂, h₁, -, -, heq⟩ := (matches_two hrest).mp hm
  have hpos := length_pos_iff.mpr h₁
  refine ⟨?_, ?_, ?_⟩
  · rw [heq]
    simp only [length_append]
    omega
  · rw [heq]
    simp only [append_assoc]
    rw [take_left]
  · exact ⟨p.before ++ w₁, w₂ ++ t, by rw [heq]; simp only [append_assoc]⟩

theorem two_agrees (hrest : p.rest = [m, t]) (hb : p.before ≠ [])
    (hfit : ChecksumFits p.before m path →
    m.length ≠ sizeofMatchForSecondWildcard ∧ t = [] ∧ SplitsAtFirst p.before m path) :
    Agrees p path := by
  have hout := outcome_two path hrest hb
  split at hout
  · next hsum =>
    by_cases hfull : m.length = sizeofMatchForSecondWildcard
    · exact absurd hfull (hfit ⟨hsum.1, hsum.2, .inl hfull⟩).1
    cases hk : strstr m path with
    | none =>
      rw [middle_missing hrest hfull hk] at hout
      refine .inr ⟨hout, ?_⟩
      rintro ⟨ws, hm⟩
      obtain ⟨k, hpre⟩ := (infix_iff_drop m path).mp (checksum_of_matches hrest hm).2.2
      exact (strstr_eq_none_iff m path).mp hk k hpre
    | some k =>
      have hpre := (strstr_eq_some_iff m path k).mp hk
      obtain ⟨-, ht, w₁, w₂, h₁, h₂, heq, hfirst⟩ :=
        hfit ⟨hsum.1, hsum.2, .inr ((infix_iff_drop m path).mpr ⟨k, hpre.1⟩)⟩
      have hdrop : path.drop (p.before.length + w₁.length) = m ++ w₂ := by
        rw [heq, ← length_append, append_assoc, drop_left]
      have hat : strstr m path = some (p.before.length + w₁.length) :=
        (strstr_eq_some_iff m path _).mpr ⟨by rw [hdrop]; exact prefix_append m w₂, hfirst⟩
      have hkeq : k = p.before.length + w₁.length := some.inj (hk.symm.trans hat)
      have hmne : m ≠ [] := by
        rintro rfl
        have hpos := length_pos_iff.mpr h₁
        exact hfirst 0 (by omega) nil_prefix
      have hmatch : p.Matches path [w₁, w₂] :=
        (matches_two hrest).mpr ⟨w₁, w₂, h₁, h₂, rfl, by rw [heq, ht, append_nil]⟩
      refine .inl ⟨[w₁, w₂], ?_, hmatch, ?_⟩
      · rw [hout, middle_found hrest hfull hk, hkeq, if_pos (by omega), if_neg hmne,
          ← drop_drop, hdrop, drop_left, heq, append_assoc (p.before ++ w₁),
          drop_take_middle]
      · intro m' t' u₁ u₂ hrest' hws j hj hlt
        rw [hrest] at hrest'
        obtain ⟨rfl, rfl⟩ := hrest'
        obtain ⟨rfl, rfl⟩ := hws
        exact hfirst _ (by omega)
  · next hsum =>
    refine .inr ⟨hout, ?_⟩
    rintro ⟨ws, hm⟩
    have hfits := checksum_of_matches hrest hm
    exact hsum ⟨hfits.1, hfits.2.1⟩

theorem two_disagrees (hrest : p.rest = [m, t]) (hb : p.before ≠ [])
    (hfit : ChecksumFits p.before m path)
    (hnot : ¬ (m.length ≠ sizeofMatchForSecondWildcard ∧ t = [] ∧
    SplitsAtFirst p.before m path)) : Disagrees p path := by
  obtain ⟨hlt, hsum, hm⟩ := hfit
  have hout := outcome_two path hrest hb
  rw [if_pos ⟨hlt, hsum⟩] at hout
  by_cases hfull : m.length = sizeofMatchForSecondWildcard
  · rw [middle_unterminated hrest hfull] at hout
    exact .inl ⟨_, hout⟩
  cases hk : strstr m path with
  | none =>
    obtain ⟨k, hpre⟩ := (infix_iff_drop m path).mp (hm.resolve_left hfull)
    exact absurd hpre ((strstr_eq_none_iff m path).mp hk k)
  | some k =>
    have hpre := (strstr_eq_some_iff m path k).mp hk
    rw [middle_found hrest hfull hk] at hout
    refine .inr ⟨_, hout, ?_⟩
    rintro ⟨hmatch, -⟩
    obtain ⟨w₁, w₂, h₁, h₂, hws, heq⟩ := (matches_two hrest).mp hmatch
    simp only [cons.injEq, and_true] at hws
    obtain ⟨hw₁, hw₂⟩ := hws
    have hpos₂ := length_pos_iff.mpr h₂
    have hlen := congrArg List.length heq
    simp only [length_append] at hlen
    have hmlen := hpre.1.length_le
    split at hw₁
    · split at hw₂
      · exact h₂ hw₂.symm
      have hl₁ := congrArg List.length hw₁
      have hl₂ := congrArg List.length hw₂
      rw [length_drop, length_take] at hl₁
      rw [length_drop] at hl₂
      have ht : t = [] := length_eq_zero_iff.mp (by omega)
      refine hnot ⟨hfull, ht, w₁, w₂, h₁, h₂, ?_, fun j hj => hpre.2 j (by omega)⟩
      rw [heq, ht, append_nil]
    · have hl₁ := congrArg List.length hw₁
      rw [length_drop] at hl₁
      omega

theorem agrees_or_disagrees (p : Pattern) (hpath : path ≠ []) :
    (¬ p.Misroutes path → Agrees p path) ∧ (p.Misroutes path → Disagrees p path) := by
  have hfew := p.few
  unfold Pattern.Misroutes
  rcases hrest : p.rest with _ | ⟨m, _ | ⟨t, _ | ⟨u, us⟩⟩⟩
  · exact ⟨fun _ => zero_agrees hrest hpath, fun h => h.elim⟩
  · have hne : p.rest ≠ [] := by rw [hrest]; exact cons_ne_nil _ _
    refine ⟨fun h => ?_, fun h => ?_⟩
    · rw [not_or] at h
      exact one_agrees hrest h.1 h.2
    · by_cases hb : p.before = []
      · exact .inl ⟨_, outcome_before_nil hne hb hpath⟩
      · exact one_disagrees hrest hb (h.resolve_left hb)
  · have hne : p.rest ≠ [] := by rw [hrest]; exact cons_ne_nil _ _
    refine ⟨fun h => ?_, fun h => ?_⟩
    · rw [not_or] at h
      exact two_agrees hrest h.1 fun hfit => by_contra fun hnot => h.2 ⟨hfit, hnot⟩
    · by_cases hb : p.before = []
      · exact .inl ⟨_, outcome_before_nil hne hb hpath⟩
      · obtain ⟨hfit, hnot⟩ := h.resolve_left hb
        exact two_disagrees hrest hb hfit hnot
  · rw [hrest] at hfew
    simp at hfew

/-- No pattern before it has the path. -/
def Reached (patterns : List Pattern) (path : Text) (i : ℕ) : Prop :=
  ∀ j < i, ∀ p, patterns[j]? = some p → ¬ ∃ ws, p.Matches path ws

/-- No service that the path gets to is one that gets it wrong. -/
def RoutedRight (patterns : List Pattern) (path : Text) : Prop :=
  ∀ i p, patterns[i]? = some p → Reached patterns path i → ¬ p.Misroutes path

theorem reached_succ (path : Text) (p : Pattern) (patterns : List Pattern) (i : ℕ) :
    Reached (p :: patterns) path (i + 1) ↔
      (¬ ∃ ws, p.Matches path ws) ∧ Reached patterns path i := by
  constructor
  · intro h
    refine ⟨h 0 (by omega) p rfl, fun j hj q hq => h (j + 1) (by omega) q ?_⟩
    exact hq
  · rintro ⟨hp, h⟩ j hj q hq
    cases j with
    | zero =>
      rw [List.getElem?_cons_zero, some.injEq] at hq
      exact hq ▸ hp
    | succ j => exact h j (by omega) q (by rwa [List.getElem?_cons_succ] at hq)

theorem routedRight_cons (p : Pattern) (patterns : List Pattern) :
    RoutedRight (p :: patterns) path ↔
      ¬ p.Misroutes path ∧ ((¬ ∃ ws, p.Matches path ws) → RoutedRight patterns path) := by
  constructor
  · intro h
    refine ⟨h 0 p rfl fun j hj => absurd hj (by omega), fun hp i q hq hr => ?_⟩
    exact h (i + 1) q (by rwa [List.getElem?_cons_succ])
      ((reached_succ path p patterns i).mpr ⟨hp, hr⟩)
  · rintro ⟨hp, h⟩ i q hq hr
    cases i with
    | zero =>
      rw [List.getElem?_cons_zero, some.injEq] at hq
      exact hq ▸ hp
    | succ i =>
      obtain ⟨hnone, hr⟩ := (reached_succ path p patterns i).mp hr
      exact h hnone i q (by rwa [List.getElem?_cons_succ] at hq) hr

def shifted (r : Option (ℕ × List Text)) : Option (ℕ × List Text) := r.map fun f => (f.1 + 1, f.2)

theorem lookupFrom_succ (url : Text) (cSumV : List ℤ) (sLen ix : ℕ)
    (services : List OrionLdRestService) :
    lookupFrom url cSumV sLen (ix + 1) services =
      (lookupFrom url cSumV sLen ix services).map shifted := by
  induction services generalizing ix with
  | nil => rfl
  | cons s services ih =>
    rw [lookupFrom, lookupFrom]
    rcases serviceMatch url cSumV sLen s with f | _ | ws
    · rfl
    · exact ih (ix + 1)
    · rfl

theorem isRoute_shifted (p : Pattern) (patterns : List Pattern) (r : Option (ℕ × List Text))
    (hp : ¬ ∃ ws, p.Matches path ws) :
    IsRoute (p :: patterns) path (shifted r) ↔ IsRoute patterns path r := by
  rcases r with _ | ⟨i, ws⟩
  · simp only [shifted, map_none, IsRoute, mem_cons, forall_eq_or_imp]
    exact and_iff_right hp
  have hreached := reached_succ path p patterns i
  constructor
  · rintro ⟨h, hr⟩
    exact ⟨h, (hreached.mp hr).2⟩
  · rintro ⟨h, hr⟩
    exact ⟨h, hreached.mpr ⟨hp, hr⟩⟩

def lookupPath (patterns : List Pattern) (path : Text) : Except Fault (Option (ℕ × List Text)) :=
  lookupFrom (servicePrefix ++ path) (cSumsFrom 0 (path.take maxCharsBeforeWildcard)) path.length 0
    (patterns.map Pattern.service)

theorem lookupPath_cons (p : Pattern) (patterns : List Pattern) :
    lookupPath (p :: patterns) path =
      (outcome p path).bind fun
        | some ws => .ok (some (0, ws))
        | none => (lookupPath patterns path).map shifted := by
  rw [lookupPath, map_cons, lookupFrom, outcome]
  rcases serviceMatch (servicePrefix ++ path) (cSumsFrom 0 (path.take maxCharsBeforeWildcard))
    path.length p.service with f | _ | ws
  · rfl
  · exact lookupFrom_succ _ _ _ 0 _
  · rfl

theorem lookupPath_iff (patterns : List Pattern) (hpath : path ≠ []) :
    (∃ r, lookupPath patterns path = .ok r ∧ IsRoute patterns path r) ↔
      RoutedRight patterns path := by
  induction patterns with
  | nil =>
    refine ⟨fun _ i p hp => by simp at hp, fun _ => ⟨none, rfl, fun p hp => by simp at hp⟩⟩
  | cons p patterns ih =>
    rw [routedRight_cons, lookupPath_cons]
    obtain ⟨hagrees, hdisagrees⟩ := agrees_or_disagrees p hpath
    by_cases hmis : p.Misroutes path
    · constructor
      · rintro ⟨r, hr, hroute⟩
        rcases hdisagrees hmis with ⟨f, hf⟩ | ⟨ws, hws, hnot⟩
        · rw [hf] at hr
          cases hr
        rw [hws] at hr
        cases hr
        obtain ⟨⟨q, hq, hrouted⟩, -⟩ := hroute
        rw [List.getElem?_cons_zero, some.injEq] at hq
        exact absurd (hq ▸ hrouted) hnot
      · rintro ⟨h, -⟩
        exact absurd hmis h
    · rcases hagrees hmis with ⟨ws, hws, hrouted⟩ | ⟨hnone, hno⟩
      · rw [hws]
        constructor
        · intro _
          exact ⟨hmis, fun h => absurd ⟨ws, hrouted.1⟩ h⟩
        · intro _
          exact ⟨some (0, ws), rfl, ⟨p, rfl, hrouted⟩, fun j hj => absurd hj (by omega)⟩
      · rw [hnone]
        have htail : (∃ r, (lookupPath patterns path).map shifted = .ok r ∧
            IsRoute (p :: patterns) path r) ↔ RoutedRight patterns path := by
          rw [← ih]
          constructor
          · rintro ⟨r, hr, hroute⟩
            obtain ⟨r', hr', rfl⟩ := Fallible.map_ok hr
            exact ⟨r', hr', (isRoute_shifted p patterns r' hno).mp hroute⟩
          · rintro ⟨r, hr, hroute⟩
            exact ⟨shifted r, by rw [hr]; rfl, (isRoute_shifted p patterns r hno).mpr hroute⟩
        refine htail.trans ⟨fun h => ⟨hmis, fun _ => h⟩, fun h => h.2 hno⟩

theorem prepared_services {patterns : List Pattern} {services : List OrionLdRestService}
    (h : patterns.mapM (fun p => restServicePrepare p.text) = some services) :
    services = patterns.map Pattern.service := by
  induction patterns generalizing services with
  | nil =>
    exact (some.inj h).symm
  | cons p patterns ih =>
    rw [mapM_cons] at h
    obtain ⟨s, hs, h⟩ := bind_eq_some_iff.mp h
    obtain ⟨ss, hss, h⟩ := bind_eq_some_iff.mp h
    rw [restServicePrepare_text] at hs
    split at hs
    · cases hs
    cases hs
    cases h
    rw [map_cons, ih hss]

/-- For every list of services and every path: the lookup returns the first service whose
pattern gives the path, with the strings in the place of its wildcards, and reads nothing that
was not computed, exactly when no service that the path gets to misroutes it. -/
theorem service_lookup_iff (patterns : List Pattern) (services : List OrionLdRestService)
    (hprepared : patterns.mapM (fun p => restServicePrepare p.text) = some services)
    (path : Text) (hpath : path ≠ []) :
    (∃ r, orionldServiceLookup services (servicePrefix ++ path) = .ok r ∧
        IsRoute patterns path r) ↔ RoutedRight patterns path := by
  rw [prepared_services hprepared, ← lookupPath_iff patterns hpath]
  rw [orionldServiceLookup, requestPrepare, drop_servicePrefix, lookupPath]

def entityAttributePattern : Pattern where
  before := "v1/entities/".toList
  rest := ["/attrs/".toList, []]
  starless := by decide
  few := by decide
  short := by decide

def entityAttributesPattern : Pattern where
  before := "v1/entities/".toList
  rest := ["/attrs".toList]
  starless := by decide
  few := by decide
  short := by decide

def patchPatterns : List Pattern := [entityAttributePattern, entityAttributesPattern]

def patchServices : List OrionLdRestService := patchPatterns.map Pattern.service

theorem patch_attribute_routed :
    patchPatterns.mapM (fun p => restServicePrepare p.text) = some patchServices ∧
      ∃ r, orionldServiceLookup patchServices
          (servicePrefix ++ "v1/entities/urn:E/attrs/P".toList) = .ok r ∧
        IsRoute patchPatterns "v1/entities/urn:E/attrs/P".toList r := by
  have hprepared :
      patchPatterns.mapM (fun p => restServicePrepare p.text) = some patchServices := by
    decide +kernel
  refine ⟨hprepared, (service_lookup_iff patchPatterns patchServices hprepared
    "v1/entities/urn:E/attrs/P".toList (by decide)).mpr ?_⟩
  refine (routedRight_cons _ _).mpr ⟨?_, fun h => absurd ⟨["urn:E".toList, "P".toList], ?_⟩ h⟩
  · rintro (h | ⟨-, h⟩)
    · cases h
    · exact h ⟨by decide, rfl, "urn:E".toList, "P".toList, by decide, by decide, by decide,
        by decide +kernel⟩
  · exact ⟨rfl, by decide, by decide⟩

/-- A path with two letters exchanged is taken for an attribute, and an ending that overlaps the
first text for the attributes of an entity. -/
theorem foreign_paths_routed :
    patchPatterns.mapM (fun p => restServicePrepare p.text) = some patchServices ∧
      orionldServiceLookup patchServices (servicePrefix ++ "v1/entitise/urn:E/attrs/P".toList) =
        .ok (some (0, ["urn:E".toList, "P".toList])) ∧
      ¬ IsRoute patchPatterns "v1/entitise/urn:E/attrs/P".toList
        (some (0, ["urn:E".toList, "P".toList])) ∧
      orionldServiceLookup patchServices (servicePrefix ++ "v1/entities/attrs".toList) =
        .ok (some (1, ["attrs".toList])) ∧
      ¬ IsRoute patchPatterns "v1/entities/attrs".toList (some (1, ["attrs".toList])) := by
  refine ⟨by decide +kernel, by decide +kernel, ?_, by decide +kernel, ?_⟩
  · rintro ⟨⟨p, hp, ⟨-, -, heq⟩, -⟩, -⟩
    cases hp
    exact absurd heq (by decide +kernel)
  · rintro ⟨⟨p, hp, ⟨-, -, heq⟩, -⟩, -⟩
    cases hp
    exact absurd heq (by decide +kernel)

end ServiceRouting
