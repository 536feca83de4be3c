import OrionLd.ContextExpansion
import OrionLd.StepSystem

/-! The prefix cache of a request: ten slots, reused in the order in which they were filled.
An entry keeps a pointer to the name that was expanded, whose colon is back in its place when
the next name is looked up, so an entry is only found again for the very same string. -/
namespace OrionldPrefixCache

open KjTree (Text)
open OrionldContextItem (ContextItem)
open OrionldContextTree
open ContextExpansion (termOf)
open StepSystem List

abbrev Address := ℕ
abbrev Memory := Address → Text

def orionldPrefixCacheSize : ℕ := 10

structure PrefixCacheItem where
  prefixP : Address
  expanded : Text

structure PrefixCache where
  index : ℕ
  items : ℕ
  cache : List PrefixCacheItem
  size : cache.length = orionldPrefixCacheSize
  filled : items = min index orionldPrefixCacheSize

def emptyCache : PrefixCache where
  index := 0
  items := 0
  cache := List.replicate orionldPrefixCacheSize ⟨0, []⟩
  size := List.length_replicate
  filled := rfl

/-- What a pointer reads as while the colon of the name at strP is overwritten. -/
def readAt (mem : Memory) (strP p : Address) : Text :=
  if p = strP then termOf (mem p) else mem p

def prefixCacheLookup (mem : Memory) (strP : Address) (s : PrefixCache) : Option Text :=
  ((s.cache.take s.items).find? fun item =>
    readAt mem strP item.prefixP == readAt mem strP strP).map PrefixCacheItem.expanded

def prefixCacheInsert (s : PrefixCache) (strP : Address) (expansion : Text) : PrefixCache where
  index := s.index + 1
  items := if s.items < orionldPrefixCacheSize then s.items + 1 else s.items
  cache := s.cache.set (s.index % orionldPrefixCacheSize) ⟨strP, expansion⟩
  size := by rw [List.length_set, s.size]
  filled := by
    have hfilled := s.filled
    split <;> omega

def orionldContextPrefixExpand (c : Contexts) (mem : Memory) (s : PrefixCache)
    (strP : Address) : Text × PrefixCache :=
  let str := mem strP
  let rest := (str.dropWhile (· ≠ ':')).tail
  if isUri str then (str, s)
  else match prefixCacheLookup mem strP s with
    | some expansion => (expansion ++ rest, s)
    | none => match termLookup c (termOf str) with
      | some item => (item.id ++ rest, prefixCacheInsert s strP item.id)
      | none => (str, s)

def orionldContextItemExpand (c : Contexts) (useDefaultUrlIfNotFound : Bool) (mem : Memory)
    (s : PrefixCache) (strP : Address) : Option Text × PrefixCache :=
  let shortName := mem strP
  if ':' ∈ shortName then
    let (expanded, s) := orionldContextPrefixExpand c mem s strP
    (some expanded, s)
  else match termLookup c shortName with
    | some item => (some item.id, s)
    | none => (if useDefaultUrlIfNotFound then some (c.defaultUrl ++ shortName) else none, s)

inductive Call where
  | expand (c : Contexts) (useDefaultUrlIfNotFound : Bool) (strP : Address)
  | write (p : Address) (str : Text)

/-- The state of a request, with the names that have been expanded in it. -/
structure Request where
  mem : Memory
  prefixCache : PrefixCache
  expanded : List (Contexts × Address)

def start (mem : Memory) : Request := ⟨mem, emptyCache, []⟩

def result (mem : Memory) (s : PrefixCache) : Call → Option Text × PrefixCache
  | .expand c useDefaultUrlIfNotFound strP =>
    orionldContextItemExpand c useDefaultUrlIfNotFound mem s strP
  | .write _ _ => (none, s)

def record (r : Request) (call : Call) : Request where
  mem := match call with
    | .expand _ _ _ => r.mem
    | .write p str => Function.update r.mem p str
  prefixCache := (result r.mem r.prefixCache call).2
  expanded := match call with
    | .expand c _ strP => (c, strP) :: r.expanded
    | .write _ _ => r.expanded

/-- The result is that of the same call with an empty cache. -/
def Transparent (r : Request) (call : Call) : Prop :=
  (result r.mem r.prefixCache call).1 = (result r.mem emptyCache call).1

instance (r : Request) (call : Call) : Decidable (Transparent r call) :=
  inferInstanceAs (Decidable (_ = _))

def prefixMeaning (c : Contexts) (str : Text) : Option Text :=
  (termLookup c (termOf str)).map ContextItem.id

/-- A string is only expanded again under a context in which its prefix stands for the same. -/
def SameMeaning (r : Request) : Call → Prop
  | .expand c _ strP => ∀ e ∈ r.expanded, e.2 = strP →
      prefixMeaning e.1 (r.mem strP) = prefixMeaning c (r.mem strP)
  | .write p _ => ∀ e ∈ r.expanded, e.2 ≠ p

instance (r : Request) : ∀ call, Decidable (SameMeaning r call)
  | .expand _ _ _ => inferInstanceAs (Decidable (∀ _ ∈ _, _))
  | .write _ _ => inferInstanceAs (Decidable (∀ _ ∈ _, _))

/-- Every entry was made for a name with a colon, from what its prefix meant under the context of
then. -/
def Sound (r : Request) : Prop :=
  ∀ item ∈ r.prefixCache.cache.take r.prefixCache.items, ':' ∈ r.mem item.prefixP ∧
    ∃ c, (c, item.prefixP) ∈ r.expanded ∧
      prefixMeaning c (r.mem item.prefixP) = some item.expanded

theorem start_sound (mem : Memory) : Sound (start mem) := by
  intro item hitem
  cases hitem

theorem colon_not_mem_termOf (str : Text) : ':' ∉ termOf str := by
  intro h
  simpa using mem_takeWhile_imp h

variable {r : Request} {strP : Address}

theorem lookup_same (hr : Sound r) {expansion : Text}
    (h : prefixCacheLookup r.mem strP r.prefixCache = some expansion) :
    ∃ c, (c, strP) ∈ r.expanded ∧ prefixMeaning c (r.mem strP) = some expansion := by
  obtain ⟨item, hfind, rfl⟩ := Option.map_eq_some_iff.mp h
  obtain ⟨hcolon, c, hc, hmeaning⟩ := hr item (mem_of_find?_eq_some hfind)
  have hread : readAt r.mem strP item.prefixP = readAt r.mem strP strP := by
    simpa using List.find?_some hfind
  unfold readAt at hread
  rw [if_pos rfl] at hread
  by_cases hsame : item.prefixP = strP
  · rw [hsame] at hc hmeaning
    exact ⟨c, hc, hmeaning⟩
  rw [if_neg hsame] at hread
  rw [hread] at hcolon
  exact absurd hcolon (colon_not_mem_termOf _)

theorem lookup_empty (mem : Memory) (strP : Address) :
    prefixCacheLookup mem strP emptyCache = none := rfl

theorem prefixExpand_transparent (hr : Sound r) {c : Contexts}
    (hsame : ∀ e ∈ r.expanded, e.2 = strP →
    prefixMeaning e.1 (r.mem strP) = prefixMeaning c (r.mem strP)) :
    (orionldContextPrefixExpand c r.mem r.prefixCache strP).1 =
      (orionldContextPrefixExpand c r.mem emptyCache strP).1 := by
  unfold orionldContextPrefixExpand
  by_cases huri : isUri (r.mem strP) = true
  · rw [if_pos huri, if_pos huri]
  rw [if_neg huri, if_neg huri, lookup_empty]
  cases hfound : prefixCacheLookup r.mem strP r.prefixCache with
  | none => cases termLookup c (termOf (r.mem strP)) <;> rfl
  | some expansion =>
    obtain ⟨c', hc', hmeaning⟩ := lookup_same hr hfound
    rw [hsame _ hc' rfl] at hmeaning
    obtain ⟨item, hitem, rfl⟩ := Option.map_eq_some_iff.mp hmeaning
    rw [hitem]

theorem transparent_of_sound (hr : Sound r) {call : Call} (hcall : SameMeaning r call) :
    Transparent r call := by
  cases call with
  | write p str => rfl
  | expand c useDefaultUrlIfNotFound strP =>
    have hprefix := prefixExpand_transparent hr hcall
    unfold Transparent result orionldContextItemExpand
    dsimp only
    by_cases hcolon : ':' ∈ r.mem strP
    · rw [if_pos hcolon, if_pos hcolon]
      exact congrArg some hprefix
    · rw [if_neg hcolon, if_neg hcolon]
      cases termLookup c (r.mem strP) <;> rfl

theorem mem_insert {s : PrefixCache} {expansion : Text} {item : PrefixCacheItem}
    (h : item ∈ (prefixCacheInsert s strP expansion).cache.take
    (prefixCacheInsert s strP expansion).items) :
    item = ⟨strP, expansion⟩ ∨ item ∈ s.cache.take s.items := by
  have hsize := s.size
  have hfilled := s.filled
  unfold prefixCacheInsert at h
  dsimp only at h
  by_cases hroom : s.items < orionldPrefixCacheSize
  · have hix : s.index % orionldPrefixCacheSize = s.items := by
      rw [Nat.mod_eq_of_lt (by omega)]
      omega
    rw [if_pos hroom, hix, take_add_one, take_set_of_le le_rfl,
      List.getElem?_set_self (by omega)] at h
    rcases mem_append.mp h with h | h
    · exact .inr h
    · exact .inl (mem_singleton.mp h)
  · rw [if_neg hroom, take_of_length_le (by rw [length_set]; omega)] at h
    rw [take_of_length_le (by omega)]
    exact (mem_or_eq_of_mem_set h).symm

theorem result_cases (mem : Memory) (s : PrefixCache) (c : Contexts)
    (useDefaultUrlIfNotFound : Bool) (strP : Address) :
    (result mem s (.expand c useDefaultUrlIfNotFound strP)).2 = s ∨
      ∃ item, ':' ∈ mem strP ∧ termLookup c (termOf (mem strP)) = some item ∧
        (result mem s (.expand c useDefaultUrlIfNotFound strP)).2 =
          prefixCacheInsert s strP item.id := by
  unfold result orionldContextItemExpand
  dsimp only
  by_cases hcolon : ':' ∈ mem strP
  · rw [if_pos hcolon]
    unfold orionldContextPrefixExpand
    by_cases huri : isUri (mem strP) = true
    · rw [if_pos huri]
      exact .inl rfl
    rw [if_neg huri]
    cases prefixCacheLookup mem strP s with
    | some expansion => exact .inl rfl
    | none =>
      cases hterm : termLookup c (termOf (mem strP)) with
      | none => exact .inl rfl
      | some item => exact .inr ⟨item, hcolon, rfl, rfl⟩
  · rw [if_neg hcolon]
    cases termLookup c (mem strP) <;> exact .inl rfl

theorem record_sound (hr : Sound r) {call : Call} (hcall : SameMeaning r call) :
    Sound (record r call) := by
  cases call with
  | write p str =>
    intro item hitem
    obtain ⟨hcolon, c, hc, hmeaning⟩ := hr item hitem
    have hmem : (record r (.write p str)).mem item.prefixP = r.mem item.prefixP :=
      Function.update_of_ne (hcall _ hc) _ _
    rw [hmem]
    exact ⟨hcolon, c, hc, hmeaning⟩
  | expand c useDefaultUrlIfNotFound strP =>
    intro item hitem
    have hold : item ∈ r.prefixCache.cache.take r.prefixCache.items →
        ':' ∈ r.mem item.prefixP ∧ ∃ c', (c', item.prefixP) ∈ (c, strP) :: r.expanded ∧
          prefixMeaning c' (r.mem item.prefixP) = some item.expanded := by
      intro h
      obtain ⟨hcolon, c', hc', hmeaning⟩ := hr item h
      exact ⟨hcolon, c', mem_cons_of_mem _ hc', hmeaning⟩
    change item ∈ (result r.mem r.prefixCache _).2.cache.take
      (result r.mem r.prefixCache _).2.items at hitem
    rcases result_cases r.mem r.prefixCache c useDefaultUrlIfNotFound strP with
      hsame | ⟨found, hcolon, hterm, hinsert⟩
    · rw [hsame] at hitem
      exact hold hitem
    · rw [hinsert] at hitem
      rcases mem_insert hitem with rfl | h
      · refine ⟨hcolon, c, mem_cons_self, ?_⟩
        exact congrArg (Option.map ContextItem.id) hterm
      · exact hold h

theorem transparent_from {calls : List Call} (hr : Sound r)
    (h : Guarded record SameMeaning r calls) :
    Guarded record Transparent r calls := by
  induction calls generalizing r with
  | nil => trivial
  | cons call calls ih =>
    exact ⟨transparent_of_sound hr h.1, ih (record_sound hr h.1) h.2⟩

/-- In a request that expands no string again under a context that gives its prefix another meaning,
the cache changes no result. -/
theorem cache_transparent (mem : Memory) (calls : List Call)
    (h : Guarded record SameMeaning (start mem) calls) :
    Guarded record Transparent (start mem) calls :=
  transparent_from (start_sound mem) h

def contextOf (namespaceUri : String) : Contexts where
  khash := firstItem
  core := vocabContext
  core_hasNull := hasNull_vocabContext
  context := .keyValues [⟨"P".toList, namespaceUri.toList, none⟩]
  defaultUrl := defaultContextUrl

def batchNames : Memory := fun _ => "P:x".toList

theorem own_strings_transparent : Guarded record Transparent (start batchNames)
    [.expand (contextOf "http://a.org/") true 0, .expand (contextOf "http://b.org/") true 1,
      .expand (contextOf "http://a.org/") true 0] :=
  cache_transparent batchNames _ (by decide +kernel)

theorem same_string_not_transparent : ¬ ∀ (mem : Memory) (calls : List Call),
    Guarded record Transparent (start mem) calls := by
  intro h
  exact absurd (h batchNames [.expand (contextOf "http://a.org/") true 0,
    .expand (contextOf "http://b.org/") true 0]) (by decide +kernel)

end OrionldPrefixCache
