import OrionLd.StepSystem
import Mathlib.Data.Rat.Defs

/-! The context cache: an array of context pointers with a first free index. Contexts are addresses
into a fixed memory, since cached contexts never move. -/
namespace OrionldContextCache

open StepSystem List

inductive OrionldContextOrigin where
  | unknownOrigin
  | fromInline
  | downloaded
  | fileCached
  | forNotifications
  | forForwarding
  | userCreated
  deriving DecidableEq, Repr

inductive ServiceRoutine where
  | orionldPostSubscriptions
  | orionldPostRegistrations
  | otherRoutine
  deriving DecidableEq, Repr

structure OrionldContext where
  id : Option String
  url : String
  parent : Option String
  origin : OrionldContextOrigin
  deriving DecidableEq, Repr

abbrev ContextRef := ℕ
abbrev Memory := ContextRef → OrionldContext

structure ContextCache where
  array : List (Option ContextRef)
  slots : ℕ
  slotIx : ℕ
  usedAt : ContextRef → ℚ
  lookups : ContextRef → ℕ
  size : array.length = slots

def emptyCache (slots : ℕ) : ContextCache where
  array := List.replicate slots none
  slots := slots
  slotIx := 0
  usedAt := fun _ => 0
  lookups := fun _ => 0
  size := List.length_replicate

/-- Inline contexts are kept only for subscription and registration creation. -/
def droppedInline (c : OrionldContext) (service : ServiceRoutine) : Bool :=
  c.origin == .fromInline &&
    (service != .orionldPostSubscriptions && service != .orionldPostRegistrations)

def slotsToAdd : ℕ := 50

def findHole (array : List (Option ContextRef)) : Option ℕ := array.findIdx? Option.isNone

def chooseSlot (s : ContextCache) : ℕ × ℕ :=
  if s.slots ≤ s.slotIx then ((findHole s.array).getD s.slotIx, s.slotIx)
  else (s.slotIx, s.slotIx + 1)

/-- memcpy of the old array, then bzero of the added slots. -/
def reallocate (s : ContextCache) : ContextCache where
  array := s.array ++ List.replicate slotsToAdd none
  slots := s.slots + slotsToAdd
  slotIx := s.slotIx
  usedAt := s.usedAt
  lookups := s.lookups
  size := by simp [s.size]

def store (s : ContextCache) (slotNo : ℕ) (contextP : ContextRef) : ContextCache :=
  { s with array := s.array.set slotNo (some contextP), size := by simp [s.size] }

def orionldContextCacheInsert (mem : Memory) (service : ServiceRoutine) (s : ContextCache)
    (contextP : Option ContextRef) : ContextCache :=
  match contextP with
  | none => s
  | some p =>
    if droppedInline (mem p) service then s
    else
      let (slotNo, slotIx) := chooseSlot s
      let s := { s with slotIx := slotIx }
      if s.slots ≤ slotNo then store (reallocate s) s.slotIx p
      else store s slotNo p

/-- A context answers to its url and, when it has one, to its id. -/
def answersTo (c : OrionldContext) (url : String) : Bool :=
  url == c.url || c.id == some url

def findContext (mem : Memory) (s : ContextCache) (url : String) : Option ContextRef :=
  (s.array.take s.slotIx).findSome? fun slot => slot.filter fun p => answersTo (mem p) url

def orionldContextCacheLookup (mem : Memory) (requestTime : ℚ) (s : ContextCache)
    (url : String) : Option ContextRef × ContextCache :=
  match findContext mem s url with
  | none => (none, s)
  | some p =>
    (some p, { s with
      usedAt := Function.update s.usedAt p requestTime
      lookups := Function.update s.lookups p (s.lookups p + 1) })

/-- Deletion also takes the children of the context, unless they were downloaded. -/
def deletedBy (c : OrionldContext) (id : String) : Bool :=
  c.id == some id || id == c.url || (c.origin != .downloaded && c.parent == some id)

def releaseSlot (mem : Memory) (id : String) (slot : Option ContextRef) : Option ContextRef :=
  slot.filter fun p => !deletedBy (mem p) id

/-- Whether a context was found, the ids for mongocContextCacheDelete, and the cache without the
released slots. -/
structure DeleteResult where
  found : Bool
  dbDeleted : List (Option String)
  cache : ContextCache

def orionldContextCacheDelete (mem : Memory) (s : ContextCache) (id : String) : DeleteResult where
  found := ((s.array.take s.slotIx).reduceOption.any fun p => answersTo (mem p) id)
  dbDeleted := (((s.array.take s.slotIx).reduceOption.filter
    fun p => deletedBy (mem p) id).map fun p => (mem p).id)
  cache := { s with
    array := (s.array.take s.slotIx).map (releaseSlot mem id) ++ s.array.drop s.slotIx
    size := by
      have h := congrArg List.length (List.take_append_drop s.slotIx s.array)
      simp only [List.length_append] at h
      simp only [List.length_append, List.length_map]
      exact h.trans s.size }

inductive Call where
  | insert (contextP : Option ContextRef) (service : ServiceRoutine)
  | delete (id : String)
  | lookup (url : String) (requestTime : ℚ)

def next (mem : Memory) (s : ContextCache) : Call → ContextCache
  | .insert p service => orionldContextCacheInsert mem service s p
  | .delete id => (orionldContextCacheDelete mem s id).cache
  | .lookup url t => (orionldContextCacheLookup mem t s url).2

/-- The contexts inserted and not since deleted, told from the calls alone. -/
def nextLive (mem : Memory) (live : List ContextRef) : Call → List ContextRef
  | .insert (some p) service => if droppedInline (mem p) service then live else p :: live
  | .insert none _ => live
  | .delete id => live.filter fun p => !deletedBy (mem p) id
  | .lookup _ _ => live

structure History where
  cache : ContextCache
  live : List ContextRef

def start (slots : ℕ) : History := ⟨emptyCache slots, []⟩

def record (mem : Memory) (h : History) (c : Call) : History :=
  ⟨next mem h.cache c, nextLive mem h.live c⟩

/-- Slot index within the array, every live context still in its slot and found by url. -/
structure Complete (mem : Memory) (h : History) : Prop where
  slotIx_le : h.cache.slotIx ≤ h.cache.slots
  stored : ∀ p ∈ h.live, some p ∈ h.cache.array
  found : ∀ p ∈ h.live, ∀ t,
    (orionldContextCacheLookup mem t h.cache (mem p).url).1 = some p

def Full (s : ContextCache) : Prop := s.slots ≤ s.slotIx ∧ none ∉ s.array

instance (s : ContextCache) : Decidable (Full s) := inferInstanceAs (Decidable (_ ∧ _))

def OnInsert (mem : Memory) (P : History → ContextRef → Prop) (h : History) : Call → Prop
  | .insert (some p) service => droppedInline (mem p) service = false → P h p
  | _ => True

instance (mem : Memory) (P : History → ContextRef → Prop) [∀ h p, Decidable (P h p)]
    (h : History) (c : Call) : Decidable (OnInsert mem P h c) :=
  match c with
  | .insert (some p) service =>
    inferInstanceAs (Decidable (droppedInline (mem p) service = false → P h p))
  | .insert none _ => isTrue trivial
  | .delete _ => isTrue trivial
  | .lookup _ _ => isTrue trivial

def DistinctUrls (mem : Memory) : History → Call → Prop :=
  OnInsert mem fun h p => ∀ q ∈ h.live, (mem q).url ≠ (mem p).url

def DistinctIds (mem : Memory) : History → Call → Prop :=
  OnInsert mem fun h p => ∀ q ∈ h.live,
    (mem q).id ≠ some (mem p).url ∧ (mem p).id ≠ some (mem q).url

def RoomLeft (mem : Memory) : History → Call → Prop :=
  OnInsert mem fun h _ => ¬ Full h.cache

instance (mem : Memory) (h : History) (c : Call) : Decidable (DistinctUrls mem h c) :=
  inferInstanceAs (Decidable (OnInsert mem _ h c))
instance (mem : Memory) (h : History) (c : Call) : Decidable (DistinctIds mem h c) :=
  inferInstanceAs (Decidable (OnInsert mem _ h c))
instance (mem : Memory) (h : History) (c : Call) : Decidable (RoomLeft mem h c) :=
  inferInstanceAs (Decidable (OnInsert mem _ h c))

variable {mem : Memory} {service : ServiceRoutine} {p : ContextRef} {h : History}

theorem insert_dropped (hd : droppedInline (mem p) service = true) (s : ContextCache) :
    orionldContextCacheInsert mem service s (some p) = s := by
  simp [orionldContextCacheInsert, hd]

variable {s : ContextCache}

theorem insert_append (hd : droppedInline (mem p) service = false) (hs : s.slotIx < s.slots) :
    orionldContextCacheInsert mem service s (some p) =
      store { s with slotIx := s.slotIx + 1 } s.slotIx p := by
  have h : ¬ s.slots ≤ s.slotIx := by omega
  simp [orionldContextCacheInsert, hd, chooseSlot, h]

theorem insert_hole {ix : ℕ} (hd : droppedInline (mem p) service = false)
    (hs : s.slots ≤ s.slotIx) (hix : findHole s.array = some ix) (hlt : ix < s.slots) :
    orionldContextCacheInsert mem service s (some p) = store s ix p := by
  have h : ¬ s.slots ≤ ix := by omega
  simp [orionldContextCacheInsert, hd, chooseSlot, hs, hix, h]

theorem insert_grow (hd : droppedInline (mem p) service = false) (hf : Full s) :
    orionldContextCacheInsert mem service s (some p) = store (reallocate s) s.slotIx p := by
  have hh : findHole s.array = none := by
    rw [findHole, List.findIdx?_eq_none_iff]
    intro x hx
    cases x with
    | none => exact absurd hx hf.2
    | some q => rfl
  simp [orionldContextCacheInsert, hd, chooseSlot, hf.1, hh]

theorem hole_spec (hs : s.slots ≤ s.slotIx) (hf : ¬ Full s) :
    ∃ ix, findHole s.array = some ix ∧ ix < s.slots ∧ s.array[ix]? = some none := by
  have hn : none ∈ s.array := by
    by_contra hn
    exact hf ⟨hs, hn⟩
  obtain ⟨ix, hix⟩ : ∃ ix, findHole s.array = some ix := by
    rw [← Option.isSome_iff_exists, findHole, List.findIdx?_isSome]
    exact any_eq_true.mpr ⟨none, hn, rfl⟩
  obtain ⟨hlt, hnone, _⟩ := List.findIdx?_eq_some_iff_getElem.mp hix
  refine ⟨ix, hix, s.size ▸ hlt, ?_⟩
  rw [List.getElem?_eq_getElem hlt, Option.isNone_iff_eq_none.mp hnone]

/-- The array below the index is the abstract cache, and the rest of it is unused. -/
structure Represents (mem : Memory) (h : History) : Prop where
  slotIx_le : h.cache.slotIx ≤ h.cache.slots
  live_iff : ∀ p, p ∈ h.live ↔ some p ∈ h.cache.array.take h.cache.slotIx
  unused : ∀ slot ∈ h.cache.array.drop h.cache.slotIx, slot = none
  url_unique : ∀ p ∈ h.live, ∀ q ∈ h.live, (mem p).url = (mem q).url → p = q
  id_unique : ∀ p ∈ h.live, ∀ q ∈ h.live, (mem q).id = some (mem p).url → p = q

theorem start_represents (mem : Memory) (slots : ℕ) : Represents mem (start slots) := by
  constructor <;> simp [start, emptyCache]

theorem find_live (hr : Represents mem h) (hp : p ∈ h.live) :
    findContext mem h.cache (mem p).url = some p := by
  have only : ∀ q, some q ∈ h.cache.array.take h.cache.slotIx →
      answersTo (mem q) (mem p).url = true → q = p := by
    intro q hq ha
    have hq := (hr.live_iff q).mpr hq
    simp only [answersTo, Bool.or_eq_true, beq_iff_eq] at ha
    rcases ha with ha | ha
    · exact hr.url_unique q hq p hp ha.symm
    · exact (hr.id_unique p hp q hq ha).symm
  have hsome : (findContext mem h.cache (mem p).url).isSome := by
    rw [findContext, List.findSome?_isSome_iff]
    exact ⟨some p, (hr.live_iff p).mp hp, by simp [answersTo]⟩
  obtain ⟨q, hq⟩ := Option.isSome_iff_exists.mp hsome
  obtain ⟨slot, hslot, hf⟩ := exists_of_findSome?_eq_some hq
  obtain ⟨rfl, ha⟩ := Option.filter_eq_some_iff.mp hf
  rw [hq, only q hslot ha]

theorem find_missing (hr : Represents mem h) {url : String} (hu : ∀ q ∈ h.live, (mem q).url ≠ url)
    (hi : ∀ q ∈ h.live, (mem q).id ≠ some url) : findContext mem h.cache url = none := by
  rw [findContext, List.findSome?_eq_none_iff]
  intro slot hslot
  rw [Option.filter_eq_none_iff]
  intro q hq ha
  subst hq
  have hq := (hr.live_iff q).mpr hslot
  simp only [answersTo, Bool.or_eq_true, beq_iff_eq] at ha
  rcases ha with ha | ha
  · exact hu q hq ha.symm
  · exact hi q hq ha

@[simp] theorem lookup_fst (mem : Memory) (t : ℚ) (s : ContextCache) (url : String) :
    (orionldContextCacheLookup mem t s url).1 = findContext mem s url := by
  unfold orionldContextCacheLookup
  cases findContext mem s url <;> rfl

theorem lookup_array (mem : Memory) (t : ℚ) (s : ContextCache) (url : String) :
    (orionldContextCacheLookup mem t s url).2.array = s.array ∧
    (orionldContextCacheLookup mem t s url).2.slots = s.slots ∧
    (orionldContextCacheLookup mem t s url).2.slotIx = s.slotIx := by
  unfold orionldContextCacheLookup
  cases findContext mem s url <;> exact ⟨rfl, rfl, rfl⟩

theorem represents_complete (hr : Represents mem h) : Complete mem h := by
  refine ⟨hr.slotIx_le, ?_, ?_⟩
  · intro p hp
    exact mem_of_mem_take ((hr.live_iff p).mp hp)
  · intro p hp t
    rw [lookup_fst]
    exact find_live hr hp

theorem represents_insert (hr : Represents mem h) {cache : ContextCache}
    (hle : cache.slotIx ≤ cache.slots) (hmem : ∀ q, some q ∈ cache.array.take cache.slotIx ↔
    q = p ∨ some q ∈ h.cache.array.take h.cache.slotIx)
    (hrest : ∀ slot ∈ cache.array.drop cache.slotIx, slot = none)
    (hu : ∀ q ∈ h.live, (mem q).url ≠ (mem p).url)
    (hi : ∀ q ∈ h.live, (mem q).id ≠ some (mem p).url ∧ (mem p).id ≠ some (mem q).url) :
    Represents mem ⟨cache, p :: h.live⟩ := by
  refine ⟨hle, ?_, hrest, ?_, ?_⟩
  · intro q
    rw [hmem, ← hr.live_iff, mem_cons]
  · intro a ha b hb hab
    rcases mem_cons.mp ha with rfl | ha' <;> rcases mem_cons.mp hb with rfl | hb'
    · rfl
    · exact absurd hab.symm (hu b hb')
    · exact absurd hab (hu a ha')
    · exact hr.url_unique a ha' b hb' hab
  · intro a ha b hb hab
    rcases mem_cons.mp ha with rfl | ha' <;> rcases mem_cons.mp hb with rfl | hb'
    · rfl
    · exact absurd hab (hi b hb').1
    · exact absurd hab (hi a ha').2
    · exact hr.id_unique a ha' b hb' hab

theorem take_set_append {α : Type*} {l : List α} {i : ℕ} (hi : i < l.length) (x : α) :
    (l.set i x).take (i + 1) = l.take i ++ [x] := by
  rw [take_add_one, take_set_of_le le_rfl]
  simp [hi]

theorem insert_preserves (hr : Represents mem h) (hd : droppedInline (mem p) service = false)
    (hroom : ¬ Full h.cache) (hu : ∀ q ∈ h.live, (mem q).url ≠ (mem p).url)
    (hi : ∀ q ∈ h.live, (mem q).id ≠ some (mem p).url ∧ (mem p).id ≠ some (mem q).url) :
    Represents mem ⟨orionldContextCacheInsert mem service h.cache (some p), p :: h.live⟩ := by
  have hsize := h.cache.size
  by_cases hs : h.cache.slotIx < h.cache.slots
  · rw [insert_append hd hs]
    refine represents_insert hr (by simp only [store]; omega) ?_ ?_ hu hi
    · intro q
      simp only [store]
      rw [take_set_append (by omega)]
      simp [or_comm]
    · intro slot hslot
      simp only [store] at hslot
      rw [drop_set_of_lt (by omega)] at hslot
      rw [← drop_drop] at hslot
      exact hr.unused slot (mem_of_mem_drop hslot)
  · have hs : h.cache.slots ≤ h.cache.slotIx := by omega
    obtain ⟨ix, hix, hlt, hnone⟩ := hole_spec hs hroom
    rw [insert_hole hd hs hix hlt]
    have htake : ∀ l : List (Option ContextRef), l.length = h.cache.slots →
        l.take h.cache.slotIx = l := by
      intro l hl
      exact take_of_length_le (by omega)
    refine represents_insert hr (by simpa [store] using hr.slotIx_le) ?_ ?_ hu hi
    · intro q
      simp only [store]
      rw [htake _ (by simpa using hsize), htake _ hsize]
      constructor
      · intro hq
        rcases mem_or_eq_of_mem_set hq with hq | hq
        · exact .inr hq
        · exact .inl (Option.some.inj hq)
      · rintro (rfl | hq)
        · exact mem_set (by omega) _
        · obtain ⟨k, hk, hget⟩ := mem_iff_getElem.mp hq
          have hne : ix ≠ k := by
            rintro rfl
            rw [List.getElem?_eq_getElem hk, hget] at hnone
            simp at hnone
          exact mem_iff_getElem.mpr ⟨k, by simpa using hk,
            by rw [getElem_set_ne hne]; exact hget⟩
    · intro slot hslot
      simp only [store] at hslot
      rw [drop_of_length_le (by simp; omega)] at hslot
      simp at hslot

theorem delete_preserves (hr : Represents mem h) (id : String) :
    Represents mem ⟨(orionldContextCacheDelete mem h.cache id).cache,
      h.live.filter fun p => !deletedBy (mem p) id⟩ := by
  have hlen : (h.cache.array.take h.cache.slotIx).length = h.cache.slotIx := by
    have := hr.slotIx_le
    have := h.cache.size
    simp; omega
  have htake : (orionldContextCacheDelete mem h.cache id).cache.array.take h.cache.slotIx =
      (h.cache.array.take h.cache.slotIx).map (releaseSlot mem id) := by
    simp only [orionldContextCacheDelete]
    rw [take_append_of_le_length (by rw [length_map, hlen])]
    exact take_of_length_le (by rw [length_map, hlen])
  refine ⟨hr.slotIx_le, ?_, ?_, ?_, ?_⟩
  · intro p
    change _ ↔ some p ∈ List.take h.cache.slotIx _
    rw [htake, mem_filter, hr.live_iff, mem_map]
    constructor
    · rintro ⟨hp, hk⟩
      exact ⟨some p, hp, by simpa [releaseSlot] using hk⟩
    · rintro ⟨slot, hslot, hk⟩
      obtain ⟨rfl, hkeep⟩ := Option.filter_eq_some_iff.mp hk
      exact ⟨hslot, hkeep⟩
  · intro slot hslot
    apply hr.unused slot
    simp only [orionldContextCacheDelete] at hslot
    rw [drop_append_of_le_length (by rw [length_map, hlen]),
      drop_of_length_le (by rw [length_map, hlen])] at hslot
    simpa using hslot
  · intro p hp q hq
    exact hr.url_unique p (mem_of_mem_filter hp) q (mem_of_mem_filter hq)
  · intro p hp q hq
    exact hr.id_unique p (mem_of_mem_filter hp) q (mem_of_mem_filter hq)

theorem lookup_preserves (hr : Represents mem h) (url : String) (t : ℚ) :
    Represents mem ⟨(orionldContextCacheLookup mem t h.cache url).2, h.live⟩ := by
  obtain ⟨ha, hs, hi⟩ := lookup_array mem t h.cache url
  refine ⟨?_, ?_, ?_, hr.url_unique, hr.id_unique⟩
  · simpa [hs, hi] using hr.slotIx_le
  · simpa [ha, hi] using hr.live_iff
  · simpa [ha, hi] using hr.unused

theorem record_preserves (hr : Represents mem h) {c : Call} (hu : DistinctUrls mem h c)
    (hi : DistinctIds mem h c) (hroom : RoomLeft mem h c) : Represents mem (record mem h c) := by
  cases c with
  | insert contextP service =>
    cases contextP with
    | none => exact hr
    | some p =>
      cases hd : droppedInline (mem p) service with
      | true => simpa [record, next, nextLive, hd, insert_dropped hd] using hr
      | false =>
        simpa [record, next, nextLive, hd] using insert_preserves hr hd (hroom hd) (hu hd) (hi hd)
  | delete id => exact delete_preserves hr id
  | lookup url t => exact lookup_preserves hr url t

/-- Growing leaves the index where it was, so the lookup stops right before the new context. -/
theorem grow_hides (hr : Represents mem h) (hd : droppedInline (mem p) service = false)
    (hf : Full h.cache) (hu : ∀ q ∈ h.live, (mem q).url ≠ (mem p).url)
    (hi : ∀ q ∈ h.live, (mem q).id ≠ some (mem p).url) :
    findContext mem (orionldContextCacheInsert mem service h.cache (some p)) (mem p).url =
      none := by
  have hsize := h.cache.size
  have hle := hr.slotIx_le
  rw [insert_grow hd hf, ← find_missing hr hu hi]
  simp only [findContext, store, reallocate]
  rw [take_set_of_le le_rfl, take_append_of_le_length (by omega)]

theorem record_loses (hr : Represents mem h) {c : Call} (hu : DistinctUrls mem h c)
    (hi : DistinctIds mem h c) (hroom : ¬ RoomLeft mem h c) : ¬ Complete mem (record mem h c) := by
  intro hc
  cases c with
  | insert contextP service =>
    cases contextP with
    | none => exact hroom trivial
    | some p =>
      simp only [RoomLeft, OnInsert, Classical.not_imp, not_not] at hroom
      obtain ⟨hd, hf⟩ := hroom
      have hfound := hc.found p (by simp [record, nextLive, hd]) 0
      rw [lookup_fst, record, next] at hfound
      rw [grow_hides hr hd hf (hu hd) (fun q hq => (hi hd q hq).1)] at hfound
      cases hfound
  | delete id => exact hroom trivial
  | lookup url t => exact hroom trivial

/-- The cache is complete all along a run if and only if no insert meets an array whose slots are
all taken. -/
theorem cache_complete_iff_never_grows (mem : Memory) (slots : ℕ) (calls : List Call)
    (hu : Guarded (record mem) (DistinctUrls mem) (start slots) calls)
    (hi : Guarded (record mem) (DistinctIds mem) (start slots) calls) :
    Throughout (record mem) (Complete mem) (start slots) calls ↔
      Guarded (record mem) (RoomLeft mem) (start slots) calls :=
  throughout_iff_guarded (start_represents mem slots) (fun _ => represents_complete)
    (fun _ _ hr hdom hok => record_preserves hr hdom.1 hdom.2 hok)
    (fun _ _ hr hdom hok => record_loses hr hdom.1 hdom.2 hok)
    (hu.and hi)

def numberedContexts : Memory := fun p =>
  ⟨none, String.ofList ("http://context/".toList ++ List.replicate p 'x'), none, .downloaded⟩

def insertAll (n : ℕ) : List Call :=
  (List.range n).map fun p => .insert (some p) .otherRoutine

theorem cache_complete_reusing_hole :
    Throughout (record numberedContexts) (Complete numberedContexts) (start 2)
      (insertAll 2 ++ [.delete (numberedContexts 0).url, .insert (some 2) .otherRoutine]) :=
  (cache_complete_iff_never_grows _ _ _ (by decide +kernel) (by decide +kernel)).mpr
    (by decide +kernel)

theorem cache_growth_loses_context :
    ¬ ∀ (mem : Memory) (slots : ℕ) (calls : List Call), 1 ≤ slots →
      Guarded (record mem) (DistinctUrls mem) (start slots) calls →
      Throughout (record mem) (Complete mem) (start slots) calls := by
  intro h
  have hc := (h numberedContexts 2 (insertAll 3) (by decide) (by decide +kernel)).last
  have hfound := hc.found 2 (by decide +kernel) 0
  have hlost : findContext numberedContexts
      (run (record numberedContexts) (start 2) (insertAll 3)).cache
      (numberedContexts 2).url = none := by decide +kernel
  cases hfound

end OrionldContextCache
