import OrionLd.ContextCacheSlots
import OrionLd.KjTree

/-! The listing of the context cache. It reads the array the cache was declared with, and goes wrong
once the cache has grown into another one: until then it has the contexts a lookup finds by their
urls, if no context answers to the url of a later one. -/
namespace OrionldContextCacheGet

open OrionldContextCache ContextCacheSlots StepSystem List Option KjTree

inductive Content where
  | hash (nameHashTable : List (List (Text × Text)))
  | array (urls : List Text)

structure Contexts where
  mem : Memory
  createdAt : ContextRef → ℚ
  content : ContextRef → Content
  orionldCoreContextP : ContextRef
  numberToDate : ℚ → Text
  requestTime : ℚ

structure State where
  cache : ContextCache
  orionldContextCacheArray : List (Option ContextRef)
  /-- Whether orionldContextCache points to another array. -/
  moved : Bool

def start (slots : ℕ) : State := ⟨emptyCache slots, (emptyCache slots).array, false⟩

def record (mem : Memory) (s : State) (c : Call) : State :=
  let cache := next mem s.cache c
  let moved := s.moved || s.cache.slots != cache.slots
  ⟨cache, if moved then s.orionldContextCacheArray else cache.array, moved⟩

def originName : OrionldContextOrigin → String
  | .unknownOrigin => "Unknown"
  | .fromInline => "Inline"
  | .downloaded => "Downloaded"
  | .fileCached => "FileCached"
  | .forNotifications => "Notifications"
  | .forForwarding => "Forwarding"
  | .userCreated => "UserCreated"

def typeName : Content → String
  | .hash _ => "hash-table"
  | .array _ => "array"

/-- No more than five items of the hash table. -/
def contentMember : Content → Text × KjNode
  | .hash nameHashTable =>
    ("hash-table".toList, .object ((nameHashTable.flatten.take 5).map (Prod.map id .string)))
  | .array urls => ("URLs".toList, .array (urls.map .string))

def detailsOf (v : Contexts) (cache : ContextCache) (p : ContextRef) : Members :=
  [("url".toList, .string (v.mem p).url.toList),
    ("id".toList, .string ((v.mem p).id.getD "None").toList),
    ("type".toList, .string (typeName (v.content p)).toList),
    ("origin".toList, .string (originName (v.mem p).origin).toList),
    ("createdAt".toList, .string (v.numberToDate (v.createdAt p)))] ++
  (if p = v.orionldCoreContextP then []
    else [("lastUse".toList, .string (v.numberToDate (cache.usedAt p))),
      ("lookups".toList, .int (cache.lookups p))]) ++
  ((v.mem p).parent.map fun parent => ("parent".toList, .string parent.toList)).toList ++
  [contentMember (v.content p)]

def entry (v : Contexts) (cache : ContextCache) (details : Bool) (p : ContextRef) : KjNode :=
  if details then .object (detailsOf v cache p) else .string (v.mem p).url.toList

/-- None if the loop leaves the array. -/
def orionldContextCacheGet (v : Contexts) (s : State) (details : Bool) : Option (List KjNode) :=
  if s.cache.slotIx ≤ s.orionldContextCacheArray.length then
    some ((s.orionldContextCacheArray.take s.cache.slotIx).filterMap fun slot =>
      slot.map (entry v s.cache details))
  else none

def listedUrl : KjNode → Option Text
  | .string url => some url
  | node => match kjLookup node "url" with
    | some (.string url) => some url
    | _ => none

/-- The listing has the urls of the contexts that are found by url, each once. -/
def ListsCache (v : Contexts) (s : State) : Prop :=
  ∀ details, ∃ urls : List String, (orionldContextCacheGet v s details).map (List.map listedUrl) =
      some (urls.map fun url => some url.toList) ∧ urls.Nodup ∧
    ∀ url, url ∈ urls ↔ ∃ p, (orionldContextCacheLookup v.mem v.requestTime s.cache url).1 =
        some p ∧
      (v.mem p).url = url

/-- No context in an earlier slot answers to this url, nor this one to a url of a later slot. -/
def Fits (mem : Memory) (s : ContextCache) (p : ContextRef) : Prop :=
  ∀ ix q, Holds s ix q →
    (ix < (chooseSlot s).1 → answersTo (mem q) (mem p).url = false) ∧
      ((chooseSlot s).1 < ix → answersTo (mem p) (mem q).url = false)

/-- After the cache has grown it does not change any more, and what fills a slot before that fits
there. -/
def Keeps (mem : Memory) (s : State) : Call → Prop
  | .insert (some p) service => droppedInline (mem p) service = false →
    s.moved = false ∧ (¬ Full s.cache → Fits mem s.cache p)
  | .delete id => s.moved = true → ∀ ix q, Holds s.cache ix q → deletedBy (mem q) id = false
  | _ => True

def Apart (mem : Memory) (s : ContextCache) : Prop :=
  ∀ i j p q, i < j → Holds s i p → Holds s j q → answersTo (mem p) (mem q).url = false

structure Kept (mem : Memory) (s : State) : Prop where
  slotIx_le : s.cache.slotIx ≤ s.cache.slots
  apart : Apart mem s.cache
  unmoved : s.moved = false → s.orionldContextCacheArray = s.cache.array
  grown : s.moved = true → s.cache.slotIx = s.orionldContextCacheArray.length ∧
    s.cache.slotIx < s.cache.slots ∧
      s.cache.array.take s.cache.slotIx = s.orionldContextCacheArray

variable {v : Contexts} {mem : Memory} {s : State} {p q : ContextRef}

def listedUrls (mem : Memory) (slots : List (Option ContextRef)) : List String :=
  slots.filterMap fun slot => slot.map fun p => (mem p).url

theorem listedUrl_entry (cache : ContextCache) (details : Bool) (p : ContextRef) :
    listedUrl (entry v cache details p) = some (v.mem p).url.toList := by
  cases details <;> rfl

theorem get_urls (details : Bool) (h : s.cache.slotIx ≤ s.orionldContextCacheArray.length) :
    (orionldContextCacheGet v s details).map (List.map listedUrl) =
      some ((listedUrls v.mem (s.orionldContextCacheArray.take s.cache.slotIx)).map
        fun url => some url.toList) := by
  unfold orionldContextCacheGet listedUrls
  rw [if_pos h, Option.map_some, List.map_filterMap, List.map_filterMap]
  simp only [Option.map_map, Function.comp_def, listedUrl_entry]

theorem lists_iff : ListsCache v s ↔ s.cache.slotIx ≤ s.orionldContextCacheArray.length ∧
    (listedUrls v.mem (s.orionldContextCacheArray.take s.cache.slotIx)).Nodup ∧
    ∀ url, url ∈ listedUrls v.mem (s.orionldContextCacheArray.take s.cache.slotIx) ↔
      ∃ p, findContext v.mem s.cache url = some p ∧ (v.mem p).url = url := by
  unfold ListsCache
  simp only [lookup_fst]
  constructor
  · intro h
    obtain ⟨urls, hget, hnodup, hfound⟩ := h false
    by_cases hlen : s.cache.slotIx ≤ s.orionldContextCacheArray.length
    · rw [get_urls false hlen, some_inj] at hget
      rw [(map_injective_iff.mpr ((some_injective _).comp fun _ _ => String.toList_injective)) hget]
      exact ⟨hlen, hnodup, hfound⟩
    unfold orionldContextCacheGet at hget
    rw [if_neg hlen] at hget
    cases hget
  · rintro ⟨hlen, hlisted⟩ details
    exact ⟨_, get_urls details hlen, hlisted⟩

theorem mem_listedUrls {slots : List (Option ContextRef)} {url : String} :
    url ∈ listedUrls mem slots ↔ ∃ (ix : ℕ) (p : ContextRef), slots[ix]? = some (some p) ∧
      (mem p).url = url := by
  unfold listedUrls
  rw [mem_filterMap]
  constructor
  · rintro ⟨slot, hslot, hurl⟩
    obtain ⟨p, rfl, hurl⟩ := map_eq_some_iff.mp hurl
    obtain ⟨ix, hix⟩ := mem_iff_getElem?.mp hslot
    exact ⟨ix, p, hix, some.inj hurl⟩
  · rintro ⟨ix, p, hix, rfl⟩
    exact ⟨some p, mem_of_getElem? hix, rfl⟩

theorem nodup_listedUrls {s : ContextCache} : (listedUrls mem (s.array.take s.slotIx)).Nodup ↔
    ∀ i j p q, i < j → Holds s i p → Holds s j q → (mem p).url ≠ (mem q).url := by
  unfold listedUrls List.Nodup
  rw [pairwise_filterMap, pairwise_iff_getElem]
  simp only [map_eq_some_iff]
  constructor
  · intro h i j p q hij hp hq
    obtain ⟨hi, hp⟩ := List.getElem?_eq_some_iff.mp (holds_iff.mp hp)
    obtain ⟨hj, hq⟩ := List.getElem?_eq_some_iff.mp (holds_iff.mp hq)
    exact h i j hi hj hij _ ⟨p, hp, rfl⟩ _ ⟨q, hq, rfl⟩
  · rintro h i j hi hj hij _ ⟨p, hp, rfl⟩ _ ⟨q, hq, rfl⟩
    exact h i j p q hij (holds_iff.mpr (List.getElem?_eq_some_iff.mpr ⟨hi, hp⟩))
      (holds_iff.mpr (List.getElem?_eq_some_iff.mpr ⟨hj, hq⟩))

theorem lists_iff_apart (hlen : s.cache.slotIx ≤ s.orionldContextCacheArray.length)
    (hsame : s.orionldContextCacheArray.take s.cache.slotIx =
      s.cache.array.take s.cache.slotIx) : ListsCache v s ↔ Apart v.mem s.cache := by
  rw [lists_iff, and_iff_right hlen, hsame, nodup_listedUrls]
  simp only [mem_listedUrls, ← holds_iff]
  constructor
  · rintro ⟨hnodup, hfound⟩ i j p q hij hp hq
    apply Bool.eq_false_iff.mpr
    intro hanswer
    obtain ⟨r, hr, hurl⟩ := (hfound (v.mem q).url).mp ⟨j, q, hq, rfl⟩
    obtain ⟨k, hk, -, hfirst⟩ := find_some_iff.mp hr
    have hle : k ≤ i := by
      by_contra hlt
      rw [hfirst i (Nat.lt_of_not_le hlt) p hp] at hanswer
      cases hanswer
    exact hnodup k j r q (hle.trans_lt hij) hk hq hurl
  · intro hapart
    refine ⟨?_, ?_⟩
    · intro i j p q hij hp hq hurl
      have hno := hapart i j p q hij hp hq
      rw [← hurl, answers_url] at hno
      cases hno
    · intro url
      constructor
      · rintro ⟨ix, p, hp, rfl⟩
        refine ⟨p, find_some_iff.mpr ⟨ix, hp, answers_url _, ?_⟩, rfl⟩
        intro j hj q hq
        exact hapart j ix q p hj hq hp
      · rintro ⟨p, hp, hurl⟩
        obtain ⟨ix, hix, -⟩ := find_some_iff.mp hp
        exact ⟨ix, p, hix, hurl⟩

theorem Kept.listed (h : Kept mem s) : s.cache.slotIx ≤ s.orionldContextCacheArray.length ∧
    s.orionldContextCacheArray.take s.cache.slotIx = s.cache.array.take s.cache.slotIx := by
  cases hmoved : s.moved with
  | false =>
    rw [h.unmoved hmoved, s.cache.size]
    exact ⟨h.slotIx_le, rfl⟩
  | true =>
    obtain ⟨hix, -, htake⟩ := h.grown hmoved
    rw [htake]
    exact ⟨hix.le, take_of_length_le hix.ge⟩

theorem Kept.lists (h : Kept v.mem s) : ListsCache v s :=
  (lists_iff_apart h.listed.1 h.listed.2).mpr h.apart

theorem start_kept (slots : ℕ) : Kept mem (start slots) := by
  refine ⟨Nat.zero_le _, ?_, fun _ => rfl, nofun⟩
  rintro i j p q hij ⟨hi, -⟩
  exact absurd hi (Nat.not_lt_zero i)

variable {service : ServiceRoutine}

theorem record_inPlace (c : Call) (hslots : (next mem s.cache c).slots = s.cache.slots) :
    record mem s c = ⟨next mem s.cache c,
      if s.moved then s.orionldContextCacheArray else (next mem s.cache c).array, s.moved⟩ := by
  unfold record
  dsimp only
  rw [hslots, bne_self_eq_false, Bool.or_false]

theorem kept_inPlace (c : Call) (h : Kept mem s)
    (hslots : (next mem s.cache c).slots = s.cache.slots)
    (hle : (next mem s.cache c).slotIx ≤ s.cache.slots) (hapart : Apart mem (next mem s.cache c))
    (hmoved : s.moved = true → (next mem s.cache c).slotIx = s.cache.slotIx ∧
      (next mem s.cache c).array.take s.cache.slotIx = s.cache.array.take s.cache.slotIx) :
    Kept mem (record mem s c) := by
  rw [record_inPlace c hslots]
  refine ⟨hle.trans hslots.ge, hapart, ?_, ?_⟩
  · intro hunmoved
    apply if_neg
    exact Bool.eq_false_iff.mp hunmoved
  · intro hgrown
    obtain ⟨hix, htake⟩ := hmoved hgrown
    obtain ⟨hlen, hlt, hsame⟩ := h.grown hgrown
    rw [if_pos hgrown, hix, hslots, htake]
    exact ⟨hlen, hlt, hsame⟩

theorem insert_slots (hkept : droppedInline (mem p) service = false) (hroom : ¬ Full s.cache) :
    (orionldContextCacheInsert mem service s.cache (some p)).slots = s.cache.slots := by
  by_cases hs : s.cache.slots ≤ s.cache.slotIx
  · obtain ⟨ix, hix, hlt, -⟩ := hole_spec hs hroom
    rw [insert_hole hkept hs hix hlt]
    rfl
  · rw [insert_append hkept (Nat.lt_of_not_le hs)]
    rfl

theorem insert_slotIx_le (hle : s.cache.slotIx ≤ s.cache.slots)
    (hkept : droppedInline (mem p) service = false) (hroom : ¬ Full s.cache) :
    (orionldContextCacheInsert mem service s.cache (some p)).slotIx ≤ s.cache.slots := by
  by_cases hs : s.cache.slots ≤ s.cache.slotIx
  · obtain ⟨ix, hix, hlt, -⟩ := hole_spec hs hroom
    rw [insert_hole hkept hs hix hlt]
    exact hle
  · rw [insert_append hkept (Nat.lt_of_not_le hs)]
    exact Nat.lt_of_not_le hs

theorem apart_insert (hapart : Apart mem s.cache)
    (hkept : droppedInline (mem p) service = false) (hroom : ¬ Full s.cache) :
    Apart mem (orionldContextCacheInsert mem service s.cache (some p)) ↔ Fits mem s.cache p := by
  unfold Apart
  simp only [holds_insert hkept hroom]
  constructor
  · intro h ix q hq
    exact ⟨fun hlt => h ix _ q p hlt (.inr hq) (.inl ⟨rfl, rfl⟩),
      fun hlt => h _ ix p q hlt (.inl ⟨rfl, rfl⟩) (.inr hq)⟩
  · rintro hfits i j a b hij (⟨rfl, rfl⟩ | ha) (⟨rfl, rfl⟩ | hb)
    · exact absurd hij (lt_irrefl _)
    · exact (hfits j b hb).2 hij
    · exact (hfits i a ha).1 hij
    · exact hapart i j a b hij ha hb

/-- The insertion that makes the cache grow: no loop sees what it inserts. -/
theorem record_grows (h : Kept mem s) (hmoved : s.moved = false)
    (hkept : droppedInline (mem p) service = false) (hfull : Full s.cache) :
    Kept mem (record mem s (.insert (some p) service)) := by
  have hix : s.cache.slotIx = s.cache.slots := le_antisymm h.slotIx_le hfull.1
  have hrecord : record mem s (.insert (some p) service) =
      ⟨store (reallocate s.cache) s.cache.slotIx p, s.orionldContextCacheArray, true⟩ := by
    have hchanged : (s.cache.slots != s.cache.slots + slotsToAdd) = true := by
      rw [bne_iff_ne]
      exact Nat.ne_of_lt (Nat.lt_add_of_pos_right (by decide))
    unfold record OrionldContextCache.next
    dsimp only
    rw [insert_grow hkept hfull, hmoved, Bool.false_or]
    change State.mk _ (if (s.cache.slots != s.cache.slots + slotsToAdd) = true then _ else _)
      (s.cache.slots != s.cache.slots + slotsToAdd) = _
    rw [hchanged, if_pos rfl]
  have hapart : Apart mem (store (reallocate s.cache) s.cache.slotIx p) := by
    intro i j a b hij ha hb
    rw [← insert_grow hkept hfull, holds_grown hkept hfull] at ha hb
    exact h.apart i j a b hij ha hb
  rw [hrecord]
  refine ⟨h.slotIx_le.trans (Nat.le_add_right _ _), hapart, nofun, fun _ => ?_⟩
  rw [h.unmoved hmoved]
  refine ⟨hix.trans s.cache.size.symm, hix.trans_lt (Nat.lt_add_of_pos_right (by decide)), ?_⟩
  change ((s.cache.array ++ List.replicate slotsToAdd none).set s.cache.slotIx (some p)).take
    s.cache.slotIx = _
  rw [take_set_of_le le_rfl, hix, ← s.cache.size, take_left]

theorem delete_take (id : String) (h : ∀ ix q, Holds s.cache ix q → deletedBy (mem q) id = false) :
    (orionldContextCacheDelete mem s.cache id).cache.array.take s.cache.slotIx =
      s.cache.array.take s.cache.slotIx := by
  have hkept : (s.cache.array.take s.cache.slotIx).map (releaseSlot mem id) =
      s.cache.array.take s.cache.slotIx := by
    refine (map_congr_left ?_).trans (map_id _)
    intro slot hslot
    cases slot with
    | none => rfl
    | some q =>
      obtain ⟨ix, hix⟩ := mem_iff_getElem?.mp hslot
      unfold releaseSlot
      rw [filter_some, h ix q (holds_iff.mpr hix)]
      rfl
  unfold orionldContextCacheDelete
  dsimp only
  rw [hkept, take_append_drop]

theorem record_keeps (h : Kept mem s) (c : Call) (hok : Keeps mem s c) :
    Kept mem (record mem s c) := by
  cases c with
  | insert contextP service =>
    cases contextP with
    | none => exact kept_inPlace _ h rfl h.slotIx_le h.apart fun _ => ⟨rfl, rfl⟩
    | some p =>
      cases hkept : droppedInline (mem p) service with
      | true =>
        have hnext : next mem s.cache (.insert (some p) service) = s.cache := insert_dropped hkept _
        apply kept_inPlace _ h <;> rw [hnext]
        · exact h.slotIx_le
        · exact h.apart
        · exact fun _ => ⟨rfl, rfl⟩
      | false =>
        obtain ⟨hmoved, hfits⟩ := hok hkept
        by_cases hfull : Full s.cache
        · exact record_grows h hmoved hkept hfull
        apply kept_inPlace (.insert (some p) service) h (insert_slots hkept hfull)
          (insert_slotIx_le h.slotIx_le hkept hfull)
          ((apart_insert h.apart hkept hfull).mpr (hfits hfull))
        intro hgrown
        rw [hmoved] at hgrown
        cases hgrown
  | delete id =>
    apply kept_inPlace (.delete id) h rfl h.slotIx_le
    · intro i j p q hij hp hq
      exact h.apart i j p q hij ((holds_delete id).mp hp).1 ((holds_delete id).mp hq).1
    · intro hmoved
      exact ⟨rfl, delete_take id (hok hmoved)⟩
  | lookup url t =>
    obtain ⟨harray, hslots, hix⟩ := lookup_array mem t s.cache url
    apply kept_inPlace (.lookup url t) h hslots (hix.le.trans h.slotIx_le)
    · unfold Apart Holds OrionldContextCache.next
      rw [harray, hix]
      exact h.apart
    · intro _
      rw [OrionldContextCache.next, harray]
      exact ⟨hix, rfl⟩

theorem record_loses (h : Kept v.mem s) (c : Call) (hok : ¬ Keeps v.mem s c) :
    ¬ ListsCache v (record v.mem s c) := by
  intro hlists
  cases c with
  | insert contextP service =>
    cases contextP with
    | none => exact hok trivial
    | some p =>
      obtain ⟨hkept, hbad⟩ := Classical.not_imp.mp hok
      cases hmoved : s.moved with
      | true =>
        -- the first slot behind the old array
        obtain ⟨hlen, hlt, -⟩ := h.grown hmoved
        have hroom : ¬ Full s.cache := fun hfull => absurd hlt (Nat.not_lt.mpr hfull.1)
        have hle := (lists_iff.mp hlists).1
        rw [record_inPlace (.insert (some p) service) (insert_slots hkept hroom),
          OrionldContextCache.next, insert_append hkept hlt, hmoved] at hle
        change s.cache.slotIx + 1 ≤ s.orionldContextCacheArray.length at hle
        omega
      | false =>
        obtain ⟨hroom, hfits⟩ := Classical.not_imp.mp fun hfits => hbad ⟨hmoved, hfits⟩
        apply hfits
        rw [← apart_insert h.apart hkept hroom]
        rw [record_inPlace (.insert (some p) service) (insert_slots hkept hroom), hmoved] at hlists
        refine (lists_iff_apart ?_ rfl).mp hlists
        change _ ≤ (OrionldContextCache.next v.mem s.cache (.insert (some p) service)).array.length
        rw [ContextCache.size, OrionldContextCache.next, insert_slots hkept hroom]
        exact insert_slotIx_le h.slotIx_le hkept hroom
  | delete id =>
    -- the url of the released context stays in the listing
    obtain ⟨hmoved, hbad⟩ := Classical.not_imp.mp hok
    obtain ⟨ix, hbad⟩ := not_forall.mp hbad
    obtain ⟨q, hbad⟩ := not_forall.mp hbad
    obtain ⟨hq, hdeleted⟩ := Classical.not_imp.mp hbad
    have hlisted : (v.mem q).url ∈
        listedUrls v.mem (s.orionldContextCacheArray.take s.cache.slotIx) := by
      refine mem_listedUrls.mpr ⟨ix, q, ?_, rfl⟩
      rw [h.listed.2]
      exact holds_iff.mp hq
    rw [record_inPlace (.delete id) rfl, hmoved, if_pos rfl] at hlists
    obtain ⟨r, hr, hurl⟩ := ((lists_iff.mp hlists).2.2 (v.mem q).url).mp hlisted
    obtain ⟨j, hj, -⟩ := find_some_iff.mp hr
    obtain ⟨hj, hstays⟩ := (holds_delete id).mp hj
    rcases lt_trichotomy j ix with hlt | rfl | hlt
    · have hno := h.apart j ix r q hlt hj hq
      rw [← hurl, answers_url] at hno
      cases hno
    · rw [hj.unique hq] at hstays
      exact hdeleted hstays
    have hno := h.apart ix j q r hlt hq hj
    rw [hurl, answers_url] at hno
    cases hno
  | lookup url t => exact hok trivial

/-- The listing has the contexts that are found by url, each once, if and only if every insertion
fits the order of the slots and nothing changes after the cache has grown. -/
theorem listing_is_cache_iff (v : Contexts) (slots : ℕ) (calls : List Call) :
    Throughout (record v.mem) (ListsCache v) (start slots) calls ↔
      Guarded (record v.mem) (Keeps v.mem) (start slots) calls :=
  throughout_iff_guarded (start_kept slots) (fun _ h => h.lists)
    (fun _ c h _ hok => record_keeps h c hok) (fun _ c h _ hok => record_loses h c hok)
    guarded_true

def numbered : Contexts where
  mem := numberedContexts
  createdAt := fun _ => 0
  content := fun _ => .hash []
  orionldCoreContextP := 0
  numberToDate := fun _ => []
  requestTime := 0

theorem grown_cache_not_listed : ¬ ∀ (v : Contexts) (calls : List Call),
    Throughout (record v.mem) (ListsCache v) (start 100) calls := by
  intro h
  have hlists := (h numbered (insertAll 102)).last
  exact absurd (lists_iff.mp hlists).1 (by decide +kernel)

end OrionldContextCacheGet
