import OrionLd.KeyedSum
import OrionLd.SubCacheThrottling

/-! The counts of notifications. An update counts in the cache, a synchronization puts the
counts into the documents, which it finds by their identifiers as ObjectIds. -/
namespace SubCacheCounts

open StepSystem KeyedSum SubCacheThrottling List Option

/-- The _id of a subscription is an ObjectId or a string. -/
structure Stored (κ : Type*) where
  isOid : Bool
  rest : κ

variable {κ : Type*}

def CachedSubSaved.Pending (cssP : CachedSubSaved) : Prop :=
  0 < cssP.count ∨ 0 < cssP.lastNotificationTime ∨ 0 < cssP.lastFailure ∨ 0 < cssP.lastSuccess

instance (cssP : CachedSubSaved) : Decidable (CachedSubSaved.Pending cssP) :=
  inferInstanceAs (Decidable (_ ∨ _ ∨ _ ∨ _))

/-- The driver's OID of a text is given as the text it is written as, none where it throws. -/
def mongoSubCountersUpdate (oid : String → Option String) (db : Database)
    (cSub : CachedSubscription (Stored κ)) (cssP : CachedSubSaved)
    (csubs : List (Csub (Stored κ))) : Option (List (Csub (Stored κ))) :=
  if cSub.subscriptionId = "" then some csubs
  else if CachedSubSaved.Pending cssP then
    (oid cSub.subscriptionId).map fun _id => csubs.map fun sub =>
      if sub.tenant = cSub.tenant ∧ sub.rest.isOid ∧ sub.id = _id ∧ db.writable cSub.key then
        SubCacheThrottling.mongoSubCountersUpdate cssP sub
      else sub
  else some csubs

variable {cssP cssP' : CachedSubSaved} {now : Option (Broker (Stored κ))}

theorem mongoSubCountersUpdate_idle (h : ¬ CachedSubSaved.Pending cssP) (sub : Csub (Stored κ)) :
    SubCacheThrottling.mongoSubCountersUpdate cssP sub = sub := by
  unfold CachedSubSaved.Pending at h
  simp only [not_or, not_lt] at h
  obtain ⟨hcount, hlast, hfailure, hsuccess⟩ := h
  unfold SubCacheThrottling.mongoSubCountersUpdate laterTime
  rw [if_neg (not_lt.mpr hcount), if_neg fun h => not_lt.mpr hlast h.1,
    if_neg fun h => not_lt.mpr hfailure h.1, if_neg fun h => not_lt.mpr hsuccess h.1]

def flushItems (oid : String → Option String) (db : Database) (savedSubV : SavedSubV) :
    List (CachedSubscription (Stored κ)) → List (Csub (Stored κ)) →
      Option (List (Csub (Stored κ)))
  | [], csubs => some csubs
  | cSub :: cache, csubs =>
    match savedSubV cSub.subscriptionId with
    | none => flushItems oid db savedSubV cache csubs
    | some cssP =>
      (mongoSubCountersUpdate oid db cSub cssP csubs).bind (flushItems oid db savedSubV cache)

def subCacheSync (env : Options (Stored κ)) (oid : String → Option String)
    (s : Broker (Stored κ)) (db : Database) : Option (Broker (Stored κ)) :=
  let savedSubV := saveItems s.subCache fun _ => none
  let cache := subCacheRefresh env db s.csubs
  let savedSubV := compareItems cache savedSubV
  (flushItems oid db savedSubV cache s.csubs).map fun csubs =>
    { s with subCache := cache.map (keepOutcome savedSubV), csubs := csubs }

/-- Nothing catches what the driver throws in the thread of the synchronization, so that the
broker is gone. -/
def step (env : Options (Stored κ)) (oid : String → Option String) :
    Option (Broker (Stored κ)) → Event (Stored κ) → Option (Broker (Stored κ))
  | none, _ => none
  | some s, .update u => some (update env s u)
  | some s, .sync db => subCacheSync env oid s db

def docCount (sub : Csub (Stored κ)) : ℤ := sub.count.getD 0

def storedCount (k : Key) (s : Broker (Stored κ)) : ℤ :=
  amountAt Csub.key docCount k s.csubs

def cachedCount (k : Key) (s : Broker (Stored κ)) : ℤ :=
  amountAt CachedSubscription.key CachedSubscription.count k s.subCache

def sentCount (k : Key) (s : Broker (Stored κ)) : ℤ :=
  amountAt Prod.fst (fun _ => 1) k s.sent

/-- The broker runs, and since s the counts of each subscription grew by the notifications. -/
def Counted (s : Broker (Stored κ)) (now : Option (Broker (Stored κ))) : Prop :=
  ∃ s', now = some s' ∧ ∀ k,
    storedCount k s' + cachedCount k s' + sentCount k s =
      storedCount k s + cachedCount k s + sentCount k s'

def savedCount (s : Broker (Stored κ)) (id : String) : ℤ :=
  match s.subCache.find? fun cSub => cSub.subscriptionId = id with
  | none => 0
  | some cSub => cSub.count

/-- The saved item has something that is not thrown away for what the database has. -/
def Owes (cache : List (CachedSubscription (Stored κ))) (cSub : CachedSubscription (Stored κ)) :
    Prop :=
  0 < cSub.count ∨
    (0 < cSub.lastNotificationTime ∧ ∀ c ∈ cache, c.subscriptionId = cSub.subscriptionId →
      c.lastNotificationTime < cSub.lastNotificationTime) ∨
    (0 < cSub.lastFailure ∧ ∀ c ∈ cache, c.subscriptionId = cSub.subscriptionId →
      c.lastFailure ≤ cSub.lastFailure) ∨
    (0 < cSub.lastSuccess ∧ ∀ c ∈ cache, c.subscriptionId = cSub.subscriptionId →
      c.lastSuccess ≤ cSub.lastSuccess)

instance (cache : List (CachedSubscription (Stored κ))) (cSub : CachedSubscription (Stored κ)) :
    Decidable (Owes cache cSub) :=
  inferInstanceAs (Decidable (_ ∨ _ ∨ _ ∨ _))

/-- Each cached count is saved, cached again and written, for its own subscription only, and only
ObjectIds are looked up. -/
structure Flushed (env : Options (Stored κ)) (oid : String → Option String)
    (s : Broker (Stored κ)) (db : Database) : Prop where
  saved : ∀ cSub ∈ s.subCache, 0 < cSub.count → savedCount s cSub.subscriptionId = cSub.count
  again : ∀ cSub ∈ s.subCache, 0 < cSub.count →
    ∃ c ∈ subCacheRefresh env db s.csubs, c.key = cSub.key
  own : ∀ c ∈ subCacheRefresh env db s.csubs, 0 < savedCount s c.subscriptionId →
    ∃ cSub ∈ s.subCache, cSub.key = c.key ∧ cSub.count = savedCount s c.subscriptionId
  written : ∀ c ∈ subCacheRefresh env db s.csubs, 0 < savedCount s c.subscriptionId →
    db.writable c.key ∧ ∃ sub ∈ s.csubs, sub.key = c.key ∧ sub.rest.isOid
  found : ∀ c ∈ subCacheRefresh env db s.csubs,
    ∀ cSub ∈ s.subCache.find? fun cSub => cSub.subscriptionId = c.subscriptionId,
      Owes (subCacheRefresh env db s.csubs) cSub → (oid c.subscriptionId).isSome

/-- What an update notifies is in the tenant of tenant0; what a synchronization has to write
is flushed. -/
def CountsKept (env : Options (Stored κ)) (oid : String → Option String) :
    Option (Broker (Stored κ)) → Event (Stored κ) → Prop
  | none, _ => True
  | some s, .update u => u.updated → ∀ cSub ∈ subCacheMatch env u s.subCache, Passes u cSub →
      blocked u (trigger cSub) = false → u.notificationSent cSub.subscriptionId →
        cSub.tenant = tenant0
  | some s, .sync db => Flushed env oid s db

def OidsRead (oid : String → Option String) (csubs : List (Csub (Stored κ))) : Prop :=
  ∀ sub ∈ csubs, sub.rest.isOid → oid sub.id = some sub.id

/-- Identifiers are unique in each tenant and not empty, and no item has a negative count. -/
structure WellCounted (oid : String → Option String) (s : Broker (Stored κ)) : Prop where
  itemsOnce : (s.subCache.map CachedSubscription.key).Nodup
  docsOnce : (s.csubs.map Csub.key).Nodup
  itemsNamed : ∀ cSub ∈ s.subCache, cSub.subscriptionId ≠ ""
  docsNamed : ∀ sub ∈ s.csubs, sub.id ≠ ""
  counts : ∀ cSub ∈ s.subCache, 0 ≤ cSub.count
  oids : OidsRead oid s.csubs

/-- The state of a run: the counts and the notifications grow alike. -/
structure Balanced (oid : String → Option String) (s s' : Broker (Stored κ)) : Prop where
  wellCounted : WellCounted oid s'
  balance : ∀ k, storedCount k s' + cachedCount k s' + sentCount k s =
    storedCount k s + cachedCount k s + sentCount k s'

variable {oid : String → Option String} {s s₀ : Broker (Stored κ)} {env : Options (Stored κ)}
  {u : Update (Stored κ)}

theorem count_notify (k key : Key) (t : ℚ) (cache : List (CachedSubscription (Stored κ))) :
    amountAt CachedSubscription.key CachedSubscription.count k (notify t key cache) =
      amountAt CachedSubscription.key CachedSubscription.count k cache +
        if key = k ∧ key ∈ cache.map CachedSubscription.key then 1 else 0 := by
  induction cache with
  | nil =>
    rw [if_neg fun h => not_mem_nil h.2, add_zero]
    rfl
  | cons cSub cache ih =>
    rw [notify]
    by_cases hkey : cSub.key = key
    · rw [if_pos hkey, amountAt_cons, amountAt_cons]
      change (if cSub.key = k then cSub.count + 1 else 0) + _ = _
      have hmem : key ∈ (cSub :: cache).map CachedSubscription.key :=
        hkey ▸ mem_map_of_mem mem_cons_self
      rw [hkey]
      by_cases hk : key = k
      · rw [if_pos hk, if_pos hk, if_pos ⟨hk, hmem⟩]
        omega
      · rw [if_neg hk, if_neg hk, if_neg fun h => hk h.1, add_zero]
    · rw [if_neg hkey, amountAt_cons, amountAt_cons, ih, add_assoc]
      have hmem : key ∈ (cSub :: cache).map CachedSubscription.key ↔
          key ∈ cache.map CachedSubscription.key := by
        rw [map_cons, mem_cons, or_iff_right (Ne.symm hkey)]
      simp only [hmem]

theorem sentCount_send (k : Key) (t : TriggeredSubscription) :
    sentCount k (sendNotification u t s) = sentCount k s + if t.held = k then 1 else 0 := by
  unfold sentCount sendNotification
  rw [amountAt_append, amountAt_cons, amountAt_nil, add_zero]

theorem send_balanced {t : TriggeredSubscription} (h : Balanced oid s₀ s)
    (hheld : (t.tenant, t.cacheSubId) = t.held) (hname : t.cacheSubId ≠ "")
    (hcached : t.held ∈ s.subCache.map CachedSubscription.key) :
    Balanced oid s₀ (sendNotification u t s) := by
  obtain ⟨⟨honce, hdocs, hnamed, hdocsNamed, hcounts, hoids⟩, hbalance⟩ := h
  have hmem : ∀ c ∈ (sendNotification u t s).subCache, ∃ cSub ∈ s.subCache,
      c.subscriptionId = cSub.subscriptionId ∧ cSub.count ≤ c.count := by
    unfold sendNotification
    rw [if_pos hname]
    generalize s.subCache = cache
    induction cache with
    | nil => exact fun c hc => absurd hc not_mem_nil
    | cons cSub cache ih =>
      intro c hc
      rw [notify] at hc
      split_ifs at hc with hkey
      · rcases mem_cons.mp hc with rfl | hc
        · exact ⟨cSub, mem_cons_self, rfl, by dsimp only; omega⟩
        · exact ⟨c, mem_cons_of_mem _ hc, rfl, le_rfl⟩
      · rcases mem_cons.mp hc with rfl | hc
        · exact ⟨c, mem_cons_self, rfl, le_rfl⟩
        · obtain ⟨c', hc', hsame⟩ := ih c hc
          exact ⟨c', mem_cons_of_mem _ hc', hsame⟩
  refine ⟨⟨?_, hdocs, ?_, hdocsNamed, ?_, hoids⟩, ?_⟩
  · rw [keys_send]
    exact honce
  · intro c hc
    obtain ⟨cSub, hcSub, hid, _⟩ := hmem c hc
    exact hid ▸ hnamed cSub hcSub
  · intro c hc
    obtain ⟨cSub, hcSub, _, hle⟩ := hmem c hc
    exact (hcounts cSub hcSub).trans hle
  · intro k
    have hcache : cachedCount k (sendNotification u t s) =
        cachedCount k s + if t.held = k then 1 else 0 := by
      unfold cachedCount sendNotification
      rw [if_pos hname, count_notify, hheld]
      simp only [hcached, and_true]
    have hstored : storedCount k (sendNotification u t s) = storedCount k s := rfl
    have := hbalance k
    rw [hcache, hstored, sentCount_send]
    omega

theorem process_balanced {subs : List TriggeredSubscription} (h : Balanced oid s₀ s)
    (hsubs : ∀ t ∈ subs, blocked u t = false → u.notificationSent t.cacheSubId →
      (t.tenant, t.cacheSubId) = t.held ∧ t.cacheSubId ≠ "" ∧
        t.held ∈ s.subCache.map CachedSubscription.key) :
    Balanced oid s₀ (processSubscriptions u subs s) := by
  induction subs generalizing s with
  | nil => exact h
  | cons t subs ih =>
    have hrest := fun t' ht' => hsubs t' (mem_cons_of_mem t ht')
    rw [processSubscriptions]
    split_ifs with hblocked hsent
    · exact ih h hrest
    · obtain ⟨hheld, hname, hcached⟩ := hsubs t mem_cons_self (Bool.eq_false_iff.mpr hblocked) hsent
      refine ih (send_balanced h hheld hname hcached) ?_
      rw [keys_send]
      exact hrest
    · exact ih h hrest

theorem update_balanced (h : Balanced oid s₀ s) (hkept : CountsKept env oid (some s) (.update u)) :
    Balanced oid s₀ (update env s u) := by
  have hnow : Balanced oid s₀ { s with requestTime := u.requestTime } := ⟨⟨h.wellCounted.itemsOnce,
    h.wellCounted.docsOnce, h.wellCounted.itemsNamed, h.wellCounted.docsNamed,
    h.wellCounted.counts, h.wellCounted.oids⟩, h.balance⟩
  unfold update
  dsimp only
  split
  · exact hnow
  rename_i subs hsubs
  split_ifs with hupdated
  · obtain ⟨_, hspec⟩ := addTriggered_spec List.Pairwise.nil hsubs
    refine process_balanced hnow fun t ht hunblocked hsent => ?_
    obtain ⟨cSub, hmatch, rfl, hpasses⟩ := (hspec t ht).resolve_left not_mem_nil
    have hmem := mem_subCacheMatch hmatch
    have htenant := hkept hupdated cSub hmatch hpasses hunblocked hsent
    refine ⟨Prod.ext htenant.symm rfl, h.wellCounted.itemsNamed cSub hmem, ?_⟩
    exact mem_map_of_mem hmem
  · exact hnow

variable {db : Database} {savedSubV : SavedSubV} {csubs : List (Csub (Stored κ))}
  {cache : List (CachedSubscription (Stored κ))}

theorem saveItems_eq (cache : List (CachedSubscription (Stored κ))) (savedSubV : SavedSubV)
    (id : String) : saveItems cache savedSubV id = (savedSubV id).or
      ((cache.find? fun cSub => cSub.subscriptionId = id).map fun cSub =>
        ⟨cSub.lastNotificationTime, cSub.count, cSub.lastFailure, cSub.lastSuccess⟩) := by
  induction cache generalizing savedSubV with
  | nil => exact or_none.symm
  | cons cSub cache ih =>
    rw [saveItems]
    by_cases hid : cSub.subscriptionId = id
    · rw [List.find?_cons_of_pos (by simpa using hid), ← hid]
      cases hsaved : savedSubV cSub.subscriptionId with
      | none =>
        dsimp only
        rw [hid, ih, ← hid, Function.update_self]
        rfl
      | some cssP =>
        dsimp only
        rw [hid, ih, ← hid, hsaved]
        rfl
    · rw [List.find?_cons_of_neg (by simpa using hid)]
      cases savedSubV cSub.subscriptionId with
      | none =>
        dsimp only
        rw [ih, Function.update_of_ne (Ne.symm hid)]
      | some cssP => exact ih _

/-- What a saved item keeps of its times is later than in the cache; its count stays. -/
structure Compared (cache : List (CachedSubscription (Stored κ))) (id : String)
    (cssP cssP' : CachedSubSaved) : Prop where
  count : cssP'.count = cssP.count
  lastNotificationTime : 0 < cssP'.lastNotificationTime → 0 < cssP.lastNotificationTime ∧
    ∀ c ∈ cache, c.subscriptionId = id → c.lastNotificationTime < cssP.lastNotificationTime
  lastFailure : 0 < cssP'.lastFailure → 0 < cssP.lastFailure ∧
    ∀ c ∈ cache, c.subscriptionId = id → c.lastFailure ≤ cssP.lastFailure
  lastSuccess : 0 < cssP'.lastSuccess → 0 < cssP.lastSuccess ∧
    ∀ c ∈ cache, c.subscriptionId = id → c.lastSuccess ≤ cssP.lastSuccess

variable {cSub : CachedSubscription (Stored κ)} {csubs' : List (Csub (Stored κ))}

theorem time_compared {p : Prop} [Decidable p] {x new : ℚ} {id : String}
    {R : CachedSubscription (Stored κ) → ℚ → Prop} (h : 0 < new → 0 < (if p then 0 else x) ∧
    ∀ c ∈ cache, c.subscriptionId = id → R c (if p then 0 else x)) (hfirst : ¬ p → R cSub x)
    (hpos : 0 < new) : 0 < x ∧ ∀ c ∈ cSub :: cache, c.subscriptionId = id → R c x := by
  obtain ⟨hkept, hrest⟩ := h hpos
  split_ifs at hkept hrest with hp
  · exact absurd hkept (lt_irrefl 0)
  · refine ⟨hkept, fun c hc hid => ?_⟩
    rcases mem_cons.mp hc with rfl | hc
    · exact hfirst hp
    · exact hrest c hc hid

theorem compareItems_spec (cache : List (CachedSubscription (Stored κ))) (savedSubV : SavedSubV)
    {id : String} (h : compareItems cache savedSubV id = some cssP') :
    ∃ cssP, savedSubV id = some cssP ∧ Compared cache id cssP cssP' := by
  induction cache generalizing savedSubV with
  | nil =>
    exact ⟨cssP', h, rfl, fun hpos => ⟨hpos, nofun⟩, fun hpos => ⟨hpos, nofun⟩,
      fun hpos => ⟨hpos, nofun⟩⟩
  | cons cSub cache ih =>
    obtain ⟨cssP, hsaved, hcount, hlast, hfailure, hsuccess⟩ := ih _ h
    by_cases hid : id = cSub.subscriptionId
    · rw [hid, Function.update_self, map_eq_some_iff] at hsaved
      obtain ⟨cssP, hsaved, rfl⟩ := hsaved
      exact ⟨cssP, hid ▸ hsaved, hcount, time_compared hlast not_le.mp,
        time_compared hfailure not_lt.mp, time_compared hsuccess not_lt.mp⟩
    · rw [Function.update_of_ne hid] at hsaved
      have hother : ∀ {P : CachedSubscription (Stored κ) → Prop},
          (∀ c ∈ cache, c.subscriptionId = id → P c) →
            ∀ c ∈ cSub :: cache, c.subscriptionId = id → P c := by
        intro P hall c hc hcid
        rcases mem_cons.mp hc with rfl | hc
        · exact absurd hcid.symm hid
        · exact hall c hc hcid
      exact ⟨cssP, hsaved, hcount, fun hpos => (hlast hpos).imp_right hother,
        fun hpos => (hfailure hpos).imp_right hother,
        fun hpos => (hsuccess hpos).imp_right hother⟩

def SameDocs (csubs csubs' : List (Csub (Stored κ))) : Prop :=
  ∃ g : Csub (Stored κ) → Csub (Stored κ), csubs' = csubs.map g ∧
    ∀ sub, (g sub).key = sub.key ∧ (g sub).rest = sub.rest

theorem SameDocs.refl (csubs : List (Csub (Stored κ))) : SameDocs csubs csubs :=
  ⟨id, (map_id _).symm, fun _ => ⟨rfl, rfl⟩⟩

theorem SameDocs.trans {a b c : List (Csub (Stored κ))} (h : SameDocs a b)
    (h' : SameDocs b c) : SameDocs a c := by
  obtain ⟨f, rfl, hf⟩ := h
  obtain ⟨g, rfl, hg⟩ := h'
  exact ⟨g ∘ f, map_map, fun sub =>
    ⟨(hg (f sub)).1.trans (hf sub).1, (hg (f sub)).2.trans (hf sub).2⟩⟩

theorem OidsRead.of_same (h : OidsRead oid csubs) (hsame : SameDocs csubs csubs') :
    OidsRead oid csubs' := by
  obtain ⟨g, rfl, hg⟩ := hsame
  intro sub' hsub' hoid
  obtain ⟨sub, hsub, rfl⟩ := mem_map.mp hsub'
  have hid : (g sub).id = sub.id := congrArg Prod.snd (hg sub).1
  rw [hid]
  exact h sub hsub ((hg sub).2 ▸ hoid)

theorem SameDocs.keys (h : SameDocs csubs csubs') : csubs'.map Csub.key = csubs.map Csub.key := by
  obtain ⟨g, rfl, hg⟩ := h
  rw [List.map_map]
  exact List.map_congr_left fun sub _ => (hg sub).1

theorem SameDocs.back (h : SameDocs csubs csubs') {sub' : Csub (Stored κ)} (hsub : sub' ∈ csubs') :
    ∃ sub ∈ csubs, sub'.key = sub.key ∧ sub'.rest = sub.rest := by
  obtain ⟨g, rfl, hg⟩ := h
  obtain ⟨sub, hmem, rfl⟩ := mem_map.mp hsub
  exact ⟨sub, hmem, hg sub⟩

theorem SameDocs.forth (h : SameDocs csubs csubs') {sub : Csub (Stored κ)} (hsub : sub ∈ csubs) :
    ∃ sub' ∈ csubs', sub'.key = sub.key ∧ sub'.rest = sub.rest := by
  obtain ⟨g, rfl, hg⟩ := h
  exact ⟨g sub, mem_map_of_mem hsub, hg sub⟩

/-- What is written for an item of the cache goes to a document of its own. -/
structure Writes (oid : String → Option String) (db : Database)
    (csubs : List (Csub (Stored κ))) (cSub : CachedSubscription (Stored κ))
    (cssP : CachedSubSaved) : Prop where
  named : cSub.subscriptionId ≠ ""
  found : CachedSubSaved.Pending cssP → (oid cSub.subscriptionId).isSome
  written : 0 < cssP.count → db.writable cSub.key ∧
    ∃ sub ∈ csubs, sub.key = cSub.key ∧ sub.rest.isOid

theorem Writes.of_same (h : Writes oid db csubs cSub cssP) (hsame : SameDocs csubs csubs') :
    Writes oid db csubs' cSub cssP := by
  refine ⟨h.named, h.found, fun hpos => ?_⟩
  obtain ⟨hwritable, sub, hsub, hkey, hoid⟩ := h.written hpos
  obtain ⟨sub', hsub', hkey', hrest⟩ := hsame.forth hsub
  exact ⟨hwritable, sub', hsub', hkey'.trans hkey, by rw [hrest]; exact hoid⟩

theorem docCount_update (cssP : CachedSubSaved) (sub : Csub (Stored κ)) :
    docCount (SubCacheThrottling.mongoSubCountersUpdate cssP sub) =
      docCount sub + max cssP.count 0 := by
  unfold docCount SubCacheThrottling.mongoSubCountersUpdate
  split_ifs with h
  · rw [getD_some, max_eq_left h.le]
  · rw [max_eq_right (not_lt.mp h), add_zero]

theorem counters_spec (honce : (csubs.map Csub.key).Nodup) (hoids : OidsRead oid csubs)
    (h : Writes oid db csubs cSub cssP) :
    ∃ csubs', mongoSubCountersUpdate oid db cSub cssP csubs = some csubs' ∧
      SameDocs csubs csubs' ∧ ∀ k, amountAt Csub.key docCount k csubs' =
        amountAt Csub.key docCount k csubs + if cSub.key = k then max cssP.count 0 else 0 := by
  unfold mongoSubCountersUpdate
  rw [if_neg h.named]
  split_ifs with hpending
  · obtain ⟨_id, hid⟩ := isSome_iff_exists.mp (h.found hpending)
    rw [hid]
    refine ⟨_, rfl, ⟨_, rfl, fun sub => ?_⟩, fun k => ?_⟩
    · split_ifs <;> exact ⟨rfl, rfl⟩
    · have hkey : ∀ sub : Csub (Stored κ), Csub.key (if sub.tenant = cSub.tenant ∧
          sub.rest.isOid ∧ sub.id = _id ∧ db.writable cSub.key then
            SubCacheThrottling.mongoSubCountersUpdate cssP sub else sub) = sub.key := by
        intro sub
        split_ifs <;> rfl
      by_cases hpos : 0 < cssP.count
      · obtain ⟨hwritable, doc, hdoc, hdocKey, hdocOid⟩ := h.written hpos
        have htenant : doc.tenant = cSub.tenant := congrArg Prod.fst hdocKey
        have hname : doc.id = cSub.subscriptionId := congrArg Prod.snd hdocKey
        have hown : doc.id = _id := by
          have hread := hoids doc hdoc hdocOid
          rw [hname, hid] at hread
          exact hname.trans (some.inj hread).symm
        by_cases hk : cSub.key = k
        · rw [if_pos hk]
          refine amountAt_map_add honce hkey hdoc (hdocKey.trans hk) ?_
          rw [if_pos ⟨htenant, hdocOid, hown, hwritable⟩, docCount_update]
        rw [if_neg hk, add_zero]
        refine amountAt_map hkey fun sub _ hsub => ?_
        rw [if_neg]
        rintro ⟨htenant', -, hid', -⟩
        apply hk
        rw [← hsub]
        exact Prod.ext htenant'.symm (hname.symm.trans (hown.trans hid'.symm))
      · rw [max_eq_right (not_lt.mp hpos), ite_self, add_zero]
        refine amountAt_map hkey fun sub _ _ => ?_
        split_ifs
        · rw [docCount_update, max_eq_right (not_lt.mp hpos), add_zero]
        · rfl
  · refine ⟨csubs, rfl, .refl csubs, fun k => ?_⟩
    rw [max_eq_right (not_lt.mp fun hpos => hpending (.inl hpos)), ite_self, add_zero]

def flushedCount (savedSubV : SavedSubV) (id : String) : ℤ :=
  match savedSubV id with
  | none => 0
  | some cssP => max cssP.count 0

theorem flushItems_spec (honce : (csubs.map Csub.key).Nodup) (hoids : OidsRead oid csubs)
    (h : ∀ cSub ∈ cache, ∀ cssP, savedSubV cSub.subscriptionId = some cssP →
      Writes oid db csubs cSub cssP) :
    ∃ csubs', flushItems oid db savedSubV cache csubs = some csubs' ∧ SameDocs csubs csubs' ∧
      ∀ k, amountAt Csub.key docCount k csubs' = amountAt Csub.key docCount k csubs +
        amountAt CachedSubscription.key
          (fun cSub => flushedCount savedSubV cSub.subscriptionId) k cache := by
  induction cache generalizing csubs with
  | nil => exact ⟨csubs, rfl, .refl csubs, fun k => (add_zero _).symm⟩
  | cons cSub cache ih =>
    have hrest := fun c hc => h c (mem_cons_of_mem cSub hc)
    rw [flushItems]
    cases hsaved : savedSubV cSub.subscriptionId with
    | none =>
      obtain ⟨csubs', hflush, hsame, hamount⟩ := ih honce hoids hrest
      refine ⟨csubs', hflush, hsame, fun k => ?_⟩
      rw [hamount, amountAt_cons, flushedCount, hsaved, ite_self, zero_add]
    | some cssP =>
      obtain ⟨csubs₁, hfirst, hsame₁, hamount₁⟩ :=
        counters_spec honce hoids (h cSub mem_cons_self cssP hsaved)
      have honce₁ : (csubs₁.map Csub.key).Nodup := by
        rw [hsame₁.keys]
        exact honce
      have hoids₁ : OidsRead oid csubs₁ := hoids.of_same hsame₁
      obtain ⟨csubs', hflush, hsame, hamount⟩ := ih honce₁ hoids₁
        fun c hc cssP hc' => (hrest c hc cssP hc').of_same hsame₁
      refine ⟨csubs', ?_, hsame₁.trans hsame, fun k => ?_⟩
      · dsimp only
        rw [hfirst]
        exact hflush
      · rw [hamount, hamount₁, amountAt_cons, flushedCount, hsaved, add_assoc]

theorem count_refresh {c : CachedSubscription (Stored κ)} (h : c ∈ subCacheRefresh env db csubs) :
    c.count = 0 := by
  obtain ⟨sub, _, hinsert⟩ := mem_filterMap.mp h
  unfold mongoSubCacheItemInsert at hinsert
  split_ifs at hinsert
  cases hinsert
  rfl

theorem keepOutcome_count (savedSubV : SavedSubV) (c : CachedSubscription (Stored κ)) :
    (keepOutcome savedSubV c).count = c.count := by
  unfold keepOutcome
  split <;> rfl

theorem saved_spec {id : String}
    (h : compareItems cache (saveItems s.subCache fun _ => none) id = some cssP') :
    ∃ cSub, (s.subCache.find? fun cSub => cSub.subscriptionId = id) = some cSub ∧
      cssP'.count = savedCount s id ∧ (CachedSubSaved.Pending cssP' → Owes cache cSub) := by
  obtain ⟨cssP, hsaved, hcompared⟩ := compareItems_spec cache _ h
  rw [saveItems_eq, none_or, map_eq_some_iff] at hsaved
  obtain ⟨cSub, hfind, rfl⟩ := hsaved
  have hid : cSub.subscriptionId = id := by
    simpa only [decide_eq_true_eq] using List.find?_some hfind
  refine ⟨cSub, hfind, ?_, ?_⟩
  · rw [hcompared.count, savedCount, hfind]
  · rintro (hcount | hlast | hfailure | hsuccess)
    · exact .inl (hcount.trans_eq hcompared.count)
    · exact .inr (.inl (hid ▸ hcompared.lastNotificationTime hlast))
    · exact .inr (.inr (.inl (hid ▸ hcompared.lastFailure hfailure)))
    · exact .inr (.inr (.inr (hid ▸ hcompared.lastSuccess hsuccess)))

theorem compareItems_none {id : String} (h : compareItems cache savedSubV id = none) :
    savedSubV id = none := by
  induction cache generalizing savedSubV with
  | nil => exact h
  | cons cSub cache ih =>
    have hupdate := ih h
    by_cases hid : id = cSub.subscriptionId
    · rw [hid, Function.update_self, map_eq_none_iff] at hupdate
      exact hid ▸ hupdate
    · rw [Function.update_of_ne hid] at hupdate
      exact hupdate

theorem flushedCount_eq (cache : List (CachedSubscription (Stored κ))) (id : String) :
    flushedCount (compareItems cache (saveItems s.subCache fun _ => none)) id =
      max (savedCount s id) 0 := by
  unfold flushedCount
  split
  · rename_i hnone
    have hsaved := compareItems_none hnone
    rw [saveItems_eq, none_or, map_eq_none_iff] at hsaved
    rw [savedCount, hsaved, max_self]
  · rename_i cssP hsome
    obtain ⟨_, _, hcount, _⟩ := saved_spec hsome
    rw [hcount]

theorem flushed_eq_cached (hs : WellCounted oid s) (h : Flushed env oid s db) (k : Key) :
    amountAt CachedSubscription.key (fun cSub => max (savedCount s cSub.subscriptionId) 0) k
      (subCacheRefresh env db s.csubs) = cachedCount k s := by
  have hzero (hnone : ∀ cSub ∈ s.subCache, cSub.key = k → ¬ 0 < cSub.count) :
      cachedCount k s = 0 := by
    refine amountAt_eq_zero fun cSub hcSub hkey => ?_
    exact le_antisymm (not_lt.mp (hnone cSub hcSub hkey)) (hs.counts cSub hcSub)
  by_cases hagain : ∃ c ∈ subCacheRefresh env db s.csubs, c.key = k
  · obtain ⟨c, hc, rfl⟩ := hagain
    rw [amountAt_of_mem (refresh_once hs.docsOnce) hc]
    by_cases hpos : 0 < savedCount s c.subscriptionId
    · obtain ⟨cSub, hcSub, hkey, hcount⟩ := h.own c hc hpos
      rw [max_eq_left hpos.le, ← hcount, ← hkey]
      exact (amountAt_of_mem hs.itemsOnce hcSub).symm
    rw [max_eq_right (not_lt.mp hpos), hzero]
    intro cSub hcSub hkey hcount
    apply hpos
    rw [← show cSub.subscriptionId = c.subscriptionId from congrArg Prod.snd hkey,
      h.saved cSub hcSub hcount]
    exact hcount
  · rw [amountAt_eq_zero fun c hc hkey => absurd ⟨c, hc, hkey⟩ hagain, hzero]
    intro cSub hcSub hkey hcount
    obtain ⟨c, hc, hc'⟩ := h.again cSub hcSub hcount
    exact hagain ⟨c, hc, hc'.trans hkey⟩

theorem sync_balanced (h : Balanced oid s₀ s) (hflushed : Flushed env oid s db) :
    ∃ s', subCacheSync env oid s db = some s' ∧ Balanced oid s₀ s' := by
  obtain ⟨hs, hbalance⟩ := h
  have hwrites : ∀ c ∈ subCacheRefresh env db s.csubs, ∀ cssP,
      compareItems (subCacheRefresh env db s.csubs) (saveItems s.subCache fun _ => none)
        c.subscriptionId = some cssP → Writes oid db s.csubs c cssP := by
    intro c hc cssP hsaved
    obtain ⟨sub, hsub, -, hid, -⟩ := mem_refresh hc
    obtain ⟨cSub, hfind, hcount, howes⟩ := saved_spec hsaved
    refine ⟨hid ▸ hs.docsNamed sub hsub, fun hpending => ?_, fun hpos => ?_⟩
    · exact hflushed.found c hc cSub hfind (howes hpending)
    · exact hflushed.written c hc (hcount ▸ hpos)
  obtain ⟨csubs', hflush, hsame, hamount⟩ := flushItems_spec hs.docsOnce hs.oids hwrites
  unfold subCacheSync
  dsimp only
  rw [hflush]
  refine ⟨_, rfl, ⟨?_, ?_, ?_, ?_, ?_, hs.oids.of_same hsame⟩, fun k => ?_⟩
  · dsimp only
    rw [List.map_map, show CachedSubscription.key ∘ keepOutcome _ = CachedSubscription.key from
      funext fun c => (keepOutcome_same _ c).1]
    exact refresh_once hs.docsOnce
  · exact hsame.keys ▸ hs.docsOnce
  · intro c hc
    obtain ⟨c', hc', rfl⟩ := mem_map.mp hc
    obtain ⟨sub, hsub, -, hid, -⟩ := mem_refresh hc'
    rw [(keepOutcome_same _ c').2.1, hid]
    exact hs.docsNamed sub hsub
  · intro sub' hsub'
    obtain ⟨sub, hsub, hkey, -⟩ := hsame.back hsub'
    rw [show sub'.id = sub.id from congrArg Prod.snd hkey]
    exact hs.docsNamed sub hsub
  · intro c hc
    obtain ⟨c', hc', rfl⟩ := mem_map.mp hc
    rw [keepOutcome_count, count_refresh hc']
  · have hcached : amountAt CachedSubscription.key CachedSubscription.count k
        ((subCacheRefresh env db s.csubs).map (keepOutcome (compareItems
          (subCacheRefresh env db s.csubs) (saveItems s.subCache fun _ => none)))) = 0 := by
      refine amountAt_eq_zero fun c hc _ => ?_
      obtain ⟨c', hc', rfl⟩ := mem_map.mp hc
      rw [keepOutcome_count, count_refresh hc']
    have hstored := hamount k
    simp only [flushedCount_eq] at hstored
    rw [flushed_eq_cached hs hflushed] at hstored
    have := hbalance k
    unfold storedCount cachedCount sentCount at this ⊢
    unfold cachedCount at hstored
    dsimp only
    omega

theorem step_balanced {e : Event (Stored κ)} (h : ∃ s', now = some s' ∧ Balanced oid s s')
    (hkept : CountsKept env oid now e) :
    ∃ s', step env oid now e = some s' ∧ Balanced oid s s' := by
  obtain ⟨s', rfl, h⟩ := h
  cases e with
  | update u => exact ⟨_, rfl, update_balanced h hkept⟩
  | sync db => exact sync_balanced h hkept

theorem update_kept_of_default (h : ∀ s ∈ now, ∀ cSub ∈ s.subCache, cSub.tenant = tenant0) :
    CountsKept env oid now (.update u) := by
  cases now with
  | none => trivial
  | some s =>
    intro _ cSub hmatch _ _ _
    exact h s rfl cSub (mem_subCacheMatch hmatch)

/-- In a run that keeps the counts, every notification is counted once, in the document of its
subscription or in the cache. -/
theorem every_notification_counted (hs : WellCounted oid s) {events : List (Event (Stored κ))}
    (hkept : Guarded (step env oid) (CountsKept env oid) (some s) events) :
    Throughout (step env oid) (Counted s) (some s) events := by
  have hstart : ∃ s', some s = some s' ∧ Balanced oid s s' := ⟨s, rfl, hs, fun _ => rfl⟩
  have hall : Throughout (step env oid) (fun now => ∃ s', now = some s' ∧ Balanced oid s s')
      (some s) events :=
    throughout_of_guarded hstart (fun _ _ h hkept => step_balanced h hkept) hkept
  refine hall.mono ?_
  rintro now ⟨s', hnow, h⟩
  exact ⟨s', hnow, h.balance⟩

def hexOid (text : String) : Option String :=
  let digits := text.toList.map Char.toLower
  if digits.length = 24 ∧ digits.all (fun c => c.isDigit || ('a' ≤ c && c ≤ 'f')) then
    some (String.ofList digits)
  else none

def twiceNotified (tenant : String) : Csub (Stored Unit) :=
  { tenant := tenant, id := "5a0c1f2e3b4d5a6c7d8e9f00", throttling := none,
    expiration := some 1000, lastNotification := some 5, lastFailure := none,
    lastSuccess := none, status := none, count := some 2, rest := ⟨true, ()⟩ }

def multitenant : Options (Stored Unit) := ⟨true, fun _ => true⟩

def listedDatabase : Database := ⟨fun _ => true, fun _ => true⟩

def restarted (tenant : String) : Broker (Stored Unit) :=
  ⟨subCacheRefresh multitenant listedDatabase [twiceNotified tenant], [twiceNotified tenant], 1,
    []⟩

def entityUpdated (tenant : String) (requestTime : ℚ) : Event (Stored Unit) :=
  .update ⟨tenant, requestTime, fun _ => true, fun _ => true, true, fun _ => true⟩

theorem restarted_wellCounted (tenant : String) : WellCounted hexOid (restarted tenant) := by
  have hnamed : "5a0c1f2e3b4d5a6c7d8e9f00" ≠ "" := by decide +kernel
  have hread : hexOid "5a0c1f2e3b4d5a6c7d8e9f00" = some "5a0c1f2e3b4d5a6c7d8e9f00" := by
    decide +kernel
  refine ⟨nodup_singleton _, nodup_singleton _, ?_, ?_, ?_, ?_⟩
  · intro c hc
    obtain rfl := mem_singleton.mp hc
    exact hnamed
  · intro sub hsub
    obtain rfl := mem_singleton.mp hsub
    exact hnamed
  · intro c hc
    obtain rfl := mem_singleton.mp hc
    exact le_rfl
  · intro sub hsub _
    obtain rfl := mem_singleton.mp hsub
    exact hread

theorem default_tenant_counted : Throughout (step multitenant hexOid) (Counted (restarted ""))
    (some (restarted "")) [entityUpdated "" 100, .sync listedDatabase, entityUpdated "" 111] := by
  refine every_notification_counted (restarted_wellCounted "") ⟨?_, ?_, ?_, trivial⟩
  · exact update_kept_of_default (by decide +kernel)
  · exact ⟨by decide +kernel, by decide +kernel, by decide +kernel, by decide +kernel,
      by decide +kernel⟩
  · exact update_kept_of_default (by decide +kernel)

theorem named_tenant_not_counted : ¬ ∀ s : Broker (Stored Unit), WellCounted hexOid s →
    ∀ events, Throughout (step multitenant hexOid) (Counted s) (some s) events := by
  intro h
  obtain ⟨s', hs', hcounted⟩ :=
    (h (restarted "t1") (restarted_wellCounted "t1") [entityUpdated "t1" 100]).last
  have hbalance := hcounted ("t1", "5a0c1f2e3b4d5a6c7d8e9f00")
  cases hs'
  revert hbalance
  decide +kernel

end SubCacheCounts
