import OrionLd.StepSystem
import Mathlib.Data.List.Nodup
import Mathlib.Data.String.Basic
import Mathlib.Tactic.Linarith

/-! The subscription cache, the notifications of updates and the synchronization with the database.
The time of the last notification is kept in the cache, copied out by an update, and reloaded by
every synchronization. -/
namespace SubCacheThrottling

open StepSystem List

abbrev Key := String × String

/-- A document of the csubs collection of a tenant. What an update is matched with (entities,
attributes, service path and expression) is left open. -/
structure Csub (κ : Type*) where
  tenant : String
  id : String
  throttling : Option ℚ
  expiration : Option ℚ
  lastNotification : Option ℚ
  lastFailure : Option ℚ
  lastSuccess : Option ℚ
  status : Option String
  count : Option ℤ
  rest : κ

structure CachedSubscription (κ : Type*) where
  tenant : String
  subscriptionId : String
  throttling : ℚ
  expirationTime : ℚ
  lastNotificationTime : ℚ
  status : String
  count : ℤ
  lastFailure : ℚ
  lastSuccess : ℚ
  rest : κ

variable {κ : Type*}

def Csub.key (sub : Csub κ) : Key := (sub.tenant, sub.id)

def CachedSubscription.key (cSub : CachedSubscription κ) : Key :=
  (cSub.tenant, cSub.subscriptionId)

def Csub.notified (sub : Csub κ) : ℚ := sub.lastNotification.getD (-1)

structure Broker (κ : Type*) where
  subCache : List (CachedSubscription κ)
  csubs : List (Csub κ)
  requestTime : ℚ
  sent : List (Key × ℚ)

structure Options (κ : Type*) where
  subCacheMultitenant : Bool
  /-- The document has entities and its filters can be parsed. -/
  valid : κ → Bool

/-- An update of an entity, with the answers of the filters and of the database. -/
structure Update (κ : Type*) where
  tenant : String
  requestTime : ℚ
  subMatch : κ → Bool
  filtersSet : κ → Bool
  updated : Bool
  notificationSent : String → Bool

/-- What is copied out of the cache for a notification; held says which item it was. -/
structure TriggeredSubscription where
  held : Key
  throttling : ℚ
  lastNotification : ℚ
  cacheSubId : String
  tenant : String

/-- The tenant of tenant0 is empty. -/
def tenant0 : String := ""

/-- The constructor takes a tenant but keeps tenant0. -/
def trigger (cSub : CachedSubscription κ) : TriggeredSubscription :=
  { held := cSub.key, throttling := cSub.throttling,
    lastNotification := cSub.lastNotificationTime,
    cacheSubId := cSub.subscriptionId, tenant := tenant0 }

/-- The map is ordered by identifier; an identifier that is there stays as it is. -/
def insertTriggered (t : TriggeredSubscription) :
    List TriggeredSubscription → List TriggeredSubscription
  | [] => [t]
  | u :: us =>
    if u.cacheSubId = t.cacheSubId then u :: us
    else if t.cacheSubId < u.cacheSubId then t :: u :: us
    else u :: insertTriggered t us

def subCacheMatch (env : Options κ) (u : Update κ) (cache : List (CachedSubscription κ)) :
    List (CachedSubscription κ) :=
  cache.filter fun cSub =>
    (!env.subCacheMultitenant || cSub.tenant = u.tenant) && u.subMatch cSub.rest

/-- Throttling as addTriggeredSubscriptions sees it: -1 is none, and so is a time of 0. -/
def throttled (u : Update κ) (cSub : CachedSubscription κ) : Bool :=
  cSub.throttling ≠ -1 ∧ cSub.lastNotificationTime ≠ 0 ∧
    u.requestTime - cSub.lastNotificationTime < cSub.throttling

def addTriggered (u : Update κ) :
    List (CachedSubscription κ) → List TriggeredSubscription → Option (List TriggeredSubscription)
  | [], subs => some subs
  | cSub :: subVec, subs =>
    if cSub.expirationTime < u.requestTime then addTriggered u subVec subs
    else if cSub.status = "inactive" then addTriggered u subVec subs
    else if throttled u cSub then addTriggered u subVec subs
    else if u.filtersSet cSub.rest then
      addTriggered u subVec (insertTriggered (trigger cSub) subs)
    else none

def addTriggeredSubscriptions_withCache (env : Options κ) (u : Update κ)
    (cache : List (CachedSubscription κ)) : Option (List TriggeredSubscription) :=
  addTriggered u (subCacheMatch env u cache) []

def notify (requestTime : ℚ) (key : Key) :
    List (CachedSubscription κ) → List (CachedSubscription κ)
  | [] => []
  | cSub :: cache =>
    if cSub.key = key then
      { cSub with lastNotificationTime := requestTime, count := cSub.count + 1 } :: cache
    else cSub :: notify requestTime key cache

/-- Throttling as processSubscriptions sees it: here 1 is the value without throttling. -/
def blocked (u : Update κ) (t : TriggeredSubscription) : Bool :=
  t.throttling ≠ 1 ∧ t.lastNotification ≠ 1 ∧
    t.throttling > u.requestTime - t.lastNotification

/-- The notification is sent, and its time kept for the item that is looked up in the cache. -/
def sendNotification (u : Update κ) (t : TriggeredSubscription) (s : Broker κ) : Broker κ :=
  { s with
    sent := s.sent ++ [(t.held, u.requestTime)]
    subCache := if t.cacheSubId ≠ "" then
        notify u.requestTime (t.tenant, t.cacheSubId) s.subCache
      else s.subCache }

def processSubscriptions (u : Update κ) :
    List TriggeredSubscription → Broker κ → Broker κ
  | [], s => s
  | t :: subs, s =>
    if blocked u t then processSubscriptions u subs s
    else if u.notificationSent t.cacheSubId then
      processSubscriptions u subs (sendNotification u t s)
    else processSubscriptions u subs s

def update (env : Options κ) (s : Broker κ) (u : Update κ) : Broker κ :=
  let s := { s with requestTime := u.requestTime }
  match addTriggeredSubscriptions_withCache env u s.subCache with
  | none => s
  | some subs => if u.updated then processSubscriptions u subs s else s

/-- The tenants whose collection is listed and answers the query, and the subscriptions whose
counters can be written. -/
structure Database where
  readable : String → Bool
  writable : Key → Bool

structure CachedSubSaved where
  lastNotificationTime : ℚ
  count : ℤ
  lastFailure : ℚ
  lastSuccess : ℚ

abbrev SavedSubV := String → Option CachedSubSaved

def mongoSubCacheItemInsert (env : Options κ) (sub : Csub κ) : Option (CachedSubscription κ) :=
  if env.valid sub.rest then
    some
      { tenant := sub.tenant
        subscriptionId := sub.id
        throttling := sub.throttling.getD (-1)
        expirationTime := sub.expiration.getD 0
        lastNotificationTime := sub.lastNotification.getD (-1)
        status := sub.status.getD "active"
        count := 0
        lastFailure := sub.lastFailure.getD (-1)
        lastSuccess := sub.lastSuccess.getD (-1)
        rest := sub.rest }
  else none

def subCacheRefresh (env : Options κ) (db : Database) (csubs : List (Csub κ)) :
    List (CachedSubscription κ) :=
  (csubs.filter fun sub => db.readable sub.tenant).filterMap (mongoSubCacheItemInsert env)

/-- Step 1; of several items with one identifier the first is saved. -/
def saveItems : List (CachedSubscription κ) → SavedSubV → SavedSubV
  | [], savedSubV => savedSubV
  | cSub :: cache, savedSubV =>
    match savedSubV cSub.subscriptionId with
    | some _ => saveItems cache savedSubV
    | none => saveItems cache (Function.update savedSubV cSub.subscriptionId
        (some ⟨cSub.lastNotificationTime, cSub.count, cSub.lastFailure, cSub.lastSuccess⟩))

def throwAway (cSub : CachedSubscription κ) (cssP : CachedSubSaved) : CachedSubSaved :=
  { cssP with
    lastNotificationTime :=
      if cssP.lastNotificationTime ≤ cSub.lastNotificationTime then 0
      else cssP.lastNotificationTime
    lastFailure := if cssP.lastFailure < cSub.lastFailure then 0 else cssP.lastFailure
    lastSuccess := if cssP.lastSuccess < cSub.lastSuccess then 0 else cssP.lastSuccess }

/-- Step 3; the items of the refreshed cache stay as they are. -/
def compareItems : List (CachedSubscription κ) → SavedSubV → SavedSubV
  | [], savedSubV => savedSubV
  | cSub :: cache, savedSubV =>
    compareItems cache
      (Function.update savedSubV cSub.subscriptionId
        ((savedSubV cSub.subscriptionId).map (throwAway cSub)))

/-- A time is written when it is positive and later than the one of the document. -/
def laterTime (new : ℚ) (old : Option ℚ) : Option ℚ :=
  if 0 < new ∧ ∀ t ∈ old, t < new then some new else old

def mongoSubCountersUpdate (cssP : CachedSubSaved) (sub : Csub κ) : Csub κ :=
  { sub with
    count := if 0 < cssP.count then some (sub.count.getD 0 + cssP.count) else sub.count
    lastNotification := laterTime cssP.lastNotificationTime sub.lastNotification
    lastFailure := laterTime cssP.lastFailure sub.lastFailure
    lastSuccess := laterTime cssP.lastSuccess sub.lastSuccess }

/-- Steps 4 and 5 for one item: the document with its identifier gets the counters. -/
def flushItem (db : Database) (savedSubV : SavedSubV) (csubs : List (Csub κ))
    (cSub : CachedSubscription κ) : List (Csub κ) :=
  match savedSubV cSub.subscriptionId with
  | none => csubs
  | some cssP => csubs.map fun sub =>
      if sub.key = cSub.key ∧ db.writable cSub.key then mongoSubCountersUpdate cssP sub else sub

def keepOutcome (savedSubV : SavedSubV) (cSub : CachedSubscription κ) : CachedSubscription κ :=
  match savedSubV cSub.subscriptionId with
  | none => cSub
  | some cssP => { cSub with lastFailure := cssP.lastFailure, lastSuccess := cssP.lastSuccess }

def subCacheSync (env : Options κ) (s : Broker κ) (db : Database) : Broker κ :=
  let savedSubV := saveItems s.subCache fun _ => none
  let cache := subCacheRefresh env db s.csubs
  let savedSubV := compareItems cache savedSubV
  { s with
    subCache := cache.map (keepOutcome savedSubV)
    csubs := cache.foldl (flushItem db savedSubV) s.csubs }

inductive Event (κ : Type*) where
  | update (u : Update κ)
  | sync (db : Database)

def step (env : Options κ) (s : Broker κ) : Event κ → Broker κ
  | .update u => update env s u
  | .sync db => subCacheSync env s db

def notificationTimes (k : Key) (s : Broker κ) : List ℚ :=
  (s.sent.filter fun n => n.1 = k).map Prod.snd

/-- Any two notifications for the subscription are at least T apart. -/
def Spaced (k : Key) (T : ℚ) (s : Broker κ) : Prop :=
  (notificationTimes k s).Pairwise fun a b => T ≤ |a - b|

instance (k : Key) (T : ℚ) (s : Broker κ) : Decidable (Spaced k T s) :=
  inferInstanceAs (Decidable (List.Pairwise _ _))

/-- Identifiers are unique in each tenant and not empty, and the cache agrees with the
database on the throttling. -/
structure WellKept (s : Broker κ) : Prop where
  itemsOnce : (s.subCache.map CachedSubscription.key).Nodup
  docsOnce : (s.csubs.map Csub.key).Nodup
  itemsNamed : ∀ cSub ∈ s.subCache, cSub.subscriptionId ≠ ""
  docsNamed : ∀ sub ∈ s.csubs, sub.id ≠ ""
  sameThrottling : ∀ cSub ∈ s.subCache, ∀ sub ∈ s.csubs, sub.key = cSub.key →
    sub.throttling.getD (-1) = cSub.throttling

def InOrder (s : Broker κ) : Event κ → Prop
  | .update u => s.requestTime ≤ u.requestTime
  | .sync _ => True

instance (s : Broker κ) : ∀ e, Decidable (InOrder s e)
  | .update u => inferInstanceAs (Decidable (s.requestTime ≤ u.requestTime))
  | .sync _ => isTrue trivial

/-- The time of a notification is not lost: an update that matches finds it under tenant0, and a
synchronization finds no time in the cache that the document lacks. -/
def Remembered (env : Options κ) (k : Key) (s : Broker κ) : Event κ → Prop
  | .update u => (∃ cSub ∈ subCacheMatch env u s.subCache, cSub.key = k) → k.1 = tenant0
  | .sync _ => ∀ cSub ∈ s.subCache, cSub.key = k → ∀ sub ∈ s.csubs, sub.key = k →
      cSub.lastNotificationTime ≤ sub.notified

/-- Cache or, without an item there, database know the last notification. -/
structure Kept (k : Key) (T : ℚ) (s : Broker κ) : Prop where
  itemsOnce : (s.subCache.map CachedSubscription.key).Nodup
  docsOnce : (s.csubs.map Csub.key).Nodup
  itemsNamed : ∀ cSub ∈ s.subCache, cSub.subscriptionId ≠ ""
  docsNamed : ∀ sub ∈ s.csubs, sub.id ≠ ""
  itemThrottling : ∀ cSub ∈ s.subCache, cSub.key = k → cSub.throttling = T
  docThrottling : ∀ sub ∈ s.csubs, sub.key = k → sub.throttling.getD (-1) = T
  inCache : ∀ cSub ∈ s.subCache, cSub.key = k →
    ∀ n ∈ notificationTimes k s, n ≤ cSub.lastNotificationTime
  inDatabase : (∀ cSub ∈ s.subCache, cSub.key ≠ k) → ∀ sub ∈ s.csubs, sub.key = k →
    ∀ n ∈ notificationTimes k s, n ≤ sub.notified
  clock : 0 < s.requestTime
  past : ∀ n ∈ notificationTimes k s, 0 < n ∧ n ≤ s.requestTime
  spaced : (notificationTimes k s).Pairwise fun a b => T ≤ b - a

variable {k : Key} {T : ℚ} {s : Broker κ}

theorem Kept.spaced_abs (h : Kept k T s) : Spaced k T s :=
  h.spaced.imp fun {a b} hab => by
    rw [abs_sub_comm]
    exact hab.trans (le_abs_self _)

variable {env : Options κ} {u : Update κ}

theorem keys_notify (t : ℚ) (key : Key) (cache : List (CachedSubscription κ)) :
    (notify t key cache).map CachedSubscription.key = cache.map CachedSubscription.key := by
  induction cache with
  | nil => rfl
  | cons cSub cache ih =>
    rw [notify]
    split_ifs with h
    · rfl
    · rw [map_cons, map_cons, ih]

variable {t : TriggeredSubscription} {cache : List (CachedSubscription κ)}
variable {subs : List TriggeredSubscription} {cSub : CachedSubscription κ}
variable {c : CachedSubscription κ}

theorem mem_notify {t : ℚ} {key : Key} (honce : (cache.map CachedSubscription.key).Nodup)
    (h : c ∈ notify t key cache) : ∃ cSub ∈ cache, c.key = cSub.key ∧
      c.throttling = cSub.throttling ∧
      c.lastNotificationTime = if cSub.key = key then t else cSub.lastNotificationTime := by
  induction cache with
  | nil => cases h
  | cons head cache ih =>
    rw [map_cons, nodup_cons] at honce
    rw [notify] at h
    split_ifs at h with hkey
    · rcases mem_cons.mp h with rfl | h
      · exact ⟨head, mem_cons_self, rfl, rfl, (if_pos hkey).symm⟩
      refine ⟨c, mem_cons_of_mem _ h, rfl, rfl, (if_neg ?_).symm⟩
      intro hc
      apply honce.1
      rw [hkey, ← hc]
      exact mem_map_of_mem h
    · rcases mem_cons.mp h with rfl | h
      · exact ⟨c, mem_cons_self, rfl, rfl, (if_neg hkey).symm⟩
      · obtain ⟨cSub, hmem, hsame⟩ := ih honce.2 h
        exact ⟨cSub, mem_cons_of_mem _ hmem, hsame⟩

theorem mem_insertTriggered {x : TriggeredSubscription} (h : x ∈ insertTriggered t subs) :
    x = t ∨ x ∈ subs := by
  induction subs with
  | nil => exact .inl (mem_singleton.mp h)
  | cons head subs ih =>
    rw [insertTriggered] at h
    split_ifs at h
    · exact .inr h
    · exact mem_cons.mp h
    · rcases mem_cons.mp h with rfl | h
      · exact .inr mem_cons_self
      · exact (ih h).imp id (mem_cons_of_mem _)

def Ordered (subs : List TriggeredSubscription) : Prop :=
  subs.Pairwise fun a b => a.cacheSubId < b.cacheSubId

theorem insertTriggered_ordered (h : Ordered subs) : Ordered (insertTriggered t subs) := by
  induction subs with
  | nil => exact pairwise_singleton _ _
  | cons head subs ih =>
    obtain ⟨hhead, htail⟩ := pairwise_cons.mp h
    rw [insertTriggered]
    split_ifs with heq hlt
    · exact h
    · refine pairwise_cons.mpr ⟨?_, h⟩
      intro x hx
      rcases mem_cons.mp hx with rfl | hx
      · exact hlt
      · exact hlt.trans (hhead x hx)
    · refine pairwise_cons.mpr ⟨?_, ih htail⟩
      intro x hx
      rcases mem_insertTriggered hx with rfl | hx
      · exact lt_of_le_of_ne (not_lt.mp hlt) heq
      · exact hhead x hx

structure Passes (u : Update κ) (cSub : CachedSubscription κ) : Prop where
  unexpired : ¬ cSub.expirationTime < u.requestTime
  active : cSub.status ≠ "inactive"
  unthrottled : throttled u cSub = false

theorem addTriggered_spec {subVec : List (CachedSubscription κ)} {out : List TriggeredSubscription}
    (hsubs : Ordered subs) (h : addTriggered u subVec subs = some out) : Ordered out ∧ ∀ t ∈ out,
      t ∈ subs ∨ ∃ cSub ∈ subVec, t = trigger cSub ∧ Passes u cSub := by
  induction subVec generalizing subs with
  | nil =>
    cases h
    exact ⟨hsubs, fun _ ht => .inl ht⟩
  | cons cSub subVec ih =>
    have hlater {subs' : List TriggeredSubscription} (hordered : Ordered subs')
        (hold : ∀ t ∈ subs', t ∈ subs ∨ t = trigger cSub ∧ Passes u cSub)
        (hout : addTriggered u subVec subs' = some out) : Ordered out ∧ ∀ t ∈ out,
          t ∈ subs ∨ ∃ c ∈ cSub :: subVec, t = trigger c ∧ Passes u c := by
      obtain ⟨hord, hmem⟩ := ih hordered hout
      refine ⟨hord, fun t ht => ?_⟩
      rcases hmem t ht with ht | ⟨c, hc, hspec⟩
      · rcases hold t ht with ht | ht
        · exact .inl ht
        · exact .inr ⟨cSub, mem_cons_self, ht⟩
      · exact .inr ⟨c, mem_cons_of_mem _ hc, hspec⟩
    have hskip := hlater hsubs fun t ht => .inl ht
    rw [addTriggered] at h
    split_ifs at h with hexpired hinactive hthrottled _
    · exact hskip h
    · exact hskip h
    · exact hskip h
    · refine hlater (insertTriggered_ordered hsubs) (fun t ht => ?_) h
      rcases mem_insertTriggered ht with rfl | ht
      · exact .inr ⟨rfl, hexpired, hinactive, Bool.eq_false_iff.mpr hthrottled⟩
      · exact .inl ht

theorem times_send (t : TriggeredSubscription) :
    notificationTimes k (sendNotification u t s) =
      if t.held = k then notificationTimes k s ++ [u.requestTime] else notificationTimes k s := by
  unfold notificationTimes sendNotification
  dsimp only
  split_ifs with h <;> simp [h]

theorem keys_send (t : TriggeredSubscription) :
    (sendNotification u t s).subCache.map CachedSubscription.key =
      s.subCache.map CachedSubscription.key := by
  unfold sendNotification
  split_ifs
  · exact keys_notify ..
  · rfl

/-- What is about to be sent for the subscription is far enough from what was sent. -/
structure Due (k : Key) (T : ℚ) (s : Broker κ) (u : Update κ)
    (t : TriggeredSubscription) : Prop where
  found : (t.tenant, t.cacheSubId) = k
  cached : k ∈ s.subCache.map CachedSubscription.key
  far : ∀ n ∈ notificationTimes k s, T ≤ u.requestTime - n

theorem mem_send (honce : (s.subCache.map CachedSubscription.key).Nodup)
    (h : c ∈ (sendNotification u t s).subCache) : ∃ cSub ∈ s.subCache, c.key = cSub.key ∧
      c.throttling = cSub.throttling ∧ c.lastNotificationTime =
        if t.cacheSubId ≠ "" ∧ cSub.key = (t.tenant, t.cacheSubId) then u.requestTime
        else cSub.lastNotificationTime := by
  unfold sendNotification at h
  split_ifs at h with hname
  · obtain ⟨cSub, hmem, hkey, hthrottling, hlast⟩ := mem_notify honce h
    refine ⟨cSub, hmem, hkey, hthrottling, ?_⟩
    rw [hlast]
    simp [hname]
  · exact ⟨c, h, rfl, rfl, (if_neg fun hboth => hname hboth.1).symm⟩

theorem send_kept (h : Kept k T s) (hclock : s.requestTime = u.requestTime)
    (hdue : t.held = k → Due k T s u t) : Kept k T (sendNotification u t s) := by
  have hle : ∀ n ∈ notificationTimes k (sendNotification u t s), 0 < n ∧ n ≤ u.requestTime := by
    intro n hn
    rw [times_send] at hn
    have hold : n ∈ notificationTimes k s → 0 < n ∧ n ≤ u.requestTime :=
      fun hn => hclock ▸ h.past n hn
    split_ifs at hn
    · rcases mem_append.mp hn with hn | hn
      · exact hold hn
      · rw [mem_singleton.mp hn]
        exact ⟨hclock ▸ h.clock, le_rfl⟩
    · exact hold hn
  have hkeys := keys_send (u := u) (s := s) t
  have hnames : ∀ c ∈ (sendNotification u t s).subCache, c.subscriptionId ≠ "" := by
    intro c hc
    obtain ⟨cSub, hmem, hkey, _⟩ := mem_send h.itemsOnce hc
    rw [show c.subscriptionId = cSub.subscriptionId from congrArg Prod.snd hkey]
    exact h.itemsNamed cSub hmem
  refine ⟨hkeys ▸ h.itemsOnce, h.docsOnce, hnames, h.docsNamed, ?_, h.docThrottling, ?_, ?_,
    h.clock, fun n hn => hclock ▸ hle n hn, ?_⟩
  · intro c hc hk
    obtain ⟨cSub, hmem, hkey, hthrottling, _⟩ := mem_send h.itemsOnce hc
    rw [hthrottling]
    exact h.itemThrottling cSub hmem (hkey ▸ hk)
  · -- either the item was given the time just now, or nothing was sent for it
    intro c hc hk n hn
    obtain ⟨cSub, hmem, hkey, _, hlast⟩ := mem_send h.itemsOnce hc
    rw [hlast]
    split_ifs with hfound
    · exact (hle n hn).2
    · rw [times_send] at hn
      by_cases hheld : t.held = k
      · have hsame : cSub.key = (t.tenant, t.cacheSubId) := by
          rw [(hdue hheld).found, ← hkey, hk]
        refine absurd ⟨?_, hsame⟩ hfound
        rw [← show cSub.subscriptionId = t.cacheSubId from congrArg Prod.snd hsame]
        exact h.itemsNamed cSub hmem
      · rw [if_neg hheld] at hn
        exact h.inCache cSub hmem (hkey ▸ hk) n hn
  · intro hnone sub hsub hk n hn
    have hnot : k ∉ s.subCache.map CachedSubscription.key := by
      rw [← hkeys]
      rintro hmem
      obtain ⟨c, hc, hck⟩ := mem_map.mp hmem
      exact hnone c hc hck
    rw [times_send, if_neg fun hheld => hnot (hdue hheld).cached] at hn
    refine h.inDatabase (fun c hc hck => hnot ?_) sub hsub hk n hn
    exact hck ▸ mem_map_of_mem hc
  · rw [times_send]
    split_ifs with hheld
    · refine pairwise_append.mpr ⟨h.spaced, pairwise_singleton _ _, ?_⟩
      intro a ha b hb
      rw [mem_singleton.mp hb]
      exact (hdue hheld).far a ha
    · exact h.spaced

theorem due_send {u' : TriggeredSubscription} (h : t.held = k → Due k T s u t)
    (hother : u'.cacheSubId ≠ t.cacheSubId) (h' : u'.held = k → Due k T s u u')
    (hheld : u'.held = k) : Due k T (sendNotification u t s) u u' := by
  have hdue := h' hheld
  refine ⟨hdue.found, (keys_send (u := u) (s := s) t) ▸ hdue.cached, ?_⟩
  intro n hn
  rw [times_send, if_neg fun ht => ?_] at hn
  · exact hdue.far n hn
  · exact hother (congrArg Prod.snd (hdue.found.trans (h ht).found.symm))

theorem process_kept (h : Kept k T s) (hclock : s.requestTime = u.requestTime)
    (hordered : Ordered subs) (hdue : ∀ t ∈ subs, t.held = k → Due k T s u t) :
    Kept k T (processSubscriptions u subs s) := by
  induction subs generalizing s with
  | nil => exact h
  | cons t subs ih =>
    obtain ⟨hhead, htail⟩ := pairwise_cons.mp hordered
    have hrest : ∀ t ∈ subs, t.held = k → Due k T s u t := fun t ht => hdue t (mem_cons_of_mem _ ht)
    rw [processSubscriptions]
    split_ifs
    · exact ih h hclock htail hrest
    · refine ih (send_kept h hclock (hdue t mem_cons_self)) hclock htail ?_
      intro t' ht'
      exact due_send (hdue t mem_cons_self) (hhead t' ht').ne' (hrest t' ht')
    · exact ih h hclock htail hrest

theorem mem_subCacheMatch (h : cSub ∈ subCacheMatch env u cache) : cSub ∈ cache :=
  mem_of_mem_filter h

theorem far_of_not_throttled (h : Kept k T s) (hT : 0 < T) (hmem : cSub ∈ s.subCache)
    (hk : cSub.key = k) (hthrottled : throttled u cSub = false) {n : ℚ}
    (hn : n ∈ notificationTimes k s) : T ≤ u.requestTime - n := by
  have hle := h.inCache cSub hmem hk n hn
  have hpos := (h.past n hn).1
  have hitem := h.itemThrottling cSub hmem hk
  have hfar := of_decide_eq_false hthrottled
  by_contra hnear
  refine hfar ⟨by linarith, by linarith, by linarith⟩

theorem update_kept (hT : 0 < T) (h : Kept k T s) (horder : s.requestTime ≤ u.requestTime)
    (hremembered : Remembered env k s (.update u)) : Kept k T (update env s u) := by
  have hnow : Kept k T { s with requestTime := u.requestTime } :=
    ⟨h.itemsOnce, h.docsOnce, h.itemsNamed, h.docsNamed, h.itemThrottling, h.docThrottling,
      h.inCache, h.inDatabase, h.clock.trans_le horder,
      fun n hn => ⟨(h.past n hn).1, (h.past n hn).2.trans horder⟩, h.spaced⟩
  unfold update
  dsimp only
  split
  · exact hnow
  rename_i subs hsubs
  split_ifs
  · obtain ⟨hordered, hspec⟩ := addTriggered_spec List.Pairwise.nil hsubs
    refine process_kept hnow rfl hordered ?_
    intro t ht hheld
    obtain ⟨cSub, hmatch, rfl, hpasses⟩ := (hspec t ht).resolve_left not_mem_nil
    have hmem := mem_subCacheMatch hmatch
    have htenant := hremembered ⟨cSub, hmatch, hheld⟩
    refine ⟨?_, hheld ▸ mem_map_of_mem hmem, ?_⟩
    · rw [← hheld] at htenant ⊢
      exact Prod.ext htenant.symm rfl
    · intro n hn
      exact far_of_not_throttled h hT hmem hheld hpasses.unthrottled hn
  · exact hnow

variable {db : Database}

theorem inserted_eq {sub : Csub κ} (h : mongoSubCacheItemInsert env sub = some c) :
    c.key = sub.key ∧
      c.subscriptionId = sub.id ∧ c.throttling = sub.throttling.getD (-1) ∧
      c.lastNotificationTime = sub.notified := by
  unfold mongoSubCacheItemInsert at h
  split_ifs at h
  cases h
  exact ⟨rfl, rfl, rfl, rfl⟩

theorem mem_refresh {csubs : List (Csub κ)} (h : c ∈ subCacheRefresh env db csubs) :
    ∃ sub ∈ csubs, c.key = sub.key ∧
      c.subscriptionId = sub.id ∧ c.throttling = sub.throttling.getD (-1) ∧
      c.lastNotificationTime = sub.notified := by
  obtain ⟨sub, hsub, hinsert⟩ := mem_filterMap.mp h
  exact ⟨sub, mem_of_mem_filter hsub, inserted_eq hinsert⟩

theorem refresh_once {csubs : List (Csub κ)} (h : (csubs.map Csub.key).Nodup) :
    ((subCacheRefresh env db csubs).map CachedSubscription.key).Nodup := by
  have hread : ((csubs.filter fun sub => db.readable sub.tenant).map Csub.key).Nodup :=
    h.sublist (filter_sublist.map _)
  revert hread
  unfold subCacheRefresh
  generalize csubs.filter _ = listed
  intro hread
  induction listed with
  | nil => exact nodup_nil
  | cons sub listed ih =>
    rw [map_cons, nodup_cons] at hread
    cases hinsert : mongoSubCacheItemInsert env sub with
    | none =>
      rw [filterMap_cons_none hinsert]
      exact ih hread.2
    | some c =>
      rw [filterMap_cons_some hinsert, map_cons, nodup_cons]
      refine ⟨fun hmem => hread.1 ?_, ih hread.2⟩
      obtain ⟨c', hc', hkey⟩ := mem_map.mp hmem
      obtain ⟨sub', hsub', hinsert'⟩ := mem_filterMap.mp hc'
      rw [← (inserted_eq hinsert).1, ← hkey, (inserted_eq hinsert').1]
      exact mem_map_of_mem hsub'

theorem keepOutcome_same (savedSubV : SavedSubV) (c : CachedSubscription κ) :
    (keepOutcome savedSubV c).key = c.key ∧
      (keepOutcome savedSubV c).subscriptionId = c.subscriptionId ∧
      (keepOutcome savedSubV c).throttling = c.throttling ∧
      (keepOutcome savedSubV c).lastNotificationTime = c.lastNotificationTime := by
  unfold keepOutcome
  split <;> exact ⟨rfl, rfl, rfl, rfl⟩

theorem notified_le_later (cssP : CachedSubSaved) (sub : Csub κ) :
    sub.notified ≤ (mongoSubCountersUpdate cssP sub).notified := by
  unfold mongoSubCountersUpdate Csub.notified laterTime
  dsimp only
  split_ifs with h
  · cases hlast : sub.lastNotification with
    | none => exact (by norm_num : (-1 : ℚ) ≤ 0).trans h.1.le
    | some t => exact (h.2 t hlast).le
  · exact le_rfl

/-- A document that is later what another one was: only counters and later times are new. -/
def Flushed (sub sub' : Csub κ) : Prop :=
  sub'.key = sub.key ∧ sub'.id = sub.id ∧ sub'.throttling = sub.throttling ∧
    sub.notified ≤ sub'.notified

theorem flushItem_spec (db : Database) (savedSubV : SavedSubV) (csubs : List (Csub κ))
    (cSub : CachedSubscription κ) :
    ∃ f, flushItem db savedSubV csubs cSub = csubs.map f ∧ ∀ sub, Flushed sub (f sub) := by
  unfold flushItem
  split
  · exact ⟨id, (map_id _).symm, fun sub => ⟨rfl, rfl, rfl, le_rfl⟩⟩
  refine ⟨_, rfl, fun sub => ?_⟩
  split_ifs
  · exact ⟨rfl, rfl, rfl, notified_le_later _ sub⟩
  · exact ⟨rfl, rfl, rfl, le_rfl⟩

theorem Flushed.trans {a b c : Csub κ} (h : Flushed a b) (h' : Flushed b c) : Flushed a c :=
  ⟨h'.1.trans h.1, h'.2.1.trans h.2.1, h'.2.2.1.trans h.2.2.1, h.2.2.2.trans h'.2.2.2⟩

theorem flush_spec (db : Database) (savedSubV : SavedSubV) (cache : List (CachedSubscription κ))
    (csubs : List (Csub κ)) : ∃ f, cache.foldl (flushItem db savedSubV) csubs = csubs.map f ∧
      ∀ sub, Flushed sub (f sub) := by
  induction cache generalizing csubs with
  | nil => exact ⟨id, (map_id _).symm, fun sub => ⟨rfl, rfl, rfl, le_rfl⟩⟩
  | cons cSub cache ih =>
    obtain ⟨f, hf, hflushed⟩ := flushItem_spec db savedSubV csubs cSub
    obtain ⟨g, hg, hrest⟩ := ih (flushItem db savedSubV csubs cSub)
    refine ⟨g ∘ f, ?_, fun sub => (hflushed sub).trans (hrest (f sub))⟩
    rw [foldl_cons, hg, hf, map_map]

theorem Kept.known (h : Kept k T s) (hremembered : Remembered env k s (.sync db))
    {sub : Csub κ} (hsub : sub ∈ s.csubs) (hk : sub.key = k) :
    ∀ n ∈ notificationTimes k s, n ≤ sub.notified := by
  intro n hn
  by_cases hcached : ∃ cSub ∈ s.subCache, cSub.key = k
  · obtain ⟨cSub, hmem, hkey⟩ := hcached
    exact (h.inCache cSub hmem hkey n hn).trans (hremembered cSub hmem hkey sub hsub hk)
  · refine h.inDatabase (fun cSub hmem hkey => hcached ⟨cSub, hmem, hkey⟩) sub hsub hk n hn

theorem mem_sync_cache (h : c ∈ (subCacheSync env s db).subCache) :
    ∃ sub ∈ s.csubs, c.key = sub.key ∧ c.subscriptionId = sub.id ∧
      c.throttling = sub.throttling.getD (-1) ∧ c.lastNotificationTime = sub.notified := by
  obtain ⟨c', hc', rfl⟩ := mem_map.mp h
  obtain ⟨hkey, hid, hthrottling, hlast⟩ := keepOutcome_same _ c'
  rw [hkey, hid, hthrottling, hlast]
  exact mem_refresh hc'

theorem sync_kept (h : Kept k T s) (hremembered : Remembered env k s (.sync db)) :
    Kept k T (subCacheSync env s db) := by
  have hknown := fun sub (hsub : sub ∈ s.csubs) => h.known hremembered hsub
  have hitem := fun c (hc : c ∈ (subCacheSync env s db).subCache) => mem_sync_cache hc
  unfold subCacheSync at hitem ⊢
  dsimp only at hitem ⊢
  revert hitem
  generalize compareItems _ _ = savedSubV
  obtain ⟨f, hf, hflushed⟩ := flush_spec db savedSubV (subCacheRefresh env db s.csubs) s.csubs
  rw [hf]
  intro hitem
  have hdoc : ∀ sub' ∈ s.csubs.map f, ∃ sub ∈ s.csubs, Flushed sub sub' := by
    intro sub' hsub'
    obtain ⟨sub, hsub, rfl⟩ := mem_map.mp hsub'
    exact ⟨sub, hsub, hflushed sub⟩
  refine ⟨?_, ?_, ?_, ?_, ?_, ?_, ?_, ?_, h.clock, h.past, h.spaced⟩
  · rw [map_map, show CachedSubscription.key ∘ keepOutcome savedSubV =
      CachedSubscription.key from funext fun c => (keepOutcome_same savedSubV c).1]
    exact refresh_once h.docsOnce
  · rw [map_map, show Csub.key ∘ f = Csub.key from funext fun sub => (hflushed sub).1]
    exact h.docsOnce
  · intro c hc
    obtain ⟨sub, hsub, _, hid, _⟩ := hitem c hc
    exact hid ▸ h.docsNamed sub hsub
  · intro sub' hsub'
    obtain ⟨sub, hsub, hflush⟩ := hdoc sub' hsub'
    exact hflush.2.1 ▸ h.docsNamed sub hsub
  · intro c hc hk
    obtain ⟨sub, hsub, hkey, _, hthrottling, _⟩ := hitem c hc
    exact hthrottling.trans (h.docThrottling sub hsub (hkey ▸ hk))
  · intro sub' hsub' hk
    obtain ⟨sub, hsub, hflush⟩ := hdoc sub' hsub'
    exact hflush.2.2.1 ▸ h.docThrottling sub hsub (hflush.1 ▸ hk)
  · intro c hc hk n hn
    obtain ⟨sub, hsub, hkey, _, _, hlast⟩ := hitem c hc
    exact hlast ▸ hknown sub hsub (hkey ▸ hk) n hn
  · intro _ sub' hsub' hk n hn
    obtain ⟨sub, hsub, hflush⟩ := hdoc sub' hsub'
    exact (hknown sub hsub (hflush.1 ▸ hk) n hn).trans hflush.2.2.2

theorem step_kept (hT : 0 < T) {e : Event κ} (h : Kept k T s) (horder : InOrder s e)
    (hremembered : Remembered env k s e) : Kept k T (step env s e) := by
  cases e with
  | update u => exact update_kept hT h horder hremembered
  | sync db => exact sync_kept h hremembered

theorem WellKept.kept (h : WellKept s) (hsent : s.sent = []) (hclock : 0 < s.requestTime)
    (hmem : cSub ∈ s.subCache) : Kept cSub.key cSub.throttling s := by
  have hnone : notificationTimes cSub.key s = [] := by
    unfold notificationTimes
    rw [hsent]
    rfl
  refine ⟨h.itemsOnce, h.docsOnce, h.itemsNamed, h.docsNamed, ?_, ?_, ?_, ?_, hclock, ?_, ?_⟩
  · intro c hc hkey
    rw [inj_on_of_nodup_map h.itemsOnce hc hmem hkey]
  · exact fun sub hsub hkey => h.sameThrottling cSub hmem sub hsub hkey
  · intro c _ _ n hn
    exact absurd (hnone ▸ hn) not_mem_nil
  · intro hother
    exact absurd rfl (hother cSub hmem)
  · intro n hn
    exact absurd (hnone ▸ hn) not_mem_nil
  · rw [hnone]
    exact List.Pairwise.nil

/-- In a run that loses no time of a notification, the notifications for a subscription are
its throttling apart. -/
theorem throttling_holds_when_remembered (hs : WellKept s) (hsent : s.sent = [])
    (hclock : 0 < s.requestTime) {cSub : CachedSubscription κ} (hmem : cSub ∈ s.subCache)
    (hT : 0 < cSub.throttling) {events : List (Event κ)}
    (horder : Guarded (step env) InOrder s events)
    (hremembered : Guarded (step env) (Remembered env cSub.key) s events) :
    Throughout (step env) (Spaced cSub.key cSub.throttling) s events := by
  refine (throughout_of_guarded (hs.kept hsent hclock hmem) ?_
    (horder.and hremembered)).mono fun _ h => h.spaced_abs
  intro s e h hok
  exact step_kept hT h hok.1 hok.2

def tenSeconds : Csub Unit :=
  { tenant := tenant0, id := "5a0", throttling := some 10, expiration := some 1000,
    lastNotification := none, lastFailure := none, lastSuccess := none,
    status := none, count := none, rest := () }

def plain : Options Unit := ⟨false, fun _ => true⟩

def reachableDb : Database := ⟨fun _ => true, fun _ => true⟩

def cachedTenSeconds : CachedSubscription Unit :=
  { tenant := tenant0, subscriptionId := "5a0", throttling := 10, expirationTime := 1000,
    lastNotificationTime := -1, status := "active", count := 0, lastFailure := -1,
    lastSuccess := -1, rest := () }

def started : Broker Unit := ⟨[cachedTenSeconds], [tenSeconds], 1, []⟩

example : subCacheRefresh plain reachableDb [tenSeconds] = [cachedTenSeconds] := rfl

def touch (requestTime : ℚ) : Event Unit :=
  .update ⟨tenant0, requestTime, fun _ => true, fun _ => true, true, fun _ => true⟩

theorem started_wellKept : WellKept started :=
  ⟨by decide +kernel, by decide +kernel, by decide +kernel, by decide +kernel,
    by decide +kernel⟩

theorem waits_ten_seconds : Throughout (step plain) (Spaced (tenant0, "5a0") 10) started
    [.sync reachableDb, touch 100, touch 111] := by
  refine throttling_holds_when_remembered started_wellKept rfl (by decide +kernel)
    (mem_cons_self : cachedTenSeconds ∈ started.subCache) (by decide +kernel)
    (by decide +kernel) ⟨?_, fun _ => rfl, fun _ => rfl, trivial⟩
  intro cSub hcSub _ sub hsub _
  rw [mem_singleton.mp hcSub, mem_singleton.mp hsub]
  exact le_rfl

theorem synchronization_loses_time : ¬ ∀ s : Broker Unit, WellKept s → s.sent = [] →
    0 < s.requestTime → ∀ cSub ∈ s.subCache, 0 < cSub.throttling →
      ∀ events, Guarded (step plain) InOrder s events →
        Throughout (step plain) (Spaced cSub.key cSub.throttling) s events := by
  intro h
  have hall := h started started_wellKept rfl (by decide +kernel) cachedTenSeconds
    mem_cons_self (by decide +kernel) [touch 100, .sync reachableDb, touch 101]
    (by decide +kernel)
  exact absurd hall.last (by decide +kernel)

end SubCacheThrottling
