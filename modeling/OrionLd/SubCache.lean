import OrionLd.KjTreeToSubscription
import OrionLd.SubCacheThrottling

/-! The subscription cache: which items an update matches, and which item is looked up.
A tenant is a C string or a null pointer, and an empty one stands for the default tenant too.
A read before the beginning of a text, or far behind its end, has no result. -/
namespace SubCache

open KjTree StepSystem List Option
open KjTreeToSubscription (RenderFormat)

/-- The functions of the regular expressions of POSIX, which are not part of the broker. -/
structure RegexEnv where
  regcomp : Text → Bool
  regexec : Text → Text → Bool

structure EntityInfo where
  entityId : Text
  isPattern : Bool
  entityType : Text
  isTypePattern : Bool
  deriving DecidableEq

/-- The constructor. A pattern that is not compiled is taken for a plain text. -/
def entityInfo (env : RegexEnv) (entityId entityType isPattern : Text) (isTypePattern : Bool) :
    EntityInfo where
  entityId := entityId
  isPattern := ["true", "TRUE", "True"].any (fun s => s.toList == isPattern) &&
    env.regcomp entityId
  entityType := entityType
  isTypePattern := isTypePattern && env.regcomp entityType

def EntityInfo.matches (env : RegexEnv) (e : EntityInfo) (id type : Text) : Bool :=
  let matchedId := if e.isPattern then env.regexec e.entityId id else id == e.entityId
  let matchedType :=
    if e.isTypePattern then env.regexec e.entityType type
    else !(type != [] && e.entityType != [] && e.entityType != type)
  matchedId && matchedType

/-- SubscriptionExpression, with the filters that are made of q and mq. -/
structure SubscriptionExpression (φ : Type) where
  q : Text
  mq : Text
  geometry : Text
  coords : Text
  georel : Text
  geoproperty : Text
  stringFilter : φ
  mdStringFilter : φ

/-- The type of the filters and that of httpInfo are left open. -/
structure CachedSubscription (φ η : Type) where
  entityIdInfos : List EntityInfo
  attributes : List Text
  metadata : List Text
  notifyConditionV : List Text
  tenant : Option Text
  servicePath : Text
  subscriptionId : Text
  throttling : ℚ
  expirationTime : ℚ
  lastNotificationTime : ℚ
  status : Text
  ldContext : Text
  count : ℤ
  renderFormat : RenderFormat
  expression : SubscriptionExpression φ
  blacklist : Bool
  httpInfo : η
  lastFailure : ℚ
  lastSuccess : ℚ

variable {φ η : Type}

def attributeMatch (cSub : CachedSubscription φ η) (attrV : List Text) : Bool :=
  cSub.notifyConditionV.isEmpty || cSub.notifyConditionV.any fun n => attrV.contains n

def strncmp (s t : Text) (n : ℕ) : Bool := s.take n == t.take n

def servicePathMatch (spath servicePath : Text) : Option Bool :=
  if servicePath = "/#".toList then some true
  else if servicePath = [] ∧ spath = [] then some true
  else
    let servicePath := if servicePath = [] then "/".toList else servicePath
    match spath.getLast? with
    | none => none
    | some last =>
      if last ≠ '#' then some (servicePath == spath)
      else if spath.length < 2 then none
      else
        let len := spath.length - 2
        if spath[len]? = some '/' ∧ servicePath.length = len ∧ strncmp spath servicePath len then
          some true
        else some (strncmp spath servicePath (spath.length - 1))

def subTenantMatch (subTenant tenant : Option Text) : Bool :=
  if subTenant.getD [] = [] ∨ tenant.getD [] = [] then
    if subTenant.getD [] ≠ [] then false
    else if tenant.getD [] ≠ [] then false
    else true
  else subTenant == tenant

structure MatchRequest where
  tenant : Option Text
  servicePath : Text
  entityId : Text
  entityType : Text
  attrV : List Text

variable (env : RegexEnv)

def subMatch (multitenant : Bool) (cSub : CachedSubscription φ η) (r : MatchRequest) :
    Option Bool :=
  if multitenant && !subTenantMatch cSub.tenant r.tenant then some false
  else
    match servicePathMatch cSub.servicePath r.servicePath with
    | none => none
    | some false => some false
    | some true =>
      if !attributeMatch cSub r.attrV then some false
      else some (cSub.entityIdInfos.any fun e => e.matches env r.entityId r.entityType)

def subCacheMatch (multitenant : Bool) (r : MatchRequest) :
    List (CachedSubscription φ η) → Option (List (CachedSubscription φ η))
  | [] => some []
  | cSub :: cache => do
    let matched ← subMatch env multitenant cSub r
    let subVec ← subCacheMatch multitenant r cache
    some (if matched then cSub :: subVec else subVec)

/-- The lengths are compared before the texts. -/
def tenantMatch (tenant1 tenant2 : Option Text) : Bool :=
  let tenant1 := tenant1.getD []
  let tenant2 := tenant2.getD []
  if tenant1.length ≠ tenant2.length then false else tenant1 == tenant2

def subCacheItemLookup (tenant : Option Text) (subscriptionId : Text) :
    List (CachedSubscription φ η) → Option (CachedSubscription φ η)
  | [] => none
  | cSub :: cache =>
    if tenantMatch tenant cSub.tenant ∧ subscriptionId = cSub.subscriptionId then some cSub
    else subCacheItemLookup tenant subscriptionId cache

/-- A null pointer and an empty text stand for the same tenant. -/
def SameTenant (tenant1 tenant2 : Option Text) : Prop := tenant1.getD [] = tenant2.getD []

instance (tenant1 tenant2 : Option Text) : Decidable (SameTenant tenant1 tenant2) :=
  inferInstanceAs (Decidable (_ = _))

theorem subTenantMatch_iff {subTenant tenant : Option Text} :
    subTenantMatch subTenant tenant = true ↔ SameTenant subTenant tenant := by
  unfold subTenantMatch SameTenant
  by_cases hsub : subTenant.getD [] = []
  · rw [if_pos (.inl hsub), if_neg (not_not.mpr hsub), hsub]
    by_cases htenant : tenant.getD [] = []
    · simp [htenant]
    · simp [htenant]
  · by_cases htenant : tenant.getD [] = []
    · simp [hsub, htenant]
    rw [if_neg (not_or.mpr ⟨hsub, htenant⟩), beq_iff_eq]
    cases subTenant with
    | none => exact absurd rfl hsub
    | some s =>
      cases tenant with
      | none => exact absurd rfl htenant
      | some t => simp

theorem tenantMatch_iff {tenant1 tenant2 : Option Text} :
    tenantMatch tenant1 tenant2 = true ↔ SameTenant tenant1 tenant2 := by
  unfold tenantMatch SameTenant
  dsimp only
  split
  · rename_i hlength
    refine iff_of_false (by simp) fun h => hlength (congrArg List.length h)
  · exact beq_iff_eq

def ownItems (tenant : Option Text) (cache : List (CachedSubscription φ η)) :
    List (CachedSubscription φ η) :=
  cache.filter fun cSub => SameTenant cSub.tenant tenant

variable {cSub : CachedSubscription φ η} {cache : List (CachedSubscription φ η)}

theorem subMatch_other {env : RegexEnv} {r : MatchRequest} (h : ¬ SameTenant cSub.tenant r.tenant) :
    subMatch env true cSub r = some false := by
  have htenant : subTenantMatch cSub.tenant r.tenant = false := by
    rwa [← Bool.not_eq_true, subTenantMatch_iff]
  rw [subMatch, htenant]
  rfl

theorem subCacheMatch_own (env : RegexEnv) (r : MatchRequest)
    (cache : List (CachedSubscription φ η)) :
    subCacheMatch env true r cache = subCacheMatch env true r (ownItems r.tenant cache) := by
  induction cache with
  | nil => rfl
  | cons cSub cache ih =>
    by_cases h : SameTenant cSub.tenant r.tenant
    · rw [ownItems, filter_cons_of_pos (by simpa using h), subCacheMatch, subCacheMatch, ih]
      rfl
    rw [ownItems, filter_cons_of_neg (by simpa using h), subCacheMatch, subMatch_other h,
      ih]
    simp [ownItems]

theorem mem_subCacheMatch {env : RegexEnv} {multitenant : Bool} {r : MatchRequest}
    {subVec : List (CachedSubscription φ η)}
    (h : subCacheMatch env multitenant r cache = some subVec) (hmem : cSub ∈ subVec) :
    cSub ∈ cache ∧ subMatch env multitenant cSub r = some true := by
  induction cache generalizing subVec with
  | nil =>
    cases h
    cases hmem
  | cons head cache ih =>
    obtain ⟨matched, hmatched, h⟩ := bind_eq_some_iff.mp h
    obtain ⟨rest, hrest, h⟩ := bind_eq_some_iff.mp h
    cases h
    cases matched with
    | false =>
      obtain ⟨hin, hmatch⟩ := ih hrest hmem
      exact ⟨mem_cons_of_mem _ hin, hmatch⟩
    | true =>
      rcases mem_cons.mp hmem with rfl | hmem
      · exact ⟨mem_cons_self, hmatched⟩
      · obtain ⟨hin, hmatch⟩ := ih hrest hmem
        exact ⟨mem_cons_of_mem _ hin, hmatch⟩

theorem lookup_tenant {tenant : Option Text} {id : Text}
    (h : subCacheItemLookup tenant id cache = some cSub) :
    cSub ∈ cache ∧ SameTenant cSub.tenant tenant ∧ cSub.subscriptionId = id := by
  induction cache with
  | nil => cases h
  | cons head cache ih =>
    rw [subCacheItemLookup] at h
    split at h
    · rename_i hfound
      cases h
      exact ⟨mem_cons_self, (tenantMatch_iff.mp hfound.1).symm, hfound.2.symm⟩
    · obtain ⟨hin, hsame, hid⟩ := ih h
      exact ⟨mem_cons_of_mem _ hin, hsame, hid⟩

section

open SubCacheThrottling

/-- An item as the broker keeps it, with all the rest in one field. -/
def CachedSubscription.item (cSub : CachedSubscription φ η) :
    SubCacheThrottling.CachedSubscription (CachedSubscription φ η) where
  tenant := String.ofList (cSub.tenant.getD [])
  subscriptionId := String.ofList cSub.subscriptionId
  throttling := cSub.throttling
  expirationTime := cSub.expirationTime
  lastNotificationTime := cSub.lastNotificationTime
  status := String.ofList cSub.status
  count := cSub.count
  lastFailure := cSub.lastFailure
  lastSuccess := cSub.lastSuccess
  rest := cSub

theorem item_tenant (cSub : CachedSubscription φ η) :
    cSub.item.tenant = String.ofList (cSub.tenant.getD []) := rfl

def selects (r : MatchRequest) (cSub : CachedSubscription φ η) : Bool :=
  subMatch env false cSub r == some true

theorem subMatch_true (multitenant : Bool) (cSub : CachedSubscription φ η) (r : MatchRequest) :
    subMatch env multitenant cSub r = some true ↔
      (multitenant = true → SameTenant cSub.tenant r.tenant) ∧ selects env r cSub = true := by
  have hselects : selects env r cSub = true ↔ subMatch env false cSub r = some true := beq_iff_eq
  rw [hselects]
  cases multitenant with
  | false => exact (and_iff_right (by simp)).symm
  | true =>
    by_cases h : SameTenant cSub.tenant r.tenant
    · have htenant := subTenantMatch_iff.mpr h
      have hsame : subMatch env true cSub r = subMatch env false cSub r := by
        rw [subMatch, subMatch, htenant]
        rfl
      rw [hsame]
      exact (and_iff_right fun _ => h).symm
    · rw [subMatch_other h]
      exact iff_of_false (by simp) fun hand => h (hand.1 rfl)

/-- The items that are matched in the cache are those that the broker takes out of it. -/
theorem match_refines (opts : Options (CachedSubscription φ η)) (r : MatchRequest)
    (u : Update (CachedSubscription φ η)) (htenant : u.tenant = String.ofList (r.tenant.getD []))
    (hmatch : u.subMatch = selects env r) {subVec : List (CachedSubscription φ η)}
    (h : subCacheMatch env opts.subCacheMultitenant r cache = some subVec) :
    SubCacheThrottling.subCacheMatch opts u (cache.map CachedSubscription.item) =
      subVec.map CachedSubscription.item := by
  induction cache generalizing subVec with
  | nil =>
    cases h
    rfl
  | cons cSub cache ih =>
    obtain ⟨matched, hmatched, h⟩ := bind_eq_some_iff.mp h
    obtain ⟨rest, hrest, h⟩ := bind_eq_some_iff.mp h
    cases h
    have hitem : ((!opts.subCacheMultitenant || decide (cSub.item.tenant = u.tenant)) &&
        u.subMatch cSub.item.rest) = matched := by
      have hiff := subMatch_true env opts.subCacheMultitenant cSub r
      rw [hmatched, some_inj] at hiff
      rw [Bool.eq_iff_iff, hiff, Bool.and_eq_true, Bool.or_eq_true, decide_eq_true_eq, hmatch,
        item_tenant, htenant, String.ofList_inj]
      refine and_congr_left' ?_
      cases opts.subCacheMultitenant with
      | false => simp
      | true => simp [SameTenant]
    have hrest' := ih hrest
    unfold SubCacheThrottling.subCacheMatch at hrest' ⊢
    rw [map_cons, filter_cons, hrest', hitem]
    cases matched with
    | false => rfl
    | true => rfl

end

section

open SubCacheThrottling

variable {κ : Type} {T : String}

def itemsOf (T : String) (cache : List (SubCacheThrottling.CachedSubscription κ)) :
    List (SubCacheThrottling.CachedSubscription κ) :=
  cache.filter fun cSub => cSub.tenant = T

variable {opts : Options κ} {u : Update κ} {s s' : Broker κ}

theorem itemsOf_match (hmulti : opts.subCacheMultitenant = true) (u : Update κ)
    (cache : List (SubCacheThrottling.CachedSubscription κ)) :
    SubCacheThrottling.subCacheMatch opts u (itemsOf u.tenant cache) =
      SubCacheThrottling.subCacheMatch opts u cache := by
  unfold SubCacheThrottling.subCacheMatch itemsOf
  rw [List.filter_filter]
  refine List.filter_congr fun cSub _ => ?_
  rw [hmulti]
  by_cases h : cSub.tenant = u.tenant <;> simp [h]

theorem itemsOf_notify (t : ℚ) (key : Key)
    (cache : List (SubCacheThrottling.CachedSubscription κ)) :
    itemsOf T (notify t key cache) =
      if key.1 = T then notify t key (itemsOf T cache) else itemsOf T cache := by
  induction cache with
  | nil => simp [itemsOf, notify]
  | cons cSub cache ih =>
    unfold itemsOf at ih ⊢
    rw [notify]
    by_cases hkey : cSub.key = key
    · have htenant : cSub.tenant = key.1 := congrArg Prod.fst hkey
      by_cases hT : key.1 = T
      · rw [if_pos hkey, if_pos hT, filter_cons_of_pos (by simpa [htenant] using hT),
          filter_cons_of_pos (by simpa [htenant] using hT), notify, if_pos hkey]
      · rw [if_pos hkey, if_neg hT, filter_cons_of_neg (by simpa [htenant] using hT),
          filter_cons_of_neg (by simpa [htenant] using hT)]
    · rw [if_neg hkey]
      by_cases hown : cSub.tenant = T
      · rw [filter_cons_of_pos (by simpa using hown),
          filter_cons_of_pos (by simpa using hown), ih]
        split
        · rw [notify, if_neg hkey]
        · rfl
      · rw [filter_cons_of_neg (by simpa using hown),
          filter_cons_of_neg (by simpa using hown), ih]

/-- Two brokers that a tenant cannot tell apart. -/
structure AlikeFor (T : String) (s s' : Broker κ) : Prop where
  items : itemsOf T s.subCache = itemsOf T s'.subCache
  sent : s.sent = s'.sent

theorem sendNotification_alike {t : TriggeredSubscription} (h : AlikeFor T s s') :
    AlikeFor T (sendNotification u t s) (sendNotification u t s') := by
  refine ⟨?_, congrArg (· ++ [(t.held, u.requestTime)]) h.sent⟩
  unfold sendNotification
  split
  · rw [itemsOf_notify, itemsOf_notify, h.items]
  · exact h.items

theorem process_alike {subs : List TriggeredSubscription} (h : AlikeFor T s s') :
    AlikeFor T (processSubscriptions u subs s) (processSubscriptions u subs s') := by
  induction subs generalizing s s' with
  | nil => exact h
  | cons t subs ih =>
    rw [processSubscriptions, processSubscriptions]
    split
    · exact ih h
    split
    · exact ih (sendNotification_alike h)
    · exact ih h

theorem triggered_alike (hmulti : opts.subCacheMultitenant = true)
    {cache cache' : List (SubCacheThrottling.CachedSubscription κ)}
    (h : itemsOf u.tenant cache = itemsOf u.tenant cache') :
    addTriggeredSubscriptions_withCache opts u cache =
      addTriggeredSubscriptions_withCache opts u cache' := by
  unfold addTriggeredSubscriptions_withCache
  rw [← itemsOf_match hmulti u cache, ← itemsOf_match hmulti u cache', h]

theorem update_alike (hmulti : opts.subCacheMultitenant = true) (h : AlikeFor u.tenant s s') :
    AlikeFor u.tenant (update opts s u) (update opts s' u) := by
  have hnow : AlikeFor u.tenant { s with requestTime := u.requestTime }
      { s' with requestTime := u.requestTime } := ⟨h.items, h.sent⟩
  unfold update
  dsimp only
  rw [triggered_alike hmulti h.items]
  split
  · exact hnow
  split
  · exact process_alike hnow
  · exact hnow

theorem run_alike (hmulti : opts.subCacheMultitenant = true) {us : List (Update κ)}
    (htenant : ∀ u ∈ us, u.tenant = T) (h : AlikeFor T s s') :
    AlikeFor T (run (update opts) s us) (run (update opts) s' us) := by
  induction us generalizing s s' with
  | nil => exact h
  | cons u us ih =>
    obtain ⟨rfl, hrest⟩ := forall_mem_cons.mp htenant
    exact ih hrest (update_alike hmulti h)

theorem itemsOf_item (tenant : Option Text) (cache : List (CachedSubscription φ η)) :
    itemsOf (String.ofList (tenant.getD [])) (cache.map CachedSubscription.item) =
      (ownItems tenant cache).map CachedSubscription.item := by
  unfold itemsOf ownItems
  rw [List.filter_map]
  congr 1
  refine List.filter_congr fun cSub _ => ?_
  exact decide_eq_decide.mpr String.ofList_inj

def brokerWith {φ η : Type} (cache : List (CachedSubscription φ η))
    (csubs : List (SubCacheThrottling.Csub (CachedSubscription φ η))) (requestTime : ℚ) :
    Broker (CachedSubscription φ η) :=
  ⟨cache.map CachedSubscription.item, csubs, requestTime, []⟩

/-- With multitenancy on, an update meets no subscription of another tenant. Caches that are the
same for its tenant are matched alike, and in runs of updates of this tenant they send the same
notifications. -/
theorem tenants_isolated {φ η : Type} (env : RegexEnv)
    {cache cache' : List (CachedSubscription φ η)} {r : MatchRequest}
    (hsame : ownItems r.tenant cache = ownItems r.tenant cache') :
    (∀ subVec, subCacheMatch env true r cache = some subVec →
      ∀ cSub ∈ subVec, SameTenant cSub.tenant r.tenant) ∧
    subCacheMatch env true r cache = subCacheMatch env true r cache' ∧
    (∀ id cSub, subCacheItemLookup r.tenant id cache = some cSub →
      SameTenant cSub.tenant r.tenant) ∧
    ∀ (opts : Options (CachedSubscription φ η)) csubs requestTime us,
      opts.subCacheMultitenant = true →
      (∀ u ∈ us, u.tenant = String.ofList (r.tenant.getD [])) →
      (run (update opts) (brokerWith cache csubs requestTime) us).sent =
        (run (update opts) (brokerWith cache' csubs requestTime) us).sent := by
  refine ⟨?_, ?_, ?_, ?_⟩
  · intro subVec h cSub hmem
    obtain ⟨-, hmatch⟩ := mem_subCacheMatch h hmem
    exact ((subMatch_true env true cSub r).mp hmatch).1 rfl
  · rw [subCacheMatch_own, hsame, ← subCacheMatch_own]
  · intro id cSub h
    exact (lookup_tenant h).2.1
  · intro opts csubs requestTime us hmulti htenant
    have halike : AlikeFor (String.ofList (r.tenant.getD []))
        (brokerWith cache csubs requestTime) (brokerWith cache' csubs requestTime) := by
      refine ⟨?_, rfl⟩
      unfold brokerWith
      rw [itemsOf_item, itemsOf_item, hsame]
    exact (run_alike hmulti htenant halike).sent

def everything (tenant : Option Text) : CachedSubscription Unit Unit where
  entityIdInfos := [⟨".*".toList, true, [], false⟩]
  attributes := []
  metadata := []
  notifyConditionV := []
  tenant := tenant
  servicePath := "/#".toList
  subscriptionId := "5a0".toList
  throttling := -1
  expirationTime := 100
  lastNotificationTime := -1
  status := "active".toList
  ldContext := []
  count := 0
  renderFormat := .ngsiV2Normalized
  expression := ⟨[], [], [], [], [], [], (), ()⟩
  blacklist := false
  httpInfo := ()
  lastFailure := -1
  lastSuccess := -1

def anyText : RegexEnv := ⟨fun _ => true, fun _ _ => true⟩

def defaultRequest : MatchRequest := ⟨none, [], "urn:E1".toList, "T".toList, ["P".toList]⟩

def defaultUpdate : Update (CachedSubscription Unit Unit) :=
  ⟨"", 7, selects anyText defaultRequest, fun _ => true, true, fun _ => true⟩

theorem tenants_isolated_default :
    subCacheMatch anyText true defaultRequest [everything (some []), everything (some ['t'])] =
        subCacheMatch anyText true defaultRequest [everything (some [])] ∧
      (run (update ⟨true, fun _ => true⟩)
          (brokerWith [everything (some []), everything (some ['t'])] [] 1) [defaultUpdate]).sent =
        (run (update ⟨true, fun _ => true⟩)
          (brokerWith [everything (some [])] [] 1) [defaultUpdate]).sent := by
  have hsame : ownItems defaultRequest.tenant [everything (some []), everything (some ['t'])] =
      ownItems defaultRequest.tenant [everything (some [])] := rfl
  have h := tenants_isolated anyText hsame
  exact ⟨h.2.1, h.2.2.2 _ [] 1 [defaultUpdate] rfl (by simp [defaultUpdate, defaultRequest])⟩

theorem default_items_matched :
    SubCacheThrottling.subCacheMatch ⟨true, fun _ => true⟩ defaultUpdate
        ([everything (some []), everything (some ['t'])].map CachedSubscription.item) =
      [everything (some [])].map CachedSubscription.item :=
  match_refines anyText ⟨true, fun _ => true⟩ defaultRequest defaultUpdate rfl rfl rfl

end

end SubCache
