import OrionLd.SubCache

/-! The items that are made of subscription documents: by a refresh of the cache, by an update
of the subscription, and by its creation. What httpInfo.fill reads of a document is one field
of it here, and the parser of the filters is left open. -/
namespace MongoSubCache

open KjTree SubCache Option
open KjTreeToSubscription (RenderFormat)

structure ExpressionDoc where
  q : Option Text
  mq : Option Text
  geometry : Option Text
  coords : Option Text
  georel : Option Text

structure EntityDoc where
  id : Option Text
  isPattern : Option Text
  type : Option Text
  isTypePattern : Option Bool

structure SubDoc (η : Type) where
  _id : Option Text
  ldContext : Option Text
  format : Option Text
  servicePath : Option Text
  throttling : Option ℚ
  expiration : Option ℚ
  lastNotification : Option ℚ
  status : Option Text
  blacklist : Option Bool
  lastFailure : Option ℚ
  lastSuccess : Option ℚ
  httpInfo : η
  expression : Option ExpressionDoc
  entities : List EntityDoc
  attrs : List Text
  metadata : Option (List Text)
  conditions : List Text

variable {φ η : Type}

inductive StringFilterType where
  | sftQ
  | sftMq

structure FilterParser (φ : Type) where
  noFilter : φ
  parse : StringFilterType → Text → Option φ

def FilterParser.filter (parser : FilterParser φ) (type : StringFilterType) (s : Text) :
    Option φ :=
  if s = [] then some parser.noFilter else parser.parse type s

def renderFormats : List (String × RenderFormat) :=
  [("JSON", .ngsiV1Legacy), ("legacy", .ngsiV1Legacy), ("normalized", .ngsiV2Normalized),
    ("keyValues", .ngsiV2Keyvalues), ("values", .ngsiV2Values),
    ("uniqueValues", .ngsiV2UniqueValues), ("custom", .ngsiV2Custom),
    ("x-ngsiv2", .ngsiLdV1V2NormalizedCompact), ("x-ngsiv2-normalized", .ngsiLdV1V2Normalized),
    ("x-ngsiv2-keyValues", .ngsiLdV1V2Keyvalues),
    ("x-ngsiv2-normalized-compacted", .ngsiLdV1V2NormalizedCompact),
    ("x-ngsiv2-keyValues-compacted", .ngsiLdV1V2KeyvaluesCompact)]

def stringToRenderFormat (s : Text) : RenderFormat :=
  ((renderFormats.find? fun f => f.1.toList == s).map Prod.snd).getD .ngsiV2Normalized

def entityInfos (env : RegexEnv) (entities : List EntityDoc) : List EntityInfo :=
  entities.filterMap fun e => e.id.map fun id =>
    let isPattern := e.isPattern.getD "false".toList
    if isPattern = [] ∧ id = [] then
      entityInfo env ".*".toList (e.type.getD []) "true".toList (e.isTypePattern.getD false)
    else entityInfo env id (e.type.getD []) isPattern (e.isTypePattern.getD false)

/-- An NGSI-LD subscription has one of two formats. -/
def refreshedFormat (ldContext : Text) (format : RenderFormat) : RenderFormat :=
  if ldContext = [] then format
  else match format with
    | .ngsiV2Normalized => .ngsiLdV1Normalized
    | .ngsiV2Keyvalues => .ngsiLdV1Keyvalues
    | _ => .ngsiLdV1Normalized

def noExpression : ExpressionDoc := ⟨none, none, none, none, none⟩

/-- The item that a refresh makes of a document. No field of it is filled from metadata. -/
def mongoSubCacheItemInsert (env : RegexEnv) (parser : FilterParser φ) (tenant : Option Text)
    (sub : SubDoc η) : Option (CachedSubscription φ η) := do
  let subId ← sub._id
  let expression := sub.expression.getD noExpression
  let stringFilter ← parser.filter .sftQ (expression.q.getD [])
  let mdStringFilter ← parser.filter .sftMq (expression.mq.getD [])
  let entityIdInfos := entityInfos env sub.entities
  if entityIdInfos = [] then none
  else some {
    entityIdInfos := entityIdInfos
    attributes := sub.attrs
    metadata := []
    notifyConditionV := sub.conditions
    tenant := some (tenant.getD [])
    servicePath := sub.servicePath.getD "/".toList
    subscriptionId := subId
    throttling := sub.throttling.getD (-1)
    expirationTime := sub.expiration.getD 0
    lastNotificationTime := sub.lastNotification.getD (-1)
    status := sub.status.getD "active".toList
    ldContext := sub.ldContext.getD []
    count := 0
    renderFormat := refreshedFormat (sub.ldContext.getD [])
      (stringToRenderFormat (sub.format.getD "legacy".toList))
    expression := {
      q := expression.q.getD []
      mq := expression.mq.getD []
      geometry := expression.geometry.getD []
      coords := expression.coords.getD []
      georel := expression.georel.getD []
      geoproperty := []
      stringFilter := stringFilter
      mdStringFilter := mdStringFilter }
    blacklist := sub.blacklist.getD false
    httpInfo := sub.httpInfo
    lastFailure := sub.lastFailure.getD (-1)
    lastSuccess := sub.lastSuccess.getD (-1) }

structure ItemArguments (φ : Type) where
  subscriptionId : Option Text
  servicePath : Option Text
  lastNotificationTime : ℚ
  lastFailure : ℚ
  lastSuccess : ℚ
  expirationTime : ℚ
  status : Text
  q : Text
  mq : Text
  geometry : Text
  coords : Text
  georel : Text
  stringFilter : Option φ
  mdStringFilter : Option φ
  renderFormat : RenderFormat

/-- The item that an update makes. The times of the last failure and success stay zero. -/
def mongoSubCacheItemInsertUpdate (env : RegexEnv) (parser : FilterParser φ)
    (tenant : Option Text) (sub : SubDoc η) (args : ItemArguments φ) :
    Option (CachedSubscription φ η) :=
  let entityIdInfos := entityInfos env sub.entities
  if args.subscriptionId.getD [] = [] then none
  else if args.servicePath.getD [] = [] then none
  else if entityIdInfos = [] then none
  else some {
    entityIdInfos := entityIdInfos
    attributes := sub.attrs
    metadata := sub.metadata.getD []
    notifyConditionV := sub.conditions
    tenant := if tenant.getD [] = [] then none else tenant
    servicePath := args.servicePath.getD []
    subscriptionId := args.subscriptionId.getD []
    throttling := sub.throttling.getD (-1)
    expirationTime := args.expirationTime
    lastNotificationTime :=
      if args.lastNotificationTime = -1 then sub.lastNotification.getD (-1)
      else args.lastNotificationTime
    status := args.status
    ldContext := []
    count := 0
    renderFormat := args.renderFormat
    expression := {
      q := args.q
      mq := args.mq
      geometry := args.geometry
      coords := args.coords
      georel := args.georel
      geoproperty := []
      stringFilter := args.stringFilter.getD parser.noFilter
      mdStringFilter := args.mdStringFilter.getD parser.noFilter }
    blacklist := sub.blacklist.getD false
    httpInfo := sub.httpInfo
    lastFailure := 0
    lastSuccess := 0 }

/-- The document's own field values. A text that is no filter gives none. -/
def ownArguments (parser : FilterParser φ) (sub : SubDoc η) : ItemArguments φ :=
  let expression := sub.expression.getD noExpression
  { subscriptionId := sub._id
    servicePath := some (sub.servicePath.getD "/".toList)
    lastNotificationTime := sub.lastNotification.getD (-1)
    lastFailure := sub.lastFailure.getD (-1)
    lastSuccess := sub.lastSuccess.getD (-1)
    expirationTime := sub.expiration.getD 0
    status := sub.status.getD "active".toList
    q := expression.q.getD []
    mq := expression.mq.getD []
    geometry := expression.geometry.getD []
    coords := expression.coords.getD []
    georel := expression.georel.getD []
    stringFilter := parser.filter .sftQ (expression.q.getD [])
    mdStringFilter := parser.filter .sftMq (expression.mq.getD [])
    renderFormat := stringToRenderFormat (sub.format.getD "normalized".toList) }

variable {env : RegexEnv} {parser : FilterParser φ}

structure Agree (c c' : CachedSubscription φ η) : Prop where
  tenant : SameTenant c.tenant c'.tenant
  servicePath : c.servicePath = c'.servicePath
  entityIdInfos : c.entityIdInfos = c'.entityIdInfos
  notifyConditionV : c.notifyConditionV = c'.notifyConditionV
  attributes : c.attributes = c'.attributes
  metadata : c.metadata = c'.metadata
  blacklist : c.blacklist = c'.blacklist
  expression : c.expression = c'.expression
  throttling : c.throttling = c'.throttling
  expirationTime : c.expirationTime = c'.expirationTime
  status : c.status = c'.status

def EntersOnRefresh (parser : FilterParser φ) (sub : SubDoc η) : Prop :=
  sub._id.isSome ∧ (∃ e ∈ sub.entities, e.id.isSome) ∧
    (parser.filter .sftQ ((sub.expression.getD noExpression).q.getD [])).isSome ∧
    (parser.filter .sftMq ((sub.expression.getD noExpression).mq.getD [])).isSome

def EntersOnUpdate (sub : SubDoc η) : Prop :=
  (∃ id, sub._id = some id ∧ id ≠ []) ∧ (∃ e ∈ sub.entities, e.id.isSome) ∧
    sub.servicePath ≠ some []

theorem entityInfos_nil {entities : List EntityDoc} :
    entityInfos env entities = [] ↔ ¬ ∃ e ∈ entities, e.id.isSome := by
  rw [entityInfos, List.filterMap_eq_nil_iff]
  constructor
  · rintro h ⟨e, he, hid⟩
    have hnone := h e he
    rw [map_eq_none_iff] at hnone
    rw [hnone] at hid
    cases hid
  · intro h e he
    rw [map_eq_none_iff, ← not_isSome_iff_eq_none]
    exact fun hid => h ⟨e, he, hid⟩

variable {tenant : Option Text} {sub : SubDoc η}

theorem refresh_none (h : ¬ EntersOnRefresh parser sub) :
    mongoSubCacheItemInsert env parser tenant sub = none := by
  rw [eq_none_iff_forall_ne_some]
  intro c hc
  obtain ⟨subId, hid, hc⟩ := bind_eq_some_iff.mp hc
  obtain ⟨q, hq, hc⟩ := bind_eq_some_iff.mp hc
  obtain ⟨mq, hmq, hc⟩ := bind_eq_some_iff.mp hc
  dsimp only at hc
  split at hc
  · cases hc
  rename_i hentities
  rw [entityInfos_nil, not_not] at hentities
  exact h ⟨isSome_of_eq_some hid, hentities, isSome_of_eq_some hq, isSome_of_eq_some hmq⟩

theorem update_none (h : ¬ EntersOnUpdate sub) :
    mongoSubCacheItemInsertUpdate env parser tenant sub (ownArguments parser sub) = none := by
  unfold mongoSubCacheItemInsertUpdate ownArguments
  dsimp only
  split
  · rfl
  rename_i hid
  split
  · rfl
  rename_i hpath
  split
  · rfl
  rename_i hentities
  rw [entityInfos_nil, not_not] at hentities
  refine absurd ⟨?_, hentities, ?_⟩ h
  · cases hsub : sub._id with
    | none => exact absurd (by rw [hsub]; rfl) hid
    | some id => exact ⟨id, rfl, by simpa [hsub] using hid⟩
  · intro hempty
    exact hpath (by rw [hempty]; rfl)

variable (env parser tenant) in
theorem update_some (h : EntersOnUpdate sub) :
    ∃ c', mongoSubCacheItemInsertUpdate env parser tenant sub (ownArguments parser sub) =
      some c' := by
  obtain ⟨⟨id, hid, hne⟩, hentities, hpath⟩ := h
  have hpath' : sub.servicePath.getD "/".toList ≠ [] := by
    cases hsub : sub.servicePath with
    | none => simp
    | some p => simpa [hsub] using hpath
  have hinfos : entityInfos env sub.entities ≠ [] := fun h => entityInfos_nil.mp h hentities
  unfold mongoSubCacheItemInsertUpdate ownArguments
  simp only [hid, getD_some]
  rw [if_neg hne, if_neg hpath', if_neg hinfos]
  exact ⟨_, rfl⟩

variable (env tenant) in
theorem refresh_some (h : EntersOnRefresh parser sub) :
    ∃ c, mongoSubCacheItemInsert env parser tenant sub = some c := by
  obtain ⟨hid, hentities, hq, hmq⟩ := h
  obtain ⟨subId, hid⟩ := isSome_iff_exists.mp hid
  obtain ⟨q, hq⟩ := isSome_iff_exists.mp hq
  obtain ⟨mq, hmq⟩ := isSome_iff_exists.mp hmq
  have hinfos : entityInfos env sub.entities ≠ [] := fun h => entityInfos_nil.mp h hentities
  unfold mongoSubCacheItemInsert
  simp only [hid, hq, hmq, bind_eq_bind, bind_some]
  rw [if_neg hinfos]
  exact ⟨_, rfl⟩

variable {c c' : CachedSubscription φ η}

theorem items_agree (hc : mongoSubCacheItemInsert env parser tenant sub = some c)
    (hc' : mongoSubCacheItemInsertUpdate env parser tenant sub (ownArguments parser sub) =
    some c') : Agree c c' ↔ sub.metadata.getD [] = [] := by
  obtain ⟨subId, hid, hc⟩ := bind_eq_some_iff.mp hc
  obtain ⟨q, hq, hc⟩ := bind_eq_some_iff.mp hc
  obtain ⟨mq, hmq, hc⟩ := bind_eq_some_iff.mp hc
  unfold mongoSubCacheItemInsertUpdate ownArguments at hc'
  rw [ite_none_left_eq_some] at hc hc'
  rw [ite_none_left_eq_some, ite_none_left_eq_some] at hc'
  obtain ⟨-, hc⟩ := hc
  obtain ⟨-, -, -, hc'⟩ := hc'
  cases hc
  cases hc'
  have htenant : SameTenant (some (tenant.getD []))
      (if tenant.getD [] = [] then none else tenant) := by
    split
    · assumption
    · rfl
  constructor
  · intro h
    exact h.metadata.symm
  · intro h
    exact ⟨htenant, rfl, rfl, rfl, rfl, h.symm, rfl, by simp [hq, hmq], rfl, rfl, rfl⟩

theorem rel_some : Option.Rel Agree (some c) (some c') ↔ Agree c c' := by
  constructor
  · intro h
    cases h with
    | some h => exact h
  · exact Option.Rel.some

/-- A refresh changes no item exactly when it caches the same documents as the updates do, and those
have no metadata. -/
theorem refresh_agrees_iff (env : RegexEnv) (parser : FilterParser φ) (tenant : Option Text)
    (sub : SubDoc η) :
    Option.Rel Agree (mongoSubCacheItemInsert env parser tenant sub)
        (mongoSubCacheItemInsertUpdate env parser tenant sub (ownArguments parser sub)) ↔
      (EntersOnRefresh parser sub ↔ EntersOnUpdate sub) ∧
        (EntersOnRefresh parser sub → sub.metadata.getD [] = []) := by
  by_cases hrefresh : EntersOnRefresh parser sub
  · obtain ⟨c, hc⟩ := refresh_some env tenant hrefresh
    by_cases hupdate : EntersOnUpdate sub
    · obtain ⟨c', hc'⟩ := update_some env parser tenant hupdate
      rw [hc, hc', rel_some, items_agree hc hc', iff_true_intro hrefresh, iff_true_intro hupdate,
        true_imp_iff, true_iff, true_and]
    · rw [hc, update_none hupdate]
      refine iff_of_false nofun fun h => hupdate (h.1.mp hrefresh)
  · rw [refresh_none hrefresh]
    by_cases hupdate : EntersOnUpdate sub
    · obtain ⟨c', hc'⟩ := update_some env parser tenant hupdate
      rw [hc']
      refine iff_of_false nofun fun h => hrefresh (h.1.mpr hupdate)
    · rw [update_none hupdate]
      refine iff_of_true .none ⟨iff_of_false hrefresh hupdate, fun h => absurd h hrefresh⟩

def datedSubscription : SubDoc Unit where
  _id := some "5a0".toList
  ldContext := none
  format := some "normalized".toList
  servicePath := some "/".toList
  throttling := none
  expiration := some 100
  lastNotification := none
  status := some "active".toList
  blacklist := some false
  lastFailure := none
  lastSuccess := none
  httpInfo := ()
  expression := none
  entities := [⟨some "urn:E1".toList, some "false".toList, some "T".toList, some false⟩]
  attrs := []
  metadata := some ["dateCreated".toList]
  conditions := []

def anyFilter : FilterParser Unit := ⟨(), fun _ _ => some ()⟩

theorem refresh_forgets_metadata : ¬ ∀ (tenant : Option Text) (sub : SubDoc Unit),
    Option.Rel Agree (mongoSubCacheItemInsert anyText anyFilter tenant sub)
      (mongoSubCacheItemInsertUpdate anyText anyFilter tenant sub
        (ownArguments anyFilter sub)) := by
  intro h
  have hentity : ∃ e ∈ datedSubscription.entities, e.id.isSome := ⟨_, List.mem_cons_self, rfl⟩
  have hrefresh : EntersOnRefresh anyFilter datedSubscription := ⟨rfl, hentity, rfl, rfl⟩
  have hupdate : EntersOnUpdate datedSubscription := ⟨⟨_, rfl, by decide⟩, hentity, by decide⟩
  obtain ⟨c, hc⟩ := refresh_some anyText none hrefresh
  obtain ⟨c', hc'⟩ := update_some anyText anyFilter none hupdate
  have hagree := h none datedSubscription
  rw [hc, hc', rel_some, items_agree hc hc'] at hagree
  exact absurd hagree (by decide)

end MongoSubCache
