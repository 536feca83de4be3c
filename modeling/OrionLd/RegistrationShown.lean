import OrionLd.RegistrationRead

/-! Whether a registration is shown as it was created: the payload against the tree that
comes out of the database again under the same context. The values of the members are
compared as JSON values, dates as instants. -/
namespace RegistrationShown

open KjTree OrionldContextItem KjTreeToContextAttribute KjTreeToEntIdVector KjTreeToRegistration
open OrionldPostRegistrations RegistrationDocument RegistrationRead MongoCppLegacyCodec
open Fallible SameJson List Function

def SameDate (env : Env) (x y : KjNode) : Prop :=
  ∃ s t, x = .string s ∧ y = .string t ∧ timeOf env s = timeOf env t

def SameInterval (env : Env) (x y : KjNode) : Prop :=
  ∃ xs ys, x = .object xs ∧ y = .object ys ∧ ObjectRel (SameDate env) xs ys

def SameValue (env : Env) (name : Text) : KjNode → KjNode → Prop :=
  match memberKind name with
  | .field .expires | .readOnly => SameDate env
  | .field .observationInterval | .field .managementInterval => SameInterval env
  | _ => Same

/-- The system attributes are shown when they are asked for. -/
structure ShownAsGiven (env : Env) (sysAttrs : Bool) (p : Post) (tree : Members) : Prop where
  id : ∀ id, p.payloadId = some id → stringMember "id" id ∈ tree
  type : ∀ type, p.payloadType = some type → stringMember "type" type ∈ tree
  given : ∀ m ∈ p.members, ∃ v, (m.1, v) ∈ tree ∧ SameValue env m.1 m.2 v
  only : ∀ m ∈ tree, m.1 = "id".toList ∨ m.1 = "type".toList ∨ m.1 ∈ p.members.map Prod.fst ∨
    (sysAttrs = true ∧ memberKind m.1 = .readOnly)

/-- The date that is shown for an instant is of that instant. -/
def DateKept (env : DateEnv) (t : ℚ) : Prop := timeOf env.toEnv (numberToDate env t) = t

def IntervalKept (env : DateEnv) (ms : Members) : Prop :=
  ∃ s e, ms.Perm [stringMember "start" s, stringMember "end" e] ∧
    0 < timeOf env.toEnv s ∧ 0 < timeOf env.toEnv e ∧
    DateKept env (timeOf env.toEnv s) ∧ DateKept env (timeOf env.toEnv e)

def GeoKept (ms : Members) : Prop :=
  pcheckGeoPropertyValue (.object ms) = .ok () ∧
    ∀ coords, ("coordinates".toList, coords) ∈ ms → Lossless coords

/-- A type as it is shown: compacted twice when it is read, and under the core context. -/
def shownType (c : Contexts) (type : Text) : Text :=
  let alias₁ := orionldContextItemAliasLookup c type
  orionldContextItemAliasLookup (coreOnly c)
    (if alias₁ ≠ [] then orionldContextItemAliasLookup c alias₁ else alias₁)

def EntityKept (c : Contexts) (item : KjNode) : Prop :=
  ∃ ms, item = .object ms ∧ (∀ m ∈ ms, PlainName m.1) ∧
    stringMember "idPattern" [] ∉ ms ∧
    ∀ s, stringMember "type" s ∈ ms → shownType c (entityType c s) = s

def shownAlias (c : Contexts) (name : Text) : Text :=
  orionldContextItemAliasLookup (coreOnly c) (orionldContextItemAliasLookup c name)

def NameKept (c : Contexts) (item : KjNode) : Prop :=
  ∃ s, item = .string s ∧ (orionldAttributeExpand c s).1 ≠ [] ∧
    shownAlias c (orionldAttributeExpand c s).1 = s

/-- An item of the entities, or a name of the properties or relationships. -/
def ItemKept (c : Contexts) (name : Text) (item : KjNode) : Prop :=
  if name = "entities".toList then EntityKept c item else NameKept c item

def InformationKept (c : Contexts) (node : KjNode) : Prop :=
  ∃ ms, node = .array [.object ms] ∧ ∀ m ∈ ms, ∃ items, m.2 = .array items ∧
    ∀ item ∈ items, ItemKept c m.1 item

def FieldKept (env : DateEnv) (f : Field) (node : KjNode) : Prop :=
  match f with
  | .name | .description => node ≠ .string []
  | .endpoint => True
  | .expires => ∀ s, node = .string s → DateKept env (timeOf env.toEnv s)
  | .observationInterval | .managementInterval => ∀ ms, node = .object ms → IntervalKept env ms
  | .location | .observationSpace | .operationSpace =>
    ∀ ms, node = .object ms → GeoKept ms
  | .information => InformationKept env.toContexts node

structure Kept (env : DateEnv) (sysAttrs : Bool) (p : Post) : Prop where
  endpoint : Field.endpoint ∈ seenIn p.members
  information : Field.information ∈ seenIn p.members
  fields : ∀ m ∈ p.members, ∀ f, fieldOf m = some f → FieldKept env f m.2
  readOnly : ∀ m ∈ p.members, memberKind m.1 = .readOnly →
    sysAttrs = true ∧ env.requestTime ≠ -1 ∧
      SameDate env.toEnv m.2 (.string (numberToDate env env.requestTime))
  extras : ∀ m ∈ p.members, isProperty m = true →
    ∃ m' ∈ extras env.toContexts p.members,
      orionldContextItemAliasLookup env.toContexts m'.1 = m.1 ∧
        ∃ left, kept m'.2 = some left ∧ Same m.2 left

variable (env : DateEnv)

def shownIntervalValue (i : TimeInterval) : Option KjNode :=
  if 0 < i.start then
    some (.object (stringMember "start" (numberToDate env i.start) ::
      if 0 < i.endTime then [stringMember "end" (numberToDate env i.endTime)] else []))
  else none

def shownGeoValue (l : GeoLocation) : Option KjNode :=
  (setGeoLocation l).map fun doc => .object [stringMember "type" doc.type,
    ("coordinates".toList, .array (arrayToKjTree doc.coordinates))]

def shownField (r : Registration) : Field → Option KjNode
  | .name => (filled r.name).map .string
  | .description => (filled r.description).map .string
  | .expires =>
    if r.expires ≠ -1 then some (.string (numberToDate env r.expires)) else none
  | .endpoint => some (.string r.url)
  | .information => some (.array [.object (shownInformation (coreOnly env.toContexts)
      (mongoSetDataProvided env.toContexts (setContextRegistrationVector r)))])
  | .observationInterval => shownIntervalValue env r.observationInterval
  | .managementInterval => shownIntervalValue env r.managementInterval
  | .location => shownGeoValue r.location
  | .observationSpace => shownGeoValue r.observationSpace
  | .operationSpace => shownGeoValue r.operationSpace

def fieldMembers (r : Registration) (f : Field) : Members :=
  ((shownField env r f).map fun v => (f.text.toList, v)).toList

def shownDates (sysAttrs : Bool) : Members :=
  if sysAttrs = true ∧ env.requestTime ≠ -1 then
    [stringMember "createdAt" (numberToDate env env.requestTime),
      stringMember "modifiedAt" (numberToDate env env.requestTime)]
  else []

def shownExtras (properties : Members) : Members :=
  (objectToKjTree (kjTreeToBsonObject properties)).map fun m =>
    (orionldContextItemAliasLookup env.toContexts m.1, m.2)

theorem shownInterval_eq (name : String) (i : TimeInterval) :
    shownInterval env name (mongoSetInterval (setTimeInterval i)) =
      ((shownIntervalValue env i).map fun v => (name.toList, v)).toList := by
  unfold shownInterval mongoSetInterval setTimeInterval shownIntervalValue
  by_cases hi : 0 < i.start
  · have hne : i.start ≠ 0 := ne_of_gt hi
    simp [hne, hi]
  · by_cases h0 : i.start = 0 <;> simp [hi, h0]

theorem shownGeo_eq (name : String) (l : GeoLocation) :
    shownGeo name (mongoSetGeo (setGeoLocation l)) =
      ((shownGeoValue l).map fun v => (name.toList, v)).toList := by
  unfold shownGeo mongoSetGeo shownGeoValue
  cases setGeoLocation l <;> rfl

theorem shown_eq (sysAttrs : Bool) (r : Registration) :
    shown env sysAttrs r =
      [stringMember "id" r.id, stringMember "type" "ContextSourceRegistration".toList] ++
      fieldMembers env r .name ++ fieldMembers env r .description ++ shownDates env sysAttrs ++
      fieldMembers env r .expires ++ fieldMembers env r .endpoint ++
      fieldMembers env r .information ++ fieldMembers env r .observationInterval ++
      fieldMembers env r .managementInterval ++ fieldMembers env r .location ++
      fieldMembers env r .observationSpace ++ fieldMembers env r .operationSpace ++
      shownExtras env (r.properties.getD []) := by
  have hname : (if (filled r.name).getD [] ≠ [] then
      [stringMember "name" ((filled r.name).getD [])] else []) = fieldMembers env r .name := by
    unfold fieldMembers shownField filled
    by_cases h : r.name = [] <;> simp [h, stringMember, Field.text]
  have hdescription : (if (filled r.description).isSome = true then
      [stringMember "description" ((filled r.description).getD [])] else []) =
        fieldMembers env r .description := by
    unfold fieldMembers shownField filled
    by_cases h : r.description = [] <;> simp [h, stringMember, Field.text]
  have hdates : (if sysAttrs = true then
      (if env.requestTime ≠ -1 then
        [stringMember "createdAt" (numberToDate env env.requestTime)] else []) ++
      (if env.requestTime ≠ -1 then
        [stringMember "modifiedAt" (numberToDate env env.requestTime)] else [])
      else []) = shownDates env sysAttrs := by
    unfold shownDates
    by_cases h : env.requestTime = -1 <;> cases sysAttrs <;> simp [h]
  have hexpires : (if (if r.expires ≠ -1 then some r.expires else none).getD (-1) ≠ -1 then
      [stringMember "expires" (numberToDate env
        ((if r.expires ≠ -1 then some r.expires else none).getD (-1)))] else []) =
        fieldMembers env r .expires := by
    unfold fieldMembers shownField
    by_cases h : r.expires = -1 <;> simp [h, stringMember, Field.text]
  have hextras : ((r.properties.map kjTreeToBsonObject).map objectToKjTree).getD [] =
      objectToKjTree (kjTreeToBsonObject (r.properties.getD [])) := by
    cases r.properties <;> rfl
  unfold shown kjTreeFromRegistration mongoLdRegistrationGet mongoRegistrationCreate
  simp only [hname, hdescription, hdates, hexpires, hextras, shownInterval_eq, shownGeo_eq]
  have hpair : ∀ pre : Members, pre ++ fieldMembers env r .endpoint ++
      fieldMembers env r .information = pre ++ (fieldMembers env r .endpoint ++
        fieldMembers env r .information) := fun pre => append_assoc _ _ _
  rw [hpair]
  rfl

variable {env : DateEnv}
variable {n : Text} {v : KjNode}
variable {r : Registration} {ms : Members}

theorem mem_fieldMembers {f : Field} :
    (n, v) ∈ fieldMembers env r f ↔ n = f.text.toList ∧ shownField env r f = some v := by
  unfold fieldMembers
  cases shownField env r f with
  | none => simp
  | some w => simp [eq_comm]

theorem mem_shown {sysAttrs : Bool} : (n, v) ∈ shown env sysAttrs r ↔
      (n, v) = stringMember "id" r.id ∨
      (n, v) = stringMember "type" "ContextSourceRegistration".toList ∨
      (∃ f, n = f.text.toList ∧ shownField env r f = some v) ∨
      (n, v) ∈ shownDates env sysAttrs ∨ (n, v) ∈ shownExtras env (r.properties.getD []) := by
  rw [shown_eq]
  simp only [mem_append, mem_cons, not_mem_nil, or_false, mem_fieldMembers, or_assoc]
  constructor
  · rintro (h | h | h | h | h | h | h | h | h | h | h | h | h | h)
    · exact .inl h
    · exact .inr (.inl h)
    · exact .inr (.inr (.inl ⟨_, h⟩))
    · exact .inr (.inr (.inl ⟨_, h⟩))
    · exact .inr (.inr (.inr (.inl h)))
    all_goals first
      | exact .inr (.inr (.inl ⟨_, h⟩))
      | exact .inr (.inr (.inr (.inr h)))
  · rintro (h | h | ⟨f, h⟩ | h | h)
    · simp [h]
    · simp [h]
    · cases f <;> simp [h]
    · simp [h]
    · simp [h]

theorem readOnly_iff :
    memberKind n = .readOnly ↔ n = "createdAt".toList ∨ n = "modifiedAt".toList := by
  constructor
  · intro h
    unfold memberKind at h
    split at h
    · cases h
    split at h
    · assumption
    · cases h
  · rintro (rfl | rfl) <;> rfl

theorem mem_shownDates {sysAttrs : Bool} :
    (n, v) ∈ shownDates env sysAttrs ↔ memberKind n = .readOnly ∧
      (sysAttrs = true ∧ env.requestTime ≠ -1) ∧
        v = .string (numberToDate env env.requestTime) := by
  rw [readOnly_iff]
  unfold shownDates
  split
  · next h =>
    constructor
    · intro hmem
      rcases mem_cons.mp hmem with hmem | hmem
      · exact ⟨.inl (Prod.mk.inj hmem).1, h, (Prod.mk.inj hmem).2⟩
      · have hlast := mem_singleton.mp hmem
        exact ⟨.inr (Prod.mk.inj hlast).1, h, (Prod.mk.inj hlast).2⟩
    · rintro ⟨rfl | rfl, -, rfl⟩
      · exact mem_cons_self
      · exact mem_cons_of_mem _ mem_cons_self
  · next h =>
    constructor
    · intro hmem
      cases hmem
    · rintro ⟨-, h', -⟩
      exact absurd h' h

theorem nodup_pair {s t : Text} {x y : KjNode} (h : s ≠ t) :
    (([(s, x), (t, y)] : Members).map Prod.fst).Nodup := by
  simp [h]

theorem sameDate_string {s t : Text} :
    SameDate env.toEnv (.string s) (.string t) ↔ timeOf env.toEnv s = timeOf env.toEnv t := by
  constructor
  · rintro ⟨s', t', hs, ht, h⟩
    obtain rfl := KjNode.string.inj hs
    obtain rfl := KjNode.string.inj ht
    exact h
  · intro h
    exact ⟨s, t, rfl, rfl, h⟩

theorem objectRel_pair_iff {R : KjNode → KjNode → Prop} {a b : Text} {x y x' y' : KjNode}
    (hab : a ≠ b) (hms : ms.Perm [(a, x), (b, y)]) :
    ObjectRel R ms [(a, x'), (b, y')] ↔ R x x' ∧ R y y' := by
  have hnodup : (ms.map Prod.fst).Nodup := ((hms.map Prod.fst).nodup_iff).mpr (nodup_pair hab)
  rw [objectRel_iff hnodup (nodup_pair hab)]
  constructor
  · rintro ⟨hall, -⟩
    obtain ⟨z, hz, hx⟩ := hall (a, x) (hms.mem_iff.mpr (by simp))
    obtain ⟨w, hw, hy⟩ := hall (b, y) (hms.mem_iff.mpr (by simp))
    have hz' : z = x' := by simpa [hab] using hz
    have hw' : w = y' := by simpa [hab.symm] using hw
    exact ⟨hz' ▸ hx, hw' ▸ hy⟩
  · rintro ⟨hx, hy⟩
    refine ⟨?_, ?_⟩
    · intro m hm
      rcases mem_cons.mp (hms.mem_iff.mp hm) with rfl | hm
      · exact ⟨x', by simp, hx⟩
      · obtain rfl : m = (b, y) := by simpa using hm
        exact ⟨y', by simp, hy⟩
    · intro m hm
      rw [(hms.map Prod.fst).mem_iff]
      rcases mem_cons.mp hm with rfl | hm
      · simp
      · obtain rfl : m = (b, y') := by simpa using hm
        simp

theorem interval_shown_iff (ms : Members) :
    (∃ v, shownIntervalValue env (kjTreeToTimeInterval env.toEnv ms ⟨0, 0⟩).1 = some v ∧
        SameInterval env.toEnv (.object ms) v) ↔ IntervalKept env ms := by
  constructor
  · rintro ⟨v, hv, xs, zs, hxs, rfl, hrel⟩
    obtain rfl := KjNode.object.inj hxs
    unfold shownIntervalValue at hv
    split at hv
    · rename_i hstart
      obtain ⟨s, e, hms, hi⟩ := interval_started hstart
      have hzs := KjNode.object.inj (Option.some.inj hv)
      rw [hi] at hzs hstart
      split at hzs
      · next hend =>
        rw [← hzs] at hrel
        obtain ⟨hs, he⟩ := (objectRel_pair_iff (by decide) hms).mp hrel
        exact ⟨s, e, hms, hstart, hend, (sameDate_string.mp hs).symm, (sameDate_string.mp he).symm⟩
      · have hlength := objectRel_length hrel
        rw [hms.length_eq, ← hzs] at hlength
        cases hlength
    · cases hv
  · rintro ⟨s, e, hms, hstart, hend, hs, he⟩
    have hi := interval_of_members hms (by linarith) (by linarith)
    refine ⟨.object [stringMember "start" (numberToDate env (timeOf env.toEnv s)),
      stringMember "end" (numberToDate env (timeOf env.toEnv e))], ?_, ms, _, rfl, rfl, ?_⟩
    · rw [hi]
      simp [shownIntervalValue, hstart, hend]
    · exact (objectRel_pair_iff (by decide) hms).mpr
        ⟨sameDate_string.mpr hs.symm, sameDate_string.mpr he.symm⟩

theorem same_array_kept (items : List KjNode) :
    Same (.array items) (.array (arrayToKjTree (kjTreeToBsonArray items))) ↔
      Lossless (.array items) := by
  rw [← kept_same_iff]
  simp [kept, kjTreeToBson, bsonToKjTree]

theorem geo_shown_iff (name : Text) (ms : Members) :
    (∃ v, shownGeoValue (kjTreeToGeoLocation name ms ⟨none, none⟩).1 = some v ∧
        Same (.object ms) v) ↔ GeoKept ms := by
  cases hresult : (kjTreeToGeoLocation name ms ⟨none, none⟩).2 with
  | error e =>
    rw [geo_refused hresult]
    constructor
    · rintro ⟨v, hv, -⟩
      cases hv
    · rintro ⟨hcheck, -⟩
      unfold kjTreeToGeoLocation at hresult
      rw [hcheck] at hresult
      split at hresult
      · rename_i heq
        cases heq
      · cases hresult
      rename_i hmembers
      rw [pcheckGeoPropertyValue, hmembers] at hcheck
      cases hcheck
  | ok u =>
    obtain ⟨t, items, hms, hl⟩ := geo_passed hresult
    have hcheck : pcheckGeoPropertyValue (.object ms) = .ok () := by
      unfold kjTreeToGeoLocation at hresult
      split at hresult
      · cases hresult
      · assumption
      · cases hresult
    have hvalue : shownGeoValue (kjTreeToGeoLocation name ms ⟨none, none⟩).1 =
        some (.object [stringMember "type" (geoJsonTypeName t).toList,
          ("coordinates".toList, .array (arrayToKjTree (kjTreeToBsonArray items)))]) := by
      rw [hl]
      rfl
    have hcoords : ("coordinates".toList, KjNode.array items) ∈ ms := hms.mem_iff.mpr (by simp)
    constructor
    · rintro ⟨v, hv, hsame⟩
      rw [hvalue] at hv
      cases hv
      obtain ⟨xs, hxs, hrel⟩ := same_object_right.mp hsame
      obtain rfl := KjNode.object.inj hxs
      have hkept := ((objectRel_pair_iff (by decide) hms).mp hrel).2
      refine ⟨hcheck, ?_⟩
      intro coords hmem
      have hnodup : (ms.map Prod.fst).Nodup :=
        ((hms.map Prod.fst).nodup_iff).mpr (nodup_pair (by decide))
      rw [value_of_nodup hnodup hmem hcoords]
      exact (same_array_kept items).mp hkept
    · rintro ⟨-, hlossless⟩
      refine ⟨_, hvalue, same_object_right.mpr ⟨ms, rfl, ?_⟩⟩
      exact (objectRel_pair_iff (by decide) hms).mpr
        ⟨Same.refl _, (same_array_kept items).mpr (hlossless _ hcoords)⟩

def entityShown (c : Contexts) (e : EntID) : KjNode :=
  shownEntity (coreOnly c) (mongoSetEntity c (setEntity e))

variable {c : Contexts} {type : Text} {e : EntID} {f : EntityFields}

theorem stored_type {id : Option Text} {isPattern : Option Text} :
    mongoSetEntity c ⟨id, isPattern, if type = [] then none else some type⟩ =
      mongoSetEntity c ⟨id, isPattern, some type⟩ := by
  by_cases h : type = []
  · rw [if_pos h, h]
    rfl
  · rw [if_neg h]

theorem entityShown_id {id : Text} (h : id ≠ []) : entityShown c ⟨id, [], type⟩ =
      .object [stringMember "id" id, stringMember "type" (shownType c type)] := by
  have hset : setEntity ⟨id, [], type⟩ =
      ⟨some id, none, if type = [] then none else some type⟩ := by
    unfold setEntity
    by_cases ht : type = [] <;> simp [h, ht]
  rw [entityShown, hset, stored_type]
  simp [mongoSetEntity, shownEntity, h, shownType]

theorem entityShown_pattern {idPattern : Text} (h : idPattern ≠ []) :
    entityShown c ⟨[], idPattern, type⟩ =
      .object [stringMember "idPattern" idPattern, stringMember "type" (shownType c type)] := by
  have hset : setEntity ⟨[], idPattern, type⟩ =
      ⟨some idPattern, some "true".toList, if type = [] then none else some type⟩ := by
    unfold setEntity
    by_cases ht : type = [] <;> simp [h, ht]
  rw [entityShown, hset, stored_type]
  simp [mongoSetEntity, shownEntity, h, shownType]

theorem entityShown_type (c : Contexts) (type : Text) :
    entityShown c ⟨[], [], type⟩ = .object [stringMember "type" (shownType c type)] := by
  simp [entityShown, setEntity, mongoSetEntity, shownEntity, shownType]

theorem plain_of_perm {zs : Members} (h : (ms.map Prod.fst).Perm (zs.map Prod.fst))
    (hzs : ∀ m ∈ zs, PlainName m.1) : ∀ m ∈ ms, PlainName m.1 := by
  intro m hm
  obtain ⟨z, hz, hname⟩ := mem_map.mp (h.mem_iff.mp (mem_map_of_mem hm : m.1 ∈ ms.map Prod.fst))
  exact hname ▸ hzs z hz

theorem plain_names : PlainName "id".toList ∧ PlainName "idPattern".toList ∧
    PlainName "type".toList := by
  refine ⟨⟨?_, ?_⟩, ⟨?_, ?_⟩, ⟨?_, ?_⟩⟩ <;> decide

def entityObject (hidden : Text → Prop) [DecidablePred hidden] (e : EntID) (type : Text) :
    Members :=
  (if e.id ≠ [] then [stringMember "id" e.id] else []) ++
    (if hidden e.idPattern then [] else [stringMember "idPattern" e.idPattern]) ++
    [stringMember "type" type]

theorem entityObject_plain {hidden : Text → Prop} [DecidablePred hidden] :
    ∀ m ∈ entityObject hidden e type, PlainName m.1 := by
  intro m hm
  have hname : m.1 = "id".toList ∨ m.1 = "idPattern".toList ∨ m.1 = "type".toList := by
    rcases mem_append.mp hm with hm | hm
    · rcases mem_append.mp hm with hm | hm
      · split at hm
        · exact .inl (congrArg Prod.fst (mem_singleton.mp hm))
        · cases hm
      split at hm
      · cases hm
      · exact .inr (.inl (congrArg Prod.fst (mem_singleton.mp hm)))
    · exact .inr (.inr (congrArg Prod.fst (mem_singleton.mp hm)))
  rcases hname with hname | hname | hname <;> rw [hname]
  · exact plain_names.1
  · exact plain_names.2.1
  · exact plain_names.2.2

theorem entityContent_object_iff (h : EntityForm c f e) {hidden : Text → Prop}
    [DecidablePred hidden] (hempty : hidden []) (type : Text) :
    ObjectRel Same (entityContent f) (entityObject hidden e type) ↔
      (∀ s, stringMember "idPattern" s ∈ entityContent f → ¬ hidden s) ∧ f.type = some type := by
  cases h with
  | @id id given hne =>
    have hobject : entityObject hidden ⟨id, [], entityType c given⟩ type =
        [stringMember "id" id, stringMember "type" type] := by
      simp [entityObject, hne, hempty]
    rw [hobject]
    change ObjectRel Same [stringMember "id" id, stringMember "type" given] _ ↔ _
    rw [stringMember, stringMember, stringMember, objectRel_pair_iff (by decide) (List.Perm.refl _)]
    simp [entityContent, stringMember, same_string_iff]
  | pattern idPattern given =>
    by_cases hhidden : hidden idPattern
    · have hobject : entityObject hidden ⟨[], idPattern, entityType c given⟩ type =
          [stringMember "type" type] := by
        simp [entityObject, hhidden]
      rw [hobject]
      refine iff_of_false ?_ ?_
      · intro hrel
        have hlength := objectRel_length hrel
        cases hlength
      · rintro ⟨hno, -⟩
        exact hno idPattern (by simp [entityContent]) hhidden
    · have hobject : entityObject hidden ⟨[], idPattern, entityType c given⟩ type =
          [stringMember "idPattern" idPattern, stringMember "type" type] := by
        simp [entityObject, hhidden]
      rw [hobject]
      change ObjectRel Same [stringMember "idPattern" idPattern, stringMember "type" given] _ ↔ _
      rw [stringMember, stringMember, stringMember,
        objectRel_pair_iff (by decide) (List.Perm.refl _)]
      simp [entityContent, stringMember, same_string_iff, hhidden]
  | typeOnly given =>
    have hobject : entityObject hidden ⟨[], [], entityType c given⟩ type =
        [stringMember "type" type] := by
      simp [entityObject, hempty]
    rw [hobject]
    change ObjectRel Same [stringMember "type" given] _ ↔ _
    rw [stringMember, stringMember, objectRel_single_iff]
    simp [entityContent, stringMember, same_string_iff]

/-- An entity is shown as it was given: no name with an at sign, no pattern that is hidden, and
a type that comes back. -/
theorem entity_object_iff (hf : ms.foldlM entityField ⟨none, none, none⟩ = .ok f)
    (h : EntityForm c f e) (hidden : Text → Prop) [DecidablePred hidden] (hempty : hidden [])
    (t : Text → Text) : ObjectRel Same ms (entityObject hidden e (t e.type)) ↔
      (∀ m ∈ ms, PlainName m.1) ∧ (∀ s, stringMember "idPattern" s ∈ ms → ¬ hidden s) ∧
        ∀ s, stringMember "type" s ∈ ms → t (entityType c s) = s := by
  by_cases hplain : ∀ m ∈ ms, PlainName m.1
  · have hms := (entity_members hplain hf).symm
    rw [objectRel_perm hms, entityContent_object_iff h hempty, and_iff_right hplain]
    simp only [hms.mem_iff]
    have htype : ∃ given, f.type = some given ∧ e.type = entityType c given := by
      cases h with
      | id => exact ⟨_, rfl, rfl⟩
      | pattern => exact ⟨_, rfl, rfl⟩
      | typeOnly => exact ⟨_, rfl, rfl⟩
    obtain ⟨given, hgiven, hexpanded⟩ := htype
    have hmem : ∀ s, stringMember "type" s ∈ entityContent f ↔ s = given := by
      intro s
      cases f
      obtain rfl := hgiven
      simp [entityContent, slotContent, stringMember]
    simp only [hmem, forall_eq, hgiven, hexpanded, Option.some.injEq]
    exact and_congr_right fun _ => eq_comm
  · refine iff_of_false ?_ fun h => hplain h.1
    intro hrel
    exact hplain (plain_of_perm (objectRel_names hrel) entityObject_plain)

theorem entityShown_eq (h : EntityForm c f e) :
    entityShown c e = .object (entityObject (· = []) e (shownType c e.type)) := by
  cases h with
  | @id id type hne =>
    rw [entityShown_id hne]
    simp [entityObject, hne]
  | pattern idPattern type =>
    by_cases hne : idPattern = []
    · rw [hne, entityShown_type]
      simp [entityObject]
    · rw [entityShown_pattern hne]
      simp [entityObject, hne]
  | typeOnly type =>
    rw [entityShown_type]
    simp [entityObject]

theorem entity_shown_iff {item : KjNode} (h : kjTreeToEntID c item = .ok e) :
    Same item (entityShown c e) ↔ EntityKept c item := by
  obtain ⟨ms, f, rfl, hf, hform⟩ := kjTreeToEntID_ok h
  rw [entityShown_eq hform, same_object_right]
  have hobject := entity_object_iff hf hform (· = []) rfl (shownType c)
  constructor
  · rintro ⟨xs, hxs, hrel⟩
    obtain rfl := KjNode.object.inj hxs
    obtain ⟨hplain, hpattern, htype⟩ := hobject.mp hrel
    exact ⟨_, rfl, hplain, fun hmem => hpattern [] hmem rfl, htype⟩
  · rintro ⟨xs, hxs, hplain, hpattern, htype⟩
    obtain rfl := KjNode.object.inj hxs
    refine ⟨_, rfl, hobject.mpr ⟨hplain, ?_, htype⟩⟩
    rintro s hs rfl
    exact hpattern hs

theorem forall₂_iff_of {α β : Type} {R S : α → β → Prop} {P : α → Prop} {as : List α}
    {bs : List β} (h : List.Forall₂ R as bs) (hS : ∀ a b, R a b → (S a b ↔ P a)) :
    List.Forall₂ S as bs ↔ ∀ a ∈ as, P a := by
  induction h with
  | nil => simp
  | cons hab _ ih => rw [forall₂_cons, forall_mem_cons, hS _ _ hab, ih]

variable {node : KjNode}

theorem same_items_iff {items shown : List KjNode} (hnodes : childNodes node = .ok items) :
    (Same node (.array shown) ↔ node = .array items ∧ List.Forall₂ Same items shown) := by
  rw [same_array_right]
  constructor
  · rintro ⟨xs, rfl, h⟩
    cases hnodes
    exact ⟨rfl, h⟩
  · rintro ⟨rfl, h⟩
    exact ⟨items, rfl, h⟩

theorem entities_shown_iff {entities : List EntID} (h : EntitiesOf c node entities) :
    (entities.map (entityShown c) ≠ [] ∧ Same node (.array (entities.map (entityShown c)))) ↔
      ∃ items, node = .array items ∧ ∀ item ∈ items, EntityKept c item := by
  obtain ⟨items, hnodes, hne, hall⟩ := h
  have hitems : List.Forall₂ Same items (entities.map (entityShown c)) ↔
      ∀ item ∈ items, EntityKept c item := by
    rw [forall₂_map_right_iff]
    exact forall₂_iff_of hall fun item e he => entity_shown_iff he
  have hfilled : entities.map (entityShown c) ≠ [] := by
    intro hnil
    have hlength := hall.length_eq
    rw [map_eq_nil_iff.mp hnil] at hlength
    exact hne (eq_nil_of_length_eq_zero hlength)
  rw [same_items_iff hnodes, hitems]
  constructor
  · rintro ⟨-, rfl, hkept⟩
    exact ⟨items, rfl, hkept⟩
  · rintro ⟨items', rfl, hkept⟩
    cases hnodes
    exact ⟨hfilled, rfl, hkept⟩

def namesShown (c : Contexts) (names : List Text) : List KjNode :=
  (names.filter (· ≠ [])).map fun n => .string (shownAlias c n)

theorem names_shown_iff {names : List Text} (h : NamesOf c node names) :
    (namesShown c names ≠ [] ∧ Same node (.array (namesShown c names))) ↔
      ∃ items, node = .array items ∧ ∀ item ∈ items, NameKept c item := by
  obtain ⟨items, hnodes, hne, hall⟩ := h
  have hitems : (∀ n ∈ names, n ≠ []) →
      (List.Forall₂ Same items (namesShown c names) ↔ ∀ item ∈ items, NameKept c item) := by
    intro hfull
    have hsame : names.filter (· ≠ []) = names :=
      filter_eq_self.mpr fun n hn => decide_eq_true (hfull n hn)
    rw [namesShown, hsame, forall₂_map_right_iff]
    have hall' : List.Forall₂ (fun item name => (∃ s, item = .string s ∧
        name = (orionldAttributeExpand c s).1) ∧ name ≠ []) items names := by
      clear hsame hne hnodes
      induction hall with
      | nil => exact .nil
      | cons hab _ ih =>
        exact .cons ⟨hab, hfull _ mem_cons_self⟩ (ih fun n hn => hfull n (mem_cons_of_mem _ hn))
    refine forall₂_iff_of hall' ?_
    rintro item name ⟨⟨s, rfl, rfl⟩, hname⟩
    rw [same_string_iff]
    constructor
    · intro hs
      exact ⟨s, rfl, hname, hs.symm⟩
    · rintro ⟨s', hs', -, hshown⟩
      obtain rfl := KjNode.string.inj hs'
      exact hshown.symm
  have hlength := hall.length_eq
  constructor
  · rintro ⟨-, hsame⟩
    obtain ⟨rfl, hall'⟩ := (same_items_iff hnodes).mp hsame
    have hfull : ∀ n ∈ names, n ≠ [] := by
      have hcount := hall'.length_eq
      rw [hlength, namesShown, length_map] at hcount
      have hself := length_filter_eq_length_iff.mp hcount.symm
      intro n hn
      exact of_decide_eq_true (hself n hn)
    exact ⟨items, rfl, (hitems hfull).mp hall'⟩
  · rintro ⟨items', rfl, hkept⟩
    obtain rfl := Except.ok.inj hnodes
    have hfull : ∀ n ∈ names, n ≠ [] := by
      clear hitems hne hlength hnodes
      induction hall with
      | nil => simp
      | cons hab _ ih =>
        obtain ⟨s, rfl, rfl⟩ := hab
        obtain ⟨⟨s', hs', hexpanded, -⟩, hrest⟩ := forall_mem_cons.mp hkept
        obtain rfl := KjNode.string.inj hs'
        exact List.forall_mem_cons.mpr ⟨hexpanded, ih hrest⟩
    have hsame := (hitems hfull).mpr hkept
    refine ⟨?_, (same_items_iff hnodes).mpr ⟨rfl, hsame⟩⟩
    intro hnil
    rw [hnil] at hsame
    exact hne (forall₂_nil_right_iff.mp hsame)

theorem setNames_eq (c : Contexts) (properties relationships : List Text) (type : String) :
    mongoSetNames c type
      (properties.map (⟨·, "Property".toList, "false".toList⟩) ++
        relationships.map (⟨·, "Relationship".toList, "false".toList⟩)) =
      (if "Property".toList = type.toList then
        (properties.filter (· ≠ [])).map (orionldContextItemAliasLookup c) else []) ++
      (if "Relationship".toList = type.toList then
        (relationships.filter (· ≠ [])).map (orionldContextItemAliasLookup c) else []) := by
  unfold mongoSetNames
  rw [filter_append, map_append, filter_map, filter_map, map_map, map_map]
  congr 1
  · split
    · next h =>
      simp [comp_def, h]
    · next h =>
      simp only [comp_def, h, false_and, decide_false, filter_false, map_nil]
  · split
    · next h =>
      simp [comp_def, h]
    · next h =>
      simp only [comp_def, h, false_and, decide_false, filter_false, map_nil]

theorem shownInformation_eq (c : Contexts) (r : Registration) :
    shownInformation (coreOnly c) (mongoSetDataProvided c (setContextRegistrationVector r)) =
      shownArray "entities" (r.dataProvided.entities.map (entityShown c)) ++
      shownArray "properties" (namesShown c r.dataProvided.propertyV) ++
      shownArray "relationships" (namesShown c r.dataProvided.relationshipV) := by
  unfold shownInformation mongoSetDataProvided setContextRegistrationVector
  rw [setNames_eq, setNames_eq]
  rw [if_pos rfl, if_neg (by decide), if_neg (by decide), if_pos rfl]
  simp only [namesShown, shownName, shownAlias, map_map, comp_def, append_nil, nil_append]
  rfl

theorem mem_shownArray {name : String} {items : List KjNode} {z : KjNode} :
    (n, z) ∈ shownArray name items ↔ n = name.toList ∧ items ≠ [] ∧ z = .array items := by
  unfold shownArray
  by_cases h : items = []
  · rw [if_neg (not_not.mpr h)]
    constructor
    · intro hmem
      cases hmem
    · rintro ⟨-, h', -⟩
      exact absurd h h'
  · rw [if_pos h, mem_singleton]
    constructor
    · intro hmem
      exact ⟨(Prod.mk.inj hmem).1, h, (Prod.mk.inj hmem).2⟩
    · rintro ⟨rfl, -, rfl⟩
      rfl

def threeArrays (entities properties relationships : List KjNode) : Members :=
  shownArray "entities" entities ++ shownArray "properties" properties ++
    shownArray "relationships" relationships

theorem mem_threeArrays {es ps rs : List KjNode} {z : KjNode} : (n, z) ∈ threeArrays es ps rs ↔
      (n = "entities".toList ∧ es ≠ [] ∧ z = .array es) ∨
      (n = "properties".toList ∧ ps ≠ [] ∧ z = .array ps) ∨
      (n = "relationships".toList ∧ rs ≠ [] ∧ z = .array rs) := by
  unfold threeArrays
  rw [mem_append, mem_append, mem_shownArray, mem_shownArray, mem_shownArray, or_assoc]

theorem nodup_threeArrays (es ps rs : List KjNode) :
    ((threeArrays es ps rs).map Prod.fst).Nodup := by
  unfold threeArrays shownArray
  by_cases he : es = [] <;> by_cases hp : ps = [] <;> by_cases hr : rs = [] <;>
    simp [he, hp, hr]

theorem member_shown_iff {f : InformationFields} (hread : InformationRead c f ms)
    {m : Text × KjNode} (hm : m ∈ ms) :
    (∃ z, (m.1, z) ∈ threeArrays ((f.entities.getD []).map (entityShown c))
        (namesShown c (f.properties.getD [])) (namesShown c (f.relationships.getD [])) ∧
        Same m.2 z) ↔
      ∃ items, m.2 = .array items ∧ ∀ item ∈ items, ItemKept c m.1 item := by
  obtain ⟨name, node⟩ := m
  have hname := hread.names _ hm
  simp only [mem_threeArrays]
  rcases mem_cons.mp hname with hname | hname
  · obtain rfl : name = "entities".toList := hname
    obtain ⟨entities, hslot, hof⟩ := hread.entities.of_mem hm
    have hkept : ∀ item, ItemKept c "entities".toList item ↔ EntityKept c item := fun item => by
      rw [ItemKept, if_pos rfl]
    rw [hslot, Option.getD_some]
    simp only [hkept]
    rw [← entities_shown_iff hof]
    constructor
    · rintro ⟨z, (⟨-, hne, rfl⟩ | ⟨h, -⟩ | ⟨h, -⟩), hsame⟩
      · exact ⟨hne, hsame⟩
      · exact absurd h (by decide)
      · exact absurd h (by decide)
    · rintro ⟨hne, hsame⟩
      exact ⟨_, .inl ⟨trivial, hne, rfl⟩, hsame⟩
  · rcases mem_cons.mp hname with hname | hname
    · obtain rfl : name = "properties".toList := hname
      obtain ⟨names, hslot, hof⟩ := hread.properties.of_mem hm
      have hkept : ∀ item, ItemKept c "properties".toList item ↔ NameKept c item :=
        fun item => by rw [ItemKept, if_neg (by decide)]
      rw [hslot, Option.getD_some]
      simp only [hkept]
      rw [← names_shown_iff hof]
      constructor
      · rintro ⟨z, (⟨h, -⟩ | ⟨-, hne, rfl⟩ | ⟨h, -⟩), hsame⟩
        · exact absurd h (by decide)
        · exact ⟨hne, hsame⟩
        · exact absurd h (by decide)
      · rintro ⟨hne, hsame⟩
        exact ⟨_, .inr (.inl ⟨trivial, hne, rfl⟩), hsame⟩
    · obtain rfl : name = "relationships".toList := mem_singleton.mp hname
      obtain ⟨names, hslot, hof⟩ := hread.relationships.of_mem hm
      have hkept : ∀ item, ItemKept c "relationships".toList item ↔ NameKept c item :=
        fun item => by rw [ItemKept, if_neg (by decide)]
      rw [hslot, Option.getD_some]
      simp only [hkept]
      rw [← names_shown_iff hof]
      constructor
      · rintro ⟨z, (⟨h, -⟩ | ⟨h, -⟩ | ⟨-, hne, rfl⟩), hsame⟩
        · exact absurd h (by decide)
        · exact absurd h (by decide)
        · exact ⟨hne, hsame⟩
      · rintro ⟨hne, hsame⟩
        exact ⟨_, .inr (.inr ⟨trivial, hne, rfl⟩), hsame⟩

theorem namesShown_filled {names : List Text} (h : namesShown c names ≠ []) : names ≠ [] := by
  rintro rfl
  exact h rfl

theorem information_shown_iff (h : ∃ items, node = .array items ∧
    kjTreeToRegistrationInformation c items = .ok r.dataProvided) :
    Same node (.array [.object (shownInformation (coreOnly c)
      (mongoSetDataProvided c (setContextRegistrationVector r)))]) ↔ InformationKept c node := by
  obtain ⟨items, rfl, hinformation⟩ := h
  obtain ⟨ms, f, rfl, hread, hd⟩ := information_read hinformation
  rw [shownInformation_eq, hd]
  change Same _ (.array [.object (threeArrays _ _ _)]) ↔ _
  have hobject : Same (.array [.object ms]) (.array [.object (threeArrays
      ((f.entities.getD []).map (entityShown c)) (namesShown c (f.properties.getD []))
      (namesShown c (f.relationships.getD [])))]) ↔
      ObjectRel Same ms (threeArrays ((f.entities.getD []).map (entityShown c))
        (namesShown c (f.properties.getD [])) (namesShown c (f.relationships.getD []))) := by
    rw [same_array_right]
    constructor
    · rintro ⟨xs, hxs, hall⟩
      obtain rfl := KjNode.array.inj hxs
      obtain ⟨ms', hms', hrel⟩ := same_object_right.mp (forall₂_cons.mp hall).1
      obtain rfl := KjNode.object.inj hms'
      exact hrel
    · intro hrel
      exact ⟨_, rfl, .cons (same_object_right.mpr ⟨ms, rfl, hrel⟩) .nil⟩
  rw [hobject, objectRel_iff hread.nodup (nodup_threeArrays _ _ _)]
  have hnames : ∀ m ∈ threeArrays ((f.entities.getD []).map (entityShown c))
      (namesShown c (f.properties.getD [])) (namesShown c (f.relationships.getD [])),
      m.1 ∈ ms.map Prod.fst := by
    rintro ⟨n, z⟩ hm
    rcases mem_threeArrays.mp hm with ⟨rfl, hne, -⟩ | ⟨rfl, hne, -⟩ | ⟨rfl, hne, -⟩
    · exact hread.entities.filled fun hnil => hne (by rw [hnil]; rfl)
    · exact hread.properties.filled (namesShown_filled hne)
    · exact hread.relationships.filled (namesShown_filled hne)
  constructor
  · rintro ⟨hall, -⟩
    exact ⟨ms, rfl, fun m hm => (member_shown_iff hread hm).mp (hall m hm)⟩
  · rintro ⟨ms', hms', hkept⟩
    obtain rfl : ms = ms' := by
      have hitems := cons.inj (KjNode.array.inj hms')
      exact KjNode.object.inj hitems.1
    exact ⟨fun m hm => (member_shown_iff hread hm).mpr (hkept m hm), hnames⟩

end RegistrationShown
