import OrionLd.SubscriptionRead

/-! Whether a subscription is shown as it was created: the members of the payload against the tree
made of the subscription under the same context. Values are compared as JSON values, expires as an
instant, and key-value pairs as a set. -/
namespace SubscriptionShown

open KjTree OrionldContextItem KjTreeToContextAttribute KjTreeToEntIdVector KjTreeToSubscription
open KjTreeFromSubscription SubscriptionRead Fallible SameJson List Option RegistrationRead
open RegistrationShown
open KjTreeToRegistration (timeOf)
open RegistrationDocument (stringMember)
open PcheckGeoQ (CheckError)

def HasPair (node : KjNode) (pair : Text × Text) : Prop :=
  ∃ items ms, node = .array items ∧ .object ms ∈ items ∧
    stringMember "key" pair.1 ∈ ms ∧ stringMember "value" pair.2 ∈ ms

def SamePairs (x y : KjNode) : Prop := ∀ pair, HasPair x pair ↔ HasPair y pair

def pairNames : List Text := ["receiverInfo".toList, "notifierInfo".toList]

def SameEndpoint (x y : KjNode) : Prop :=
  ∃ xs ys, x = .object xs ∧ y = .object ys ∧ ∀ m ∈ xs, ∃ v, (m.1, v) ∈ ys ∧
    if m.1 ∈ pairNames then SamePairs m.2 v else Same m.2 v

def SameNotification (x y : KjNode) : Prop :=
  ∃ xs ys, x = .object xs ∧ y = .object ys ∧ ∀ m ∈ xs,
    (m.1 = "attributes".toList → ∃ v, (m.1, v) ∈ ys ∧ Same m.2 v) ∧
    (m.1 = "endpoint".toList → ∃ v, (m.1, v) ∈ ys ∧ SameEndpoint m.2 v)

def SameValue (env : Env) (f : Field) : KjNode → KjNode → Prop :=
  match f with
  | .expires => SameDate env
  | .notification => SameNotification
  | _ => Same

/-- All members but q, of which another text is stored. -/
structure ShownAsCreated (env : Env) (p : Post) (tree : Members) : Prop where
  id : ∀ id, p.payloadId = some id → stringMember "id" id ∈ tree
  members : ∀ m ∈ p.members, ∀ f, fieldOf m.1 = some f → f ≠ .q →
    ∃ v, (m.1, v) ∈ tree ∧ SameValue env f m.2 v

def ShownAs (env : Env) (p : Post) (result : Except CheckError Members) : Prop :=
  ∃ tree, result = .ok tree ∧ ShownAsCreated env p tree

def EntityKept (c : Contexts) (item : KjNode) : Prop :=
  ∃ ms, item = .object ms ∧ (∀ m ∈ ms, PlainName m.1) ∧
    (∀ s, stringMember "idPattern" s ∈ ms → s ≠ [] ∧ s ≠ ".*".toList) ∧
    ∀ s, stringMember "type" s ∈ ms → orionldContextItemAliasLookup c (entityType c s) = s

def NameKept (c : Contexts) (item : KjNode) : Prop :=
  ∀ s, item = .string s →
    orionldContextItemAliasLookup c (orionldAttributeExpand c s).1 = s

def CoordinatesKept (env : ShownEnv) (geometry : Text) (coordinates : KjNode) : Prop :=
  if geometry = "Point".toList ∨ geometry = "Polygon".toList then
    ∃ v, env.kjParse ('[' :: coordsText env.toRenderEnv coordinates ++ [']']) = some v ∧
      Same coordinates v
  else ∃ s, coordinates = .string s

structure GeoQKept (env : ShownEnv) (ms : Members) : Prop where
  geometry : stringMember "geometry" [] ∉ ms
  coordinates : ∀ geometry node, stringMember "geometry" geometry ∈ ms →
    ("coordinates".toList, node) ∈ ms → CoordinatesKept env geometry node
  geoproperty : ∀ s, stringMember "geoproperty" s ∈ ms →
    s ≠ [] ∧ compactName env.toContexts s = s

def ReceiverKept (node : KjNode) : Prop :=
  node ≠ .array [] ∧ ∀ key value value', HasPair node (key, value) →
    HasPair node (key, value') → value = value'

structure EndpointKept (ms : Members) : Prop where
  receiverInfo : ∀ node, ("receiverInfo".toList, node) ∈ ms → ReceiverKept node
  notifierInfo : ("notifierInfo".toList, .array []) ∉ ms

structure NotificationKept (c : Contexts) (ms : Members) : Prop where
  attributes : ∀ items, ("attributes".toList, .array items) ∈ ms →
    items ≠ [] ∧ ∀ item ∈ items, NameKept c item
  endpoint : ∀ es, ("endpoint".toList, .object es) ∈ ms → EndpointKept es

/-- The text that is stored for q is shown without its output being overrun. -/
def QFits (env : ShownEnv) (node : KjNode) : Prop :=
  ∀ q text, node = .string q → qText env.toSubscriptionEnv q = .ok text →
    ∃ shown, shownQ env text = .ok shown

def FieldKept (env : ShownEnv) (f : Field) (node : KjNode) : Prop :=
  match f with
  | .name | .description | .csf => node ≠ .string []
  | .entities => ∀ items, node = .array items → ∀ item ∈ items, EntityKept env.toContexts item
  | .watchedAttributes =>
    ∀ items, node = .array items → ∀ item ∈ items, NameKept env.toContexts item
  | .timeInterval => True
  | .q => QFits env node
  | .geoQ => ∀ ms, node = .object ms → GeoQKept env ms
  | .isActive => node = .bool false
  | .notification => ∀ ms, node = .object ms → NotificationKept env.toContexts ms
  | .expires => ∀ s, node = .string s →
    timeOf env.toEnv s ≠ noExpiration ∧ DateKept env.toDateEnv (timeOf env.toEnv s)
  | .throttling =>
    ∃ x, throttlingNumber env.toSubscriptionEnv node = .ok x ∧ x ≠ 0 ∧ numberOf node = some x

def Kept (env : ShownEnv) (p : Post) : Prop :=
  ∀ m ∈ p.members, ∀ f, fieldOf m.1 = some f → FieldKept env f m.2

variable {parts : List (String × Option KjNode)} {v : KjNode}

theorem mem_shownMembers {n : Text} :
    (n, v) ∈ shownMembers parts ↔ ∃ name, (name, some v) ∈ parts ∧ n = name.toList := by
  unfold shownMembers
  rw [mem_filterMap]
  constructor
  · rintro ⟨⟨name, node⟩, hpart, hmember⟩
    obtain ⟨v', hv', hpair⟩ := map_eq_some_iff.mp hmember
    cases hpair
    exact ⟨name, hv' ▸ hpart, rfl⟩
  · rintro ⟨name, hpart, rfl⟩
    exact ⟨_, hpart, rfl⟩

variable {name : String} {s : Text}

theorem part_of_name : (name.toList, v) ∈ shownMembers parts ↔ (name, some v) ∈ parts := by
  rw [mem_shownMembers]
  constructor
  · rintro ⟨name', hpart, hname⟩
    rwa [String.toList_inj.mp hname]
  · intro hpart
    exact ⟨name, hpart, rfl⟩

theorem shownMembers_nodup (h : (parts.map fun part => part.1.toList).Nodup) :
    ((shownMembers parts).map Prod.fst).Nodup := by
  refine h.sublist ?_
  induction parts with
  | nil => exact List.Sublist.refl _
  | cons part parts ih =>
    obtain ⟨name, node⟩ := part
    have hrest := ih (nodup_cons.mp h).2
    cases node with
    | none => exact hrest.cons _
    | some node => exact hrest.cons_cons _

theorem shownWhen_iff {p : Bool} {node : KjNode} :
    some v = shownWhen p node ↔ p = true ∧ v = node := by
  unfold shownWhen
  cases p <;> simp

theorem shownText_iff {node : KjNode} (h : node = .string s) :
    (∃ v, some v = shownText s ∧ Same node v) ↔ node ≠ .string [] := by
  subst h
  simp only [shownText, shownWhen_iff]
  constructor
  · rintro ⟨v, ⟨hs, -⟩, -⟩ hempty
    exact of_decide_eq_true hs (KjNode.string.inj hempty)
  · intro hne
    refine ⟨_, ⟨decide_eq_true ?_, rfl⟩, Same.refl _⟩
    rintro rfl
    exact hne rfl

theorem shownArray_iff {α : Type} {R : KjNode → α → Prop} {P : KjNode → Prop}
    {items : List KjNode} {results : List α} {g : α → KjNode} (h : List.Forall₂ R items results)
    (hR : ∀ item a, R item a → (Same item (g a) ↔ P item)) :
    (∃ v, some v = shownArray (results.map g) ∧ Same (.array items) v) ↔
      items ≠ [] ∧ ∀ item ∈ items, P item := by
  have hitems : List.Forall₂ Same items (results.map g) ↔ ∀ item ∈ items, P item := by
    rw [forall₂_map_right_iff]
    exact forall₂_iff_of h hR
  have hempty : results.map g ≠ [] ↔ items ≠ [] := by
    rw [ne_eq, ne_eq, map_eq_nil_iff, ← length_eq_zero_iff, ← length_eq_zero_iff, h.length_eq]
  simp only [shownArray, shownWhen_iff, decide_eq_true_eq]
  constructor
  · rintro ⟨v, ⟨hne, rfl⟩, hsame⟩
    obtain ⟨xs, hxs, hall⟩ := same_array_right.mp hsame
    obtain rfl := KjNode.array.inj hxs
    exact ⟨hempty.mp hne, hitems.mp hall⟩
  · rintro ⟨hne, hall⟩
    exact ⟨_, ⟨hempty.mpr hne, rfl⟩, same_array_right.mpr ⟨items, rfl, hitems.mpr hall⟩⟩

variable {env : ShownEnv}

theorem name_shown_iff {item : KjNode} {name : Text} (h : NameRead env.toContexts item name) :
    Same item (shownName env name) ↔ NameKept env.toContexts item := by
  obtain ⟨s, rfl, rfl⟩ := h
  rw [shownName, same_string_iff]
  constructor
  · intro hs s' hs'
    obtain rfl := KjNode.string.inj hs'
    exact hs.symm
  · intro hkept
    exact (hkept s rfl).symm

theorem shownEntity_eq (e : EntID) :
    shownEntity env e = .object (entityObject (fun s => s = [] ∨ s = ".*".toList) e
      (orionldContextItemAliasLookup env.toContexts e.type)) := by
  unfold shownEntity entityObject shownMembers shownText shownWhen shownName
  generalize ".*".toList = everything
  by_cases hid : e.id = [] <;> by_cases hempty : e.idPattern = [] <;>
    by_cases hall : e.idPattern = everything <;> simp [hid, hempty, hall, stringMember]

theorem entity_shown_iff {item : KjNode} {e : EntID}
    (h : kjTreeToEntID env.toContexts item = .ok e) :
    Same item (shownEntity env e) ↔ EntityKept env.toContexts item := by
  obtain ⟨ms, f, rfl, hf, hform⟩ := kjTreeToEntID_ok h
  rw [shownEntity_eq, same_object_right]
  have hobject := entity_object_iff hf hform (fun s => s = [] ∨ s = ".*".toList) (.inl rfl)
    (orionldContextItemAliasLookup env.toContexts)
  simp only [not_or] at hobject
  constructor
  · rintro ⟨xs, hxs, hrel⟩
    obtain rfl := KjNode.object.inj hxs
    exact ⟨_, rfl, hobject.mp hrel⟩
  · rintro ⟨xs, hxs, hkept⟩
    obtain rfl := KjNode.object.inj hxs
    exact ⟨_, rfl, hobject.mpr hkept⟩

variable {node : KjNode}

theorem entities_shown_iff {entities : List EntID}
    (h : SubscriptionEntitiesOf env.toContexts node entities) :
    (∃ v, some v = shownArray (entities.map (shownEntity env)) ∧ Same node v) ↔
      ∀ items, node = .array items → ∀ item ∈ items, EntityKept env.toContexts item := by
  obtain ⟨items, rfl, hne, hall⟩ := h
  rw [shownArray_iff hall fun item e he => entity_shown_iff he]
  simp [hne]

theorem watched_shown_iff {names : List Text} (h : WatchedOf env.toContexts node names) :
    (∃ v, some v = shownArray (names.map (shownName env)) ∧ Same node v) ↔
      ∀ items, node = .array items → ∀ item ∈ items, NameKept env.toContexts item := by
  obtain ⟨items, rfl, hne, hall⟩ := h
  rw [shownArray_iff hall fun item name hname => name_shown_iff hname]
  simp [hne]

theorem attributes_shown_iff {names : List Text} (h : StringListOf env.toContexts node names) :
    (∃ v, some v = shownArray (names.map (shownName env)) ∧ Same node v) ↔
      ∀ items, node = .array items → items ≠ [] ∧ ∀ item ∈ items, NameKept env.toContexts item := by
  obtain ⟨items, rfl, hall⟩ := h
  rw [shownArray_iff hall fun item name hname => name_shown_iff hname]
  simp
variable {ms : Members} {g : GeoExpression}

theorem coordinates_shown_iff {geometry : Text} {coordinates : KjNode}
    (h : CoordinatesOf node coordinates) :
    (∃ v, shownCoordinates env geometry (coordsText env.toRenderEnv coordinates) = .ok v ∧
        Same coordinates v) ↔ CoordinatesKept env geometry coordinates := by
  unfold shownCoordinates CoordinatesKept
  by_cases hgeometry : geometry = "Point".toList ∨ geometry = "Polygon".toList
  · rw [if_pos hgeometry, if_pos hgeometry]
    cases env.kjParse ('[' :: coordsText env.toRenderEnv coordinates ++ [']']) with
    | none => simp
    | some v => simp
  · rw [if_neg hgeometry, if_neg hgeometry]
    simp only [Except.ok.injEq, exists_eq_left']
    rw [same_string_right]
    constructor
    · intro hs
      exact ⟨_, hs⟩
    · rintro ⟨s, rfl⟩
      rfl

theorem mem_of_slot {α : Type} {R : KjNode → α → Prop} {slot : Option α} {a : α}
    (h : Slot R name slot ms) (ha : slot = some a) :
    ∃ node, (name.toList, node) ∈ ms ∧ R node a := by
  subst ha
  obtain ⟨⟨n, node⟩, hm, rfl⟩ := mem_map.mp h.1
  exact ⟨node, hm, h.2 node hm⟩

def GeoQMemberShown (env : ShownEnv) (g : GeoExpression) (v : KjNode) (m : Text × KjNode) :
    Prop :=
  ∃ z, (m.1, z) ∈ shownMembers (geoQParts env g v) ∧ Same m.2 z

theorem geoQ_string_shown (hnode : node = .string s)
    (hpart : (name, some (.string s)) ∈ geoQParts env g v) :
    GeoQMemberShown env g v (name.toList, node) := by
  subst hnode
  exact ⟨_, part_of_name.mpr hpart, Same.refl _⟩

theorem geoQ_coordinates_shown_iff :
    GeoQMemberShown env g v ("coordinates".toList, node) ↔ Same node v := by
  have hpart : ∀ z, ("coordinates".toList, z) ∈ shownMembers (geoQParts env g v) ↔ z = v := by
    intro z
    rw [part_of_name]
    simp [geoQParts]
  unfold GeoQMemberShown
  simp only [hpart, exists_eq_left]

theorem geoQ_geoproperty_shown_iff (hs : g.geoproperty = s) :
    GeoQMemberShown env g v (stringMember "geoproperty" s) ↔
      s ≠ [] ∧ compactName env.toContexts s = s := by
  have hpart : ∀ z, ("geoproperty".toList, z) ∈ shownMembers (geoQParts env g v) ↔
      s ≠ [] ∧ z = .string (compactName env.toContexts s) := by
    intro z
    rw [part_of_name]
    simp only [geoQParts, mem_cons, Prod.mk.injEq, not_mem_nil, or_false, shownWhen_iff,
      decide_eq_true_eq, hs]
    simp
  unfold GeoQMemberShown stringMember
  simp only [hpart]
  constructor
  · rintro ⟨z, ⟨hne, rfl⟩, hsame⟩
    exact ⟨hne, (same_string_iff.mp hsame).symm⟩
  · rintro ⟨hne, hcompact⟩
    exact ⟨_, ⟨hne, rfl⟩, same_string_iff.mpr hcompact.symm⟩

theorem geoQ_names_given {f : GeoQueryFields} (hread : GeoQueryRead f ms)
    (hgeometry : f.geometry = some g.geometry) (hcoordinates : f.coordinates.isSome = true)
    (hgeorel : f.georel = some g.georel) (hgeoproperty : g.geoproperty = f.geoproperty.getD []) :
    ∀ m ∈ shownMembers (geoQParts env g v), m.1 ∈ ms.map Prod.fst := by
  rintro ⟨n, z⟩ hm
  obtain ⟨name, hpart, rfl⟩ := mem_shownMembers.mp hm
  simp only [geoQParts, mem_cons, Prod.mk.injEq, not_mem_nil, or_false,
    shownWhen_iff, decide_eq_true_eq] at hpart
  rcases hpart with ⟨rfl, -⟩ | ⟨rfl, -⟩ | ⟨rfl, -⟩ | ⟨rfl, hne, -⟩
  · obtain ⟨node, hnode, -⟩ := mem_of_slot hread.geometry hgeometry
    exact mem_map.mpr ⟨_, hnode, rfl⟩
  · obtain ⟨coordinates, hsome⟩ := isSome_iff_exists.mp hcoordinates
    obtain ⟨node, hnode, -⟩ := mem_of_slot hread.coordinates hsome
    exact mem_map.mpr ⟨_, hnode, rfl⟩
  · obtain ⟨node, hnode, -⟩ := mem_of_slot hread.georel hgeorel
    exact mem_map.mpr ⟨_, hnode, rfl⟩
  · rw [hgeoproperty] at hne
    exact hread.geoproperty.filled hne

theorem geoQ_members_iff {f : GeoQueryFields} (hread : GeoQueryRead f ms)
    (hgeometry : f.geometry = some g.geometry) (hcoordinates : f.coordinates.isSome = true)
    (hgeorel : f.georel = some g.georel) (hgeoproperty : g.geoproperty = f.geoproperty.getD []) :
    Same (.object ms) (.object (shownMembers (geoQParts env g v))) ↔
      (∀ node, ("coordinates".toList, node) ∈ ms → Same node v) ∧
        ∀ s, stringMember "geoproperty" s ∈ ms → s ≠ [] ∧ compactName env.toContexts s = s := by
  have hnodup : ((shownMembers (geoQParts env g v)).map Prod.fst).Nodup := shownMembers_nodup (by
      change geoQueryNames.Nodup
      decide)
  have hobject : Same (.object ms) (.object (shownMembers (geoQParts env g v))) ↔
      ∀ m ∈ ms, GeoQMemberShown env g v m := by
    rw [same_object_right]
    constructor
    · rintro ⟨xs, hxs, hrel⟩
      obtain rfl := KjNode.object.inj hxs
      exact ((objectRel_iff hread.nodup hnodup).mp hrel).1
    · intro hall
      refine ⟨ms, rfl, (objectRel_iff hread.nodup hnodup).mpr ⟨hall, ?_⟩⟩
      exact geoQ_names_given hread hgeometry hcoordinates hgeorel hgeoproperty
  have hproperty : ∀ s, stringMember "geoproperty" s ∈ ms → g.geoproperty = s := by
    intro s hs
    obtain ⟨s', hs', hnode⟩ := hread.geoproperty.of_mem hs
    rw [hgeoproperty, hs']
    exact (KjNode.string.inj hnode).symm
  rw [hobject]
  constructor
  · intro hall
    refine ⟨fun node hnode => geoQ_coordinates_shown_iff.mp (hall _ hnode), ?_⟩
    intro s hs
    exact (geoQ_geoproperty_shown_iff (hproperty s hs)).mp (hall _ hs)
  · rintro ⟨hcoords, hgeo⟩ ⟨name, node⟩ hm
    have hname := hread.names _ hm
    simp only [geoQueryNames, mem_cons, not_mem_nil, or_false] at hname
    rcases hname with rfl | rfl | rfl | rfl
    · obtain ⟨s, hs, hnode⟩ := hread.geometry.of_mem hm
      obtain rfl := some.inj (hgeometry.symm.trans hs)
      exact geoQ_string_shown hnode (by simp [geoQParts])
    · exact geoQ_coordinates_shown_iff.mpr (hcoords node hm)
    · obtain ⟨s, hs, hnode⟩ := hread.georel.of_mem hm
      obtain rfl := some.inj (hgeorel.symm.trans hs)
      exact geoQ_string_shown hnode (by simp [geoQParts])
    obtain ⟨s, -, hnode⟩ := hread.geoproperty.of_mem hm
    obtain rfl : node = .string s := hnode
    exact (geoQ_geoproperty_shown_iff (hproperty s hm)).mpr (hgeo s hm)

theorem geoQ_shown_iff (h : GeoQOf env.toRenderEnv node g) :
    (∃ v, shownGeoQ env g = .ok (some v) ∧ Same node v) ↔
      ∀ ms, node = .object ms → GeoQKept env ms := by
  obtain ⟨ms, f, coordinates, rfl, hread, hgeometry, hcoordinates, hgeorel, hcoords,
    hgeoproperty⟩ := h
  obtain ⟨node, hnode, hof⟩ := mem_of_slot hread.coordinates hcoordinates
  obtain ⟨geometry, hgeometryMem, hgeometryIs⟩ := mem_of_slot hread.geometry hgeometry
  have hgeometries : ∀ s, stringMember "geometry" s ∈ ms → s = g.geometry := by
    intro s hs
    obtain ⟨s', hs', hsame⟩ := hread.geometry.of_mem hs
    rw [hgeometry] at hs'
    rw [some.inj hs']
    exact KjNode.string.inj hsame
  have hnodes : ∀ node', ("coordinates".toList, node') ∈ ms → node' = coordinates := by
    intro node' hnode'
    obtain ⟨c, hc, hsame⟩ := hread.coordinates.of_mem hnode'
    rw [hcoordinates] at hc
    rw [some.inj hc]
    exact hsame.1
  by_cases hempty : g.geometry = []
  · refine iff_of_false ?_ ?_
    · rintro ⟨v, hv, -⟩
      rw [shownGeoQ, if_pos hempty] at hv
      cases hv
    · intro hkept
      apply (hkept ms rfl).geometry
      rw [← hempty]
      obtain rfl : geometry = .string g.geometry := hgeometryIs
      exact hgeometryMem
  · have hshown : ∀ v, shownGeoQ env g = .ok (some v) ↔
        ∃ c, shownCoordinates env g.geometry (coordsText env.toRenderEnv coordinates) = .ok c ∧
          v = .object (shownMembers (geoQParts env g c)) := by
      intro v
      rw [shownGeoQ, if_neg hempty, hcoords]
      cases shownCoordinates env g.geometry (coordsText env.toRenderEnv coordinates) with
      | error e =>
        constructor
        · intro hv
          cases hv
        · rintro ⟨c, hc, -⟩
          cases hc
      | ok c =>
        simp only [ok_bind, Except.ok.injEq, some.injEq, exists_eq_left']
        exact eq_comm
    have hmembers : ∀ c, Same (.object ms) (.object (shownMembers (geoQParts env g c))) ↔ _ :=
      fun c => geoQ_members_iff hread hgeometry (by rw [hcoordinates]; rfl) hgeorel hgeoproperty
    constructor
    · rintro ⟨v, hv, hsame⟩ ms' hms'
      obtain rfl := KjNode.object.inj hms'
      obtain ⟨c, hc, rfl⟩ := (hshown v).mp hv
      obtain ⟨hsameCoords, hgeo⟩ := (hmembers c).mp hsame
      refine ⟨?_, ?_, hgeo⟩
      · intro hmem
        exact hempty (hgeometries [] hmem).symm
      · intro s node' hs hnode'
        rw [hgeometries s hs, hnodes node' hnode']
        have hcoord := hsameCoords node' hnode'
        rw [hnodes node' hnode'] at hcoord
        exact (coordinates_shown_iff hof).mp ⟨c, hc, hcoord⟩
    · intro hkept
      obtain ⟨-, hcoordsKept, hgeo⟩ := hkept ms rfl
      obtain rfl : geometry = .string g.geometry := hgeometryIs
      have hkeptHere := hcoordsKept g.geometry node hgeometryMem hnode
      rw [hnodes node hnode] at hkeptHere
      obtain ⟨c, hc, hcoord⟩ := (coordinates_shown_iff hof).mpr hkeptHere
      refine ⟨_, (hshown _).mpr ⟨c, hc, rfl⟩, (hmembers c).mpr ⟨?_, hgeo⟩⟩
      intro node' hnode'
      rw [hnodes node' hnode']
      exact hcoord

variable {items : List KjNode} {pairs : List (Text × Text)}

theorem hasPair_array {pair : Text × Text} :
    HasPair (.array items) pair ↔ ∃ ms, .object ms ∈ items ∧
      stringMember "key" pair.1 ∈ ms ∧ stringMember "value" pair.2 ∈ ms := by
  constructor
  · rintro ⟨items', ms, hitems, h⟩
    obtain rfl := KjNode.array.inj hitems
    exact ⟨ms, h⟩
  · rintro ⟨ms, h⟩
    exact ⟨items, ms, rfl, h⟩

theorem pairOf_mem_iff {p pair : Text × Text}
    (h : ms.Perm [stringMember "key" p.1, stringMember "value" p.2]) :
    (stringMember "key" pair.1 ∈ ms ∧ stringMember "value" pair.2 ∈ ms) ↔ pair = p := by
  rw [h.mem_iff, h.mem_iff, Prod.ext_iff]
  simp [stringMember]

theorem hasPair_given (h : List.Forall₂ PairOf items pairs) (pair : Text × Text) :
    HasPair (.array items) pair ↔ pair ∈ pairs := by
  rw [hasPair_array]
  induction h with
  | nil => simp
  | @cons item p items pairs hitem _ ih =>
    obtain ⟨ms, rfl, hms⟩ := hitem
    rw [mem_cons, ← ih]
    constructor
    · rintro ⟨ms', hmem, hpair⟩
      rcases mem_cons.mp hmem with hsame | hmem
      · obtain rfl := KjNode.object.inj hsame
        exact .inl ((pairOf_mem_iff hms).mp hpair)
      · exact .inr ⟨ms', hmem, hpair⟩
    · rintro (hpair | ⟨ms', hmem, hpair⟩)
      · exact ⟨ms, mem_cons_self, (pairOf_mem_iff hms).mpr hpair⟩
      · exact ⟨ms', mem_cons_of_mem _ hmem, hpair⟩

theorem hasPair_shown (pairs : List (Text × Text)) (pair : Text × Text) :
    HasPair (.array (pairs.map shownPair)) pair ↔ pair ∈ pairs := by
  refine hasPair_given ?_ pair
  rw [forall₂_map_left_iff, forall₂_same]
  intro p _
  exact ⟨_, rfl, List.Perm.refl _⟩

theorem shownPairs_iff : (∃ v, some v = shownArray (pairs.map shownPair) ∧ SamePairs node v) ↔
      pairs ≠ [] ∧ ∀ pair, HasPair node pair ↔ pair ∈ pairs := by
  simp only [shownArray, shownWhen_iff, decide_eq_true_eq]
  constructor
  · rintro ⟨v, ⟨hne, rfl⟩, hsame⟩
    refine ⟨by simpa using hne, fun pair => ?_⟩
    rw [hsame pair, hasPair_shown]
  · rintro ⟨hne, hall⟩
    refine ⟨_, ⟨by simpa using hne, rfl⟩, fun pair => ?_⟩
    rw [hall pair, hasPair_shown]

theorem assigned_empty_iff : OrderedMap.assignAll pairs = [] ↔ pairs = [] := by
  constructor
  · intro h
    apply eq_nil_iff_forall_not_mem.mpr
    rintro ⟨key, value⟩ hmem
    obtain ⟨value', hassigned⟩ := OrderedMap.key_assigned hmem
    rw [h] at hassigned
    cases hassigned
  · rintro rfl
    rfl

theorem pairs_empty_iff (h : List.Forall₂ PairOf items pairs) :
    pairs = [] ↔ KjNode.array items = .array [] := by
  rw [KjNode.array.injEq, ← length_eq_zero_iff, ← length_eq_zero_iff, h.length_eq]

theorem receiverInfo_shown_iff {headers : List (Text × Text)} (h : ReceiverOf node headers) :
    (∃ v, some v = shownArray (headers.map shownPair) ∧ SamePairs node v) ↔ ReceiverKept node := by
  obtain ⟨items, pairs, rfl, hall, rfl⟩ := h
  rw [shownPairs_iff, ReceiverKept, ne_eq, assigned_empty_iff, pairs_empty_iff hall]
  simp only [hasPair_given hall]
  refine and_congr_right fun _ => Iff.trans ?_ OrderedMap.all_assigned_iff
  exact forall_congr' fun pair => ⟨Iff.symm, Iff.symm⟩

theorem notifierInfo_shown_iff (h : NotifierOf node pairs) :
    (∃ v, some v = shownArray (pairs.map shownPair) ∧ SamePairs node v) ↔ node ≠ .array [] := by
  obtain ⟨items, rfl, hall⟩ := h
  rw [shownPairs_iff, ne_eq, pairs_empty_iff hall]
  exact and_iff_left (hasPair_given hall)

def EndpointMemberShown (h : HttpInfo) (m : Text × KjNode) : Prop :=
  ∃ v, (m.1, v) ∈ shownMembers (endpointParts h) ∧
    if m.1 ∈ pairNames then SamePairs m.2 v else Same m.2 v

variable {h : HttpInfo}

theorem endpoint_string_shown (hname : name.toList ∉ pairNames)
    (hpart : (name, some (.string s)) ∈ endpointParts h) :
    EndpointMemberShown h (stringMember name s) := by
  refine ⟨_, part_of_name.mpr hpart, ?_⟩
  rw [if_neg (show (stringMember name s).1 ∉ pairNames from hname)]
  exact Same.refl _

theorem endpoint_pairs_shown_iff (hname : name.toList ∈ pairNames)
    (hpart : ∀ v, (name, some v) ∈ endpointParts h ↔
    some v = shownArray (pairs.map shownPair)) : EndpointMemberShown h (name.toList, node) ↔
      ∃ v, some v = shownArray (pairs.map shownPair) ∧ SamePairs node v := by
  unfold EndpointMemberShown
  simp only [part_of_name, hpart, if_pos hname]

theorem endpoint_shown_iff (hof : EndpointOf node h) :
    SameEndpoint node (.object (shownMembers (endpointParts h))) ↔
      ∀ es, node = .object es → EndpointKept es := by
  obtain ⟨ms, f, rfl, hread, huri, hh⟩ := hof
  have hreceiver : ∀ headers, f.receiverInfo = some headers → ∀ v,
      ("receiverInfo", some v) ∈ endpointParts h ↔ some v = shownArray (headers.map shownPair) := by
    intro headers hheaders v
    rw [hh, hheaders]
    simp [endpointParts]
  have hnotifier : ∀ pairs, f.notifierInfo = some pairs → ∀ v,
      ("notifierInfo", some v) ∈ endpointParts h ↔ some v = shownArray (pairs.map shownPair) := by
    intro pairs hpairs v
    rw [hh, hpairs]
    simp [endpointParts]
  have hmembers : SameEndpoint (.object ms) (.object (shownMembers (endpointParts h))) ↔
      ∀ m ∈ ms, EndpointMemberShown h m := by
    constructor
    · rintro ⟨xs, ys, hxs, hys, hall⟩
      obtain rfl := KjNode.object.inj hxs
      obtain rfl := KjNode.object.inj hys
      exact hall
    · intro hall
      exact ⟨ms, _, rfl, rfl, hall⟩
  rw [hmembers]
  constructor
  · intro hall es hes
    obtain rfl := KjNode.object.inj hes
    constructor
    · intro node hnode
      obtain ⟨headers, hheaders, hof⟩ := hread.receiverInfo.of_mem hnode
      rw [← receiverInfo_shown_iff hof]
      exact (endpoint_pairs_shown_iff (by decide) (hreceiver headers hheaders)).mp
        (hall _ hnode)
    · intro hnode
      obtain ⟨pairs, hpairs, hof⟩ := hread.notifierInfo.of_mem hnode
      have hshown := (endpoint_pairs_shown_iff (by decide) (hnotifier pairs hpairs)).mp
        (hall _ hnode)
      exact (notifierInfo_shown_iff hof).mp hshown rfl
  · intro hkept
    obtain ⟨hreceiverKept, hnotifierKept⟩ := hkept ms rfl
    rintro ⟨name, node⟩ hm
    have hname := hread.names _ hm
    simp only [mem_cons, not_mem_nil, or_false] at hname
    rcases hname with rfl | rfl | rfl | rfl
    · obtain ⟨s, hs, hnode⟩ := hread.uri.of_mem hm
      obtain rfl := some.inj (huri.symm.trans hs)
      obtain rfl : node = .string h.url := hnode
      exact endpoint_string_shown (by decide) (by simp [endpointParts])
    · obtain ⟨mimeType, hmime, hnode, hne⟩ := hread.accept.of_mem hm
      obtain rfl := hnode
      refine endpoint_string_shown (by decide) ?_
      rw [hh, hmime]
      simp [endpointParts, shownMimeType, hne]
    · obtain ⟨headers, hheaders, hof⟩ := hread.receiverInfo.of_mem hm
      exact (endpoint_pairs_shown_iff (by decide) (hreceiver headers hheaders)).mpr
        ((receiverInfo_shown_iff hof).mpr (hreceiverKept node hm))
    · obtain ⟨pairs, hpairs, hof⟩ := hread.notifierInfo.of_mem hm
      refine (endpoint_pairs_shown_iff (by decide) (hnotifier pairs hpairs)).mpr
        ((notifierInfo_shown_iff hof).mpr ?_)
      rintro rfl
      exact hnotifierKept hm

theorem notification_shown_iff {s : Subscription}
    (hof : NotificationOf env.toContexts node s.notification) :
    SameNotification node (.object (shownMembers (notificationParts env s))) ↔
      ∀ ms, node = .object ms → NotificationKept env.toContexts ms := by
  obtain ⟨ms, f, rfl, hread, hendpoint, hattributes⟩ := hof
  have hattributesPart : ∀ v, ("attributes".toList, v) ∈ shownMembers (notificationParts env s) ↔
      some v = shownArray (s.notification.attributes.map (shownName env)) := by
    intro v
    rw [part_of_name]
    simp [notificationParts]
  have hendpointPart : ∀ v, ("endpoint".toList, v) ∈ shownMembers (notificationParts env s) ↔
      v = .object (shownMembers (endpointParts s.notification.httpInfo)) := by
    intro v
    rw [part_of_name]
    simp [notificationParts]
  have hattributesShown : ∀ v, ("attributes".toList, v) ∈ ms →
      ((∃ z, ("attributes".toList, z) ∈ shownMembers (notificationParts env s) ∧ Same v z) ↔
        ∀ items, v = .array items → items ≠ [] ∧ ∀ item ∈ items, NameKept env.toContexts item) := by
    intro v hv
    obtain ⟨names, hnames, hlist⟩ := hread.attributes.of_mem hv
    rw [hnames, getD_some] at hattributes
    simp only [hattributesPart, hattributes]
    exact attributes_shown_iff hlist
  have hendpointShown : ∀ v, ("endpoint".toList, v) ∈ ms →
      ((∃ z, ("endpoint".toList, z) ∈ shownMembers (notificationParts env s) ∧
        SameEndpoint v z) ↔ ∀ es, v = .object es → EndpointKept es) := by
    intro v hv
    obtain ⟨h, hh, hof⟩ := hread.endpoint.of_mem hv
    obtain rfl := some.inj (hendpoint.symm.trans hh)
    simp only [hendpointPart, exists_eq_left]
    exact endpoint_shown_iff hof
  constructor
  · rintro ⟨xs, ys, hxs, hys, hall⟩ ms' hms'
    obtain rfl := KjNode.object.inj hxs
    obtain rfl := KjNode.object.inj hys
    obtain rfl := KjNode.object.inj hms'
    constructor
    · intro items hitems
      exact (hattributesShown _ hitems).mp ((hall _ hitems).1 rfl) items rfl
    · intro es hes
      exact (hendpointShown _ hes).mp ((hall _ hes).2 rfl) es rfl
  · intro hkept
    obtain ⟨hattributesKept, hendpointKept⟩ := hkept ms rfl
    refine ⟨ms, _, rfl, rfl, ?_⟩
    rintro ⟨name, v⟩ hm
    constructor
    · intro hname
      obtain rfl : name = "attributes".toList := hname
      refine (hattributesShown v hm).mpr ?_
      rintro items rfl
      exact hattributesKept items hm
    · intro hname
      obtain rfl : name = "endpoint".toList := hname
      refine (hendpointShown v hm).mpr ?_
      rintro es rfl
      exact hendpointKept es hm

end SubscriptionShown
