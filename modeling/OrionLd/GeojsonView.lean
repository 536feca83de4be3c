import Mathlib.Data.List.Nodup
import OrionLd.KjTree

/-! Entities as GeoJSON features. The form of the entity is not looked at: an object without the
type GeoProperty is taken for the bare value of a GeoProperty, whatever it is. -/
namespace GeojsonView

open List
open KjTree (Text KjNode Members kjChildRemove)

/-- The fields of orionldState. The entities of geoPropertyNodes come with their ids. -/
structure State where
  linkHeaderAdded : Bool
  link : Option Text
  coreContextUrl : Text
  geoPropertyMissing : Bool
  geometryProperty : Option Text
  attrs : Option Text
  geoPropertyNodes : List (Text × Members)

def geoPropertyName (s : State) : Text := s.geometryProperty.getD "location".toList

def objectGeometry (members : Members) : Option KjNode :=
  match members.lookup "type".toList with
  | none => some (.object members)
  | some (.string type) =>
    if type = "GeoProperty".toList then some ((members.lookup "value".toList).getD .null)
    else some (.object members)
  | some _ => none

def geometry : Option KjNode → Option KjNode
  | some (.object members) => objectGeometry members
  | _ => some .null

def geoProperty (s : State) (tree : Members) (geoPropertyNode : Option KjNode) : Option KjNode :=
  match geoPropertyNode with
  | some node => some node
  | none => if s.geoPropertyMissing then none else tree.lookup (geoPropertyName s)

def contextMember (s : State) : Members :=
  if s.linkHeaderAdded then []
  else [("@context".toList, .string (s.link.getD s.coreContextUrl))]

/-- The parameter keyValues is not used. -/
def kjGeojsonEntityTransform (s : State) (tree : Members) (geoPropertyNode : Option KjNode) :
    Option Members :=
  match tree.lookup "id".toList, tree.lookup "type".toList with
  | some id, some (.string type) =>
    let tree := kjChildRemove (kjChildRemove tree "id".toList) "type".toList
    (geometry (geoProperty s tree geoPropertyNode)).map fun g =>
      [("id".toList, id), ("type".toList, .string "Feature".toList),
          ("properties".toList, .object (("type".toList, .string type) :: tree))] ++
        contextMember s ++ [("geometry".toList, g)]
  | _, _ => none

def geoPropertyNodeLookup (s : State) (entityIdNode : Option KjNode) : Option KjNode :=
  match entityIdNode with
  | some (.string entityId) =>
    (s.geoPropertyNodes.lookup entityId).bind fun entity => entity.lookup (geoPropertyName s)
  | _ => none

def kjGeojsonEntitiesTransform (s : State) (tree : List Members) : Option (List Members) :=
  tree.mapM fun entity =>
    kjGeojsonEntityTransform s entity
      (if s.attrs.isSome then geoPropertyNodeLookup s (entity.lookup "id".toList) else none)

structure Entity where
  members : Members
  id : KjNode
  type : Text
  distinct : (members.map (·.1)).Nodup
  hasId : members.lookup "id".toList = some id
  hasType : members.lookup "type".toList = some (.string type)

def Entity.others (e : Entity) : Members :=
  e.members.filter fun member => member.1 ≠ "id".toList ∧ member.1 ≠ "type".toList

def geometryTypes : List Text :=
  ["Point", "MultiPoint", "LineString", "MultiLineString", "Polygon", "MultiPolygon"].map
    String.toList

def isGeometry (members : Members) : Bool :=
  match members.lookup "type".toList, members.lookup "coordinates".toList with
  | some (.string type), some (.array _) => type ∈ geometryTypes
  | _, _ => false

def isGeoProperty (members : Members) : Bool :=
  match members.lookup "type".toList with
  | some (.string type) => type = "GeoProperty".toList
  | _ => false

/-- The value of a GeoProperty, or the node itself where it may be the bare value. -/
def geometryOf (whole bare : Bool) : Option KjNode → KjNode
  | some (.object members) =>
    if whole && isGeoProperty members then (members.lookup "value".toList).getD .null
    else if bare && isGeometry members then .object members
    else .null
  | _ => .null

/-- An attribute of the tree is as in the form of the entity, and a node that is passed along may be
either. -/
def wanted (keyValues : Bool) (s : State) (e : Entity) (geoPropertyNode : Option KjNode) : KjNode :=
  geometryOf (!keyValues || geoPropertyNode.isSome) (keyValues || geoPropertyNode.isSome)
    (geoProperty s e.others geoPropertyNode)

structure IsView (keyValues : Bool) (s : State) (e : Entity) (geoPropertyNode : Option KjNode)
    (feature : Members) : Prop where
  id : feature.lookup "id".toList = some e.id
  type : feature.lookup "type".toList = some (.string "Feature".toList)
  properties : feature.lookup "properties".toList =
    some (.object (("type".toList, .string e.type) :: e.others))
  geometry : feature.lookup "geometry".toList = some (wanted keyValues s e geoPropertyNode)

def nodeOf (s : State) (e : Entity) : Option KjNode :=
  if s.attrs.isSome then geoPropertyNodeLookup s (some e.id) else none

/-- The node is no object, a GeoProperty or a geometry, where it may be one. -/
def Readable (whole bare : Bool) : Option KjNode → Prop
  | some (.object members) =>
    if isGeoProperty members then whole ∨ (members.lookup "value".toList).getD .null = .null
    else bare ∧ isGeometry members
  | _ => True

def Viewable (keyValues : Bool) (s : State) (e : Entity) (geoPropertyNode : Option KjNode) : Prop :=
  Readable (!keyValues || geoPropertyNode.isSome) (keyValues || geoPropertyNode.isSome)
    (geoProperty s e.others geoPropertyNode)

variable {members : Members}

theorem geometry_geoProperty (h : isGeoProperty members = true) :
    objectGeometry members = some ((members.lookup "value".toList).getD .null) ∧
      isGeometry members = false := by
  unfold isGeoProperty at h
  split at h
  · rename_i type htype
    have hgeo := of_decide_eq_true h
    subst hgeo
    unfold objectGeometry isGeometry
    rw [htype]
    refine ⟨if_pos rfl, ?_⟩
    split
    · rename_i htype' _
      cases htype'
      decide
    · rfl
  · cases h

theorem geometry_other (h : isGeoProperty members = false) :
    objectGeometry members = some (.object members) ∨
      objectGeometry members = none ∧ isGeometry members = false := by
  unfold isGeoProperty at h
  unfold objectGeometry isGeometry
  split at h
  · rename_i type htype
    rw [htype]
    exact .inl (if_neg (of_decide_eq_false h))
  rename_i hstring
  cases htype : members.lookup "type".toList with
  | none => exact .inl rfl
  | some type =>
    cases type with
    | string type => exact absurd htype (hstring type)
    | _ => exact .inr ⟨rfl, rfl⟩

theorem geometry_iff (whole bare : Bool) (node : Option KjNode) :
    geometry node = some (geometryOf whole bare node) ↔ Readable whole bare node := by
  rcases node with _ | node
  · exact iff_of_true rfl trivial
  cases node with
  | object members =>
    cases hgeo : isGeoProperty members with
    | true =>
      obtain ⟨hvalue, hgeometry⟩ := geometry_geoProperty hgeo
      simp only [geometry, geometryOf, Readable, hvalue, hgeo, hgeometry, Bool.and_true,
        Bool.and_false, if_true, Option.some.injEq]
      cases whole <;> simp
    | false =>
      simp only [geometry, geometryOf, Readable, hgeo, Bool.and_false, Bool.false_eq_true, if_false]
      rcases geometry_other hgeo with hobject | ⟨hnone, hgeometry⟩
      · rw [hobject, Option.some.injEq]
        cases bare <;> cases isGeometry members <;> simp
      · rw [hnone, hgeometry]
        simp
  | _ => exact iff_of_true rfl trivial

variable {keyValues : Bool} {s : State}

theorem kjChildRemove_eq (h : (members.map (·.1)).Nodup) (name : Text) :
    kjChildRemove members name = members.filter fun member => member.1 ≠ name := by
  induction members with
  | nil => rfl
  | cons member members ih =>
    rw [map_cons, nodup_cons] at h
    unfold kjChildRemove at ih ⊢
    by_cases hname : member.1 = name
    · rw [eraseP_cons_of_pos (by simpa), filter_cons_of_neg (by simpa)]
      refine (filter_eq_self.mpr fun other hother => ?_).symm
      rw [decide_eq_true_eq]
      rintro rfl
      exact h.1 (hname ▸ mem_map_of_mem hother)
    · rw [eraseP_cons_of_neg (by simpa), filter_cons_of_pos (by simpa), ih h.2]

theorem others_eq (e : Entity) :
    kjChildRemove (kjChildRemove e.members "id".toList) "type".toList = e.others := by
  have hfirst := kjChildRemove_eq e.distinct "id".toList
  have hdistinct : ((kjChildRemove e.members "id".toList).map (·.1)).Nodup := by
    rw [hfirst]
    exact e.distinct.sublist (filter_sublist.map _)
  rw [kjChildRemove_eq hdistinct, hfirst, filter_filter, Entity.others]
  exact filter_congr fun _ _ => by simp [Bool.and_comm]

theorem lookup_geometry (id properties g : KjNode) :
    ([("id".toList, id), ("type".toList, .string "Feature".toList), ("properties".toList,
      properties)] ++ contextMember s ++ [("geometry".toList, g)]).lookup "geometry".toList =
        some g := by
  unfold contextMember
  cases s.linkHeaderAdded <;> rfl

theorem transform_eq (s : State) (e : Entity) (geoPropertyNode : Option KjNode) :
    kjGeojsonEntityTransform s e.members geoPropertyNode =
      (geometry (geoProperty s e.others geoPropertyNode)).map fun g =>
        [("id".toList, e.id), ("type".toList, .string "Feature".toList),
            ("properties".toList, .object (("type".toList, .string e.type) :: e.others))] ++
          contextMember s ++ [("geometry".toList, g)] := by
  unfold kjGeojsonEntityTransform
  rw [e.hasId, e.hasType]
  simp only [others_eq]

theorem view_iff (e : Entity) (geoPropertyNode : Option KjNode) :
    (∃ feature, kjGeojsonEntityTransform s e.members geoPropertyNode = some feature ∧
      IsView keyValues s e geoPropertyNode feature) ↔ Viewable keyValues s e geoPropertyNode := by
  unfold Viewable
  rw [← geometry_iff, transform_eq]
  constructor
  · rintro ⟨feature, hfeature, hview⟩
    obtain ⟨g, hg, rfl⟩ := Option.map_eq_some_iff.mp hfeature
    rw [hg, ← lookup_geometry (s := s), hview.geometry]
    rfl
  · intro h
    rw [h]
    exact ⟨_, rfl, rfl, rfl, rfl, lookup_geometry _ _ _⟩

theorem views_of_list (entities : List Entity) :
    (∃ features, kjGeojsonEntitiesTransform s (entities.map Entity.members) = some features ∧
      List.Forall₂ (fun e feature => IsView keyValues s e (nodeOf s e) feature) entities features) ↔
    ∀ e ∈ entities, Viewable keyValues s e (nodeOf s e) := by
  unfold kjGeojsonEntitiesTransform
  induction entities with
  | nil => exact iff_of_true ⟨[], rfl, .nil⟩ nofun
  | cons e entities ih =>
    rw [forall_mem_cons, ← ih, ← view_iff, map_cons, mapM_cons, e.hasId]
    constructor
    · rintro ⟨_, hfeatures, hviews⟩
      obtain ⟨feature, hfeature, hrest⟩ := Option.bind_eq_some_iff.mp hfeatures
      obtain ⟨features, hothers, heq⟩ := Option.bind_eq_some_iff.mp hrest
      cases heq
      obtain ⟨hview, hviews⟩ := forall₂_cons.mp hviews
      exact ⟨⟨feature, hfeature, hview⟩, features, hothers, hviews⟩
    · rintro ⟨⟨feature, hfeature, hview⟩, features, hfeatures, hviews⟩
      refine ⟨feature :: features, ?_, .cons hview hviews⟩
      exact Option.bind_eq_some_iff.mpr ⟨feature, hfeature,
        Option.bind_eq_some_iff.mpr ⟨features, hfeatures, rfl⟩⟩

/-- Entities are seen as they are if and only if the node for the geometry may be taken for it. -/
theorem views_faithful_iff (keyValues : Bool) (s : State) :
    (∀ (e : Entity) (geoPropertyNode : Option KjNode),
      (∃ feature, kjGeojsonEntityTransform s e.members geoPropertyNode = some feature ∧
        IsView keyValues s e geoPropertyNode feature) ↔ Viewable keyValues s e geoPropertyNode) ∧
    ∀ entities : List Entity,
      (∃ features, kjGeojsonEntitiesTransform s (entities.map Entity.members) = some features ∧
        List.Forall₂ (fun e feature => IsView keyValues s e (nodeOf s e) feature)
          entities features) ↔
      ∀ e ∈ entities, Viewable keyValues s e (nodeOf s e) :=
  ⟨view_iff, views_of_list⟩

def noGeometryProperty : State := ⟨true, none, [], false, none, none, []⟩

def parked : Entity where
  members := [("id".toList, .string "urn:1".toList), ("type".toList, .string "Vehicle".toList),
    ("location".toList, .object [("type".toList, .string "Property".toList),
      ("value".toList, .int 1)])]
  id := .string "urn:1".toList
  type := "Vehicle".toList
  distinct := by decide
  hasId := rfl
  hasType := rfl

theorem property_as_geometry : ¬ ∀ keyValues s e geoPropertyNode,
    ∃ feature, kjGeojsonEntityTransform s e.members geoPropertyNode = some feature ∧
      IsView keyValues s e geoPropertyNode feature := by
  intro h
  have hviewable := view_iff parked none |>.mp (h false noGeometryProperty parked none)
  exact absurd hviewable.1 (by decide)

end GeojsonView
