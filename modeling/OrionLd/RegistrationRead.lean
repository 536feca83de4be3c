import OrionLd.OrionldPostRegistrations
import OrionLd.RegistrationDocument
import OrionLd.SameJson
import Mathlib.Data.List.Permutation

/-! What a registration in creation takes from which member of its payload. Each reader of an object
is a loop that fills one slot for a name and refuses a slot filled twice, so that the members of an
accepted object are its slots in some order. -/
namespace RegistrationRead

open KjTree OrionldContextItem KjTreeToContextAttribute KjTreeToEntIdVector KjTreeToRegistration
open OrionldPostRegistrations RegistrationDocument Fallible SameJson List Option Except PcheckGeoQ
open PcheckSubscription (itemsCheck)

variable {field : String}

theorem once_ok {α : Type} {seen : Option α} {u : Unit} (h : once seen field = .ok u) :
    seen = none := by
  cases seen with
  | none => rfl
  | some a => cases h

variable {node : KjNode} {m : Text × KjNode} {problem problem' : Option CheckError}

theorem stringCheck_ok {s : Text} (h : stringCheck field node = .ok s) : node = .string s := by
  cases node with
  | string t =>
    cases h
    rfl
  | _ => cases h

theorem string_slot_ok {β : Type} {slot : Option Text} {text : String} {f : Text → β} {b : β}
    (h : (do
    once slot field
    let s ← stringCheck text node
    (.ok (f s) : Except CheckError β)) = .ok b) :
    slot = none ∧ ∃ s, node = .string s ∧ f s = b := by
  obtain ⟨u, hu, h⟩ := bind_ok h
  obtain ⟨s, hs, h⟩ := bind_ok h
  exact ⟨once_ok hu, s, stringCheck_ok hs, ok.inj h⟩

def slotContent (name : String) (slot : Option Text) : Members :=
  (slot.map (stringMember name)).toList

@[simp] theorem slotContent_none (name : String) : slotContent name none = [] := rfl

@[simp] theorem slotContent_some (name : String) (s : Text) :
    slotContent name (some s) = [stringMember name s] := rfl

def intervalContent (f : IntervalFields) : Members :=
  slotContent "start" f.start ++ slotContent "end" f.endTime

theorem intervalField_content {f f' : IntervalFields} (h : intervalField f m = .ok f') :
    (intervalContent f').Perm (intervalContent f ++ [m]) := by
  obtain ⟨name, node⟩ := m
  unfold intervalField at h
  split at h
  · rename_i hname
    obtain ⟨hnone, s, rfl, rfl⟩ := string_slot_ok h
    obtain rfl : name = "start".toList := hname
    simp only [intervalContent, hnone, slotContent_some, slotContent_none, nil_append]
    exact perm_append_comm
  · split at h
    · rename_i hname
      obtain ⟨hnone, s, rfl, rfl⟩ := string_slot_ok h
      obtain rfl : name = "end".toList := hname
      simp [intervalContent, hnone, stringMember]
    · cases h

variable {ms : Members}

/-- An interval with a start has been read up to its end, even if that is refused. -/
theorem interval_started {env : Env} (h : 0 < (kjTreeToTimeInterval env ms ⟨0, 0⟩).1.start) :
    ∃ s e, ms.Perm [stringMember "start" s, stringMember "end" e] ∧
      (kjTreeToTimeInterval env ms ⟨0, 0⟩).1 = ⟨timeOf env s, timeOf env e⟩ := by
  unfold kjTreeToTimeInterval at h ⊢
  split at h
  · exact absurd h (lt_irrefl 0)
  · exact absurd h (lt_irrefl 0)
  · exact absurd h (lt_irrefl 0)
  rename_i s e hfold
  refine ⟨s, e, (foldlM_collects (fun _ _ _ _ => intervalField_content) _ _ hfold).symm, ?_⟩
  split at h
  · exact absurd h (by norm_num)
  rename_i hs
  rw [if_neg hs]
  by_cases he : timeOf env e = -1
  · rw [if_pos he, he]
  · rw [if_neg he]

theorem interval_of_members {env : Env} {s e : Text}
    (h : ms.Perm [stringMember "start" s, stringMember "end" e]) (hs : timeOf env s ≠ -1)
    (he : timeOf env e ≠ -1) :
    (kjTreeToTimeInterval env ms ⟨0, 0⟩).1 = ⟨timeOf env s, timeOf env e⟩ := by
  have hfold : ms.foldlM intervalField ⟨none, none⟩ = .ok ⟨some s, some e⟩ := by
    rcases perm_pair.mp h with rfl | rfl <;> rfl
  unfold kjTreeToTimeInterval
  rw [hfold]
  simp only
  rw [if_neg hs, if_neg he]

variable {name : Text}

theorem geoType_of_name {t : GeoJsonType} (h : pcheckGeoType name = .ok t) :
    name = (geoJsonTypeName t).toList := by
  unfold pcheckGeoType at h
  split at h
  · rename_i hname
    cases h
    exact hname
  split at h
  · rename_i hname
    cases h
    exact hname
  split at h
  · rename_i hname
    cases h
    exact hname
  split at h
  · rename_i hname
    cases h
    exact hname
  split at h
  · rename_i hname
    cases h
    exact hname
  split at h
  · rename_i hname
    cases h
    exact hname
  · cases h

def geoContent (geoType : Option GeoJsonType) (coordinates : Option KjNode) : Members :=
  (geoType.map fun t => stringMember "type" (geoJsonTypeName t).toList).toList ++
    (coordinates.map fun c => ("coordinates".toList, c)).toList

theorem geoMembers_cons {geoType : Option GeoJsonType} {coordinates : Option KjNode}
    {r : Option GeoJsonType × Option KjNode}
    (h : geoMembers ((name, node) :: ms) geoType coordinates = .ok r) :
    (name = "type".toList ∧ geoType = none ∧ ∃ s t, node = .string s ∧
        pcheckGeoType s = .ok t ∧ geoMembers ms (some t) coordinates = .ok r) ∨
      (name = "coordinates".toList ∧ coordinates = none ∧ ∃ items, node = .array items ∧
        geoMembers ms geoType (some (.array items)) = .ok r) := by
  unfold geoMembers at h
  split at h
  · next htype =>
    cases geoType with
    | some t => cases h
    | none =>
      cases node with
      | string s =>
        by_cases hs : s = []
        · simp only [if_pos hs] at h
          cases h
        simp only [if_neg hs] at h
        obtain ⟨t, ht, h⟩ := bind_ok h
        exact .inl ⟨htype, rfl, s, t, rfl, ht, h⟩
      | _ => cases h
  · split at h
    · next hcoords =>
      cases coordinates with
      | some c => cases h
      | none =>
        cases node with
        | array items =>
          exact .inr ⟨hcoords, rfl, items, rfl, h⟩
        | _ => cases h
    · cases h

theorem geoMembers_content (ms : Members) :
    ∀ geoType coordinates geoType' coordinates',
      geoMembers ms geoType coordinates = .ok (geoType', coordinates') →
      (∀ c, coordinates = some c → ∃ items, c = .array items) →
      (geoContent geoType' coordinates').Perm (geoContent geoType coordinates ++ ms) ∧
        ∀ c, coordinates' = some c → ∃ items, c = .array items := by
  induction ms with
  | nil =>
    intro geoType coordinates geoType' coordinates' h harray
    cases h
    rw [append_nil]
    exact ⟨List.Perm.refl _, harray⟩
  | cons m ms ih =>
    obtain ⟨name, node⟩ := m
    intro geoType coordinates geoType' coordinates' h harray
    rcases geoMembers_cons h with ⟨rfl, rfl, s, t, rfl, ht, h⟩ | ⟨rfl, rfl, items, rfl, h⟩
    · obtain ⟨hperm, harray'⟩ := ih _ _ _ _ h harray
      refine ⟨hperm.trans ?_, harray'⟩
      rw [geoType_of_name ht]
      exact perm_middle.symm
    · have hnew : ∀ c, some (KjNode.array items) = some c → ∃ items, c = .array items := by
        rintro c hc
        exact ⟨items, (some.inj hc).symm⟩
      obtain ⟨hperm, harray'⟩ := ih _ _ _ _ h hnew
      refine ⟨hperm.trans ?_, harray'⟩
      simp [geoContent]

theorem geo_passed {l : GeoLocation} (h : (kjTreeToGeoLocation name ms l).2 = .ok ()) :
    ∃ t items, ms.Perm [stringMember "type" (geoJsonTypeName t).toList,
        ("coordinates".toList, .array items)] ∧
      (kjTreeToGeoLocation name ms l).1 =
        ⟨some (geoJsonTypeName t).toList, some (.array items)⟩ := by
  unfold kjTreeToGeoLocation at h ⊢
  split at h
  · cases h
  · rename_i u geoType coordinates hcheck hmembers
    obtain ⟨hperm, harray⟩ := geoMembers_content ms _ _ _ _ hmembers (by simp)
    rw [pcheckGeoPropertyValue, hmembers, ok_bind] at hcheck
    cases geoType with
    | none => cases coordinates <;> cases hcheck
    | some t =>
      cases coordinates with
      | none => cases hcheck
      | some c =>
        obtain ⟨items, rfl⟩ := harray c rfl
        exact ⟨t, items, hperm.symm, rfl⟩
  · cases h

theorem geo_refused {l : GeoLocation} {e : CheckError}
    (h : (kjTreeToGeoLocation name ms l).2 = .error e) : (kjTreeToGeoLocation name ms l).1 = l := by
  unfold kjTreeToGeoLocation at h ⊢
  split at h
  · rfl
  · cases h
  · rfl

def entityContent (f : EntityFields) : Members :=
  slotContent "id" f.id ++ slotContent "idPattern" f.idPattern ++ slotContent "type" f.type

/-- The name of a member of an entity, when it is not one of those with an at sign. -/
def PlainName (name : Text) : Prop := name ≠ "@id".toList ∧ name ≠ "@type".toList

variable {f : EntityFields}

theorem entityField_content {f' : EntityFields} (hplain : PlainName m.1)
    (h : entityField f m = .ok f') : (entityContent f').Perm (entityContent f ++ [m]) := by
  obtain ⟨name, node⟩ := m
  unfold entityField at h
  split at h
  · rename_i hname
    obtain ⟨hnone, s, rfl, rfl⟩ := string_slot_ok h
    obtain rfl : name = "id".toList := hname.resolve_right hplain.1
    simp only [entityContent, hnone, slotContent_some, slotContent_none, nil_append]
    rw [append_assoc]
    exact perm_append_comm
  · split at h
    · rename_i hname
      obtain ⟨hnone, s, rfl, rfl⟩ := string_slot_ok h
      obtain rfl : name = "idPattern".toList := hname
      simp only [entityContent, hnone, slotContent_some, slotContent_none, append_nil, append_assoc]
      exact perm_append_comm.append_left _
    · split at h
      · rename_i hname
        obtain ⟨hnone, s, rfl, rfl⟩ := string_slot_ok h
        obtain rfl : name = "type".toList := hname.resolve_right hplain.2
        simp [entityContent, hnone, stringMember]
      · cases h

theorem entity_members (hplain : ∀ m ∈ ms, PlainName m.1)
    (h : ms.foldlM entityField ⟨none, none, none⟩ = .ok f) : (entityContent f).Perm ms :=
  foldlM_collects (fun _ m hm _ => entityField_content (hplain m hm)) _ _ h

def entityType (c : Contexts) (type : Text) : Text := (orionldContextItemExpand c type).1

/-- The three forms of an EntityInfo. -/
inductive EntityForm (c : Contexts) : EntityFields → EntID → Prop
  | id {id type : Text} : id ≠ [] →
      EntityForm c ⟨some id, none, some type⟩ ⟨id, [], entityType c type⟩
  | pattern (idPattern type : Text) :
      EntityForm c ⟨none, some idPattern, some type⟩ ⟨[], idPattern, entityType c type⟩
  | typeOnly (type : Text) :
      EntityForm c ⟨none, none, some type⟩ ⟨[], [], entityType c type⟩

theorem uri_not_empty {uri : Text} (h : pcheckUri uri = true) : uri ≠ [] := by
  rintro rfl
  cases h

theorem entIDOfFields_form {c : Contexts} {e : EntID} (h : entIDOfFields c f = .ok e) :
    EntityForm c f e := by
  obtain ⟨id, idPattern, type⟩ := f
  unfold entIDOfFields at h
  cases id with
  | none =>
    cases idPattern with
    | none =>
      cases type with
      | none => cases h
      | some type =>
        cases h
        exact .typeOnly type
    | some idPattern =>
      cases type with
      | none => cases h
      | some type =>
        cases h
        exact .pattern idPattern type
  | some id =>
    cases idPattern with
    | some idPattern => cases h
    | none =>
      by_cases huri : pcheckUri id = true
      · simp only [any_some, huri, Bool.not_true, Bool.false_eq_true, if_false] at h
        cases type with
        | none => cases h
        | some type =>
          cases h
          exact .id (uri_not_empty huri)
      · simp only [any_some, huri, Bool.not_false, if_true] at h
        cases h

theorem kjTreeToEntID_ok {c : Contexts} {item : KjNode} {e : EntID}
    (h : kjTreeToEntID c item = .ok e) :
    ∃ ms f, item = .object ms ∧ ms.foldlM entityField ⟨none, none, none⟩ = .ok f ∧
      EntityForm c f e := by
  cases item with
  | object ms =>
    obtain ⟨f, hf, h⟩ := bind_ok h
    exact ⟨ms, f, rfl, hf, entIDOfFields_form h⟩
  | _ => cases h

def Slot {α : Type} (R : KjNode → α → Prop) (name : String) (slot : Option α)
    (pre : Members) : Prop :=
  match slot with
  | none => name.toList ∉ pre.map Prod.fst
  | some a => name.toList ∈ pre.map Prod.fst ∧ ∀ node, (name.toList, node) ∈ pre → R node a

variable {α : Type} {name : String} {pre : Members} {items : List KjNode}
variable {c : Contexts}
variable {R : KjNode → α → Prop}

theorem Slot.other {slot : Option α} {n : Text} {v : KjNode} (h : Slot R name slot pre)
    (hn : n ≠ name.toList) : Slot R name slot (pre ++ [(n, v)]) := by
  cases slot with
  | none =>
    unfold Slot at h ⊢
    rw [map_append, mem_append, not_or]
    exact ⟨h, by simpa using hn.symm⟩
  | some a =>
    obtain ⟨hname, hr⟩ := h
    refine ⟨by rw [map_append]; exact mem_append_left _ hname, ?_⟩
    intro node hnode
    rcases mem_append.mp hnode with hnode | hnode
    · exact hr node hnode
    · exact absurd (Prod.mk.inj (mem_singleton.mp hnode)).1.symm hn

theorem Slot.fill {a : α} (hnew : Slot R name none pre) (h : R node a) :
    Slot R name (some a) (pre ++ [(name.toList, node)]) := by
  refine ⟨by simp, ?_⟩
  intro node' hnode'
  rcases mem_append.mp hnode' with hnode' | hnode'
  · exact absurd (mem_map_of_mem hnode') hnew
  · rw [(Prod.mk.inj (mem_singleton.mp hnode')).2]
    exact h

theorem Slot.of_mem {slot : Option α} (h : Slot R name slot ms) (hmem : (name.toList, node) ∈ ms) :
    ∃ a, slot = some a ∧ R node a := by
  cases slot with
  | none => exact absurd (mem_map_of_mem hmem) h
  | some a => exact ⟨a, rfl, h.2 node hmem⟩

theorem Slot.filled {R : KjNode → List α → Prop} {slot : Option (List α)} (h : Slot R name slot ms)
    (hne : slot.getD [] ≠ []) : name.toList ∈ ms.map Prod.fst := by
  cases slot with
  | none => exact absurd rfl hne
  | some a => exact h.1

def EntitiesOf (c : Contexts) (node : KjNode) (entities : List EntID) : Prop :=
  ∃ items, childNodes node = .ok items ∧ items ≠ [] ∧
    List.Forall₂ (fun item e => kjTreeToEntID c item = .ok e) items entities

def NamesOf (c : Contexts) (node : KjNode) (names : List Text) : Prop :=
  ∃ items, childNodes node = .ok items ∧ items ≠ [] ∧
    List.Forall₂ (fun item name => ∃ s, item = .string s ∧
      name = (orionldAttributeExpand c s).1) items names

structure InformationRead (c : Contexts) (f : InformationFields) (pre : Members) : Prop where
  nodup : (pre.map Prod.fst).Nodup
  names : ∀ m ∈ pre, m.1 ∈ ["entities".toList, "properties".toList, "relationships".toList]
  entities : Slot (EntitiesOf c) "entities" f.entities pre
  properties : Slot (NamesOf c) "properties" f.properties pre
  relationships : Slot (NamesOf c) "relationships" f.relationships pre

theorem filledNodes_ok (h : filledNodes field node = .ok items) :
    childNodes node = .ok items ∧ items ≠ [] := by
  obtain ⟨items', hitems, h⟩ := bind_ok h
  split at h
  · cases h
  rename_i hne
  cases h
  exact ⟨hitems, hne⟩

theorem entitiesOf_ok {entities : List EntID} (hitems : filledNodes field node = .ok items)
    (h : kjTreeToEntIdVector c node = .ok entities) : EntitiesOf c node entities := by
  obtain ⟨hnodes, hne⟩ := filledNodes_ok hitems
  obtain ⟨items', hnodes', h⟩ := bind_ok h
  obtain rfl := ok.inj (hnodes.symm.trans hnodes')
  exact ⟨items, hnodes, hne, mapM_forall₂ h⟩

theorem namesOf_ok {text : String} {names : List Text} (hitems : filledNodes field node = .ok items)
    (h : items.mapM (expandedName c text) = .ok names) : NamesOf c node names := by
  obtain ⟨hnodes, hne⟩ := filledNodes_ok hitems
  refine ⟨items, hnodes, hne, (mapM_forall₂ h).imp ?_⟩
  intro item name hname
  obtain ⟨s, hs, hname⟩ := bind_ok hname
  exact ⟨s, stringCheck_ok hs, (ok.inj hname).symm⟩

theorem nodup_add (h : (pre.map Prod.fst).Nodup) (hm : m.1 ∉ pre.map Prod.fst) :
    ((pre ++ [m]).map Prod.fst).Nodup := by
  rw [map_append, nodup_append]
  refine ⟨h, by simp, ?_⟩
  intro a ha b hb
  obtain rfl : b = m.1 := by simpa using hb
  rintro rfl
  exact hm ha

theorem names_append {names : List Text} (h : ∀ m ∈ pre, m.1 ∈ names) (hm : m.1 ∈ names) :
    ∀ m' ∈ pre ++ [m], m'.1 ∈ names := by
  intro m' hm'
  rcases mem_append.mp hm' with hm' | hm'
  · exact h m' hm'
  · rw [mem_singleton.mp hm']
    exact hm

theorem informationField_read {f f' : InformationFields} (hread : InformationRead c f pre)
    (h : informationField c f m = .ok f') : InformationRead c f' (pre ++ [m]) := by
  obtain ⟨name, node⟩ := m
  unfold informationField at h
  split at h
  · rename_i hname
    obtain rfl : name = "entities".toList := hname
    obtain ⟨u, hu, h⟩ := bind_ok h
    obtain ⟨items, hitems, h⟩ := bind_ok h
    obtain ⟨entities, hentities, h⟩ := bind_ok h
    cases h
    have hslot := hread.entities
    rw [once_ok hu] at hslot
    exact ⟨nodup_add hread.nodup hslot, names_append hread.names (by simp),
      hslot.fill (entitiesOf_ok hitems hentities), hread.properties.other (by decide),
      hread.relationships.other (by decide)⟩
  · split at h
    · rename_i hname
      obtain rfl : name = "properties".toList := hname
      obtain ⟨u, hu, h⟩ := bind_ok h
      obtain ⟨items, hitems, h⟩ := bind_ok h
      obtain ⟨names, hitems', h⟩ := bind_ok h
      cases h
      have hslot := hread.properties
      rw [once_ok hu] at hslot
      exact ⟨nodup_add hread.nodup hslot, names_append hread.names (by simp),
        hread.entities.other (by decide),
        hslot.fill (namesOf_ok hitems hitems'), hread.relationships.other (by decide)⟩
    · split at h
      · rename_i hname
        obtain rfl : name = "relationships".toList := hname
        obtain ⟨u, hu, h⟩ := bind_ok h
        obtain ⟨items, hitems, h⟩ := bind_ok h
        obtain ⟨names, hitems', h⟩ := bind_ok h
        cases h
        have hslot := hread.relationships
        rw [once_ok hu] at hslot
        exact ⟨nodup_add hread.nodup hslot, names_append hread.names (by simp),
          hread.entities.other (by decide), hread.properties.other (by decide),
          hslot.fill (namesOf_ok hitems hitems')⟩
      · cases h

theorem information_read {d : DataProvided} (h : kjTreeToRegistrationInformation c items = .ok d) :
    ∃ ms f, items = [.object ms] ∧ InformationRead c f ms ∧
      d = ⟨f.entities.getD [], f.properties.getD [], f.relationships.getD []⟩ := by
  match items with
  | [] => cases h
  | _ :: _ :: _ => cases h
  | [item] =>
    obtain ⟨ms, hms, h⟩ := bind_ok h
    obtain ⟨f, hf, h⟩ := bind_ok h
    have hstart : InformationRead c ⟨none, none, none⟩ [] := by
      constructor <;> simp [Slot]
    have hread := foldlM_invariant (fun _ _ _ _ => informationField_read) ms _ [] f hstart hf
    split at h
    · cases h
    rename_i hfilled
    cases h
    rcases childMembers_ok hms with rfl | rfl
    · exact ⟨ms, f, rfl, hread, rfl⟩
    · cases hf
      exact absurd rfl hfilled

variable {f : Field} {env : Env}

theorem memberKind_field {name : Text} (h : memberKind name = .field f) : name = f.text.toList := by
  unfold memberKind at h
  split at h
  · rename_i g hfind
    obtain rfl := MemberKind.field.inj h
    have hfound := List.find?_some hfind
    exact (eq_of_beq hfound).symm
  · split at h <;> cases h

theorem memberKind_text (f : Field) : memberKind f.text.toList = .field f := by
  cases f <;> rfl

theorem fieldOf_iff : fieldOf m = some f ↔ m.1 = f.text.toList := by
  unfold fieldOf
  constructor
  · intro h
    split at h
    · rename_i g hg
      cases h
      exact memberKind_field hg
    · cases h
  · intro h
    rw [h, memberKind_text]

def FieldRead (env : Env) (r : Registration) (f : Field) (node : Option KjNode) : Prop :=
  match f, node with
  | .name, none => r.name = []
  | .name, some node => node = .string r.name
  | .description, none => r.description = []
  | .description, some node => node = .string r.description
  | .information, none => r.dataProvided = ⟨[], [], []⟩
  | .information, some node => ∃ items, node = .array items ∧
      kjTreeToRegistrationInformation env.toContexts items = .ok r.dataProvided
  | .observationInterval, none => r.observationInterval = ⟨0, 0⟩
  | .observationInterval, some node => ∃ ms, node = .object ms ∧
      r.observationInterval = (kjTreeToTimeInterval env ms ⟨0, 0⟩).1
  | .managementInterval, none => r.managementInterval = ⟨0, 0⟩
  | .managementInterval, some node => ∃ ms, node = .object ms ∧
      r.managementInterval = (kjTreeToTimeInterval env ms ⟨0, 0⟩).1
  | .location, none => r.location = ⟨none, none⟩
  | .location, some node => ∃ ms, node = .object ms ∧
      r.location = (kjTreeToGeoLocation f.text.toList ms ⟨none, none⟩).1
  | .observationSpace, none => r.observationSpace = ⟨none, none⟩
  | .observationSpace, some node => ∃ ms, node = .object ms ∧
      r.observationSpace = (kjTreeToGeoLocation f.text.toList ms ⟨none, none⟩).1
  | .operationSpace, none => r.operationSpace = ⟨none, none⟩
  | .operationSpace, some node => ∃ ms, node = .object ms ∧
      r.operationSpace = (kjTreeToGeoLocation f.text.toList ms ⟨none, none⟩).1
  | .expires, none => r.expires = -1
  | .expires, some node => ∃ s, node = .string s ∧ r.expires = timeOf env s ∧ r.expires ≠ -1
  | .endpoint, none => r.url = []
  | .endpoint, some node => node = .string r.url

theorem objectMembers_ok (h : objectMembers field node = .ok ms) : node = .object ms := by
  cases node with
  | object ms' =>
    cases h
    rfl
  | _ => cases h

theorem itemsCheck_ok (h : itemsCheck field node = .ok items) : node = .array items := by
  cases node with
  | array items' =>
    cases items' with
    | nil => cases h
    | cons item items' =>
      cases h
      rfl
  | _ => cases h

theorem registrationField_self {r r' : Registration} (hnone : FieldRead env r f none)
    (h : registrationField env r problem f node = .ok (r', problem')) :
    FieldRead env r' f (some node) := by
  cases f with
  | information =>
    obtain ⟨items, hitems, h⟩ := bind_ok h
    obtain ⟨d, hd, h⟩ := bind_ok h
    cases h
    exact ⟨items, itemsCheck_ok hitems, hd⟩
  | observationInterval | managementInterval | location | observationSpace | operationSpace =>
    obtain ⟨ms, hms, h⟩ := bind_ok h
    cases h
    refine ⟨ms, objectMembers_ok hms, ?_⟩
    rw [← show _ = _ from hnone]
  | expires =>
    obtain ⟨s, hs, h⟩ := bind_ok h
    split at h
    · cases h
    rename_i htime
    cases h
    exact ⟨s, stringCheck_ok hs, rfl, htime⟩
  | name | description | endpoint =>
    obtain ⟨s, hs, h⟩ := bind_ok h
    cases h
    exact stringCheck_ok hs

structure OnlyField (env : Env) (f : Field) (r r' : Registration) : Prop where
  id : r'.id = r.id
  properties : r'.properties = r.properties
  others : ∀ g node, g ≠ f → FieldRead env r g node → FieldRead env r' g node

theorem registrationField_only {r r' : Registration}
    (h : registrationField env r problem f node = .ok (r', problem')) : OnlyField env f r r' := by
  cases f with
  | information =>
    obtain ⟨items, -, h⟩ := bind_ok h
    obtain ⟨d, -, h⟩ := bind_ok h
    cases h
    refine ⟨rfl, rfl, ?_⟩
    intro g node hg hread
    cases g <;> first | exact absurd rfl hg | (cases node <;> exact hread)
  | expires =>
    obtain ⟨s, -, h⟩ := bind_ok h
    split at h
    · cases h
    cases h
    refine ⟨rfl, rfl, ?_⟩
    intro g node hg hread
    cases g <;> first | exact absurd rfl hg | (cases node <;> exact hread)
  | _ =>
    obtain ⟨a, -, h⟩ := bind_ok h
    cases h
    refine ⟨rfl, rfl, ?_⟩
    intro g node hg hread
    cases g <;> first | exact absurd rfl hg | (cases node <;> exact hread)

def given (pre : Members) (f : Field) : Option KjNode :=
  (pre.find? fun m => fieldOf m = some f).map Prod.snd

def isProperty (m : Text × KjNode) : Bool := memberKind m.1 = .property

def extras (c : Contexts) (pre : Members) : Members :=
  (pre.filter isProperty).map fun m => ((orionldAttributeExpand c m.1).1, m.2)

structure LoopRead (env : Env) (id : Text) (s : Reading) (pre : Members) : Prop where
  id : s.registration.id = id
  seen : s.seen = seenIn pre
  nodup : (seenIn pre).Nodup
  fields : ∀ f, FieldRead env s.registration f (given pre f)
  properties : s.registration.properties.getD [] = extras env.toContexts pre

theorem given_append (pre : Members) (m : Text × KjNode) (f : Field) :
    given (pre ++ [m]) f = (given pre f).or (if fieldOf m = some f then some m.2 else none) := by
  unfold given
  rw [List.find?_append]
  cases pre.find? fun m => fieldOf m = some f with
  | some m' => rfl
  | none =>
    by_cases hm : fieldOf m = some f <;> simp [hm]

theorem given_none_iff : given pre f = none ↔ f ∉ seenIn pre := by
  simp [given, seenIn]

theorem seenIn_append (pre : Members) (m : Text × KjNode) :
    seenIn (pre ++ [m]) = seenIn pre ++ (fieldOf m).toList := by
  unfold seenIn
  cases hm : fieldOf m <;> simp [hm]

theorem extras_append (c : Contexts) (pre : Members) (m : Text × KjNode) :
    extras c (pre ++ [m]) = extras c pre ++
      if isProperty m then [((orionldAttributeExpand c m.1).1, m.2)] else [] := by
  unfold extras
  cases hm : isProperty m <;> simp [hm]

theorem registrationMember_read {id : Text} {s s' : Reading} (hread : LoopRead env id s pre)
    (h : registrationMember env s m = .ok s') : LoopRead env id s' (pre ++ [m]) := by
  unfold registrationMember at h
  cases hkind : memberKind m.1 with
  | readOnly =>
    rw [hkind] at h
    cases h
    have hnot : fieldOf m = none := by simp [fieldOf, hkind]
    have hproperty : isProperty m = false := by simp [isProperty, hkind]
    refine ⟨hread.id, ?_, ?_, ?_, ?_⟩
    · rw [seenIn_append, hnot, hread.seen]
      simp
    · rw [seenIn_append, hnot]
      simpa using hread.nodup
    · intro f
      rw [given_append, hnot]
      simpa using hread.fields f
    · rw [extras_append, hproperty]
      simpa using hread.properties
  | property =>
    rw [hkind] at h
    cases h
    have hnot : fieldOf m = none := by simp [fieldOf, hkind]
    have hproperty : isProperty m = true := by simp [isProperty, hkind]
    refine ⟨hread.id, ?_, ?_, ?_, ?_⟩
    · rw [seenIn_append, hnot]
      simpa using hread.seen
    · rw [seenIn_append, hnot]
      simpa using hread.nodup
    · intro f
      have hf := hread.fields f
      rw [given_append, hnot]
      cases f <;> cases hg : given pre _ <;> rw [hg] at hf <;> exact hf
    · rw [extras_append, hproperty, ← hread.properties]
      simp
  | field f =>
    rw [hkind] at h
    have hfield : fieldOf m = some f := by simp [fieldOf, hkind]
    have hproperty : isProperty m = false := by simp [isProperty, hkind]
    simp only at h
    split at h
    · cases h
    rename_i hnew
    obtain ⟨⟨r', problem'⟩, hr, h⟩ := bind_ok h
    cases h
    rw [hread.seen] at hnew
    have hnone : given pre f = none := given_none_iff.mpr hnew
    have hf := registrationField_self (hnone ▸ hread.fields f) hr
    have honly := registrationField_only hr
    refine ⟨honly.id.trans hread.id, ?_, ?_, ?_, ?_⟩
    · rw [seenIn_append, hfield, hread.seen]
      rfl
    · rw [seenIn_append, hfield, toList_some, nodup_append]
      refine ⟨hread.nodup, by simp, ?_⟩
      intro a ha b hb
      obtain rfl : b = f := by simpa using hb
      rintro rfl
      exact hnew ha
    · intro g
      rw [given_append, hfield]
      by_cases hg : g = f
      · rw [hg, hnone]
        simpa using hf
      · rw [if_neg fun h => hg (some.inj h).symm, or_none]
        exact honly.others g _ hg (hread.fields g)
    · rw [extras_append, hproperty]
      simpa [honly.properties] using hread.properties

theorem empty_read (env : Env) (id : Text) :
    LoopRead env id ⟨emptyRegistration id, [], none⟩ [] := by
  refine ⟨rfl, rfl, nodup_nil, ?_, rfl⟩
  intro f
  cases f <;> rfl

theorem registration_read {p : Post} {s : Reading} (h : kjTreeToRegistration env p = .ok s) :
    LoopRead env (registrationId p) s p.members := by
  obtain ⟨u, -, h⟩ := bind_ok h
  obtain ⟨u', -, h⟩ := bind_ok h
  have hread := foldlM_invariant (fun _ _ _ _ => registrationMember_read) p.members _ [] s
    (empty_read env (registrationId p)) h
  rwa [nil_append] at hread

theorem given_of_mem (h : (seenIn pre).Nodup) (hm : m ∈ pre) (hf : fieldOf m = some f) :
    given pre f = some m.2 := by
  induction pre with
  | nil => cases hm
  | cons m' pre ih =>
    unfold given
    rw [List.find?_cons]
    rcases mem_cons.mp hm with rfl | hm'
    · simp [hf]
    have hnodup : (seenIn pre).Nodup := by
      exact h.sublist ((sublist_cons_self m' pre).filterMap fieldOf)
    cases hm'f : decide (fieldOf m' = some f) with
    | false => exact ih hnodup hm'
    | true =>
      have hhead : fieldOf m' = some f := of_decide_eq_true hm'f
      have hlater : f ∈ seenIn pre := mem_filterMap.mpr ⟨m, hm', hf⟩
      rw [seenIn, filterMap_cons_some hhead] at h
      exact absurd hlater (nodup_cons.mp h).1

theorem mem_of_given (h : given pre f = some node) : (f.text.toList, node) ∈ pre := by
  obtain ⟨m, hm, rfl⟩ := map_eq_some_iff.mp h
  have hf : fieldOf m = some f := by simpa using List.find?_some hm
  rw [← fieldOf_iff.mp hf]
  exact mem_of_find?_eq_some hm

end RegistrationRead
