import OrionLd.OrionldPatchEntity

/-! An attribute that is read from the database and converted as if a client had sent it. The
conversion checks the value again, takes the item out of an array that has only one, and expands the
names of the sub-attributes. -/
namespace AttributeReadBack

open MongoQuery (Bson)
open Fallible KjTree OrionldContextItem KjTreeToContextAttribute MongoEntity
open OrionldPatchEntity List Except

variable (env : Env)

/-- The context declares the attribute to be a list or a set. -/
def KeepsArray (item : Option ContextItem) : Prop :=
  ∃ t, item.bind ContextItem.type = some t ∧ (t = "@list".toList ∨ t = "@set".toList)

def IsUriOrUris (value : Bson) : Prop :=
  (∃ s, value = .str s ∧ pcheckUri s = true) ∨
    ∃ items, value = .arr items ∧ ∀ i ∈ items, ∃ s, i = .str s ∧ pcheckUri s = true

/-- What the value must be for the conversion to accept it and not to change it. -/
def ValueSurvives (item : Option ContextItem) (value : Bson) : AttributeType → Prop
  | .property =>
    (∀ x, value = .arr [x] → KeepsArray item) ∧ value ≠ .null ∧
      ∀ fields, value = .obj fields → specialCompoundCheck env (dbFieldsToKjTree fields) = .ok ()
  | .geoProperty => pcheckGeoPropertyValue (dbDataToKjTree value) = .ok ()
  | .temporalProperty => False
  | .relationship => IsUriOrUris value

/-- Without a type it survives only as observedAt or unitCode. -/
def MetadataSurvives (n : Text) (md : StoredMetadata) : Prop :=
  let name := (orionldSubAttributeExpand env.toContexts n).1
  let shortName := orionldContextItemAliasLookup env.toContexts name
  isTimestamp n = false ∧
    if shortName = "observedAt".toList then
      dotForEq name = n ∧ md.type = [] ∧ ∃ x, md.value = .num x
    else if shortName = "unitCode".toList then
      n = "unitCode".toList ∧ md.type = [] ∧ ∃ s, md.value = .str s
    else
      dotForEq name = n ∧ isMetadataType md.type = true ∧
        (md.type = "Relationship".toList → ∃ s, md.value = .str s)

section

variable {env : Env} {name attributeName : Text}

theorem unwrapped_read_back (item : Option ContextItem) (b : Bson) :
    ((∀ x, b = .arr [x] → KeepsArray item) ∧
        unwrapped item (dbDataToKjTree b) = dbDataToKjTree b) ∨
      ∃ x, b = .arr [x] ∧ ¬ KeepsArray item ∧
        unwrapped item (dbDataToKjTree b) = dbDataToKjTree x := by
  by_cases hb : ∃ x, b = .arr [x]
  · obtain ⟨x, rfl⟩ := hb
    have hx : dbDataToKjTree (.arr [x]) = .array [dbDataToKjTree x] := by
      simp [dbDataToKjTree, dbItemsToKjTree]
    by_cases hk : KeepsArray item
    · left
      obtain ⟨t, ht, hor⟩ := id hk
      refine ⟨fun _ _ => hk, ?_⟩
      simp only [hx, unwrapped, ht, if_pos hor]
    · right
      refine ⟨x, rfl, hk, ?_⟩
      rw [hx, unwrapped]
      cases ht : item.bind ContextItem.type with
      | none => rfl
      | some t =>
        have hor : ¬ (t = "@list".toList ∨ t = "@set".toList) := fun h => hk ⟨t, ht, h⟩
        simp only [if_neg hor]
  · left
    refine ⟨fun x hx => absurd ⟨x, hx⟩ hb, ?_⟩
    cases b with
    | arr items =>
      match items with
      | [] => rfl
      | [x] => exact absurd ⟨x, rfl⟩ hb
      | x :: y :: items => rfl
    | null => rfl
    | bool b => rfl
    | num x => rfl
    | str s => rfl
    | obj fields => rfl

theorem ne_arr_self (x : Bson) : x ≠ .arr [x] := by
  intro h
  have hs := congrArg sizeOf h
  simp at hs
  omega

theorem attributeValueSet_ok {node : KjNode} {v : CompoundValueNode}
    (h : attributeValueSet env node = .ok v) : v = kjTreeToCompoundValue node := by
  unfold attributeValueSet at h
  split at h
  · split at h
    · exact (ok.inj h).symm
    · cases h
  · exact (ok.inj h).symm

theorem propertyValue_ok {node : KjNode} {v : CompoundValueNode} {t : AttributeType}
    (ht : t ≠ .temporalProperty)
    (h : propertyValue env t attributeName name (some node) = .ok v) :
    v = kjTreeToCompoundValue node := by
  unfold propertyValue at h
  split at h
  · rename_i hn
    cases hn
  · cases h
  rename_i hn
  cases hn
  split at h
  · split at h
    · exact (ok.inj h).symm
    · cases h
  · exact absurd rfl ht
  · exact attributeValueSet_ok h

def attributeValue (env : Env) (attributeName : Text) (a : StoredAttribute) :
    Except ConversionError CompoundValueNode :=
  let (name, item) := orionldAttributeExpand env.toContexts attributeName
  match a.type with
  | .relationship => relationshipValue attributeName (some (dbDataToKjTree a.value))
  | t => propertyValue env t attributeName name (some (unwrapped item (dbDataToKjTree a.value)))

theorem dotless_item {x : Bson} (h : Dotless (.arr [x])) : Dotless x := by
  simp only [Dotless, DotlessItems] at h
  exact h.1

/-- An accepted value comes back as it was exactly when it was not taken out of an array. -/
theorem property_read_back {item : Option ContextItem} {b : Bson} {t : AttributeType}
    (hd : Dotless b) (ht : t ≠ .temporalProperty) :
    (∃ v, propertyValue env t attributeName name
        (some (unwrapped item (dbDataToKjTree b))) = .ok v ∧ compoundValueBson v = b) ↔
      (∀ x, b = .arr [x] → KeepsArray item) ∧
        ∃ v, propertyValue env t attributeName name (some (dbDataToKjTree b)) = .ok v := by
  rcases unwrapped_read_back item b with ⟨hkeep, hu⟩ | ⟨x, rfl, hkeep, hu⟩
  · rw [hu]
    constructor
    · rintro ⟨v, hv, -⟩
      exact ⟨hkeep, v, hv⟩
    · rintro ⟨-, v, hv⟩
      refine ⟨v, hv, ?_⟩
      rw [propertyValue_ok ht hv]
      exact bson_round_trip b hd
  · rw [hu]
    constructor
    · rintro ⟨v, hv, hsame⟩
      rw [propertyValue_ok ht hv, bson_round_trip x (dotless_item hd)] at hsame
      exact absurd hsame (ne_arr_self x)
    · rintro ⟨hall, -⟩
      exact absurd (hall x rfl) hkeep

theorem property_accepted_iff (b : Bson) :
    (∃ v, propertyValue env .property attributeName name (some (dbDataToKjTree b)) = .ok v) ↔
      b ≠ .null ∧ ∀ fields, b = .obj fields →
        specialCompoundCheck env (dbFieldsToKjTree fields) = .ok () := by
  cases b with
  | null => simp [dbDataToKjTree, propertyValue]
  | obj fields =>
    simp only [dbDataToKjTree, propertyValue, attributeValueSet]
    cases hc : specialCompoundCheck env (dbFieldsToKjTree fields) with
    | error err => simp [hc]
    | ok u => simp [hc]
  | bool b | num x | str s | arr items => simp [dbDataToKjTree, propertyValue, attributeValueSet]

theorem geoProperty_accepted_iff (b : Bson) :
    (∃ v, propertyValue env .geoProperty attributeName name (some (dbDataToKjTree b)) = .ok v) ↔
      pcheckGeoPropertyValue (dbDataToKjTree b) = .ok () := by
  cases b with
  | obj fields =>
    simp only [dbDataToKjTree, propertyValue]
    cases pcheckGeoPropertyValue (.object (dbFieldsToKjTree fields)) with
    | error p => simp
    | ok u => simp
  | null | bool b => simp [dbDataToKjTree, propertyValue, pcheckGeoPropertyValue]
  | num x | str s | arr items => simp [dbDataToKjTree, propertyValue, pcheckGeoPropertyValue]

/-- A point in time is stored as a number, and no number is accepted for one. -/
theorem temporal_changes {b : Bson} {v : CompoundValueNode}
    (h : temporalValue env name (dbDataToKjTree b) = .ok v) :
    compoundValueBson v ≠ b ∧ compoundValueBson v ≠ .arr [b] := by
  cases b with
  | str s =>
    simp only [dbDataToKjTree, temporalValue] at h
    split at h
    · cases h
      simp [compoundValueBson]
    · cases h
  | obj fields =>
    obtain ⟨f, hf, hv⟩ := bind_ok h
    obtain ⟨atType, atValue⟩ := f
    cases atValue with
    | none => cases hv
    | some s =>
      cases hv
      refine ⟨?_, by simp [compoundValueBson]⟩
      intro hsame
      rw [compoundValueBson, compoundValueBsonMembers] at hsame
      obtain rfl := Bson.obj.inj hsame
      simp [compoundValueBson, dotForEq, dbFieldsToKjTree, dbDataToKjTree, temporalMembers] at hf
  | _ => cases h

theorem checkUris_ok_iff (items : List Bson) :
    checkUris (dbItemsToKjTree items) = .ok () ↔
      ∀ i ∈ items, ∃ s, i = .str s ∧ pcheckUri s = true := by
  induction items with
  | nil => simp [dbItemsToKjTree, checkUris]
  | cons i items ih =>
    cases i with
    | str s =>
      simp only [dbItemsToKjTree, dbDataToKjTree, checkUris]
      by_cases hs : pcheckUri s = true
      · simp [hs, ih]
      · simp [hs]
    | null => simp [dbItemsToKjTree, dbDataToKjTree, checkUris]
    | bool b | num x | arr items | obj fields => simp [dbItemsToKjTree, dbDataToKjTree, checkUris]

theorem relationship_read_back {b : Bson} (hd : Dotless b) :
    (∃ v, relationshipValue attributeName (some (dbDataToKjTree b)) = .ok v ∧
        compoundValueBson v = b) ↔ IsUriOrUris b := by
  unfold IsUriOrUris
  cases b with
  | str s =>
    simp only [dbDataToKjTree, relationshipValue]
    by_cases hs : pcheckUri s = true
    · simp [hs, compoundValueBson]
    · simp [hs]
  | arr items =>
    simp only [dbDataToKjTree, relationshipValue]
    have hback := bson_round_trip (.arr items) hd
    rw [dbDataToKjTree] at hback
    cases hc : checkUris (dbItemsToKjTree items) with
    | ok u => simp [← checkUris_ok_iff, hc, hback]
    | error err =>
      have hno : ¬ ∀ i ∈ items, ∃ s, i = .str s ∧ pcheckUri s = true := by
        rw [← checkUris_ok_iff, hc]
        simp
      constructor
      · rintro ⟨v, hv, -⟩
        cases hv
      · rintro (⟨s, hs, -⟩ | ⟨items', hitems, hall⟩)
        · cases hs
        · obtain rfl := Bson.arr.inj hitems
          exact absurd hall hno
  | null | bool b | num x | obj fields => simp [dbDataToKjTree, relationshipValue]

theorem temporalProperty_ok {node : KjNode} {v : CompoundValueNode}
    (h : propertyValue env .temporalProperty attributeName name (some node) = .ok v) :
    temporalValue env name node = .ok v := by
  cases node with
  | null => cases h
  | bool b => exact h
  | int i => exact h
  | float f => exact h
  | string s => exact h
  | array items => exact h
  | object members => exact h

theorem value_survives_iff (a : StoredAttribute) (hd : Dotless a.value) :
    (∃ v, attributeValue env attributeName a = .ok v ∧ compoundValueBson v = a.value) ↔
      ValueSurvives env (orionldAttributeExpand env.toContexts attributeName).2 a.value a.type := by
  unfold attributeValue
  generalize orionldAttributeExpand env.toContexts attributeName = expanded
  obtain ⟨name, item⟩ := expanded
  cases ht : a.type with
  | property =>
    refine (property_read_back hd (by decide)).trans ?_
    rw [property_accepted_iff]
    rfl
  | geoProperty =>
    refine (property_read_back hd (by decide)).trans ?_
    rw [geoProperty_accepted_iff]
    refine ⟨And.right, fun hgeo => ⟨?_, hgeo⟩⟩
    intro x hx
    rw [ValueSurvives, hx] at hgeo
    cases hgeo
  | relationship => exact relationship_read_back hd
  | temporalProperty =>
    refine ⟨?_, False.elim⟩
    rintro ⟨v, hv, hsame⟩
    have hok := temporalProperty_ok hv
    rcases unwrapped_read_back item a.value with ⟨-, hu⟩ | ⟨x, hx, -, hu⟩
    · rw [hu] at hok
      exact absurd hsame (temporal_changes hok).1
    · rw [hu] at hok
      exact absurd (hsame.trans hx) (temporal_changes hok).2

end

section

variable {env : Env} {n : Text} {md : StoredMetadata}

def storedForm (md : Metadata) : Text × Text × Bson :=
  (dotForEq md.name, md.type, compoundValueBson md.value)

def valueMembers (md : StoredMetadata) : Members :=
  (if md.type = [] then [] else [("type".toList, .string md.type)]) ++
    [(valueName (md.type == "Relationship".toList), dbDataToKjTree md.value)]

theorem metadataMembers_stamps (createdAt modifiedAt : Option ℚ) (members : Members)
    (f : MetadataFields) :
    metadataMembers (stampMember "createdAt" createdAt ++ stampMember "modifiedAt" modifiedAt ++
      members) f = metadataMembers members f := by
  cases createdAt <;> cases modifiedAt <;> simp [stampMember, metadataMembers]

theorem lookup_stamps (createdAt modifiedAt : Option ℚ) (members : Members) :
    (stampMember "createdAt" createdAt ++ stampMember "modifiedAt" modifiedAt ++
      members).lookup "value".toList = members.lookup "value".toList := by
  cases createdAt <;> cases modifiedAt <;> simp [stampMember, lookup_cons]

theorem metadataMembers_untyped (h : md.type = []) :
    metadataMembers (valueMembers md) ⟨none, none, none⟩ =
      .ok ⟨none, some (dbDataToKjTree md.value), none⟩ := by
  simp [valueMembers, h, valueName, metadataMembers]

theorem metadataMembers_typed (h : md.type ≠ []) :
    metadataMembers (valueMembers md) ⟨none, none, none⟩ =
      if isMetadataType md.type then
        metadataMembers [(valueName (md.type == "Relationship".toList), dbDataToKjTree md.value)]
          ⟨some md.type, none, none⟩
      else .error (checkFailed "Invalid type for attribute" md.type) := by
  rw [valueMembers, if_neg h, singleton_append, metadataMembers, if_pos rfl]
  rfl

theorem metadataMembers_value (type : Option Text) (isRelationship : Bool) (node : KjNode) :
    metadataMembers [(valueName isRelationship, node)] ⟨type, none, none⟩ =
      .ok (if isRelationship then ⟨type, none, some node⟩ else ⟨type, some node, none⟩) := by
  cases isRelationship <;> simp [valueName, metadataMembers]

theorem lookup_valueMembers (h : md.type = []) :
    (valueMembers md).lookup "value".toList = some (dbDataToKjTree md.value) := by
  simp [valueMembers, h, valueName]

theorem metadataTree_eq (md : StoredMetadata) :
    metadataTree md = .object (stampMember "createdAt" md.createdAt ++
      stampMember "modifiedAt" md.modifiedAt ++ valueMembers md) :=
  rfl

theorem observedAt_read_back {x : ℚ} (ht : md.type = []) (hv : md.value = .num x) :
    observedAtValue env (metadataTree md) = x := by
  rw [metadataTree_eq]
  simp only [observedAtValue, lookup_stamps, lookup_valueMembers ht, hv, dbDataToKjTree,
    observedAtNumber]

theorem unitCode_read_back {s : Text} (ht : md.type = []) (hv : md.value = .str s) :
    unitCodeValue (metadataTree md) = .ok s := by
  rw [metadataTree_eq]
  simp only [unitCodeValue, lookup_stamps, lookup_valueMembers ht, hv, dbDataToKjTree,
    unitCodeString]

theorem relationship_sub_read_back {name : Text} (ht : md.type = "Relationship".toList) :
    (∃ m, metadataOfFields name ⟨some md.type, none, some (dbDataToKjTree md.value)⟩ = .ok m ∧
        storedForm m = (n, md.type, md.value)) ↔
      dotForEq name = n ∧ ∃ s, md.value = .str s := by
  simp only [metadataOfFields, if_pos ht]
  cases hv : md.value with
  | str s => simp [dbDataToKjTree, storedForm, compoundValueBson]
  | null => simp [dbDataToKjTree]
  | bool b => simp [dbDataToKjTree]
  | num x => simp [dbDataToKjTree]
  | arr items => simp [dbDataToKjTree]
  | obj fields => simp [dbDataToKjTree]

theorem property_sub_read_back {name : Text} (hd : Dotless md.value)
    (ht : md.type ≠ "Relationship".toList) :
    (∃ m, metadataOfFields name ⟨some md.type, some (dbDataToKjTree md.value), none⟩ = .ok m ∧
        storedForm m = (n, md.type, md.value)) ↔ dotForEq name = n := by
  simp only [metadataOfFields, if_neg ht]
  simp [storedForm, bson_round_trip md.value hd]

theorem typed_sub_read_back {name : Text} (hd : Dotless md.value) :
    (∃ m, (metadataMembers (valueMembers md) ⟨none, none, none⟩ >>= metadataOfFields name) =
        .ok m ∧ storedForm m = (n, md.type, md.value)) ↔
      dotForEq name = n ∧ isMetadataType md.type = true ∧
        (md.type = "Relationship".toList → ∃ s, md.value = .str s) := by
  by_cases hempty : md.type = []
  · rw [metadataMembers_untyped hempty, hempty]
    simp [metadataOfFields, isMetadataType]
  rw [metadataMembers_typed hempty]
  by_cases hm : isMetadataType md.type = true
  · rw [if_pos hm, metadataMembers_value, ok_bind]
    by_cases hr : md.type = "Relationship".toList
    · rw [if_pos (by simpa using hr)]
      refine (relationship_sub_read_back hr).trans ?_
      simp [hr, isMetadataType]
    rw [if_neg (by simpa using hr)]
    refine (property_sub_read_back hd hr).trans ?_
    simp only [hm, hr, false_implies, and_true]
  · rw [if_neg hm]
    constructor
    · rintro ⟨m, hok, -⟩
      cases hok
    · rintro ⟨-, h, -⟩
      exact absurd h hm

theorem metadataAdd_read_back (hd : Dotless md.value) (hn : isTimestamp n = false) :
    (∃ m, metadataAdd env (orionldSubAttributeExpand env.toContexts n).1 (metadataTree md) =
        .ok m ∧ storedForm m = (n, md.type, md.value)) ↔ MetadataSurvives env n md := by
  unfold MetadataSurvives metadataAdd
  generalize (orionldSubAttributeExpand env.toContexts n).1 = name
  simp only [hn, true_and]
  by_cases ho : orionldContextItemAliasLookup env.toContexts name = "observedAt".toList
  · rw [if_pos ho, if_pos ho]
    constructor
    · rintro ⟨m, hok, hform⟩
      cases hok
      simp only [storedForm, Prod.mk.injEq] at hform
      exact ⟨hform.1, hform.2.1.symm, _, hform.2.2.symm⟩
    · rintro ⟨hname, ht, x, hx⟩
      refine ⟨_, rfl, ?_⟩
      simp [storedForm, hname, ht, observedAt_read_back ht hx, hx, compoundValueBson]
  · rw [if_neg ho, if_neg ho]
    by_cases hu : orionldContextItemAliasLookup env.toContexts name = "unitCode".toList
    · rw [if_pos hu, if_pos hu]
      constructor
      · rintro ⟨m, hok, hform⟩
        obtain ⟨s, -, hs⟩ := bind_ok hok
        cases hs
        simp only [storedForm, Prod.mk.injEq] at hform
        exact ⟨hform.1.symm, hform.2.1.symm, s, hform.2.2.symm⟩
      · rintro ⟨rfl, ht, s, hs⟩
        refine ⟨⟨"unitCode".toList, [], .string s⟩, ?_, ?_⟩
        · rw [unitCode_read_back ht hs]
          rfl
        · simp [storedForm, ht, hs, compoundValueBson, dotForEq]
    · rw [if_neg hu, if_neg hu, metadataTree_eq]
      simp only [metadataMembers_stamps]
      exact typed_sub_read_back hd

theorem MetadataSurvives.name (h : MetadataSurvives env n md) :
    dotForEq (orionldSubAttributeExpand env.toContexts n).1 = n := by
  obtain ⟨-, hif⟩ := h
  split at hif
  · exact hif.1
  split at hif
  · obtain ⟨rfl, -⟩ := hif
    simp [orionldSubAttributeExpand, expandUnless, dotForEq]
  · exact hif.1

theorem kjTreeToMetadata_cases {vec vec' : List Metadata}
    (h : kjTreeToMetadata env vec n (metadataTree md) = .ok vec') :
    (isTimestamp n = true ∧ vec' = vec) ∨
      (isTimestamp n = false ∧ ∃ m, vec' = vec ++ [m] ∧
        metadataAdd env (orionldSubAttributeExpand env.toContexts n).1 (metadataTree md) =
          .ok m) := by
  rw [metadataTree_eq] at h ⊢
  unfold kjTreeToMetadata at h
  split at h
  · rename_i hn
    exact .inl ⟨hn, (ok.inj h).symm⟩
  rename_i hn
  right
  refine ⟨by simpa using hn, ?_⟩
  simp only at h
  split at h
  · cases h
  split at h
  · rename_i m hm
    exact ⟨m, (ok.inj h).symm, hm⟩
  · cases h

theorem kjTreeToMetadata_survives {vec : List Metadata} (hd : Dotless md.value)
    (hs : MetadataSurvives env n md) (hfree : ∀ m ∈ vec, dotForEq m.name ≠ n) :
    ∃ m, kjTreeToMetadata env vec n (metadataTree md) = .ok (vec ++ [m]) ∧
      storedForm m = (n, md.type, md.value) := by
  obtain ⟨m, hadd, hform⟩ := (metadataAdd_read_back hd hs.1).mpr hs
  have hlookup : lookupByName vec (orionldSubAttributeExpand env.toContexts n).1 = false := by
    simp only [lookupByName, any_eq_false, beq_iff_eq]
    intro m hm hsame
    apply hfree m hm
    rw [hsame, dotForEq_eqForDot, hs.name]
  refine ⟨m, ?_, hform⟩
  rw [metadataTree_eq] at hadd ⊢
  simp only [kjTreeToMetadata, hs.1, hlookup, hadd, Bool.false_eq_true, if_false]

def readBack (env : Env) (vec : List Metadata) (mds : List (Text × StoredMetadata)) :
    Except ConversionError (List Metadata) :=
  mds.foldlM (fun vec f => kjTreeToMetadata env vec f.1 (metadataTree f.2)) vec

theorem kjTreeToMetadatas_eq (mds : List (Text × StoredMetadata)) :
    kjTreeToMetadatas env [] (metadataTrees mds) = readBack env [] mds := by
  simp [kjTreeToMetadatas, metadataTrees, readBack, foldlM_map]

variable {mds : List (Text × StoredMetadata)}

theorem readBack_cons (vec : List Metadata) (f : Text × StoredMetadata) :
    readBack env vec (f :: mds) =
      kjTreeToMetadata env vec f.1 (metadataTree f.2) >>= fun vec => readBack env vec mds :=
  foldlM_cons

def storedForms (mds : List (Text × StoredMetadata)) : List (Text × Text × Bson) :=
  mds.map fun f => (f.1, f.2.type, f.2.value)

theorem readBack_extends {vec vec' : List Metadata} (h : readBack env vec mds = .ok vec') :
    ∃ added, vec' = vec ++ added ∧ added.length ≤ mds.length := by
  induction mds generalizing vec with
  | nil =>
    cases h
    exact ⟨[], by simp⟩
  | cons f mds ih =>
    obtain ⟨vec₁, hstep, hrest⟩ := bind_ok h
    obtain ⟨added, rfl, hlen⟩ := ih hrest
    rcases kjTreeToMetadata_cases hstep with ⟨-, rfl⟩ | ⟨-, m, rfl, -⟩
    · exact ⟨added, rfl, Nat.le_succ_of_le hlen⟩
    · exact ⟨m :: added, by simp, Nat.succ_le_succ hlen⟩

theorem readBack_of_survives (hd : ∀ f ∈ mds, Dotless f.2.value)
    (hn : (mds.map Prod.fst).Nodup) (hs : ∀ f ∈ mds, MetadataSurvives env f.1 f.2)
    {vec : List Metadata} (hfree : ∀ m ∈ vec, dotForEq m.name ∉ mds.map Prod.fst) :
    ∃ added, readBack env vec mds = .ok (vec ++ added) ∧
      added.map storedForm = storedForms mds := by
  induction mds generalizing vec with
  | nil => exact ⟨[], by simp [readBack, storedForms, pure, Except.pure]⟩
  | cons f mds ih =>
    rw [map_cons, nodup_cons] at hn
    have hhead : ∀ m ∈ vec, dotForEq m.name ≠ f.1 := by
      intro m hm hsame
      exact hfree m hm (by simp [hsame])
    obtain ⟨m, hstep, hform⟩ := kjTreeToMetadata_survives (hd f (by simp)) (hs f (by simp)) hhead
    have hfree' : ∀ m' ∈ vec ++ [m], dotForEq m'.name ∉ mds.map Prod.fst := by
      intro m' hm'
      rcases mem_append.mp hm' with hm' | hm'
      · intro hmem
        exact hfree m' hm' (mem_cons_of_mem _ hmem)
      obtain rfl := mem_singleton.mp hm'
      have hname : dotForEq m'.name = f.1 := congrArg Prod.fst hform
      rw [hname]
      exact hn.1
    obtain ⟨added, hrest, hforms⟩ := ih (fun g hg => hd g (mem_cons_of_mem _ hg)) hn.2
      (fun g hg => hs g (mem_cons_of_mem _ hg)) hfree'
    refine ⟨m :: added, ?_, ?_⟩
    · rw [readBack_cons, hstep, ok_bind]
      simpa using hrest
    · simp only [map_cons, hform, hforms, storedForms]

theorem survives_of_readBack (hd : ∀ f ∈ mds, Dotless f.2.value) {vec vec' : List Metadata}
    (h : readBack env vec mds = .ok vec')
    (hsame : vec'.map storedForm = vec.map storedForm ++ storedForms mds) :
    ∀ f ∈ mds, MetadataSurvives env f.1 f.2 := by
  induction mds generalizing vec with
  | nil => simp
  | cons f mds ih =>
    obtain ⟨vec₁, hstep, hrest⟩ := bind_ok h
    obtain ⟨added, hvec', hlen⟩ := readBack_extends hrest
    rcases kjTreeToMetadata_cases hstep with ⟨-, rfl⟩ | ⟨hts, m, rfl, hadd⟩
    · have hl := congrArg List.length hsame
      simp only [hvec', storedForms, length_map, length_append, length_cons] at hl
      omega
    rw [hvec'] at hsame
    simp only [map_append, append_assoc, append_cancel_left_eq, storedForms,
      map_cons, cons_append, nil_append, cons.injEq] at hsame
    intro g hg
    rcases mem_cons.mp hg with rfl | hg
    · exact (metadataAdd_read_back (hd g (by simp)) hts).mp ⟨m, hadd, hsame.1⟩
    refine ih (fun g hg => hd g (mem_cons_of_mem _ hg)) hrest ?_ g hg
    rw [hvec']
    simp [storedForms, hsame.1, hsame.2]

theorem metadatas_read_back (hd : ∀ f ∈ mds, Dotless f.2.value)
    (hn : (mds.map Prod.fst).Nodup) :
    (∃ vec, kjTreeToMetadatas env [] (metadataTrees mds) = .ok vec ∧
        vec.map storedForm = storedForms mds) ↔
      ∀ f ∈ mds, MetadataSurvives env f.1 f.2 := by
  rw [kjTreeToMetadatas_eq]
  constructor
  · rintro ⟨vec, hok, hsame⟩
    exact survives_of_readBack hd hok (by simpa using hsame)
  · intro hs
    have hfree : ∀ m ∈ ([] : List Metadata), dotForEq m.name ∉ mds.map Prod.fst := by simp
    obtain ⟨added, hok, hsame⟩ := readBack_of_survives hd hn hs hfree
    exact ⟨added, hok, hsame⟩

end

structure SameAttribute (ca : ContextAttribute) (k : Text) (a : StoredAttribute) : Prop where
  name : dotForEq ca.name = k
  type : ca.type = a.type
  value : compoundValueBson ca.value = a.value
  md : ca.metadataVector.map storedForm = storedForms a.md

/-- The name in attrs that an attribute stored as k gets when it is written again. -/
def renamed (k : Text) : Text := dotForEq (longName env (eqForDot k))

structure Survives (k : Text) (a : StoredAttribute) : Prop where
  name : renamed env k = k
  value : ValueSurvives env (orionldAttributeExpand env.toContexts (eqForDot k)).2 a.value a.type
  md : ∀ f ∈ a.md, MetadataSurvives env f.1 f.2

variable {env} {k : Text} {a : StoredAttribute}

theorem attributeType_name (t : AttributeType) : attributeType t.name.toList = some t := by
  cases t <;> decide +kernel

theorem typeField_name {f : AttributeFields} (h : f.type = none) (t : AttributeType) :
    typeField f (.string t.name.toList) = .ok { f with type := some t } := by
  simp [typeField, h, attributeType_name]

theorem kjTreeToContextAttribute_attributeTree (attributeName : Text) (a : StoredAttribute) :
    kjTreeToContextAttribute env attributeName (attributeTree a) = (do
      let vec ← kjTreeToMetadatas env [] (metadataTrees a.md)
      let v ← attributeValue env attributeName a
      .ok ⟨longName env attributeName, a.type, v, vec⟩) := by
  obtain ⟨t, value, md, mdNames, creDate, modDate⟩ := a
  unfold kjTreeToContextAttribute attributeTree
  by_cases ht : t = .relationship
  · subst ht
    simp [attributeMember, valueName, typeField_name]
    cases kjTreeToMetadatas env [] (metadataTrees md) with
    | error err => rfl
    | ok vec => rfl
  · simp [attributeMember, valueName, typeField_name, ht]
    cases kjTreeToMetadatas env [] (metadataTrees md) with
    | error err => rfl
    | ok vec => cases t <;> first | rfl | contradiction

theorem attribute_read_back_iff (hd : Dotless a.value) (hmd : ∀ f ∈ a.md, Dotless f.2.value)
    (hn : (a.md.map Prod.fst).Nodup) :
    (∃ ca, kjTreeToContextAttribute env (eqForDot k) (attributeTree a) = .ok ca ∧
        SameAttribute ca k a) ↔ Survives env k a := by
  rw [kjTreeToContextAttribute_attributeTree]
  constructor
  · rintro ⟨ca, hok, hsame⟩
    obtain ⟨vec, hvec, hrest⟩ := bind_ok hok
    obtain ⟨v, hv, hca⟩ := bind_ok hrest
    cases hca
    exact ⟨hsame.name, (value_survives_iff a hd).mp ⟨v, hv, hsame.value⟩,
      (metadatas_read_back hmd hn).mp ⟨vec, hvec, hsame.md⟩⟩
  · rintro ⟨hname, hvalue, hsub⟩
    obtain ⟨v, hv, hsame⟩ := (value_survives_iff a hd).mpr hvalue
    obtain ⟨vec, hvec, hforms⟩ := (metadatas_read_back hmd hn).mpr hsub
    refine ⟨⟨longName env (eqForDot k), a.type, v, vec⟩, ?_, hname, rfl, hsame, hforms⟩
    rw [hvec, hv]
    rfl

end AttributeReadBack
