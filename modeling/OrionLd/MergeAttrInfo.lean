import OrionLd.CompoundValueDiffers
import OrionLd.CustomMetadata
import Mathlib.Data.List.Perm.Subperm

/-! mergeAttrInfo for a stored attribute whose values are of any kind of the database: what is
merged of the stored attribute and of that of a request, and whether it counts as an update. The
dates of the metadata are left out, names are not longer than their buffers, and a text ends at
its first null character. -/
namespace MergeAttrInfo

open MongoQuery (Bson)
open KjTree MongoCppLegacyCodec SameJson KjSort CompoundValueDiffers
open MongoLocation hiding valueBson
open MongoCommonUpdate (isCompoundType)
open CustomMetadata (isNotCustomMetadata hasMetadata metadataType typeField copied)
open KjTreeFromQueryContextResponse (valueOfField)

inductive DbValue where
  | bson (v : BsonValue)
  /-- A kind that the broker does not write: a date, an identifier, binary data. -/
  | other (type : ℕ) (bytes : List UInt8)

structure MetadataDoc where
  type : Option DbValue
  value : Option DbValue

structure StoredAttribute where
  type : Option Text
  value : Option DbValue
  md : List (Text × MetadataDoc)
  mdOnce : (md.map Prod.fst).Nodup
  creDate : Option ℚ
  modDate : Option ℚ

structure MergedAttribute where
  value : Option DbValue
  type : Option Text
  md : List (Text × MetadataDoc)
  mdNames : List Text
  creDate : Option ℚ
  modDate : Option ℚ

structure MergeEnv where
  render : RenderEnv
  numbers : Numbers
  noNotifyFalseUpdate : Bool

mutual
def ofBson : Bson → BsonValue
  | .null => .null
  | .bool b => .bool b
  | .num x => .double x
  | .str s => .string s
  | .arr items => .array (ofBsonItems items)
  | .obj fields => .object (ofBsonFields fields)
def ofBsonItems : List Bson → List BsonValue
  | [] => []
  | item :: items => ofBson item :: ofBsonItems items
def ofBsonFields : List (Text × Bson) → List (Text × BsonValue)
  | [] => []
  | (name, value) :: fields => (name, ofBson value) :: ofBsonFields fields
end

def valueBson (env : MergeEnv) (v : ApiVersion) (attrType : Text) (ca : ContextAttribute) :
    Option DbValue :=
  (MongoLocation.valueBson env.numbers v attrType ca).map fun b => .bson (ofBson b)

/-- The switch for a value that the request does not give. -/
def copiedValue : DbValue → Option DbValue
  | .bson (.int32 _) => none
  | .bson (.int64 _) => none
  | .bson v => some (.bson v)
  | .other _ _ => none

def isCompoundDb : DbValue → Bool
  | .bson (.object _) => true
  | .bson (.array _) => true
  | _ => false

def isOfType : ValueType → DbValue → Bool
  | .string, .bson (.string _) => true
  | .boolean, .bson (.bool _) => true
  | .null, .bson .null => true
  | .number, .bson (.double _) => true
  | .number, .bson (.int32 _) => true
  | .number, .bson (.int64 _) => true
  | .notGiven, _ => true
  | _, _ => false

def valueTypeDiffers (old : Option DbValue) (new : ValueType) : Bool :=
  if isCompoundType new && old.any isCompoundDb then false
  else if old.any isCompoundDb then true
  else if isCompoundType new then true
  else new != .notGiven && !old.any (isOfType new)

def attrValueChanged (old : Option DbValue) (ca : ContextAttribute) : Bool :=
  match old with
  | none => ca.valueType != .string || ca.stringValue != []
  | some b =>
    if ca.valueType = .notGiven then false
    else match b with
      | .bson (.object _) => true
      | .bson (.array _) => true
      | .bson (.double x) => ca.valueType != .number || ca.numberValue != x
      | .bson (.bool x) => ca.valueType != .boolean || ca.boolValue != x
      | .bson (.string s) => ca.valueType != .string || ca.stringValue != s
      | .bson .null => ca.valueType != .null
      | _ => false

def typeDiffers (old : StoredAttribute) (ca : ContextAttribute) : Bool :=
  ca.type != [] && old.type.getD [] != ca.type

structure Appended where
  name : Text
  type : Text
  value : Option CompoundValueNode

def Appended.doc (a : Appended) : Text × MetadataDoc :=
  (dotForEq (copied a.name),
    ⟨(typeField a.type).map fun t => .bson (.string t),
      a.value.map fun c => .bson (ofBson (compoundValueBson c))⟩)

def typeOfDoc : Option DbValue → Text
  | some (.bson (.string s)) => s
  | _ => []

def valueOfDoc : Option DbValue → Option CompoundValueNode
  | some (.bson v) => valueOfField v
  | _ => none

def appendedMetadata (v : ApiVersion) (onlyValue : Bool) (old : List (Text × MetadataDoc))
    (ca : ContextAttribute) : List Appended :=
  (ca.metadataVector.filter fun md => !isNotCustomMetadata v md.name).map (fun md =>
    ⟨md.name, metadataType (v == .v2) md, some md.value⟩) ++
  if v ≠ .v2 ∨ onlyValue then
    ((OrderedMap.assignAll old).filter fun md => !hasMetadata (eqForDot (copied md.1)) ca).map
      fun md =>
      ⟨md.1, typeOfDoc md.2.type, valueOfDoc md.2.value⟩
  else []

/-- Two values of the same kind, if that kind is compared. -/
def equalDbValues : DbValue → DbValue → Bool
  | .bson (.double x), .bson (.double y) => x == y
  | .bson (.bool x), .bson (.bool y) => x == y
  | .bson (.string x), .bson (.string y) => x == y
  | .bson .null, .bson .null => true
  | _, _ => false

def equalMetadataTypes : Option DbValue → Option DbValue → Bool
  | none, none => true
  | some t, some t' => equalDbValues t t'
  | _, _ => false

def equalMetadataValues (md1 md2 : MetadataDoc) : Bool :=
  equalMetadataTypes md1.type md2.type &&
    match md1.value, md2.value with
    | some x, some y => equalDbValues x y
    | _, _ => false

def equalMetadata (md1 md2 : List (Text × MetadataDoc)) : Bool :=
  md1.all fun f => (md2.lookup f.1).any (equalMetadataValues f.2)

def metadataDiffers (old new : List (Text × MetadataDoc)) : Bool :=
  new.length != old.length || !equalMetadata old new

def detailsDiffer (v : ApiVersion) (onlyValue : Bool) (attr : StoredAttribute)
    (ca : ContextAttribute) : Bool :=
  valueTypeDiffers attr.value ca.valueType || typeDiffers attr ca ||
    metadataDiffers attr.md ((appendedMetadata v onlyValue attr.md ca).map Appended.doc)

def storedCompound : Option DbValue → BsonValue
  | some (.bson v) => v
  | _ => .null

variable (env : MergeEnv)

def actualUpdate (v : ApiVersion) (onlyValue : Bool) (attr : StoredAttribute)
    (ca : ContextAttribute) : Option Bool :=
  match ca.compoundValueP with
  | none =>
    some ((v == .ngsiLd && !env.noNotifyFalseUpdate) || detailsDiffer v onlyValue attr ca ||
      attrValueChanged attr.value ca)
  | some c =>
    let old := storedCompound attr.value
    if detailsDiffer v onlyValue attr ca then some true
    else compoundValueDiffers env.render v c (storedObject old) (storedArray old)
      (storedIsArray old)

def mergeAttrInfo (v : ApiVersion) (onlyValue : Bool) (attr : StoredAttribute)
    (ca : ContextAttribute) : Option (MergedAttribute × Bool) := do
  let appended := appendedMetadata v onlyValue attr.md ca
  let update ← actualUpdate env v onlyValue attr ca
  some ({
    value :=
      if ca.valueType = .notGiven then attr.value.bind copiedValue
      else valueBson env v (attr.type.getD []) ca
    type := if ca.type = [] then attr.type else some ca.type
    md := appended.map Appended.doc
    mdNames := appended.map Appended.name
    creDate := attr.creDate
    modDate := if update then some env.render.requestTime else attr.modDate }, update)

mutual
def DotlessNames : KjNode → Prop
  | .array items => DotlessNamesItems items
  | .object members => DotlessNamesMembers members
  | _ => True
def DotlessNamesItems : List KjNode → Prop
  | [] => True
  | item :: items => DotlessNames item ∧ DotlessNamesItems items
def DotlessNamesMembers : Members → Prop
  | [] => True
  | (name, node) :: members => '.' ∉ name ∧ DotlessNames node ∧ DotlessNamesMembers members
end

/-- The same value: objects up to the order of their members, and numbers of any kind. -/
def SameDbValue : DbValue → DbValue → Prop
  | .bson a, .bson b => Same (jsonOfBson a) (jsonOfBson b)
  | .other t bytes, .other t' bytes' => t = t' ∧ bytes = bytes'
  | _, _ => False

structure SameAttribute (merged : MergedAttribute) (attr : StoredAttribute) : Prop where
  value : Option.Rel SameDbValue merged.value attr.value
  type : merged.type = attr.type
  metadata : merged.md.Perm attr.md

variable (v : ApiVersion) (onlyValue : Bool) (attr : StoredAttribute) (ca : ContextAttribute)

/-- Something else than a scalar value is found to differ, or nothing is compared. -/
def Noticed : Prop :=
  detailsDiffer v onlyValue attr ca = true ∨ match ca.compoundValueP with
    | none => v = .ngsiLd ∧ env.noNotifyFalseUpdate = false
    | some c => compoundValueDiffers env.render v c (storedObject (storedCompound attr.value))
        (storedArray (storedCompound attr.value)) (storedIsArray (storedCompound attr.value)) =
          some true

def ValueKept : Prop :=
  match ca.compoundValueP with
  | some _ => NoLongs (storedCompound attr.value) ∧
      DotlessNames (jsonOfBson (storedCompound attr.value))
  | none => match attr.value with
    | some (.bson (.int32 i)) => ca.valueType = .number ∧ ca.numberValue = i.toInt
    | some (.bson (.int64 i)) => ca.valueType = .number ∧ ca.numberValue = i.toInt
    | some (.other _ _) => False
    | some (.bson (.string s)) => ca.valueType = .string → ca.stringValue = s →
        env.numbers.ngsiv1Autocast = true → v = .v1 →
          autocastValue env.numbers (attr.type.getD []) s = .str s
    | _ => True

mutual
def encodedNames : KjNode → KjNode
  | .array items => .array (encodedNamesItems items)
  | .object members => .object (encodedNamesMembers members)
  | node => node
def encodedNamesItems : List KjNode → List KjNode
  | [] => []
  | item :: items => encodedNames item :: encodedNamesItems items
def encodedNamesMembers : Members → Members
  | [] => []
  | (name, node) :: members => (dotForEq name, encodedNames node) :: encodedNamesMembers members
end

mutual
theorem json_written : ∀ c : CompoundValueNode,
    jsonOfBson (ofBson (compoundValueBson c)) = encodedNames (jsonOfCompound c)
  | .string _ => rfl
  | .number _ => rfl
  | .boolean _ => rfl
  | .null => rfl
  | .vector items => congrArg KjNode.array (json_writtenItems items)
  | .object members => congrArg KjNode.object (json_writtenMembers members)
theorem json_writtenItems : ∀ items : List CompoundValueNode,
    jsonOfBsonItems (ofBsonItems (compoundValueBsonItems items)) =
      encodedNamesItems (jsonOfCompounds items)
  | [] => rfl
  | item :: items => congrArg₂ List.cons (json_written item) (json_writtenItems items)
theorem json_writtenMembers : ∀ members : List (Text × CompoundValueNode),
    jsonOfBsonFields (ofBsonFields (compoundValueBsonMembers members)) =
      encodedNamesMembers (jsonOfCompoundMembers members)
  | [] => rfl
  | (name, node) :: members => congrArg₂ List.cons
      (congrArg (dotForEq name, ·) (json_written node)) (json_writtenMembers members)
end

mutual
theorem encodedNames_of_dotless : ∀ {node : KjNode}, DotlessNames node → encodedNames node = node
  | .null, _ => rfl
  | .bool _, _ => rfl
  | .int _, _ => rfl
  | .float _, _ => rfl
  | .string _, _ => rfl
  | .array _, h => congrArg KjNode.array (encodedNamesItems_of_dotless h)
  | .object _, h => congrArg KjNode.object (encodedNamesMembers_of_dotless h)
theorem encodedNamesItems_of_dotless : ∀ {items : List KjNode},
    DotlessNamesItems items → encodedNamesItems items = items
  | [], _ => rfl
  | _ :: _, h =>
    congrArg₂ List.cons (encodedNames_of_dotless h.1) (encodedNamesItems_of_dotless h.2)
theorem encodedNamesMembers_of_dotless : ∀ {members : Members},
    DotlessNamesMembers members → encodedNamesMembers members = members
  | [], _ => rfl
  | (_, _) :: _, h => congrArg₂ List.cons
      (Prod.ext (dotForEq_of_dotless h.1) (encodedNames_of_dotless h.2.1))
      (encodedNamesMembers_of_dotless h.2.2)
end

mutual
theorem dotless_encodedNames : ∀ node : KjNode, DotlessNames (encodedNames node)
  | .null => trivial
  | .bool _ => trivial
  | .int _ => trivial
  | .float _ => trivial
  | .string _ => trivial
  | .array items => dotless_encodedNamesItems items
  | .object members => dotless_encodedNamesMembers members
theorem dotless_encodedNamesItems : ∀ items, DotlessNamesItems (encodedNamesItems items)
  | [] => trivial
  | item :: items => ⟨dotless_encodedNames item, dotless_encodedNamesItems items⟩
theorem dotless_encodedNamesMembers : ∀ members, DotlessNamesMembers (encodedNamesMembers members)
  | [] => trivial
  | (name, node) :: members =>
    ⟨dot_notMem_dotForEq name, dotless_encodedNames node, dotless_encodedNamesMembers members⟩
end

theorem dotlessMembers_iff {members : Members} :
    DotlessNamesMembers members ↔ ∀ m ∈ members, '.' ∉ m.1 ∧ DotlessNames m.2 := by
  induction members with
  | nil => simp [DotlessNamesMembers]
  | cons m members ih => simp [DotlessNamesMembers, ih, and_assoc]

mutual
theorem dotless_of_same : ∀ {x y : KjNode}, Same x y → DotlessNames x → DotlessNames y
  | _, _, .null, _ => trivial
  | _, _, .bool _, _ => trivial
  | _, _, .string _, _ => trivial
  | _, .int _, .number _ _, _ => trivial
  | _, .float _, .number _ _, _ => trivial
  | _, _, .array h, hx => dotless_of_sameItems h hx
  | _, _, .object hperm h, hx => dotless_of_sameMembers h
      (dotlessMembers_iff.mpr fun m hm => dotlessMembers_iff.mp hx m (hperm.mem_iff.mpr hm))
theorem dotless_of_sameItems : ∀ {xs ys : List KjNode},
    SameItems xs ys → DotlessNamesItems xs → DotlessNamesItems ys
  | _, _, .nil, _ => trivial
  | _, _, .cons hx hxs, h => ⟨dotless_of_same hx h.1, dotless_of_sameItems hxs h.2⟩
theorem dotless_of_sameMembers : ∀ {xs ys : Members},
    SameMembers xs ys → DotlessNamesMembers xs → DotlessNamesMembers ys
  | _, _, .nil, _ => trivial
  | _, _, .cons hx hxs, h =>
    ⟨h.1, dotless_of_same hx h.2.1, dotless_of_sameMembers hxs h.2.2⟩
end

theorem encodedNamesMembers_eq (members : Members) : encodedNamesMembers members =
    members.map fun m => (dotForEq m.1, encodedNames m.2) := by
  induction members with
  | nil => rfl
  | cons m members ih => rw [encodedNamesMembers, ih, List.map_cons]

variable {q : ℚ} {old : BsonValue} {c : CompoundValueNode} {d : DbValue}

theorem numberOf_encodedNames {node : KjNode} (h : numberOf node = some q) :
    numberOf (encodedNames node) = some q := by
  cases node with
  | int | float => exact h
  | null | bool | string | array | object => cases h

mutual
theorem same_encodedNames : ∀ {x y : KjNode}, Same x y → Same (encodedNames x) (encodedNames y)
  | _, _, .null => .null
  | _, _, .bool b => .bool b
  | _, _, .string s => .string s
  | _, _, .number hx hy => .number (numberOf_encodedNames hx) (numberOf_encodedNames hy)
  | _, _, .array h => .array (same_encodedNamesItems h)
  | _, _, .object hperm h => by
    have hperm' := hperm.map fun m => (dotForEq m.1, encodedNames m.2)
    rw [← encodedNamesMembers_eq, ← encodedNamesMembers_eq] at hperm'
    exact .object hperm' (same_encodedNamesMembers h)
theorem same_encodedNamesItems : ∀ {xs ys : List KjNode},
    SameItems xs ys → SameItems (encodedNamesItems xs) (encodedNamesItems ys)
  | _, _, .nil => .nil
  | _, _, .cons hx hxs => .cons (same_encodedNames hx) (same_encodedNamesItems hxs)
theorem same_encodedNamesMembers : ∀ {xs ys : Members},
    SameMembers xs ys → SameMembers (encodedNamesMembers xs) (encodedNamesMembers ys)
  | _, _, .nil => .nil
  | _, _, .cons hx hxs => .cons (same_encodedNames hx) (same_encodedNamesMembers hxs)
end

mutual
theorem weight_encodedNames : ∀ node : KjNode, weight (encodedNames node) = weight node
  | .null => rfl
  | .bool _ => rfl
  | .int _ => rfl
  | .float _ => rfl
  | .string _ => rfl
  | .array items => congrArg (1 + ·) (weight_encodedNamesItems items)
  | .object members => congrArg (1 + ·) (weight_encodedNamesMembers members)
theorem weight_encodedNamesItems : ∀ items : List KjNode,
    itemsWeight (encodedNamesItems items) = itemsWeight items
  | [] => rfl
  | item :: items =>
    congrArg₂ (· + ·) (weight_encodedNames item) (weight_encodedNamesItems items)
theorem weight_encodedNamesMembers : ∀ members : Members,
    membersWeight (encodedNamesMembers members) = membersWeight members
  | [] => rfl
  | (_, node) :: members =>
    congrArg₂ (· + ·) (weight_encodedNames node) (weight_encodedNamesMembers members)
end

def readWeight (value : BsonValue) : ℚ := ((bsonToKjTree value).map weight).getD 0

mutual
theorem readWeight_le : ∀ value : BsonValue, readWeight value ≤ weight (jsonOfBson value) ∧
    (readWeight value = weight (jsonOfBson value) → NoLongs value)
  | .string _ => ⟨le_rfl, fun _ => trivial⟩
  | .bool _ => ⟨le_rfl, fun _ => trivial⟩
  | .double _ => ⟨le_rfl, fun _ => trivial⟩
  | .int32 _ => ⟨le_rfl, fun _ => trivial⟩
  | .null => ⟨le_rfl, fun _ => trivial⟩
  | .int64 i => by
    have hpos := weight_pos (.int i.toInt)
    exact ⟨hpos.le, fun h => absurd h hpos.ne⟩
  | .array items => by
    obtain ⟨hle, heq⟩ := itemsWeight_le items
    refine ⟨add_le_add_right hle 1, fun h => heq (add_left_cancel (a := 1) h)⟩
  | .object fields => by
    obtain ⟨hle, heq⟩ := fieldsWeight_le fields
    refine ⟨add_le_add_right hle 1, fun h => heq (add_left_cancel (a := 1) h)⟩
theorem itemsWeight_le : ∀ items : List BsonValue,
    itemsWeight (arrayToKjTree items) ≤ itemsWeight (jsonOfBsonItems items) ∧
      (itemsWeight (arrayToKjTree items) = itemsWeight (jsonOfBsonItems items) →
        NoLongsItems items)
  | [] => ⟨le_rfl, fun _ => trivial⟩
  | item :: items => by
    obtain ⟨hle, heq⟩ := readWeight_le item
    obtain ⟨hles, heqs⟩ := itemsWeight_le items
    have hsum : itemsWeight (arrayToKjTree (item :: items)) =
        readWeight item + itemsWeight (arrayToKjTree items) := by
      rw [arrayToKjTree, readWeight]
      cases bsonToKjTree item with
      | none => exact (zero_add _).symm
      | some node => rfl
    rw [hsum, jsonOfBsonItems, itemsWeight]
    refine ⟨add_le_add hle hles, fun h => ?_⟩
    obtain ⟨h1, h2⟩ := (add_eq_add_iff_eq_and_eq hle hles).mp h
    exact ⟨heq h1, heqs h2⟩
theorem fieldsWeight_le : ∀ fields : List (Text × BsonValue),
    membersWeight (objectToKjTree fields) ≤ membersWeight (jsonOfBsonFields fields) ∧
      (membersWeight (objectToKjTree fields) = membersWeight (jsonOfBsonFields fields) →
        NoLongsFields fields)
  | [] => ⟨le_rfl, fun _ => trivial⟩
  | (name, value) :: fields => by
    obtain ⟨hle, heq⟩ := readWeight_le value
    obtain ⟨hles, heqs⟩ := fieldsWeight_le fields
    have hsum : membersWeight (objectToKjTree ((name, value) :: fields)) =
        readWeight value + membersWeight (objectToKjTree fields) := by
      rw [objectToKjTree, readWeight]
      cases bsonToKjTree value with
      | none => exact (zero_add _).symm
      | some node => rfl
    rw [hsum, jsonOfBsonFields, membersWeight]
    refine ⟨add_le_add hle hles, fun h => ?_⟩
    obtain ⟨h1, h2⟩ := (add_eq_add_iff_eq_and_eq hle hles).mp h
    exact ⟨heq h1, heqs h2⟩
end

theorem weight_storedTree (h : isStoredCompound old = true) :
    weight (storedTree old) = readWeight old := by
  cases old with
  | object | array => rfl
  | double | string | bool | null | int32 | int64 => cases h

/-- It is written as the stored one exactly if no integer is lost by reading and no name is changed
by writing. -/
theorem written_same_iff (hold : isStoredCompound old = true)
    (h : Same (jsonOfCompound c) (storedTree old)) :
    Same (jsonOfBson (ofBson (compoundValueBson c))) (jsonOfBson old) ↔
      NoLongs old ∧ DotlessNames (jsonOfBson old) := by
  rw [json_written]
  constructor
  · intro hsame
    refine ⟨(readWeight_le old).2 ?_, dotless_of_same hsame (dotless_encodedNames _)⟩
    rw [← weight_storedTree hold, ← h.weight_eq, ← weight_encodedNames, hsame.weight_eq]
  · rintro ⟨hlongs, hdotless⟩
    have htree : storedTree old = jsonOfBson old := storedTree_eq hold hlongs
    rw [htree] at h
    have hencoded := same_encodedNames h
    rwa [encodedNames_of_dotless hdotless] at hencoded

theorem eq_of_equalDbValues {x y : DbValue} (h : equalDbValues x y = true) : x = y := by
  unfold equalDbValues at h
  split at h
  · rw [eq_of_beq h]
  · rw [eq_of_beq h]
  · rw [eq_of_beq h]
  · rfl
  · cases h

theorem eq_of_equalMetadataValues {md1 md2 : MetadataDoc}
    (h : equalMetadataValues md1 md2 = true) : md1 = md2 := by
  obtain ⟨type, value⟩ := md1
  obtain ⟨type', value'⟩ := md2
  obtain ⟨htype, hvalue⟩ := Bool.and_eq_true_iff.mp h
  have htypes : type = type' := by
    unfold equalMetadataTypes at htype
    split at htype
    · rename_i hnone hnone'
      exact hnone.trans hnone'.symm
    · rename_i hsome hsome'
      rw [show type = some _ from hsome, show type' = some _ from hsome', eq_of_equalDbValues htype]
    · cases htype
  have hvalues : value = value' := by
    dsimp only at hvalue
    split at hvalue
    · rw [eq_of_equalDbValues hvalue]
    · cases hvalue
  rw [htypes, hvalues]

theorem perm_of_not_differs {old new : List (Text × MetadataDoc)}
    (honce : (old.map Prod.fst).Nodup) (h : metadataDiffers old new = false) :
    new.Perm old := by
  obtain ⟨hlength, hequal⟩ := Bool.or_eq_false_iff.mp h
  have hlength := bne_eq_false_iff_eq.mp hlength
  have hequal : equalMetadata old new = true := by simpa using hequal
  have hsub : ∀ f ∈ old, f ∈ new := by
    rintro ⟨name, doc⟩ hf
    have hany := List.all_eq_true.mp hequal _ hf
    obtain ⟨doc', hdoc', hsame⟩ := (Option.any_eq_true _ _).mp hany
    rw [show doc = doc' from eq_of_equalMetadataValues hsame]
    exact FieldList.mem_of_lookup hdoc'
  have hnodup : old.Nodup := List.Nodup.of_map _ honce
  exact ((hnodup.subperm hsub).perm_of_length_le hlength.le).symm

variable {env : MergeEnv} {v : ApiVersion} {onlyValue : Bool} {attr : StoredAttribute}
  {ca : ContextAttribute}

def mergedValue (env : MergeEnv) (v : ApiVersion) (attr : StoredAttribute)
    (ca : ContextAttribute) : Option DbValue :=
  if ca.valueType = .notGiven then attr.value.bind copiedValue
  else valueBson env v (attr.type.getD []) ca

theorem unchanged_same_iff (hdetails : detailsDiffer v onlyValue attr ca = false) :
    (∀ merged, mergeAttrInfo env v onlyValue attr ca = some (merged, false) →
        SameAttribute merged attr) ↔
      (actualUpdate env v onlyValue attr ca = some false →
        Option.Rel SameDbValue (mergedValue env v attr ca) attr.value) := by
  obtain ⟨hrest, hmetadata⟩ := Bool.or_eq_false_iff.mp hdetails
  obtain ⟨-, htype⟩ := Bool.or_eq_false_iff.mp hrest
  have htypes : (if ca.type = [] then attr.type else some ca.type) = attr.type := by
    split
    · rfl
    rename_i hgiven
    have hsame : attr.type.getD [] = ca.type := by
      simpa [typeDiffers, hgiven] using htype
    cases hstored : attr.type with
    | none =>
      rw [hstored] at hsame
      exact absurd hsame.symm hgiven
    | some t =>
      rw [hstored] at hsame
      rw [← hsame]
      rfl
  unfold mergeAttrInfo
  cases hupdate : actualUpdate env v onlyValue attr ca with
  | none => simp
  | some update =>
    cases update with
    | true => simp
    | false =>
      simp only [Option.bind_eq_bind, Option.bind_some, Option.some.injEq, Prod.mk.injEq,
        and_true, forall_eq', true_imp_iff]
      constructor
      · intro h
        exact h.value
      · intro h
        exact ⟨h, htypes, perm_of_not_differs attr.mdOnce hmetadata⟩

theorem mergedValue_scalar (hcompound : ca.compoundValueP = none) :
    mergedValue env v attr ca =
      if ca.valueType = .notGiven then attr.value.bind copiedValue
      else (bsonAppendAttrValue env.numbers (env.numbers.ngsiv1Autocast && v == .v1)
        (attr.type.getD []) ca).map fun b => .bson (ofBson b) := by
  unfold mergedValue valueBson MongoLocation.valueBson
  rw [hcompound]

theorem type_of_not_differs (h : valueTypeDiffers (some d) ca.valueType = false) :
    isCompoundType ca.valueType = true ∧ isCompoundDb d = true ∨
      isCompoundDb d = false ∧ isOfType ca.valueType d = true := by
  unfold valueTypeDiffers at h
  rw [Option.any_some, Option.any_some] at h
  cases hdb : isCompoundDb d <;> cases hvt : ca.valueType <;> rw [hdb, hvt] at h <;>
    simp_all [isCompoundType, isOfType]

theorem same_numbers {x y : KjNode} {p : ℚ} (hx : numberOf x = some p) (hy : numberOf y = some q) :
    Same x y ↔ p = q := by
  constructor
  · intro h
    cases h with
    | number hx' hy' =>
      rw [hx] at hx'
      rw [hy] at hy'
      exact (Option.some.inj hx').trans (Option.some.inj hy').symm
    | null | bool | string | array | object => cases hx
  · rintro rfl
    exact .number hx hy

theorem number_kept_iff {b : BsonValue} (hd : d = .bson b) (hq : numberOf (jsonOfBson b) = some q) :
    Option.Rel SameDbValue ((some (Bson.num ca.numberValue)).map fun b => .bson (ofBson b))
      (some d) ↔ ca.numberValue = q := by
  rw [hd, Option.map_some, Option.rel_some_some]
  exact same_numbers rfl hq

theorem cast_same_iff {numbers : Numbers} {t s : Text} :
    Same (jsonOfBson (ofBson (autocastValue numbers t s))) (.string s) ↔
      autocastValue numbers t s = .str s := by
  rw [same_string_right]
  cases autocastValue numbers t s with
  | str s' => simp [ofBson, jsonOfBson]
  | num | bool | null | arr | obj => simp [ofBson, jsonOfBson]

theorem ofType_unique {t t' : ValueType} (ht : t ≠ .notGiven) (ht' : t' ≠ .notGiven)
    (h : isOfType t d = true) (h' : isOfType t' d = true) : t = t' := by
  unfold isOfType at h h'
  split at h <;> split at h' <;> simp_all

theorem notGiven_kept_iff (hcompound : ca.compoundValueP = none)
    (hvt : ca.valueType = .notGiven) :
    (attrValueChanged attr.value ca = false →
      Option.Rel SameDbValue (mergedValue env v attr ca) attr.value) ↔ ValueKept env v attr ca := by
  rw [mergedValue_scalar hcompound, if_pos hvt]
  unfold ValueKept
  rw [hcompound]
  rcases attr.value with _ | ⟨b⟩ | ⟨t, bytes⟩
  · simp [attrValueChanged, hvt]
  · cases b with
    | int32 i | int64 i => simp [attrValueChanged, hvt, copiedValue]
    | string s =>
      refine iff_of_true (fun _ => .some (Same.refl _)) fun h => ?_
      rw [hvt] at h
      cases h
    | _ => exact iff_of_true (fun _ => .some (Same.refl _)) trivial
  · simp [attrValueChanged, hvt, copiedValue]

theorem scalar_kept_iff (hcompound : ca.compoundValueP = none)
    (htype : valueTypeDiffers attr.value ca.valueType = false) :
    (attrValueChanged attr.value ca = false →
      Option.Rel SameDbValue (mergedValue env v attr ca) attr.value) ↔ ValueKept env v attr ca := by
  by_cases hnot : ca.valueType = .notGiven
  · exact notGiven_kept_iff hcompound hnot
  rw [mergedValue_scalar hcompound, if_neg hnot]
  unfold ValueKept
  rw [hcompound]
  cases hold : attr.value with
  | none =>
    refine iff_of_true (fun h => ?_) trivial
    cases hvt : ca.valueType <;> simp_all [valueTypeDiffers, isCompoundType]
  | some d =>
    rw [hold] at htype
    have hkinds := type_of_not_differs htype
    have hof {t : ValueType} (ht : t ≠ .notGiven) (hd : isCompoundDb d = false)
        (h : isOfType t d = true) : ca.valueType = t := by
      rw [hd] at hkinds
      exact ofType_unique hnot ht (hkinds.resolve_left nofun).2 h
    cases d with
    | other t bytes => cases hvt : ca.valueType <;> simp_all [isCompoundDb, isOfType]
    | bson b =>
      cases b with
      | object | array => simp [attrValueChanged, hnot]
      | double x =>
        have hvt := hof (t := .number) nofun rfl rfl
        refine iff_of_true (fun h => ?_) trivial
        have hx : ca.numberValue = x := by simpa [attrValueChanged, hvt] using h
        rw [bsonAppendAttrValue, hvt]
        exact (number_kept_iff rfl rfl).mpr hx
      | int32 i | int64 i =>
        have hvt := hof (t := .number) nofun rfl rfl
        rw [bsonAppendAttrValue, hvt]
        rw [number_kept_iff rfl rfl]
        simp [attrValueChanged, hvt]
      | bool b =>
        have hvt := hof (t := .boolean) nofun rfl rfl
        refine iff_of_true (fun h => ?_) trivial
        have hb : ca.boolValue = b := by simpa [attrValueChanged, hvt] using h
        rw [bsonAppendAttrValue, hvt, hb]
        exact .some (Same.refl _)
      | null =>
        have hvt := hof (t := .null) nofun rfl rfl
        refine iff_of_true (fun h => ?_) trivial
        rw [bsonAppendAttrValue, hvt]
        exact .some (Same.refl _)
      | string s =>
        have hvt := hof (t := .string) nofun rfl rfl
        have hchanged : attrValueChanged (some (.bson (.string s))) ca = false ↔
            ca.stringValue = s := by
          simp [attrValueChanged, hvt]
        rw [bsonAppendAttrValue, hvt, hchanged]
        dsimp only
        rw [show (ValueType.string = .string) = True from eq_true rfl, true_imp_iff]
        refine forall_congr' fun hs => ?_
        rw [hs]
        cases hcast : env.numbers.ngsiv1Autocast && v == .v1 with
        | true =>
          obtain ⟨hauto, hv⟩ := Bool.and_eq_true_iff.mp hcast
          rw [if_pos rfl, Option.map_some, Option.rel_some_some]
          constructor
          · intro h _ _
            exact cast_same_iff.mp h
          · intro h
            exact cast_same_iff.mpr (h hauto (eq_of_beq hv))
        | false =>
          refine iff_of_true (.some (Same.refl _)) fun hauto hv => ?_
          rw [hauto, hv] at hcast
          cases hcast

theorem compoundValueDiffers_total (env : RenderEnv) (v : ApiVersion) (c : CompoundValueNode)
    (old : BsonValue) : ∃ b, compoundValueDiffers env v c (storedObject old) (storedArray old)
      (storedIsArray old) = some b := by
  by_cases hv : v = .ngsiLd
  · subst hv
    cases hc : isCompound c with
    | true =>
      rw [compoundValueDiffers_eq hc]
      split
      · exact ⟨true, rfl⟩
      · exact ⟨_, rfl⟩
    | false =>
      refine ⟨true, ?_⟩
      simp only [compoundValueDiffers, treeOfCompound_none hc, ite_self]
  · exact ⟨true, if_pos hv⟩

theorem same_of_not_differs {env : RenderEnv}
    (hrenders : Renders env (sorted (storedTree old)) (sorted (jsonOfCompound c)))
    (h : compoundValueDiffers env v c (storedObject old) (storedArray old) (storedIsArray old) =
    some false) : v = .ngsiLd ∧ Same (jsonOfCompound c) (storedTree old) := by
  by_cases hv : v = .ngsiLd
  · subst hv
    refine ⟨rfl, ?_⟩
    cases hc : isCompound c with
    | true =>
      rw [compoundValueDiffers_eq hc] at h
      split at h
      · cases h
      · have htexts := bne_eq_false_iff_eq.mp (Option.some.inj h)
        exact same_of_sorted (hrenders.text.mp htexts).symm
    | false =>
      simp only [compoundValueDiffers, treeOfCompound_none hc, ite_self] at h
      cases h
  · rw [compoundValueDiffers, if_pos hv] at h
    cases h

theorem compound_of_not_differs {vt : ValueType} (hvt : isCompoundType vt = true)
    (h : valueTypeDiffers attr.value vt = false) :
    ∃ old, attr.value = some (.bson old) ∧ isStoredCompound old = true := by
  unfold valueTypeDiffers at h
  cases hold : attr.value with
  | none => simp [hold, hvt] at h
  | some d =>
    have hdb : isCompoundDb d = true := by
      cases hdb : isCompoundDb d with
      | true => rfl
      | false => simp [hold, hvt, hdb] at h
    cases d with
    | other => cases hdb
    | bson old => exact ⟨old, rfl, by cases old <;> first | rfl | cases hdb⟩

theorem compound_kept_iff (hcompound : ca.compoundValueP = some c)
    (hca : v = .ngsiLd → isCompoundType ca.valueType = true)
    (hrenders : Renders env.render (sorted (storedTree (storedCompound attr.value)))
    (sorted (jsonOfCompound c))) (htype : valueTypeDiffers attr.value ca.valueType = false)
    (hsame : compoundValueDiffers env.render v c (storedObject (storedCompound attr.value))
    (storedArray (storedCompound attr.value)) (storedIsArray (storedCompound attr.value)) =
    some false) :
    Option.Rel SameDbValue (mergedValue env v attr ca) attr.value ↔ ValueKept env v attr ca := by
  obtain ⟨hv, htrees⟩ := same_of_not_differs hrenders hsame
  have hvt := hca hv
  obtain ⟨old, hold, hstored⟩ := compound_of_not_differs hvt htype
  have hgiven : ca.valueType ≠ .notGiven := by
    intro h
    rw [h] at hvt
    cases hvt
  unfold ValueKept
  rw [hcompound, mergedValue, if_neg hgiven, valueBson, MongoLocation.valueBson, hcompound]
  rw [hold] at htrees ⊢
  exact Option.rel_some_some.trans (written_same_iff hstored htrees)

/-- An update that does not count as one leaves everything as it is stored, exactly if what differs
is noticed or the value is one that is kept. -/
theorem unnoticed_update_is_none_iff
    (hca : ∀ c, ca.compoundValueP = some c → v = .ngsiLd → isCompoundType ca.valueType = true)
    (hrenders : ∀ c, ca.compoundValueP = some c →
      Renders env.render (sorted (storedTree (storedCompound attr.value)))
        (sorted (jsonOfCompound c))) :
    (∀ merged, mergeAttrInfo env v onlyValue attr ca = some (merged, false) →
        SameAttribute merged attr) ↔
      Noticed env v onlyValue attr ca ∨ ValueKept env v attr ca := by
  cases hdetails : detailsDiffer v onlyValue attr ca with
  | true =>
    refine iff_of_true (fun merged h => ?_) (.inl (.inl hdetails))
    have hupdate : actualUpdate env v onlyValue attr ca = some true := by
      unfold actualUpdate
      split
      · rw [hdetails, Bool.or_true, Bool.true_or]
      · exact if_pos hdetails
    rw [mergeAttrInfo, hupdate] at h
    cases h
  | false =>
    rw [unchanged_same_iff hdetails]
    have htype : valueTypeDiffers attr.value ca.valueType = false :=
      (Bool.or_eq_false_iff.mp (Bool.or_eq_false_iff.mp hdetails).1).1
    unfold actualUpdate Noticed
    rw [hdetails]
    cases hcompound : ca.compoundValueP with
    | none =>
      by_cases hld : v = .ngsiLd ∧ env.noNotifyFalseUpdate = false
      · refine iff_of_true (fun h => ?_) (.inl (.inr hld))
        rw [hld.1, hld.2] at h
        cases h
      have hcompared : (v == .ngsiLd && !env.noNotifyFalseUpdate) = false := by
        rw [Bool.eq_false_iff]
        intro h
        simp only [Bool.and_eq_true, beq_iff_eq, Bool.not_eq_true'] at h
        exact hld h
      simp only [hcompared, Bool.or_false, Bool.false_or, Option.some.injEq,
        Bool.false_eq_true, false_or, hld]
      exact scalar_kept_iff hcompound htype
    | some c =>
      obtain ⟨b, hb⟩ := compoundValueDiffers_total env.render v c (storedCompound attr.value)
      simp only [Bool.false_eq_true, if_false, false_or, hb, Option.some.injEq]
      cases b with
      | true => simp
      | false =>
        simp only [true_imp_iff, Bool.false_eq_true, false_or]
        exact compound_kept_iff hcompound (hca c hcompound) (hrenders c hcompound) htype hb

def sampleNumbers : Numbers where
  str2double := fun _ => none
  parse8601Time := fun _ => none
  ngsiv1Autocast := false

def sampleEnv : MergeEnv := ⟨flatEnv, sampleNumbers, false⟩

def storedSpeed : StoredAttribute where
  type := some "Number".toList
  value := some (.bson (.int32 5))
  md := []
  mdOnce := List.nodup_nil
  creDate := some 1
  modDate := some 1

def givenSpeed (speed : ℚ) : ContextAttribute where
  name := "speed".toList
  type := "Number".toList
  typeGiven := true
  valueType := .number
  stringValue := []
  numberValue := speed
  boolValue := false
  compoundValueP := none
  metadataVector := []

def doorAttribute : StoredAttribute where
  type := some "Property".toList
  value := some (.bson storedDoor)
  md := []
  mdOnce := List.nodup_nil
  creDate := some 1
  modDate := some 1

def givenDoor : ContextAttribute where
  name := "door".toList
  type := "Property".toList
  typeGiven := true
  valueType := .object
  stringValue := []
  numberValue := 0
  boolValue := false
  compoundValueP := some openDoor
  metadataVector := []

/-- The members come in another order than they are stored in. -/
theorem door_update_seen :
    (mergeAttrInfo sampleEnv .ngsiLd false doorAttribute givenDoor).map Prod.snd = some false ∧
      ∀ merged, mergeAttrInfo sampleEnv .ngsiLd false doorAttribute givenDoor =
        some (merged, false) → SameAttribute merged doorAttribute := by
  refine ⟨by decide +kernel, (unnoticed_update_is_none_iff ?_ ?_).mpr (.inr ?_)⟩
  · exact fun _ _ _ => rfl
  · rintro _ ⟨⟩
    exact door_renders
  · exact ⟨by simp [doorAttribute, storedCompound, storedDoor, NoLongs, NoLongsFields],
      by simp [doorAttribute, storedCompound, storedDoor, jsonOfBson, jsonOfBsonFields,
        DotlessNames, DotlessNamesMembers]⟩

/-- The new speed is not the stored one, and nothing is said to have changed. -/
theorem speed_change_unnoticed : ¬ ∀ merged, mergeAttrInfo sampleEnv .v2 false storedSpeed
    (givenSpeed 7) = some (merged, false) → SameAttribute merged storedSpeed := by
  intro h
  have hrel : Option.Rel SameDbValue (some (.bson (.double 7))) (some (.bson (.int32 5))) :=
    (h _ rfl).value
  have hvalue : SameDbValue (.bson (.double 7)) (.bson (.int32 5)) := Option.rel_some_some.mp hrel
  have hnumbers : (7 : ℚ) = (5#32).toInt := (same_numbers rfl rfl).mp hvalue
  revert hnumbers
  decide

end MergeAttrInfo
