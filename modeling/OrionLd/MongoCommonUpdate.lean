import OrionLd.FieldList
import OrionLd.MongoLocation
import OrionLd.StepSystem

/-! Updates of entities: createEntity, updateEntity and processContextElement. The requests go
through documents for $set and $unset, which are composed in another way for a replacing request.
The metadata of attributes and the responses are left to parameters or left out, and a write that
sets one path twice fails. -/
namespace MongoCommonUpdate

open MongoQuery (Bson)
open KjTree FieldList MongoLocation
open KjTreeToContextAttribute (Metadata)

inductive ActionType where
  | update
  | append
  | appendStrict
  | replace
  | delete
  deriving DecidableEq, Repr

structure StoredAttribute (μ : Type) where
  type : Option Text
  value : Option Bson
  md : μ

/-- A field of attrs: the document of an attribute, or that of a location. -/
inductive AttrsField (μ : Type) where
  | attribute (a : StoredAttribute μ)
  | location (attrName : Text) (coords : GeoJson)

structure EntityDoc (μ : Type) where
  attrs : List (Text × AttrsField μ)
  attrNames : List Text
  location : Option (Text × GeoJson)
  expDate : Option ℤ

/-- With the metadata stored for a list of them, their merge with given ones, and the comparison of
compound values. -/
structure Env (μ : Type) extends Numbers where
  noMetadata : μ
  customMetadata : ApiVersion → List Metadata → μ
  mergedMetadata : ApiVersion → μ → ContextAttribute → μ
  metadataDiffers : ApiVersion → μ → ContextAttribute → Bool
  compoundValueDiffers : CompoundValueNode → Option Bson → Bool
  noNotifyFalseUpdate : Bool

structure Request where
  apiVersion : ApiVersion
  action : ActionType
  noOverwrite : Bool
  contextAttributeVector : List ContextAttribute

variable {μ : Type} (env : Env μ)

/-- The buffer has 512 bytes, and the last one is taken to end what strncpy leaves open. -/
def fieldName (name : Text) : Text := dotForEq (name.take 511)

theorem fieldName_eq {name : Text} (h : name.length ≤ 511) : fieldName name = dotForEq name := by
  rw [fieldName, List.take_of_length_le h]

/-- Attributes with a metadata ID are stored under a name of their own. -/
def effectiveName (ca : ContextAttribute) : Text :=
  match getMetadataId ca with
  | none => fieldName ca.name
  | some id => fieldName ca.name ++ "()".toList ++ id.take (509 - (fieldName ca.name).length)

def AttrsField.asAttribute : AttrsField μ → StoredAttribute μ
  | .attribute a => a
  | .location _ _ => ⟨none, none, env.noMetadata⟩

def attrType (v : ApiVersion) (ca : ContextAttribute) : Text :=
  if !ca.typeGiven && v == .v2 then
    match ca.compoundValueP with
    | some (.vector _) => (defaultType .vector).toList
    | _ => (defaultType ca.valueType).toList
  else ca.type

def createdAttribute (v : ApiVersion) (ca : ContextAttribute) : StoredAttribute μ :=
  ⟨some (attrType v ca), valueBson env.toNumbers v (attrType v ca) ca,
    env.customMetadata v ca.metadataVector⟩

/-- An appended attribute, whose value is cast by the type that the request gives. -/
def appendedAttribute (v : ApiVersion) (ca : ContextAttribute) : StoredAttribute μ :=
  { createdAttribute env v ca with value := valueBson env.toNumbers v ca.type ca }

def isCompoundBson : Bson → Bool
  | .obj _ => true
  | .arr _ => true
  | _ => false

def isCompoundType : ValueType → Bool
  | .vector => true
  | .object => true
  | _ => false

/-- A value that is not stored has no type that equals one. -/
def valueTypeDiffers (old : Option Bson) (new : ValueType) : Bool :=
  let oldCompound := old.any isCompoundBson
  if isCompoundType new && oldCompound then false
  else if oldCompound || isCompoundType new then true
  else match new, old with
    | .string, some (.str _) => false
    | .string, _ => true
    | .boolean, some (.bool _) => false
    | .boolean, _ => true
    | .null, some .null => false
    | .null, _ => true
    | .number, some (.num _) => false
    | .number, _ => true
    | _, _ => false

def attrValueChanged (old : Option Bson) (ca : ContextAttribute) : Bool :=
  match old with
  | none => ca.valueType != .string || ca.stringValue != []
  | some b =>
    if ca.valueType = .notGiven then false
    else match b with
      | .obj _ => true
      | .arr _ => true
      | .num x => ca.valueType != .number || ca.numberValue != x
      | .bool x => ca.valueType != .boolean || ca.boolValue != x
      | .str s => ca.valueType != .string || ca.stringValue != s
      | .null => ca.valueType != .null

def typeDiffers (old : StoredAttribute μ) (ca : ContextAttribute) : Bool :=
  ca.type != [] && old.type.getD [] != ca.type

def actuallyUpdates (v : ApiVersion) (old : StoredAttribute μ) (ca : ContextAttribute) : Bool :=
  match ca.compoundValueP with
  | none =>
    (v == .ngsiLd && !env.noNotifyFalseUpdate) || valueTypeDiffers old.value ca.valueType ||
      typeDiffers old ca || env.metadataDiffers v old.md ca || attrValueChanged old.value ca
  | some c =>
    valueTypeDiffers old.value ca.valueType || typeDiffers old ca ||
      env.metadataDiffers v old.md ca || v != .ngsiLd || env.compoundValueDiffers c old.value

def mergeAttrInfo (v : ApiVersion) (old : StoredAttribute μ) (ca : ContextAttribute) :
    Option (StoredAttribute μ) :=
  if actuallyUpdates env v old ca then
    some {
      type := if ca.type = [] then old.type else some ca.type
      value :=
        if ca.valueType = .notGiven then old.value
        else valueBson env.toNumbers v (old.type.getD []) ca
      md := env.mergedMetadata v old.md ca }
  else none

structure Update (μ : Type) where
  toSet : List (Text × StoredAttribute μ)
  toUnset : List Text
  toPush : List Text
  deleted : List Text
  loc : Text × GeoJson
  dateExpiration : ℤ
  dateExpirationInPayload : Bool
  entityModified : Bool

def noUpdate (d : EntityDoc μ) : Update μ where
  toSet := []
  toUnset := []
  toPush := []
  deleted := []
  loc := ((d.location.map Prod.fst).getD [], [])
  dateExpiration := d.expDate.getD 0
  dateExpirationInPayload := false
  entityModified := false

def updateAttribute (v : ApiVersion) (d : EntityDoc μ) (ca : ContextAttribute) (isReplace : Bool)
    (u : Update μ) : Update μ × Bool :=
  if isReplace then
    ({ u with
        toSet := u.toSet ++ [(effectiveName ca, createdAttribute env v ca)]
        toPush := u.toPush ++ [ca.name]
        entityModified := true }, true)
  else match d.attrs.lookup (effectiveName ca) with
    | none => (u, false)
    | some field =>
      match mergeAttrInfo env v (field.asAttribute env) ca with
      | some a =>
        ({ u with
            toSet := u.toSet ++ [(effectiveName ca, a)]
            entityModified := true }, true)
      | none => (u, true)

/-- An attribute that is not found is reported, and its location and date are looked at all the
same. -/
def updateContextAttributeItem (v : ApiVersion) (d : EntityDoc μ) (isReplace : Bool)
    (u : Update μ) (ca : ContextAttribute) : Except OrionError (Update μ) := do
  let u := (updateAttribute env v d ca isReplace u).1
  let loc ← processLocationAtUpdateAttribute env.toNumbers v u.loc ca
  let date ← processDateExpirationAtUpdateAttribute
    (u.dateExpiration, u.dateExpirationInPayload) ca
  .ok { u with loc := loc, dateExpiration := date.1, dateExpirationInPayload := date.2 }

/-- A name with a metadata ID and the same name without one do not go together. -/
def legalIdUsage (attrs : List (Text × AttrsField μ)) (ca : ContextAttribute) : Bool :=
  let idPrefix := ca.name ++ "()".toList
  match getMetadataId ca with
  | none => attrs.all fun f => !(ca.name.isPrefixOf f.1 && idPrefix.isPrefixOf f.1)
  | some _ => attrs.all fun f => !(ca.name.isPrefixOf f.1 && !idPrefix.isPrefixOf f.1)

/-- And whether it was an actual append. With noOverwrite an existing attribute is left alone, and
what it is reported to have done is not touched. -/
def appendAttribute (v : ApiVersion) (d : EntityDoc μ) (noOverwrite : Bool)
    (ca : ContextAttribute) (u : Update μ) : Update μ × Bool :=
  if (d.attrs.lookup (effectiveName ca)).isSome then
    if noOverwrite then ({ u with entityModified := true }, false)
    else ((updateAttribute env v d ca false u).1, false)
  else
    ({ u with
        toSet := u.toSet ++ [(effectiveName ca, appendedAttribute env v ca)]
        toPush := u.toPush ++ [ca.name]
        entityModified := true }, true)

def cannotBeAppended : OrionError :=
  ⟨422, "attribute cannot be appended".toList, "Unprocessable"⟩

def appendContextAttributeItem (v : ApiVersion) (d : EntityDoc μ) (noOverwrite : Bool)
    (u : Update μ) (ca : ContextAttribute) : Except OrionError (Update μ) :=
  if !legalIdUsage d.attrs ca then .error cannotBeAppended
  else do
    let (u, actualAppend) := appendAttribute env v d noOverwrite ca u
    let loc ← processLocationAtAppendAttribute env.toNumbers v u.loc ca actualAppend
    let date ← processDateExpirationAtAppendAttribute u.dateExpiration ca
    .ok { u with loc := loc, dateExpiration := date }

def locationDeleted : OrionError := ⟨422,
  "location attribute has to be defined at creation time, with APPEND".toList, "Unprocessable"⟩

def attributeNotFound : OrionError :=
  ⟨404, "The entity does not have such an attribute".toList, "NotFound"⟩

def deleteContextAttributeItem (v : ApiVersion) (d : EntityDoc μ) (u : Update μ)
    (ca : ContextAttribute) : Except OrionError (Update μ) :=
  if (d.attrs.lookup (effectiveName ca)).isNone then .error attributeNotFound
  else if getLocation v ca ≠ [] then .error locationDeleted
  else .ok { u with
    toUnset := u.toUnset ++ [effectiveName ca]
    deleted := u.deleted ++ [ca.name]
    loc := if u.loc.1 = ca.name then ([], u.loc.2) else u.loc
    dateExpiration := if ca.name = dateExpires then 0 else u.dateExpiration
    entityModified := true }

def howManyAttrs (attrs : List (Text × AttrsField μ)) (attrName : Text) : ℕ :=
  (attrs.filter fun f => attrName.isPrefixOf f.1 &&
    (f.1.length == attrName.length || (f.1.drop attrName.length).head? == some '(')).length

def skip (d : EntityDoc μ) (r : Request) (ca : ContextAttribute) : Bool :=
  r.action == .appendStrict && howManyAttrs d.attrs ca.name != 0

def contextAttributeItem (d : EntityDoc μ) (r : Request) (u : Update μ) (ca : ContextAttribute) :
    Except OrionError (Update μ) :=
  match r.action with
  | .update => updateContextAttributeItem env r.apiVersion d false u ca
  | .replace => updateContextAttributeItem env r.apiVersion d true u ca
  | .append => appendContextAttributeItem env r.apiVersion d r.noOverwrite u ca
  | .appendStrict => appendContextAttributeItem env r.apiVersion d r.noOverwrite u ca
  | .delete => deleteContextAttributeItem r.apiVersion d u ca

def contextAttributeItems (d : EntityDoc μ) (r : Request) :
    Update μ → List ContextAttribute → Except OrionError (Update μ)
  | u, [] => .ok u
  | u, ca :: caV => do
    let u ← contextAttributeItem env d r u ca
    contextAttributeItems d r u caV

def processContextAttributeVector (d : EntityDoc μ) (r : Request) :
    Except OrionError (Update μ) :=
  contextAttributeItems env d r (noUpdate d) (r.contextAttributeVector.filter (!skip d r ·))

def toPull (d : EntityDoc μ) (u : Update μ) : List Text :=
  u.deleted.dedup.filter fun name => howManyAttrs d.attrs name ≤ u.deleted.count name

def attributeFields (toSet : List (Text × StoredAttribute μ)) : List (Text × AttrsField μ) :=
  toSet.map fun f => (f.1, .attribute f.2)

/-- The GeoJSON of the location: what the attributes have made, or else the stored one. -/
def finalGeoJson (d : EntityDoc μ) (u : Update μ) : GeoJson :=
  if u.loc.2 = [] then (d.location.map Prod.snd).getD [] else u.loc.2

def finalLocation (d : EntityDoc μ) (u : Update μ) : Option (Text × GeoJson) :=
  if u.loc.1 = [] then none else some (u.loc.1, finalGeoJson d u)

/-- A date that comes out as none is not removed when the request gives one. -/
def updatedEntity (d : EntityDoc μ) (u : Update μ) : EntityDoc μ where
  attrs := remove u.toUnset (putAll (attributeFields u.toSet) d.attrs)
  attrNames := (d.attrNames ++ u.toPush.dedup.filter (!d.attrNames.contains ·)).filter
    (!(toPull d u).contains ·)
  location := finalLocation d u
  expDate :=
    if u.dateExpiration ≠ 0 then some u.dateExpiration
    else if u.dateExpirationInPayload then d.expDate
    else none

/-- The location goes to attrs, and its removal to the entity, unless the request gives a date: then
nothing is removed. -/
def replacedEntity (d : EntityDoc μ) (u : Update μ) : EntityDoc μ where
  attrs := attributeFields u.toSet ++
    ((finalLocation d u).map fun l => ("location".toList, .location l.1 l.2)).toList
  attrNames := u.toPush
  location :=
    if u.dateExpirationInPayload then d.location
    else if u.loc.1 = [] then none
    else d.location
  expDate := if u.dateExpirationInPayload then some u.dateExpiration else none

/-- The document after the request, which is removed by a deletion without attributes. -/
def updateEntity (d : EntityDoc μ) (r : Request) : Option (EntityDoc μ) :=
  if r.action = .delete ∧ r.contextAttributeVector = [] then none
  else match processContextAttributeVector env d r with
    | .error _ => some d
    | .ok u =>
      if !u.entityModified then some d
      else if r.action = .replace then some (replacedEntity d u)
      else if (u.toSet.map Prod.fst ++ u.toUnset).Nodup then some (updatedEntity d u)
      else some d

def legalIds (caV : List ContextAttribute) : Bool :=
  caV.all fun ca => (getMetadataId ca).isSome || caV.all fun other =>
    !(ca.name == other.name && ca.type == other.type && (getMetadataId other).isSome)

def bothIds : OrionError := ⟨422, ("Attributes with same name with ID and not ID at the same " ++
  "time in the same entity are forbidden").toList, "Unprocessable"⟩

def createEntity (v : ApiVersion) (caV : List ContextAttribute) :
    Except OrionError (EntityDoc μ) :=
  if !legalIds caV then .error bothIds
  else do
    let loc ← if v = .ngsiLd then .ok ([], [])
      else processLocationAtEntityCreation env.toNumbers v ([], []) caV
    let dateExpiration ← processDateExpirationAtEntityCreation caV
    .ok {
      attrs := attributeFields (caV.map fun ca => (effectiveName ca, createdAttribute env v ca))
      attrNames := caV.map ContextAttribute.name
      location := if loc.1 = [] then none else some loc
      expDate := if dateExpiration = 0 then none else some dateExpiration }

/-- contextElementPreconditionsCheck, which is not made for NGSI-LD. -/
def preconditions (r : Request) : Bool :=
  r.apiVersion == .ngsiLd ||
    (decide ((r.contextAttributeVector.map fun ca => (ca.name, getMetadataId ca)).Nodup) &&
      !(r.apiVersion == .v1 && r.action != .delete && r.contextAttributeVector.any fun ca =>
        ca.valueType == .notGiven && ca.type == [] && ca.metadataVector.isEmpty))

/-- The document of the entity after a request, which only an append creates. -/
def processContextElement (doc : Option (EntityDoc μ)) (r : Request) : Option (EntityDoc μ) :=
  if !preconditions r then doc
  else match doc with
    | some d => updateEntity env d r
    | none =>
      if r.action = .append ∨ r.action = .appendStrict then
        (createEntity env r.apiVersion r.contextAttributeVector).toOption
      else none

structure History (μ : Type) where
  doc : Option (EntityDoc μ)
  given : List Text

def step (s : History μ) (r : Request) : History μ where
  doc := processContextElement env s.doc r
  given := r.contextAttributeVector.map effectiveName ++ s.given

end MongoCommonUpdate
