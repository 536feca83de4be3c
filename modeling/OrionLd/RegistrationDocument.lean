import OrionLd.KjTreeToRegistration

/-! The way of a registration through the database: the document of mongoRegistrationCreate, the
registration that mongoLdRegistrationGet makes of it, and the tree of kjTreeFromRegistration. A
field absent from the document is `none`. Names are compacted under the context of the request when
they are read, entity types twice, and under the core context when they are shown. -/
namespace RegistrationDocument

open KjTree OrionldContextItem KjTreeToContextAttribute KjTreeToEntIdVector KjTreeToRegistration
open MongoCppLegacyCodec

/-- With the text of gmtime_r and strftime for a number of seconds, which fits into its buffers. -/
structure DateEnv extends Env where
  strftime : ℤ → Text

def digits3 (n : ℕ) : Text :=
  let digits := Nat.toDigits 10 n
  List.replicate (3 - digits.length) '0' ++ digits

def threeDigits : ℤ → Text
  | .ofNat n => digits3 n
  | .negSucc n =>
    let digits := Nat.toDigits 10 (n + 1)
    '-' :: (List.replicate (2 - digits.length) '0' ++ digits)

def truncate (x : ℚ) : ℤ := x.num.tdiv x.den

def numberToDate (env : DateEnv) (timestamp : ℚ) : Text :=
  let fromEpoch := truncate timestamp
  let millis := timestamp - fromEpoch
  let dMicros := truncate (millis * 1000000) + 1
  env.strftime fromEpoch ++ ".".toList ++ threeDigits (dMicros.tdiv 1000) ++ "Z".toList

structure EntityDoc where
  id : Option Text
  isPattern : Option Text
  type : Option Text

structure AttrDoc where
  name : Text
  type : Text
  isDomain : Text

structure ContextRegistrationDoc where
  entities : List EntityDoc
  attrs : List AttrDoc
  providingApplication : Text

structure GeoDoc where
  type : Text
  coordinates : List BsonValue

structure RegistrationDoc where
  id : Text
  description : Option Text
  name : Option Text
  expiration : Option ℚ
  servicePath : Text
  contextRegistration : ContextRegistrationDoc
  format : Text
  createdAt : ℚ
  modifiedAt : ℚ
  observationInterval : Option TimeInterval
  managementInterval : Option TimeInterval
  location : Option GeoDoc
  observationSpace : Option GeoDoc
  operationSpace : Option GeoDoc
  properties : Option (List (Text × BsonValue))

def filled (s : Text) : Option Text := if s = [] then none else some s

def setEntity (e : EntID) : EntityDoc :=
  if e.id ≠ [] then
    if e.type = [] then ⟨some e.id, none, none⟩ else ⟨some e.id, none, some e.type⟩
  else if e.idPattern ≠ [] then
    if e.type = [] then ⟨some e.idPattern, some "true".toList, none⟩
    else ⟨some e.idPattern, some "true".toList, some e.type⟩
  else ⟨none, none, some e.type⟩

def setContextRegistrationVector (r : Registration) : ContextRegistrationDoc where
  entities := r.dataProvided.entities.map setEntity
  attrs := r.dataProvided.propertyV.map (⟨·, "Property".toList, "false".toList⟩) ++
    r.dataProvided.relationshipV.map (⟨·, "Relationship".toList, "false".toList⟩)
  providingApplication := r.url

def setTimeInterval (i : TimeInterval) : Option TimeInterval :=
  if i.start ≠ 0 then some i else none

def setGeoLocation (l : GeoLocation) : Option GeoDoc :=
  l.coordsNode.map fun coords => ⟨l.geoType.getD [], match coords with
    | .array items => kjTreeToBsonArray items
    | _ => []⟩

def mongoRegistrationCreate (env : DateEnv) (r : Registration) : RegistrationDoc where
  id := r.id
  description := filled r.description
  name := filled r.name
  expiration := if r.expires ≠ -1 then some r.expires else none
  servicePath := "/".toList
  contextRegistration := setContextRegistrationVector r
  format := "JSON".toList
  createdAt := env.requestTime
  modifiedAt := env.requestTime
  observationInterval := setTimeInterval r.observationInterval
  managementInterval := setTimeInterval r.managementInterval
  location := setGeoLocation r.location
  observationSpace := setGeoLocation r.observationSpace
  operationSpace := setGeoLocation r.operationSpace
  properties := r.properties.map kjTreeToBsonObject

variable (c : Contexts)

def mongoSetEntity (doc : EntityDoc) : EntID :=
  let id := doc.id.getD []
  let isPattern := doc.isPattern = some "true".toList
  let alias₁ := orionldContextItemAliasLookup c (doc.type.getD [])
  let type := if alias₁ ≠ [] then orionldContextItemAliasLookup c alias₁ else alias₁
  if isPattern then ⟨[], id, type⟩ else ⟨id, [], type⟩

def mongoSetNames (type : String) (attrs : List AttrDoc) : List Text :=
  ((attrs.filter fun a => a.type = type.toList ∧ a.name ≠ []).map fun a =>
    orionldContextItemAliasLookup c a.name)

def mongoSetDataProvided (doc : ContextRegistrationDoc) : DataProvided where
  entities := doc.entities.map (mongoSetEntity c)
  propertyV := mongoSetNames c "Property" doc.attrs
  relationshipV := mongoSetNames c "Relationship" doc.attrs

def mongoSetInterval (doc : Option TimeInterval) : TimeInterval := doc.getD ⟨-1, -1⟩

def mongoSetGeo (doc : Option GeoDoc) : GeoLocation :=
  match doc with
  | none => ⟨none, none⟩
  | some l => ⟨some l.type, some (.array (arrayToKjTree l.coordinates))⟩

structure DatedRegistration extends Registration where
  createdAt : ℚ
  modifiedAt : ℚ

def mongoLdRegistrationGet (doc : RegistrationDoc) : DatedRegistration where
  id := doc.id
  name := doc.name.getD []
  description := doc.description.getD []
  descriptionProvided := doc.description.isSome
  dataProvided := mongoSetDataProvided c doc.contextRegistration
  expires := doc.expiration.getD (-1)
  url := doc.contextRegistration.providingApplication
  observationInterval := mongoSetInterval doc.observationInterval
  managementInterval := mongoSetInterval doc.managementInterval
  location := mongoSetGeo doc.location
  observationSpace := mongoSetGeo doc.observationSpace
  operationSpace := mongoSetGeo doc.operationSpace
  properties := doc.properties.map objectToKjTree
  createdAt := doc.createdAt
  modifiedAt := doc.modifiedAt

def stringMember (name : String) (s : Text) : Text × KjNode := (name.toList, .string s)

def coreOnly (c : Contexts) : Contexts := { c with context := [] }

def shownEntity (c : Contexts) (e : EntID) : KjNode :=
  .object ((if e.id ≠ [] then [stringMember "id" e.id] else []) ++
    (if e.idPattern ≠ [] then [stringMember "idPattern" e.idPattern] else []) ++
    [stringMember "type" (orionldContextItemAliasLookup c e.type)])

def shownArray (name : String) (items : List KjNode) : Members :=
  if items ≠ [] then [(name.toList, .array items)] else []

def shownName (c : Contexts) (name : Text) : KjNode :=
  .string (orionldContextItemAliasLookup c name)

def shownInformation (c : Contexts) (d : DataProvided) : Members :=
  shownArray "entities" (d.entities.map (shownEntity c)) ++
    shownArray "properties" (d.propertyV.map (shownName c)) ++
    shownArray "relationships" (d.relationshipV.map (shownName c))

def shownInterval (env : DateEnv) (name : String) (i : TimeInterval) : Members :=
  if 0 < i.start then
    [(name.toList, .object (stringMember "start" (numberToDate env i.start) ::
      if 0 < i.endTime then [stringMember "end" (numberToDate env i.endTime)] else []))]
  else []

def shownGeo (name : String) (l : GeoLocation) : Members :=
  match l.geoType with
  | none => []
  | some geoType => [(name.toList, .object (stringMember "type" geoType ::
      (l.coordsNode.map fun coords => ("coordinates".toList, coords)).toList))]

/-- The context of the registration is looked up by an empty url, and not found. -/
def kjTreeFromRegistration (env : DateEnv) (sysAttrs : Bool) (r : DatedRegistration) :
    Members :=
  let core := coreOnly env.toContexts
  [stringMember "id" r.id, stringMember "type" "ContextSourceRegistration".toList] ++
    (if r.name ≠ [] then [stringMember "name" r.name] else []) ++
    (if r.descriptionProvided then [stringMember "description" r.description] else []) ++
    (if sysAttrs then
      (if r.createdAt ≠ -1 then [stringMember "createdAt" (numberToDate env r.createdAt)]
        else []) ++
      (if r.modifiedAt ≠ -1 then [stringMember "modifiedAt" (numberToDate env r.modifiedAt)]
        else [])
    else []) ++
    (if r.expires ≠ -1 then [stringMember "expires" (numberToDate env r.expires)] else []) ++
    [stringMember "endpoint" r.url,
      ("information".toList, .array [.object (shownInformation core r.dataProvided)])] ++
    shownInterval env "observationInterval" r.observationInterval ++
    shownInterval env "managementInterval" r.managementInterval ++
    shownGeo "location" r.location ++
    shownGeo "observationSpace" r.observationSpace ++
    shownGeo "operationSpace" r.operationSpace ++
    (r.properties.getD []).map fun m =>
      (orionldContextItemAliasLookup env.toContexts m.1, m.2)

def shown (env : DateEnv) (sysAttrs : Bool) (r : Registration) : Members :=
  kjTreeFromRegistration env sysAttrs
    (mongoLdRegistrationGet env.toContexts (mongoRegistrationCreate env r))

end RegistrationDocument
