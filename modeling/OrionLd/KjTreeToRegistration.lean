import OrionLd.KjTreeToEntIdVector

/-! POST /ngsi-ld/v1/csourceRegistrations: orionldPostRegistrations with kjTreeToRegistration.
@context, id and type have been taken out of the payload. The results of kjTreeToTimeInterval and
kjTreeToGeoLocation and the OrionError of mongoRegistrationCreate are not looked at, and the status
is 201 when the routine comes to its end. -/
namespace KjTreeToRegistration

open KjTree OrionldContextItem KjTreeToContextAttribute KjTreeToEntIdVector Fallible PcheckGeoQ
open PcheckSubscription (itemsCheck)

structure TimeInterval where
  start : ℚ
  endTime : ℚ

structure GeoLocation where
  geoType : Option Text
  coordsNode : Option KjNode

structure DataProvided where
  entities : List EntID
  propertyV : List Text
  relationshipV : List Text

structure Registration where
  id : Text
  name : Text
  description : Text
  descriptionProvided : Bool
  dataProvided : DataProvided
  expires : ℚ
  url : Text
  observationInterval : TimeInterval
  managementInterval : TimeInterval
  location : GeoLocation
  observationSpace : GeoLocation
  operationSpace : GeoLocation
  properties : Option Members

def emptyRegistration (id : Text) : Registration where
  id := id
  name := []
  description := []
  descriptionProvided := false
  dataProvided := ⟨[], [], []⟩
  expires := -1
  url := []
  observationInterval := ⟨0, 0⟩
  managementInterval := ⟨0, 0⟩
  location := ⟨none, none⟩
  observationSpace := ⟨none, none⟩
  operationSpace := ⟨none, none⟩
  properties := none

structure InformationFields where
  entities : Option (List EntID)
  properties : Option (List Text)
  relationships : Option (List Text)

def filledNodes (field : String) (node : KjNode) : Except CheckError (List KjNode) := do
  let items ← childNodes node
  if items = [] then .error (badRequest "Empty Array" field) else .ok items

def expandedName (c : Contexts) (field : String) (node : KjNode) : Except CheckError Text := do
  let s ← stringCheck field node
  .ok (orionldAttributeExpand c s).1

def informationField (c : Contexts) (f : InformationFields) (m : Text × KjNode) :
    Except CheckError InformationFields :=
  if m.1 = "entities".toList then do
    once f.entities "Registration::information::entities"
    let _ ← filledNodes "information::entities" m.2
    let entities ← kjTreeToEntIdVector c m.2
    .ok { f with entities := some entities }
  else if m.1 = "properties".toList then do
    once f.properties "Registration::information::properties"
    let items ← filledNodes "information::properties" m.2
    let names ← items.mapM (expandedName c "PropertyInfo::name")
    .ok { f with properties := some names }
  else if m.1 = "relationships".toList then do
    once f.relationships "Registration::information::relationships"
    let items ← filledNodes "information::relationships" m.2
    let names ← items.mapM (expandedName c "RelationInfo::name")
    .ok { f with relationships := some names }
  else .error (.response 400 "Unknown field inside Registration::information" m.1)

def kjTreeToRegistrationInformation (c : Contexts) :
    List KjNode → Except CheckError DataProvided
  | [] => .error (.response 400 "Empty 'information' in Registration" [])
  | [item] => do
    let members ← childMembers item
    let f ← members.foldlM (informationField c) ⟨none, none, none⟩
    match f with
    | ⟨none, none, none⟩ => .error (.response 400 "Empty Registration::information item" [])
    | f => .ok ⟨f.entities.getD [], f.properties.getD [], f.relationships.getD []⟩
  | _ :: _ :: _ => .error (.response 501
      "More than one item in Registration::information vector" "Not Implemented".toList)

variable (env : Env)

/-- parse8601Time gives -1 for what it does not read. -/
def timeOf (s : Text) : ℚ := (env.parse8601Time s).getD (-1)

structure IntervalFields where
  start : Option Text
  endTime : Option Text

def intervalField (f : IntervalFields) (m : Text × KjNode) : Except CheckError IntervalFields :=
  if m.1 = "start".toList then do
    once f.start "TimeInterval::start"
    let s ← stringCheck "TimeInterval::start" m.2
    .ok { f with start := some s }
  else if m.1 = "end".toList then do
    once f.endTime "TimeInterval::end"
    let s ← stringCheck "TimeInterval::end" m.2
    .ok { f with endTime := some s }
  else .error (.response 400 "Unexpected field in TimeInterval" m.1)

def invalidTime (s : Text) : CheckError := .response 400 "Invalid ISO8601 time string" s

/-- What is left in the interval, and the result. -/
def kjTreeToTimeInterval (members : Members) (interval : TimeInterval) :
    TimeInterval × Except CheckError Unit :=
  match members.foldlM intervalField ⟨none, none⟩ with
  | .error e => (interval, .error e)
  | .ok ⟨none, _⟩ =>
    (interval, .error (badRequest "Missing field in TimeInterval" "TimeInterval::start"))
  | .ok ⟨some _, none⟩ =>
    (interval, .error (badRequest "Missing field in TimeInterval" "TimeInterval::end"))
  | .ok ⟨some start, some endTime⟩ =>
    if timeOf env start = -1 then ({ interval with start := -1 }, .error (invalidTime start))
    else if timeOf env endTime = -1 then
      (⟨timeOf env start, -1⟩, .error (invalidTime endTime))
    else (⟨timeOf env start, timeOf env endTime⟩, .ok ())

def geoJsonTypeName : GeoJsonType → String
  | .point => "Point"
  | .multiPoint => "MultiPoint"
  | .lineString => "LineString"
  | .multiLineString => "MultiLineString"
  | .polygon => "Polygon"
  | .multiPolygon => "MultiPolygon"

/-- Two problems of a geometry have the name of its node for a detail. -/
def geoProblem (name : Text) (p : Problem) : CheckError :=
  if p.1 = "unexpected item in geo-location" ∨
      p.1 = "Mandatory 'type' field missing for GeoJSON Property" then .response 400 p.1 name
  else .response 400 p.1 p.2

def kjTreeToGeoLocation (name : Text) (members : Members) (location : GeoLocation) :
    GeoLocation × Except CheckError Unit :=
  match pcheckGeoPropertyValue (.object members), geoMembers members none none with
  | .error p, _ => (location, .error (geoProblem name p))
  | .ok _, .ok (geoType, coordinates) =>
    (⟨geoType.map fun t => (geoJsonTypeName t).toList, coordinates⟩, .ok ())
  | .ok _, .error p => (location, .error (geoProblem name p))

def objectMembers (field : String) : KjNode → Except CheckError Members
  | .object members => .ok members
  | _ => .error (badRequest "Not a JSON Object" field)

inductive Field where
  | name
  | description
  | information
  | observationInterval
  | managementInterval
  | location
  | observationSpace
  | operationSpace
  | expires
  | endpoint
  deriving DecidableEq, Repr

def Field.text : Field → String
  | .name => "name"
  | .description => "description"
  | .information => "information"
  | .observationInterval => "observationInterval"
  | .managementInterval => "managementInterval"
  | .location => "location"
  | .observationSpace => "observationSpace"
  | .operationSpace => "operationSpace"
  | .expires => "expires"
  | .endpoint => "endpoint"

def allFields : List Field :=
  [.name, .description, .information, .observationInterval, .managementInterval, .location,
    .observationSpace, .operationSpace, .expires, .endpoint]

inductive MemberKind where
  | field (f : Field)
  | readOnly
  | property
  deriving DecidableEq, Repr

def memberKind (name : Text) : MemberKind :=
  match allFields.find? fun f => f.text.toList == name with
  | some f => .field f
  | none =>
    if name = "createdAt".toList ∨ name = "modifiedAt".toList then .readOnly else .property

def Field.label (f : Field) : String := "Registration::" ++ f.text

/-- The error is what a check has left in the response tree. -/
structure Reading where
  registration : Registration
  seen : List Field
  problem : Option CheckError

def unread (problem : Option CheckError) : Except CheckError Unit → Option CheckError
  | .ok _ => problem
  | .error e => some e

def registrationField (r : Registration) (problem : Option CheckError) (f : Field)
    (node : KjNode) : Except CheckError (Registration × Option CheckError) :=
  match f with
  | .name => do
    let s ← stringCheck f.label node
    .ok ({ r with name := s }, problem)
  | .description => do
    let s ← stringCheck f.label node
    .ok ({ r with description := s, descriptionProvided := true }, problem)
  | .information => do
    let items ← itemsCheck f.label node
    let dataProvided ← kjTreeToRegistrationInformation env.toContexts items
    .ok ({ r with dataProvided := dataProvided }, problem)
  | .observationInterval => do
    let members ← objectMembers f.label node
    let result := kjTreeToTimeInterval env members r.observationInterval
    .ok ({ r with observationInterval := result.1 }, unread problem result.2)
  | .managementInterval => do
    let members ← objectMembers f.label node
    let result := kjTreeToTimeInterval env members r.managementInterval
    .ok ({ r with managementInterval := result.1 }, unread problem result.2)
  | .location => do
    let members ← objectMembers f.label node
    let result := kjTreeToGeoLocation f.text.toList members r.location
    .ok ({ r with location := result.1 }, unread problem result.2)
  | .observationSpace => do
    let members ← objectMembers f.label node
    let result := kjTreeToGeoLocation f.text.toList members r.observationSpace
    .ok ({ r with observationSpace := result.1 }, unread problem result.2)
  | .operationSpace => do
    let members ← objectMembers f.label node
    let result := kjTreeToGeoLocation f.text.toList members r.operationSpace
    .ok ({ r with operationSpace := result.1 }, unread problem result.2)
  | .expires => do
    let s ← stringCheck f.label node
    if timeOf env s = -1 then .error (badRequest "Invalid DateTime value" f.label)
    else .ok ({ r with expires := timeOf env s }, problem)
  | .endpoint => do
    let s ← stringCheck f.label node
    .ok ({ r with url := s }, problem)

def duplicated (f : Field) : CheckError := badRequest "Duplicated field" f.label

def registrationMember (s : Reading) (m : Text × KjNode) : Except CheckError Reading :=
  match memberKind m.1 with
  | .field f =>
    if f ∈ s.seen then .error (duplicated f)
    else do
      let result ← registrationField env s.registration s.problem f m.2
      .ok ⟨result.1, s.seen ++ [f], result.2⟩
  | .readOnly => .ok s
  | .property =>
    let properties := s.registration.properties.getD []
    let name := (orionldAttributeExpand env.toContexts m.1).1
    .ok { s with registration :=
      { s.registration with properties := some (properties ++ [(name, m.2)]) } }

structure Post where
  payloadId : Option Text
  payloadType : Option Text
  members : Members
  randomId : Text
  special : ∀ m ∈ members, m.1 ≠ "id".toList ∧ m.1 ≠ "type".toList

def registrationId (p : Post) : Text :=
  p.payloadId.getD ("urn:ngsi-ld:ContextSourceRegistration:".toList ++ p.randomId)

def idCheck (p : Post) : Except CheckError Unit :=
  if pcheckUri (registrationId p) then .ok ()
  else .error (.response 400 "Registration::id is not a URI" (registrationId p))

def typeCheck (p : Post) : Except CheckError Unit :=
  match p.payloadType with
  | none => .error (badRequest "Mandatory field missing" "Registration::type")
  | some type =>
    if type = "ContextSourceRegistration".toList then .ok ()
    else .error (.response 400
      "Registration::type must have a value of /ContextSourceRegistration/" type)

def kjTreeToRegistration (p : Post) : Except CheckError Reading := do
  idCheck p
  typeCheck p
  p.members.foldlM (registrationMember env) ⟨emptyRegistration (registrationId p), [], none⟩

/-- What the database does: whether a registration with the id is found, and whether an
insert succeeds. -/
structure Database where
  found : Text → Bool
  inserts : Bool

inductive Outcome where
  | crashed
  | answered (httpStatusCode : ℕ) (responseTree : Option CheckError)
      (inserted : Option Registration)

def refused : CheckError → Outcome
  | .response status title details => .answered status (some (.response status title details)) none
  | .fault => .crashed

def orionldPostRegistrations (db : Database) (p : Post) : Outcome :=
  match p.payloadId.filter db.found with
  | some id => refused (.response 400 "Registration already exists" id)
  | none =>
    match kjTreeToRegistration env p with
    | .error e => refused e
    | .ok r => .answered 201 r.problem (if db.inserts then some r.registration else none)

end KjTreeToRegistration
