import OrionLd.AttributeNames
import OrionLd.MongoCppLegacyCodec
import OrionLd.OrionldPatchAttribute
import OrionLd.OrionldPostEntity

/-! POST /ngsi-ld/v1/entities: orionldPostEntities, datasetInstances and pcheckEntity. An attribute
given as an array is stored in @datasets as the array of its instances that have a datasetId, and an
object that has one as that object. The id and the type are already taken out of the payload. -/
namespace OrionldPostEntities

open KjTree KjTreeToContextAttribute MongoEntity AttributeNames
open OrionldPostEntity (PostError badRequest)
open OrionldPatchAttribute

structure StoredEntity where
  attrs : List (Text × StoredAttribute)
  attrNames : List Text
  datasets : Option Members

def onlyOnceNames : List String :=
  ["location", "observationSpace", "operationSpace", "createdAt", "modifiedAt"]

def isString : KjNode → Bool
  | .string _ => true
  | _ => false

def pcheckEntityMembers : List Text → Members → Except PostError Unit
  | _, [] => .ok ()
  | seen, (name, node) :: members =>
    if onlyOnceNames.any (fun n => n.toList == name) then
      if seen.contains name then .error (badRequest "Duplicated field" name)
      else if isTimestamp name && !isString node then
        .error (badRequest "Not a JSON String" name)
      else pcheckEntityMembers (name :: seen) members
    else if pcheckEntityName name then pcheckEntityMembers seen members
    else .error (badRequest "Invalid Property/Relationship name" name)

def pcheckEntity (payloadId payloadType : Option Text) (members : Members) :
    Except PostError (Text × Text) :=
  match payloadId, payloadType with
  | none, _ => .error (badRequest "Entity id is missing" "The 'id' field is mandatory".toList)
  | some id, none =>
    .error (.response 400 ("Entity - " ++ String.ofList id) "The 'type' field is mandatory".toList)
  | some id, some type => do
    pcheckEntityMembers [] members
    .ok (id, type)

def entityCheck (id type : Text) (present : Bool) : Except PostError Unit :=
  if !pcheckUri id then
    .error (badRequest "Invalid Entity id"
      "The id specified cannot be resolved to a URL or URN".toList)
  else match shortNameDetail type with
    | some detail => .error (badRequest "Invalid Entity Type" detail.toList)
    | none =>
      if present then .error (.response 409 "Entity already exists" id) else .ok ()

variable (env : Env)

def timestamped (timestamp : ℚ) (members : Members) : KjNode :=
  .object (members ++ [("createdAt".toList, .float timestamp),
    ("modifiedAt".toList, .float timestamp)])

def instanceCheck (instP : KjNode) : Except PostError Unit :=
  match pcheckAttribute env [] none true (membersOf instP) with
  | .ok _ => .ok ()
  | .error r => .error (badRequest r.title r.details)

def datasetInstances (timestamp : ℚ) : Option Members → List KjNode →
    Except PostError (List KjNode × Option Members)
  | default, [] => .ok ([], default)
  | default, instP :: instances => do
    instanceCheck env instP
    match (membersOf instP).lookup "datasetId".toList with
    | some (.string id) =>
      if pcheckUri id then do
        let (left, default) ← datasetInstances timestamp default instances
        .ok (timestamped timestamp (membersOf instP) :: left, default)
      else .error (badRequest "Not a URI" "datasetId".toList)
    | some _ => .error (badRequest "Not a JSON String" "datasetId".toList)
    | none =>
      match default with
      | none => datasetInstances timestamp (some (membersOf instP)) instances
      | some _ => .error (badRequest "Invalid payload data"
          "more that one instance without datasetId".toList)

structure PostState where
  datasets : Members
  contextAttributeVector : List ContextAttribute

def PostState.store (s : PostState) (name : Text) (slot : KjNode) : PostState :=
  { s with datasets := s.datasets ++ [(name, slot)] }

def postObject (timestamp : ℚ) (s : PostState) (name : Text) (node : KjNode) :
    Except PostError PostState :=
  match kjLookup node "type" with
  | none => .error (badRequest "Attribute without type" name)
  | some (.string _) =>
    match kjLookup node "datasetId" with
    | some (.string id) =>
      if pcheckUri id then
        .ok (s.store (databaseKey env.toContexts name) (timestamped timestamp (membersOf node)))
      else .error (badRequest "Not a URI" "datasetId".toList)
    | some _ => .error (badRequest "Not a JSON String" "datasetId".toList)
    | none =>
      match kjTreeToContextAttribute env (eqForDot name) node with
      | .ok ca => .ok { s with contextAttributeVector := s.contextAttributeVector ++ [ca] }
      | .error (.refused _ title details) => .error (badRequest title details)
      | .error .fault => .error .fault
  | some _ => .error (badRequest "Attribute type must be a JSON string" name)

/-- The default instance of an array goes on as an object that is named after the array. -/
def postAttribute (timestamp : ℚ) (s : PostState) (m : Text × KjNode) :
    Except PostError PostState :=
  match m.2 with
  | .array items => do
    let (left, default) ← datasetInstances env timestamp none items
    let s := s.store (databaseKey env.toContexts m.1) (.array left)
    match default with
    | none => .ok s
    | some members =>
      postObject env timestamp s (databaseKey env.toContexts m.1) (.object members)
  | node => if isTimestamp m.1 then .ok s else postObject env timestamp s m.1 node

def postAttributes (timestamp : ℚ) : PostState → Members → Except PostError PostState
  | s, [] => .ok s
  | s, m :: members => do
    let s ← postAttribute env timestamp s m
    postAttributes timestamp s members

def throughCodec (members : Members) : Members :=
  MongoCppLegacyCodec.objectToKjTree (MongoCppLegacyCodec.kjTreeToBsonObject members)

def createEntity (s : PostState) : StoredEntity where
  attrs := s.contextAttributeVector.map fun ca => (dotForEq ca.name, newAttribute env ca)
  attrNames := s.contextAttributeVector.map ContextAttribute.name
  datasets := if s.datasets.isEmpty then none else some (throughCodec s.datasets)

/-- The last parameter says whether mongoUpdateContext accepts the attributes. -/
def orionldPostEntities (accepts : Text → List ContextAttribute → Bool)
    (present : Text → Bool) (timestamp : ℚ) (payloadId payloadType : Option Text)
    (requestTree : KjNode) :
    Except PostError (Text × StoredEntity) :=
  match requestTree with
  | .object members => do
    let (id, type) ← pcheckEntity payloadId payloadType members
    entityCheck id type (present id)
    let s ← postAttributes env timestamp ⟨[], []⟩ members
    if accepts id s.contextAttributeVector then .ok (id, createEntity env s)
    else .error (badRequest "Internal Error" "Error from Mongo-DB backend".toList)
  | _ => .error (badRequest "Not a JSON Object" "toplevel".toList)

end OrionldPostEntities
