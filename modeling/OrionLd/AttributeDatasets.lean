import OrionLd.OrionldPostEntities
import OrionLd.StepSystem

/-! The instances of an attribute in @datasets: orionldPatchAttribute with a datasetId,
orionldDeleteAttribute and the database functions that they use, and the requests that write the
field as the steps of one system. The paths of the queries are cut to buffers of fixed sizes. -/
namespace AttributeDatasets

open KjTree KjTreeToContextAttribute MongoEntity AttributeNames FieldList OrionldPostEntities
open OrionldPostEntity (PostError badRequest)
open OrionldPatchAttribute

/-- With what a double leaves in the other members of the union of a node. -/
structure UnionEnv extends Env where
  doubleAsInteger : ℚ → ℤ
  doubleAsBoolean : ℚ → Bool

/-- What a buffer leaves of datasetId in the path of the instances of an attribute. -/
def instanceField (buffer : ℕ) (name : Text) : Text :=
  ("datasetId".toList).take (buffer - 1 - ("@datasets.".length + name.length + 1))

def equals (s : Text) : KjNode → Bool
  | .string t => t == s
  | .array items => items.any fun i => match i with
    | .string t => t == s
    | _ => false
  | _ => false

def hasField (field s : Text) (node : KjNode) : Bool :=
  ((membersOf node).lookup field).any (equals s)

/-- The slot is an array of instances or the one instance. -/
def slotMatches (field s : Text) : KjNode → Bool
  | .array items => items.any (hasField field s)
  | node => hasField field s node

def datasetSlot (buffer : ℕ) (e : StoredEntity) (name datasetId : Text) : Option KjNode :=
  if instanceField buffer name = [] then none
  else ((e.datasets.getD []).lookup name).filter (slotMatches (instanceField buffer name) datasetId)

def dbDatasetGet : StoredEntity → Text → Text → Option KjNode := datasetSlot 256

/-- What is found is only tested for being there. -/
def dbEntityAttributeInstanceLookup (e : StoredEntity) (name datasetId : Text) : Bool :=
  (datasetSlot 512 e name datasetId).isSome

def dbEntityAttributeWithDatasetsLookup (e : StoredEntity) (name : Text) : Bool :=
  ((e.datasets.getD []).lookup (name.take 501)).isSome

def dbEntityAttributeLookup (e : StoredEntity) (attrName : Text) : Bool :=
  e.attrNames.contains attrName

def dbEntityFieldReplace (e : StoredEntity) (name : Text) (slot : KjNode) : StoredEntity :=
  { e with datasets := some (put name ((MongoCppLegacyCodec.kept slot).getD slot)
      (e.datasets.getD [])) }

def dbEntityFieldDelete (e : StoredEntity) (name : Text) : StoredEntity :=
  { e with datasets := e.datasets.map (remove [name.take 501]) }

def dbEntityAttributeDelete (e : StoredEntity) (name : Text) : StoredEntity :=
  { e with
    attrs := remove [name] e.attrs
    attrNames := e.attrNames.filter fun n => n != eqForDot name }

variable (env : UnionEnv)

def datasetIdOf (instP : KjNode) : Except PostError Text :=
  match kjLookup instP "datasetId" with
  | some (.string id) => .ok id
  | _ => .error .fault

/-- The union of the node is set as a double, whatever its type. -/
def setDouble (x : ℚ) : KjNode → Except PostError KjNode
  | .float _ => .ok (.float x)
  | .int _ => .ok (.int (env.doubleAsInteger x))
  | .bool _ => .ok (.bool (env.doubleAsBoolean x))
  | .null => .ok .null
  | _ => .error .fault

def setModifiedAt : Members → Except PostError Members
  | [] => .ok [("modifiedAt".toList, .float env.requestTime)]
  | (name, node) :: members =>
    if name = "modifiedAt".toList then do
      let node ← setDouble env env.requestTime node
      .ok ((name, node) :: members)
    else do
      let members ← setModifiedAt members
      .ok ((name, node) :: members)

def removeIncoming (incoming dbInstance : Members) : Members :=
  incoming.foldl (fun ms m => kjChildRemove ms m.1) dbInstance

/-- Members named again are removed, then all that is incoming is added, and keeps modifiedAt from
being set. -/
def mergeInstance (incoming : Members) (dbInstance : Members) : Except PostError Members := do
  let dbInstance ←
    if incoming.any (fun m => m.1 == "modifiedAt".toList) then .ok dbInstance
    else setModifiedAt env dbInstance
  .ok (removeIncoming incoming dbInstance ++ incoming)

def mergeNode (incoming : Members) : KjNode → Except PostError KjNode
  | .object members => do
    let members ← mergeInstance env incoming members
    .ok (.object members)
  | _ => .error .fault

/-- The last instance of the datasetId is changed, and all instances need one. -/
def changeLast (change : KjNode → Except PostError KjNode) (datasetId : Text) :
    List KjNode → Except PostError (Option (List KjNode))
  | [] => .ok none
  | instP :: instances => do
    let id ← datasetIdOf instP
    match ← changeLast change datasetId instances with
    | some instances => .ok (some (instP :: instances))
    | none =>
      if id = datasetId then do
        let instP ← change instP
        .ok (some (instP :: instances))
      else .ok none

/-- The merged slot. An array in which no instance was found is taken for the instance. -/
def patchSlot (incoming : Members) (datasetId : Text) : KjNode → Except PostError KjNode
  | .array instances => do
    match ← changeLast (mergeNode env incoming) datasetId instances with
    | some instances => .ok (.array instances)
    | none => .error .fault
  | slot => mergeNode env incoming slot

def withoutFirst (name : String) (members : Members) : Members :=
  kjChildRemove members name.toList

def orionldPatchAttributeWithDatasetId (e : StoredEntity) (attrNameExpandedEq : Text)
    (inAttribute : Members) (datasetId : Text) : Except PostError StoredEntity :=
  match pcheckAttribute env.toEnv [] none false inAttribute with
  | .error r => .error (badRequest r.title r.details)
  | .ok _ =>
    match dbDatasetGet e attrNameExpandedEq datasetId with
    | none => .error (.response 404 "attribute dataset not found" datasetId)
    | some slot => do
      let slot ← patchSlot env (withoutFirst "datasetId" inAttribute) datasetId slot
      .ok (dbEntityFieldReplace e attrNameExpandedEq slot)

/-- A payload without a datasetId goes another way, which does not touch @datasets. -/
def orionldPatchAttribute (dbEntity : Option StoredEntity) (entityId attrName : Text)
    (members : Members) : Except PostError (Option StoredEntity) :=
  if !pcheckUri entityId then .error (badRequest "Invalid Entity ID" "Not a URI".toList)
  else match shortNameDetail attrName with
    | some detail => .error (badRequest "Invalid Attribute Name" detail.toList)
    | none =>
      let inAttribute := withoutFirst "modifiedAt" (withoutFirst "createdAt" members)
      match inAttribute.lookup "datasetId".toList with
      | none => .ok none
      | some (.string id) =>
        if pcheckUri id then do
          let e ← orionldPatchAttributeWithDatasetId env (dbEntity.getD ⟨[], [], none⟩)
            (databaseKey env.toContexts attrName) inAttribute id
          .ok (some e)
        else .error (badRequest "Not a URI" "datasetId".toList)
      | some _ => .error (badRequest "Not a JSON String" "datasetId".toList)

variable (env : Env)

def removeFirst (datasetId : Text) : List KjNode → Except PostError (Option (List KjNode))
  | [] => .ok none
  | instP :: instances =>
    match kjLookup instP "datasetId" with
    | some (.string id) =>
      if id = datasetId then .ok (some instances)
      else do
        let left ← removeFirst datasetId instances
        .ok (left.map (instP :: ·))
    | some _ => .error .fault
    | none => do
      let left ← removeFirst datasetId instances
      .ok (left.map (instP :: ·))

def uriDetail (uri : Text) : String :=
  if uri = [] then "Empty URI"
  else if ':' ∈ uri then "invalid character in URI"
  else "Invalid URI: no colon"

def notFound (title : String) (details : Text) : PostError := .response 404 title details

def orionldDeleteAttributeDatasetId (e : StoredEntity) (attrNameExpanded eqName datasetId : Text) :
    Except PostError StoredEntity :=
  match dbDatasetGet e eqName datasetId with
  | none => .error (notFound "Attribute datasets not found" attrNameExpanded)
  | some (.array instances) => do
    match ← removeFirst datasetId instances with
    | some instances => .ok (dbEntityFieldReplace e eqName (.array instances))
    | none => .error (notFound "Attribute dataset not found" datasetId)
  | some slot =>
    match kjLookup slot "datasetId" with
    | some (.string id) =>
      if id = datasetId then .ok (dbEntityFieldDelete e eqName)
      else .error (notFound "Attribute dataset not found" datasetId)
    | some _ => .error .fault
    | none => .error (notFound "Attribute dataset not found" datasetId)

/-- The entity, or an empty one, on which all lookups fail. -/
def orionldDeleteAttribute (dbEntity : Option StoredEntity) (entityId attrName : Text)
    (datasetId : Option Text) (deleteAll : Bool) : Except PostError StoredEntity :=
  let e := dbEntity.getD ⟨[], [], none⟩
  let attrNameExpanded := AttributeNames.longName env.toContexts attrName
  let eqName := dotForEq attrNameExpanded
  if datasetId.isSome && deleteAll then
    .error (badRequest "Invalid URI param combination"
      "both datasetId and deleteAll are set".toList)
  else if !pcheckUri entityId then
    .error (badRequest "Invalid Entity ID" (uriDetail entityId).toList)
  else match shortNameDetail attrName, datasetId with
    | some detail, _ => .error (badRequest "Invalid Attribute Name" detail.toList)
    | none, some id =>
      if dbEntityAttributeInstanceLookup e eqName id then
        orionldDeleteAttributeDatasetId e attrNameExpanded eqName id
      else .error (notFound "Entity/Attribute/datasetId not found" attrNameExpanded)
    | none, none =>
      if deleteAll then
        if dbEntityAttributeWithDatasetsLookup e eqName then
          .ok (dbEntityAttributeDelete (dbEntityFieldDelete e eqName) eqName)
        else .error (notFound "Entity/Attribute not found" attrNameExpanded)
      else if dbEntityAttributeLookup e attrNameExpanded then
        .ok (dbEntityAttributeDelete e eqName)
      else .error (notFound "Entity/Attribute not found" attrNameExpanded)

def slotItems : KjNode → List KjNode
  | .array items => items
  | .object members => members.map Prod.snd
  | _ => []

def withItems (slot : KjNode) (items : List KjNode) : KjNode :=
  match slot with
  | .object members => .object ((members.map Prod.fst).zip items)
  | _ => .array items

def withSlots : Members → List (Text × List KjNode) → Members
  | _, [] => []
  | [], (name, items) :: slots => (name, .array items) :: withSlots [] slots
  | (_, old) :: members, (name, items) :: slots =>
    (name, withItems old items) :: withSlots members slots

def entityOf (e : StoredEntity) : Entity :=
  ⟨e.attrs, e.attrNames, e.datasets.map fun d => d.map fun f => (f.1, slotItems f.2)⟩

def ofEntity (old : StoredEntity) (e : Entity) : StoredEntity :=
  ⟨e.attrs, e.attrNames,
    e.datasets.map fun d => throughCodec (withSlots (old.datasets.getD []) d)⟩

def postEntity (env : Env) (merge : MergeAttrInfo) (noOverwrite : Bool)
    (dbEntity : Option StoredEntity) (entityId : Text) (requestTree : KjNode) :
    Except PostError StoredEntity := do
  let r ← OrionldPostEntity.orionldPostEntity env merge noOverwrite (dbEntity.map entityOf)
    entityId requestTree
  .ok (ofEntity (dbEntity.getD ⟨[], [], none⟩) r.entity)

inductive Request where
  | postEntities (timestamp : ℚ) (payloadId payloadType : Option Text) (requestTree : KjNode)
  | postEntity (noOverwrite : Bool) (entityId : Text) (requestTree : KjNode)
  | patchAttribute (entityId attrName : Text) (inAttribute : Members)
  | deleteAttribute (entityId attrName : Text) (datasetId : Option Text) (deleteAll : Bool)

structure Event where
  env : UnionEnv
  request : Request

abbrev Db := List (Text × StoredEntity)

variable (accepts : Text → List ContextAttribute → Bool) (merge : MergeAttrInfo)

def written (db : Db) (event : Event) : Except PostError (Option (Text × StoredEntity)) :=
  match event.request with
  | .postEntities timestamp payloadId payloadType requestTree => do
    let created ← orionldPostEntities event.env.toEnv accepts (fun id => (db.lookup id).isSome)
      timestamp payloadId payloadType requestTree
    .ok (some created)
  | .postEntity noOverwrite entityId requestTree => do
    let e ← postEntity event.env.toEnv merge noOverwrite (db.lookup entityId) entityId requestTree
    .ok (some (entityId, e))
  | .patchAttribute entityId attrName inAttribute => do
    let e ← orionldPatchAttribute event.env (db.lookup entityId) entityId attrName inAttribute
    .ok (e.map fun e => (entityId, e))
  | .deleteAttribute entityId attrName datasetId deleteAll => do
    let e ← orionldDeleteAttribute event.env.toEnv (db.lookup entityId) entityId attrName
      datasetId deleteAll
    .ok (some (entityId, e))

def step (db : Db) (event : Event) : Db :=
  match written accepts merge db event with
  | .ok (some (id, e)) => put id e db
  | _ => db

end AttributeDatasets
