import OrionLd.EntityDocument

/-! GET /entities/{id}: mongoCppLegacyEntityRetrieve, which makes the answer out of the tree of the
document by renaming, lifting and removing members. The request has no attribute list and no
geometry property, and the entity no @datasets. `none` is the return of NULL, or the end of the
process at a NULL pointer. -/
namespace MongoCppLegacyEntityRetrieve

open KjTree OrionldContextItem MongoCppLegacyCodec RegistrationDocument EntityDocument

/-- The first member of the name, as kjLookup finds it, gets another name. -/
def renameFirst (name newName : String) (members : Members) : Members :=
  match members with
  | [] => []
  | m :: members =>
    if m.1 == name.toList then (newName.toList, m.2) :: members
    else m :: renameFirst name newName members

def changeFirst (name : String) (change : KjNode → KjNode) (members : Members) : Members :=
  match members with
  | [] => []
  | m :: members =>
    if m.1 == name.toList then (m.1, change m.2) :: members
    else m :: changeFirst name change members

def removeFirst (name : String) (members : Members) : Members :=
  kjChildRemove members name.toList

/-- A lookup in a node that is not an object finds nothing. -/
def onMembers (change : Members → Members) : KjNode → KjNode
  | .object members => .object (change members)
  | node => node

def childrenOf : KjNode → Members
  | .object members => members
  | _ => []

variable (env : DateEnv) (o : Options)

def timestampToString : KjNode → KjNode
  | .float f => .string (numberToDate env f)
  | .int i => .string (numberToDate env i)
  | node => node

def firstChild : KjNode → Option KjNode
  | .object [] => none
  | .object (m :: _) => some m.2
  | node => some node

def metadataFix (m : Text × KjNode) : Option ((Text × KjNode) × Bool) :=
  let name := orionldContextItemAliasLookup env.toContexts (eqForDot m.1)
  if name = "observedAt".toList then
    (firstChild m.2).map fun node => ((name, timestampToString env node), true)
  else if name = "unitCode".toList then (firstChild m.2).map fun node => ((name, node), true)
  else match kjLookup m.2 "type" with
    | some (.string type) =>
      if type = "Relationship".toList then
        some ((name, onMembers (renameFirst "value" "object") m.2), true)
      else some ((name, m.2), true)
    | _ => some ((name, m.2), false)

def metadatasFix : Members → Option (Members × Bool)
  | [] => some ([], true)
  | m :: metadatas => do
    let (fixed, goesOn) ← metadataFix env m
    if !goesOn then return (fixed :: metadatas, false)
    let (rest, done) ← metadatasFix metadatas
    return (fixed :: rest, done)

def dateField (name newName : String) (attr : Members) : Members :=
  if o.sysAttrs then renameFirst name newName attr else removeFirst name attr

/-- The four steps, once the type is known. -/
def datamodelSteps (relationship : Bool) (attr : Members) : Option Members :=
  if relationship && (attr.lookup "value".toList).isNone then some attr
  else
    let attr := if relationship then renameFirst "value" "object" attr else attr
    let attr := dateField o "modDate" "modifiedAt" (dateField o "creDate" "createdAt" attr)
    let attr := removeFirst "mdNames" attr
    match attr.lookup "md".toList with
    | none => some attr
    | some md => do
      let (metadatas, done) ← metadatasFix env (childrenOf md)
      if done then return removeFirst "md" attr ++ metadatas
      return changeFirst "md" (fun _ => .object metadatas) attr

/-- The attribute as it is when the function returns, as its result is not used. -/
def datamodelAttributeFix (attr : Members) : Option Members :=
  match attr.lookup "type".toList with
  | some (.string type) => datamodelSteps env o (type == "Relationship".toList) attr
  | _ => some attr

def compactString (c : Contexts) : KjNode → KjNode
  | .string s => .string (orionldContextItemAliasLookup c s)
  | node => node

def compactValue (c : Contexts) : KjNode → KjNode
  | .string s => .string (orionldContextItemAliasLookup c s)
  | .array items => .array (items.map (compactString c))
  | node => node

def compactAttribute (c : Contexts) (m : Text × KjNode) : Text × KjNode :=
  if m.1 = "location".toList then m
  else
    let attrName := eqForDot m.1
    (orionldContextItemAliasLookup c attrName,
      if valueMayBeCompacted c attrName then
        onMembers (changeFirst "value" (compactValue c)) m.2
      else m.2)

def stampsFix (members : Members) : Members :=
  if o.sysAttrs then
    changeFirst "modifiedAt" (timestampToString env)
      (changeFirst "createdAt" (timestampToString env) members)
  else removeFirst "modifiedAt" (removeFirst "createdAt" members)

def presentationAttributeFix (attr : Members) : Option KjNode :=
  if o.keyValues then
    match attr.lookup "type".toList with
    | some (.string _) => (attr.lookup "value".toList).or (attr.lookup "object".toList)
    | _ => none
  else some (.object ((stampsFix env o attr).map fun m =>
    (m.1, onMembers (stampsFix env o) m.2)))

def datamodelPass (attr : Members) : Option Members :=
  if o.keyValues then some attr else datamodelAttributeFix env o attr

/-- An attribute on its way through both loops. -/
def attributeFix (m : Text × KjNode) : Option (Text × KjNode) := do
  let attr ← datamodelPass env o (childrenOf m.2)
  let m := compactAttribute env.toContexts (m.1, .object attr)
  let shown ← presentationAttributeFix env o (childrenOf m.2)
  return (m.1, shown)

def movedDate (name newName : String) (dbTree : Members) : Members :=
  ((dbTree.lookup name.toList).map fun node =>
    (newName.toList, timestampToString env node)).toList

def retFields : List Text :=
  ["_id".toList, "attrs".toList] ++
    if o.sysAttrs then ["creDate".toList, "modDate".toList] else []

def dbTree (e : StoredEntity) : Members :=
  objectToKjTree ((entityDoc e).filter fun f => (retFields o).contains f.1)

def mongoCppLegacyEntityRetrieve (e : StoredEntity) : Option Members := do
  let dbAttrsP ← (dbTree o e).lookup "attrs".toList
  let attrTree ← (childrenOf dbAttrsP).mapM (attributeFix env o)
  let idP ← (dbTree o e).lookup "_id".toList
  let _ ← kjLookup idP "type"
  let id := changeFirst "type" (compactString env.toContexts)
    (removeFirst "servicePath" (childrenOf idP))
  let dates := if o.sysAttrs then
    movedDate env "creDate" "createdAt" (dbTree o e) ++
      movedDate env "modDate" "modifiedAt" (dbTree o e) else []
  return id ++ dates ++ attrTree

end MongoCppLegacyEntityRetrieve
