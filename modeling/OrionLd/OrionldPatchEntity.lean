import OrionLd.MongoEntity

/-! PATCH /ngsi-ld/v1/entities/*/attrs: orionldPatchEntity. The stored entity is read back as a
tree, the attributes of the payload take the place of the stored ones, and the whole tree is
converted by the function that checks new client input. -/
namespace OrionldPatchEntity

open KjTree OrionldContextItem KjTreeToContextAttribute FieldList MongoEntity

def valueName (isRelationship : Bool) : Text :=
  if isRelationship then "object".toList else "value".toList

def stampMember (name : String) (t : Option ℚ) : Members :=
  (t.map fun t => (name.toList, KjNode.float t)).toList

def metadataTree (md : StoredMetadata) : KjNode :=
  .object (stampMember "createdAt" md.createdAt ++ stampMember "modifiedAt" md.modifiedAt ++
    ((if md.type = [] then [] else [("type".toList, .string md.type)]) ++
      [(valueName (md.type == "Relationship".toList), dbDataToKjTree md.value)]))

def metadataTrees (md : List (Text × StoredMetadata)) : KjNode :=
  .object (md.map fun f => (f.1, metadataTree f.2))

def attributeTree (a : StoredAttribute) : KjNode :=
  .object [(valueName (a.type == .relationship), dbDataToKjTree a.value),
    ("type".toList, .string a.type.name.toList), ("md".toList, metadataTrees a.md),
    ("mdNames".toList, .array (a.mdNames.map .string)), ("creDate".toList, .float a.creDate),
    ("modDate".toList, .float a.modDate)]

def mongoCppLegacyEntityLookup (e : Entity) : Members :=
  e.attrs.map fun f => (f.1, attributeTree f.2)

structure NotUpdated where
  attributeName : Text
  reason : Text
  deriving DecidableEq, Repr

inductive PatchError where
  | response (httpStatusCode : ℕ) (title : String) (details : Text)
  | fault
  deriving DecidableEq, Repr

variable (env : Env)

structure CheckedFields where
  type : Option AttributeType
  value : Bool
  object : Bool

/-- The loop of attributeCheck. A repeated field or a type that is no string ends it with the
detail unset. -/
def checkMembers : Members → CheckedFields → Except Text CheckedFields
  | [], f => .ok f
  | (name, node) :: members, f =>
    if name = "type".toList then
      if f.type.isSome then .error "No Detail".toList
      else match node with
        | .string s =>
          match attributeType s with
          | some t => checkMembers members { f with type := some t }
          | none => .error s
        | _ => .error "No Detail".toList
    else if name = "value".toList then
      if f.value then .error "No Detail".toList
      else checkMembers members { f with value := true }
    else if name = "object".toList then
      if f.object then .error "No Detail".toList
      else checkMembers members { f with object := true }
    else checkMembers members f

def attributeCheck : KjNode → Except Text Unit
  | .object members => do
    match ← checkMembers members ⟨none, false, false⟩ with
    | ⟨none, _, _⟩ => .error "attribute type".toList
    | ⟨some .relationship, _, object⟩ =>
      if object then .ok () else .error "Mandatory field missing: Relationship object".toList
    | ⟨some _, value, _⟩ =>
      if value then .ok () else .error "Mandatory field missing: Property value".toList
  | _ => .error "Attribute must be an object".toList

structure PatchState where
  inDbAttrs : Members
  updated : List Text
  notUpdated : List NotUpdated
  newAttrs : ℕ

def PatchState.refuse (s : PatchState) (name reason : Text) : PatchState :=
  { s with notUpdated := s.notUpdated ++ [⟨name, reason⟩] }

/-- Names of the payload that are not attributes, with the reason given for them. -/
def builtInReason (name : Text) : Option String :=
  if isTimestamp name then some "built-in timestamps are ignored"
  else if name = "id".toList ∨ name = "@id".toList then
    some "the ID of an entity cannot be altered"
  else if name = "type".toList ∨ name = "@type".toList then
    some "the TYPE of an entity cannot be altered"
  else none

def longName (name : Text) : Text := (orionldAttributeExpand env.toContexts name).1

def mergeMember (s : PatchState) (m : Text × KjNode) : PatchState :=
  match builtInReason m.1 with
  | some reason => s.refuse m.1 reason.toList
  | none =>
    match attributeCheck m.2 with
    | .error detail => s.refuse m.1 detail
    | .ok _ =>
      let eqName := dotForEq (longName env m.1)
      if (s.inDbAttrs.lookup eqName).isNone then s.refuse m.1 "attribute doesn't exist".toList
      else
        { s with
          inDbAttrs := kjChildRemove s.inDbAttrs eqName ++ [(longName env m.1, m.2)]
          updated := s.updated ++ [m.1]
          newAttrs := s.newAttrs + 1 }

/-- The attributes of the replacing entity, and those that do not convert. -/
def convertTree : Members → Except PatchError (List ContextAttribute × List NotUpdated)
  | [] => .ok ([], [])
  | (name, node) :: members =>
    match kjTreeToContextAttribute env (eqForDot name) node with
    | .ok ca => do
      let (cas, notUpdated) ← convertTree members
      .ok (ca :: cas, notUpdated)
    | .error (.refused _ _ _) => do
      let (cas, notUpdated) ← convertTree members
      .ok (cas, ⟨longName env (eqForDot name), "Error".toList⟩ :: notUpdated)
    | .error .fault => .error .fault

structure PatchResult where
  /-- The attributes of the entity handed to mongoUpdateContext, when there is one. -/
  replacing : Option (List ContextAttribute)
  updated : List Text
  notUpdated : List NotUpdated

def patchMembers (e : Entity) (members : Members) : Except PatchError PatchResult := do
  let s := members.foldl (mergeMember env) ⟨mongoCppLegacyEntityLookup e, [], [], 0⟩
  if s.newAttrs = 0 then .ok ⟨none, s.updated, s.notUpdated⟩
  else do
    let (cas, dropped) ← convertTree env s.inDbAttrs
    .ok ⟨some cas, s.updated, s.notUpdated ++ dropped⟩

def orionldPatchEntity (dbEntity : Option Entity) (entityId : Text) (requestTree : KjNode) :
    Except PatchError PatchResult :=
  if !pcheckUri entityId then
    .error (.response 400 "Entity ID must be a valid URI" entityId)
  else match requestTree with
    | .object members =>
      match dbEntity with
      | none => .error (.response 404 "Entity does not exist" entityId)
      | some e => patchMembers env e members
    | node => .error (.response 400 "Not a JSON Object" (kjValueType node).toList)

end OrionldPatchEntity
