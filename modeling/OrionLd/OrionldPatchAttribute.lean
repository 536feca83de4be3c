import OrionLd.PcheckGeoQ
import OrionLd.OrionldPatchEntity

/-! PATCH /ngsi-ld/v1/entities/*/attrs/*: orionldPatchAttribute without a datasetId, and
pcheckAttribute. In the stored attribute that is read back the value of a relationship is named
object. The merge looks for it under its other name and gives up when there is none, and its caller
goes on. No request is forwarded. -/
namespace OrionldPatchAttribute

open KjTree OrionldContextItem KjTreeToContextAttribute MongoEntity
open PcheckGeoQ (CheckError badRequest)
open OrionldPatchEntity

/-- The error of the check, and the detail that the caller gets if one is set. -/
structure Refusal where
  title : String
  details : Text
  detail : Option String

def macroRefusal (title field : String) : Refusal := ⟨title, field.toList, none⟩

structure Seen where
  value : Bool
  object : Bool
  observedAt : Bool
  datasetId : Bool

def isRelationship (type : Text) : Bool := type == "Relationship".toList

def uriMember (field : String) : KjNode → Except Refusal Unit
  | .string s => if pcheckUri s then .ok () else .error (macroRefusal "Not a URI" field)
  | _ => .error (macroRefusal "Not a JSON String" field)

def onlyOnce (seen : Bool) (field : String) : Except Refusal Unit :=
  if seen then .error (macroRefusal "Duplicated field" field) else .ok ()

theorem onlyOnce_ok {seen : Bool} {field : String} (h : onlyOnce seen field = .ok ()) :
    seen = false := by
  cases seen
  · rfl
  · cases h

def observedAtMember (env : Env) : KjNode → Except Refusal Unit
  | .string s =>
    if (env.parse8601Time s).isSome then .ok ()
    else .error (macroRefusal "Invalid DateTime value" "observedAt")
  | _ => .error (macroRefusal "Not a JSON String" "observedAt")

def noValueText : String := "Relationships cannot have a 'value' member"
def noObjectText : String := "Only Relationships can have an 'object' member"

/-- A member that is not one of these is a sub-attribute, which is not checked. -/
def pcheckMember (env : Env) (name : Text) (type : Option Text) (f : Seen) (m : Text × KjNode) :
    Except Refusal Seen :=
  if m.1 = "value".toList then do
    onlyOnce f.value "value"
    if type.any isRelationship then .error ⟨noValueText, name, some noValueText⟩
    else .ok { f with value := true }
  else if m.1 = "object".toList then
    if type.any (!isRelationship ·) then .error ⟨noObjectText, name, some noObjectText⟩
    else do
      onlyOnce f.object "object"
      uriMember "object" m.2
      .ok { f with object := true }
  else if m.1 = "observedAt".toList then do
    onlyOnce f.observedAt "observedAt"
    observedAtMember env m.2
    .ok { f with observedAt := true }
  else if m.1 = "datasetId".toList then do
    onlyOnce f.datasetId "datasetId"
    uriMember "datasetId" m.2
    .ok { f with datasetId := true }
  else .ok f

def pcheckMembers (env : Env) (name : Text) (type : Option Text) : Members → Seen →
    Except Refusal Unit
  | [], _ => .ok ()
  | m :: members, f => do
    let f ← pcheckMember env name type f m
    pcheckMembers env name type members f

/-- With the type given, or that of the attribute, whose first type member is then left out of the
loop. -/
def pcheckAttribute (env : Env) (name : Text) (type : Option Text) (typeMandatory : Bool)
    (members : Members) : Except Refusal Unit :=
  match type with
  | some type => pcheckMembers env name (some type) members ⟨false, false, false, false⟩
  | none =>
    match members.lookup "type".toList with
    | some (.string s) =>
      pcheckMembers env name (some s) (kjChildRemove members "type".toList)
        ⟨false, false, false, false⟩
    | some _ => .error ⟨"Attribute type must be a string", name,
        some "Attribute type must be a string"⟩
    | none =>
      if typeMandatory then .error ⟨"Attribute type missing", name, some "attribute type missing"⟩
      else pcheckMembers env name none members ⟨false, false, false, false⟩

/-- pcheckUri of a name that may be a short one: none when it is accepted. -/
def shortNameDetail (name : Text) : Option String :=
  if name = [] then some "Empty URI"
  else if ':' ∈ name then
    if name.all validInUri then none else some "invalid character in URI"
  else if ' ' ∈ name then some "space in shortname"
  else none

structure PatchedMetadata where
  name : Text
  type : Text
  value : Option CompoundValueNode

/-- A ContextAttribute, without a value as long as none is set. -/
structure PatchedAttribute where
  name : Text
  type : Text
  value : Option CompoundValueNode
  creDate : ℚ
  modDate : ℚ
  metadataVector : List PatchedMetadata

def emptyAttribute (name : Text) : PatchedAttribute := ⟨name, [], none, 0, 0, []⟩

inductive Effect where
  | type (s : Text)
  | value (v : CompoundValueNode)
  | creDate (x : ℚ)
  | modDate (x : ℚ)
  | metadata (md : PatchedMetadata)

def PatchedAttribute.apply (ca : PatchedAttribute) : Effect → PatchedAttribute
  | .type s => { ca with type := s }
  | .value v => { ca with value := some v }
  | .creDate x => { ca with creDate := x }
  | .modDate x => { ca with modDate := x }
  | .metadata md => { ca with metadataVector := ca.metadataVector ++ [md] }

variable (env : Env)

def stringOf : KjNode → Except CheckError Text
  | .string s => .ok s
  | _ => .error .fault

def doubleOf : KjNode → ℚ
  | .float f => f
  | .int i => env.integerAsDouble i
  | node => env.integerAsDouble (env.valueAsInteger node)

def firstChild : KjNode → Except CheckError KjNode
  | .object ((_, node) :: _) => .ok node
  | .array (node :: _) => .ok node
  | _ => .error .fault

def observedAtEffect : KjNode → Except CheckError Effect
  | .string s => .ok (.metadata ⟨"observedAt".toList, [],
      some (.number ((env.parse8601Time s).getD (-1)))⟩)
  | node => do
    let child ← firstChild node
    .ok (.metadata ⟨"observedAt".toList, [], some (.number (doubleOf env child))⟩)

def unitCodeEffect : KjNode → Except CheckError Effect
  | .string s => .ok (.metadata ⟨"unitCode".toList, [], some (.string s)⟩)
  | node => do
    let child ← firstChild node
    let s ← stringOf child
    .ok (.metadata ⟨"unitCode".toList, [], some (.string s)⟩)

def metadataItem (md : PatchedMetadata) (m : Text × KjNode) : Except CheckError PatchedMetadata :=
  if m.1 = "value".toList then .ok { md with value := some (kjTreeToCompoundValue m.2) }
  else if m.1 = "object".toList then do
    let s ← stringOf m.2
    .ok { md with value := some (.string s) }
  else if m.1 = "type".toList then do
    let s ← stringOf m.2
    .ok { md with type := s }
  else .ok md

def metadataItems (md : PatchedMetadata) : Members → Except CheckError PatchedMetadata
  | [] => .ok md
  | m :: members => do
    let md ← metadataItem md m
    metadataItems md members

def metadataEffect (name : Text) : KjNode → Except CheckError Effect
  | .object members => do
    let md ← metadataItems ⟨name, [], none⟩ members
    .ok (.metadata md)
  | .array [] => .ok (.metadata ⟨name, [], none⟩)
  | node => if isZero node then .ok (.metadata ⟨name, [], none⟩) else .error .fault

def memberEffect (m : Text × KjNode) : Except CheckError Effect :=
  if m.1 = "type".toList then do
    let s ← stringOf m.2
    .ok (.type s)
  else if m.1 = "value".toList then .ok (.value (kjTreeToCompoundValue m.2))
  else if m.1 = "object".toList then do
    let s ← stringOf m.2
    .ok (.value (.string s))
  else if m.1 = "createdAt".toList then .ok (.creDate (doubleOf env m.2))
  else if m.1 = "modifiedAt".toList then .ok (.modDate (doubleOf env m.2))
  else if m.1 = "observedAt".toList then observedAtEffect env m.2
  else if m.1 = "unitCode".toList then unitCodeEffect m.2
  else metadataEffect m.1 m.2

def memberEffects : Members → Except CheckError (List Effect)
  | [] => .ok []
  | m :: members => do
    let e ← memberEffect env m
    let es ← memberEffects members
    .ok (e :: es)

def kjAttributeToNgsiContextAttribute (name : Text) (inAttribute : Members) :
    Except CheckError PatchedAttribute := do
  let es ← memberEffects env inAttribute
  .ok (es.foldl PatchedAttribute.apply (emptyAttribute name))

/-- The stored sub-attributes that are not there yet, under their decoded names. -/
def mergeMd : Members → List (Text × KjNode) → Members
  | inAttribute, [] => inAttribute
  | inAttribute, (key, node) :: md =>
    if (inAttribute.lookup (eqForDot key)).isSome then mergeMd inAttribute md
    else mergeMd (inAttribute ++ [(eqForDot key, node)]) md

/-- The value and the type are looked up, the creation date and the current time are added. -/
def kjAttributeMerge (inAttribute dbAttribute : Members) (dbType : Text) (dbCreatedAt : ℚ)
    (hasType : Bool) : Members :=
  match inAttribute.lookup "value".toList, dbAttribute.lookup "value".toList with
  | none, none => inAttribute
  | inValue, dbValue =>
    let value := match inValue, dbValue with
      | none, some v => [("value".toList, v)]
      | _, _ => []
    let type := if hasType then [] else [("type".toList, KjNode.string dbType)]
    let inAttribute := inAttribute ++ value ++ type ++
      [("createdAt".toList, .float dbCreatedAt), ("modifiedAt".toList, .float env.requestTime)]
    match dbAttribute.lookup "md".toList with
    | some (.object md) => mergeMd inAttribute md
    | _ => inAttribute

def membersOf : KjNode → Members
  | .object members => members
  | _ => []

def fragmentOf (members : Members) : Members :=
  (kjChildRemove (kjChildRemove members "createdAt".toList) "modifiedAt".toList).map
    fun m => ((orionldSubAttributeExpand env.toContexts m.1).1, m.2)

def typeCheck (attrName : Text) (dbType : Text) : Option KjNode → Except CheckError Unit
  | none => .ok ()
  | some (.string s) =>
    if s = dbType then .ok ()
    else .error (badRequest "Invalid Attribute Type" "attribute type cannot be modified")
  | some _ => .error (.response 400 "Invalid Attribute Type - must be a string" attrName)

def attributeCheck (dbType : Text) (fragment : Members) : Except CheckError Unit :=
  match pcheckAttribute env [] (some dbType) false fragment with
  | .ok _ => .ok ()
  | .error r =>
    match r.detail with
    | some detail => .error (badRequest "Invalid Attribute" detail)
    | none => .error .fault

def patchChecks (entityId attrName : Text) (a : StoredAttribute) (members : Members) :
    Except CheckError Unit :=
  if !pcheckUri entityId then .error (badRequest "Invalid Entity ID" "Not a URI")
  else match shortNameDetail attrName with
    | some detail => .error (badRequest "Invalid Attribute Name" detail)
    | none => do
      typeCheck attrName a.type.name.toList (members.lookup "type".toList)
      attributeCheck env a.type.name.toList (fragmentOf env members)

def patchedAttribute (attrName : Text) (a : StoredAttribute) (members : Members) :
    Except CheckError PatchedAttribute :=
  kjAttributeToNgsiContextAttribute env (orionldAttributeExpand env.toContexts attrName).1
    (kjAttributeMerge env (fragmentOf env members) (membersOf (attributeTree a))
      a.type.name.toList a.creDate (members.lookup "type".toList).isSome)

def notFoundText (entityId attrName eqName : Text) : Text :=
  ("Entity '".toList ++ entityId ++ "', Attribute '".toList ++ attrName ++ "' (".toList ++
    eqName ++ ")".toList).take 1023

/-- Without a datasetId, with what dbEntityAttributeLookup has found. -/
def orionldPatchAttribute (entityId attrName : Text) (dbAttribute : Option StoredAttribute)
    (members : Members) : Except CheckError PatchedAttribute :=
  match dbAttribute with
  | none =>
    if !pcheckUri entityId then .error (badRequest "Invalid Entity ID" "Not a URI")
    else match shortNameDetail attrName with
      | some detail => .error (badRequest "Invalid Attribute Name" detail)
      | none => .error (.response 404 "Entity/Attribute not found" (notFoundText entityId attrName
          (dotForEq (orionldAttributeExpand env.toContexts attrName).1)))
  | some a => do
    patchChecks env entityId attrName a members
    patchedAttribute env attrName a members

end OrionldPatchAttribute
