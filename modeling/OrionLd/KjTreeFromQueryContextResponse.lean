import OrionLd.EntityDocument
import OrionLd.OrderedMap
import Mathlib.Data.List.Lex
import Mathlib.Data.Char

/-! GET /entities: the ContextElementResponse that is made of a document, and the tree that
kjTreeFromQueryContextResponse makes of it. A node that is the last child already is added a second
time without effect, as in kjTreeFromCompoundValue. `none` is an attribute whose value is of no
known type, where the process stops. -/
namespace KjTreeFromQueryContextResponse

open KjTree OrionldContextItem MongoCppLegacyCodec RegistrationDocument EntityDocument
open OrderedMap

structure Metadata where
  name : Text
  type : Text
  /-- Absent for ValueTypeNotGiven. -/
  value : Option CompoundValueNode
  createdAt : ℚ
  modifiedAt : ℚ

structure ContextAttribute where
  name : Text
  type : Text
  value : CompoundValueNode
  creDate : ℚ
  modDate : ℚ
  metadataVector : List Metadata

structure ContextElement where
  id : Text
  type : Text
  creDate : ℚ
  modDate : ℚ
  contextAttributeVector : List ContextAttribute

mutual
/-- An integer is of a type that is not known here. -/
def addCompoundNode : BsonValue → Option CompoundValueNode
  | .string s => some (.string s)
  | .bool b => some (.boolean b)
  | .double x => some (.number x)
  | .null => some .null
  | .object fields => some (.object (compoundObjectResponse fields))
  | .array items => some (.vector (compoundVectorResponse items))
  | .int32 _ => none
  | .int64 _ => none
def compoundObjectResponse : Fields → List (Text × CompoundValueNode)
  | [] => []
  | (name, value) :: fields =>
    ((addCompoundNode value).map fun n => (eqForDot name, n)).toList ++
      compoundObjectResponse fields
def compoundVectorResponse : List BsonValue → List CompoundValueNode
  | [] => []
  | value :: values => (addCompoundNode value).toList ++ compoundVectorResponse values
end

def valueOfField : BsonValue → Option CompoundValueNode
  | .int32 i => some (.number i.toInt)
  | value => addCompoundNode value

def getObjectField (fields : Fields) (name : Text) : Fields :=
  match fields.lookup name with
  | some (.object fields) => fields
  | _ => []

def getStringField (fields : Fields) (name : String) : Text :=
  match fields.lookup name.toList with
  | some (.string s) => s
  | _ => []

/-- Another type of number than a double is -1. -/
def getNumberField (fields : Fields) (name : String) : ℚ :=
  match fields.lookup name.toList with
  | none => 0
  | some (.double x) => x
  | some _ => -1

def getNumberFieldAsDouble (fields : Fields) (name : String) : ℚ :=
  match fields.lookup name.toList with
  | none => 0
  | some (.double x) => x
  | some (.int32 i) => i.toInt
  | some (.int64 i) => i.toInt
  | some _ => -1

def metadataOf (name : Text) (md : Fields) : Metadata where
  name := name
  type := getStringField md "type"
  value := (md.lookup "value".toList).bind valueOfField
  createdAt := getNumberField md "createdAt"
  modifiedAt := getNumberField md "modifiedAt"

def splitId : Text → Text × Option Text
  | [] => ([], none)
  | '(' :: ')' :: metadataId => ([], some metadataId)
  | ch :: name => (ch :: (splitId name).1, (splitId name).2)

def idMetadata (metadataId : Text) : Metadata where
  name := "ID".toList
  type := "string".toList
  value := some (.string metadataId)
  createdAt := 0
  modifiedAt := 0

def contextAttribute (attrName : Text) (attr : Fields) : Option ContextAttribute := do
  let value ← match attr.lookup "value".toList with
    | none => some (.string [])
    | some value => valueOfField value
  return {
    name := eqForDot (splitId attrName).1
    type := getStringField attr "type"
    value := value
    creDate := getNumberFieldAsDouble attr "creDate"
    modDate := getNumberFieldAsDouble attr "modDate"
    metadataVector := ((splitId attrName).2.map idMetadata).toList ++
      (assignAll (getObjectField attr "md".toList)).map fun md =>
        metadataOf (eqForDot md.1) (getObjectField (getObjectField attr "md".toList) md.1) }

/-- The constructor from a document, with all attributes included and empty values too. -/
def contextElementResponse (doc : Fields) : Option ContextElement := do
  let attrs := getObjectField doc "attrs".toList
  let vector ← (assignAll attrs).mapM fun attr =>
    contextAttribute attr.1 (getObjectField attrs attr.1)
  let id := getObjectField doc "_id".toList
  return {
    id := getStringField id "id"
    type := getStringField id "type"
    creDate := getNumberFieldAsDouble doc "creDate"
    modDate := getNumberFieldAsDouble doc "modDate"
    contextAttributeVector := vector }

variable (env : DateEnv) (o : Options)

def compacted (mayBeCompacted : Bool) (s : Text) : Text :=
  if mayBeCompacted then orionldContextItemAliasLookup env.toContexts s else s

mutual
def kjTreeFromCompoundValue (mayBeCompacted : Bool) : CompoundValueNode → KjNode
  | .string s => .string (compacted env mayBeCompacted s)
  | .number x => .float x
  | .boolean b => .bool b
  | .null => .null
  | .vector items => .array (kjTreeFromCompoundValues mayBeCompacted items)
  | .object members => .object (kjTreeFromCompoundMembers mayBeCompacted members)
def kjTreeFromCompoundValues (mayBeCompacted : Bool) : List CompoundValueNode → List KjNode
  | [] => []
  | item :: items => kjTreeFromCompoundValue mayBeCompacted item ::
      kjTreeFromCompoundValues mayBeCompacted items
def kjTreeFromCompoundMembers (mayBeCompacted : Bool) :
    List (Text × CompoundValueNode) → Members
  | [] => []
  | (name, node) :: members => (name, kjTreeFromCompoundValue mayBeCompacted node) ::
      kjTreeFromCompoundMembers mayBeCompacted members
end

def orionldSysAttrs (creDate modDate : ℚ) : Members :=
  if o.sysAttrs then
    [("createdAt".toList, .string (numberToDate env creDate)),
      ("modifiedAt".toList, .string (numberToDate env modDate))]
  else []

def valueFieldName (type : Text) : Text :=
  if type = "Relationship".toList then "object".toList else "value".toList

/-- A number of the name observedAt is a date, and a compound is always named "value". -/
def metadataValue (md : Metadata) (mdName fieldName : Text) (mayBeCompacted : Bool)
    (unknown : String) : Text × KjNode :=
  match md.value with
  | none => (fieldName, .string unknown.toList)
  | some (.number x) =>
    if mdName = "observedAt".toList then
      ("observedAt".toList, .string (numberToDate env x))
    else (fieldName, .float x)
  | some (.vector items) =>
    ("value".toList, kjTreeFromCompoundValue env mayBeCompacted (.vector items))
  | some (.object members) =>
    ("value".toList, kjTreeFromCompoundValue env mayBeCompacted (.object members))
  | some node => (fieldName, kjTreeFromCompoundValue env mayBeCompacted node)

def isSpecialName (name : Text) : Bool :=
  ["observedAt", "createdAt", "modifiedAt", "unitCode"].any fun n => n.toList == name

def metadataName (name : Text) : Text :=
  if isSpecialName name then name else orionldContextItemAliasLookup env.toContexts name

def metadataMayBeCompacted (name : Text) : Bool :=
  !isSpecialName name && valueMayBeCompacted env.toContexts name

/-- A sub-attribute without a type is not an object but its value. -/
def metadataNode (md : Metadata) : Text × KjNode :=
  let mdName := metadataName env md.name
  let mayBeCompacted := metadataMayBeCompacted env md.name
  if md.type ≠ [] then
    (mdName, .object (("type".toList, .string md.type) ::
      orionldSysAttrs env o md.createdAt md.modifiedAt ++
      [metadataValue env md mdName (valueFieldName md.type) mayBeCompacted
        "UNKNOWN TYPE IN MONGODB 1"]))
  else metadataValue env md mdName mdName mayBeCompacted "UNKNOWN TYPE IN MONGODB 2"

/-- An attribute named observedAt shows its number as a date under that name. -/
def attributeValue (a : ContextAttribute) (mayBeCompacted : Bool) : Text × KjNode :=
  match a.value with
  | .number x =>
    if a.name = "observedAt".toList then
      ("observedAt".toList, .string (numberToDate env x))
    else (valueFieldName a.type, .float x)
  | node => (valueFieldName a.type, kjTreeFromCompoundValue env mayBeCompacted node)

def attributeNode (a : ContextAttribute) : Text × KjNode :=
  let attrName := orionldContextItemAliasLookup env.toContexts a.name
  let mayBeCompacted := valueMayBeCompacted env.toContexts a.name
  if o.keyValues then (attrName, kjTreeFromCompoundValue env mayBeCompacted a.value)
  else (attrName, .object (
    (if a.type ≠ [] then [("type".toList, .string a.type)] else []) ++
    [attributeValue env a mayBeCompacted] ++ orionldSysAttrs env o a.creDate a.modDate ++
    a.metadataVector.map (metadataNode env o)))

def kjTreeFromQueryContextResponse (ce : ContextElement) : Members :=
  ("id".toList, .string ce.id) ::
    (if ce.type ≠ [] then
      [("type".toList, .string (orionldContextItemAliasLookup env.toContexts ce.type))]
    else []) ++
    orionldSysAttrs env o ce.creDate ce.modDate ++
    ce.contextAttributeVector.map (attributeNode env o)

end KjTreeFromQueryContextResponse
