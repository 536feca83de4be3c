import OrionLd.Binary64
import OrionLd.Fallible
import OrionLd.OrionldContextItem

/-! Conversion of an attribute in a payload tree to a ContextAttribute.
A refusal carries the detail the caller gets back and the title and detail of the problem
details. A fault stands for an access through a pointer that is not one: the union of a
node is read as a string or as a list of children when it holds neither. -/
namespace KjTreeToContextAttribute

open KjTree OrionldContextItem Fallible
open Binary64 (Double ofBits)

structure Env extends Contexts where
  parse8601Time : Text → Option ℚ
  /-- value.i of a node that is not an integer, and an integer assigned to a double. -/
  valueAsInteger : KjNode → ℤ
  integerAsDouble : ℤ → ℚ
  requestTime : ℚ

inductive ConversionError where
  | refused (detail title : String) (details : Text)
  | fault
  deriving DecidableEq, Repr

structure Metadata where
  name : Text
  type : Text
  value : CompoundValueNode

inductive AttributeType where
  | property
  | relationship
  | geoProperty
  | temporalProperty
  deriving DecidableEq, Repr

def AttributeType.name : AttributeType → String
  | .property => "Property"
  | .relationship => "Relationship"
  | .geoProperty => "GeoProperty"
  | .temporalProperty => "TemporalProperty"

def attributeType (s : Text) : Option AttributeType :=
  [.property, .relationship, .geoProperty, .temporalProperty].find? fun t =>
    t.name.toList == s

structure ContextAttribute where
  name : Text
  type : AttributeType
  value : CompoundValueNode
  metadataVector : List Metadata

abbrev Problem := String × Text

def uriCharacters : List Char := "%:/?#[]@!$&'()*+,=-._~".toList

def validInUri (c : Char) : Bool := c.isAlphanum || uriCharacters.contains c

/-- pcheckUri with strict set. -/
def pcheckUri (uri : Text) : Bool := uri.contains ':' && uri.all validInUri

def badGeometry (detail : String) : Except Problem Unit :=
  .error ("Invalid GeoJSON", detail.toList)

def isNumber : KjNode → Bool
  | .int _ => true
  | .float _ => true
  | _ => false

def pcheckGeoPoint : KjNode → Except Problem Unit
  | .array members =>
    if members.any (!isNumber ·) then
      badGeometry "all members of a 'Point' in 'coordinates' must be of type 'Number'"
    else if members.length ≠ 2 ∧ members.length ≠ 3 then
      badGeometry ("The 'coordinates' member for a 'Point' must be an array with two or three "
        ++ "Numbers")
    else .ok ()
  | _ => badGeometry "'coordinates' must be a JSON Array"

/-- The loop of all the geometries but the point. -/
def pcheckMembers (notArray : String) (check : KjNode → Except Problem Unit) :
    List KjNode → Except Problem Unit
  | [] => .ok ()
  | .array items :: members => do
    check (.array items)
    pcheckMembers notArray check members
  | _ :: _ => badGeometry notArray

def pcheckArrayOf (notArray : String) (check : KjNode → Except Problem Unit) :
    KjNode → Except Problem Unit
  | .array members => pcheckMembers notArray check members
  | _ => badGeometry "'coordinates' must be a JSON Array"

def pcheckGeoMultiPoint : KjNode → Except Problem Unit :=
  pcheckArrayOf "'coordinates' in a 'MultiPoint' must be a JSON Array of Arrays" pcheckGeoPoint

def lineStringText : String :=
  "'coordinates' in a 'LineString' must be a JSON Array of at least two Arrays"

def pcheckGeoLineString (node : KjNode) : Except Problem Unit := do
  pcheckArrayOf lineStringText pcheckGeoPoint node
  match node with
  | .array members => if members.length < 2 then badGeometry lineStringText else .ok ()
  | _ => .ok ()

def pcheckGeoMultiLineString : KjNode → Except Problem Unit :=
  pcheckArrayOf
    "'coordinates' in a 'MultiLineString' must be a JSON Array of 'LineString arrays'"
    pcheckGeoLineString

/-- value.f of a number, which shares its 64 bits with value.i. -/
def unionDouble : KjNode → Double
  | .float f => .finite f
  | .int i => ofBits (BitVec.ofInt 64 i)
  | _ => .nan

def positionOf : KjNode → List Double
  | .array items => items.map unionDouble
  | _ => []

def samePosition : List Double → List Double → Bool
  | [], [] => true
  | x :: xs, y :: ys => x.equal y && samePosition xs ys
  | _, _ => false

def ringText : String :=
  "'coordinates' in a 'Polygon' must be a JSON Array of 'Rings' that are JSON Arrays of 'Point'"

def pcheckRing : KjNode → Except Problem Unit
  | .array points => do
    pcheckMembers ringText (fun p => (pcheckGeoPoint p).mapError fun _ =>
      ("Invalid GeoJSON", ringText.toList)) points
    if points.length < 4 then badGeometry "A Polygon must have at least 4 points"
    else
      let firstPos := (points.head?.map positionOf).getD []
      let lastPos := (points.getLast?.map positionOf).getD []
      if samePosition firstPos lastPos then .ok ()
      else badGeometry "In a Polygon, the first and the last position must be identical"
  | _ => .ok ()

def pcheckGeoPolygon : KjNode → Except Problem Unit :=
  pcheckArrayOf
    "'coordinates' in a 'Polygon' must be a JSON Array of 'Rings' that are JSON Arrays"
    pcheckRing

def pcheckGeoMultiPolygon : KjNode → Except Problem Unit :=
  pcheckArrayOf "'coordinates' in a 'MultiPolygon' must be a JSON Array of 'Polygon arrays'"
    pcheckGeoPolygon

inductive GeoJsonType where
  | point
  | multiPoint
  | lineString
  | multiLineString
  | polygon
  | multiPolygon
  deriving DecidableEq, Repr

def pcheckGeoType (typeName : Text) : Except Problem GeoJsonType :=
  if typeName = "Point".toList then .ok .point
  else if typeName = "MultiPoint".toList then .ok .multiPoint
  else if typeName = "LineString".toList then .ok .lineString
  else if typeName = "MultiLineString".toList then .ok .multiLineString
  else if typeName = "Polygon".toList then .ok .polygon
  else if typeName = "MultiPolygon".toList then .ok .multiPolygon
  else .error ("invalid geometry", typeName)

def pcheckGeoqCoordinates (coordinates : KjNode) : GeoJsonType → Except Problem Unit
  | .point => pcheckGeoPoint coordinates
  | .multiPoint => pcheckGeoMultiPoint coordinates
  | .lineString => pcheckGeoLineString coordinates
  | .multiLineString => pcheckGeoMultiLineString coordinates
  | .polygon => pcheckGeoPolygon coordinates
  | .multiPolygon => pcheckGeoMultiPolygon coordinates

def geoMembers : Members → Option GeoJsonType → Option KjNode →
    Except Problem (Option GeoJsonType × Option KjNode)
  | [], geoType, coordinates => .ok (geoType, coordinates)
  | (name, node) :: members, geoType, coordinates =>
    if name = "type".toList then
      if geoType.isSome then .error ("Duplicated field", "geo-location::type".toList)
      else match node with
        | .string s =>
          if s = [] then
            .error ("Empty String",
              "the 'type' field of a GeoJSON object cannot be an empty string".toList)
          else do
            let t ← pcheckGeoType s
            geoMembers members (some t) coordinates
        | _ => .error ("Not a JSON String",
            "the 'type' field of a GeoJSON object must be a JSON String".toList)
    else if name = "coordinates".toList then
      if coordinates.isSome then
        .error ("Duplicated field", "geo-location::coordinates".toList)
      else match node with
        | .array items => geoMembers members geoType (some (.array items))
        | _ => .error ("Not a JSON Array",
            "the 'coordinates' field of a GeoJSON object must be a JSON Array".toList)
    else .error ("unexpected item in geo-location", "value".toList)

def noGeometry (detail : String) : Problem :=
  ("The value of an attribute of type GeoProperty must be valid GeoJson", detail.toList)

def pcheckGeoPropertyValue : KjNode → Except Problem Unit
  | .object members => do
    match ← geoMembers members none none with
    | (none, none) =>
      .error (noGeometry
        "Mandatory 'coordinates' and 'type' fields missing for a GeoJSON Property")
    | (none, some _) =>
      .error ("Mandatory 'type' field missing for GeoJSON Property", "value".toList)
    | (some _, none) =>
      .error (noGeometry "Mandatory 'coordinates' field missing for a GeoJSON Property")
    | (some t, some coordinates) => pcheckGeoqCoordinates coordinates t
  | node => .error ("the value of a geo-location attribute must be a JSON Object",
      (kjValueType node).toList)

variable (env : Env)

/-- The detail of DUPLICATE_CHECK and of the other check macros stays what the conversion
starts with. -/
def checkFailed (title : String) (details : Text) : ConversionError :=
  .refused "unknown error" title details

def duplicated (field : String) : ConversionError := checkFailed "Duplicated field" field.toList

def ConversionError.withDetail (detail : String) : ConversionError → ConversionError
  | .refused _ title details => .refused detail title details
  | .fault => .fault

structure MetadataFields where
  type : Option Text
  value : Option KjNode
  object : Option KjNode

def isMetadataType (s : Text) : Bool :=
  s == "Property".toList || s == "GeoProperty".toList || s == "Relationship".toList

def metadataMembers : Members → MetadataFields → Except ConversionError MetadataFields
  | [], f => .ok f
  | (name, node) :: members, f =>
    if name = "type".toList then
      if f.type.isSome then .error (duplicated "metadata type")
      else match node with
        | .string s =>
          if isMetadataType s then metadataMembers members { f with type := some s }
          else .error (checkFailed "Invalid type for attribute" s)
        | _ => .error (checkFailed "Not a JSON String" "metadata type".toList)
    else if name = "value".toList then
      if f.value.isSome then .error (duplicated "metadata value")
      else metadataMembers members { f with value := some node }
    else if name = "object".toList then
      if f.object.isSome then .error (duplicated "metadata object")
      else metadataMembers members { f with object := some node }
    else metadataMembers members f

def observedAtNumber : KjNode → ℚ
  | .float f => f
  | .int i => i
  | node => env.valueAsInteger node

def observedAtValue : KjNode → ℚ
  | .object members =>
    match members.lookup "value".toList with
    | some node => observedAtNumber env node
    | none => 0
  | node => observedAtNumber env node

def unitCodeString : KjNode → Except ConversionError Text
  | .string s => .ok s
  | _ => .error .fault

def unitCodeValue : KjNode → Except ConversionError Text
  | .object members =>
    match members.lookup "value".toList with
    | some node => unitCodeString node
    | none => .ok "value lost in DB".toList
  | node => unitCodeString node

def metadataOfFields (name : Text) (f : MetadataFields) : Except ConversionError Metadata :=
  match f.type with
  | none => .error (checkFailed "The 'type' field is missing for a sub-attribute" name)
  | some type =>
    if type = "Relationship".toList then
      match f.object with
      | none => .error (checkFailed "The value field is missing for a Relationship metadata" name)
      | some (.string s) => .ok ⟨name, type, .string s⟩
      | some _ => .error (checkFailed "invalid json type for relationship-object" name)
    else match f.value with
      | none => .error (checkFailed "The value field is missing for a Property metadata" name)
      | some node => .ok ⟨name, type, kjTreeToCompoundValue node⟩

def metadataAdd (name : Text) (node : KjNode) : Except ConversionError Metadata :=
  let shortName := orionldContextItemAliasLookup env.toContexts name
  if shortName = "observedAt".toList then .ok ⟨name, [], .number (observedAtValue env node)⟩
  else if shortName = "unitCode".toList then do
    let s ← unitCodeValue node
    .ok ⟨"unitCode".toList, [], .string s⟩
  else match node with
    | .object members => do
      let f ← metadataMembers members ⟨none, none, none⟩
      metadataOfFields name f
    | node => .ok ⟨name, [], kjTreeToCompoundValue node⟩

/-- MetadataVector::lookupByName compares with the name in which '=' has become '.'. -/
def lookupByName (vec : List Metadata) (name : Text) : Bool :=
  vec.any fun md => md.name == eqForDot name

def isTimestamp (name : Text) : Bool := name == "createdAt".toList || name == "modifiedAt".toList

def kjTreeToMetadata (vec : List Metadata) (name : Text) (node : KjNode) :
    Except ConversionError (List Metadata) :=
  if isTimestamp name then .ok vec
  else match node with
    | .object members =>
      let longName := (orionldSubAttributeExpand env.toContexts name).1
      if lookupByName vec longName then
        .error (.refused "Duplicated attribute property" "Duplicated attribute property" longName)
      else
        match metadataAdd env longName (.object members) with
        | .ok md => .ok (vec ++ [md])
        | .error e => .error (e.withDetail "Error adding sub-attribute to attribute")
    | _ => .error (.refused "sub-attribute must be a JSON object"
        "sub-attribute must be a JSON object" name)

/-- An item of an array has no name, and the union of any other node is taken for its first child.
-/
def kjTreeToMetadatas (vec : List Metadata) : KjNode → Except ConversionError (List Metadata)
  | .object members => members.foldlM (fun vec m => kjTreeToMetadata env vec m.1 m.2) vec
  | .array [] => .ok vec
  | node => if isZero node then .ok vec else .error .fault

structure AttributeFields where
  type : Option AttributeType
  value : Option KjNode
  object : Option KjNode
  seen : List String
  metadataVector : List Metadata

/-- A one-item array is replaced by its item, unless the context says @list or @set. -/
def unwrapped (item : Option ContextItem) (node : KjNode) : KjNode :=
  match node with
  | .array [x] =>
    match item.bind ContextItem.type with
    | some t => if t = "@list".toList ∨ t = "@set".toList then .array [x] else x
    | none => x
  | node => node

def onceOnly (f : AttributeFields) (field text : String) : Except ConversionError AttributeFields :=
  if f.seen.contains field then .error (duplicated text)
  else .ok { f with seen := field :: f.seen }

def addMetadata (f : AttributeFields) (name : Text) (node : KjNode)
    (failed : ConversionError → ConversionError) : Except ConversionError AttributeFields :=
  match metadataAdd env name node with
  | .ok md => .ok { f with metadataVector := f.metadataVector ++ [md] }
  | .error e => .error (failed e)

def geoSubAttribute (f : AttributeFields) (field text : String) (node : KjNode) :
    Except ConversionError AttributeFields := do
  let f ← onceOnly f field text
  addMetadata env f field.toList node fun
    | .fault => .fault
    | .refused _ _ _ => .refused ("Error adding metadata '" ++ text ++ "' to attribute")
        "Error adding metadata to attribute" field.toList

def typeField (f : AttributeFields) (node : KjNode) : Except ConversionError AttributeFields :=
  if f.type.isSome then
    .error (.refused "Duplicated field" "Duplicated field" "Attribute Type".toList)
  else match node with
    | .string s =>
      match attributeType s with
      | some t => .ok { f with type := some t }
      | none => .error (.refused "Invalid type for attribute" "Invalid type for attribute" s)
    | _ => .error (.refused "Attribute type must be a JSON String" "Not a JSON String"
        "attribute type".toList)

def unitCodeField (f : AttributeFields) (node : KjNode) :
    Except ConversionError AttributeFields := do
  let f ← onceOnly f "unitCode" "unit code"
  match node with
  | .string s =>
    addMetadata env f "unitCode".toList (.string s) (.withDetail "metadataAdd failed")
  | _ => .error (checkFailed "Not a JSON String" "unitCode".toList)

def observedAtField (f : AttributeFields) (node : KjNode) :
    Except ConversionError AttributeFields := do
  let f ← onceOnly f "observedAt" "observed at"
  match node with
  | .string s =>
    match env.parse8601Time s with
    | none => .error (checkFailed
        "The 'observedAt' attribute must have a valid ISO8601 as value" "observedAt".toList)
    | some t => addMetadata env f "observedAt".toList (.float t) fun
      | .fault => .fault
      | .refused _ _ _ => .refused "Error adding metadata 'observed at' to attribute"
          "Error adding metadata to attribute" "observedAt".toList
  | _ => .error (checkFailed "Not a JSON String" "observedAt".toList)

def attributeMember (item : Option ContextItem) (f : AttributeFields) (m : Text × KjNode) :
    Except ConversionError AttributeFields :=
  let (name, node) := m
  if name = "type".toList then typeField f node
  else if name = "value".toList then
    if f.value.isSome then .error (duplicated "attribute value")
    else .ok { f with value := some (unwrapped item node) }
  else if name = "unitCode".toList then unitCodeField env f node
  else if name = "object".toList then
    if f.object.isSome then .error (duplicated "object") else .ok { f with object := some node }
  else if name = "observedAt".toList then observedAtField env f node
  else if name = "location".toList then geoSubAttribute env f "location" "location" node
  else if name = "observationSpace".toList then
    geoSubAttribute env f "observationSpace" "observation space" node
  else if name = "operationSpace".toList then
    geoSubAttribute env f "operationSpace" "operation space" node
  else if name = "creDate".toList then onceOnly f "creDate" "creDate"
  else if name = "modDate".toList then onceOnly f "modDate" "modDate"
  else if name = "mdNames".toList then .ok f
  else if name = "md".toList then do
    let vec ← kjTreeToMetadatas env f.metadataVector node
    .ok { f with metadataVector := vec }
  else do
    let vec ← kjTreeToMetadata env f.metadataVector name node
    .ok { f with metadataVector := vec }

structure CompoundFields where
  atType : Option Text
  atValue : Option KjNode
  other : Option Text

def compoundMembers : Members → CompoundFields → Except ConversionError CompoundFields
  | [], f => .ok f
  | (name, node) :: members, f =>
    if name = "@type".toList then
      if f.atType.isSome then .error (duplicated "@type")
      else match node with
        | .string s => compoundMembers members { f with atType := some s }
        | _ => .error (checkFailed "Not a JSON String" "@type".toList)
    else if name = "@value".toList then
      if f.atValue.isSome then .error (duplicated "@value")
      else compoundMembers members { f with atValue := some node }
    else compoundMembers members { f with other := some name }

def specialCompoundCheck (members : Members) : Except ConversionError Unit := do
  match ← compoundMembers members ⟨none, none, none⟩ with
  | ⟨none, none, _⟩ => .ok ()
  | ⟨_, some _, some other⟩ =>
    .error (checkFailed "unwanted extra items in @value/@type compound" other)
  | ⟨none, some _, none⟩ => .ok ()
  | ⟨some _, none, _⟩ =>
    .error (checkFailed "missing @value in @value/@type compound" "@value is mandatory".toList)
  | ⟨some atType, some atValue, none⟩ =>
    if atType = "DateTime".toList then
      match atValue with
      | .string s =>
        if (env.parse8601Time s).isNone then .error (checkFailed
          "DateTime value of @value/@type compound must be a valid ISO8601" s)
        else .ok ()
      | _ => .error (checkFailed "Not a JSON String" "@value of DateTime @type".toList)
    else .ok ()

def attributeValueSet (node : KjNode) : Except ConversionError CompoundValueNode :=
  match node with
  | .object members =>
    match specialCompoundCheck env members with
    | .ok _ => .ok (kjTreeToCompoundValue node)
    | .error e => .error (e.withDetail "attributeValueSet failed")
  | _ => .ok (kjTreeToCompoundValue node)

structure TemporalFields where
  atType : Option Text
  atValue : Option Text

def temporalMembers : Members → TemporalFields → Except ConversionError TemporalFields
  | [], f => .ok f
  | (name, node) :: members, f =>
    if name = "@type".toList then
      if f.atType.isSome then .error (duplicated "@type")
      else match node with
        | .string s => temporalMembers members { f with atType := some s }
        | _ => .error (checkFailed "Not a JSON String" "@type".toList)
    else if name = "@value".toList then
      if f.atValue.isSome then .error (duplicated "@value")
      else match node with
        | .string s => temporalMembers members { f with atValue := some s }
        | _ => .error (checkFailed "Not a JSON String" "@value".toList)
    else .error (.refused "Invalid member of value as object of Temporal Property"
      "Invalid member of value as object of Temporal Property" name)

def temporalText : String :=
  "temporal-property attribute must have a value of type JSON String or a JSON object with " ++
    "@value and @type"

/-- A date inside an object that does not parse is stored as -1. -/
def temporalValue (name : Text) : KjNode → Except ConversionError CompoundValueNode
  | .string s =>
    match env.parse8601Time s with
    | some t => .ok (.number t)
    | none => .error (.refused "parse8601Time failed"
        "temporal property must have a valid ISO8601 as value" name)
  | .object members => do
    match ← temporalMembers members ⟨none, none⟩ with
    | ⟨_, none⟩ =>
      .error (.refused "@value node missing in value-object of Temporal Property"
        "@value node missing in value-object of Temporal Property" "value".toList)
    | ⟨atType, some s⟩ =>
      .ok (.object (("@value".toList, .number ((env.parse8601Time s).getD (-1))) ::
        (atType.map fun t => ("@type".toList, CompoundValueNode.string t)).toList))
  | node => .error (.refused temporalText temporalText (kjValueType node).toList)

def valueMissing (t : AttributeType) (attributeName : Text) : ConversionError :=
  .refused ("value missing for " ++ t.name)
    ("Attribute with type " ++ t.name ++ " found, but the associated value field is missing")
    attributeName

def propertyValue (t : AttributeType) (attributeName name : Text) :
    Option KjNode → Except ConversionError CompoundValueNode
  | none => .error (valueMissing t attributeName)
  | some .null => .error (.refused "NULL value for Property"
      "Attributes with type Property cannot be given the value NULL" attributeName)
  | some node =>
    match t with
    | .geoProperty =>
      match pcheckGeoPropertyValue node with
      | .ok _ => .ok (kjTreeToCompoundValue node)
      | .error p => .error (.refused "pcheckGeoProperty failed" p.1 p.2)
    | .temporalProperty => temporalValue env name node
    | _ => attributeValueSet env node

def checkUris : List KjNode → Except ConversionError Unit
  | [] => .ok ()
  | .string s :: items =>
    if pcheckUri s then checkUris items
    else .error (checkFailed
      "relationship attribute with 'object array' field having invalid URI" s)
  | node :: _ => .error (checkFailed
      "relationship attribute with 'object' array item not being a JSON string"
      (kjValueType node).toList)

def relationshipValue (attributeName : Text) :
    Option KjNode → Except ConversionError CompoundValueNode
  | none => .error (checkFailed "relationship attribute without 'object' field" attributeName)
  | some (.string s) =>
    if pcheckUri s then .ok (.string s)
    else .error (checkFailed
      "relationship attribute with 'object' field having invalid URI" s)
  | some (.array items) => do
    checkUris items
    .ok (kjTreeToCompoundValue (.array items))
  | some _ => .error (checkFailed
      ("relationship attribute with 'object' field of invalid type (must be a String or an " ++
        "Array or Strings)") attributeName)

def attributeOfFields (attributeName name : Text) (f : AttributeFields) :
    Except ConversionError ContextAttribute :=
  match f.type with
  | none => .error (.refused "Attr Type is mandatory"
      "Attribute found, but the type field is missing" attributeName)
  | some .relationship => do
    let v ← relationshipValue attributeName f.object
    .ok ⟨name, .relationship, v, f.metadataVector⟩
  | some t => do
    let v ← propertyValue env t attributeName name f.value
    .ok ⟨name, t, v, f.metadataVector⟩

def kjTreeToContextAttribute (attributeName : Text) (node : KjNode) :
    Except ConversionError ContextAttribute :=
  match node with
  | .object members => do
    let (name, item) := orionldAttributeExpand env.toContexts attributeName
    let f ← members.foldlM (attributeMember env item) ⟨none, none, none, [], []⟩
    attributeOfFields env attributeName name f
  | _ => .error (.refused "Attribute must be a JSON object" "Attribute must be a JSON object"
      attributeName)

variable {env}

theorem attributeOfFields_name {attributeName name : Text} {f : AttributeFields}
    {ca : ContextAttribute} (h : attributeOfFields env attributeName name f = .ok ca) :
    ca.name = name := by
  unfold attributeOfFields at h
  split at h
  · cases h
  · obtain ⟨v, -, hv⟩ := bind_ok h
    cases hv
    rfl
  obtain ⟨v, -, hv⟩ := bind_ok h
  cases hv
  rfl

theorem kjTreeToContextAttribute_name {attributeName : Text} {node : KjNode}
    {ca : ContextAttribute} (h : kjTreeToContextAttribute env attributeName node = .ok ca) :
    ca.name = (orionldAttributeExpand env.toContexts attributeName).1 := by
  cases node with
  | object members =>
    obtain ⟨f, -, hf⟩ := bind_ok h
    exact attributeOfFields_name hf
  | _ => cases h

end KjTreeToContextAttribute
