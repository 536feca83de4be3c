import OrionLd.KjTreeToContextAttribute
import OrionLd.String2coords

/-! The location and the expiration date of an entity: location.cpp, dateExpiration.cpp and what
they use of ContextAttribute. An attribute is the location by its type, in NGSIv1 also by a
metadata. Names are not longer than their buffers. -/
namespace MongoLocation

open MongoQuery (Bson)
open KjTree
open KjTreeToContextAttribute (Metadata)
open String2coords (numbers)
open Strtod (cString)

inductive ApiVersion where
  | v1
  | v2
  | ngsiLd
  deriving DecidableEq, Repr

inductive ValueType where
  | string
  | number
  | boolean
  | object
  | vector
  | null
  | notGiven
  deriving DecidableEq, Repr

def defaultType : ValueType → String
  | .string => "Text"
  | .number => "Number"
  | .boolean => "Boolean"
  | .vector => "StructuredValue"
  | .object => "StructuredValue"
  | .null => "None"
  | .notGiven => "NotGiven"

structure ContextAttribute where
  name : Text
  type : Text
  typeGiven : Bool
  valueType : ValueType
  stringValue : Text
  numberValue : ℚ
  boolValue : Bool
  compoundValueP : Option CompoundValueNode
  metadataVector : List Metadata

structure OrionError where
  code : ℕ
  details : Text
  reasonPhrase : String
  deriving DecidableEq, Repr

structure Numbers where
  str2double : Text → Option ℚ
  parse8601Time : Text → Option ℚ
  ngsiv1Autocast : Bool

abbrev GeoJson := List (Text × Bson)

def metadataString : CompoundValueNode → Text
  | .string s => s
  | _ => []

def getMetadataId (ca : ContextAttribute) : Option Text :=
  (ca.metadataVector.find? fun md => md.name == "ID".toList).map fun md => metadataString md.value

def locationMetadata (ca : ContextAttribute) : Option Text :=
  (ca.metadataVector.find? fun md => md.name == "location".toList).map fun md =>
    metadataString md.value

def geoTypes : List String := ["geo:point", "geo:line", "geo:box", "geo:polygon", "geo:json"]

def isGeoType (type : Text) : Bool := geoTypes.any fun t => t.toList == type

def wgs84 : Text := "WGS84".toList
def wgs84Legacy : Text := "WSG84".toList

def getLocation (v : ApiVersion) (ca : ContextAttribute) : Text :=
  match v with
  | .v1 =>
    match locationMetadata ca with
    | some s => s
    | none => if ca.type = "geo:point".toList then wgs84 else []
  | _ => if isGeoType ca.type then wgs84 else []

variable (env : Numbers)

def autocastValue (attrType s : Text) : Bson :=
  if attrType = "Number".toList ∨ attrType = "Quantity".toList then
    match env.str2double s with
    | some x => .num x
    | none => .str s
  else if attrType = "Boolean".toList then
    if s = "true".toList then .bool true
    else if s = "false".toList then .bool false
    else .str s
  else if attrType = "DateTime".toList ∨ attrType = "ISO8601".toList then
    match env.parse8601Time s with
    | some x => .num x
    | none => .str s
  else .str s

/-- Nothing is appended for a value that is not given. -/
def bsonAppendAttrValue (autocast : Bool) (attrType : Text) (ca : ContextAttribute) :
    Option Bson :=
  match ca.valueType with
  | .string =>
    if autocast then some (autocastValue env attrType ca.stringValue)
    else some (.str ca.stringValue)
  | .number => some (.num ca.numberValue)
  | .boolean => some (.bool ca.boolValue)
  | .null => some .null
  | _ => none

def valueBson (v : ApiVersion) (attrType : Text) (ca : ContextAttribute) : Option Bson :=
  match ca.compoundValueP with
  | none => bsonAppendAttrValue env (env.ngsiv1Autocast && v == .v1) attrType ca
  | some c => some (compoundValueBson c)

/-- With str2double as it is given. -/
def string2coords (s : Text) : Option (ℚ × ℚ) :=
  (numbers (cString s)).bind fun (number1, number2) =>
    match env.str2double number1, env.str2double number2 with
    | some lat, some lon =>
      if lat > 90 ∨ lat < -90 ∨ lon > 180 ∨ lon < -180 then none else some (lat, lon)
    | _, _ => none

def position (c : ℚ × ℚ) : Bson := .arr [.num c.2, .num c.1]

def geometry (type : String) (coordinates : Bson) : GeoJson :=
  [("type".toList, .str type.toList), ("coordinates".toList, coordinates)]

def formatError (s : Text) : Text :=
  "geo coordinates format error [see Orion user manual]: ".toList ++ s

def stringArray2coords : List CompoundValueNode → Except Text (List (ℚ × ℚ))
  | [] => .ok []
  | .string s :: items =>
    match string2coords env s with
    | some c => do
      let cs ← stringArray2coords items
      .ok (c :: cs)
    | none => .error (formatError s)
  | _ :: _ => .error ("geo:line, geo:box and geo:polygon needs array of strings but some " ++
      "element is not a string").toList

def boxCoordinates (a b : ℚ × ℚ) : Option Bson :=
  if a.1 = b.1 ∨ a.2 = b.2 then none
  else
    let minLat := min a.1 b.1
    let maxLat := max a.1 b.1
    let minLon := min a.2 b.2
    let maxLon := max a.2 b.2
    some (.arr [.arr [position (minLat, minLon), position (maxLat, minLon),
      position (maxLat, maxLon), position (minLat, maxLon), position (minLat, minLon)]])

/-- The shapes that are made of several positions, by the type of the attribute. -/
def shape (type : Text) (coords : List (ℚ × ℚ)) : Except Text GeoJson :=
  if type = "geo:box".toList then
    match coords with
    | [a, b] =>
      match boxCoordinates a b with
      | some ring => .ok (geometry "Polygon" ring)
      | none => .error "geo:box coordinates are not defining an actual box".toList
    | _ => .error "geo:box uses exactly 2 coordinates".toList
  else if type = "geo:line".toList then
    if coords.length < 2 then .error "geo:line uses at least 2 coordinates".toList
    else .ok (geometry "LineString" (.arr (coords.map position)))
  else if type = "geo:polygon".toList then
    if coords.length < 4 then .error "geo:polygon uses at least 4 coordinates".toList
    else if coords.head? ≠ coords.getLast? then
      .error "geo:polygon first and last coordinates must match".toList
    else .ok (geometry "Polygon" (.arr [.arr (coords.map position)]))
  else .error "error processing geo location attribute, see log traces".toList

def pointGeoJson (s : Text) : Except Text GeoJson :=
  match string2coords env s with
  | some c => .ok (geometry "Point" (position c))
  | none => .error (formatError s)

def getGeoJson (v : ApiVersion) (ca : ContextAttribute) : Except Text GeoJson :=
  if v = .v1 ∨ ca.type = "geo:point".toList then pointGeoJson env ca.stringValue
  else if ca.type = "geo:json".toList then
    match ca.compoundValueP with
    | some (.object members) => .ok (compoundValueBsonMembers members)
    | _ => .error "geo:json needs an object as value".toList
  else match ca.compoundValueP with
    | some (.vector items) => do
      let coords ← stringArray2coords env items
      shape ca.type coords
    | _ => .error "geo:line, geo:box and geo:polygon needs array of strings as value".toList

def tooLargeText : Text :=
  ("You cannot use more than one geo location attribute when creating an entity " ++
    "[see Orion user manual]").toList

def tooLarge : OrionError := ⟨413, tooLargeText, "NoResourcesAvailable"⟩

def badLocation (details : Text) : OrionError := ⟨400, details, "BadRequest"⟩

def isWgs84 (location : Text) : Bool := location == wgs84 || location == wgs84Legacy

def geoJsonOr (what : String) (v : ApiVersion) (ca : ContextAttribute) :
    Except OrionError GeoJson :=
  match getGeoJson env v ca with
  | .ok g => .ok g
  | .error subErr => .error (badLocation (what.toList ++ subErr))

/-- The name of the location attribute, which is empty where there is none, and its GeoJSON. -/
def processLocationAtEntityCreation (v : ApiVersion) :
    Text × GeoJson → List ContextAttribute → Except OrionError (Text × GeoJson)
  | loc, [] => .ok loc
  | loc, ca :: caV =>
    let location := getLocation v ca
    if location = [] then processLocationAtEntityCreation v loc caV
    else if loc.1 ≠ [] then .error tooLarge
    else if isWgs84 location then do
      let g ← geoJsonOr env "" v ca
      processLocationAtEntityCreation v (ca.name, loc.2 ++ g) caV
    else .error (badLocation ("only WGS84 are supported, found: ".toList ++ location))

/-- The fields of the GeoJSON are appended to those that a builder has. -/
def processLocationAtUpdateAttribute (v : ApiVersion) (loc : Text × GeoJson)
    (targetAttr : ContextAttribute) : Except OrionError (Text × GeoJson) :=
  let location := getLocation v targetAttr
  if location ≠ [] ∧ !isWgs84 location then
    .error (badLocation ("only WGS84 is supported for location, found: [".toList ++
      getLocation .v1 targetAttr ++ "]".toList))
  else if location ≠ [] then
    if loc.1 = [] then do
      let g ← geoJsonOr env "error parsing location attribute: " v targetAttr
      .ok (targetAttr.name, loc.2 ++ g)
    else if loc.1 ≠ targetAttr.name then .error tooLarge
    else do
      let g ← geoJsonOr env "error parsing location attribute: " v targetAttr
      .ok (loc.1, loc.2 ++ g)
  else if loc.1 = targetAttr.name then
    if v = .v1 then do
      let g ← geoJsonOr env "error parsing location attribute: " v targetAttr
      .ok (loc.1, loc.2 ++ g)
    else .ok ([], loc.2)
  else .ok loc

/-- The case without a previous location comes after the one with a different name, which it is
a case of. -/
def processLocationAtAppendAttribute (v : ApiVersion) (loc : Text × GeoJson)
    (targetAttr : ContextAttribute) (actualAppend : Bool) : Except OrionError (Text × GeoJson) :=
  let location := getLocation v targetAttr
  if location ≠ [] ∧ !isWgs84 location then
    .error (badLocation ("only WGS84 is supported for location, found: [".toList ++
      getLocation .v1 targetAttr ++ "]".toList))
  else if actualAppend ∧ location ≠ [] then
    if loc.1 ≠ [] then .error tooLarge
    else do
      let g ← geoJsonOr env "error parsing location attribute for new attribute: " v targetAttr
      .ok (targetAttr.name, loc.2 ++ g)
  else if !actualAppend ∧ location ≠ [] then
    if loc.1 ≠ targetAttr.name then .error tooLarge
    else if loc.1 = [] then do
      let g ← geoJsonOr env "error parsing location attribute for existing attribute: " v
        targetAttr
      let g' ← geoJsonOr env "error parsing location attribute: " v targetAttr
      .ok (targetAttr.name, loc.2 ++ g ++ g')
    else do
      let g ← geoJsonOr env "error parsing location attribute: " v targetAttr
      .ok (loc.1, loc.2 ++ g)
  else if !actualAppend ∧ location = [] ∧ loc.1 = targetAttr.name then .ok ([], loc.2)
  else .ok loc

def dateExpires : Text := "dateExpires".toList

/-- A date in milliseconds, cut to an integer, where 0 stands for none. -/
def dateOf (x : ℚ) : ℤ := (x * 1000).num.tdiv (x * 1000).den

def isDateType (type : Text) : Bool := type == "DateTime".toList || type == "ISO8601".toList

def getDateExpiration (ca : ContextAttribute) : Except OrionError ℤ :=
  if isDateType ca.type then .ok (dateOf ca.numberValue)
  else .error (badLocation "error processing date expiration attribute, see log traces".toList)

def processDateExpirationAtEntityCreation : List ContextAttribute → Except OrionError ℤ
  | [] => .ok 0
  | ca :: caV =>
    if ca.name = dateExpires then getDateExpiration ca
    else processDateExpirationAtEntityCreation caV

/-- The date, and whether the request gives one. -/
def processDateExpirationAtUpdateAttribute (date : ℤ × Bool) (targetAttr : ContextAttribute) :
    Except OrionError (ℤ × Bool) :=
  if targetAttr.name = dateExpires then
    if targetAttr.numberValue ≠ 0 then do
      let d ← getDateExpiration targetAttr
      .ok (d, true)
    else .ok (0, date.2)
  else .ok date

def processDateExpirationAtAppendAttribute (date : ℤ) (targetAttr : ContextAttribute) :
    Except OrionError ℤ :=
  if targetAttr.name = dateExpires then
    if targetAttr.numberValue ≠ 0 then getDateExpiration targetAttr else .ok 0
  else .ok date

end MongoLocation
