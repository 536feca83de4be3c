import OrionLd.KjTreeToContextAttribute
import OrionLd.OrionldServiceLookup

/-! The check of a geoQ: pcheckGeoQ and pcheckGeoqGeorel. The type of geoproperty is not
checked, that of georel is checked a second time in its place, and a geoproperty that comes
before georel makes the check read through a null pointer. -/
namespace PcheckGeoQ

open KjTree KjTreeToContextAttribute
open OrionldServiceLookup (strstr)

inductive CheckError where
  | response (httpStatusCode : ℕ) (title : String) (details : Text)
  | fault
  deriving DecidableEq, Repr

def badRequest (title details : String) : CheckError := .response 400 title details.toList

def once {α : Type} (seen : Option α) (field : String) : Except CheckError Unit :=
  if seen.isSome then .error (badRequest "Duplicated field" field) else .ok ()

def stringCheck (field : String) : KjNode → Except CheckError Text
  | .string s => .ok s
  | _ => .error (badRequest "Not a JSON String" field)

def arrayCheck (field : String) : KjNode → Except CheckError (List KjNode)
  | .array items => .ok items
  | _ => .error (badRequest "Not a JSON Array" field)

structure GeoQFields where
  geometry : Option Text
  coordinates : Option KjNode
  georel : Option Text
  geoproperty : Option KjNode

def geoQMember (f : GeoQFields) (m : Text × KjNode) : Except CheckError GeoQFields :=
  if m.1 = "geometry".toList then do
    once f.geometry "geometry"
    let s ← stringCheck "the 'geometry' field of a GeoJSON object must be a JSON String" m.2
    .ok { f with geometry := some s }
  else if m.1 = "coordinates".toList then do
    once f.coordinates "coordinates"
    let items ← arrayCheck "the 'coordinates' field of a GeoJSON object must be a JSON Array" m.2
    .ok { f with coordinates := some (.array items) }
  else if m.1 = "georel".toList then do
    once f.georel "georel"
    let s ← stringCheck "the 'georel' field of a GeoJSON object must be a JSON String" m.2
    .ok { f with georel := some s }
  else if m.1 = "geoproperty".toList then do
    once f.geoproperty "geoproperty"
    if f.georel.isNone then .error .fault else .ok { f with geoproperty := some m.2 }
  else .error (.response 400 "Invalid Payload Data - invalid field in geoQ" m.1)

def badFilter (detail : String) : Except Problem Unit :=
  .error ("Invalid Geo-Spatial filter", detail.toList)

def nearTest (geoType : GeoJsonType) (georel : Text) : Except Problem Unit :=
  if "near;".toList.isPrefixOf georel then
    if geoType ≠ .point then badFilter "Geometry must be 'Point' for georel 'near'" else .ok ()
  else if georel = "within".toList then
    if geoType ≠ .polygon ∧ geoType ≠ .multiPolygon then
      badFilter "Geometry must be either 'Polygon' or 'MultiPolygon' for georel 'within'"
    else .ok ()
  else if georel = "contains".toList then
    .error ("Not Inplemented",
      "georel 'contains' is not supported by mongodb and thus also not by Orion-LD".toList)
  else if ["overlaps", "intersects", "disjoint", "equals"].any (fun s => s.toList == georel) then
    .ok ()
  else .error ("Invalid Geo-Spatial filter - invalid 'georel'", georel)

/-- maxDistance or minDistance, two equal signs and digits. -/
def distanceTest (extra : Text) : Except Problem Unit :=
  match strstr "==".toList extra with
  | none => badFilter "no distance for georel 'near' for Point"
  | some offset =>
    if extra.take offset ≠ "maxDistance".toList ∧ extra.take offset ≠ "minDistance".toList then
      badFilter "no distance for georel 'near' for Point"
    else if (extra.drop (offset + 2)).all fun c => '0' ≤ c && c ≤ '9' then .ok ()
    else badFilter "invalid number for distance for georel 'near' for Point"

def pointTest (georel : Text) : Except Problem Unit :=
  match georel.dropWhile (· ≠ ';') with
  | [] => .ok ()
  | _ :: extra =>
    if georel.takeWhile (· ≠ ';') ≠ "near".toList then badFilter "invalid geo-relation for Point"
    else distanceTest extra

def pcheckGeoqGeorel (georel : Text) (geoType : GeoJsonType) : Except Problem Unit :=
  if georel = [] then .error ("Invalid Geo-Spatial Filter", "georel value is empty".toList)
  else do
    nearTest geoType georel
    if geoType = .point then pointTest georel else .ok ()

structure GeoQ where
  geometry : Text
  geoType : GeoJsonType
  coordinates : KjNode
  georel : Text
  geoproperty : Option Text

def geometryType (geometry : Text) : Except CheckError GeoJsonType :=
  if geometry = [] then
    .error (badRequest "Invalid Payload Data" "geometry cannot be an empty string")
  else match pcheckGeoType geometry with
    | .ok geoType => .ok geoType
    | .error _ => .error (badRequest "Invalid Payload Data" "invalid geometry")

def mandatory {α : Type} (field : String) : Option α → Except CheckError α
  | some a => .ok a
  | none =>
    .error (badRequest "Invalid Payload Data" ("mandatory geoQ field '" ++ field ++ "' is missing"))

/-- value.s of a node that may not be a string. -/
def geopropertyString : Option KjNode → Except CheckError (Option Text)
  | none => .ok none
  | some (.string s) => .ok (some s)
  | some _ => .error .fault

def checksAfter (f : GeoQFields) : Except CheckError GeoQ := do
  let geometry ← mandatory "geometry" f.geometry
  let coordinates ← mandatory "coordinates" f.coordinates
  let georel ← mandatory "georel" f.georel
  let geoType ← geometryType geometry
  (pcheckGeoqCoordinates coordinates geoType).mapError fun _ =>
    badRequest "Invalid Payload Data" "invalid coordinates"
  (pcheckGeoqGeorel georel geoType).mapError fun pd => .response 400 pd.1 pd.2
  let geoproperty ← geopropertyString f.geoproperty
  .ok ⟨geometry, geoType, coordinates, georel, geoproperty⟩

def geoQChecks (members : Members) : Except CheckError GeoQ := do
  let f ← members.foldlM geoQMember ⟨none, none, none, none⟩
  checksAfter f

end PcheckGeoQ
