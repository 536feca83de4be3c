import OrionLd.StringFilter

/-! The coordinates of a GeoProperty as well-known text, in buffers of a fixed length. A character
of a text is a byte. A text that is none is that of bytes that were never written, or of a buffer
without a terminating zero, and none for a function is a read of a member that the node does not
have. -/
namespace KjGeoExtract

open KjTree StringFilter

variable (toDouble : ℚ → ℚ)

/-- What value.firstChildP and the next pointers lead to. -/
def children : KjNode → Option (List KjNode)
  | .array items => some items
  | .object members => some (members.map Prod.snd)
  | _ => none

structure Point where
  longitude : ℚ
  latitude : ℚ
  altitude : ℚ
  deriving DecidableEq

def coordinate : KjNode → Option ℚ
  | .float f => some f
  | .int i => some (toDouble i)
  | _ => none

/-- Some none where the function returns false. -/
def kjGeoPointExtract (coordinates : KjNode) : Option (Option Point) :=
  (children coordinates).map fun items =>
    match items.mapM (coordinate toDouble) with
    | some [longitude, latitude] => some ⟨longitude, latitude, 0⟩
    | some [longitude, latitude, altitude] => some ⟨longitude, latitude, altitude⟩
    | _ => none

def pointText (p : Point) : Text :=
  printfF p.longitude ++ ' ' :: (printfF p.latitude ++ ' ' :: printfF p.altitude)

def pointBufferSize : ℕ := 64

def pointBuffer (p : Point) : Text := (pointText p).take (pointBufferSize - 1)

/-- What a function returns, and the text in the buffer. -/
structure Extracted where
  ok : Bool
  text : Option Text

/-- A comma in front of each item but the first, as long as there is room. Of an item, none is a
fault, and some none a failure that ends the loop. -/
def addItems (len start : ℕ) (coords : Text) :
    List (Option (Option Text)) → Option (Bool × Text)
  | [] => some (true, coords)
  | none :: _ => none
  | some none :: _ => some (false, coords)
  | some (some item) :: items =>
    if len ≤ coords.length + item.length + 1 then some (false, coords)
    else addItems len start ((if coords.length = start then coords else coords ++ [',']) ++ item)
      items

/-- Characters without a terminating zero, over the text that was there. -/
def overwrite (old : Option Text) (coords : Text) : Option Text :=
  old.bind fun t => if coords.length ≤ t.length then some (coords ++ t.drop coords.length) else none

/-- strncpy has filled the buffer with zeros behind every item, and a last character needs one zero
more. -/
def bufferText (len start : ℕ) (old : Option Text) (coords close : Text) : Option Text :=
  if coords.length = start then overwrite old (coords ++ close)
  else if close = [] ∨ (coords ++ close).length < len then some (coords ++ close)
  else none

def pointItems (points : List KjNode) : List (Option (Option Text)) :=
  points.map fun point => (kjGeoPointExtract toDouble point).map (Option.map pointBuffer)

def kjGeoMultiPointExtract (coordsLen : ℕ) (old : Option Text) (coordinates : KjNode) :
    Option Extracted := do
  let points ← children coordinates
  let (ok, coords) ← addItems coordsLen 0 [] (pointItems toDouble points)
  some ⟨ok, bufferText coordsLen 0 old coords []⟩

/-- The same loop as that of kjGeoMultiPointExtract. -/
def kjGeoLineStringExtract (lineStringCoordsLen : ℕ) (old : Option Text) (coordinates : KjNode) :
    Option Extracted :=
  kjGeoMultiPointExtract toDouble lineStringCoordsLen old coordinates

/-- Items that are extracted one after the other in one buffer, and then copied. -/
def bufferedItems (extract : Option Text → KjNode → Option Extracted) (copy : Text → Text) :
    Option Text → List KjNode → List (Option (Option Text))
  | _, [] => []
  | old, node :: nodes =>
    match extract old node with
    | none => [none]
    | some extracted =>
      if extracted.ok = false then [some none]
      else match extracted.text with
        | none => [none]
        | some text => some (some (copy text)) :: bufferedItems extract copy (some text) nodes

def lineStringCoordsSize : ℕ := 1024

def inParentheses (text : Text) : Text := '(' :: (text ++ [')'])

def kjGeoMultiLineStringExtract (coordsLen : ℕ) (coordinates : KjNode) : Option Extracted := do
  let lineStrings ← children coordinates
  let (ok, coords) ← addItems coordsLen 0 [] (bufferedItems
    (kjGeoLineStringExtract toDouble lineStringCoordsSize) inParentheses none lineStrings)
  some ⟨ok, bufferText coordsLen 0 none coords []⟩

def ringItems (subPolygons : List KjNode) : List (Option (Option Text)) :=
  subPolygons.flatMap fun subPolygon =>
    match children subPolygon with
    | none => [none]
    | some points => pointItems toDouble points

def kjGeoPolygonExtract (polygonCoordsLen : ℕ) (old : Option Text) (coordinates : KjNode) :
    Option Extracted := do
  let subPolygons ← children coordinates
  let (ok, coords) ← addItems polygonCoordsLen 1 ['('] (ringItems toDouble subPolygons)
  some ⟨ok, bufferText polygonCoordsLen 1 old coords (if ok then [')'] else [])⟩

def polygonCoordsSize : ℕ := 2048

def kjGeoMultiPolygonExtract (coordsLen : ℕ) (coordinates : KjNode) : Option Extracted := do
  let polygons ← children coordinates
  let (ok, coords) ← addItems coordsLen 1 ['('] (bufferedItems
    (kjGeoPolygonExtract toDouble polygonCoordsSize) id none polygons)
  some ⟨ok, bufferText coordsLen 1 none coords (if ok then [')'] else [])⟩

inductive GeoType where
  | point
  | multiPoint
  | lineString
  | multiLineString
  | polygon
  | multiPolygon
  deriving DecidableEq

/-- A failure to extract is logged and otherwise ignored. -/
def geoText (coordsLen : ℕ) (coordinates : KjNode) : GeoType → Option Text
  | .point => do
    let p ← (← kjGeoPointExtract toDouble coordinates)
    some ("POINT(".toList ++ pointText p ++ [')'])
  | .multiPoint => do
    let coords ← (← kjGeoMultiPointExtract toDouble coordsLen none coordinates).text
    some ("MULTIPOINT(".toList ++ coords ++ [')'])
  | .lineString => do
    let coords ← (← kjGeoLineStringExtract toDouble coordsLen none coordinates).text
    some ("LINESTRING(".toList ++ coords ++ [')'])
  | .multiLineString => do
    let coords ← (← kjGeoMultiLineStringExtract toDouble coordsLen coordinates).text
    some ("MULTILINESTRING(".toList ++ coords ++ [')'])
  | .polygon => do
    let coords ← (← kjGeoPolygonExtract toDouble coordsLen none coordinates).text
    some ("POLYGON(".toList ++ coords ++ [')'])
  | .multiPolygon => do
    let coords ← (← kjGeoMultiPolygonExtract toDouble coordsLen coordinates).text
    some ("MULTIPOLYGON(".toList ++ coords ++ [')'])

end KjGeoExtract
