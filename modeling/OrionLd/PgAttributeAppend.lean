import OrionLd.KjGeoExtract
import OrionLd.RegistrationDocument
import OrionLd.SqlRows
import OrionLd.StringFilterRoundTrip

/-! The rows of the temporal database: the templates that pgAttributeAppend and subAttributeAppend
share, and the buffers their text goes to. A character of a text is a byte, and a result that is
none is a null pointer that is followed, memory that was never written, or a write behind the end of
a buffer. -/
namespace PgAttributeAppend

open KjTree KjGeoExtract SqlRows
open RegistrationDocument (DateEnv)
open StringFilter (printfF)
open StringFilterRoundTrip (intText)

structure PgAppendBuffer where
  buf : Text
  bufSize : ℕ
  allocated : Bool
  values : ℕ

def grownSize (bufSize : ℕ) : ℕ :=
  let size := bufSize + 4 * 1024
  if size < 16 * 1024 then size
  else if 32 * 1024 < size then size + 12 * 1024
  else size

/-- One step larger, whatever the length of the tail. -/
def grow (pgBuf : PgAppendBuffer) : PgAppendBuffer :=
  { pgBuf with
    bufSize := grownSize pgBuf.bufSize
    allocated := pgBuf.allocated || decide (16 * 1024 ≤ pgBuf.bufSize + 4 * 1024) }

@[simp] theorem grow_buf (pgBuf : PgAppendBuffer) : (grow pgBuf).buf = pgBuf.buf := by
  simp only [grow]
@[simp] theorem grow_values (pgBuf : PgAppendBuffer) : (grow pgBuf).values = pgBuf.values := by
  simp only [grow]
@[simp] theorem grow_bufSize (pgBuf : PgAppendBuffer) :
    (grow pgBuf).bufSize = grownSize pgBuf.bufSize := by
  simp only [grow]

def pgAppend (pgBuf : PgAppendBuffer) (tail : Text) : Option PgAppendBuffer :=
  let pgBuf := if pgBuf.bufSize ≤ pgBuf.buf.length + tail.length then grow pgBuf else pgBuf
  if pgBuf.buf.length + tail.length < pgBuf.bufSize then
    some { pgBuf with buf := pgBuf.buf ++ tail }
  else none

/-- What snprintf leaves of a text in a buffer. -/
def snprintf (bufSize : ℕ) (text : Text) : Text := text.take (bufSize - 1)

/-- No template is empty, so that the first character is never 0. -/
def appendRow (buffer : PgAppendBuffer) (bufSize : ℕ) (row : Text) : Option PgAppendBuffer := do
  let comma := if buffer.values ≠ 0 then [','] else []
  let appended ← pgAppend buffer (snprintf bufSize (comma ++ row))
  some { appended with values := appended.values + 1 }

/-- What is called, or set by the request, outside these functions. A double is what a number
is rounded to. -/
structure TroeEnv where
  toDouble : ℚ → ℚ
  kjFastRender : KjNode → Text
  requestTimeString : Text
  dates : DateEnv

variable (env : TroeEnv)

/-- The string between quotes, with the quotes of its own as they are. -/
def pgQuotedString (s : Text) : Cell := .quoted s

def nullCell : Cell := .word "null".toList

def nulls (n : ℕ) : List Cell := List.replicate n nullCell

def optionalCell : Option Text → Cell
  | none => nullCell
  | some s => pgQuotedString s

def boolCell (b : Bool) : Cell := .word (if b then "true".toList else "false".toList)

/-- The value type and the columns of values, null but for one. -/
def valueCells (valueType : String) (before : ℕ) (cell : Cell) (after : ℕ) : List Cell :=
  .quoted valueType.toList :: (nulls before ++ cell :: nulls after)

def geomFromText (text : Text) (srid : Option Text) : Cell :=
  .call "ST_GeomFromText".toList text srid

def srid4326 : Option Text := some "4326".toList

def geoCells (text : Text) : GeoType → List Cell
  | .point => valueCells "GeoPoint" 5 (geomFromText text none) 5
  | .multiPoint => valueCells "GeoMultiPoint" 6 (geomFromText text srid4326) 4
  | .lineString => valueCells "GeoLineString" 9 (geomFromText text srid4326) 1
  | .multiLineString => valueCells "GeoMultiLineString" 10 (geomFromText text srid4326) 0
  | .polygon => valueCells "GeoPolygon" 7 (geomFromText text none) 3
  | .multiPolygon => valueCells "GeoMultiPolygon" 8 (geomFromText text srid4326) 2

def geoTypeOf (geoType : Text) : Option GeoType :=
  if geoType = "Point".toList then some .point
  else if geoType = "MultiPoint".toList then some .multiPoint
  else if geoType = "LineString".toList then some .lineString
  else if geoType = "MultiLineString".toList then some .multiLineString
  else if geoType = "Polygon".toList then some .polygon
  else if geoType = "MultiPolygon".toList then some .multiPolygon
  else none

def geoTypeName (value : KjNode) : Option Text :=
  match kjLookup value "type" with
  | some (.string geoType) => some geoType
  | _ => none

def geoPropertyCells (coordsLen : GeoType → ℕ) (value : KjNode) : Option (List Cell) := do
  let type ← geoTypeOf (← geoTypeName value)
  let coordinates ← kjLookup value "coordinates"
  let text ← geoText env.toDouble (coordsLen type) coordinates type
  some (geoCells text type)

def propertyCells : KjNode → Option (List Cell)
  | .string s => some (valueCells "String" 0 (.quoted s) 10)
  | .bool b => some (valueCells "Boolean" 1 (boolCell b) 9)
  | .int i => some (valueCells "Number" 2 (.word (intText i)) 8)
  | .float x => some (valueCells "Number" 2 (.word (printfF x)) 8)
  | .array items => some (valueCells "Compound" 4 (.quoted (env.kjFastRender (.array items))) 6)
  | .object members =>
    some (valueCells "Compound" 4 (.quoted (env.kjFastRender (.object members))) 6)
  -- no template for null: buf is never written
  | .null => none

def typedCells (coordsLen : GeoType → ℕ) (type : Text) (value : Option KjNode)
    (object : Option Text) : Option (List Cell) :=
  if type = "Relationship".toList then
    object.map fun object => valueCells "Relationship" 0 (.quoted object) 10
  else if type = "GeoProperty".toList then value.bind (geoPropertyCells env coordsLen)
  else value.bind (propertyCells env)

/-- The parameters of pgAttributeAppend. A pointer that can be NULL is an option. -/
structure AttributeArgs where
  instanceId : Text
  attributeName : Text
  opMode : Text
  entityId : Text
  type : Option Text
  observedAt : Option Text
  subProperties : Bool
  unitCode : Option Text
  datasetId : Option Text
  value : Option KjNode
  object : Option Text

def AttributeArgs.isDelete (a : AttributeArgs) : Bool := decide (a.opMode = "Delete".toList)

def AttributeArgs.datasetCell (a : AttributeArgs) : Cell :=
  .quoted (a.datasetId.getD "None".toList)

def attributeCoordsLen (_ : GeoType) : ℕ := 10 * 1024

def attributeCells (a : AttributeArgs) : Option (List Cell) :=
  if a.isDelete then
    some ([.quoted a.instanceId, .quoted a.attributeName, .quoted "Delete".toList,
      .quoted a.entityId, nullCell, nullCell, nullCell, a.datasetCell] ++ nulls 12 ++
        [.quoted env.requestTimeString])
  else do
    let cells ← typedCells env attributeCoordsLen (← a.type) a.value a.object
    some ([.quoted a.instanceId, .quoted a.attributeName, .quoted a.opMode,
      .quoted a.entityId, optionalCell a.observedAt, boolCell a.subProperties,
      optionalCell a.unitCode, a.datasetCell] ++ cells ++ [.quoted env.requestTimeString])

/-- A geometry that is no point has a buffer of its own. -/
def attributeBufSize (a : AttributeArgs) : ℕ :=
  if a.isDelete = false ∧ a.type = some "GeoProperty".toList ∧
      a.value.bind geoTypeName ≠ some "Point".toList then 11 * 1024
  else 2 * 1024

def pgAttributeAppend (attributesBuffer : PgAppendBuffer) (a : AttributeArgs) :
    Option PgAppendBuffer := do
  let cells ← attributeCells env a
  appendRow attributesBuffer (attributeBufSize a) (rowText cells)

end PgAttributeAppend
