import OrionLd.PgAttributeAppend

/-! The rows of sub-attributes: the members of the sub-attribute as pgSubAttributeBuild reads
them, and the template of subAttributeAppend. -/
namespace PgSubAttributeBuild

open KjTree KjGeoExtract SqlRows PgAttributeAppend
open RegistrationDocument (numberToDate)

variable (env : TroeEnv)

def pgObservedAtExtract : KjNode → Text
  | .string s => s
  | .float x => numberToDate env.dates x
  | _ => "1970:01:01T00:00:00.000Z".toList

def lastMember (members : Members) (name : String) : Option KjNode :=
  members.reverse.lookup name.toList

/-- value.s of a node, none where the node is no string. -/
def valueS : KjNode → Option Text
  | .string s => some s
  | _ => none

/-- The unit code of a node that is no string is used all the same. -/
structure SubAttributeArgs where
  instanceId : Text
  subAttributeName : Text
  entityId : Text
  attrInstanceId : Text
  attrDatasetId : Option Text
  type : Option Text
  observedAt : Option Text
  unitCode : Option KjNode
  value : Option KjNode
  object : Option Text

def subAttributeCoordsLen : GeoType → ℕ
  | .point => 0
  | .multiPoint => 2048
  | .lineString => 10240
  | .multiLineString => 10240
  | .polygon => 2048
  | .multiPolygon => 4096

def unitCodeCell : Option KjNode → Option Cell
  | none => some nullCell
  | some node => (valueS node).map pgQuotedString

def datasetCell : Option Text → Cell
  | none => .quoted "None".toList
  | some attrDatasetId => pgQuotedString attrDatasetId

def subAttributeCells (a : SubAttributeArgs) : Option (List Cell) := do
  let unitCode ← unitCodeCell a.unitCode
  let cells ← typedCells env subAttributeCoordsLen (← a.type) a.value a.object
  some ([.quoted a.instanceId, .quoted a.subAttributeName, .quoted a.entityId,
    .quoted a.attrInstanceId, datasetCell a.attrDatasetId, optionalCell a.observedAt,
    unitCode] ++ cells ++ [.quoted env.requestTimeString])

def subAttributeBufSize : ℕ := 20480

def subAttributeAppend (subAttributesBuffer : PgAppendBuffer) (a : SubAttributeArgs) :
    Option PgAppendBuffer := do
  let cells ← subAttributeCells env a
  appendRow subAttributesBuffer subAttributeBufSize (rowText cells)

/-- The parameters of pgSubAttributeBuild, with the identifier that uuidGenerate makes. -/
structure SubAttribute where
  instanceId : Text
  entityId : Text
  attrInstanceId : Text
  attrDatasetId : Option Text
  name : Text
  node : KjNode

def subAttributeArgs (s : SubAttribute) (members : Members) : SubAttributeArgs where
  instanceId := s.instanceId
  subAttributeName := s.name
  entityId := s.entityId
  attrInstanceId := s.attrInstanceId
  attrDatasetId := s.attrDatasetId
  type := (lastMember members "type").bind valueS
  observedAt := (lastMember members "observedAt").map (pgObservedAtExtract env)
  unitCode := lastMember members "unitCode"
  value := lastMember members "value"
  object := (lastMember members "object").bind valueS

/-- A node that is no object is left out. -/
def pgSubAttributeBuild (subAttributesBuffer : PgAppendBuffer) (s : SubAttribute) :
    Option PgAppendBuffer :=
  match s.node with
  | .object members => subAttributeAppend env subAttributesBuffer (subAttributeArgs env s members)
  | _ => some subAttributesBuffer

end PgSubAttributeBuild
