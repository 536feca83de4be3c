import Mathlib.Data.Char
import Mathlib.Data.List.Lex
import OrionLd.MongoCommonUpdate
import OrionLd.OrderedMap

/-! The metadata of stored attributes: how those of a request are stored, merged with stored
ones, and compared with them. -/
namespace CustomMetadata

open MongoQuery (Bson)
open KjTree MongoLocation MongoCommonUpdate
open KjTreeToContextAttribute (Metadata)

structure MetadataDoc where
  type : Option Text
  value : Option Bson

abbrev StoredMetadata := List (Text × MetadataDoc)

def isNotCustomMetadata (v : ApiVersion) (mdName : Text) : Bool :=
  mdName == "ID".toList || mdName == "dateCreated".toList || mdName == "dateModified".toList ||
    (v != .ngsiLd && mdName == "location".toList)

def metadataValueType : CompoundValueNode → ValueType
  | .string _ => .string
  | .number _ => .number
  | .boolean _ => .boolean
  | .null => .null
  | .vector _ => .vector
  | .object _ => .object

/-- A type that is not given is empty. -/
def metadataType (useDefaultType : Bool) (md : Metadata) : Text :=
  if md.type = [] ∧ useDefaultType then (defaultType (metadataValueType md.value)).toList
  else md.type

def typeField (type : Text) : Option Text := if type = [] then none else some type

/-- The buffer has 256 bytes, and the last one is taken to end a longer name. -/
def copied (name : Text) : Text := name.take 255

def appendMetadata (useDefaultType : Bool) (md : Metadata) : Text × MetadataDoc :=
  (dotForEq (copied md.name),
    ⟨typeField (metadataType useDefaultType md), some (compoundValueBson md.value)⟩)

def customMetadata (v : ApiVersion) (metadataVector : List Metadata) : StoredMetadata :=
  (metadataVector.filter fun md => !isNotCustomMetadata v md.name).map (appendMetadata (v == .v2))

def hasMetadata (name : Text) (ca : ContextAttribute) : Bool :=
  ca.metadataVector.any fun md => md.name == name

def appendedAgain (md : Text × MetadataDoc) : Text × MetadataDoc :=
  (dotForEq (copied md.1), ⟨typeField (md.2.type.getD []), md.2.value⟩)

/-- The stored metadata are kept unless the attribute of an NGSIv2 request has them all. -/
def mergedMetadata (onlyValue : Bool) (v : ApiVersion) (old : StoredMetadata)
    (ca : ContextAttribute) : StoredMetadata :=
  customMetadata v ca.metadataVector ++
    if v ≠ .v2 ∨ onlyValue then
      ((OrderedMap.assignAll old).filter fun md => !hasMetadata (eqForDot (copied md.1)) ca).map
        appendedAgain
    else []

/-- Two compound values are not compared: they differ. -/
def equalMetadataValue : Option Bson → Option Bson → Bool
  | some (.num x), some (.num y) => x == y
  | some (.bool x), some (.bool y) => x == y
  | some (.str x), some (.str y) => x == y
  | some .null, some .null => true
  | _, _ => false

def equalMetadataValues (md md' : MetadataDoc) : Bool :=
  md.type == md'.type && equalMetadataValue md.value md'.value

def equalMetadata (md md' : StoredMetadata) : Bool :=
  md.all fun f => (md'.lookup f.1).any fun m => (md.lookup f.1).any (equalMetadataValues · m)

def metadataDiffers (onlyValue : Bool) (v : ApiVersion) (old : StoredMetadata)
    (ca : ContextAttribute) : Bool :=
  let new := mergedMetadata onlyValue v old ca
  new.length != (OrderedMap.assignAll old).length || !equalMetadata old new

/-- The updates with these metadata. The comparison of rendered compound values is left open. -/
def metadataEnv (numbers : Numbers) (compoundValueDiffers : CompoundValueNode → Option Bson → Bool)
    (noNotifyFalseUpdate onlyValue : Bool) : Env StoredMetadata where
  toNumbers := numbers
  noMetadata := []
  customMetadata := customMetadata
  mergedMetadata := mergedMetadata onlyValue
  metadataDiffers := metadataDiffers onlyValue
  compoundValueDiffers := compoundValueDiffers
  noNotifyFalseUpdate := noNotifyFalseUpdate

end CustomMetadata
