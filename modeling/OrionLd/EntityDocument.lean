import OrionLd.RegistrationDocument

/-! The document of an entity in the database and what both ways of reading an entity start from. A
field name of attrs or md is a long name with '=' for '.', and no field is there twice. The type and
the dates of a sub-attribute may be absent: an empty type. -/
namespace EntityDocument

open KjTree OrionldContextItem MongoCppLegacyCodec

abbrev Fields := List (Text × BsonValue)

structure StoredMetadata where
  createdAt : Option ℚ
  modifiedAt : Option ℚ
  type : Text
  value : BsonValue

structure StoredAttribute where
  type : Text
  value : BsonValue
  md : List (Text × StoredMetadata)
  mdNames : List Text
  creDate : ℚ
  modDate : ℚ
  mdOnce : (md.map Prod.fst).Nodup

/-- An entity whose attributes have only their default instance: the document has no
@datasets. -/
structure StoredEntity where
  id : Text
  type : Text
  servicePath : Text
  attrs : List (Text × StoredAttribute)
  creDate : ℚ
  modDate : ℚ
  attrsOnce : (attrs.map Prod.fst).Nodup

/-- What orionldState holds of a request. -/
structure Options where
  keyValues : Bool
  sysAttrs : Bool

def stampField (name : String) (date : Option ℚ) : Fields :=
  (date.map fun x => (name.toList, BsonValue.double x)).toList

/-- In the order in which appendMetadata writes. -/
def metadataDoc (md : StoredMetadata) : Fields :=
  stampField "createdAt" md.createdAt ++ stampField "modifiedAt" md.modifiedAt ++
    (if md.type = [] then [] else [("type".toList, .string md.type)]) ++
    [("value".toList, md.value)]

def mdDoc (md : List (Text × StoredMetadata)) : Fields :=
  md.map fun m => (m.1, .object (metadataDoc m.2))

def attributeDoc (a : StoredAttribute) : Fields :=
  [("type".toList, .string a.type), ("value".toList, a.value)] ++
    (if a.md = [] then [] else [("md".toList, .object (mdDoc a.md))]) ++
    [("mdNames".toList, .array (a.mdNames.map .string)), ("creDate".toList, .double a.creDate),
      ("modDate".toList, .double a.modDate)]

def attrsDoc (attrs : List (Text × StoredAttribute)) : Fields :=
  attrs.map fun a => (a.1, .object (attributeDoc a.2))

def entityDoc (e : StoredEntity) : Fields :=
  [("_id".toList, .object [("id".toList, .string e.id), ("type".toList, .string e.type),
      ("servicePath".toList, .string e.servicePath)]),
    ("attrs".toList, .object (attrsDoc e.attrs)),
    ("creDate".toList, .double e.creDate), ("modDate".toList, .double e.modDate)]

variable (c : Contexts)

/-- What orionldContextItemAliasLookup says through its third argument. -/
def valueMayBeCompacted (longName : Text) : Bool :=
  if c.defaultUrl.isPrefixOf longName then false
  else match orionldContextItemValueLookup c longName with
    | none => false
    | some item => item.type == some "@vocab".toList

end EntityDocument
