import OrionLd.KjTree

/-! Expansion and compaction of attribute names under an @context.
A context is the list of its items, those of an array of contexts one after the other, and
a lookup finds the first. The core context is always searched before the user's. -/
namespace OrionldContextItem

open KjTree

structure ContextItem where
  name : Text
  id : Text
  type : Option Text

structure Contexts where
  core : List ContextItem
  context : List ContextItem
  defaultUrl : Text

def orionldContextItemLookup (c : Contexts) (name : Text) : Option ContextItem :=
  (c.core.find? fun item => item.name == name).or
    (c.context.find? fun item => item.name == name)

def orionldContextItemValueLookup (c : Contexts) (longName : Text) : Option ContextItem :=
  (c.core.find? fun item => item.id == longName).or
    (c.context.find? fun item => item.id == longName)

/-- What stands before the colon is looked up, unless the name is a URN or has "//" after it. -/
def orionldContextPrefixExpand (c : Contexts) (str : Text) : Text :=
  if "urn:".toList.isPrefixOf str then str
  else
    let start := str.takeWhile (· ≠ ':')
    let rest := str.dropWhile (· ≠ ':')
    if "://".toList.isPrefixOf rest then str
    else match orionldContextItemLookup c start with
      | some item => item.id ++ rest.tail
      | none => str

/-- The long name, and the context item when the lookup of the whole name found one. -/
def orionldContextItemExpand (c : Contexts) (shortName : Text) : Text × Option ContextItem :=
  if ':' ∈ shortName then (orionldContextPrefixExpand c shortName, none)
  else match orionldContextItemLookup c shortName with
    | none => (c.defaultUrl ++ shortName, none)
    | some item => (item.id, some item)

def orionldContextItemAlreadyExpanded (value : Text) : Bool :=
  ["urn:", "http://", "https://"].any fun start => start.toList.isPrefixOf value

def expandUnless (special : List String) (c : Contexts) (shortName : Text) :
    Text × Option ContextItem :=
  if special.any (fun name => name.toList == shortName) ||
      orionldContextItemAlreadyExpanded shortName then (shortName, none)
  else orionldContextItemExpand c shortName

def orionldAttributeExpand : Contexts → Text → Text × Option ContextItem :=
  expandUnless ["location", "observationSpace", "operationSpace", "observedAt"]

def orionldSubAttributeExpand : Contexts → Text → Text × Option ContextItem :=
  expandUnless ["type", "value", "object", "location", "observedAt", "unitCode", "datasetId"]

def orionldContextItemAliasLookup (c : Contexts) (longName : Text) : Text :=
  if c.defaultUrl.isPrefixOf longName then longName.drop c.defaultUrl.length
  else match orionldContextItemValueLookup c longName with
    | none => longName
    | some item => item.name

end OrionldContextItem
