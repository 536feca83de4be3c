import Mathlib.Data.Char
import Mathlib.Data.List.Lex
import OrionLd.StringFilterItems

/-! How subscriptions apply a filter to an entity: StringFilter::qMatch and mqMatch. Attributes,
metadata and items of compound values have a member for each kind of value, and a comparison
looks at the member that the value of the filter asks for. Buffers of fixed size are left out. -/
namespace StringFilterMatch

open MongoQuery (Bson)
open KjTree StringFilter StringFilterItems
open MongoLocation (ValueType)

/-- Only the member for the kind of the value has been set. -/
structure Members where
  valueType : ValueType
  stringValue : Text
  numberValue : ℚ
  boolValue : Bool
  compoundValueP : Option Bson

inductive MatchResult where
  | mrDoesntExist
  | mrIncompatibleType
  | mrNoMatch
  | mrMatch
  deriving DecidableEq, Repr

def matchOf (b : Bool) : MatchResult := if b then .mrMatch else .mrNoMatch

/-- The comparison of matchEquals with the member that the type of the filter's value names. -/
def memberEquals (value : FilterValue) (m : Members) : Bool :=
  match value with
  | .numberRange a b => !(decide (m.numberValue < a) || decide (b < m.numberValue))
  | .dateRange a b => !(decide (m.numberValue < a) || decide (b < m.numberValue))
  | .stringRange a b => !(decide (m.stringValue < a) || decide (b < m.stringValue))
  | .numberList xs => xs.any (m.numberValue == ·)
  | .dateList xs => xs.any (m.numberValue == ·)
  | .stringList ss => ss.any (m.stringValue == ·)
  | .number x => m.numberValue == x
  | .date x => m.numberValue == x
  | .bool b => m.boolValue == b
  | .string s => m.stringValue == s
  | .null => m.valueType == .null

def matchEquals (value : FilterValue) (m : Members) : MatchResult :=
  matchOf (memberEquals value m)

def compatibleType (value : FilterValue) (m : Members) : Bool :=
  match m.valueType, value with
  | .number, .number _ => true
  | .number, .date _ => true
  | .string, .string _ => true
  | _, _ => false

def numberOf : FilterValue → ℚ
  | .number x => x
  | .date x => x
  | _ => 0

def stringOf : FilterValue → Text
  | .string s => s
  | _ => []

def matchGreaterThan (value : FilterValue) (m : Members) : MatchResult :=
  if !compatibleType value m then .mrIncompatibleType
  else match m.valueType with
    | .number => matchOf (decide (numberOf value < m.numberValue))
    | .string => matchOf (decide (stringOf value < m.stringValue))
    | _ => .mrNoMatch

def matchLessThan (value : FilterValue) (m : Members) : MatchResult :=
  if !compatibleType value m then .mrIncompatibleType
  else match m.valueType with
    | .number => matchOf (decide (m.numberValue < numberOf value))
    | .string => matchOf (decide (m.stringValue < stringOf value))
    | _ => .mrNoMatch

def matchPattern (regexec : Text → Text → Bool) (value : FilterValue) (m : Members) :
    MatchResult :=
  if m.valueType ≠ .string then .mrIncompatibleType
  else matchOf (regexec (stringOf value) m.stringValue)

def childV : Bson → List (Text × Bson)
  | .obj fields => fields.map fun f => (eqForDot f.1, f.2)
  | .arr items => items.zipIdx.map fun f => ((toString f.2).toList, f.1)
  | _ => []

def nodeMembers : Bson → Members
  | .str s => ⟨.string, s, 0, false, none⟩
  | .num x => ⟨.number, [], x, false, none⟩
  | .bool b => ⟨.boolean, [], 0, b, none⟩
  | .null => ⟨.null, [], 0, false, none⟩
  | .obj fields => ⟨.object, [], 0, false, some (.obj fields)⟩
  | .arr items => ⟨.vector, [], 0, false, some (.arr items)⟩

def walk : List Text → Bson → Option Bson
  | [], node => some node
  | name :: names, node =>
    (((childV node).find? fun child => child.1 == eqForDot name).map Prod.snd).bind (walk names)

def compoundItem (compoundPath : Text) (m : Members) : Option Bson :=
  m.compoundValueP.bind fun root =>
    if stringSplit compoundPath '.' = [] then none else walk (stringSplit compoundPath '.') root

/-- The members that are compared: those of the value, or of an item of it. -/
def membersAt (compoundPath : Text) (m : Members) : Option Members :=
  if compoundPath = [] then some m else (compoundItem compoundPath m).map nodeMembers

def delegated (compoundPath : Text) (f : Members → MatchResult) (m : Members) : MatchResult :=
  match membersAt compoundPath m with
  | none => .mrDoesntExist
  | some m => f m

/-- The decision for an operator, which is not made for the unary ones. -/
def opHolds (regexec : Text → Text → Bool) (item : FilterItem) (m : Members) : Bool :=
  match item.op, item.value with
  | .sfopExists, _ => true
  | .sfopNotExists, _ => true
  | .sfopEquals, some x => delegated item.compoundPath (matchEquals x) m == .mrMatch
  | .sfopDiffers, some x => delegated item.compoundPath (matchEquals x) m == .mrNoMatch
  | .sfopGreaterThan, some x => delegated item.compoundPath (matchGreaterThan x) m == .mrMatch
  | .sfopLessThan, some x => delegated item.compoundPath (matchLessThan x) m == .mrMatch
  | .sfopGreaterThanOrEqual, some x =>
    delegated item.compoundPath (matchLessThan x) m == .mrNoMatch
  | .sfopLessThanOrEqual, some x =>
    delegated item.compoundPath (matchGreaterThan x) m == .mrNoMatch
  | .sfopMatchPattern, some x =>
    delegated item.compoundPath (matchPattern regexec x) m == .mrMatch
  | _, none => false

structure CerAttribute where
  name : Text
  members : Members
  metadataVector : List (Text × Members)
  creDate : ℚ
  modDate : ℚ

structure ContextElement where
  contextAttributeVector : List CerAttribute
  creDate : ℚ
  modDate : ℚ

/-- Two characters also count as equal when their sum is that of '.' and '='. The sum of a 'k'
and the end of a name is that too: the source reads on behind the name, here it differs. -/
def eqCmp : Text → Text → Bool
  | [], s2 => s2 == []
  | _ :: _, [] => false
  | c1 :: s1, c2 :: s2 => (c1 == c2 || c1.toNat + c2.toNat == 0x6B) && eqCmp s1 s2

def getAttribute (e : ContextElement) (attrName : Text) : Option CerAttribute :=
  e.contextAttributeVector.find? fun ca => eqCmp ca.name attrName

def lookupByName (ca : CerAttribute) (name : Text) : Option Members :=
  (ca.metadataVector.find? fun md => md.1 == eqForDot name).map Prod.snd

def dateCreated : Text := "dateCreated".toList
def dateModified : Text := "dateModified".toList

def isDateName (name : Text) : Bool := name == dateCreated || name == dateModified

/-- Besides the filter and the entity; a member that is not set holds something. -/
structure Surroundings where
  regexec : Text → Text → Bool
  unset : Bool

variable (sur : Surroundings)

def dateMembers (date : ℚ) : Members := ⟨.number, [], date, sur.unset, none⟩

def existsAt (compoundPath : Text) (m : Option Members) : Bool :=
  if compoundPath = [] then m.isSome
  else m.any fun m => (compoundItem compoundPath m).isSome

def unaryHolds (item : FilterItem) (m : Option Members) : Bool :=
  match item.op with
  | .sfopExists => existsAt item.compoundPath m
  | .sfopNotExists => !existsAt item.compoundPath m
  | _ => true

def qMatchItem (e : ContextElement) (item : FilterItem) : Bool :=
  unaryHolds item ((getAttribute e item.attributeName).map CerAttribute.members) &&
    if item.left = dateCreated ∨ item.left = dateModified then
      opHolds sur.regexec item
        (dateMembers sur (if item.left = dateCreated then e.creDate else e.modDate))
    else if item.op = .sfopNotExists then true
    else match getAttribute e item.attributeName with
      | none => false
      | some ca => opHolds sur.regexec item ca.members

def qMatch (items : List FilterItem) (e : ContextElement) : Bool := items.all (qMatchItem sur e)

/-- The turn of an item in mqMatch: without the attribute no item holds. -/
def mqMatchItem (e : ContextElement) (item : FilterItem) : Bool :=
  unaryHolds item
      ((getAttribute e item.attributeName).bind (lookupByName · item.metadataName)) &&
    match getAttribute e item.attributeName with
    | none => false
    | some ca =>
      if item.metadataName = dateCreated ∨ item.metadataName = dateModified then
        opHolds sur.regexec item
          (dateMembers sur (if item.metadataName = dateCreated then ca.creDate else ca.modDate))
      else if item.op = .sfopNotExists then true
      else match lookupByName ca item.metadataName with
        | none => false
        | some m => opHolds sur.regexec item m

def mqMatch (items : List FilterItem) (e : ContextElement) : Bool :=
  items.all (mqMatchItem sur e)

variable {value : FilterValue} {m : Members}

@[simp] theorem matchOf_match (b : Bool) : (matchOf b == .mrMatch) = b := by
  cases b <;> rfl

@[simp] theorem matchOf_noMatch (b : Bool) : (matchOf b == .mrNoMatch) = !b := by
  cases b <;> rfl

end StringFilterMatch
