import OrionLd.OrionldPatchAttribute

/-! The check of a subscription fragment: pcheckSubscription with the checks of its parts. It also
edits the tree: names are expanded, the coordinates of a geoQ become a text, and q is rewritten by a
scanner of its characters into a buffer of fixed size. -/
namespace PcheckSubscription

open KjTree OrionldContextItem KjTreeToContextAttribute PcheckGeoQ
open OrionldPatchAttribute (shortNameDetail)

structure RenderEnv extends Env where
  kjFastRender : KjNode → Text
  floatText : ℚ → Text

def emptyStringCheck (field : String) (s : Text) : Except CheckError Unit :=
  if s = [] then .error (badRequest "Empty String" field) else .ok ()

def objectCheck (field : String) : KjNode → Except CheckError Members
  | .object [] => .error (badRequest "Empty Object" field)
  | .object members => .ok members
  | _ => .error (badRequest "Not a JSON Object" field)

def itemsCheck (field : String) : KjNode → Except CheckError (List KjNode)
  | .array [] => .error (badRequest "Empty Array" field)
  | .array items => .ok items
  | _ => .error (badRequest "Not a JSON Array" field)

def uriCheck (field : String) (s : Text) : Except CheckError Unit :=
  if pcheckUri s then .ok () else .error (badRequest "Not a URI" field)

/-- DATETIME_CHECK into an integer, for which a result between -2 and -1 is -1 too. -/
def dateTimeCheck (env : Env) (field : String) (s : Text) : Except CheckError Unit :=
  match env.parse8601Time s with
  | none => .error (badRequest "Invalid DateTime value" field)
  | some t =>
    if -2 < t ∧ t ≤ -1 then .error (badRequest "Invalid DateTime value" field) else .ok ()

def unseen (seen : List String) (field : String) : Except CheckError (List String) :=
  if field ∈ seen then .error (badRequest "Duplicated field" field) else .ok (field :: seen)

abbrev MemberCheck :=
  List String → Text × KjNode → Except CheckError (List String × (Text × KjNode))

def checkMembers (check : MemberCheck) : List String → Members →
    Except CheckError (List String × Members)
  | seen, [] => .ok (seen, [])
  | seen, m :: members => do
    let (seen, m) ← check seen m
    let (seen, members) ← checkMembers check seen members
    .ok (seen, m :: members)

def checkItems (check : KjNode → Except CheckError KjNode) :
    List KjNode → Except CheckError (List KjNode)
  | [] => .ok []
  | item :: items => do
    let item ← check item
    let items ← checkItems check items
    .ok (item :: items)

variable (c : Contexts)

def entityTypeExpand (s : Text) : Text :=
  if orionldContextItemAlreadyExpanded s then s else (orionldContextItemExpand c s).1

def entityInfoMember : MemberCheck := fun seen m =>
  if m.1 = "id".toList ∨ m.1 = "@id".toList then do
    let seen ← unseen seen "entities[X]::id"
    let s ← stringCheck "entities[X]::id" m.2
    emptyStringCheck "entities[X]::id" s
    uriCheck "entities[X]::id" s
    .ok (seen, m)
  else if m.1 = "idPattern".toList then do
    let seen ← unseen seen "entities[X]::idPattern"
    let s ← stringCheck "entities[X]::idPattern" m.2
    emptyStringCheck "entities[X]::idPattern" s
    .ok (seen, m)
  else if m.1 = "type".toList ∨ m.1 = "@type".toList then do
    let seen ← unseen seen "entities[X]::type"
    let s ← stringCheck "entities[X]::type" m.2
    emptyStringCheck "entities[X]::type" s
    if (shortNameDetail s).isSome then .error (badRequest "Not a URI" "entities[X]::type")
    else .ok (seen, (m.1, .string (entityTypeExpand c s)))
  else .error (.response 400 "Invalid field for entities[X]" m.1)

def pcheckEntityInfo (typeMandatory : Bool) (node : KjNode) : Except CheckError KjNode := do
  let members ← objectCheck "entities[X]" node
  let (seen, members) ← checkMembers (entityInfoMember c) [] members
  if typeMandatory ∧ "entities[X]::type" ∉ seen then
    .error (badRequest "Missing mandatory field" "entities[X]::type")
  else .ok (.object members)

def pcheckEntityInfoArray (typeMandatory : Bool) (items : List KjNode) :
    Except CheckError (List KjNode) :=
  checkItems (pcheckEntityInfo c typeMandatory) items

def attributeName (field : String) (node : KjNode) : Except CheckError KjNode := do
  let s ← stringCheck field node
  .ok (.string (orionldAttributeExpand c s).1)

def endpointMember : MemberCheck := fun seen m =>
  if m.1 = "uri".toList then do
    let seen ← unseen seen "endpoint::uri"
    let s ← stringCheck "endpoint::uri" m.2
    uriCheck "endpoint::uri" s
    .ok (seen, m)
  else if m.1 = "accept".toList then do
    let seen ← unseen seen "endpoint::accept"
    let s ← stringCheck "endpoint::accept" m.2
    emptyStringCheck "endpoint::accept" s
    if s ≠ "application/json".toList ∧ s ≠ "application/ld+json".toList then
      .error (.response 400 "Unsupported Mime-type in 'accept'" s)
    else .ok (seen, m)
  else .error (.response 400 "Invalid field for 'endpoint'" m.1)

def pcheckEndpoint (members : Members) : Except CheckError Members := do
  let (seen, members) ← checkMembers endpointMember [] members
  if "endpoint::uri" ∉ seen then
    .error (badRequest "Mandatory field missing in 'endpoint'" "uri")
  else .ok members

def badFormatText : String :=
  "Invalid value of 'format' (must be either 'keyValues' or 'normalized'"

def notificationMember : MemberCheck := fun seen m =>
  if m.1 = "attributes".toList then do
    let seen ← unseen seen "attributes"
    let items ← itemsCheck "attributes" m.2
    let items ← checkItems (attributeName c "attributes array item") items
    .ok (seen, (m.1, .array items))
  else if m.1 = "format".toList then do
    let seen ← unseen seen "format"
    let s ← stringCheck "format" m.2
    emptyStringCheck "format" s
    if s ≠ "keyValues".toList ∧ s ≠ "normalized".toList then .error (.response 400 badFormatText s)
    else .ok (seen, m)
  else if m.1 = "endpoint".toList then do
    let seen ← unseen seen "endpoint"
    let members ← objectCheck "endpoint" m.2
    let members ← pcheckEndpoint members
    .ok (seen, (m.1, .object members))
  else if m.1 = "status".toList then
    .error (badRequest "Invalid field for notification" "'status' is read-only")
  else .error (.response 400 "Invalid field for notification" m.1)

def pcheckNotification (node : KjNode) : Except CheckError KjNode := do
  let members ← objectCheck "notification" node
  let (seen, members) ← checkMembers (notificationMember c) [] members
  if "endpoint" ∉ seen then .error (badRequest "Mandatory field missing" "endpoint")
  else .ok (.object members)

variable (env : RenderEnv)

/-- The point as three numbers at most, in a buffer of 128 characters. -/
def pointText (items : List KjNode) : Text :=
  (",".toList.intercalate (items.map fun
    | .float f => env.floatText f
    | .int i => env.floatText i
    | _ => [])).take 127

def ngsildCoordinatesToAPIv1Datamodel (geometry : Text) (coordinates : KjNode) : Text :=
  match coordinates with
  | .array items =>
    if geometry = "Point".toList then pointText env items else env.kjFastRender coordinates
  | _ => env.kjFastRender coordinates

def geopropertyName (name : Text) : Text :=
  if name = "location".toList then name
  else dotForEq (orionldAttributeExpand env.toContexts name).1

def geoQTree (g : GeoQ) (m : Text × KjNode) : Text × KjNode :=
  if m.1 = "coordinates".toList then
    ("coords".toList, .string (ngsildCoordinatesToAPIv1Datamodel env g.geometry m.2))
  else match m.1 == "geoproperty".toList, m.2 with
    | true, .string s => (m.1, .string (geopropertyName env s))
    | _, _ => m

def pcheckGeoQ (members : Members) : Except CheckError Members := do
  let g ← geoQChecks members
  .ok (members.map (geoQTree env g))

/-- The output, the name since varStart, and whether it is still inside of the name. -/
structure Scan where
  out : Text
  name : Text
  closed : Bool
  insideVarName : Bool

def isOperator (c0 : Char) (c1 : Option Char) : Bool :=
  (c1 == some '=' && ['=', '!', '~', '<', '>'].contains c0) || c0 == '<' || c0 == '>'

def scanOther (s : Scan) (c0 : Char) : Scan :=
  { s with
    out := if s.insideVarName then s.out else s.out ++ [c0]
    name := if s.closed then s.name else s.name ++ [c0] }

section

variable (rename : Text → Text)

/-- qAliasCompact, with what becomes of a name. An operator of two characters is taken whole. -/
def qScan : Text → Scan → Scan
  | [], s => s
  | '!' :: cs, s => qScan cs ⟨s.out ++ ['!'], [], false, s.insideVarName⟩
  | c0 :: '=' :: cs, s =>
    if isOperator c0 (some '=') then
      qScan cs ⟨s.out ++ rename s.name ++ [c0, '='], s.name, true, false⟩
    else if c0 = ';' then qScan ('=' :: cs) ⟨s.out ++ [';'], [], false, true⟩
    else qScan ('=' :: cs) (scanOther s c0)
  | c0 :: cs, s =>
    if isOperator c0 none then qScan cs ⟨s.out ++ rename s.name ++ [c0], s.name, true, false⟩
    else if c0 = ';' then qScan cs ⟨s.out ++ [';'], [], false, true⟩
    else qScan cs (scanOther s c0)

/-- The output has room for 2048 characters. -/
def qAliasRename (q : Text) : Except CheckError Text :=
  let out := (qScan rename q ⟨[], [], false, true⟩).out
  if out.length < 2048 then .ok out else .error .fault

end

/-- With compact not set. -/
def qAliasExpand (c : Contexts) : Text → Except CheckError Text :=
  qAliasRename fun name => (orionldAttributeExpand c name).1

def boolCheck (field : String) : KjNode → Except CheckError Unit
  | .bool _ => .ok ()
  | _ => .error (badRequest "Not a JSON Boolean" field)

def integerCheck (field : String) : KjNode → Except CheckError Unit
  | .int _ => .ok ()
  | _ => .error (badRequest "Not a JSON Integer" field)

def numberCheck (field : String) : KjNode → Except CheckError Unit
  | .int i =>
    if i < 0 then .error (badRequest "Negative Number not allowed in this position" field)
    else .ok ()
  | .float f =>
    if f < 0 then .error (badRequest "Negative Number not allowed in this position" field)
    else .ok ()
  | _ => .error (badRequest "Not a JSON Number" field)

def subscriptionMember (idCanBePresent : Bool) : MemberCheck := fun seen m =>
  if m.1 = "id".toList ∨ m.1 = "@id".toList then
    if idCanBePresent then do
      let seen ← unseen seen "id"
      let s ← stringCheck (String.ofList m.1) m.2
      uriCheck (String.ofList m.1) s
      .ok (seen, m)
    else .error (badRequest "The Subscription ID cannot be modified" "id")
  else if m.1 = "type".toList ∨ m.1 = "@type".toList then do
    let seen ← unseen seen "type"
    let s ← stringCheck (String.ofList m.1) m.2
    if s ≠ "Subscription".toList then
      .error (.response 400 "Invalid value for Subscription Type" s)
    else .ok (seen, m)
  else if m.1 = "name".toList then do
    let seen ← unseen seen "name"
    let s ← stringCheck "name" m.2
    emptyStringCheck "name" s
    .ok (seen, m)
  else if m.1 = "description".toList then do
    let seen ← unseen seen "description"
    let _ ← stringCheck "description" m.2
    .ok (seen, m)
  else if m.1 = "entities".toList then do
    let seen ← unseen seen "entities"
    let items ← itemsCheck "entities" m.2
    let items ← pcheckEntityInfoArray env.toContexts true items
    .ok (seen, (m.1, .array items))
  else if m.1 = "watchedAttributes".toList then do
    let seen ← unseen seen "watchedAttributes"
    let items ← itemsCheck "watchedAttributes" m.2
    let items ← checkItems (attributeName env.toContexts "watchedAttributes item") items
    .ok (seen, (m.1, .array items))
  else if m.1 = "timeInterval".toList then do
    let seen ← unseen seen "timeInterval"
    integerCheck "timeInterval" m.2
    .ok (seen, m)
  else if m.1 = "q".toList then do
    let seen ← unseen seen "q"
    let s ← stringCheck "q" m.2
    emptyStringCheck "q" s
    let out ← qAliasExpand env.toContexts s
    .ok (seen, (m.1, .string out))
  else if m.1 = "geoQ".toList then do
    let seen ← unseen seen "geoQ"
    let members ← objectCheck "geoQ" m.2
    let members ← pcheckGeoQ env members
    .ok (seen, (m.1, .object members))
  else if m.1 = "csf".toList then do
    let seen ← unseen seen "csf"
    let s ← stringCheck "csf" m.2
    emptyStringCheck "csf" s
    .ok (seen, m)
  else if m.1 = "isActive".toList then do
    let seen ← unseen seen "isActive"
    boolCheck "isActive" m.2
    .ok (seen, m)
  else if m.1 = "notification".toList then do
    let seen ← unseen seen "notification"
    let _ ← objectCheck "notification" m.2
    .ok (seen, m)
  else if m.1 = "expires".toList then do
    let seen ← unseen seen "expires"
    let s ← stringCheck "expires" m.2
    emptyStringCheck "expires" s
    dateTimeCheck env.toEnv "expires" s
    .ok (seen, m)
  else if m.1 = "throttling".toList then do
    let seen ← unseen seen "throttling"
    numberCheck "throttling" m.2
    .ok (seen, m)
  else if m.1 = "temporalQ".toList then do
    let seen ← unseen seen "temporalQ"
    let _ ← objectCheck "temporalQ" m.2
    .ok (seen, m)
  else if m.1 = "status".toList then
    .error (badRequest "Attempt to modify Read-Only attribute" "status")
  else .error (.response 400 "Unknown field in Subscription fragment" m.1)

/-- The notification is checked after the loop. -/
def notificationChecks : Members → Except CheckError Members
  | [] => .ok []
  | m :: members =>
    if m.1 = "notification".toList then do
      let node ← pcheckNotification env.toContexts m.2
      .ok ((m.1, node) :: members)
    else do
      let members ← notificationChecks members
      .ok (m :: members)

def pcheckSubscription (idCanBePresent : Bool) : KjNode → Except CheckError Members
  | .object members => do
    let (_, members) ← checkMembers (subscriptionMember env idCanBePresent) [] members
    notificationChecks env members
  | _ => .error (badRequest "Invalid Subscription"
      "The payload data for updating a subscription must be a JSON Object")

end PcheckSubscription
