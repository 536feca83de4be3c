import OrionLd.OrionldPatchSubscription

/-! PATCH /ngsi-ld/v1/csourceRegistrations/*: orionldPatchRegistration with pcheckRegistration.
Members that are no fields of a registration are properties, which must be stored already. -/
namespace OrionldPatchRegistration

open KjTree OrionldContextItem KjTreeToContextAttribute PcheckSubscription MongoCppLegacyCodec
open OrionldPatchSubscription PcheckGeoQ

variable (env : RenderEnv)

def informationName (c : Contexts) (field : String) (node : KjNode) : Except CheckError KjNode := do
  let s ← stringCheck field node
  emptyStringCheck field s
  .ok (.string (orionldAttributeExpand c s).1)

def informationMember (c : Contexts) : MemberCheck := fun seen m =>
  if m.1 = "entities".toList then do
    let seen ← unseen seen "entities"
    let items ← itemsCheck "entities" m.2
    let items ← pcheckEntityInfoArray c true items
    .ok (seen, (m.1, .array items))
  else if m.1 = "properties".toList then do
    let seen ← unseen seen "properties"
    let items ← itemsCheck "information[X]::properties" m.2
    let items ← checkItems (informationName c "information[X]::properties[X]") items
    .ok (seen, (m.1, .array items))
  else if m.1 = "relationships".toList then do
    let seen ← unseen seen "relationships"
    let items ← itemsCheck "information[X]::relationships" m.2
    let items ← checkItems (informationName c "information[X]::relationships[X]") items
    .ok (seen, (m.1, .array items))
  else .error (.response 400 "Invalid field for information[X]" m.1)

def pcheckInformationItem (c : Contexts) : KjNode → Except CheckError KjNode
  | .object members => do
    let (_, members) ← checkMembers (informationMember c) [] members
    .ok (.object members)
  | _ => .error (badRequest "Not a JSON Object" "information[X]")

def repeated (check : KjNode → Except CheckError KjNode) : ℕ → KjNode → Except CheckError KjNode
  | 0, node => .ok node
  | n + 1, node => do
    let node ← check node
    repeated check n node

/-- The loop goes on to the next member of the registration, and always looks at the first item of
the array. -/
def pcheckInformation (c : Contexts) (following : ℕ) (node : KjNode) :
    Except CheckError KjNode := do
  match ← itemsCheck "information" node with
  | [] => .ok (.array [])
  | item :: items =>
    let item ← repeated (pcheckInformationItem c) (following + 1) item
    .ok (.array (item :: items))

def timeIntervalMember : MemberCheck := fun seen m =>
  if m.1 = "start".toList then do
    let seen ← unseen seen "start"
    let s ← stringCheck "start" m.2
    dateTimeCheck env.toEnv "start" s
    .ok (seen, m)
  else if m.1 = "end".toList then do
    let seen ← unseen seen "end"
    let s ← stringCheck "end" m.2
    dateTimeCheck env.toEnv "end" s
    .ok (seen, m)
  else .error (.response 400 "Invalid field for TimeInterval" m.1)

def dateTimeOf (members : Members) (name : String) : ℚ :=
  match members.lookup name.toList with
  | some (.string s) => (env.parse8601Time s).getD (-1)
  | _ => -1

def pcheckTimeInterval (field : String) (members : Members) : Except CheckError Unit := do
  let (seen, members) ← checkMembers (timeIntervalMember env) [] members
  if "start" ∉ seen ∧ "end" ∉ seen then .error (badRequest "Empty Object" field)
  else if "start" ∉ seen then .error (badRequest "Missing mandatory field" "start")
  else if "end" ∉ seen then .error (badRequest "Missing mandatory field" "end")
  else if truncated (dateTimeOf env members "start") > truncated (dateTimeOf env members "end") then
    .error (badRequest "Inconsistent TimeInterval" "TimeInterval ends before it starts")
  else .ok ()

/-- The details of two of the errors are the name of the field. -/
def geoPropertyCheck (field : String) (node : KjNode) : Except CheckError Unit :=
  (pcheckGeoPropertyValue node).mapError fun p =>
    .response 400 p.1 (if p.2 = "value".toList then field.toList else p.2)

def stringField (name : String) (seen : List String) (m : Text × KjNode) :
    Except CheckError (List String × (Text × KjNode)) := do
  let seen ← unseen seen name
  let s ← stringCheck name m.2
  emptyStringCheck name s
  .ok (seen, m)

def intervalField (name : String) (seen : List String) (m : Text × KjNode) :
    Except CheckError (List String × (Text × KjNode)) := do
  let seen ← unseen seen name
  let members ← objectCheck name m.2
  pcheckTimeInterval env name members
  .ok (seen, m)

def spaceField (name : String) (seen : List String) (m : Text × KjNode) :
    Except CheckError (List String × (Text × KjNode)) := do
  let seen ← unseen seen name
  let _ ← objectCheck name m.2
  geoPropertyCheck name m.2
  .ok (seen, m)

def registrationFields : List String :=
  ["id", "@id", "type", "@type", "name", "description", "information", "observationInterval",
    "managementInterval", "location", "observationSpace", "operationSpace", "expires", "endpoint"]

def isRegistrationField (name : Text) : Bool := registrationFields.any fun n => n.toList == name

/-- For the members that are fields, with the number of members that follow. -/
def registrationMember (idCanBePresent : Bool) (following : ℕ) : MemberCheck := fun seen m =>
  if m.1 = "id".toList ∨ m.1 = "@id".toList then
    if idCanBePresent then do
      let seen ← unseen seen "id"
      let s ← stringCheck "id" m.2
      uriCheck "id" s
      .ok (seen, m)
    else .error (badRequest "Invalid field for Registration Update" "id")
  else if m.1 = "type".toList ∨ m.1 = "@type".toList then do
    let seen ← unseen seen "type"
    let s ← stringCheck "type" m.2
    if s ≠ "ContextSourceRegistration".toList then .error (.response 400 "Invalid value for type" s)
    else .ok (seen, m)
  else if m.1 = "name".toList then stringField "name" seen m
  else if m.1 = "description".toList then stringField "description" seen m
  else if m.1 = "information".toList then do
    let seen ← unseen seen "information"
    let node ← pcheckInformation env.toContexts following m.2
    .ok (seen, (m.1, node))
  else if m.1 = "observationInterval".toList then intervalField env "observationInterval" seen m
  else if m.1 = "managementInterval".toList then intervalField env "managementInterval" seen m
  else if m.1 = "location".toList then spaceField "location" seen m
  else if m.1 = "observationSpace".toList then spaceField "observationSpace" seen m
  else if m.1 = "operationSpace".toList then spaceField "operationSpace" seen m
  else if m.1 = "expires".toList then do
    let seen ← unseen seen "expires"
    let s ← stringCheck "expires" m.2
    emptyStringCheck "expires" s
    dateTimeCheck env.toEnv "expires" s
    .ok (seen, m)
  else do
    let seen ← unseen seen "endpoint"
    let s ← stringCheck "endpoint" m.2
    uriCheck "endpoint" s
    .ok (seen, m)

def registrationMembers (idCanBePresent : Bool) : List String → Members → Members →
    Except CheckError (Members × Members)
  | _, properties, [] => .ok ([], properties)
  | seen, properties, m :: members =>
    if isRegistrationField m.1 then do
      let (seen, m) ← registrationMember env idCanBePresent members.length seen m
      let (fields, properties) ← registrationMembers idCanBePresent seen properties members
      .ok (m :: fields, properties)
    else if (properties.lookup m.1).isSome then
      .error (.response 400 "Duplicate Property in Registration Update" m.1)
    else registrationMembers idCanBePresent seen (properties ++ [m]) members

def pcheckRegistration (idCanBePresent : Bool) : KjNode → Except CheckError (Members × Members)
  | .object members => registrationMembers env idCanBePresent [] [] members
  | _ => .error (badRequest "Invalid Registration"
      "The payload data for updating a registration must be a JSON Object")

variable (c : Contexts)

def noPropertyText : String := "non-existing registration property"

def patchProperties : Members → Members → Except CheckError Members
  | stored, [] => .ok stored
  | stored, m :: properties =>
    let name := (orionldAttributeExpand c m.1).1
    if (stored.lookup name).isNone then .error (.response 400 noPropertyText name)
    else patchProperties (kjChildRemove stored name ++ [(name, m.2)]) properties

def propertiesPatch (db properties : Members) : Except CheckError Members :=
  match properties, db.lookup "properties".toList with
  | [], _ => .ok db
  | m :: _, none => .error (.response 400 noPropertyText m.1)
  | m :: _, some (.object []) => .error (.response 400 noPropertyText m.1)
  | _, some (.object stored) => do
    let stored ← patchProperties c stored properties
    .ok (kjChildAddOrReplace db "properties".toList (.object stored))
  | _, some _ => .error .fault

/-- The loop over the children of an interval, which changes none of them. -/
def childrenRead : Option KjNode → Except CheckError Unit
  | some (.string _) => .error .fault
  | some (.bool true) => .error .fault
  | some (.int i) => if i = 0 then .ok () else .error .fault
  | some (.float f) => if f = 0 then .ok () else .error .fault
  | _ => .ok ()

def fixDbRegistration (db : Members) : Except CheckError Members := do
  childrenRead (db.lookup "observationInterval".toList)
  childrenRead (db.lookup "managementInterval".toList)
  .ok db

def providingApplication (db : Members) : Option Text :=
  match db.lookup "contextRegistration".toList with
  | some (.array (.object item :: _)) =>
    match item.lookup "providingApplication".toList with
    | some (.string s) => some s
    | _ => none
  | _ => none

def providingApplicationSet (s : Text) : KjNode → KjNode
  | .array (.object item :: items) =>
    .array (.object (kjChildAddOrReplace item "providingApplication".toList (.string s)) :: items)
  | node => node

def registrationAttributes (type : String) : Option KjNode → List KjNode
  | some (.array names) => names.map fun name =>
    .object [("name".toList, name), ("type".toList, .string type.toList)]
  | _ => []

/-- The first item of information, which becomes the one of contextRegistration. -/
def ngsildRegistrationInformationToAPIv1Datamodel (providingApplication : Text) : KjNode → KjNode
  | .array (.object item :: items) =>
    let attrs := registrationAttributes "Property" (item.lookup "properties".toList) ++
      registrationAttributes "Relationship" (item.lookup "relationships".toList)
    .array (.object (kjChildRemove (kjChildRemove item "properties".toList)
      "relationships".toList ++ [("attrs".toList, .array attrs),
        ("providingApplication".toList, .string providingApplication)]) :: items)
  | node => node

def dateTimeNode : KjNode → KjNode
  | .string s => .float ((env.parse8601Time s).getD (-1))
  | node => node

def ngsildTimeIntervalToAPIv1Datamodel : KjNode → KjNode
  | .object members => .object (members.map fun m =>
      if m.1 = "start".toList ∨ m.1 = "end".toList then (m.1, dateTimeNode env m.2) else m)
  | node => node

def memberToAPIv1 (providingApplication : Text) (m : Text × KjNode) : Text × KjNode :=
  if m.1 = "information".toList then ("contextRegistration".toList,
    ngsildRegistrationInformationToAPIv1Datamodel providingApplication m.2)
  else if m.1 = "observationInterval".toList then (m.1, ngsildTimeIntervalToAPIv1Datamodel env m.2)
  else if m.1 = "managementInterval".toList then (m.1, ngsildTimeIntervalToAPIv1Datamodel env m.2)
  else if m.1 = "expires".toList then ("expiration".toList, dateTimeNode env m.2)
  else m

/-- When the providing application is needed and not found, nothing is converted, and the caller
goes on. The type and the endpoint stay. -/
def ngsildRegistrationToAPIv1Datamodel (fragment db : Members) : Members × Members :=
  let endpoint := fragment.lookup "endpoint".toList
  if endpoint.isNone ∧ (fragment.lookup "information".toList).isNone then
    (fragment.map (memberToAPIv1 env []), db)
  else match providingApplication db with
    | none => (fragment, db)
    | some stored =>
      match endpoint, db.lookup "contextRegistration".toList with
      | some (.string s), some node =>
        (fragment.map (memberToAPIv1 env s),
          kjChildAddOrReplace db "contextRegistration".toList (providingApplicationSet s node))
      | _, _ => (fragment.map (memberToAPIv1 env stored), db)

def registrationPatchMember (db : Members) (m : Text × KjNode) : Members :=
  match m.2 with
  | .null => kjChildRemove db m.1
  | node => kjChildAddOrReplace db m.1 node

def ngsildRegistrationPatch (db fragment : Members) : Members :=
  fragment.foldl registrationPatchMember db

/-- The fragment, its properties, and the decoded document with the new properties. -/
def patchRegistrationChecks (registrationId : Text) (payload : KjNode)
    (doc : Option (List (Text × BsonValue))) : Except CheckError (Members × Members × Members) :=
  if !pcheckUri registrationId then
    .error (.response 400 "Registration ID must be a valid URI" registrationId)
  else do
    let (fragment, properties) ← pcheckRegistration env false payload
    match doc with
    | none => .error (.response 404 "Registration not found" registrationId)
    | some fields => do
      let db ← propertiesPatch env.toContexts (objectToKjTree fields) properties
      .ok (fragment, properties, db)

variable (overwritten : KjNode → Except CheckError KjNode)

def patchedRegistration (fragment db : Members) : Except CheckError (List (Text × BsonValue)) := do
  let db ← fixDbRegistration db
  let (fragment, db) := ngsildRegistrationToAPIv1Datamodel env fragment db
  let db ← modifiedAtSet env.requestTime overwritten (ngsildRegistrationPatch db fragment)
  .ok (kjTreeToBsonObject db)

def orionldPatchRegistration (registrationId : Text) (payload : KjNode)
    (doc : Option (List (Text × BsonValue))) : Except CheckError (List (Text × BsonValue)) := do
  let (fragment, _, db) ← patchRegistrationChecks env registrationId payload doc
  patchedRegistration env overwritten fragment db

end OrionldPatchRegistration
