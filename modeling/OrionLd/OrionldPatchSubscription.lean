import OrionLd.PcheckSubscription
import OrionLd.MongoCppLegacyCodec

/-! PATCH /ngsi-ld/v1/subscriptions/*: orionldPatchSubscription. The stored document is decoded to a
tree, the fragment is brought to the data model of the database and its members replace those of the
tree, and the tree is encoded as the new document. -/
namespace OrionldPatchSubscription

open KjTree KjTreeToContextAttribute PcheckSubscription MongoCppLegacyCodec
open PcheckGeoQ (CheckError badRequest)

/-- The first member of the name gets the node, or a member is added. -/
def kjChildAddOrReplace : Members → Text → KjNode → Members
  | [], name, node => [(name, node)]
  | m :: members, name, node =>
    if m.1 = name then (name, node) :: members
    else m :: kjChildAddOrReplace members name node

/-- value.f of the first modifiedAt is overwritten, whatever its type is. -/
def modifiedAtSet (time : ℚ) (overwritten : KjNode → Except CheckError KjNode) :
    Members → Except CheckError Members
  | [] => .ok [("modifiedAt".toList, .float time)]
  | m :: members =>
    if m.1 = "modifiedAt".toList then
      match m.2 with
      | .float _ => .ok ((m.1, .float time) :: members)
      | node => do
        let node ← overwritten node
        .ok ((m.1, node) :: members)
    else do
      let members ← modifiedAtSet time overwritten members
      .ok (m :: members)

variable (env : RenderEnv)

def renameFirst (name newName : Text) : Members → Members
  | [] => []
  | m :: members =>
    if m.1 = name then (newName, m.2) :: members else m :: renameFirst name newName members

def entityToAPIv1 : KjNode → KjNode
  | .object members =>
    let id := (members.lookup "id".toList).or (members.lookup "@id".toList)
    let members := match id, members.lookup "idPattern".toList with
      | none, none =>
        members ++ [("id".toList, .string ".*".toList), ("isPattern".toList, .string "true".toList)]
      | none, some _ =>
        renameFirst "idPattern".toList "id".toList
          (members ++ [("isPattern".toList, .string "true".toList)])
      | some _, none => members ++ [("isPattern".toList, .string "false".toList)]
      | some _, some _ => members
    .object (members ++ [("isTypePattern".toList, .bool false)])
  | node => node

def entitiesToAPIv1 : KjNode → KjNode
  | .array items => .array (items.map entityToAPIv1)
  | node => node

def statusNode : KjNode → KjNode
  | .bool b => .string (if b then "active".toList else "inactive".toList)
  | node => node

def expirationNode : KjNode → KjNode
  | .string s => .float ((env.parse8601Time s).getD (-1))
  | node => node

/-- The comment says that type is not wanted in the database, and the loop leaves it where it is. -/
def memberToAPIv1 (m : Text × KjNode) : Text × KjNode :=
  if m.1 = "type".toList ∨ m.1 = "@type".toList then m
  else if m.1 = "entities".toList then (m.1, entitiesToAPIv1 m.2)
  else if m.1 = "watchedAttributes".toList then ("conditions".toList, m.2)
  else if m.1 = "isActive".toList then ("status".toList, statusNode m.2)
  else if m.1 = "expires".toList then ("expiration".toList, expirationNode env m.2)
  else m

def endpointToAPIv1 : KjNode → Members
  | .object members =>
    ((members.lookup "uri".toList).map fun uri => ("reference".toList, uri)).toList ++
      ((members.lookup "accept".toList).map fun accept => ("mimeType".toList, accept)).toList
  | _ => []

def notificationItemToAPIv1 (m : Text × KjNode) : Members :=
  if m.1 = "attributes".toList then [("attrs".toList, m.2)]
  else if m.1 = "format".toList then [m]
  else if m.1 = "endpoint".toList then endpointToAPIv1 m.2
  else []

def notificationToAPIv1 : Option KjNode → Members
  | some (.object items) => items.flatMap notificationItemToAPIv1
  | _ => []

def movedNames : List String := ["q", "geoQ", "notification"]

/-- q and geoQ have their own place, and the items of notification come last. -/
def ngsildSubscriptionToAPIv1Datamodel (patchTree : Members) : Members :=
  (patchTree.filter fun m => !movedNames.any fun n => n.toList == m.1).map (memberToAPIv1 env) ++
    notificationToAPIv1 (patchTree.lookup "notification".toList)

def okToRemove (name : Text) : Bool :=
  !(["id", "@id", "notification", "status"].any fun n => n.toList == name)

def mandatoryText : String :=
  "Invalid Subscription Fragment - attempt to remove a mandatory field"

def patchMember (db : Members) (m : Text × KjNode) : Except CheckError Members :=
  match m.2 with
  | .null =>
    if (db.lookup m.1).isNone then .ok db
    else if okToRemove m.1 then .ok (kjChildRemove db m.1)
    else .error (.response 400 mandatoryText m.1)
  | node => .ok (kjChildAddOrReplace db m.1 node)

def expressionMembers : KjNode → Except CheckError Members
  | .object members => .ok members
  | _ => .error .fault

/-- The geoQ replaces the expression and keeps its q, and a q alone goes into the expression. -/
def patchExpression (db : Members) (q geoQ : Option KjNode) : Except CheckError Members :=
  match geoQ, q, db.lookup "expression".toList with
  | some (.object g), some q, _ =>
    .ok (kjChildRemove db "expression".toList ++
      [("expression".toList, .object (g ++ [("q".toList, q)]))])
  | some (.object g), none, some old => do
    let members ← expressionMembers old
    .ok (kjChildRemove db "expression".toList ++ [("expression".toList,
      .object (g ++ ((members.lookup "q".toList).map fun q => ("q".toList, q)).toList))])
  | some (.object g), none, none => .ok (db ++ [("expression".toList, .object g)])
  | _, some q, some old => do
    let members ← expressionMembers old
    .ok (kjChildAddOrReplace db "expression".toList
      (.object (kjChildAddOrReplace members "q".toList q)))
  | _, some q, none => .ok (db ++ [("expression".toList, .object [("q".toList, q)])])
  | _, none, _ => .ok db

def ngsildSubscriptionPatch (db : Members) (fragments : Members) (q geoQ : Option KjNode) :
    Except CheckError Members := do
  let db ← fragments.foldlM patchMember db
  patchExpression db q geoQ

def numberLongFix (strtold : Text → ℚ) : KjNode → Except CheckError KjNode
  | .object ((_, .string s) :: _) => .ok (.float (strtold s))
  | .object _ => .error .fault
  | node => .ok node

def fixMember (strtold : Text → ℚ) (name : Text) : Members → Except CheckError Members
  | [] => .ok []
  | m :: members =>
    if m.1 = name then do
      let node ← numberLongFix strtold m.2
      .ok ((m.1, node) :: members)
    else do
      let members ← fixMember strtold name members
      .ok (m :: members)

def truncated (x : ℚ) : ℤ := if x < 0 then x.ceil else x.floor

/-- The value read from a throttling object goes through a long long. -/
def fixDbSubscription (strtold : Text → ℚ) (db : Members) : Except CheckError Members := do
  let db ← fixMember strtold "expiration".toList db
  fixMember (fun s => (truncated (strtold s) : ℚ)) "throttling".toList db

def intervalText : String :=
  "Attempt to set 'watchedAttributes' to a Subscription that is of type 'timeInterval'"

def valueAsInteger : KjNode → ℤ
  | .int i => i
  | node => env.valueAsInteger node

def intervalChecks (fragment db : Members) : Except CheckError Unit :=
  if (fragment.lookup "timeInterval".toList).isSome then
    .error (.response 501 "Not Implemented"
      "Subscription::timeInterval is not implemented".toList)
  else if (fragment.lookup "watchedAttributes".toList).isSome ∧
      (db.lookup "timeInterval".toList).any (fun node => valueAsInteger env node != -1) then
    .error (badRequest "Invalid Subscription Payload Data" intervalText)
  else .ok ()

def patchSubscriptionChecks (subscriptionId : Text) (payload : KjNode)
    (doc : Option (List (Text × BsonValue))) : Except CheckError (Members × Members) :=
  if !pcheckUri subscriptionId then
    .error (.response 400 "Subscription ID must be a valid URI" subscriptionId)
  else do
    let fragment ← pcheckSubscription env false payload
    match doc with
    | none => .error (.response 404 "Subscription not found" subscriptionId)
    | some fields => do
      intervalChecks env fragment (objectToKjTree fields)
      .ok (fragment, objectToKjTree fields)

variable (strtold : Text → ℚ) (overwritten : KjNode → Except CheckError KjNode)

def patchedSubscription (fragment db : Members) : Except CheckError (List (Text × BsonValue)) := do
  let db ← fixDbSubscription strtold db
  let db ← ngsildSubscriptionPatch db (ngsildSubscriptionToAPIv1Datamodel env fragment)
    (fragment.lookup "q".toList) (fragment.lookup "geoQ".toList)
  let db ← modifiedAtSet env.requestTime overwritten db
  .ok (kjTreeToBsonObject db)

def orionldPatchSubscription (subscriptionId : Text) (payload : KjNode)
    (doc : Option (List (Text × BsonValue))) : Except CheckError (List (Text × BsonValue)) := do
  let (fragment, db) ← patchSubscriptionChecks env subscriptionId payload doc
  patchedSubscription env strtold overwritten fragment db

end OrionldPatchSubscription
