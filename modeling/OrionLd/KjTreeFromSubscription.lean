import OrionLd.KjTreeToSubscription
import OrionLd.RegistrationDocument

/-! What is shown of a subscription: kjTreeFromSubscription. Only the coordinates of a point or a
polygon become an array again. -/
namespace KjTreeFromSubscription

open KjTree OrionldContextItem KjTreeToContextAttribute KjTreeToEntIdVector KjTreeToSubscription
open RegistrationDocument
open PcheckGeoQ (CheckError)
open PcheckSubscription

structure ShownEnv extends SubscriptionEnv, DateEnv where
  kjParse : Text → Option KjNode

def compactName (c : Contexts) (name : Text) : Text :=
  orionldContextItemAliasLookup c (eqForDot name)

def qAliasCompact (c : Contexts) : Text → Except CheckError Text := qAliasRename (compactName c)

variable (env : ShownEnv)

structure Request where
  sysAttrs : Bool
  acceptJsonld : Bool
  requestTime : ℚ
  coreContextUrl : Text

structure StoredSubscription extends Subscription where
  createdAt : ℚ
  modifiedAt : ℚ
  ldContext : Text

def shownWhen (p : Bool) (node : KjNode) : Option KjNode := if p then some node else none

def shownMembers (parts : List (String × Option KjNode)) : Members :=
  parts.filterMap fun part => part.2.map fun node => (part.1.toList, node)

def shownText (s : Text) : Option KjNode := shownWhen (s ≠ []) (.string s)

def shownArray (items : List KjNode) : Option KjNode := shownWhen (items ≠ []) (.array items)

def shownName (name : Text) : KjNode :=
  .string (orionldContextItemAliasLookup env.toContexts name)

def shownEntity (e : EntID) : KjNode :=
  .object (shownMembers [
    ("id", shownText e.id),
    ("idPattern", shownWhen (e.idPattern ≠ [] ∧ e.idPattern ≠ ".*".toList) (.string e.idPattern)),
    ("type", some (shownName env e.type))])

def shownQ (q : Text) : Except CheckError (Option KjNode) :=
  if q = [] then .ok none
  else do
    let compact ← qAliasCompact env.toContexts q
    .ok (some (.string compact))

/-- coordinateTransform and kjParse, for the geometries that it knows. -/
def shownCoordinates (geometry coords : Text) : Except CheckError KjNode :=
  if geometry = "Point".toList ∨ geometry = "Polygon".toList then
    match env.kjParse ('[' :: coords ++ [']']) with
    | some node => .ok node
    | none => .error (.response 500 "Unable to parse coordinates string" coords)
  else .ok (.string coords)

def geoQParts (g : GeoExpression) (coordinates : KjNode) : List (String × Option KjNode) :=
  [("geometry", some (.string g.geometry)),
    ("coordinates", some coordinates),
    ("georel", some (.string g.georel)),
    ("geoproperty", shownWhen (g.geoproperty ≠ [])
      (.string (compactName env.toContexts g.geoproperty)))]

def shownGeoQ (g : GeoExpression) : Except CheckError (Option KjNode) :=
  if g.geometry = [] then .ok none
  else do
    let coordinates ← shownCoordinates env g.geometry g.coords
    .ok (some (.object (shownMembers (geoQParts env g coordinates))))

def shownPair (pair : Text × Text) : KjNode :=
  .object [stringMember "key" pair.1, stringMember "value" pair.2]

def shownMimeType (mimeType : MimeType) : Text :=
  if mimeType = .noMimeType then "application/ld+json".toList
  else (mimeTypeToLongString mimeType).toList

def endpointParts (h : HttpInfo) : List (String × Option KjNode) :=
  [("uri", some (.string h.url)),
    ("accept", some (.string (shownMimeType h.mimeType))),
    ("notifierInfo", shownArray (h.notifierInfo.map shownPair)),
    ("receiverInfo", shownArray (h.headers.map shownPair))]

def shownDate (time : ℚ) : KjNode := .string (numberToDate env.toDateEnv time)

def shownFormat (format : RenderFormat) : Text :=
  if format = .ngsiV2Keyvalues then "keyValues".toList else "normalized".toList

def notificationParts (s : Subscription) : List (String × Option KjNode) :=
  [("attributes", shownArray (s.notification.attributes.map (shownName env))),
    ("format", some (.string (shownFormat s.notification.attrsFormat))),
    ("endpoint", some (.object (shownMembers (endpointParts s.notification.httpInfo)))),
    ("timesSent", shownWhen (0 < s.timesSent) (.int s.timesSent)),
    ("lastNotification", shownWhen (0 < s.lastNotification) (shownDate env s.lastNotification)),
    ("lastFailure", shownWhen (0 < s.lastFailure) (shownDate env s.lastFailure)),
    ("lastSuccess", shownWhen (0 < s.lastSuccess) (shownDate env s.lastSuccess))]

def shownStatus (req : Request) (s : Subscription) : Option KjNode :=
  if s.expires < req.requestTime then some (.string "expired".toList)
  else shownWhen (s.status ≠ "active".toList) (.string "paused".toList)

def subscriptionParts (req : Request) (s : StoredSubscription) (q geoQ : Option KjNode) :
    List (String × Option KjNode) :=
  [("id", some (.string s.id)),
    ("type", some (.string "Subscription".toList)),
    ("name", shownText s.name),
    ("description", shownText s.description),
    ("createdAt", shownWhen (req.sysAttrs && s.createdAt ≠ -1) (shownDate env s.createdAt)),
    ("modifiedAt", shownWhen (req.sysAttrs && s.modifiedAt ≠ -1) (shownDate env s.modifiedAt)),
    ("entities", shownArray (s.entities.map (shownEntity env))),
    ("watchedAttributes", shownArray (s.watchedAttributes.map (shownName env))),
    ("timeInterval", shownWhen (s.timeInterval ≠ -1 ∧ s.timeInterval ≠ 0)
      (.int s.timeInterval)),
    ("q", q),
    ("geoQ", geoQ),
    ("csf", shownText s.csf),
    ("isActive", shownWhen (s.status ≠ "active".toList) (.bool false)),
    ("status", shownStatus req s.toSubscription),
    ("notification", some (.object (shownMembers (notificationParts env s.toSubscription)))),
    ("expires", shownWhen (s.expires ≠ noExpiration) (shownDate env s.expires)),
    ("throttling", shownWhen (s.throttling ≠ 0) (.float s.throttling)),
    ("@context", shownWhen req.acceptJsonld
      (.string (if s.ldContext ≠ [] then s.ldContext else req.coreContextUrl)))]

def kjTreeFromSubscription (req : Request) (s : StoredSubscription) :
    Except CheckError Members := do
  let q ← shownQ env s.q
  let geoQ ← shownGeoQ env s.geoQ
  .ok (shownMembers (subscriptionParts env req s q geoQ))

end KjTreeFromSubscription
