import OrionLd.KjTreeToRegistration
import OrionLd.SubscriptionQ
import OrionLd.OrderedMap
import Mathlib.Data.List.Lex
import Mathlib.Data.Char

/-! A subscription in creation: kjTreeToSubscription with kjTreeToNotification, kjTreeToEndpoint and
kjTreeToSubscriptionExpression. A field without a member is `none` up to the end, where it gets its
default. A status that is not set is answered as 400. -/
namespace KjTreeToSubscription

open KjTree OrionldContextItem KjTreeToContextAttribute KjTreeToEntIdVector Fallible
open KjTreeToRegistration PcheckGeoQ
open PcheckSubscription (itemsCheck RenderEnv)
open SubscriptionQ

/-- With what StringFilter calls, and what is found on the stack for its buffer. -/
structure SubscriptionEnv extends RenderEnv where
  str2double : Text → Option ℚ
  regcomp : Text → Bool
  kFloatTrim : Text → Text
  stack : List Char

def filterEnv (env : SubscriptionEnv) : StringFilter.Env where
  core := env.core
  context := env.context
  defaultUrl := env.defaultUrl
  str2double := env.str2double
  parse8601Time := env.parse8601Time
  regcomp := env.regcomp
  kFloatTrim := env.kFloatTrim

/-- DUPLICATE_CHECK, and what is then made of the node. -/
def fill {α : Type} (slot : Option α) (field : String) (read : Except CheckError α) :
    Except CheckError (Option α) := do
  once slot field
  let a ← read
  .ok (some a)

def missing (title details : String) : CheckError := .response 400 title details.toList

structure KeyValueFields where
  key : Option Text
  value : Option Text

/-- A member of a key-value pair of receiverInfo or notifierInfo, after the label. -/
def keyValueField (label : String) (f : KeyValueFields) (m : Text × KjNode) :
    Except CheckError KeyValueFields :=
  if m.1 = "key".toList then do
    let key ← fill f.key (label ++ "::key") (stringCheck (label ++ "::key") m.2)
    .ok { f with key := key }
  else if m.1 = "value".toList then do
    let value ← fill f.value (label ++ "::value") (stringCheck (label ++ "::value") m.2)
    .ok { f with value := value }
  else .error (.response 400 ("Invalid " ++ label ++ " field") m.1)

def keyValuePair (what label incomplete : String) (node : KjNode) :
    Except CheckError (Text × Text) := do
  let members ← objectMembers what node
  let f ← members.foldlM (keyValueField label) ⟨none, none⟩
  match f with
  | ⟨some key, some value⟩ => .ok (key, value)
  | _ => .error (missing "Bad Input" incomplete)

def kjTreeToReceiverInfo (items : List KjNode) : Except CheckError (List (Text × Text)) := do
  let pairs ← items.mapM (keyValuePair "receiverInfo key-value" "Endpoint::receiverInfo"
    "Incomplete Endpoint::receiverInfo key-value pair")
  .ok (OrderedMap.assignAll pairs)

def copied (s : Text) : Text := s.take 63

def notifierInfoCheck (key value : Text) : Except CheckError Unit :=
  if key = "MQTT-Version".toList then
    if value = "mqtt3.1.1".toList ∨ value = "mqtt5.0".toList then .ok ()
    else .error (missing "Bad Input"
      "Invalid value for MQTT-Version Endpoint::notifierInfo key-value pair")
  else if key = "MQTT-QoS".toList then
    if value = "0".toList ∨ value = "1".toList ∨ value = "2".toList then .ok ()
    else .error (missing "Bad Input"
      "Invalid value for MQTT-QoS Endpoint::notifierInfo key-value pair")
  else .error (missing "Bad Input" "Invalid key in Endpoint::notifierInfo")

def notifierPair (node : KjNode) : Except CheckError (Text × Text) := do
  let (key, value) ← keyValuePair "notifierInfo key-value" "Endpoint::notifierInfo"
    "Incomplete Endpoint::notifierInfo key-value pair - one of them is missing" node
  if key = [] ∨ value = [] then
    .error (missing "Bad Input"
      "Incomplete Endpoint::notifierInfo key-value pair - one of them is empty")
  else do
    notifierInfoCheck key value
    .ok (copied key, copied value)

def kjTreeToNotifierInfo (items : List KjNode) : Except CheckError (List (Text × Text)) :=
  items.mapM notifierPair

inductive MimeType where
  | json
  | jsonld
  | geojson
  | text
  | html
  | noMimeType
  deriving DecidableEq, Repr

def mimeTypeToLongString : MimeType → String
  | .json => "application/json"
  | .jsonld => "application/ld+json"
  | .geojson => "application/geo+json"
  | .text => "plain/text"
  | .html => "application/html"
  | .noMimeType => "NOMIMETYPE"

structure HttpInfo where
  url : Text
  mimeType : MimeType
  headers : List (Text × Text)
  notifierInfo : List (Text × Text)

structure EndpointFields where
  uri : Option Text
  accept : Option MimeType
  receiverInfo : Option (List (Text × Text))
  notifierInfo : Option (List (Text × Text))

def mqttCheck (mqtt : Text) : Bool := "mqtt://".toList.isPrefixOf mqtt

def endpointUri (node : KjNode) : Except CheckError Text := do
  let uri ← stringCheck "Endpoint::uri" node
  if "mqtt://".toList.isPrefixOf uri then
    if mqttCheck uri then .ok uri
    else .error (missing "Invalid Endpoint::uri" "Endpoint is not a valid MQTT endpoint")
  else if pcheckUri uri then .ok uri
  else .error (missing "Invalid Endpoint::uri" "Endpoint is not a valid URI")

def endpointAccept (node : KjNode) : Except CheckError MimeType := do
  let accept ← stringCheck "Endpoint::accept" node
  let invalid := CheckError.response 400 "Invalid Endpoint::accept value" accept
  if "application/".toList.isPrefixOf accept then
    let mimeType := accept.drop 12
    if mimeType = "json".toList then .ok .json
    else if mimeType = "ld+json".toList then .ok .jsonld
    else if mimeType = "geo+json".toList then .ok .geojson
    else .error invalid
  else .error invalid

def endpointField (f : EndpointFields) (m : Text × KjNode) : Except CheckError EndpointFields :=
  if m.1 = "uri".toList then do
    let uri ← fill f.uri "Endpoint::uri" (endpointUri m.2)
    .ok { f with uri := uri }
  else if m.1 = "accept".toList then do
    let accept ← fill f.accept "Endpoint::accept" (endpointAccept m.2)
    .ok { f with accept := accept }
  else if m.1 = "receiverInfo".toList then do
    let receiverInfo ← fill f.receiverInfo "Endpoint::receiverInfo"
      (arrayCheck "Endpoint::receiverInfo" m.2 >>= kjTreeToReceiverInfo)
    .ok { f with receiverInfo := receiverInfo }
  else if m.1 = "notifierInfo".toList then do
    let notifierInfo ← fill f.notifierInfo "Endpoint::notifierInfo"
      (arrayCheck "Endpoint::notifierInfo" m.2 >>= kjTreeToNotifierInfo)
    .ok { f with notifierInfo := notifierInfo }
  else .error (.response 400 "Unrecognized field in Endpoint" m.1)

def kjTreeToEndpoint (members : Members) : Except CheckError HttpInfo := do
  let f ← members.foldlM endpointField ⟨none, none, none, none⟩
  match f.uri with
  | none => .error (missing "Mandatory field missing" "Subscription::notification::endpoint::uri")
  | some uri =>
    .ok ⟨uri, f.accept.getD .json, f.receiverInfo.getD [], f.notifierInfo.getD []⟩

inductive RenderFormat where
  | ngsiV1Legacy
  | ngsiV2Normalized
  | ngsiV2Keyvalues
  | ngsiV2Values
  | ngsiV2UniqueValues
  | ngsiV2Custom
  | ngsiLdV1Normalized
  | ngsiLdV1Keyvalues
  | ngsiLdV1V2Normalized
  | ngsiLdV1V2Keyvalues
  | ngsiLdV1V2NormalizedCompact
  | ngsiLdV1V2KeyvaluesCompact
  | noFormat
  deriving DecidableEq, Repr

def pcheckSubscriptionAcceptAndFormat (format : RenderFormat) (accept : MimeType) : Bool :=
  match format with
  | .ngsiLdV1Normalized | .ngsiLdV1Keyvalues =>
    accept = .json ∨ accept = .jsonld ∨ accept = .geojson
  | .ngsiLdV1V2Normalized | .ngsiLdV1V2Keyvalues | .ngsiLdV1V2NormalizedCompact
  | .ngsiLdV1V2KeyvaluesCompact => accept = .json
  | _ => false

def formats : List (String × RenderFormat) :=
  [("keyValues", .ngsiLdV1Keyvalues), ("normalized", .ngsiLdV1Normalized),
    ("x-ngsiv2-normalized", .ngsiLdV1V2Normalized), ("x-ngsiv2-keyValues", .ngsiLdV1V2Keyvalues),
    ("x-ngsiv2-normalized-compacted", .ngsiLdV1V2NormalizedCompact),
    ("x-ngsiv2", .ngsiLdV1V2NormalizedCompact),
    ("x-ngsiv2-keyValues-compacted", .ngsiLdV1V2KeyvaluesCompact)]

def formatExtract (format : Text) : Except CheckError RenderFormat :=
  match formats.find? fun f => f.1.toList == format with
  | some f => .ok f.2
  | none => .error (.response 400 "Invalid value for Notification::format" format)

def notificationFormat (node : KjNode) : Except CheckError RenderFormat := do
  let s ← stringCheck "Notification::format" node
  let format ← formatExtract s
  if format = .ngsiLdV1V2Keyvalues ∨ format = .ngsiLdV1V2KeyvaluesCompact then
    .error (.response 501 "Non-supported notification format" s)
  else .ok format

/-- The array is looped over, empty or not. -/
def kjTreeToStringList (c : Contexts) (items : List KjNode) : Except CheckError (List Text) :=
  items.mapM (expandedName c "String-List item")

structure NotificationFields where
  attributes : Option (List Text)
  format : Option RenderFormat
  endpoint : Option HttpInfo

/-- Internal fields that cannot be set by requests. -/
def internalFields : List String :=
  ["status", "timesSent", "lastNotification", "lastFailure", "lastSuccess"]

def notificationField (c : Contexts) (f : NotificationFields) (m : Text × KjNode) :
    Except CheckError NotificationFields :=
  if m.1 = "attributes".toList then do
    let attributes ← fill f.attributes "Notification::attributes"
      (arrayCheck "Notification::attributes" m.2 >>= kjTreeToStringList c)
    .ok { f with attributes := attributes }
  else if m.1 = "format".toList then do
    let format ← fill f.format "Notification::format" (notificationFormat m.2)
    .ok { f with format := format }
  else if m.1 = "endpoint".toList then do
    let endpoint ← fill f.endpoint "Notification::endpoint"
      (objectMembers "Notification::endpoint" m.2 >>= kjTreeToEndpoint)
    .ok { f with endpoint := endpoint }
  else if internalFields.any fun n => n.toList == m.1 then .ok f
  else .error (.response 400 "Unknown Notification field" m.1)

structure Notification where
  attributes : List Text
  httpInfo : HttpInfo
  attrsFormat : RenderFormat

def kjTreeToNotification (c : Contexts) (members : Members) : Except CheckError Notification := do
  let f ← members.foldlM (notificationField c) ⟨none, none, none⟩
  match f.endpoint with
  | none => .error (missing "Mandatory field missing" "Subscription::notification::endpoint")
  | some httpInfo =>
    let format := f.format.getD .ngsiLdV1Normalized
    if pcheckSubscriptionAcceptAndFormat format httpInfo.mimeType then
      .ok ⟨f.attributes.getD [], httpInfo, format⟩
    else .error (missing "Bad Input" "Non-compatible 'format' and 'accept' fields")

structure GeoQueryFields where
  geometry : Option Text
  coordinates : Option KjNode
  georel : Option Text
  geoproperty : Option Text

def coordinatesNode : KjNode → Except CheckError KjNode
  | .string s => .ok (.string s)
  | .array items => .ok (.array items)
  | _ => .error (missing "Invalid value type (not String nor Array)" "GeoQuery::coordinates")

def geoQueryField (f : GeoQueryFields) (m : Text × KjNode) : Except CheckError GeoQueryFields :=
  if m.1 = "geometry".toList then do
    let geometry ← fill f.geometry "GeoQuery::geometry" (stringCheck "GeoQuery::geometry" m.2)
    .ok { f with geometry := geometry }
  else if m.1 = "coordinates".toList then do
    let coordinates ← fill f.coordinates "GeoQuery::coordinates" (coordinatesNode m.2)
    .ok { f with coordinates := coordinates }
  else if m.1 = "georel".toList then do
    let georel ← fill f.georel "GeoQuery::georel" (stringCheck "GeoQuery::georel" m.2)
    .ok { f with georel := georel }
  else if m.1 = "geoproperty".toList then do
    let geoproperty ← fill f.geoproperty "GeoQuery::geoproperty"
      (stringCheck "GeoQuery::geoproperty" m.2)
    .ok { f with geoproperty := geoproperty }
  else .error (.response 400 "Unknown GeoQuery field" m.1)

structure GeoExpression where
  geometry : Text
  coords : Text
  georel : Text
  geoproperty : Text

variable (env : RenderEnv)

def coordsText : KjNode → Text
  | .string s => s
  | node => (env.kjFastRender node).dropLast.drop 1

def kjTreeToSubscriptionExpression (members : Members) : Except CheckError GeoExpression := do
  let f ← members.foldlM geoQueryField ⟨none, none, none, none⟩
  match f.geometry, f.coordinates, f.georel with
  | none, _, _ => .error (.response 400 "GeoQuery::geometry missing in Subscription" [])
  | some _, none, _ => .error (.response 400 "GeoQuery::coordinates missing in Subscription" [])
  | some _, some _, none => .error (.response 400 "GeoQuery::georel missing in Subscription" [])
  | some geometry, some coordinates, some georel =>
    .ok ⟨geometry, coordsText env coordinates, georel, f.geoproperty.getD []⟩

variable (env : SubscriptionEnv)

inductive Field where
  | name
  | description
  | entities
  | watchedAttributes
  | timeInterval
  | q
  | geoQ
  | csf
  | isActive
  | notification
  | expires
  | throttling
  deriving DecidableEq, Repr

def Field.text : Field → String
  | .name => "name"
  | .description => "description"
  | .entities => "entities"
  | .watchedAttributes => "watchedAttributes"
  | .timeInterval => "timeInterval"
  | .q => "q"
  | .geoQ => "geoQ"
  | .csf => "csf"
  | .isActive => "isActive"
  | .notification => "notification"
  | .expires => "expires"
  | .throttling => "throttling"

def allFields : List Field :=
  [.name, .description, .entities, .watchedAttributes, .timeInterval, .q, .geoQ, .csf, .isActive,
    .notification, .expires, .throttling]

def fieldOf (name : Text) : Option Field := allFields.find? fun f => f.text.toList == name

def Field.label (f : Field) : String := "Subscription::" ++ f.text

structure SubscriptionFields where
  name : Option Text
  description : Option Text
  entities : Option (List EntID)
  watchedAttributes : Option (List Text)
  q : Option Text
  geoQ : Option GeoExpression
  csf : Option Text
  isActive : Option Bool
  notification : Option Notification
  expires : Option ℚ
  throttling : Option ℚ

def noFields : SubscriptionFields :=
  ⟨none, none, none, none, none, none, none, none, none, none, none⟩

def qText (q : Text) : Except CheckError Text :=
  match kjTreeToSubscriptionQ (filterEnv env) env.stack q with
  | .ok text => .ok text
  | .error (.response status title details) => .error (.response status title details.toList)
  | .error (.undefined _) => .error .fault

def boolCheck (field : String) : KjNode → Except CheckError Bool
  | .bool b => .ok b
  | _ => .error (badRequest "Not a JSON Boolean" field)

def expiresTime (node : KjNode) : Except CheckError ℚ := do
  let s ← stringCheck Field.expires.label node
  if timeOf env.toEnv s = -1 then .error (badRequest "Invalid DateTime value" Field.expires.label)
  else .ok (timeOf env.toEnv s)

def throttlingNumber : KjNode → Except CheckError ℚ
  | .float f => .ok f
  | .int i => .ok (env.integerAsDouble i)
  | _ => .error (badRequest "Not a JSON Number" Field.throttling.label)

/-- What is done for a field, DUPLICATE_CHECK included. -/
def subscriptionField (s : SubscriptionFields) (f : Field) (node : KjNode) :
    Except CheckError SubscriptionFields :=
  match f with
  | .name => do
    let name ← fill s.name f.label (stringCheck f.label node)
    .ok { s with name := name }
  | .description => do
    let description ← fill s.description f.label (stringCheck f.label node)
    .ok { s with description := description }
  | .entities => do
    let entities ← fill s.entities f.label (do
      let _ ← itemsCheck f.label node
      kjTreeToEntIdVector env.toContexts node)
    .ok { s with entities := entities }
  | .watchedAttributes => do
    let watchedAttributes ← fill s.watchedAttributes f.label
      (itemsCheck f.label node >>= kjTreeToStringList env.toContexts)
    .ok { s with watchedAttributes := watchedAttributes }
  | .timeInterval =>
    .error (.response 501 "Not Implemented" "Subscription::timeInterval is not implemented".toList)
  | .q => do
    let q ← fill s.q f.label (stringCheck f.label node >>= qText env)
    .ok { s with q := q }
  | .geoQ => do
    let geoQ ← fill s.geoQ f.label
      (objectMembers f.label node >>= kjTreeToSubscriptionExpression env.toRenderEnv)
    .ok { s with geoQ := geoQ }
  | .csf => do
    let csf ← fill s.csf f.label (stringCheck f.label node)
    .ok { s with csf := csf }
  | .isActive => do
    let isActive ← fill s.isActive f.label (boolCheck f.label node)
    .ok { s with isActive := isActive }
  | .notification => do
    let notification ← fill s.notification f.label
      (objectMembers f.label node >>= kjTreeToNotification env.toContexts)
    .ok { s with notification := notification }
  | .expires => do
    let expires ← fill s.expires f.label (expiresTime env node)
    .ok { s with expires := expires }
  | .throttling => do
    let throttling ← fill s.throttling f.text (throttlingNumber env node)
    .ok { s with throttling := throttling }

def readOnlyFields : List String := ["status", "createdAt", "modifiedAt"]

def subscriptionMember (s : SubscriptionFields) (m : Text × KjNode) :
    Except CheckError SubscriptionFields :=
  match fieldOf m.1 with
  | some f => subscriptionField env s f m.2
  | none =>
    if readOnlyFields.any fun n => n.toList == m.1 then .ok s
    else .error (.response 400 "Invalid field for Subscription" m.1)

structure Subscription where
  id : Text
  name : Text
  description : Text
  descriptionProvided : Bool
  entities : List EntID
  watchedAttributes : List Text
  q : Text
  geoQ : GeoExpression
  csf : Text
  status : Text
  notification : Notification
  expires : ℚ
  throttling : ℚ
  timeInterval : ℤ
  timesSent : ℤ
  lastNotification : ℚ
  lastFailure : ℚ
  lastSuccess : ℚ

structure Post where
  payloadId : Option Text
  payloadType : Option Text
  members : Members
  randomId : Text

def subscriptionId (p : Post) : Text :=
  p.payloadId.getD ("urn:ngsi-ld:Subscription:".toList ++ p.randomId)

def idCheck (p : Post) : Except CheckError Unit :=
  if pcheckUri (subscriptionId p) then .ok ()
  else .error (.response 400 "Subscription::id is not a URI" (subscriptionId p))

def typeCheck (p : Post) : Except CheckError Unit :=
  match p.payloadType with
  | none => .error (badRequest "Mandatory field missing" "Subscription::type")
  | some type =>
    if type = "Subscription".toList then .ok ()
    else .error (.response 400 "Invalid value for Subscription::type" type)

def noExpiration : ℚ := 0x7FFFFFFF

def subscriptionWith (id : Text) (s : SubscriptionFields) (notification : Notification) :
    Subscription where
  id := id
  name := s.name.getD []
  description := s.description.getD []
  descriptionProvided := s.description.isSome
  entities := s.entities.getD []
  watchedAttributes := s.watchedAttributes.getD []
  q := s.q.getD []
  geoQ := s.geoQ.getD ⟨[], [], [], []⟩
  csf := s.csf.getD []
  status := match s.isActive with
    | none => []
    | some true => "active".toList
    | some false => "paused".toList
  notification := notification
  expires := s.expires.getD noExpiration
  throttling := s.throttling.getD 0
  timeInterval := -1
  timesSent := 0
  lastNotification := 0
  lastFailure := 0
  lastSuccess := 0

def subscriptionOfFields (id : Text) (s : SubscriptionFields) : Except CheckError Subscription :=
  if s.entities.isNone ∧ s.watchedAttributes.isNone then
    .error (.response 400 "At least one of 'entities' and 'watchedAttributes' must be present" [])
  else match s.notification with
    | none => .error (missing "Mandatory field missing" "Subscription::notification")
    | some notification => .ok (subscriptionWith id s notification)

def kjTreeToSubscription (env : SubscriptionEnv) (p : Post) : Except CheckError Subscription := do
  idCheck p
  typeCheck p
  let s ← p.members.foldlM (subscriptionMember env) noFields
  subscriptionOfFields (subscriptionId p) s

end KjTreeToSubscription
