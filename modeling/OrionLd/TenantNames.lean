import OrionLd.OrionldTenant
import OrionLd.Str2double
import OrionLd.StringFilter

/-! The tenant header of NGSI-LD requests to a broker with multitenancy, from the header callback
through orionldMhdConnectionInit to the tenant step of orionldMhdConnectionTreat, and the database
names of the tenants. The requests come one after the other. -/
namespace TenantNames

open KjTree (Text)
open StepSystem List
open StringFilter (isWs wsStrip)
open Str2double (str2double)
open OrionldTenant (tenantLookup tenantCreate tenantLookup_some)

structure Tenant where
  tenant : Text
  mongoDbName : Text
  entities : Text
  subscriptions : Text
  avSubscriptions : Text
  registrations : Text
  troeDbName : Text
  deriving DecidableEq

/-- The broker does not start with a longer prefix. -/
structure Broker where
  dbName : Text
  short : dbName.length ≤ 10

def pathOf (b : Broker) (tenantName : Text) (collection : String) : Text :=
  b.dbName ++ '-' :: (tenantName ++ collection.toList)

/-- snprintf is given one byte less than each buffer has, and needs one for the end. -/
def newTenant (b : Broker) (tenantName : Text) : Tenant where
  tenant := tenantName.take 50
  mongoDbName := (pathOf b tenantName "").take 64
  entities := (pathOf b tenantName ".entities").take 86
  subscriptions := (pathOf b tenantName ".csubs").take 86
  avSubscriptions := (pathOf b tenantName ".casubs").take 86
  registrations := (pathOf b tenantName ".registrations").take 86
  troeDbName := (b.dbName ++ '_' :: tenantName).take 70

def tenant0 (b : Broker) : Tenant where
  tenant := []
  mongoDbName := b.dbName
  entities := b.dbName ++ ".entities".toList
  subscriptions := b.dbName ++ ".csubs".toList
  avSubscriptions := b.dbName ++ ".casubs".toList
  registrations := b.dbName ++ ".registrations".toList
  troeDbName := b.dbName

abbrev Tenants : Type := OrionldTenant.Tenants Tenant

def orionldTenantLookup (b : Broker) (ts : Tenants) (tenantName : Text) : Option Tenant :=
  tenantLookup Tenant.tenant (tenant0 b) ts tenantName

def orionldTenantCreate (b : Broker) (ts : Tenants) (tenantName : Text) : Tenants × Tenant :=
  tenantCreate (tenant0 b) ts tenantName (newTenant b)

def orionldTenantGet (b : Broker) (ts : Tenants) (tenantName : Text) : Tenants × Tenant :=
  match orionldTenantLookup b ts tenantName with
  | some t => ({ ts with tenantCache := some t }, t)
  | none =>
    let (ts, t) := orionldTenantCreate b ts tenantName
    ({ ts with tenantCache := some t }, t)

inductive Verb where
  | get | put | post | delete | patch | head | options | trace | connect | noverb | unknownverb
  deriving DecidableEq

structure Service where
  uriParams : BitVec 32
  makeSureTenantExists : Bool

/-- What orionldUriArgumentGet leaves of the URI parameters, and whether it refused one. -/
structure UriParams where
  limit : ℤ
  count : Bool
  mask : BitVec 32
  refused : Bool

/-- A header, by the branch of the callbacks that takes it. -/
inductive Header where
  | tenant (value : Text)
  | contentType (value : Text)
  | contentLength (value : ℤ)
  | accept (value : Text)
  | link
  | scope (tooMany : Bool)
  | other

structure Request where
  url : Text
  verb : Verb
  serviceP : Option Service
  orionldBadVerb : Bool
  uriParams : UriParams
  headers : List Header

structure OrionldState where
  httpStatusCode : ℕ
  tenantName : Option Text
  tenantP : Option Tenant
  ngsildContent : Bool
  linkHttpHeaderPresent : Bool
  contentType : Text
  contentLength : ℤ
  acceptHeaderV : List Text
  acceptHeaderError : Option String

def orionldStateInit : OrionldState := ⟨200, none, none, false, false, [], 0, [], none⟩

def toLowercase (s : Text) : Text := s.map Char.toLower

def failIf (fails : Bool) (st : OrionldState) : OrionldState :=
  if fails then { st with httpStatusCode := 400 } else st

def orionldHttpHeaderGet (st : OrionldState) : Header → OrionldState
  | .scope tooMany => failIf tooMany st
  | _ => st

/-- What is left in the buffer of the header: the parameters and the blanks behind are cut off. -/
def contentTypeParse (value : Text) : Text :=
  let contentType := value.takeWhile (· ≠ ';')
  contentType.takeWhile isWs ++ wsStrip contentType

def acceptError (st : OrionldState) (text : String) (status : ℕ) : OrionldState :=
  { st with acceptHeaderError := some text, httpStatusCode := status }

def mediaRanges : List String := ["*/*", "application/*", "application/ld+json",
  "application/geo+json", "application/json", "text/*", "text/plain"]

def isBlank (c : Char) : Bool := c == ' ' || c == '\t'

/-- The media range that an item enters, if it enters one. -/
def acceptItem (value : Text) : Except String (Option Text) :=
  let mediaRange := value.takeWhile (· ≠ ';')
  if !mediaRanges.contains (String.ofList mediaRange) then .ok none
  else match ((value.dropWhile (· ≠ ';')).drop 1).dropWhile isBlank with
    | [] => .ok (some mediaRange)
    | 'q' :: '=' :: rest =>
      let qvalue := rest.takeWhile (· ≠ ';')
      if qvalue = [] then .error "qvalue in accept header is missing"
      else if (str2double qvalue).isSome then .ok (some mediaRange)
      else .error "qvalue in accept header is not a number"
    | 'q' :: _ => .error "missing equal-sign after q in accept header"
    | _ => .error "q missing in accept header"

def acceptItemParse (st : OrionldState) (value : Text) : OrionldState :=
  match acceptItem value with
  | .ok none => st
  | .ok (some mediaRange) => { st with acceptHeaderV := st.acceptHeaderV ++ [mediaRange] }
  | .error text => acceptError st text 400

/-- The blanks behind a comma are stepped over. -/
def acceptItems (value : Text) : List Text :=
  match value.splitOn ',' with
  | [] => []
  | item :: items => item :: items.map (·.dropWhile isBlank)

def acceptParse (st : OrionldState) (value : Text) : OrionldState :=
  if value = [] then acceptError st "empty accept header" 400
  else
    let st := (acceptItems value).foldl acceptItemParse st
    if st.acceptHeaderV.isEmpty && st.acceptHeaderError.isNone then
      acceptError st "no acceptable mime-type in accept header" 406
    else st

def httpHeaderGet (st : OrionldState) : Header → OrionldState
  | .tenant value => { st with tenantName := some (toLowercase value) }
  | .contentType value => { st with
      contentType := contentTypeParse value
      ngsildContent := st.ngsildContent || contentTypeParse value == "application/ld+json".toList }
  | .contentLength value => { st with contentLength := value }
  | .accept value => acceptParse st value
  | .link => { st with linkHttpHeaderPresent := true }
  | _ => st

def isNameChar (c : Char) : Bool := c.isAlphanum || c == '_'

/-- The length is compared before each character, not after the last one. -/
def tenantCheckFrom (len : ℕ) : Text → Except (String × String) Unit
  | [] => .ok ()
  | c :: tenantName =>
    if len > 50 then
      .error ("Invalid Tenant", "a tenant name can be max 50 characters long")
    else if !isNameChar c then
      .error ("Invalid Tenant", "bad character in tenant name - only underscore and " ++
        "alphanumeric characters are allowed")
    else tenantCheckFrom (len + 1) tenantName

def tenantCheck (tenantName : Text) : Except (String × String) Unit :=
  tenantCheckFrom 0 tenantName

def endsInTwoSlashes (url : Text) : Bool :=
  url.getLast? == some '/' && url.dropLast.getLast? == some '/'

def verbSupported (verb : Verb) : Bool :=
  verb == .post || verb == .get || verb == .delete || verb == .patch

/-- Everything that is looked at before the tenant: errors add up. -/
def readParamsAndHeaders (req : Request) : OrionldState :=
  let st := failIf req.uriParams.refused orionldStateInit
  let st := failIf (!verbSupported req.verb) st
  let st := failIf (req.uriParams.limit == 0 && !req.uriParams.count) st
  let st := failIf (req.uriParams.limit > 1000) st
  let st := req.headers.foldl orionldHttpHeaderGet st
  req.headers.foldl httpHeaderGet st

def contentTypeSupported (contentType : Text) : Bool :=
  contentType == "application/json".toList || contentType == "application/ld+json".toList

def isMergePatch (verb : Verb) (contentType : Text) : Bool :=
  verb == .patch && contentType == "application/merge-patch+json".toList

def isUnsupported (verb : Verb) (contentType : Text) : Bool :=
  (verb == .post || verb == .patch) && !contentTypeSupported contentType

def checkPayloadHeaders (req : Request) (st : OrionldState) : OrionldState :=
  if st.ngsildContent && st.linkHttpHeaderPresent then { st with httpStatusCode := 400 }
  else if st.contentLength > 2000000 then { st with httpStatusCode := 400 }
  else if isMergePatch req.verb st.contentType then
    { st with contentType := "application/json".toList }
  else if isUnsupported req.verb st.contentType then { st with httpStatusCode := 415 }
  else st

/-- The name is checked only if a tenant is already there. -/
def orionldMhdConnectionInit (b : Broker) (req : Request) : OrionldState :=
  if endsInTwoSlashes req.url then { orionldStateInit with httpStatusCode := 400 }
  else if req.verb = .noverb then { orionldStateInit with httpStatusCode := 400 }
  else match req.serviceP with
    | none => { orionldStateInit with httpStatusCode := if req.orionldBadVerb then 405 else 404 }
    | some _ =>
      let st := readParamsAndHeaders req
      if st.httpStatusCode ≠ 200 then st
      else match st.tenantP with
        | none => checkPayloadHeaders req { st with tenantP := some (tenant0 b) }
        | some _ =>
          match tenantCheck (st.tenantName.getD []) with
          | .error _ => { st with httpStatusCode := 400 }
          | .ok _ => checkPayloadHeaders req st

def uriParamSupport (supported given : BitVec 32) : Bool :=
  (List.range 32).all fun shifts => !given.getLsbD shifts || supported.getLsbD shifts

/-- What became of a request up to its tenant step. The status is 200 if it goes on. -/
structure Outcome where
  lookedUp : Bool
  status : ℕ
  tenantP : Option Tenant

def tenantStep (b : Broker) (ts : Tenants) (service : Service) (dbTenantExists : Bool)
    (tenantName : Text) : Tenants × ℕ × Option Tenant :=
  if service.makeSureTenantExists then
    match orionldTenantLookup b ts tenantName with
    | some t => (ts, 200, some t)
    | none =>
      if dbTenantExists then
        let (ts, t) := orionldTenantCreate b ts tenantName
        (ts, 200, some t)
      else (ts, 404, none)
  else
    let (ts, t) := orionldTenantGet b ts tenantName
    (ts, 200, some t)

def orionldMhdConnectionTreat (b : Broker) (ts : Tenants) (req : Request)
    (dbTenantExists : Bool) : Tenants × Outcome :=
  let st := orionldMhdConnectionInit b req
  if st.httpStatusCode ≠ 200 then (ts, ⟨false, st.httpStatusCode, none⟩)
  else match req.serviceP with
    | none => (ts, ⟨false, st.httpStatusCode, none⟩)
    | some service =>
      if !uriParamSupport service.uriParams req.uriParams.mask then (ts, ⟨false, 400, none⟩)
      else match st.tenantName with
        | none => (ts, ⟨false, 200, some (tenant0 b)⟩)
        | some tenantName =>
          let (ts, status, t) := tenantStep b ts service dbTenantExists tenantName
          (ts, ⟨true, status, t⟩)

structure State where
  tenants : Tenants
  served : List (Request × Outcome)

structure Event where
  req : Request
  dbTenantExists : Bool

def step (b : Broker) (s : State) (e : Event) : State :=
  let treated := orionldMhdConnectionTreat b s.tenants e.req e.dbTenantExists
  ⟨treated.1, s.served ++ [(e.req, treated.2)]⟩

def start (b : Broker) (names : List Text) : State :=
  ⟨names.foldl (fun ts name => (orionldTenantCreate b ts name).1) ⟨[], none⟩, []⟩

/-! What a request is refused for, and with which status. -/

def headersOf (req : Request) : OrionldState :=
  req.headers.foldl httpHeaderGet orionldStateInit

/-- The lower-cased value of the last tenant header. -/
def tenantOf (req : Request) : Option Text := (headersOf req).tenantName

/-- What the Accept headers leave, the last one that has an error. -/
def acceptStatus (req : Request) : ℕ := (headersOf req).httpStatusCode

def tooManyScopes : Header → Bool
  | .scope tooMany => tooMany
  | _ => false

def paramsRefused (req : Request) : Bool :=
  req.uriParams.refused || !verbSupported req.verb ||
    (req.uriParams.limit == 0 && !req.uriParams.count) || req.uriParams.limit > 1000 ||
    req.headers.any tooManyScopes

def payloadRefused (req : Request) : Bool :=
  (headersOf req).ngsildContent && (headersOf req).linkHttpHeaderPresent ||
    (headersOf req).contentLength > 2000000

def typeRefused (req : Request) : Bool :=
  !isMergePatch req.verb (headersOf req).contentType &&
    isUnsupported req.verb (headersOf req).contentType

def refused (req : Request) : Bool :=
  endsInTwoSlashes req.url || req.verb = .noverb ||
    match req.serviceP with
    | none => false
    | some service => acceptStatus req == 400 || acceptStatus req == 200 &&
        (paramsRefused req || payloadRefused req ||
          !typeRefused req && !uriParamSupport service.uriParams req.uriParams.mask)

variable {st : OrionldState} {req : Request} {b : Broker} {x y : Bool} {value : Text}

theorem failIf_failIf : failIf x (failIf y st) = failIf (y || x) st := by
  rcases y with _ | _ <;> rcases x with _ | _ <;> rfl

theorem scopes_fold (headers : List Header) (st : OrionldState) :
    headers.foldl orionldHttpHeaderGet st = failIf (headers.any tooManyScopes) st := by
  induction headers generalizing st with
  | nil => rfl
  | cons h headers ih =>
    rw [foldl_cons, ih, any_cons]
    rcases h with v | v | v | v | _ | tooMany | _
    case scope => exact failIf_failIf
    all_goals rfl

/-- The status of the parameters stays where no header has set another one. -/
def orFails (x : Bool) (st : OrionldState) : OrionldState :=
  if st.httpStatusCode = 200 then failIf x st else st

theorem acceptError_orFails (text : String) {status : ℕ} (h : status ≠ 200) :
    acceptError (orFails x st) text status = orFails x (acceptError st text status) := by
  have hleft : acceptError (orFails x st) text status = acceptError st text status := by
    unfold orFails failIf
    split_ifs <;> rfl
  rw [hleft]
  exact (if_neg h).symm

theorem acceptItemParse_orFails :
    acceptItemParse (orFails x st) value = orFails x (acceptItemParse st value) := by
  unfold acceptItemParse
  rcases acceptItem value with text | _ | mediaRange
  · exact acceptError_orFails text (by decide)
  · rfl
  · unfold orFails failIf
    dsimp only
    split_ifs <;> rfl

theorem acceptItems_orFails (items : List Text) (st : OrionldState) :
    items.foldl acceptItemParse (orFails x st) = orFails x (items.foldl acceptItemParse st) := by
  induction items generalizing st with
  | nil => rfl
  | cons item items ih => rw [foldl_cons, acceptItemParse_orFails, ih, foldl_cons]

theorem orFails_accepts (x : Bool) (st : OrionldState) :
    (orFails x st).acceptHeaderV = st.acceptHeaderV ∧
      (orFails x st).acceptHeaderError = st.acceptHeaderError := by
  unfold orFails failIf
  split_ifs <;> exact ⟨rfl, rfl⟩

theorem acceptParse_orFails :
    acceptParse (orFails x st) value = orFails x (acceptParse st value) := by
  unfold acceptParse
  by_cases hempty : value = []
  · rw [if_pos hempty, if_pos hempty]
    exact acceptError_orFails _ (by decide)
  rw [if_neg hempty, if_neg hempty]
  dsimp only
  obtain ⟨haccepts, herror⟩ := orFails_accepts x ((acceptItems value).foldl acceptItemParse st)
  rw [acceptItems_orFails, haccepts, herror]
  split
  · exact acceptError_orFails _ (by decide)
  · rfl

theorem httpHeaderGet_orFails (h : Header) :
    httpHeaderGet (orFails x st) h = orFails x (httpHeaderGet st h) := by
  rcases h with v | v | v | v | _ | tooMany | _
  case accept => exact acceptParse_orFails
  case scope => rfl
  case other => rfl
  all_goals
    unfold orFails failIf httpHeaderGet
    dsimp only
    split_ifs <;> rfl

theorem headers_fold (headers : List Header) (st : OrionldState) :
    headers.foldl httpHeaderGet (orFails x st) = orFails x (headers.foldl httpHeaderGet st) := by
  induction headers generalizing st with
  | nil => rfl
  | cons h headers ih => rw [foldl_cons, httpHeaderGet_orFails, ih, foldl_cons]

theorem readParamsAndHeaders_eq (req : Request) :
    readParamsAndHeaders req = orFails (paramsRefused req) (headersOf req) := by
  have hinit : failIf (paramsRefused req) orionldStateInit =
      orFails (paramsRefused req) orionldStateInit := (if_pos rfl).symm
  unfold readParamsAndHeaders
  simp only [scopes_fold, failIf_failIf]
  exact (congrArg (req.headers.foldl httpHeaderGet) hinit).trans (headers_fold _ _)

theorem acceptItems_tenantP (items : List Text) (st : OrionldState) :
    (items.foldl acceptItemParse st).tenantP = st.tenantP := by
  induction items generalizing st with
  | nil => rfl
  | cons item items ih =>
    rw [foldl_cons, ih, acceptItemParse]
    rcases acceptItem item with text | _ | mediaRange <;> rfl

theorem acceptParse_tenantP : (acceptParse st value).tenantP = st.tenantP := by
  unfold acceptParse
  split
  · rfl
  dsimp only
  split
  · exact acceptItems_tenantP _ st
  · exact acceptItems_tenantP _ st

theorem headersOf_tenantP (req : Request) : (headersOf req).tenantP = none := by
  have kept : ∀ (headers : List Header) (st : OrionldState),
      (headers.foldl httpHeaderGet st).tenantP = st.tenantP := by
    intro headers
    induction headers with
    | nil => exact fun st => rfl
    | cons h headers ih =>
      intro st
      rcases h with v | v | v | v | _ | tooMany | _
      case accept => exact (ih _).trans acceptParse_tenantP
      all_goals exact ih _
  exact kept req.headers orionldStateInit

theorem checkPayloadHeaders_tenantName (req : Request) (st : OrionldState) :
    (checkPayloadHeaders req st).tenantName = st.tenantName := by
  unfold checkPayloadHeaders
  split
  · rfl
  split
  · rfl
  split
  · rfl
  split
  · rfl
  · rfl

theorem checkPayloadHeaders_status (h : acceptStatus req = 200) (t : Option Tenant) :
    (checkPayloadHeaders req { headersOf req with tenantP := t }).httpStatusCode =
      if payloadRefused req then 400 else if typeRefused req then 415 else 200 := by
  have status : (headersOf req).httpStatusCode = 200 := h
  unfold checkPayloadHeaders payloadRefused typeRefused
  rcases (headersOf req).ngsildContent && (headersOf req).linkHttpHeaderPresent with _ | _
  · by_cases hl : (headersOf req).contentLength > 2000000
    · simp [hl]
    rcases isMergePatch req.verb (headersOf req).contentType with _ | _
    · rcases isUnsupported req.verb (headersOf req).contentType with _ | _
      · simp [hl, status]
      · simp [hl]
    · simp [hl, status]
  · simp

def initStatus (req : Request) : ℕ :=
  if endsInTwoSlashes req.url || req.verb = .noverb then 400
  else match req.serviceP with
    | none => if req.orionldBadVerb then 405 else 404
    | some _ =>
      if acceptStatus req ≠ 200 then acceptStatus req
      else if paramsRefused req || payloadRefused req then 400
      else if typeRefused req then 415 else 200

theorem init_of_service (hu : endsInTwoSlashes req.url = false) (hv : req.verb ≠ .noverb)
    {service : Service} (hs : req.serviceP = some service) :
    orionldMhdConnectionInit b req =
      if acceptStatus req ≠ 200 then headersOf req
      else if paramsRefused req then failIf true (headersOf req)
      else checkPayloadHeaders req { headersOf req with tenantP := some (tenant0 b) } := by
  have tenantP := headersOf_tenantP req
  unfold orionldMhdConnectionInit acceptStatus
  rw [hu, if_neg (by simp), if_neg hv, hs, readParamsAndHeaders_eq]
  unfold orFails
  by_cases status : (headersOf req).httpStatusCode = 200
  · rcases paramsRefused req with _ | _
    · simp [failIf, status, tenantP]
    · simp [failIf, status]
  · simp [status]

theorem init_status (b : Broker) (req : Request) :
    (orionldMhdConnectionInit b req).httpStatusCode = initStatus req ∧
      (initStatus req = 200 → (orionldMhdConnectionInit b req).tenantName = tenantOf req) := by
  unfold initStatus
  by_cases hu : endsInTwoSlashes req.url = true
  · simp [orionldMhdConnectionInit, hu]
  rw [Bool.not_eq_true] at hu
  by_cases hv : req.verb = .noverb
  · simp [orionldMhdConnectionInit, hu, hv]
  rcases hs : req.serviceP with _ | service
  · rcases hb : req.orionldBadVerb with _ | _ <;>
      simp [orionldMhdConnectionInit, hu, hv, hs, hb]
  rw [init_of_service hu hv hs]
  by_cases accepted : acceptStatus req = 200
  case neg =>
    rw [if_pos accepted]
    have status : (headersOf req).httpStatusCode ≠ 200 := accepted
    exact ⟨by simp [hu, hv, acceptStatus, status], fun _ => rfl⟩
  rw [if_neg (not_not.mpr accepted)]
  rcases paramsRefused req with _ | _
  · have status := checkPayloadHeaders_status accepted (some (tenant0 b))
    have name := checkPayloadHeaders_tenantName req
      { headersOf req with tenantP := some (tenant0 b) }
    refine ⟨by simpa [hu, hv, accepted] using status, fun _ => name⟩
  · simp [hu, hv, accepted, failIf]

theorem treat_eq (b : Broker) (ts : Tenants) (req : Request) (answer : Bool) :
    orionldMhdConnectionTreat b ts req answer =
      if initStatus req ≠ 200 then (ts, ⟨false, initStatus req, none⟩)
      else match req.serviceP with
        | none => (ts, ⟨false, initStatus req, none⟩)
        | some service =>
          if !uriParamSupport service.uriParams req.uriParams.mask then (ts, ⟨false, 400, none⟩)
          else match tenantOf req with
            | none => (ts, ⟨false, 200, some (tenant0 b)⟩)
            | some tenantName =>
              let (ts, status, t) := tenantStep b ts service answer tenantName
              (ts, ⟨true, status, t⟩) := by
  obtain ⟨status, name⟩ := init_status b req
  unfold orionldMhdConnectionTreat
  dsimp only
  rw [status]
  by_cases h : initStatus req = 200
  · rw [name h]
  · rw [if_pos h, if_pos h]

theorem refused_iff : refused req = true ↔ initStatus req = 400 ∨ initStatus req = 200 ∧
    ∃ service ∈ req.serviceP, uriParamSupport service.uriParams req.uriParams.mask = false := by
  unfold refused initStatus
  rcases endsInTwoSlashes req.url || req.verb = .noverb with _ | _
  · rcases req.serviceP with _ | service
    · rcases req.orionldBadVerb with _ | _ <;> simp
    by_cases accepted : acceptStatus req = 200
    case neg => simp [accepted]
    rcases paramsRefused req with _ | _
    · rcases payloadRefused req with _ | _
      · rcases typeRefused req with _ | _ <;> simp [accepted]
      · simp [accepted]
    · simp [accepted]
  · simp

theorem treat_refused (ts : Tenants) (answer : Bool) (h : refused req = true) :
    orionldMhdConnectionTreat b ts req answer = (ts, ⟨false, 400, none⟩) := by
  rw [treat_eq]
  rcases refused_iff.mp h with h | ⟨h, service, hs, hu⟩
  · rw [h, if_pos (by decide)]
  · rw [h, if_neg (by decide), hs]
    simp [hu]

theorem treat_unrefused (ts : Tenants) (answer : Bool) (h : ¬ refused req = true)
    {tenantName : Text} (hn : tenantOf req = some tenantName) :
    (orionldMhdConnectionTreat b ts req answer).2.lookedUp = true ∨
      (orionldMhdConnectionTreat b ts req answer).2.status ≠ 400 := by
  rw [refused_iff, not_or, not_and, not_exists] at h
  rw [treat_eq, hn]
  by_cases hi : initStatus req = 200
  · rw [if_neg (by simp [hi])]
    rcases hs : req.serviceP with _ | service
    · exact .inr h.1
    have supported : uriParamSupport service.uriParams req.uriParams.mask = true := by
      simpa [hs] using h.2 hi service
    simp [supported]
  · rw [if_pos hi]
    exact .inr h.1

/-! Which tenant a request gets, and its databases. -/

variable {ts : Tenants} {t : Tenant} {tenantName : Text}

def Created (b : Broker) (t : Tenant) : Prop := ∃ tenantName, t = newTenant b tenantName

structure AllCreated (b : Broker) (ts : Tenants) : Prop where
  list : ∀ t ∈ ts.tenantList, Created b t
  cache : ∀ t ∈ ts.tenantCache, t.tenant ≠ [] → Created b t

theorem tenant_of_databases (h : Created b t) :
    (t.mongoDbName.drop (b.dbName.length + 1)).take 50 = t.tenant ∧
      (t.troeDbName.drop (b.dbName.length + 1)).take 50 = t.tenant := by
  obtain ⟨tenantName, rfl⟩ := h
  have short := b.short
  have cut : ∀ c n, 50 + (b.dbName.length + 1) ≤ n →
      (((b.dbName ++ c :: tenantName).take n).drop (b.dbName.length + 1)).take 50 =
        tenantName.take 50 := by
    intro c n hn
    have name : (b.dbName ++ c :: tenantName).drop (b.dbName.length + 1) = tenantName := by
      simp
    rw [drop_take, name, take_take]
    congr 1
    omega
  constructor
  · have path : pathOf b tenantName "" = b.dbName ++ '-' :: tenantName := by simp [pathOf]
    rw [newTenant, path]
    exact cut '-' 64 (by omega)
  · exact cut '_' 70 (by omega)

theorem databases_apart {u : Tenant} (ht : Created b t) (hu : Created b u)
    (h : t.tenant ≠ u.tenant) :
    t.mongoDbName ≠ u.mongoDbName ∧ t.troeDbName ≠ u.troeDbName := by
  obtain ⟨mongo, troe⟩ := tenant_of_databases ht
  obtain ⟨mongo', troe'⟩ := tenant_of_databases hu
  constructor
  · intro he
    rw [← mongo, ← mongo', he] at h
    exact h rfl
  · intro he
    rw [← troe, ← troe', he] at h
    exact h rfl

theorem AllCreated.lookup (h : AllCreated b ts) (hn : tenantName ≠ [])
    (hl : orionldTenantLookup b ts tenantName = some t) :
    t.tenant = tenantName ∧ Created b t := by
  rcases tenantLookup_some hl with ⟨hnil, -⟩ | ⟨-, hname, hlist | hcache⟩
  · exact absurd hnil hn
  · exact ⟨hname, h.list t hlist⟩
  · exact ⟨hname, h.cache t hcache (hname ▸ hn)⟩

theorem AllCreated.create (h : AllCreated b ts) (tenantName : Text) :
    AllCreated b (orionldTenantCreate b ts tenantName).1 := by
  unfold orionldTenantCreate tenantCreate
  split
  · exact h
  refine ⟨fun t ht => ?_, h.cache⟩
  rcases mem_cons.mp ht with rfl | ht
  · exact ⟨tenantName, rfl⟩
  · exact h.list t ht

theorem allCreated_start (names : List Text) : AllCreated b (start b names).tenants := by
  have all : ∀ (names : List Text) (ts : Tenants), AllCreated b ts →
      AllCreated b (names.foldl (fun ts name => (orionldTenantCreate b ts name).1) ts) := by
    intro names
    induction names with
    | nil => exact fun ts h => h
    | cons name names ih => exact fun ts h => ih _ (h.create name)
  exact all names _ ⟨by simp, by simp⟩

theorem create_tenant (ts : Tenants) (hn : tenantName ≠ []) (hl : tenantName.length ≤ 50) :
    (orionldTenantCreate b ts tenantName).2.tenant = tenantName ∧
      Created b (orionldTenantCreate b ts tenantName).2 := by
  rw [orionldTenantCreate, tenantCreate, if_neg hn]
  exact ⟨take_of_length_le hl, tenantName, rfl⟩

theorem create_created (ts : Tenants)
    (h : (orionldTenantCreate b ts tenantName).2.tenant ≠ []) :
    Created b (orionldTenantCreate b ts tenantName).2 := by
  unfold orionldTenantCreate tenantCreate at h ⊢
  split at h
  · exact absurd rfl h
  rename_i hn
  rw [if_neg hn]
  exact ⟨tenantName, rfl⟩

theorem AllCreated.get (h : AllCreated b ts) (tenantName : Text) :
    AllCreated b (orionldTenantGet b ts tenantName).1 := by
  unfold orionldTenantGet
  rcases hl : orionldTenantLookup b ts tenantName with _ | t
  · refine ⟨(h.create tenantName).list, fun t ht hn => ?_⟩
    cases ht
    exact create_created ts hn
  refine ⟨h.list, fun u hu hn => ?_⟩
  cases hu
  by_cases he : tenantName = []
  · rw [he, orionldTenantLookup, tenantLookup, if_pos rfl, Option.some.injEq] at hl
    exact absurd (congrArg Tenant.tenant hl).symm hn
  · exact (h.lookup he hl).2

theorem AllCreated.tenantStep (h : AllCreated b ts) (service : Service) (answer : Bool)
    (tenantName : Text) : AllCreated b (tenantStep b ts service answer tenantName).1 := by
  obtain ⟨params, sure⟩ := service
  unfold TenantNames.tenantStep
  rcases sure with _ | _
  · exact h.get tenantName
  rcases orionldTenantLookup b ts tenantName with _ | t
  · rcases answer with _ | _
    · exact h
    · exact h.create tenantName
  · exact h

theorem AllCreated.tenant (h : AllCreated b ts) (service : Service) (answer : Bool)
    (hn : tenantName ≠ []) (hl : tenantName.length ≤ 50)
    (ht : (TenantNames.tenantStep b ts service answer tenantName).2.2 = some t) :
    t.tenant = tenantName ∧ Created b t := by
  have created := create_tenant (b := b) ts hn hl
  obtain ⟨params, sure⟩ := service
  unfold TenantNames.tenantStep orionldTenantGet at ht
  rcases hf : orionldTenantLookup b ts tenantName with _ | found
  · rw [hf] at ht
    rcases sure with _ | _
    · obtain rfl : _ = t := by simpa using ht
      exact created
    rcases answer with _ | _
    · simp at ht
    · obtain rfl : _ = t := by simpa using ht
      exact created
  · have same := h.lookup hn hf
    rw [hf] at ht
    rcases sure with _ | _
    · obtain rfl : found = t := by simpa using ht
      exact same
    · obtain rfl : found = t := by simpa using ht
      exact same

/-! Runs of requests. -/

def ValidName (tenantName : Text) : Prop :=
  tenantName.length ≤ 50 ∧ ∀ c ∈ tenantName, isNameChar c = true

instance (tenantName : Text) : Decidable (ValidName tenantName) :=
  decidable_of_iff (tenantName.length ≤ 50 ∧ tenantName.all isNameChar = true)
    (and_congr_right' List.all_eq_true)

structure Names (req : Request) (tenantName : Text) : Prop where
  header : tenantOf req = some tenantName
  nonempty : tenantName ≠ []

structure Safe (s : State) : Prop where
  valid : ∀ p ∈ s.served, ∀ n, Names p.1 n → p.2.lookedUp = true → ValidName n
  refused : ∀ p ∈ s.served, ∀ n, Names p.1 n → ¬ ValidName n → p.2.status = 400
  apart : ∀ p ∈ s.served, ∀ q ∈ s.served, ∀ n m, Names p.1 n → Names q.1 m → n ≠ m →
    ∀ t ∈ p.2.tenantP, ∀ u ∈ q.2.tenantP,
      t.mongoDbName ≠ u.mongoDbName ∧ t.troeDbName ≠ u.troeDbName

def Clean (_ : State) (e : Event) : Prop :=
  ∀ n ∈ tenantOf e.req, n ≠ [] → ValidName n ∨ refused e.req = true

structure Kept (b : Broker) (s : State) : Prop where
  tenants : AllCreated b s.tenants
  valid : ∀ p ∈ s.served, ∀ n, Names p.1 n → p.2.lookedUp = true → ValidName n
  refused : ∀ p ∈ s.served, ∀ n, Names p.1 n → ¬ ValidName n → p.2.status = 400
  own : ∀ p ∈ s.served, ∀ n, Names p.1 n → ∀ t ∈ p.2.tenantP, t.tenant = n ∧ Created b t

variable {s : State} {e : Event}

theorem Kept.safe (h : Kept b s) : Safe s where
  valid := h.valid
  refused := h.refused
  apart p hp q hq n m hn hm hne t ht u hu := by
    obtain ⟨tenant, created⟩ := h.own p hp n hn t ht
    obtain ⟨tenant', created'⟩ := h.own q hq m hm u hu
    exact databases_apart created created' (by rwa [tenant, tenant'])

theorem kept_start (names : List Text) : Kept b (start b names) where
  tenants := allCreated_start names
  valid _ hp := nomatch hp
  refused _ hp := nomatch hp
  own _ hp := nomatch hp

theorem treat_cases (b : Broker) (ts : Tenants) (req : Request) (answer : Bool) :
    (∃ status t, orionldMhdConnectionTreat b ts req answer = (ts, ⟨false, status, t⟩) ∧
      ∀ n, tenantOf req = some n → t = none) ∨
    ∃ service n, tenantOf req = some n ∧ orionldMhdConnectionTreat b ts req answer =
      ((tenantStep b ts service answer n).1, ⟨true, (tenantStep b ts service answer n).2.1,
        (tenantStep b ts service answer n).2.2⟩) := by
  rw [treat_eq]
  split
  · exact .inl ⟨_, none, rfl, fun _ _ => rfl⟩
  rcases req.serviceP with _ | service
  · exact .inl ⟨_, none, rfl, fun _ _ => rfl⟩
  dsimp only
  split
  · exact .inl ⟨_, none, rfl, fun _ _ => rfl⟩
  rcases tenantOf req with _ | n
  · exact .inl ⟨_, _, rfl, fun _ hn => nomatch hn⟩
  · exact .inr ⟨service, n, rfl, rfl⟩

theorem mem_served {p : Request × Outcome} (h : p ∈ (step b s e).served) : p ∈ s.served ∨
    p = (e.req, (orionldMhdConnectionTreat b s.tenants e.req e.dbTenantExists).2) := by
  rcases mem_append.mp h with h | h
  · exact .inl h
  · exact .inr (mem_singleton.mp h)

theorem treat_created (h : AllCreated b s.tenants) (e : Event) :
    AllCreated b (orionldMhdConnectionTreat b s.tenants e.req e.dbTenantExists).1 := by
  rcases treat_cases b s.tenants e.req e.dbTenantExists with
    ⟨status, t, he, -⟩ | ⟨service, n, -, he⟩
  · rw [he]
    exact h
  · rw [he]
    exact h.tenantStep service e.dbTenantExists n

theorem treat_own (h : AllCreated b s.tenants) (e : Event) {n : Text} (names : Names e.req n)
    (ok : Clean s e)
    (ht : (orionldMhdConnectionTreat b s.tenants e.req e.dbTenantExists).2.tenantP = some t) :
    t.tenant = n ∧ Created b t := by
  rcases ok n names.header names.nonempty with valid | refused
  · rcases treat_cases b s.tenants e.req e.dbTenantExists with
      ⟨status, u, he, none⟩ | ⟨service, m, hm, he⟩
    · rw [he] at ht
      exact absurd ((none n names.header).symm.trans ht) (by simp)
    · obtain rfl : m = n := Option.some.inj (hm.symm.trans names.header)
      rw [he] at ht
      exact h.tenant service e.dbTenantExists names.nonempty valid.1 ht
  · rw [treat_refused _ _ refused] at ht
    cases ht

theorem step_kept (h : Kept b s) (ok : Clean s e) : Kept b (step b s e) where
  tenants := treat_created h.tenants e
  valid p hp n names looked := by
    rcases mem_served hp with hp | rfl
    · exact h.valid p hp n names looked
    dsimp only at looked
    rcases ok n names.header names.nonempty with valid | refused
    · exact valid
    · rw [treat_refused _ _ refused] at looked
      cases looked
  refused p hp n names invalid := by
    rcases mem_served hp with hp | rfl
    · exact h.refused p hp n names invalid
    · have refused := (ok n names.header names.nonempty).resolve_left invalid
      rw [treat_refused _ _ refused]
  own p hp n names t ht := by
    rcases mem_served hp with hp | rfl
    · exact h.own p hp n names t ht
    · exact treat_own h.tenants e names ok ht

theorem step_loses (ok : ¬ Clean s e) : ¬ Safe (step b s e) := by
  unfold Clean at ok
  push Not at ok
  obtain ⟨n, header, nonempty, invalid, unrefused⟩ := ok
  intro safe
  have last : (e.req, (orionldMhdConnectionTreat b s.tenants e.req e.dbTenantExists).2) ∈
      (step b s e).served := mem_append_right _ (mem_singleton.mpr rfl)
  have names : Names e.req n := ⟨header, nonempty⟩
  rcases treat_unrefused s.tenants e.dbTenantExists unrefused header with looked | status
  · exact invalid (safe.valid _ last n names looked)
  · exact status (safe.refused _ last n names invalid)

def orion : Broker := ⟨"orion".toList, by decide +kernel⟩

def getEntities (value : String) : Request where
  url := "/ngsi-ld/v1/entities".toList
  verb := .get
  serviceP := some ⟨0, true⟩
  orionldBadVerb := false
  uriParams := ⟨20, false, 0, false⟩
  headers := [.tenant value.toList]

end TenantNames
