import OrionLd.OrionldContextItem
import OrionLd.Fallible
import OrionLd.StepSystem
import OrionLd.UrlParse
import Mathlib.Data.List.TakeDrop

/-! GET /entities/{id} forwarded to the providers of the matching registrations. The array of
requested names is one for the whole loop: An `overrun` records a write outside of an array, the
values going on as if it had room. -/
namespace OrionldForwardGetEntity

open KjTree OrionldContextItem Fallible List
open StepSystem (splits_cons)

/-- Entities, attributes (`none` for one without "name") and the provider. -/
structure ContextRegistration where
  attrs : List (Option Text)
  providingApplication : Text

abbrev Registration := List ContextRegistration

structure Url where
  protocol : Text
  host : Text
  port : Nat
  uriDir : Text
  /-- Whether the port was copied past the end of `portNumberString`. -/
  overrun : Bool

/-- With the sizes of `orionldForwardGetEntityPart`: protocol[32] and host[128]. -/
def urlParse (url : Text) : Option Url :=
  match UrlParse.urlParse 32 128 url with
  | .error _ => none
  | .ok r => some ⟨r.protocol, r.ip, (r.port.map Prod.fst).getD 0, r.urlPath.getD [],
      r.port.any fun port => 6 < port.2⟩

structure Extracted where
  registrationAttrV : List Text
  url : Url
  overrun : Bool

def noUrl : Url := ⟨[], [], 0, [], false⟩

/-- It is parsed while the host is empty. A failure leaves what has been written so far. -/
def readItem (item : ContextRegistration) (e : Extracted) : Except Bool Extracted :=
  let registrationAttrV := e.registrationAttrV ++ item.attrs.reduceOption
  let overrun := e.overrun || decide (100 < registrationAttrV.length)
  if e.url.host = [] then
    match urlParse item.providingApplication with
    | none => .error overrun
    | some url => .ok ⟨registrationAttrV, url, overrun || url.overrun⟩
  else .ok ⟨registrationAttrV, e.url, overrun⟩

/-- Each round of the loop over the items reads the first of them. -/
def kjTreeRegistrationInfoExtract (r : Registration) : Except Bool Extracted :=
  match r with
  | [] => .ok ⟨[], noUrl, false⟩
  | first :: _ => r.foldlM (fun e _ => readItem first e) ⟨[], noUrl, false⟩

/-- `slashBefore` tells whether a '/' stands in memory before the empty string that `uriDir` is
without a path in the provider's URL. -/
structure Get where
  contexts : Contexts
  entityId : Text
  keyValues : Bool
  slashBefore : Bool

def attrsToAlias (c : Contexts) (attrV : List Text) : List Text :=
  attrV.map (orionldContextItemAliasLookup c)

def kStringArrayJoin (attrV : List Text) : Text := ",".toList.intercalate attrV

structure NewUriParamAttrs where
  /-- `none` where no request is sent. -/
  attrs : Option Text
  uriParamAttrV : List Text
  overrun : Bool

def newUriParamAttrs (c : Contexts) (uriParamAttrV registrationAttrV : List Text) :
    NewUriParamAttrs :=
  if uriParamAttrV = [] ∧ registrationAttrV = [] then ⟨some [], uriParamAttrV, false⟩
  else if uriParamAttrV = [] then
    let attrs := kStringArrayJoin (attrsToAlias c registrationAttrV)
    ⟨some attrs, uriParamAttrV, decide (registrationAttrV.length * 200 < attrs.length + 1)⟩
  else if registrationAttrV = [] then
    let uriParamAttrV := attrsToAlias c uriParamAttrV
    let attrs := kStringArrayJoin uriParamAttrV
    ⟨some attrs, uriParamAttrV, decide (uriParamAttrV.length * 200 < attrs.length + 1)⟩
  else
    let attrsV := uriParamAttrV.filter (· ∈ registrationAttrV)
    if attrsV = [] then ⟨none, uriParamAttrV, false⟩
    else
      let attrs := kStringArrayJoin (attrsToAlias c attrsV)
      ⟨some attrs, uriParamAttrV,
        decide (100 < attrsV.length) || decide (200 * 30 < attrs.length + 1)⟩

/-- What `orionldRequestSend` sends; `attrs` is the text the path was printed with. -/
structure Request where
  attrs : Text
  url : Text

def withoutSlash (uriDir : Text) : Text :=
  if uriDir.getLast? = some '/' then uriDir.dropLast else uriDir

def snprintf (size : Nat) (str : Text) : Text := str.take (size - 1)

def urlPath (g : Get) (uriDir attrs : Text) : Text :=
  snprintf (256 + attrs.length) <|
    if attrs ≠ [] then
      if g.keyValues then
        withoutSlash uriDir ++ "/ngsi-ld/v1/entities/".toList ++ g.entityId ++
          "?options=keyValues&attrs=".toList ++ attrs
      else
        withoutSlash uriDir ++ "/ngsi-ld/v1/entities/".toList ++ g.entityId ++
          "?attrs=".toList ++ attrs
    else if g.keyValues then
      withoutSlash uriDir ++ "/ngsi-ld/v1/entities/".toList ++ g.entityId ++
        "?options=keyValues".toList
    else withoutSlash uriDir ++ "/ngsi-ld/v1/entities/".toList ++ g.entityId

def authority (url : Url) : Text :=
  url.protocol ++ "://".toList ++ url.host ++
    if url.port ≠ 0 then ':' :: (toString url.port).toList else []

/-- Printed into url[256]. -/
def orionldRequestSend (url : Url) (urlPath : Text) : Text :=
  snprintf 256 (authority url ++ urlPath)

structure Part where
  request : Option Request
  uriParamAttrV : List Text
  overrun : Bool

/-- The last byte of an empty `uriDir` is the one before it. -/
def orionldForwardGetEntityPart (g : Get) (uriParamAttrV : List Text) (r : Registration) :
    Part :=
  match kjTreeRegistrationInfoExtract r with
  | .error overrun => ⟨none, uriParamAttrV, overrun⟩
  | .ok e =>
    let n := newUriParamAttrs g.contexts uriParamAttrV e.registrationAttrV
    match n.attrs with
    | none => ⟨none, n.uriParamAttrV, e.overrun || n.overrun⟩
    | some attrs =>
      ⟨some ⟨attrs, orionldRequestSend e.url (urlPath g e.url.uriDir attrs)⟩, n.uriParamAttrV,
        e.overrun || n.overrun || decide (e.url.uriDir = [] ∧ g.slashBefore = true)⟩

def orionldForwardGetEntity (g : Get) : List Text → List Registration → List Part
  | _, [] => []
  | uriParamAttrV, r :: regs =>
    let part := orionldForwardGetEntityPart g uriParamAttrV r
    part :: orionldForwardGetEntity g part.uriParamAttrV regs

/-- The names as `kStringSplit` leaves them, to `dotAttrV`, which is terminated after the last. -/
def attrsListToArray (c : Contexts) (items : List Text) : List Text × Bool :=
  (items.map fun item =>
    if item ≠ "location".toList then (orionldAttributeExpand c item).1 else item,
   decide (100 ≤ items.length))

/-! What a provider is to be asked for. -/

def provider : Registration → Option Url
  | [] => some noUrl
  | first :: _ => urlParse first.providingApplication

def registered (r : Registration) : List Text := r.flatMap fun item => item.attrs.reduceOption

/-- `none` for no request, else its `attrs` parameter, if it has one. -/
def asked (c : Contexts) (requested registered : List Text) : Option (Option Text) :=
  let text := fun names => kStringArrayJoin (attrsToAlias c names)
  if requested = [] then
    if registered = [] then some none else some (some (text registered))
  else if registered = [] then some (some (text requested))
  else if requested.filter (· ∈ registered) = [] then none
  else some (some (text (requested.filter (· ∈ registered))))

def pathHead (g : Get) (uriDir : Text) : Text :=
  withoutSlash uriDir ++ "/ngsi-ld/v1/entities/".toList ++ g.entityId ++
    if g.keyValues then "?options=keyValues".toList else []

def pathMark (g : Get) : Text :=
  if g.keyValues then "&attrs=".toList else "?attrs=".toList

def urlHead (g : Get) (url : Url) : Text := authority url ++ pathHead g url.uriDir

def Asks (g : Get) (url : Url) (request : Option Request) : Option (Option Text) → Prop
  | none => request = none
  | some none => ∃ q, request = some q ∧ q.attrs = [] ∧ q.url <+: urlHead g url
  | some (some attrs) => ∃ q, request = some q ∧ q.attrs = attrs ∧
      q.url = urlHead g url ++ pathMark g ++ attrs

structure Served (g : Get) (requestedV : List Text) (r : Registration) (part : Part) : Prop where
  within : part.overrun = false
  alone : part.request = (orionldForwardGetEntityPart g requestedV r).request
  asks : ∀ url, provider r = some url →
    Asks g url part.request (asked g.contexts requestedV (registered r))

/-- The whole of a GET: `items` are the names of its `attrs` parameter. -/
def EachServed (g : Get) (items : List Text) (regs : List Registration) : Prop :=
  (attrsListToArray g.contexts items).2 = false ∧
    List.Forall₂ (Served g (attrsListToArray g.contexts items).1) regs
      (orionldForwardGetEntity g (attrsListToArray g.contexts items).1 regs)

/-! When that is so. -/

def namesRead : Registration → List Text
  | [] => []
  | first :: rest => (first :: rest).flatMap fun _ => first.attrs.reduceOption

def namesStored (r : Registration) : List Text :=
  if (provider r).isSome then namesRead r
  else (r.take 1).flatMap fun item => item.attrs.reduceOption

def bufferSize (requested registered : List Text) : Nat :=
  if requested = [] then registered.length * 200
  else if registered = [] then requested.length * 200
  else 6000

def rewrites (r : Registration) : Bool := (provider r).isSome && (namesRead r).isEmpty

def rewritten (c : Contexts) (count : Nat) (requested : List Text) : List Text :=
  requested.map (orionldContextItemAliasLookup c)^[count]

structure Roomy (g : Get) (uriParamAttrV : List Text) (r : Registration) (url : Url) :
    Prop where
  port : url.overrun = false
  slash : asked g.contexts uriParamAttrV (namesRead r) ≠ none → url.uriDir = [] →
    g.slashBefore = false
  text : ∀ attrs, asked g.contexts uriParamAttrV (namesRead r) = some (some attrs) →
    attrs.length < bufferSize uriParamAttrV (namesRead r) ∧
      (urlHead g url).length + (pathMark g).length + attrs.length ≤ 255

structure Undisturbed (g : Get) (requestedV uriParamAttrV : List Text) (r : Registration) :
    Prop where
  items : asked g.contexts requestedV (namesRead r) =
    asked g.contexts requestedV (registered r)
  names : asked g.contexts uriParamAttrV (namesRead r) =
    asked g.contexts requestedV (namesRead r)
  named : asked g.contexts uriParamAttrV (namesRead r) ≠ some (some [])

structure Servable (g : Get) (requestedV : List Text) (count : Nat) (r : Registration) :
    Prop where
  stored : (namesStored r).length ≤ 100
  reached : ∀ url, provider r = some url →
    Roomy g (rewritten g.contexts count requestedV) r url ∧
      Undisturbed g requestedV (rewritten g.contexts count requestedV) r

/-! The registration's names and provider. -/

theorem readItem_first (item : ContextRegistration) :
    readItem item ⟨[], noUrl, false⟩ =
      match urlParse item.providingApplication with
      | none => .error (decide (100 < item.attrs.reduceOption.length))
      | some url => .ok ⟨item.attrs.reduceOption, url,
          decide (100 < item.attrs.reduceOption.length) || url.overrun⟩ := by
  cases h : urlParse item.providingApplication with
  | none | some url => simp [readItem, noUrl, h]

variable {url : Url} {r : Registration} {requestedV : List Text}
variable {item : ContextRegistration}

theorem readItem_again {names : List Text} (h : urlParse item.providingApplication = some url) :
    readItem item ⟨names, url, decide (100 < names.length) || url.overrun⟩ =
      .ok ⟨names ++ item.attrs.reduceOption, url,
        decide (100 < (names ++ item.attrs.reduceOption).length) || url.overrun⟩ := by
  have hgrow : (decide (100 < names.length) ||
      decide (100 < (names ++ item.attrs.reduceOption).length)) =
      decide (100 < (names ++ item.attrs.reduceOption).length) := by
    rw [length_append, ← Bool.decide_or]
    apply decide_eq_decide.mpr
    omega
  rw [← hgrow]
  simp only [readItem, h]
  split
  · cases url.overrun <;> simp
  · cases url.overrun <;> simp

theorem readItem_rounds (h : urlParse item.providingApplication = some url)
    (rounds : Registration) :
    ∀ names : List Text,
      rounds.foldlM (fun e _ => readItem item e)
          ⟨names, url, decide (100 < names.length) || url.overrun⟩ =
        .ok ⟨names ++ rounds.flatMap fun _ => item.attrs.reduceOption, url,
          decide (100 < (names ++ rounds.flatMap fun _ => item.attrs.reduceOption).length) ||
            url.overrun⟩ := by
  induction rounds with
  | nil => intro names; simp [pure, Except.pure]
  | cons _ rounds ih =>
    intro names
    rw [foldlM_cons, readItem_again h, ok_bind, ih, flatMap_cons, append_assoc]

theorem extract_eq (r : Registration) :
    kjTreeRegistrationInfoExtract r =
      match provider r with
      | none => .error (decide (100 < (namesStored r).length))
      | some url => .ok ⟨namesRead r, url, decide (100 < (namesRead r).length) || url.overrun⟩ := by
  cases r with
  | nil => rfl
  | cons first rest =>
    simp only [kjTreeRegistrationInfoExtract, foldlM_cons, readItem_first, provider]
    cases h : urlParse first.providingApplication with
    | none =>
      simp [namesStored, provider, h]
      rfl
    | some url =>
      simp only [ok_bind]
      rw [readItem_rounds h]
      simp [namesRead]

theorem namesRead_of_registered (h : registered r = []) : namesRead r = [] := by
  cases r with
  | nil => rfl
  | cons first rest =>
    have hfirst : first.attrs.reduceOption = [] := (flatMap_eq_nil_iff.mp h) first mem_cons_self
    simp [namesRead, hfirst]

/-! The text of the names and the path it is printed into. -/

@[simp] theorem attrsToAlias_nil (c : Contexts) : attrsToAlias c [] = [] := rfl

@[simp] theorem length_attrsToAlias (c : Contexts) (attrV : List Text) :
    (attrsToAlias c attrV).length = attrV.length :=
  List.length_map _

theorem newUriParamAttrs_attrs (c : Contexts) (requested names : List Text) :
    (newUriParamAttrs c requested names).attrs =
      (asked c requested names).map fun p => p.getD [] := by
  unfold newUriParamAttrs asked
  by_cases hr : requested = [] <;> by_cases hn : names = [] <;>
    by_cases hf : requested.filter (· ∈ names) = [] <;> simp [hr, hn, hf]

theorem newUriParamAttrs_left (c : Contexts) (requested names : List Text) :
    (newUriParamAttrs c requested names).uriParamAttrV =
      if names = [] then attrsToAlias c requested else requested := by
  unfold newUriParamAttrs
  by_cases hr : requested = [] <;> by_cases hn : names = [] <;>
    by_cases hf : requested.filter (· ∈ names) = [] <;> simp [hr, hn, hf]

theorem newUriParamAttrs_within {c : Contexts} {requested : List Text} (names : List Text)
    (h : requested.length < 100) :
    (newUriParamAttrs c requested names).overrun = false ↔
      ∀ attrs, asked c requested names = some (some attrs) →
        attrs.length < bufferSize requested names := by
  have hfilter : (requested.filter (· ∈ names)).length ≤ requested.length := length_filter_le _ _
  unfold newUriParamAttrs asked bufferSize
  by_cases hr : requested = [] <;> by_cases hn : names = [] <;>
    by_cases hf : requested.filter (· ∈ names) = [] <;>
    simp [hr, hn, hf]
  all_goals omega

theorem urlPath_eq (g : Get) (uriDir attrs : Text) :
    urlPath g uriDir attrs =
      (pathHead g uriDir ++ if attrs = [] then [] else pathMark g ++ attrs).take
        (255 + attrs.length) := by
  have hsize : 256 + attrs.length - 1 = 255 + attrs.length := by omega
  unfold urlPath snprintf pathHead pathMark
  by_cases ha : attrs = [] <;> cases g.keyValues <;> simp [ha]

/-- The cut of the path is behind the cut of the whole. -/
theorem sent_eq (g : Get) (url : Url) (attrs : Text) :
    orionldRequestSend url (urlPath g url.uriDir attrs) =
      (urlHead g url ++ if attrs = [] then [] else pathMark g ++ attrs).take 255 := by
  have hcut : 256 - 1 - (authority url).length ≤ 255 + attrs.length := by omega
  unfold orionldRequestSend snprintf urlHead
  rw [urlPath_eq, append_assoc]
  generalize (pathHead g url.uriDir ++ if attrs = [] then [] else pathMark g ++ attrs) = path
  rw [take_append, take_append, take_take, Nat.min_eq_left hcut]

theorem pathMark_pos (g : Get) : 0 < (pathMark g).length := by
  unfold pathMark
  split <;> decide

theorem sent_whole (g : Get) (url : Url) (attrs : Text) :
    orionldRequestSend url (urlPath g url.uriDir attrs) = urlHead g url ++ pathMark g ++ attrs ↔
      attrs ≠ [] ∧ (urlHead g url).length + (pathMark g).length + attrs.length ≤ 255 := by
  have hmark := pathMark_pos g
  rw [sent_eq]
  by_cases ha : attrs = []
  · have hshort : ((urlHead g url).take 255).length < (urlHead g url ++ pathMark g).length := by
      rw [length_append]
      exact lt_of_le_of_lt (length_take_le' _ _) (by omega)
    have hne : (urlHead g url).take 255 ≠ urlHead g url ++ pathMark g := by
      intro h
      rw [h] at hshort
      exact lt_irrefl _ hshort
    simp [ha, hne]
  · rw [if_neg ha, ← append_assoc, take_eq_self_iff]
    simp only [length_append, ne_eq, ha, not_false_eq_true, true_and]

theorem sent_prefix (g : Get) (url : Url) :
    orionldRequestSend url (urlPath g url.uriDir []) <+: urlHead g url := by
  rw [sent_eq]
  simpa using take_prefix 255 (urlHead g url)

/-! One registration. -/

def requestTo (g : Get) (url : Url) (attrs : Option Text) : Request :=
  ⟨attrs.getD [], orionldRequestSend url (urlPath g url.uriDir (attrs.getD []))⟩

theorem part_refused (g : Get) (attrV : List Text) (h : provider r = none) :
    orionldForwardGetEntityPart g attrV r =
      ⟨none, attrV, decide (100 < (namesStored r).length)⟩ := by
  simp [orionldForwardGetEntityPart, extract_eq, h]

theorem part_request (g : Get) (attrV : List Text) (h : provider r = some url) :
    (orionldForwardGetEntityPart g attrV r).request =
      (asked g.contexts attrV (namesRead r)).map (requestTo g url) := by
  unfold orionldForwardGetEntityPart
  rw [extract_eq, h]
  dsimp only
  rw [newUriParamAttrs_attrs]
  cases asked g.contexts attrV (namesRead r) <;> rfl

theorem part_left (g : Get) (attrV : List Text) (r : Registration) :
    (orionldForwardGetEntityPart g attrV r).uriParamAttrV =
      if rewrites r then attrsToAlias g.contexts attrV else attrV := by
  cases h : provider r with
  | none => simp [part_refused g attrV h, rewrites, h]
  | some url =>
    unfold orionldForwardGetEntityPart
    rw [extract_eq, h]
    dsimp only
    rw [newUriParamAttrs_attrs, newUriParamAttrs_left]
    cases asked g.contexts attrV (namesRead r) <;> simp [rewrites, h]

theorem part_within (g : Get) {attrV : List Text} (h : provider r = some url)
    (hfew : attrV.length < 100) : (orionldForwardGetEntityPart g attrV r).overrun = false ↔
      (namesRead r).length ≤ 100 ∧ url.overrun = false ∧
        (∀ attrs, asked g.contexts attrV (namesRead r) = some (some attrs) →
          attrs.length < bufferSize attrV (namesRead r)) ∧
        (asked g.contexts attrV (namesRead r) ≠ none → url.uriDir = [] →
          g.slashBefore = false) := by
  rw [← newUriParamAttrs_within (namesRead r) hfew]
  unfold orionldForwardGetEntityPart
  rw [extract_eq, h]
  dsimp only
  rw [newUriParamAttrs_attrs]
  cases asked g.contexts attrV (namesRead r) with
  | none => simp [and_assoc]
  | some attrs => simp [and_assoc]

theorem asked_plain {c : Contexts} {requested names : List Text}
    (h : asked c requested names = some none) : requested = [] ∧ names = [] := by
  unfold asked at h
  split at h
  · split at h
    · exact ⟨by assumption, by assumption⟩
    · simp at h
  split at h
  · simp at h
  · split at h <;> simp at h

theorem asks_requestTo (g : Get) (url : Url) (attrs : Option Text) :
    Asks g url (some (requestTo g url attrs)) (some attrs) ↔
      ∀ text, attrs = some text →
        text ≠ [] ∧ (urlHead g url).length + (pathMark g).length + text.length ≤ 255 := by
  cases attrs with
  | none => simp [Asks, requestTo, sent_prefix]
  | some text => simp [Asks, requestTo, sent_whole, -append_assoc]

theorem asks_text {g : Get} {q : Option (Option Text)} {text : Text}
    (h : Asks g url (q.map (requestTo g url)) (some (some text))) :
    q = some (some text) := by
  obtain ⟨request, hrequest, hattrs, hsent⟩ := h
  obtain ⟨attrs, rfl, rfl⟩ := Option.map_eq_some_iff.mp hrequest
  have htext : attrs.getD [] = text := hattrs
  have hne : text ≠ [] := by
    have hwhole : orionldRequestSend url (urlPath g url.uriDir text) =
        urlHead g url ++ pathMark g ++ text := by
      rw [← htext] at hsent ⊢
      exact hsent
    exact ((sent_whole g url text).mp hwhole).1
  cases attrs with
  | none => exact absurd htext.symm hne
  | some attrs => exact congrArg (fun t => some (some t)) htext

@[simp] theorem asked_nil (c : Contexts) : asked c [] [] = some none := rfl

@[simp] theorem length_rewritten (c : Contexts) (count : Nat) (requested : List Text) :
    (rewritten c count requested).length = requested.length :=
  List.length_map _

theorem undisturbed_of_served {g : Get} {count : Nat} (hp : provider r = some url)
    (h : Served g requestedV r
    (orionldForwardGetEntityPart g (rewritten g.contexts count requestedV) r)) :
    Undisturbed g requestedV (rewritten g.contexts count requestedV) r := by
  have halone := h.alone
  have hasks := h.asks url hp
  rw [part_request g _ hp] at hasks halone
  rw [part_request g _ hp] at halone
  cases hspec : asked g.contexts requestedV (registered r) with
  | none =>
    rw [hspec] at hasks
    have hnow := Option.map_eq_none_iff.mp hasks
    rw [hnow] at halone
    have hthen := Option.map_eq_none_iff.mp halone.symm
    exact ⟨by rw [hthen, hspec], by rw [hnow, hthen], by simp [hnow]⟩
  | some spec =>
    cases spec with
    | none =>
      obtain ⟨rfl, hr⟩ := asked_plain hspec
      have hread := namesRead_of_registered hr
      refine ⟨?_, ?_, ?_⟩ <;> simp [hread, hr, rewritten]
    | some text =>
      rw [hspec] at hasks
      have hnow := asks_text hasks
      rw [hnow] at halone hasks
      have hthen : asked g.contexts requestedV (namesRead r) = some (some text) := by
        apply asks_text
        rw [← halone]
        exact hasks
      have hne := ((asks_requestTo g url (some text)).mp hasks text rfl).1
      exact ⟨by rw [hthen, hspec], by rw [hnow, hthen], by simp [hnow, hne]⟩

theorem served_iff (g : Get) (hfew : requestedV.length < 100) (count : Nat) (r : Registration) :
    Served g requestedV r
        (orionldForwardGetEntityPart g (rewritten g.contexts count requestedV) r) ↔
      Servable g requestedV count r := by
  have hfew' : (rewritten g.contexts count requestedV).length < 100 := by
    rwa [length_rewritten]
  cases hp : provider r with
  | none =>
    constructor
    · intro h
      have hwithin := h.within
      rw [part_refused g _ hp] at hwithin
      exact ⟨by simpa using hwithin, by simp [hp]⟩
    · intro h
      have hstored := h.stored
      refine ⟨?_, ?_, ?_⟩
      · rw [part_refused g _ hp]
        simpa using hstored
      · rw [part_refused g _ hp, part_refused g _ hp]
      · simp [hp]
  | some url =>
    have hstored : namesStored r = namesRead r := by simp [namesStored, hp]
    constructor
    · intro h
      have hu := undisturbed_of_served hp h
      obtain ⟨hnames, hport, htext, hslash⟩ := (part_within g hp hfew').mp h.within
      refine ⟨hstored ▸ hnames, ?_⟩
      rintro url' hp'
      obtain rfl := Option.some.inj (hp.symm.trans hp')
      refine ⟨⟨hport, hslash, ?_⟩, hu⟩
      intro attrs hattrs
      have hasks := h.asks url hp
      rw [part_request g _ hp, ← hu.items, ← hu.names, hattrs] at hasks
      exact ⟨htext attrs hattrs, ((asks_requestTo g url (some attrs)).mp hasks attrs rfl).2⟩
    · intro h
      obtain ⟨hroom, hu⟩ := h.reached url hp
      refine ⟨?_, ?_, ?_⟩
      · exact (part_within g hp hfew').mpr ⟨hstored ▸ h.stored, hroom.port,
          fun attrs hattrs => (hroom.text attrs hattrs).1, hroom.slash⟩
      · rw [part_request g _ hp, part_request g _ hp, hu.names]
      · rintro url' hp'
        obtain rfl := Option.some.inj (hp.symm.trans hp')
        rw [part_request g _ hp, ← hu.items, ← hu.names]
        cases hasked : asked g.contexts (rewritten g.contexts count requestedV)
            (namesRead r) with
        | none => exact rfl
        | some attrs =>
          apply (asks_requestTo g url attrs).mpr
          rintro text rfl
          have hnamed := hu.named
          rw [hasked] at hnamed
          exact ⟨fun ht => hnamed (by rw [ht]), (hroom.text text hasked).2⟩

/-! All of them. -/

theorem rewritten_again (c : Contexts) (count : Nat) (requested : List Text) :
    attrsToAlias c (rewritten c count requested) = rewritten c (count + 1) requested := by
  rw [attrsToAlias, rewritten, rewritten, map_map, Function.iterate_succ']

theorem all_served_iff (g : Get) (hfew : requestedV.length < 100) (regs : List Registration) :
    ∀ count, List.Forall₂ (Served g requestedV) regs
        (orionldForwardGetEntity g (rewritten g.contexts count requestedV) regs) ↔
      ∀ pre r post, regs = pre ++ r :: post →
        Servable g requestedV (count + pre.countP rewrites) r := by
  induction regs with
  | nil =>
    intro count
    simp [orionldForwardGetEntity]
  | cons r regs ih =>
    intro count
    rw [orionldForwardGetEntity, forall₂_cons, served_iff g hfew, part_left,
      @splits_cons _ fun pre r => Servable g requestedV (count + pre.countP rewrites) r]
    cases hr : rewrites r with
    | false =>
      rw [if_neg Bool.false_ne_true, ih]
      simp [hr]
    | true =>
      rw [if_pos rfl, rewritten_again, ih]
      simp [hr, Nat.add_assoc, Nat.add_comm 1]

def exampleGet : Get :=
  ⟨⟨[], [], "https://uri.etsi.org/ngsi-ld/default-context/".toList⟩,
    "urn:ngsi-ld:Vehicle:V1".toList, false, false⟩

def exampleRegistrations : List Registration :=
  [[⟨[], "http://all:1026/".toList⟩],
   [⟨[some "https://uri.etsi.org/ngsi-ld/default-context/speed".toList],
     "http://speed:1026/".toList⟩]]

end OrionldForwardGetEntity
