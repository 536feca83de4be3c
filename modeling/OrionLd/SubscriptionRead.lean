import OrionLd.KjTreeFromSubscription
import OrionLd.RegistrationShown

/-! What a subscription in creation takes from which member of its payload, for each of the
loops of kjTreeToSubscription, kjTreeToNotification, kjTreeToEndpoint and
kjTreeToSubscriptionExpression. -/
namespace SubscriptionRead

open KjTree OrionldContextItem KjTreeToContextAttribute KjTreeToEntIdVector KjTreeToSubscription
open RegistrationRead Fallible SameJson List Except
open KjTreeToRegistration (objectMembers timeOf)
open RegistrationDocument (stringMember)
open PcheckGeoQ
open PcheckSubscription (itemsCheck)

variable {field : String} {node : KjNode}

theorem fill_ok {α : Type} {slot slot' : Option α} {read : Except CheckError α}
    (h : fill slot field read = .ok slot') : slot = none ∧ ∃ a, read = .ok a ∧ slot' = some a := by
  obtain ⟨u, hu, h⟩ := bind_ok h
  obtain ⟨a, ha, h⟩ := bind_ok h
  exact ⟨once_ok hu, a, ha, (ok.inj h).symm⟩

variable {pre : Members} {items : List KjNode} {m : Text × KjNode} {names : List Text}
variable {s' : SubscriptionFields}

theorem Slot.read {α β : Type} {R : KjNode → α → Prop} {name : String} {slot : Option α}
    {read : Except CheckError α} {g : Option α → β} {b : β} (hslot : Slot R name slot pre)
    (hread : ∀ {a}, read = .ok a → R node a)
    (h : (fill slot field read >>= fun x => .ok (g x)) = .ok b) :
    name.toList ∉ pre.map Prod.fst ∧ ∃ a, g (some a) = b ∧
      Slot R name (some a) (pre ++ [(name.toList, node)]) := by
  obtain ⟨slot', hfill, h⟩ := bind_ok h
  obtain ⟨rfl, a, ha, rfl⟩ := fill_ok hfill
  exact ⟨hslot, a, ok.inj h, hslot.fill (hread ha)⟩

theorem arrayCheck_ok (h : arrayCheck field node = .ok items) : node = .array items := by
  cases node with
  | array items' =>
    cases h
    rfl
  | _ => cases h

theorem boolCheck_ok {b : Bool} (h : boolCheck field node = .ok b) : node = .bool b := by
  cases node with
  | bool b' =>
    cases h
    rfl
  | _ => cases h

theorem itemsCheck_filled (h : itemsCheck field node = .ok items) :
    node = .array items ∧ items ≠ [] := by
  have hnode := itemsCheck_ok h
  refine ⟨hnode, ?_⟩
  rintro rfl
  rw [hnode] at h
  cases h

def StringOf (node : KjNode) (s : Text) : Prop := node = .string s

def keyValueContent (f : KeyValueFields) : Members :=
  slotContent "key" f.key ++ slotContent "value" f.value

theorem keyValueField_content {label : String} {f f' : KeyValueFields}
    (h : keyValueField label f m = .ok f') :
    (keyValueContent f').Perm (keyValueContent f ++ [m]) := by
  obtain ⟨name, node⟩ := m
  unfold keyValueField at h
  split at h
  · rename_i hname
    obtain rfl : name = "key".toList := hname
    obtain ⟨slot, hslot, h⟩ := bind_ok h
    obtain ⟨hnone, s, hs, rfl⟩ := fill_ok hslot
    cases h
    obtain rfl : node = .string s := stringCheck_ok hs
    simp only [keyValueContent, hnone, slotContent_some, slotContent_none, nil_append]
    exact perm_append_comm
  · split at h
    · rename_i hname
      obtain rfl : name = "value".toList := hname
      obtain ⟨slot, hslot, h⟩ := bind_ok h
      obtain ⟨hnone, s, hs, rfl⟩ := fill_ok hslot
      cases h
      obtain rfl : node = .string s := stringCheck_ok hs
      simp [keyValueContent, hnone, stringMember]
    · cases h

def PairOf (node : KjNode) (pair : Text × Text) : Prop :=
  ∃ ms, node = .object ms ∧
    ms.Perm [stringMember "key" pair.1, stringMember "value" pair.2]

theorem keyValuePair_ok {what label incomplete : String} {pair : Text × Text}
    (h : keyValuePair what label incomplete node = .ok pair) : PairOf node pair := by
  obtain ⟨ms, hms, h⟩ := bind_ok h
  obtain ⟨f, hf, h⟩ := bind_ok h
  have hcontent := foldlM_collects (fun _ _ _ _ => keyValueField_content) _ _ hf
  refine ⟨ms, objectMembers_ok hms, ?_⟩
  obtain ⟨key, value⟩ := f
  cases key with
  | none => cases value <;> cases h
  | some key =>
    cases value with
    | none => cases h
    | some value =>
      cases h
      exact hcontent.symm

theorem notifierInfoCheck_short {key value : Text} {u : Unit}
    (h : notifierInfoCheck key value = .ok u) : copied key = key ∧ copied value = value := by
  have hshort : key.length ≤ 63 ∧ value.length ≤ 63 := by
    unfold notifierInfoCheck at h
    split at h
    · rename_i hkey
      split at h
      · rename_i hvalue
        subst hkey
        refine ⟨by decide, ?_⟩
        rcases hvalue with rfl | rfl <;> decide
      · cases h
    · split at h
      · rename_i hkey
        split at h
        · rename_i hvalue
          subst hkey
          refine ⟨by decide, ?_⟩
          rcases hvalue with rfl | rfl | rfl <;> decide
        · cases h
      · cases h
  exact ⟨take_of_length_le hshort.1, take_of_length_le hshort.2⟩

theorem notifierPair_ok {pair : Text × Text} (h : notifierPair node = .ok pair) :
    PairOf node pair := by
  obtain ⟨⟨key, value⟩, hpair, h⟩ := bind_ok h
  simp only at h
  split at h
  · cases h
  obtain ⟨u, hu, h⟩ := bind_ok h
  cases h
  obtain ⟨hkey, hvalue⟩ := notifierInfoCheck_short hu
  rw [hkey, hvalue]
  exact keyValuePair_ok hpair

def ReceiverOf (node : KjNode) (headers : List (Text × Text)) : Prop :=
  ∃ items pairs, node = .array items ∧ List.Forall₂ PairOf items pairs ∧
    headers = OrderedMap.assignAll pairs

def NotifierOf (node : KjNode) (pairs : List (Text × Text)) : Prop :=
  ∃ items, node = .array items ∧ List.Forall₂ PairOf items pairs

theorem receiverOf_ok {headers : List (Text × Text)}
    (h : (arrayCheck field node >>= kjTreeToReceiverInfo) = .ok headers) :
    ReceiverOf node headers := by
  obtain ⟨items, hitems, h⟩ := bind_ok h
  obtain ⟨pairs, hpairs, h⟩ := bind_ok h
  refine ⟨items, pairs, arrayCheck_ok hitems, ?_, (ok.inj h).symm⟩
  exact (mapM_forall₂ hpairs).imp fun _ _ => keyValuePair_ok

theorem notifierOf_ok {pairs : List (Text × Text)}
    (h : (arrayCheck field node >>= kjTreeToNotifierInfo) = .ok pairs) : NotifierOf node pairs := by
  obtain ⟨items, hitems, h⟩ := bind_ok h
  exact ⟨items, arrayCheck_ok hitems, (mapM_forall₂ h).imp fun _ _ => notifierPair_ok⟩

def AcceptOf (node : KjNode) (mimeType : MimeType) : Prop :=
  node = .string (mimeTypeToLongString mimeType).toList ∧ mimeType ≠ .noMimeType

theorem prefix_rest {p s : Text} (h : p.isPrefixOf s = true) : s = p ++ s.drop p.length := by
  obtain ⟨t, rfl⟩ := isPrefixOf_iff_prefix.mp h
  rw [drop_left]

theorem endpointAccept_ok {mimeType : MimeType} (h : endpointAccept node = .ok mimeType) :
    AcceptOf node mimeType := by
  obtain ⟨s, hs, hmime⟩ := bind_ok h
  obtain rfl := stringCheck_ok hs
  simp only at hmime
  split at hmime
  · rename_i hprefix
    have hrest : s = "application/".toList ++ s.drop 12 := prefix_rest hprefix
    split at hmime
    · rename_i hjson
      cases hmime
      rw [hrest, hjson]
      exact ⟨rfl, by decide⟩
    · split at hmime
      · rename_i hjsonld
        cases hmime
        rw [hrest, hjsonld]
        exact ⟨rfl, by decide⟩
      · split at hmime
        · rename_i hgeojson
          cases hmime
          rw [hrest, hgeojson]
          exact ⟨rfl, by decide⟩
        · cases hmime
  · cases hmime

theorem endpointUri_ok {uri : Text} (h : endpointUri node = .ok uri) : StringOf node uri := by
  obtain ⟨s, hs, h⟩ := bind_ok h
  have huri : s = uri := by
    split at h
    · split at h
      · exact ok.inj h
      · cases h
    split at h
    · exact ok.inj h
    · cases h
  rw [← huri]
  exact stringCheck_ok hs

structure EndpointRead (f : EndpointFields) (pre : Members) : Prop where
  names : ∀ m ∈ pre, m.1 ∈
    ["uri".toList, "accept".toList, "receiverInfo".toList, "notifierInfo".toList]
  uri : Slot StringOf "uri" f.uri pre
  accept : Slot AcceptOf "accept" f.accept pre
  receiverInfo : Slot ReceiverOf "receiverInfo" f.receiverInfo pre
  notifierInfo : Slot NotifierOf "notifierInfo" f.notifierInfo pre

theorem endpointField_read {f f' : EndpointFields} (hread : EndpointRead f pre)
    (h : endpointField f m = .ok f') : EndpointRead f' (pre ++ [m]) := by
  obtain ⟨name, node⟩ := m
  unfold endpointField at h
  split at h
  · rename_i hname
    obtain rfl : name = "uri".toList := hname
    obtain ⟨-, s, rfl, hslot⟩ := Slot.read hread.uri endpointUri_ok h
    exact ⟨names_append hread.names (by simp), hslot,
      hread.accept.other (by decide), hread.receiverInfo.other (by decide),
      hread.notifierInfo.other (by decide)⟩
  · split at h
    · rename_i hname
      obtain rfl : name = "accept".toList := hname
      obtain ⟨-, s, rfl, hslot⟩ := Slot.read hread.accept endpointAccept_ok h
      exact ⟨names_append hread.names (by simp), hread.uri.other (by decide),
        hslot, hread.receiverInfo.other (by decide),
        hread.notifierInfo.other (by decide)⟩
    · split at h
      · rename_i hname
        obtain rfl : name = "receiverInfo".toList := hname
        obtain ⟨-, s, rfl, hslot⟩ := Slot.read hread.receiverInfo receiverOf_ok h
        exact ⟨names_append hread.names (by simp), hread.uri.other (by decide),
          hread.accept.other (by decide), hslot,
          hread.notifierInfo.other (by decide)⟩
      · split at h
        · rename_i hname
          obtain rfl : name = "notifierInfo".toList := hname
          obtain ⟨-, s, rfl, hslot⟩ := Slot.read hread.notifierInfo notifierOf_ok h
          exact ⟨names_append hread.names (by simp), hread.uri.other (by decide),
            hread.accept.other (by decide), hread.receiverInfo.other (by decide),
            hslot⟩
        · cases h

def EndpointOf (node : KjNode) (h : HttpInfo) : Prop :=
  ∃ ms f, node = .object ms ∧ EndpointRead f ms ∧ f.uri = some h.url ∧
    h = ⟨h.url, f.accept.getD .json, f.receiverInfo.getD [], f.notifierInfo.getD []⟩

theorem endpointOf_ok {httpInfo : HttpInfo}
    (h : (objectMembers field node >>= kjTreeToEndpoint) = .ok httpInfo) :
    EndpointOf node httpInfo := by
  obtain ⟨ms, hms, h⟩ := bind_ok h
  obtain ⟨f, hf, h⟩ := bind_ok h
  have hstart : EndpointRead ⟨none, none, none, none⟩ [] := by
    constructor <;> simp [Slot]
  have hread := foldlM_invariant (fun _ _ _ _ => endpointField_read) ms _ [] f hstart hf
  split at h
  · cases h
  rename_i uri huri
  cases h
  exact ⟨ms, f, objectMembers_ok hms, hread, huri, rfl⟩

def NameRead (c : Contexts) (item : KjNode) (name : Text) : Prop :=
  ∃ s, item = .string s ∧ name = (orionldAttributeExpand c s).1

def StringListOf (c : Contexts) (node : KjNode) (names : List Text) : Prop :=
  ∃ items, node = .array items ∧ List.Forall₂ (NameRead c) items names

variable {c : Contexts}

theorem stringList_ok (h : kjTreeToStringList c items = .ok names) :
    List.Forall₂ (NameRead c) items names := by
  refine (mapM_forall₂ h).imp ?_
  intro item name hname
  obtain ⟨s, hs, hname⟩ := bind_ok hname
  exact ⟨s, stringCheck_ok hs, (ok.inj hname).symm⟩

theorem stringListOf_ok (h : (arrayCheck field node >>= kjTreeToStringList c) = .ok names) :
    StringListOf c node names := by
  obtain ⟨items, hitems, h⟩ := bind_ok h
  exact ⟨items, arrayCheck_ok hitems, stringList_ok h⟩

structure NotificationRead (c : Contexts) (f : NotificationFields) (pre : Members) : Prop where
  attributes : Slot (StringListOf c) "attributes" f.attributes pre
  endpoint : Slot EndpointOf "endpoint" f.endpoint pre

theorem notificationField_read {f f' : NotificationFields} (hread : NotificationRead c f pre)
    (h : notificationField c f m = .ok f') : NotificationRead c f' (pre ++ [m]) := by
  obtain ⟨name, node⟩ := m
  unfold notificationField at h
  split at h
  · rename_i hname
    obtain rfl : name = "attributes".toList := hname
    obtain ⟨-, names, rfl, hslot⟩ := Slot.read hread.attributes stringListOf_ok h
    exact ⟨hslot, hread.endpoint.other (by decide)⟩
  · rename_i hattributes
    split at h
    · rename_i hname
      obtain rfl : name = "format".toList := hname
      obtain ⟨slot, -, h⟩ := bind_ok h
      cases h
      exact ⟨hread.attributes.other hattributes, hread.endpoint.other (by decide)⟩
    · split at h
      · rename_i hname
        obtain rfl : name = "endpoint".toList := hname
        obtain ⟨-, endpoint, rfl, hslot⟩ := Slot.read hread.endpoint endpointOf_ok h
        exact ⟨hread.attributes.other hattributes, hslot⟩
      · rename_i hendpoint
        split at h
        · cases h
          exact ⟨hread.attributes.other hattributes, hread.endpoint.other hendpoint⟩
        · cases h

def NotificationOf (c : Contexts) (node : KjNode) (n : Notification) : Prop :=
  ∃ ms f, node = .object ms ∧ NotificationRead c f ms ∧ f.endpoint = some n.httpInfo ∧
    n.attributes = f.attributes.getD []

theorem notificationOf_ok {n : Notification}
    (h : (objectMembers field node >>= kjTreeToNotification c) = .ok n) :
    NotificationOf c node n := by
  obtain ⟨ms, hms, h⟩ := bind_ok h
  obtain ⟨f, hf, h⟩ := bind_ok h
  have hstart : NotificationRead c ⟨none, none, none⟩ [] := by
    constructor <;> simp [Slot]
  have hread := foldlM_invariant (fun _ _ _ _ => notificationField_read) ms _ [] f hstart hf
  refine ⟨ms, f, objectMembers_ok hms, hread, ?_⟩
  split at h
  · cases h
  rename_i httpInfo hendpoint
  simp only at h
  split at h
  · cases h
    exact ⟨hendpoint, rfl⟩
  · cases h

def geoQueryNames : List Text :=
  ["geometry".toList, "coordinates".toList, "georel".toList, "geoproperty".toList]

def CoordinatesOf (node coordinates : KjNode) : Prop :=
  node = coordinates ∧
    ((∃ s, coordinates = .string s) ∨ ∃ items, coordinates = .array items)

theorem coordinatesNode_ok {coordinates : KjNode} (h : coordinatesNode node = .ok coordinates) :
    CoordinatesOf node coordinates := by
  cases node with
  | string s =>
    cases h
    exact ⟨rfl, .inl ⟨s, rfl⟩⟩
  | array items =>
    cases h
    exact ⟨rfl, .inr ⟨items, rfl⟩⟩
  | _ => cases h

structure GeoQueryRead (f : GeoQueryFields) (pre : Members) : Prop where
  nodup : (pre.map Prod.fst).Nodup
  names : ∀ m ∈ pre, m.1 ∈ geoQueryNames
  geometry : Slot StringOf "geometry" f.geometry pre
  coordinates : Slot CoordinatesOf "coordinates" f.coordinates pre
  georel : Slot StringOf "georel" f.georel pre
  geoproperty : Slot StringOf "geoproperty" f.geoproperty pre

theorem geoQueryField_read {f f' : GeoQueryFields} (hread : GeoQueryRead f pre)
    (h : geoQueryField f m = .ok f') : GeoQueryRead f' (pre ++ [m]) := by
  obtain ⟨name, node⟩ := m
  unfold geoQueryField at h
  split at h
  · rename_i hname
    obtain rfl : name = "geometry".toList := hname
    obtain ⟨hnew, s, rfl, hslot⟩ := Slot.read hread.geometry stringCheck_ok h
    exact ⟨nodup_add hread.nodup hnew, names_append hread.names (by simp [geoQueryNames]),
      hslot, hread.coordinates.other (by decide),
      hread.georel.other (by decide), hread.geoproperty.other (by decide)⟩
  · split at h
    · rename_i hname
      obtain rfl : name = "coordinates".toList := hname
      obtain ⟨hnew, s, rfl, hslot⟩ := Slot.read hread.coordinates coordinatesNode_ok h
      exact ⟨nodup_add hread.nodup hnew, names_append hread.names (by simp [geoQueryNames]),
        hread.geometry.other (by decide), hslot,
        hread.georel.other (by decide), hread.geoproperty.other (by decide)⟩
    · split at h
      · rename_i hname
        obtain rfl : name = "georel".toList := hname
        obtain ⟨hnew, s, rfl, hslot⟩ := Slot.read hread.georel stringCheck_ok h
        exact ⟨nodup_add hread.nodup hnew, names_append hread.names (by simp [geoQueryNames]),
          hread.geometry.other (by decide), hread.coordinates.other (by decide),
          hslot, hread.geoproperty.other (by decide)⟩
      · split at h
        · rename_i hname
          obtain rfl : name = "geoproperty".toList := hname
          obtain ⟨hnew, s, rfl, hslot⟩ := Slot.read hread.geoproperty stringCheck_ok h
          exact ⟨nodup_add hread.nodup hnew, names_append hread.names (by simp [geoQueryNames]),
            hread.geometry.other (by decide), hread.coordinates.other (by decide),
            hread.georel.other (by decide), hslot⟩
        · cases h

def GeoQOf (env : PcheckSubscription.RenderEnv) (node : KjNode) (g : GeoExpression) : Prop :=
  ∃ ms f coordinates, node = .object ms ∧ GeoQueryRead f ms ∧ f.geometry = some g.geometry ∧
    f.coordinates = some coordinates ∧ f.georel = some g.georel ∧
    g.coords = coordsText env coordinates ∧ g.geoproperty = f.geoproperty.getD []

theorem geoQOf_ok {env : PcheckSubscription.RenderEnv} {g : GeoExpression}
    (h : (objectMembers field node >>= kjTreeToSubscriptionExpression env) = .ok g) :
    GeoQOf env node g := by
  obtain ⟨ms, hms, h⟩ := bind_ok h
  obtain ⟨f, hf, h⟩ := bind_ok h
  have hstart : GeoQueryRead ⟨none, none, none, none⟩ [] := by
    constructor <;> simp [Slot]
  have hread := foldlM_invariant (fun _ _ _ _ => geoQueryField_read) ms _ [] f hstart hf
  split at h
  · cases h
  · cases h
  · cases h
  rename_i geometry coordinates georel hgeometry hcoordinates hgeorel
  cases h
  exact ⟨ms, f, coordinates, objectMembers_ok hms, hread, hgeometry, hcoordinates, hgeorel,
    rfl, rfl⟩

variable {env : SubscriptionEnv}

def SubscriptionEntitiesOf (c : Contexts) (node : KjNode) (entities : List EntID) : Prop :=
  ∃ items, node = .array items ∧ items ≠ [] ∧
    List.Forall₂ (fun item e => kjTreeToEntID c item = .ok e) items entities

def WatchedOf (c : Contexts) (node : KjNode) (names : List Text) : Prop :=
  ∃ items, node = .array items ∧ items ≠ [] ∧ List.Forall₂ (NameRead c) items names

def TimeOf (env : Env) (node : KjNode) (time : ℚ) : Prop :=
  ∃ s, node = .string s ∧ time = timeOf env s ∧ time ≠ -1

def FieldRead (env : SubscriptionEnv) (s : SubscriptionFields) (pre : Members) (f : Field) :
    Prop :=
  match f with
  | .name => Slot StringOf f.text s.name pre
  | .description => Slot StringOf f.text s.description pre
  | .entities => Slot (SubscriptionEntitiesOf env.toContexts) f.text s.entities pre
  | .watchedAttributes => Slot (WatchedOf env.toContexts) f.text s.watchedAttributes pre
  | .timeInterval => f.text.toList ∉ pre.map Prod.fst
  | .q => Slot (fun node text => ∃ q, node = .string q ∧ qText env q = .ok text) f.text s.q pre
  | .geoQ => Slot (GeoQOf env.toRenderEnv) f.text s.geoQ pre
  | .csf => Slot StringOf f.text s.csf pre
  | .isActive => Slot (fun node b => node = .bool b) f.text s.isActive pre
  | .notification => Slot (NotificationOf env.toContexts) f.text s.notification pre
  | .expires => Slot (TimeOf env.toEnv) f.text s.expires pre
  | .throttling => Slot (fun node x => throttlingNumber env node = .ok x) f.text s.throttling pre

variable {s : SubscriptionFields} {f : Field}

theorem FieldRead.other {n : Text} {v : KjNode} (h : FieldRead env s pre f)
    (hn : n ≠ f.text.toList) :
    FieldRead env s (pre ++ [(n, v)]) f := by
  cases f with
  | timeInterval =>
    unfold FieldRead at h ⊢
    rw [map_append, mem_append, not_or]
    exact ⟨h, by simpa using hn.symm⟩
  | _ => exact Slot.other h hn

theorem fieldOf_text {name : Text} (h : fieldOf name = some f) : name = f.text.toList := by
  have hfound := List.find?_some (show allFields.find? _ = some f from h)
  exact (eq_of_beq hfound).symm

theorem text_fieldOf (f : Field) : fieldOf f.text.toList = some f := by
  cases f <;> rfl

theorem text_injective {g : Field} (h : f.text.toList = g.text.toList) : f = g := by
  have hf := text_fieldOf f
  rw [h, text_fieldOf g] at hf
  exact (Option.some.inj hf).symm

theorem subscriptionEntitiesOf_ok {entities : List EntID} (h : (do
    let _ ← itemsCheck field node
    kjTreeToEntIdVector c node) = .ok entities) : SubscriptionEntitiesOf c node entities := by
  obtain ⟨items, hitems, h⟩ := bind_ok h
  obtain ⟨rfl, hne⟩ := itemsCheck_filled hitems
  exact ⟨items, rfl, hne, mapM_forall₂ h⟩

theorem watchedOf_ok (h : (itemsCheck field node >>= kjTreeToStringList c) = .ok names) :
    WatchedOf c node names := by
  obtain ⟨items, hitems, hnames⟩ := bind_ok h
  obtain ⟨rfl, hne⟩ := itemsCheck_filled hitems
  exact ⟨items, rfl, hne, stringList_ok hnames⟩

theorem qOf_ok {text : Text} (h : (stringCheck field node >>= qText env) = .ok text) :
    ∃ q, node = .string q ∧ qText env q = .ok text := by
  obtain ⟨q, hq, h⟩ := bind_ok h
  exact ⟨q, stringCheck_ok hq, h⟩

theorem timeOf_ok {time : ℚ} (h : expiresTime env node = .ok time) :
    TimeOf env.toEnv node time := by
  obtain ⟨s, hs, h⟩ := bind_ok h
  split at h
  · cases h
  rename_i htime
  cases h
  exact ⟨s, stringCheck_ok hs, rfl, htime⟩

theorem subscriptionField_self (hself : FieldRead env s pre f)
    (h : subscriptionField env s f node = .ok s') :
    FieldRead env s' (pre ++ [(f.text.toList, node)]) f := by
  cases f with
  | timeInterval => cases h
  | name | description | csf =>
    obtain ⟨-, a, rfl, hslot⟩ := Slot.read hself stringCheck_ok h
    exact hslot
  | entities =>
    obtain ⟨-, a, rfl, hslot⟩ := Slot.read hself subscriptionEntitiesOf_ok h
    exact hslot
  | watchedAttributes =>
    obtain ⟨-, a, rfl, hslot⟩ := Slot.read hself watchedOf_ok h
    exact hslot
  | q =>
    obtain ⟨-, a, rfl, hslot⟩ := Slot.read hself qOf_ok h
    exact hslot
  | geoQ =>
    obtain ⟨-, a, rfl, hslot⟩ := Slot.read hself geoQOf_ok h
    exact hslot
  | isActive =>
    obtain ⟨-, a, rfl, hslot⟩ := Slot.read hself boolCheck_ok h
    exact hslot
  | notification =>
    obtain ⟨-, a, rfl, hslot⟩ := Slot.read hself notificationOf_ok h
    exact hslot
  | expires =>
    obtain ⟨-, a, rfl, hslot⟩ := Slot.read hself timeOf_ok h
    exact hslot
  | throttling =>
    obtain ⟨-, a, rfl, hslot⟩ := Slot.read hself id h
    exact hslot

theorem subscriptionField_others {g : Field} (hg : g ≠ f) (hread : FieldRead env s pre g)
    (h : subscriptionField env s f node = .ok s') : FieldRead env s' pre g := by
  cases f with
  | timeInterval => cases h
  | _ =>
    obtain ⟨slot, -, h⟩ := bind_ok h
    cases h
    cases g <;> first | exact absurd rfl hg | exact hread

theorem subscriptionField_read (hread : ∀ g, FieldRead env s pre g)
    (h : subscriptionField env s f node = .ok s') :
    ∀ g, FieldRead env s' (pre ++ [(f.text.toList, node)]) g := by
  intro g
  by_cases hg : g = f
  · rw [hg]
    exact subscriptionField_self (hread f) h
  apply (subscriptionField_others hg (hread g) h).other
  intro hname
  exact hg (text_injective hname).symm

theorem subscriptionMember_read (hread : ∀ g, FieldRead env s pre g)
    (h : subscriptionMember env s m = .ok s') : ∀ g, FieldRead env s' (pre ++ [m]) g := by
  obtain ⟨name, node⟩ := m
  unfold subscriptionMember at h
  split at h
  · rename_i f hf
    obtain rfl := fieldOf_text hf
    exact subscriptionField_read hread h
  rename_i hf
  split at h
  · cases h
    intro g
    refine (hread g).other ?_
    rintro rfl
    rw [text_fieldOf] at hf
    cases hf
  · cases h

theorem empty_read (g : Field) : FieldRead env noFields [] g := by
  cases g <;> simp [FieldRead, noFields, Slot]

structure ReadFrom (env : SubscriptionEnv) (p : Post) (s : SubscriptionFields)
    (n : Notification) : Prop where
  fields : ∀ f, FieldRead env s p.members f
  notification : s.notification = some n

theorem subscription_read {p : Post} {sub : Subscription}
    (h : kjTreeToSubscription env p = .ok sub) :
    ∃ s n, ReadFrom env p s n ∧ sub = subscriptionWith (subscriptionId p) s n := by
  obtain ⟨u, -, h⟩ := bind_ok h
  obtain ⟨u', -, h⟩ := bind_ok h
  obtain ⟨s, hs, h⟩ := bind_ok h
  have hread := foldlM_invariant (P := fun s pre => ∀ g, FieldRead env s pre g)
    (fun _ _ _ _ => subscriptionMember_read) p.members _ [] s empty_read hs
  unfold subscriptionOfFields at h
  split at h
  · cases h
  split at h
  · cases h
  · rename_i n hn
    exact ⟨s, n, ⟨hread, hn⟩, (ok.inj h).symm⟩

end SubscriptionRead
