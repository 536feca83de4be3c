import OrionLd.DocumentFields

/-! What a PATCH of a subscription does to the fields that its fragment does not determine. A
field is kept when the codec keeps it, and the type of the fragment is added to the document as
a field of its own. -/
namespace PatchSubscriptionKept

open OrionldPatchSubscription (memberToAPIv1)

open KjTree OrionldContextItem KjTreeToContextAttribute PcheckSubscription MongoCppLegacyCodec
open OrionldPatchSubscription DocumentFields Fallible List Option PcheckGeoQ

/-- What the comments on the data model say that a member determines. -/
def subscriptionTable : List (String × String) :=
  [("name", "name"), ("description", "description"), ("entities", "entities"),
    ("watchedAttributes", "conditions"), ("csf", "csf"), ("isActive", "status"),
    ("expires", "expiration"), ("throttling", "throttling"), ("temporalQ", "temporalQ"),
    ("q", "expression"), ("geoQ", "expression")]

def notificationTable : List (String × String) := [("attributes", "attrs"), ("format", "format")]

def endpointTable : List (String × String) := [("uri", "reference"), ("accept", "mimeType")]

def documented (table : List (String × String)) (name : Text) : List Text :=
  (table.filter fun entry => entry.1.toList == name).map fun entry => entry.2.toList

def endpointNames : KjNode → List Text
  | .object members => members.flatMap fun m => documented endpointTable m.1
  | _ => []

def notificationNames : KjNode → List Text
  | .object members => members.flatMap fun m =>
    documented notificationTable m.1 ++ if m.1 = "endpoint".toList then endpointNames m.2 else []
  | _ => []

def subscriptionNames (fragment : Members) : List Text :=
  fragment.flatMap fun m => documented subscriptionTable m.1 ++
    if m.1 = "notification".toList then notificationNames m.2 else []

def Has (fragment : Members) (name : String) : Prop := name.toList ∈ fragment.map Prod.fst

def subFields (name : String) (doc : Document) : Document :=
  match doc.lookup name.toList with
  | some (.object fields) => fields
  | _ => []

/-- Of the expression, q and geoQ determine one part each. -/
structure SubscriptionKept (fragment : Members) (doc doc' : Document) : Prop where
  field : ∀ k, k ≠ "modifiedAt".toList → k ∉ subscriptionNames fragment →
    doc'.lookup k = doc.lookup k
  expression : Has fragment "q" → ¬ Has fragment "geoQ" → ∀ k, k ≠ "q".toList →
    (subFields "expression" doc').lookup k = (subFields "expression" doc).lookup k
  q : Has fragment "geoQ" → ¬ Has fragment "q" →
    (subFields "expression" doc').lookup "q".toList = (subFields "expression" doc).lookup "q".toList

/-- The fields that the routine looks into have their types, and the names are distinct. -/
structure SubscriptionDocument (doc : Document) : Prop where
  distinct : (doc.map Prod.fst).Nodup
  expression : ∀ v, doc.lookup "expression".toList = some v → ∃ fields, v = .object fields
  modifiedAt : ∀ v, doc.lookup "modifiedAt".toList = some v → ∃ x, v = .double x
  expiration : ∀ fields, doc.lookup "expiration".toList ≠ some (.object fields)
  throttling : ∀ fields, doc.lookup "throttling".toList ≠ some (.object fields)

def Given (fragment : Members) (names : List String) (m : Text × KjNode) : Prop :=
  m ∈ fragment ∧ ∃ n ∈ names, m.1 = n.toList

/-- No type is given that the document lacks, and what is kept has no 64-bit integer and no null. -/
structure SubscriptionCondition (fragment : Members) (doc : Document) : Prop where
  type : ∀ m, Given fragment ["type", "@type"] m →
    doc.lookup m.1 = some (.string "Subscription".toList)
  field : ∀ k v, k ≠ "modifiedAt".toList → k ∉ subscriptionNames fragment →
    doc.lookup k = some v → Storable v
  expression : Has fragment "q" → ¬ Has fragment "geoQ" → ∀ k v, k ≠ "q".toList →
    (subFields "expression" doc).lookup k = some v → Storable v
  q : Has fragment "geoQ" → ¬ Has fragment "q" → ∀ v,
    (subFields "expression" doc).lookup "q".toList = some v → Storable v

variable {field : String} {node : KjNode} {ms : Members} {seen : List String}
variable {r : List String × (Text × KjNode)} {m : Text × KjNode} {env : RenderEnv}

theorem stringCheck_ok {s : Text} (h : stringCheck field node = .ok s) : node = .string s := by
  unfold stringCheck at h
  split at h
  · cases h
    rfl
  · cases h

variable {members : Members} {payload : KjNode} {k : Text}

theorem objectCheck_ok (h : objectCheck field node = .ok members) : node = .object members := by
  unfold objectCheck at h
  split at h
  · cases h
  · cases h
    rfl
  · cases h

theorem checkMembers_forall {check : MemberCheck} {P : Text × KjNode → Prop}
    (hcheck : ∀ seen m r, check seen m = .ok r → P r.2) {r : List String × Members}
    (h : checkMembers check seen ms = .ok r) : ∀ m ∈ r.2, P m := by
  induction ms generalizing seen r with
  | nil =>
    cases h
    exact fun m hm => absurd hm not_mem_nil
  | cons m ms ih =>
    obtain ⟨r₁, h₁, h⟩ := bind_ok h
    obtain ⟨r₂, h₂, h⟩ := bind_ok h
    cases h
    exact forall_mem_cons.mpr ⟨hcheck _ _ _ h₁, ih h₂⟩

def Plain (names : List String) (m : Text × KjNode) : Prop :=
  (∃ n ∈ names, m.1 = n.toList) ∧ m.2 ≠ .null

theorem endpointMember_plain (h : endpointMember seen m = .ok r) : Plain ["uri", "accept"] r.2 := by
  unfold endpointMember at h
  split at h
  · next hname =>
    obtain ⟨_, -, h⟩ := bind_ok h
    obtain ⟨s, hs, h⟩ := bind_ok h
    obtain ⟨_, -, h⟩ := bind_ok h
    cases h
    exact ⟨⟨"uri", by simp, hname⟩, by rw [stringCheck_ok hs]; nofun⟩
  split at h
  · next hname =>
    obtain ⟨_, -, h⟩ := bind_ok h
    obtain ⟨s, hs, h⟩ := bind_ok h
    obtain ⟨_, -, h⟩ := bind_ok h
    split at h
    · cases h
    · cases h
      exact ⟨⟨"accept", by simp, hname⟩, by rw [stringCheck_ok hs]; nofun⟩
  · cases h

def CheckedItem (m : Text × KjNode) : Prop :=
  (∃ items, m = ("attributes".toList, .array items)) ∨
  (∃ s, m = ("format".toList, .string s)) ∨
  ∃ members, m = ("endpoint".toList, .object members) ∧ ∀ e ∈ members, Plain ["uri", "accept"] e

theorem notificationMember_checked {c : Contexts} (h : notificationMember c seen m = .ok r) :
    CheckedItem r.2 := by
  unfold notificationMember at h
  split at h
  · next hname =>
    obtain ⟨_, -, h⟩ := bind_ok h
    obtain ⟨_, -, h⟩ := bind_ok h
    obtain ⟨items, -, h⟩ := bind_ok h
    cases h
    exact .inl ⟨items, Prod.ext hname rfl⟩
  split at h
  · next hname =>
    obtain ⟨_, -, h⟩ := bind_ok h
    obtain ⟨s, hs, h⟩ := bind_ok h
    obtain ⟨_, -, h⟩ := bind_ok h
    split at h
    · cases h
    · cases h
      exact .inr (.inl ⟨s, Prod.ext hname (stringCheck_ok hs)⟩)
  split at h
  · next hname =>
    obtain ⟨_, -, h⟩ := bind_ok h
    obtain ⟨_, -, h⟩ := bind_ok h
    obtain ⟨members, hmembers, h⟩ := bind_ok h
    cases h
    obtain ⟨q, hq, hmembers⟩ := bind_ok hmembers
    dsimp only at hmembers
    split at hmembers
    · cases hmembers
    cases hmembers
    exact .inr (.inr ⟨q.2, Prod.ext hname rfl,
      checkMembers_forall (fun _ _ _ => endpointMember_plain) hq⟩)
  split at h
  · cases h
  · cases h

theorem pcheckNotification_checked {c : Contexts} {node' : KjNode}
    (h : pcheckNotification c node = .ok node') :
    ∃ items, node' = .object items ∧ ∀ i ∈ items, CheckedItem i := by
  obtain ⟨members, -, h⟩ := bind_ok h
  obtain ⟨r, hr, h⟩ := bind_ok h
  dsimp only at h
  split at h
  · cases h
  · cases h
    exact ⟨r.2, rfl, checkMembers_forall (fun _ _ _ => notificationMember_checked) hr⟩

def geoQNames : List String := ["geometry", "coordinates", "georel", "geoproperty"]

theorem geoQMember_name {f f' : GeoQFields} (h : geoQMember f m = .ok f') :
    ∃ n ∈ geoQNames, m.1 = n.toList := by
  unfold geoQMember at h
  split at h
  · next hname => exact ⟨"geometry", by decide, hname⟩
  split at h
  · next hname => exact ⟨"coordinates", by decide, hname⟩
  split at h
  · next hname => exact ⟨"georel", by decide, hname⟩
  split at h
  · next hname => exact ⟨"geoproperty", by decide, hname⟩
  · cases h

theorem geoQ_names {f f' : GeoQFields} (h : ms.foldlM geoQMember f = .ok f') :
    ∀ m ∈ ms, ∃ n ∈ geoQNames, m.1 = n.toList := by
  induction ms generalizing f with
  | nil => exact fun m hm => absurd hm not_mem_nil
  | cons m ms ih =>
    obtain ⟨f₁, h₁, h⟩ := bind_ok h
    exact forall_mem_cons.mpr ⟨geoQMember_name h₁, ih h⟩

theorem pcheckGeoQ_no_q {ms' : Members} (h : pcheckGeoQ env ms = .ok ms') :
    "q".toList ∉ ms'.map Prod.fst := by
  obtain ⟨g, hg, h⟩ := bind_ok h
  cases h
  obtain ⟨f, hf, -⟩ := bind_ok hg
  rw [List.mem_map]
  rintro ⟨m', hm', hname⟩
  obtain ⟨m, hm, rfl⟩ := List.mem_map.mp hm'
  obtain ⟨n, hn, hmn⟩ := geoQ_names hf m hm
  have hq : n ≠ "q" := by
    intro hq
    rw [hq] at hn
    revert hn
    decide
  unfold geoQTree at hname
  split at hname
  · exact toList_ne (by decide) hname
  split at hname
  · exact toList_ne hq (hmn.symm.trans hname)
  · exact toList_ne hq (hmn.symm.trans hname)

def plainNames : List String :=
  ["name", "description", "entities", "watchedAttributes", "timeInterval", "q", "csf", "isActive",
    "expires", "throttling", "temporalQ"]

def CheckedMember (m : Text × KjNode) : Prop :=
  (∃ n ∈ ["type", "@type"], m = (n.toList, .string "Subscription".toList)) ∨
  (∃ g, m = ("geoQ".toList, .object g) ∧ "q".toList ∉ g.map Prod.fst) ∨
  (∃ items, m = ("notification".toList, .object items)) ∨
  Plain plainNames m

theorem checked_plain {n : String} (hn : n ∈ plainNames) (hm : m.1 = n.toList)
    (hnull : m.2 ≠ .null) :
    CheckedMember m :=
  .inr (.inr (.inr ⟨⟨n, hn, hm⟩, hnull⟩))

theorem boolCheck_ok (h : boolCheck field node = .ok ()) : node ≠ .null := by
  rintro rfl
  cases h

theorem integerCheck_ok (h : integerCheck field node = .ok ()) : node ≠ .null := by
  rintro rfl
  cases h

theorem numberCheck_ok (h : numberCheck field node = .ok ()) : node ≠ .null := by
  rintro rfl
  cases h

theorem typeField_ok {s : Text} (hname : m.1 = "type".toList ∨ m.1 = "@type".toList)
    (hs : m.2 = .string s) : ∃ n ∈ ["type", "@type"], m = (n.toList, .string s) := by
  rcases hname with hname | hname
  · exact ⟨"type", by simp, Prod.ext hname hs⟩
  · exact ⟨"@type", by simp, Prod.ext hname hs⟩

theorem subscriptionMember_checked (h : subscriptionMember env false seen m = .ok r) :
    CheckedMember r.2 := by
  unfold subscriptionMember at h
  rcases ite_ok h with ⟨hid, h⟩ | ⟨-, h⟩
  · rw [if_neg Bool.false_ne_true] at h
    cases h
  rcases ite_ok h with ⟨htype, h⟩ | ⟨-, h⟩
  · obtain ⟨_, -, h⟩ := bind_ok h
    obtain ⟨s, hs, h⟩ := bind_ok h
    split at h
    · cases h
    rename_i hvalue
    cases h
    have hs' := stringCheck_ok hs
    rw [not_not.mp hvalue] at hs'
    exact .inl (typeField_ok htype hs')
  rcases ite_ok h with ⟨hname, h⟩ | ⟨-, h⟩
  · obtain ⟨_, -, h⟩ := bind_ok h
    obtain ⟨s, hs, h⟩ := bind_ok h
    obtain ⟨_, -, h⟩ := bind_ok h
    cases h
    exact checked_plain (by decide) hname (by rw [stringCheck_ok hs]; nofun)
  rcases ite_ok h with ⟨hdescription, h⟩ | ⟨-, h⟩
  · obtain ⟨_, -, h⟩ := bind_ok h
    obtain ⟨s, hs, h⟩ := bind_ok h
    cases h
    exact checked_plain (by decide) hdescription (by rw [stringCheck_ok hs]; nofun)
  rcases ite_ok h with ⟨hentities, h⟩ | ⟨-, h⟩
  · obtain ⟨_, -, h⟩ := bind_ok h
    obtain ⟨_, -, h⟩ := bind_ok h
    obtain ⟨_, -, h⟩ := bind_ok h
    cases h
    exact checked_plain (by decide) hentities nofun
  rcases ite_ok h with ⟨hwatchedAttributes, h⟩ | ⟨-, h⟩
  · obtain ⟨_, -, h⟩ := bind_ok h
    obtain ⟨_, -, h⟩ := bind_ok h
    obtain ⟨_, -, h⟩ := bind_ok h
    cases h
    exact checked_plain (by decide) hwatchedAttributes nofun
  rcases ite_ok h with ⟨htimeInterval, h⟩ | ⟨-, h⟩
  · obtain ⟨_, -, h⟩ := bind_ok h
    obtain ⟨_, hnode, h⟩ := bind_ok h
    cases h
    exact checked_plain (by decide) htimeInterval (integerCheck_ok hnode)
  rcases ite_ok h with ⟨hq, h⟩ | ⟨-, h⟩
  · obtain ⟨_, -, h⟩ := bind_ok h
    obtain ⟨_, -, h⟩ := bind_ok h
    obtain ⟨_, -, h⟩ := bind_ok h
    obtain ⟨_, -, h⟩ := bind_ok h
    cases h
    exact checked_plain (by decide) hq nofun
  rcases ite_ok h with ⟨hgeoQ, h⟩ | ⟨-, h⟩
  · obtain ⟨_, -, h⟩ := bind_ok h
    obtain ⟨_, -, h⟩ := bind_ok h
    obtain ⟨g, hg, h⟩ := bind_ok h
    cases h
    exact .inr (.inl ⟨g, Prod.ext hgeoQ rfl, pcheckGeoQ_no_q hg⟩)
  rcases ite_ok h with ⟨hcsf, h⟩ | ⟨-, h⟩
  · obtain ⟨_, -, h⟩ := bind_ok h
    obtain ⟨s, hs, h⟩ := bind_ok h
    obtain ⟨_, -, h⟩ := bind_ok h
    cases h
    exact checked_plain (by decide) hcsf (by rw [stringCheck_ok hs]; nofun)
  rcases ite_ok h with ⟨hisActive, h⟩ | ⟨-, h⟩
  · obtain ⟨_, -, h⟩ := bind_ok h
    obtain ⟨_, hnode, h⟩ := bind_ok h
    cases h
    exact checked_plain (by decide) hisActive (boolCheck_ok hnode)
  rcases ite_ok h with ⟨hnotification, h⟩ | ⟨-, h⟩
  · obtain ⟨_, -, h⟩ := bind_ok h
    obtain ⟨items, hitems, h⟩ := bind_ok h
    cases h
    exact .inr (.inr (.inl ⟨items, Prod.ext hnotification (objectCheck_ok hitems)⟩))
  rcases ite_ok h with ⟨hexpires, h⟩ | ⟨-, h⟩
  · obtain ⟨_, -, h⟩ := bind_ok h
    obtain ⟨s, hs, h⟩ := bind_ok h
    obtain ⟨_, -, h⟩ := bind_ok h
    obtain ⟨_, -, h⟩ := bind_ok h
    cases h
    exact checked_plain (by decide) hexpires (by rw [stringCheck_ok hs]; nofun)
  rcases ite_ok h with ⟨hthrottling, h⟩ | ⟨-, h⟩
  · obtain ⟨_, -, h⟩ := bind_ok h
    obtain ⟨_, hnode, h⟩ := bind_ok h
    cases h
    exact checked_plain (by decide) hthrottling (numberCheck_ok hnode)
  rcases ite_ok h with ⟨htemporalQ, h⟩ | ⟨-, h⟩
  · obtain ⟨_, -, h⟩ := bind_ok h
    obtain ⟨_, hnode, h⟩ := bind_ok h
    cases h
    exact checked_plain (by decide) htemporalQ (by rw [objectCheck_ok hnode]; nofun)
  rcases ite_ok h with ⟨hstatus, h⟩ | ⟨-, h⟩
  · cases h
  cases h

/-- The members of a fragment that has passed the check. -/
structure CheckedSubscription (fragment : Members) : Prop where
  members : ∀ m ∈ fragment, CheckedMember m
  notification : ∀ node, fragment.lookup "notification".toList = some node →
    ∃ items, node = .object items ∧ ∀ i ∈ items, CheckedItem i

theorem notificationChecks_checked {ms' : Members} (hms : ∀ m ∈ ms, CheckedMember m)
    (h : notificationChecks env ms = .ok ms') : CheckedSubscription ms' := by
  induction ms generalizing ms' with
  | nil =>
    cases h
    exact ⟨hms, fun node hnode => by cases hnode⟩
  | cons m ms ih =>
    obtain ⟨hm, hms⟩ := forall_mem_cons.mp hms
    rw [notificationChecks] at h
    split at h
    · next hname =>
      obtain ⟨node, hnode, h⟩ := bind_ok h
      cases h
      obtain ⟨items, rfl, hitems⟩ := pcheckNotification_checked hnode
      have hself : CheckedMember (m.1, .object items) :=
        .inr (.inr (.inl ⟨items, Prod.ext hname rfl⟩))
      refine ⟨forall_mem_cons.mpr ⟨hself, hms⟩, fun node hlookup => ?_⟩
      rw [lookup_cons, hname, beq_self_eq_true] at hlookup
      cases hlookup
      exact ⟨items, rfl, hitems⟩
    · next hname =>
      obtain ⟨rest, hrest, h⟩ := bind_ok h
      cases h
      obtain ⟨hmembers, hnotification⟩ := ih hms hrest
      refine ⟨forall_mem_cons.mpr ⟨hm, hmembers⟩, fun node hlookup => ?_⟩
      rw [lookup_cons, beq_false_of_ne (Ne.symm hname)] at hlookup
      exact hnotification node hlookup

theorem pcheckSubscription_checked {fragment : Members}
    (h : pcheckSubscription env false payload = .ok fragment) : CheckedSubscription fragment := by
  cases payload with
  | object members =>
    obtain ⟨r, hr, h⟩ := bind_ok h
    exact notificationChecks_checked
      (checkMembers_forall (fun _ _ _ => subscriptionMember_checked) hr) h
  | _ => cases h

variable {fragment : Members}

def apiName (name : Text) : Text :=
  if name = "watchedAttributes".toList then "conditions".toList
  else if name = "isActive".toList then "status".toList
  else if name = "expires".toList then "expiration".toList
  else name

theorem memberToAPIv1_name (m : Text × KjNode) :
    (memberToAPIv1 env m).1 = apiName m.1 := by
  unfold memberToAPIv1 apiName
  split
  · next htype =>
    rcases htype with h | h
    · rw [h]
      rfl
    · rw [h]
      rfl
  by_cases hentities : m.1 = "entities".toList
  · rw [if_pos hentities, hentities]
    rfl
  rw [if_neg hentities]
  by_cases hwatched : m.1 = "watchedAttributes".toList
  · rw [if_pos hwatched, if_pos hwatched]
  rw [if_neg hwatched, if_neg hwatched]
  by_cases hactive : m.1 = "isActive".toList
  · rw [if_pos hactive, if_pos hactive]
  rw [if_neg hactive, if_neg hactive]
  by_cases hexpires : m.1 = "expires".toList
  · rw [if_pos hexpires, if_pos hexpires]
  · rw [if_neg hexpires, if_neg hexpires]

theorem memberToAPIv1_ne (h : m.2 ≠ .null) :
    (memberToAPIv1 env m).2 ≠ .null := by
  unfold memberToAPIv1 entitiesToAPIv1 statusNode expirationNode
  split_ifs
  all_goals first
    | exact h
    | split
      · nofun
      · exact h

structure TopMember (names : List Text) (m : Text × KjNode) : Prop where
  notNull : m.2 ≠ .null
  target : m.1 ∈ names
  fixed : m.1 ∉ ["type", "@type", "expression", "modifiedAt"].map String.toList

theorem has_of_lookup {α : Type} {l : List (Text × α)} {a : α} (h : l.lookup k = some a) :
    (k, a) ∈ l := by
  obtain ⟨l₁, l₂, hl, -⟩ := lookup_eq_some_iff.mp h
  rw [hl]
  exact mem_append_right l₁ mem_cons_self

theorem apiName_documented : ∀ n ∈ plainNames, n ≠ "q" → n ≠ "timeInterval" →
    apiName n.toList ∈ documented subscriptionTable n.toList ∧
      apiName n.toList ∉ ["type", "@type", "expression", "modifiedAt"].map String.toList := by
  decide

theorem notification_documented : ∀ n ∈ ["attrs", "format", "reference", "mimeType"],
    n.toList ∉ ["type", "@type", "expression", "modifiedAt"].map String.toList := by
  decide

theorem attrs_documented : "attrs".toList ∈ documented notificationTable "attributes".toList := by
  decide

theorem format_documented : "format".toList ∈ documented notificationTable "format".toList := by
  decide

theorem endpoint_top (h : ∀ e ∈ members, Plain ["uri", "accept"] e) :
    ∀ m ∈ endpointToAPIv1 (.object members), TopMember (endpointNames (.object members)) m := by
  have hentry {k t : String} (hdoc : t.toList ∈ documented endpointTable k.toList)
      (ht : t ∈ ["attrs", "format", "reference", "mimeType"]) {m : Text × KjNode}
      (hm : m ∈ ((members.lookup k.toList).map fun node => (t.toList, node)).toList) :
      TopMember (endpointNames (.object members)) m := by
    obtain ⟨node, hnode, rfl⟩ := map_eq_some_iff.mp (mem_toList.mp hm)
    have hmem := has_of_lookup hnode
    exact ⟨(h _ hmem).2, mem_flatMap.mpr ⟨_, hmem, hdoc⟩, notification_documented t ht⟩
  intro m hm
  rcases mem_append.mp hm with hm | hm
  · exact hentry (k := "uri") (t := "reference") (by decide) (by decide) hm
  · exact hentry (k := "accept") (t := "mimeType") (by decide) (by decide) hm

theorem TopMember.mono {names names' : List Text} (h : TopMember names m) (hsub : names ⊆ names') :
    TopMember names' m := ⟨h.notNull, hsub h.target, h.fixed⟩

theorem notificationItem_endpoint {i : Text × KjNode} (h : i.1 = "endpoint".toList) :
    notificationItemToAPIv1 i = endpointToAPIv1 i.2 := by
  rw [notificationItemToAPIv1, if_neg (h ▸ toList_ne (by decide)),
    if_neg (h ▸ toList_ne (by decide)), if_pos h]

theorem notification_top {items : Members} (h : ∀ i ∈ items, CheckedItem i) :
    ∀ m ∈ notificationToAPIv1 (some (.object items)),
      TopMember (notificationNames (.object items)) m := by
  intro m hm
  obtain ⟨i, hi, hm⟩ := mem_flatMap.mp hm
  have hsub : (documented notificationTable i.1 ++
      if i.1 = "endpoint".toList then endpointNames i.2 else []) ⊆
        notificationNames (.object items) :=
    fun n hn => mem_flatMap.mpr ⟨i, hi, hn⟩
  rcases h i hi with ⟨list, rfl⟩ | ⟨s, rfl⟩ | ⟨members, hname, hmembers⟩
  · obtain rfl := mem_singleton.mp hm
    exact ⟨nofun, hsub (mem_append_left _ attrs_documented),
      notification_documented "attrs" (by decide)⟩
  · obtain rfl := mem_singleton.mp hm
    exact ⟨nofun, hsub (mem_append_left _ format_documented),
      notification_documented "format" (by decide)⟩
  have hkey : i.1 = "endpoint".toList := by rw [hname]
  have hnode : i.2 = .object members := by rw [hname]
  rw [notificationItem_endpoint hkey, hnode] at hm
  rw [if_pos hkey, hnode] at hsub
  exact (endpoint_top hmembers m hm).mono fun n hn => hsub (mem_append_right _ hn)

def TypeMember (fragment : Members) (value : String) (m : Text × KjNode) : Prop :=
  Given fragment ["type", "@type"] m ∧ m.2 = .string value.toList

theorem datamodel_members (env : RenderEnv) (hc : CheckedSubscription fragment)
    (hinterval : ¬ Has fragment "timeInterval") :
    ∀ m ∈ ngsildSubscriptionToAPIv1Datamodel env fragment,
      TopMember (subscriptionNames fragment) m ∨ TypeMember fragment "Subscription" m := by
  intro m hm
  have hsub {m₀ : Text × KjNode} (hm₀ : m₀ ∈ fragment) : (documented subscriptionTable m₀.1 ++
      if m₀.1 = "notification".toList then notificationNames m₀.2 else []) ⊆
        subscriptionNames fragment :=
    fun n hn => mem_flatMap.mpr ⟨m₀, hm₀, hn⟩
  rcases mem_append.mp hm with hm | hm
  · obtain ⟨m₀, hm₀, rfl⟩ := mem_map.mp hm
    obtain ⟨hmem, hmoved⟩ := mem_filter.mp hm₀
    have hne {n : String} (hn : n ∈ movedNames) : m₀.1 ≠ n.toList := by
      intro h
      rw [Bool.not_eq_true', List.any_eq_false] at hmoved
      exact hmoved n hn (beq_iff_eq.mpr h.symm)
    rcases hc.members m₀ hmem with
      ⟨n, hn, rfl⟩ | ⟨g, rfl, -⟩ | ⟨items, rfl⟩ | ⟨⟨n, hn, hname⟩, hnull⟩
    · rcases mem_pair.mp hn with rfl | rfl
      · exact .inr ⟨⟨hmem, "type", by simp, rfl⟩, rfl⟩
      · exact .inr ⟨⟨hmem, "@type", by simp, rfl⟩, rfl⟩
    · exact absurd rfl (hne (n := "geoQ") (by decide))
    · exact absurd rfl (hne (n := "notification") (by decide))
    · have hq : n ≠ "q" := fun h => hne (n := "q") (by decide) (h ▸ hname)
      have hti : n ≠ "timeInterval" := by
        intro h
        exact hinterval (mem_map.mpr ⟨m₀, hmem, h ▸ hname⟩)
      obtain ⟨hdoc, hfixed⟩ := apiName_documented n hn hq hti
      refine .inl ⟨memberToAPIv1_ne hnull, ?_, ?_⟩
      · rw [memberToAPIv1_name, hname]
        refine hsub hmem (mem_append_left _ ?_)
        rw [hname]
        exact hdoc
      · rw [memberToAPIv1_name, hname]
        exact hfixed
  · cases hlookup : fragment.lookup "notification".toList with
    | none =>
      rw [hlookup] at hm
      cases hm
    | some node =>
      obtain ⟨items, rfl, hitems⟩ := hc.notification node hlookup
      rw [hlookup] at hm
      have hmem := has_of_lookup hlookup
      obtain ⟨m₀, hm₀, hkey, hnode⟩ : ∃ m₀ ∈ fragment, m₀.1 = "notification".toList ∧
          m₀.2 = .object items := ⟨_, hmem, rfl, rfl⟩
      have hsub' := hsub hm₀
      rw [if_pos hkey, hnode] at hsub'
      exact .inl ((notification_top hitems m hm).mono fun n hn => hsub' (mem_append_right _ hn))

theorem type_in_datamodel (h : Given fragment ["type", "@type"] m) :
    m ∈ ngsildSubscriptionToAPIv1Datamodel env fragment := by
  obtain ⟨hmem, n, hn, hname⟩ := h
  refine mem_append_left _ (mem_map.mpr ⟨m, mem_filter.mpr ⟨hmem, ?_⟩, ?_⟩)
  · rw [hname]
    rcases mem_pair.mp hn with rfl | rfl
    · rfl
    · rfl
  · rw [memberToAPIv1, if_pos]
    rcases mem_pair.mp hn with rfl | rfl
    · exact .inl hname
    · exact .inr hname

variable {strtold : Text → ℚ} {overwritten : KjNode → Except CheckError KjNode}

def addFragments (db fragments : Members) : Members :=
  fragments.foldl (fun db m => kjChildAddOrReplace db m.1 m.2) db

theorem patchMember_ok {db : Members} (h : m.2 ≠ .null) :
    patchMember db m = .ok (kjChildAddOrReplace db m.1 m.2) := by
  unfold patchMember
  split
  · next hnull => exact absurd hnull h
  · rfl

variable {fragments : Members}

theorem foldlM_patchMember (h : ∀ m ∈ fragments, m.2 ≠ .null) (db : Members) :
    fragments.foldlM patchMember db = .ok (addFragments db fragments) := by
  induction fragments generalizing db with
  | nil => rfl
  | cons m ms ih =>
    obtain ⟨hm, hms⟩ := forall_mem_cons.mp h
    rw [foldlM_cons, patchMember_ok hm]
    exact ih hms _

theorem named_addFragments (h : k ∉ fragments.map Prod.fst) (db : Members) :
    named k (addFragments db fragments) = named k db := by
  induction fragments generalizing db with
  | nil => rfl
  | cons m ms ih =>
    rw [map_cons, mem_cons, not_or] at h
    exact (ih h.2 _).trans (named_addOrReplace_ne (Ne.symm h.1) db m.2)

theorem valueOf_addFragments {v : BsonValue}
    (hv : ∀ m ∈ fragments, m.1 = k → kjTreeToBson m.2 = some v) {db : Members}
    (h : valueOf k db = some v ∨ k ∈ fragments.map Prod.fst) :
    valueOf k (addFragments db fragments) = some v := by
  induction fragments generalizing db with
  | nil => exact h.resolve_right not_mem_nil
  | cons m ms ih =>
    obtain ⟨hm, hms⟩ := forall_mem_cons.mp hv
    refine ih hms ?_
    by_cases hk : m.1 = k
    · left
      subst hk
      exact valueOf_addOrReplace (hm rfl)
    rcases h with h | h
    · left
      rw [valueOf_congr (named_addOrReplace_ne hk db m.2), h]
    · right
      exact (mem_cons.mp h).resolve_left (Ne.symm hk)

theorem modifiedAtSet_ok (time : ℚ) (overwritten : KjNode → Except CheckError KjNode)
    (ms : Members) (h : ∀ node, ms.lookup "modifiedAt".toList = some node → ∃ x, node = .float x) :
    ∃ ms', modifiedAtSet time overwritten ms = .ok ms' ∧
      ∀ k, k ≠ "modifiedAt".toList → named k ms' = named k ms := by
  induction ms with
  | nil => exact ⟨_, rfl, fun k hk => named_cons_ne (Ne.symm hk) []⟩
  | cons m ms ih =>
    rw [modifiedAtSet]
    rw [lookup_cons] at h
    by_cases hm : m.1 = "modifiedAt".toList
    · rw [hm, beq_self_eq_true] at h
      obtain ⟨x, hx⟩ := h m.2 rfl
      rw [if_pos hm, hx]
      refine ⟨_, rfl, fun k hk => ?_⟩
      rw [named_cons_ne (hm ▸ Ne.symm hk), named_cons_ne (hm ▸ Ne.symm hk)]
    · rw [beq_false_of_ne (Ne.symm hm)] at h
      obtain ⟨ms', hms', hnamed⟩ := ih h
      rw [if_neg hm, hms']
      refine ⟨_, rfl, fun k hk => ?_⟩
      by_cases hk' : m.1 = k
      · rw [named_cons_eq hk', named_cons_eq hk', hnamed k hk]
      · rw [named_cons_ne hk', named_cons_ne hk', hnamed k hk]

theorem fixMember_id {name : Text} (h : ∀ m ∈ ms, m.1 = name → ∀ members, m.2 ≠ .object members) :
    fixMember strtold name ms = .ok ms := by
  induction ms with
  | nil => rfl
  | cons m ms ih =>
    obtain ⟨hm, hms⟩ := forall_mem_cons.mp h
    rw [fixMember]
    by_cases hname : m.1 = name
    · have hfix : numberLongFix strtold m.2 = .ok m.2 := by
        unfold numberLongFix
        split
        · next hnode => exact absurd hnode (hm hname _)
        · next hnode => exact absurd hnode (hm hname _)
        · rfl
      rw [if_pos hname, hfix]
      rfl
    · rw [if_neg hname, ih hms]
      rfl

theorem decoded_object {v : BsonValue} (h : bsonToKjTree v = some (.object members)) :
    ∃ fields, v = .object fields ∧ members = objectToKjTree fields := by
  cases v with
  | object fields =>
    cases h
    exact ⟨fields, rfl, rfl⟩
  | _ => cases h

theorem fixDbSubscription_id {doc : Document} (hdoc : SubscriptionDocument doc) :
    fixDbSubscription strtold (objectToKjTree doc) = .ok (objectToKjTree doc) := by
  have hmember {name : Text} (hname : ∀ fields, doc.lookup name ≠ some (.object fields)) :
      ∀ m ∈ objectToKjTree doc, m.1 = name → ∀ members, m.2 ≠ .object members := by
    intro m hm hmname members hnode
    obtain ⟨v, hv, hdecoded⟩ := mem_decoded hm
    rw [hnode] at hdecoded
    obtain ⟨fields, rfl, -⟩ := decoded_object hdecoded
    rw [hmname] at hv
    exact hname fields (FieldList.lookup_of_mem hdoc.distinct hv)
  rw [fixDbSubscription, fixMember_id (hmember hdoc.expiration), ok_bind]
  exact fixMember_id (hmember hdoc.throttling)

def expressionOf (db : Members) : Members :=
  match db.lookup "expression".toList with
  | some (.object members) => members
  | _ => []

theorem patchExpression_ok (db : Members) (q geoQ : Option KjNode)
    (hobject : ∀ node, db.lookup "expression".toList = some node → ∃ ms, node = .object ms)
    (honce : (named "expression".toList db).tail = [])
    (hgeoQ : ∀ node, geoQ = some node → ∃ g, node = .object g) :
    ∃ db', patchExpression db q geoQ = .ok db' ∧
      (∀ k, k ≠ "expression".toList → named k db' = named k db) ∧
      (q = none → geoQ = none → db' = db) ∧
      (∀ node, q = some node → geoQ = none → valueOf "expression".toList db' = some (.object
        (kjTreeToBsonObject (kjChildAddOrReplace (expressionOf db) "q".toList node)))) ∧
      ∀ g, q = none → geoQ = some (.object g) → valueOf "expression".toList db' = some (.object
        (kjTreeToBsonObject (g ++ (((expressionOf db).lookup "q".toList).map
          fun q => ("q".toList, q)).toList))) := by
  have hremoved : named "expression".toList (kjChildRemove db "expression".toList) = [] := by
    rw [named_remove, honce]
  have hframe (ms : Members) (k : Text) (hk : k ≠ "expression".toList) : named k
      (kjChildRemove db "expression".toList ++ [("expression".toList, .object ms)]) =
        named k db := by
    rw [named_append, named_remove_ne (Ne.symm hk), named_cons_ne (Ne.symm hk)]
    exact append_nil _
  cases geoQ with
  | none =>
    cases q with
    | none => exact ⟨db, rfl, fun _ _ => rfl, fun _ _ => rfl, nofun, nofun⟩
    | some node =>
      cases hlookup : db.lookup "expression".toList with
      | none =>
        refine ⟨db ++ [("expression".toList, .object [("q".toList, node)])],
          by unfold patchExpression; rw [hlookup], fun k hk => ?_, nofun, ?_, nofun⟩
        · rw [named_append, named_cons_ne (Ne.symm hk)]
          exact append_nil _
        · intro node' hnode' _
          cases hnode'
          rw [expressionOf, hlookup]
          exact valueOf_append_single (named_nil_of_lookup hlookup) rfl
      | some old =>
        obtain ⟨ms, rfl⟩ := hobject old hlookup
        refine ⟨kjChildAddOrReplace db "expression".toList
            (.object (kjChildAddOrReplace ms "q".toList node)),
          by unfold patchExpression; rw [hlookup]; rfl,
          fun k hk => named_addOrReplace_ne (Ne.symm hk) _ _, nofun, ?_, nofun⟩
        intro node' hnode' _
        cases hnode'
        rw [expressionOf, hlookup]
        exact valueOf_addOrReplace rfl
  | some geo =>
    obtain ⟨g, rfl⟩ := hgeoQ geo rfl
    cases q with
    | some node => exact ⟨_, rfl, hframe _, nofun, nofun, nofun⟩
    | none =>
      cases hlookup : db.lookup "expression".toList with
      | none =>
        refine ⟨db ++ [("expression".toList, .object g)],
          by unfold patchExpression; rw [hlookup], fun k hk => ?_, nofun, nofun, ?_⟩
        · rw [named_append, named_cons_ne (Ne.symm hk)]
          exact append_nil _
        · intro g' _ hg'
          cases hg'
          rw [expressionOf, hlookup, lookup_nil, map_none, toList_none, append_nil]
          exact valueOf_append_single (named_nil_of_lookup hlookup) rfl
      | some old =>
        obtain ⟨ms, rfl⟩ := hobject old hlookup
        refine ⟨kjChildRemove db "expression".toList ++ [("expression".toList, .object (g ++
            ((ms.lookup "q".toList).map fun q => ("q".toList, q)).toList))],
          by unfold patchExpression; rw [hlookup]; rfl, hframe _, nofun, nofun, ?_⟩
        intro g' _ hg'
        cases hg'
        rw [expressionOf, hlookup]
        exact valueOf_append_single hremoved rfl

variable {doc : Document}

theorem lookup_decoded_iff (k : Text) (fields : Document) :
    ((objectToKjTree fields).lookup k).bind kjTreeToBson = fields.lookup k ↔
      ∀ v, fields.lookup k = some v → Storable v := by
  induction fields with
  | nil => simp [objectToKjTree]
  | cons f fields ih =>
    obtain ⟨name, v⟩ := f
    rw [lookup_cons]
    by_cases hk : k = name
    · subst hk
      rw [beq_self_eq_true]
      simp only [some.injEq, forall_eq', ← written_iff]
      cases hnode : bsonToKjTree v with
      | some node =>
        rw [lookup_decoded (v := v) (by rw [lookup_cons, beq_self_eq_true]) hnode, written,
          hnode]
      | none =>
        have hwritten : written v = none := by rw [written, hnode, bind_none]
        constructor
        · intro h
          obtain ⟨node, -, hv⟩ := bind_eq_some_iff.mp h
          rcases written_none hwritten with rfl | ⟨i, rfl⟩
          · exact absurd rfl (kjTreeToBson_ne hv).1
          · exact absurd rfl ((kjTreeToBson_ne hv).2 i)
        · intro h
          rw [hwritten] at h
          cases h
    · rw [beq_false_of_ne hk, ← ih]
      have hrest : (objectToKjTree ((name, v) :: fields)).lookup k =
          (objectToKjTree fields).lookup k := by
        rw [objectToKjTree]
        cases bsonToKjTree v with
        | none => rfl
        | some node =>
          rw [map_some, toList_some, singleton_append, lookup_cons, beq_false_of_ne hk]
      rw [hrest]

variable {name : String} {db : Members} {n : Text}

theorem subFields_of_lookup {fields : Document}
    (h : doc.lookup name.toList = some (.object fields)) :
    subFields name doc = fields := by
  rw [subFields, h]

theorem expressionOf_decoded (hdoc : SubscriptionDocument doc)
    (h : db.lookup "expression".toList = (objectToKjTree doc).lookup "expression".toList) :
    expressionOf db = objectToKjTree (subFields "expression" doc) := by
  rw [expressionOf, h, subFields]
  cases hlookup : (objectToKjTree doc).lookup "expression".toList with
  | none =>
    cases hstored : doc.lookup "expression".toList with
    | none => rfl
    | some v =>
      obtain ⟨fields, rfl⟩ := hdoc.expression v hstored
      rw [lookup_decoded hstored rfl] at hlookup
      cases hlookup
  | some node =>
    obtain ⟨v, hstored, hnode⟩ := stored_of_lookup hdoc.distinct hlookup
    obtain ⟨fields, rfl⟩ := hdoc.expression v hstored
    cases hnode
    rw [hstored]

structure SubscriptionResult (fragment : Members) (doc doc' : Document) : Prop where
  field : ∀ k, k ≠ "modifiedAt".toList → k ∉ subscriptionNames fragment →
    (∀ m, Given fragment ["type", "@type"] m → m.1 ≠ k) →
    doc'.lookup k = valueOf k (objectToKjTree doc)
  type : ∀ m, Given fragment ["type", "@type"] m →
    doc'.lookup m.1 = some (.string "Subscription".toList)
  expression : Has fragment "q" → ¬ Has fragment "geoQ" → ∀ k, k ≠ "q".toList →
    (subFields "expression" doc').lookup k =
      valueOf k (objectToKjTree (subFields "expression" doc))
  q : Has fragment "geoQ" → ¬ Has fragment "q" →
    (subFields "expression" doc').lookup "q".toList =
      ((objectToKjTree (subFields "expression" doc)).lookup "q".toList).bind kjTreeToBson

theorem lookup_of_has (h : Has fragment name) :
    ∃ node, fragment.lookup name.toList = some node := by
  obtain ⟨m, hm, hname⟩ := mem_map.mp h
  cases hlookup : fragment.lookup name.toList with
  | none =>
    have hne := bne_iff_ne.mp (lookup_eq_none_iff.mp hlookup m hm)
    exact absurd hname.symm hne
  | some node => exact ⟨node, rfl⟩

theorem lookup_of_not_has (h : ¬ Has fragment name) : fragment.lookup name.toList = none := by
  cases hlookup : fragment.lookup name.toList with
  | none => rfl
  | some node => exact absurd (mem_map.mpr ⟨_, has_of_lookup hlookup, rfl⟩) h

theorem type_names : ∀ n ∈ ["type", "@type"], n ≠ "geoQ" ∧ n ≠ "expression" ∧ n ≠ "modifiedAt" ∧
    n ∈ ["type", "@type", "expression", "modifiedAt"] := by
  decide

theorem checked_geoQ (hc : CheckedSubscription fragment)
    (h : fragment.lookup "geoQ".toList = some node) :
    ∃ g, node = .object g ∧ "q".toList ∉ g.map Prod.fst := by
  have hname : (("geoQ".toList, node) : Text × KjNode).1 = "geoQ".toList := rfl
  generalize hm : (("geoQ".toList, node) : Text × KjNode) = m at hname
  have hmem : m ∈ fragment := hm ▸ has_of_lookup h
  have hnode : node = m.2 := congrArg Prod.snd hm
  rcases hc.members m hmem with ⟨n, hn, rfl⟩ | ⟨g, rfl, hg⟩ | ⟨items, rfl⟩ | ⟨⟨n, hn, hplain⟩, -⟩
  · exact absurd hname (toList_ne (type_names n hn).1)
  · exact ⟨g, hnode, hg⟩
  · exact absurd hname (toList_ne (by decide))
  have hgeoQ : n = "geoQ" := String.toList_inj.mp (hplain.symm.trans hname)
  rw [hgeoQ] at hn
  exact absurd hn (by decide)

theorem expression_determined (fragment : Members) (hname : name = "q" ∨ name = "geoQ")
    (h : Has fragment name) : "expression".toList ∈ subscriptionNames fragment := by
  obtain ⟨m, hm, hmname⟩ := mem_map.mp h
  refine mem_flatMap.mpr ⟨m, hm, mem_append_left _ ?_⟩
  rw [hmname]
  rcases hname with rfl | rfl
  · decide
  · decide

theorem datamodel_notNull (env : RenderEnv) (hc : CheckedSubscription fragment)
    (hinterval : ¬ Has fragment "timeInterval") :
    ∀ m ∈ ngsildSubscriptionToAPIv1Datamodel env fragment, m.2 ≠ .null := by
  intro m hm
  rcases datamodel_members env hc hinterval m hm with h | h
  · exact h.notNull
  · rw [h.2]
    nofun

theorem datamodel_free (env : RenderEnv) (hc : CheckedSubscription fragment)
    (hinterval : ¬ Has fragment "timeInterval") {n : String}
    (hn : n ∈ ["expression", "modifiedAt"]) :
    n.toList ∉ (ngsildSubscriptionToAPIv1Datamodel env fragment).map Prod.fst := by
  intro h
  obtain ⟨m, hm, hname⟩ := mem_map.mp h
  rcases datamodel_members env hc hinterval m hm with h | ⟨⟨-, t, ht, htype⟩, -⟩
  · refine h.fixed ?_
    rw [hname]
    exact mem_map.mpr ⟨n, mem_cons_of_mem _ (mem_cons_of_mem _ hn), rfl⟩
  have hnt : n = t := String.toList_inj.mp (hname.symm.trans htype)
  subst hnt
  revert hn ht
  simp only [mem_cons, not_mem_nil, or_false]
  rintro (rfl | rfl) (h | h) <;> exact absurd h (by decide)

theorem patchedSubscription_result (env : RenderEnv) (strtold : Text → ℚ)
    (overwritten : KjNode → Except CheckError KjNode) (hdoc : SubscriptionDocument doc)
    (hc : CheckedSubscription fragment) (hinterval : ¬ Has fragment "timeInterval") :
    ∃ doc', patchedSubscription env strtold overwritten fragment (objectToKjTree doc) = .ok doc' ∧
      SubscriptionResult fragment doc doc' := by
  have hmembers := datamodel_members env hc hinterval
  have hnull := datamodel_notNull env hc hinterval
  have hfixed {n : String} (hn : n ∈ ["expression", "modifiedAt"]) := datamodel_free env hc
    hinterval hn
  have hexpression : (addFragments (objectToKjTree doc)
      (ngsildSubscriptionToAPIv1Datamodel env fragment)).lookup "expression".toList =
        (objectToKjTree doc).lookup "expression".toList :=
    lookup_congr (named_addFragments (hfixed (by decide)) _)
  obtain ⟨db, hdb, hframe, hsame, hq, hgeoQ⟩ := patchExpression_ok
    (addFragments (objectToKjTree doc) (ngsildSubscriptionToAPIv1Datamodel env fragment))
    (fragment.lookup "q".toList) (fragment.lookup "geoQ".toList)
    (fun node hnode => by
      rw [hexpression] at hnode
      obtain ⟨v, hv, hdecoded⟩ := stored_of_lookup hdoc.distinct hnode
      obtain ⟨fields, rfl⟩ := hdoc.expression v hv
      cases hdecoded
      exact ⟨_, rfl⟩)
    (by rw [named_addFragments (hfixed (by decide)), decoded_tail hdoc.distinct])
    (fun node hnode => by
      obtain ⟨g, hg, -⟩ := checked_geoQ hc hnode
      exact ⟨g, hg⟩)
  obtain ⟨db', hdb', hframe'⟩ := modifiedAtSet_ok env.requestTime overwritten db
    (fun node hnode => by
      rw [lookup_congr ((hframe _ (toList_ne (by decide))).trans
        (named_addFragments (hfixed (by decide)) _))] at hnode
      obtain ⟨v, hv, hdecoded⟩ := stored_of_lookup hdoc.distinct hnode
      obtain ⟨x, rfl⟩ := hdoc.modifiedAt v hv
      cases hdecoded
      exact ⟨x, rfl⟩)
  have hvalue : valueOf "expression".toList db' = valueOf "expression".toList db :=
    valueOf_congr (hframe' _ (toList_ne (by decide)))
  have hold := expressionOf_decoded hdoc hexpression
  refine ⟨kjTreeToBsonObject db', ?_, ?_, ?_, ?_, ?_⟩
  · rw [patchedSubscription, fixDbSubscription_id hdoc, ok_bind, ngsildSubscriptionPatch,
      foldlM_patchMember hnull, ok_bind, hdb, ok_bind, hdb']
    rfl
  · intro k hk hnames htype
    have hnot : k ∉ (ngsildSubscriptionToAPIv1Datamodel env fragment).map Prod.fst := by
      intro h
      obtain ⟨m, hm, hname⟩ := mem_map.mp h
      rcases hmembers m hm with h | h
      · exact hnames (hname ▸ h.target)
      · exact htype m h.1 hname
    have hdb'' : named k db = named k (objectToKjTree doc) := by
      by_cases hkexpr : k = "expression".toList
      · have hqnone := lookup_of_not_has fun h =>
          hnames (hkexpr ▸ expression_determined fragment (.inl rfl) h)
        have hgnone := lookup_of_not_has fun h =>
          hnames (hkexpr ▸ expression_determined fragment (.inr rfl) h)
        rw [hsame hqnone hgnone, named_addFragments hnot]
      · rw [hframe k hkexpr, named_addFragments hnot]
    exact (valueOf_congr (hframe' k hk)).trans (valueOf_congr hdb'')
  · intro m hm
    obtain ⟨hmem, n, hn, hname⟩ := hm
    obtain ⟨-, hexpr, hdate, hfixedName⟩ := type_names n hn
    have hne : m.1 ≠ "expression".toList ∧ m.1 ≠ "modifiedAt".toList := by
      rw [hname]
      exact ⟨toList_ne hexpr, toList_ne hdate⟩
    have hfirst : valueOf m.1 db' = valueOf m.1 (addFragments (objectToKjTree doc)
        (ngsildSubscriptionToAPIv1Datamodel env fragment)) :=
      valueOf_congr ((hframe' _ hne.2).trans (hframe _ hne.1))
    refine hfirst.trans (valueOf_addFragments (fun m' hm' hname' => ?_) (.inr
      (mem_map.mpr ⟨m, type_in_datamodel ⟨hmem, n, hn, hname⟩, rfl⟩)))
    rcases hmembers m' hm' with h | h
    · refine absurd ?_ h.fixed
      rw [hname', hname]
      exact mem_map.mpr ⟨n, hfixedName, rfl⟩
    · rw [h.2]
      rfl
  · intro hhas hnot k hk
    obtain ⟨node, hnode⟩ := lookup_of_has hhas
    have hdoc' := hvalue.trans (hq node hnode (lookup_of_not_has hnot))
    rw [subFields_of_lookup hdoc', ← hold]
    exact valueOf_congr (named_addOrReplace_ne (Ne.symm hk) _ _)
  · intro hhas hnot
    obtain ⟨node, hnode⟩ := lookup_of_has hhas
    obtain ⟨g, rfl, hg⟩ := checked_geoQ hc hnode
    have hdoc' := hvalue.trans (hgeoQ g (lookup_of_not_has hnot) hnode)
    rw [subFields_of_lookup hdoc', ← hold]
    show valueOf "q".toList (g ++ _) = _
    rw [valueOf_append, valueOf_none hg, none_or]
    cases (expressionOf (addFragments (objectToKjTree doc)
      (ngsildSubscriptionToAPIv1Datamodel env fragment))).lookup "q".toList with
    | none => rfl
    | some old =>
      show valueOf "q".toList [("q".toList, old)] = kjTreeToBson old
      rw [valueOf_cons, if_pos rfl]
      exact or_none

theorem documented_mem {table : List (String × String)} {name : Text}
    (h : n ∈ documented table name) : ∃ e ∈ table, n = e.2.toList := by
  obtain ⟨e, he, rfl⟩ := mem_map.mp h
  exact ⟨e, (mem_filter.mp he).1, rfl⟩

def allTargets : List (String × String) := subscriptionTable ++ notificationTable ++ endpointTable

theorem endpointNames_target (h : n ∈ endpointNames node) : ∃ e ∈ allTargets, n = e.2.toList := by
  cases node with
  | object members =>
    obtain ⟨m, -, hn⟩ := mem_flatMap.mp h
    obtain ⟨e, he, rfl⟩ := documented_mem hn
    exact ⟨e, mem_append_right _ he, rfl⟩
  | _ => cases h

theorem notificationNames_target (h : n ∈ notificationNames node) :
    ∃ e ∈ allTargets, n = e.2.toList := by
  cases node with
  | object members =>
    obtain ⟨m, -, hn⟩ := mem_flatMap.mp h
    rcases mem_append.mp hn with hn | hn
    · obtain ⟨e, he, rfl⟩ := documented_mem hn
      exact ⟨e, mem_append_left _ (mem_append_right _ he), rfl⟩
    split at hn
    · exact endpointNames_target hn
    · cases hn
  | _ => cases h

theorem subscriptionNames_target (h : n ∈ subscriptionNames fragment) :
    ∃ e ∈ allTargets, n = e.2.toList := by
  obtain ⟨m, -, hn⟩ := mem_flatMap.mp h
  rcases mem_append.mp hn with hn | hn
  · obtain ⟨e, he, rfl⟩ := documented_mem hn
    exact ⟨e, mem_append_left _ (mem_append_left _ he), rfl⟩
  split at hn
  · exact notificationNames_target hn
  · cases hn

theorem target_ne_type : ∀ e ∈ allTargets, e.2 ≠ "type" ∧ e.2 ≠ "@type" := by
  decide

theorem type_undetermined (h : Given fragment ["type", "@type"] m) :
    m.1 ≠ "modifiedAt".toList ∧ m.1 ∉ subscriptionNames fragment := by
  obtain ⟨-, n, hn, hname⟩ := h
  rw [hname]
  refine ⟨?_, fun hnames => ?_⟩
  · exact toList_ne (type_names n hn).2.2.1
  · obtain ⟨e, he, hne⟩ := subscriptionNames_target hnames
    have hen : n = e.2 := String.toList_inj.mp hne
    obtain ⟨h₁, h₂⟩ := target_ne_type e he
    rcases mem_pair.mp hn with h | h
    · exact h₁ (hen.symm.trans h)
    · exact h₂ (hen.symm.trans h)

theorem fields_kept_iff {doc' : Document} {F : Text → Prop} {Fixed : Text × KjNode → Prop}
    {value : Text × KjNode → Text} (hfree : ∀ m, Fixed m → F m.1)
    (hfixed : ∀ m, Fixed m → doc'.lookup m.1 = some (.string (value m)))
    (hrest : ∀ k, F k → (∀ m, Fixed m → m.1 ≠ k) →
      doc'.lookup k = valueOf k (objectToKjTree doc)) :
    (∀ k, F k → doc'.lookup k = doc.lookup k) ↔
      (∀ m, Fixed m → doc.lookup m.1 = some (.string (value m))) ∧
        ∀ k v, F k → doc.lookup k = some v → Storable v := by
  have hcases (k : Text) : (∃ m, Fixed m ∧ m.1 = k) ∨ ∀ m, Fixed m → m.1 ≠ k := by
    by_cases h : ∃ m, Fixed m ∧ m.1 = k
    · exact .inl h
    · exact .inr fun m hm hname => h ⟨m, hm, hname⟩
  constructor
  · intro hkept
    refine ⟨fun m hm => (hkept _ (hfree m hm)).symm.trans (hfixed m hm), fun k v hk hv => ?_⟩
    rcases hcases k with ⟨m, hm, rfl⟩ | hno
    · rw [← hkept _ hk, hfixed m hm] at hv
      cases hv
      trivial
    · exact (kept_iff_storable (hrest k hk hno)).mp (hkept k hk) v hv
  · rintro ⟨hsame, hstored⟩ k hk
    rcases hcases k with ⟨m, hm, rfl⟩ | hno
    · rw [hfixed m hm, hsame m hm]
    · exact (kept_iff_storable (hrest k hk hno)).mpr fun v hv => hstored k v hk hv

theorem subscription_kept_iff {doc' : Document} (h : SubscriptionResult fragment doc doc') :
    SubscriptionKept fragment doc doc' ↔ SubscriptionCondition fragment doc := by
  have hfields := fields_kept_iff
    (F := fun k => k ≠ "modifiedAt".toList ∧ k ∉ subscriptionNames fragment)
    (fun m hm => type_undetermined hm) h.type fun k hk => h.field k hk.1 hk.2
  have hexpression hhas hnot k hk := kept_iff_storable (h.expression hhas hnot k hk)
  constructor
  · intro hkept
    obtain ⟨htype, hstored⟩ := hfields.mp fun k hk => hkept.field k hk.1 hk.2
    refine ⟨htype, fun k v hk hnames => hstored k v ⟨hk, hnames⟩, fun hhas hnot k v hk => ?_,
      fun hhas hnot => ?_⟩
    · exact (hexpression hhas hnot k hk).mp (hkept.expression hhas hnot k hk) v
    · exact (lookup_decoded_iff _ _).mp ((h.q hhas hnot).symm.trans (hkept.q hhas hnot))
  · intro hcond
    have hkept := hfields.mpr ⟨hcond.type, fun k v hk => hcond.field k v hk.1 hk.2⟩
    refine ⟨fun k hk hnames => hkept k ⟨hk, hnames⟩, fun hhas hnot k hk => ?_, fun hhas hnot => ?_⟩
    · exact (hexpression hhas hnot k hk).mpr fun v hv => hcond.expression hhas hnot k v hk hv
    · exact (h.q hhas hnot).trans ((lookup_decoded_iff _ _).mpr (hcond.q hhas hnot))

theorem patchSubscriptionChecks_ok {subscriptionId : Text}
    (h : patchSubscriptionChecks env subscriptionId payload (some doc) = .ok (fragment, db)) :
    db = objectToKjTree doc ∧ CheckedSubscription fragment ∧ ¬ Has fragment "timeInterval" := by
  unfold patchSubscriptionChecks at h
  split at h
  · cases h
  obtain ⟨fr, hfr, h⟩ := bind_ok h
  obtain ⟨u, hinterval, h⟩ := bind_ok h
  cases h
  refine ⟨rfl, pcheckSubscription_checked hfr, fun hhas => ?_⟩
  obtain ⟨node, hnode⟩ := lookup_of_has hhas
  rw [intervalChecks, hnode, if_pos isSome_some] at hinterval
  cases hinterval

/-- A PATCH that is not refused writes a document, and keeps what it does not determine exactly
under the condition. -/
theorem patch_subscription_kept {subscriptionId : Text} (hdoc : SubscriptionDocument doc)
    (h : patchSubscriptionChecks env subscriptionId payload (some doc) = .ok (fragment, db)) :
    (∃ doc', orionldPatchSubscription env strtold overwritten subscriptionId payload (some doc) =
        .ok doc' ∧ SubscriptionKept fragment doc doc') ↔ SubscriptionCondition fragment doc := by
  obtain ⟨rfl, hc, hinterval⟩ := patchSubscriptionChecks_ok h
  obtain ⟨doc', hdoc', hresult⟩ := patchedSubscription_result env strtold overwritten hdoc hc
    hinterval
  have hrun : orionldPatchSubscription env strtold overwritten subscriptionId payload (some doc) =
      .ok doc' := by
    rw [orionldPatchSubscription, h]
    exact hdoc'
  rw [hrun, ← subscription_kept_iff hresult]
  constructor
  · rintro ⟨doc'', hok, hkept⟩
    cases hok
    exact hkept
  · intro hkept
    exact ⟨doc', rfl, hkept⟩

end PatchSubscriptionKept
