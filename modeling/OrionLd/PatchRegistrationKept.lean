import OrionLd.OrionldPostEntity
import OrionLd.PatchSubscriptionKept

/-! What a PATCH of a registration does to the fields that its fragment does not determine, and the
two kinds of PATCH together. -/
namespace PatchRegistrationKept

open List
open KjTree OrionldContextItem KjTreeToContextAttribute PcheckSubscription MongoCppLegacyCodec
open OrionldPatchSubscription OrionldPatchRegistration DocumentFields PatchSubscriptionKept Fallible
open PcheckGeoQ (CheckError stringCheck)

/-- The endpoint determines one field inside of contextRegistration. -/
def registrationTable : List (String × String) :=
  [("name", "name"), ("description", "description"), ("information", "contextRegistration"),
    ("observationInterval", "observationInterval"), ("managementInterval", "managementInterval"),
    ("location", "location"), ("observationSpace", "observationSpace"),
    ("operationSpace", "operationSpace"), ("expires", "expiration")]

def registrationNames (fragment : Members) : List Text :=
  fragment.flatMap fun m => documented registrationTable m.1

def headFields (doc : Document) : Document :=
  match doc.lookup "contextRegistration".toList with
  | some (.array (.object item :: _)) => item
  | _ => []

def tailItems (doc : Document) : List BsonValue :=
  match doc.lookup "contextRegistration".toList with
  | some (.array (_ :: items)) => items
  | _ => []

def propertyNames (c : Contexts) (properties : Members) : List Text :=
  properties.map fun m => (orionldAttributeExpand c m.1).1

/-- A field that nothing in the fragment determines, not even a part of it. -/
structure Untouched (fragment properties : Members) (k : Text) : Prop where
  date : k ≠ "modifiedAt".toList
  names : k ∉ registrationNames fragment
  endpoint : Has fragment "endpoint" → k ≠ "contextRegistration".toList
  properties : properties ≠ [] → k ≠ "properties".toList

structure RegistrationKept (c : Contexts) (fragment properties : Members) (doc doc' : Document) :
    Prop where
  field : ∀ k, Untouched fragment properties k → doc'.lookup k = doc.lookup k
  head : Has fragment "endpoint" → ¬ Has fragment "information" →
    ∀ k, k ≠ "providingApplication".toList → (headFields doc').lookup k = (headFields doc).lookup k
  tail : Has fragment "endpoint" → ¬ Has fragment "information" → tailItems doc' = tailItems doc
  properties : properties ≠ [] → ∀ k, k ∉ propertyNames c properties →
    (subFields "properties" doc').lookup k = (subFields "properties" doc).lookup k

/-- A document of the data model of registrations. -/
structure RegistrationDocument (doc : Document) : Prop where
  distinct : (doc.map Prod.fst).Nodup
  modifiedAt : ∀ v, doc.lookup "modifiedAt".toList = some v → ∃ x, v = .double x
  contextRegistration : ∃ item items s,
    doc.lookup "contextRegistration".toList = some (.array (.object item :: items)) ∧
      item.lookup "providingApplication".toList = some (.string s)
  interval : ∀ n ∈ ["observationInterval", "managementInterval"], ∀ v,
    doc.lookup n.toList = some v → ∃ fields, v = .object fields
  properties : ∀ v, doc.lookup "properties".toList = some v → ∃ fields, v = .object fields

/-- No type or endpoint is given that is no field of the document, and what is kept has no 64-bit
integer and no null. -/
structure RegistrationCondition (c : Contexts) (fragment properties : Members) (doc : Document) :
    Prop where
  type : ∀ m, Given fragment ["type", "@type"] m →
    doc.lookup m.1 = some (.string "ContextSourceRegistration".toList)
  endpoint : ∀ s, ("endpoint".toList, .string s) ∈ fragment →
    doc.lookup "endpoint".toList = some (.string s)
  field : ∀ k v, Untouched fragment properties k → doc.lookup k = some v → Storable v
  head : Has fragment "endpoint" → ¬ Has fragment "information" →
    ∀ k v, k ≠ "providingApplication".toList → (headFields doc).lookup k = some v → Storable v
  tail : Has fragment "endpoint" → ¬ Has fragment "information" → StorableItems (tailItems doc)
  properties : properties ≠ [] → ∀ k v, k ∉ propertyNames c properties →
    (subFields "properties" doc).lookup k = some v → Storable v

variable {env : RenderEnv}

def plainFields : List String :=
  ["name", "description", "information", "observationInterval", "managementInterval", "location",
    "observationSpace", "operationSpace", "expires"]

def CheckedField (m : Text × KjNode) : Prop :=
  (∃ n ∈ ["type", "@type"], m = (n.toList, .string "ContextSourceRegistration".toList)) ∨
  (∃ s, m = ("endpoint".toList, .string s)) ∨
  Plain plainFields m

variable {m : Text × KjNode} {seen : List String} {name : String}
variable {r : List String × (Text × KjNode)}

theorem unseen_ok {seen' : List String} {field : String} (h : unseen seen field = .ok seen') :
    field ∉ seen ∧ seen' = field :: seen := by
  unfold unseen at h
  split at h
  · cases h
  rename_i hnot
  cases h
  exact ⟨hnot, rfl⟩

theorem field_ok {α β : Type} {check : Except CheckError α} {more : α → Except CheckError β}
    (hcheck : ∀ a, check = .ok a → m.2 ≠ .null) (h : (do
      let seen' ← unseen seen name
      let a ← check
      let _ ← more a
      .ok (seen', m)) = .ok r) : r = (name :: seen, m) ∧ name ∉ seen ∧ m.2 ≠ .null := by
  obtain ⟨seen', hseen, h⟩ := bind_ok h
  obtain ⟨a, ha, h⟩ := bind_ok h
  obtain ⟨_, -, h⟩ := bind_ok h
  obtain ⟨hnot, rfl⟩ := unseen_ok hseen
  cases h
  exact ⟨rfl, hnot, hcheck a ha⟩

theorem string_notNull {s : Text} (h : stringCheck name m.2 = .ok s) : m.2 ≠ .null := by
  rw [stringCheck_ok h]
  nofun

theorem object_notNull {ms : Members} (h : objectCheck name m.2 = .ok ms) : m.2 ≠ .null := by
  rw [objectCheck_ok h]
  nofun

theorem pcheckInformation_ne {c : Contexts} {following : ℕ} {node node' : KjNode}
    (h : pcheckInformation c following node = .ok node') : node' ≠ .null := by
  obtain ⟨items, -, h⟩ := bind_ok h
  cases items with
  | nil =>
    cases h
    nofun
  | cons item items =>
    obtain ⟨item', -, h⟩ := bind_ok h
    cases h
    nofun

theorem registrationFields_cases : ∀ n ∈ registrationFields,
    n ∈ plainFields ∨ n ∈ ["id", "@id", "type", "@type", "endpoint"] := by
  decide

theorem endpoint_of_field {name : Text} (h : isRegistrationField name = true)
    (hid : ¬ (name = "id".toList ∨ name = "@id".toList))
    (htype : ¬ (name = "type".toList ∨ name = "@type".toList))
    (hplain : ∀ n ∈ plainFields, name ≠ n.toList) : name = "endpoint".toList := by
  obtain ⟨n, hn, hname⟩ := any_eq_true.mp h
  have hname : name = n.toList := (eq_of_beq hname).symm
  rcases registrationFields_cases n hn with hn | hn
  · exact absurd hname (hplain n hn)
  simp only [mem_cons, not_mem_nil, or_false] at hn
  rcases hn with rfl | rfl | rfl | rfl | rfl
  · exact absurd (.inl hname) hid
  · exact absurd (.inr hname) hid
  · exact absurd (.inl hname) htype
  · exact absurd (.inr hname) htype
  · exact hname

theorem plainFields_ne_endpoint : ∀ n ∈ plainFields, n ≠ "endpoint" := by
  decide

variable {n : String} {payload : KjNode} {k : Text}

theorem plain_branch {node : KjNode} (hn : n ∈ plainFields) (hm : m.1 = n.toList)
    (h : r = (name :: seen, (m.1, node)) ∧ name ∉ seen ∧ node ≠ .null) :
    CheckedField r.2 ∧ r.2.1 = m.1 ∧ seen ⊆ r.1 ∧
      (m.1 = "endpoint".toList → "endpoint" ∉ seen ∧ "endpoint" ∈ r.1) := by
  obtain ⟨rfl, -, hnull⟩ := h
  refine ⟨Or.inr (Or.inr ⟨⟨n, hn, hm⟩, hnull⟩), rfl, subset_cons_self _ _, fun hendpoint => ?_⟩
  exact absurd (String.toList_inj.mp (hm.symm.trans hendpoint)) (plainFields_ne_endpoint n hn)

theorem registrationMember_ok {following : ℕ} (hfield : isRegistrationField m.1 = true)
    (h : registrationMember env false following seen m = .ok r) :
    CheckedField r.2 ∧ r.2.1 = m.1 ∧ seen ⊆ r.1 ∧
      (m.1 = "endpoint".toList → "endpoint" ∉ seen ∧ "endpoint" ∈ r.1) := by
  unfold registrationMember at h
  by_cases hid : m.1 = "id".toList ∨ m.1 = "@id".toList
  · rw [if_pos hid, if_neg Bool.false_ne_true] at h
    cases h
  rw [if_neg hid] at h
  split at h
  · next htype =>
    obtain ⟨seen', hseen, h⟩ := bind_ok h
    obtain ⟨s, hs, h⟩ := bind_ok h
    obtain ⟨-, rfl⟩ := unseen_ok hseen
    split at h
    · cases h
    rename_i hvalue
    cases h
    have hs' := stringCheck_ok hs
    rw [not_not.mp hvalue] at hs'
    refine ⟨.inl (typeField_ok htype hs'), rfl, subset_cons_self _ _, fun hendpoint => ?_⟩
    rcases htype with htype | htype
    · exact absurd (htype.symm.trans hendpoint) (toList_ne (by decide))
    · exact absurd (htype.symm.trans hendpoint) (toList_ne (by decide))
  rename_i htype
  rcases ite_ok h with ⟨hname, h⟩ | ⟨hname, h⟩
  · exact plain_branch (by decide) hname (field_ok (fun _ => string_notNull) h)
  rcases ite_ok h with ⟨hdescription, h⟩ | ⟨hdescription, h⟩
  · exact plain_branch (by decide) hdescription (field_ok (fun _ => string_notNull) h)
  rcases ite_ok h with ⟨hinformation, h⟩ | ⟨hinformation, h⟩
  · obtain ⟨seen', hseen, h⟩ := bind_ok h
    obtain ⟨node, hnode, h⟩ := bind_ok h
    obtain ⟨hnot, rfl⟩ := unseen_ok hseen
    cases h
    exact plain_branch (by decide) hinformation ⟨rfl, hnot, pcheckInformation_ne hnode⟩
  rcases ite_ok h with ⟨hobservationInterval, h⟩ | ⟨hobservationInterval, h⟩
  · exact plain_branch (by decide) hobservationInterval (field_ok (fun _ => object_notNull) h)
  rcases ite_ok h with ⟨hmanagementInterval, h⟩ | ⟨hmanagementInterval, h⟩
  · exact plain_branch (by decide) hmanagementInterval (field_ok (fun _ => object_notNull) h)
  rcases ite_ok h with ⟨hlocation, h⟩ | ⟨hlocation, h⟩
  · exact plain_branch (by decide) hlocation (field_ok (fun _ => object_notNull) h)
  rcases ite_ok h with ⟨hobservationSpace, h⟩ | ⟨hobservationSpace, h⟩
  · exact plain_branch (by decide) hobservationSpace (field_ok (fun _ => object_notNull) h)
  rcases ite_ok h with ⟨hoperationSpace, h⟩ | ⟨hoperationSpace, h⟩
  · exact plain_branch (by decide) hoperationSpace (field_ok (fun _ => object_notNull) h)
  rcases ite_ok h with ⟨hexpires, h⟩ | ⟨hexpires, h⟩
  · obtain ⟨seen', hseen, h⟩ := bind_ok h
    obtain ⟨s, hs, h⟩ := bind_ok h
    obtain ⟨_, -, h⟩ := bind_ok h
    obtain ⟨_, -, h⟩ := bind_ok h
    obtain ⟨hnot, rfl⟩ := unseen_ok hseen
    cases h
    exact plain_branch (by decide) hexpires ⟨rfl, hnot, string_notNull hs⟩
  have hendpoint : m.1 = "endpoint".toList := endpoint_of_field hfield hid htype
    (by simpa [plainFields] using ⟨hname, hdescription, hinformation, hobservationInterval,
      hmanagementInterval, hlocation, hobservationSpace, hoperationSpace, hexpires⟩)
  obtain ⟨seen', hseen, h⟩ := bind_ok h
  obtain ⟨s, hs, h⟩ := bind_ok h
  obtain ⟨_, -, h⟩ := bind_ok h
  obtain ⟨hnot, rfl⟩ := unseen_ok hseen
  cases h
  exact ⟨.inr (.inl ⟨s, Prod.ext hendpoint (stringCheck_ok hs)⟩), rfl,
    subset_cons_self _ _, fun _ => ⟨hnot, mem_cons_self⟩⟩

/-- The fields of a fragment that has passed the check. An endpoint is given once. -/
structure CheckedRegistration (fragment : Members) : Prop where
  fields : ∀ m ∈ fragment, CheckedField m
  endpoint : ∀ m ∈ fragment, m.1 = "endpoint".toList →
    fragment.lookup "endpoint".toList = some m.2

theorem registrationMembers_ok {ms properties : Members} {r : Members × Members}
    (h : registrationMembers env false seen properties ms = .ok r) :
    CheckedRegistration r.1 ∧ ("endpoint" ∈ seen → ¬ Has r.1 "endpoint") := by
  induction ms generalizing seen properties r with
  | nil =>
    cases h
    exact ⟨⟨nofun, nofun⟩, fun _ => not_mem_nil⟩
  | cons m ms ih =>
    rw [registrationMembers] at h
    split at h
    · next hfield =>
      obtain ⟨r₁, h₁, h⟩ := bind_ok h
      obtain ⟨r₂, h₂, h⟩ := bind_ok h
      cases h
      obtain ⟨hchecked, hname, hseen, hendpoint⟩ := registrationMember_ok hfield h₁
      obtain ⟨hrest, hnone⟩ := ih h₂
      refine ⟨⟨forall_mem_cons.mpr ⟨hchecked, hrest.fields⟩, ?_⟩, fun hin hhas => ?_⟩
      · intro x hx hxname
        rw [lookup_cons]
        by_cases hm : r₁.2.1 = "endpoint".toList
        · have hno := hnone (hendpoint (hname.symm.trans hm)).2
          rcases mem_cons.mp hx with rfl | hx
          · rw [hm, beq_self_eq_true]
          · exact absurd (mem_map.mpr ⟨x, hx, hxname⟩) hno
        · rw [beq_false_of_ne (Ne.symm hm)]
          rcases mem_cons.mp hx with rfl | hx
          · exact absurd hxname hm
          · exact hrest.endpoint x hx hxname
      · rcases mem_cons.mp hhas with hm | hrest'
        · exact (hendpoint (hname.symm.trans hm.symm)).1 hin
        · exact hnone (hseen hin) hrest'
    · split at h
      · cases h
      · exact ih h

theorem pcheckRegistration_ok {r : Members × Members}
    (h : pcheckRegistration env false payload = .ok r) : CheckedRegistration r.1 := by
  cases payload with
  | object members => exact (registrationMembers_ok h).1
  | _ => cases h

variable {fragment : Members}

def strayNames : List String := ["type", "@type", "endpoint", "modifiedAt", "properties"]

def fieldName (name : Text) : Text :=
  if name = "information".toList then "contextRegistration".toList
  else if name = "expires".toList then "expiration".toList
  else name

theorem field_name (pa : Text) (m : Text × KjNode) :
    (OrionldPatchRegistration.memberToAPIv1 env pa m).1 = fieldName m.1 := by
  unfold OrionldPatchRegistration.memberToAPIv1 fieldName
  by_cases hinformation : m.1 = "information".toList
  · rw [if_pos hinformation, if_pos hinformation]
  rw [if_neg hinformation, if_neg hinformation]
  by_cases hobservation : m.1 = "observationInterval".toList
  · rw [if_pos hobservation, if_neg (hobservation ▸ toList_ne (by decide))]
  rw [if_neg hobservation]
  by_cases hmanagement : m.1 = "managementInterval".toList
  · rw [if_pos hmanagement, if_neg (hmanagement ▸ toList_ne (by decide))]
  rw [if_neg hmanagement]
  by_cases hexpires : m.1 = "expires".toList
  · rw [if_pos hexpires, if_pos hexpires]
  · rw [if_neg hexpires, if_neg hexpires]

variable {pa : Text} {node : KjNode}

theorem type_or_endpoint : ∀ n ∈ ["type", "@type"], n ∈ ["type", "@type", "endpoint"] := by
  decide

theorem stray_given : ∀ n ∈ ["type", "@type", "endpoint"], n ∉ plainFields ∧ n ∈ strayNames ∧
    n ≠ "modifiedAt" ∧ n ≠ "contextRegistration" ∧ n ≠ "properties" := by
  decide

theorem field_unchanged (h : ∃ n ∈ ["type", "@type", "endpoint"], m.1 = n.toList) :
    OrionldPatchRegistration.memberToAPIv1 env pa m = m := by
  have hne {k : String} (hk : k ∈ plainFields) : m.1 ≠ k.toList := by
    obtain ⟨n, hn, hname⟩ := h
    rw [hname]
    refine toList_ne ?_
    rintro rfl
    exact (stray_given n hn).1 hk
  rw [OrionldPatchRegistration.memberToAPIv1, if_neg (hne (by decide)), if_neg (hne (by decide)),
    if_neg (hne (by decide)), if_neg (hne (by decide))]

theorem field_ne (h : m.2 ≠ .null) :
    (OrionldPatchRegistration.memberToAPIv1 env pa m).2 ≠ .null := by
  unfold OrionldPatchRegistration.memberToAPIv1 ngsildRegistrationInformationToAPIv1Datamodel
    ngsildTimeIntervalToAPIv1Datamodel dateTimeNode
  split_ifs
  all_goals first
    | exact h
    | split
      · nofun
      · exact h

theorem fieldName_documented : ∀ n ∈ plainFields,
    fieldName n.toList ∈ documented registrationTable n.toList ∧
      fieldName n.toList ∉ strayNames.map String.toList ∧
      (fieldName n.toList = "contextRegistration".toList → n = "information") := by
  decide

theorem fragment_fields (env : RenderEnv) (pa : Text) (hc : CheckedRegistration fragment) :
    ∀ m ∈ fragment.map (OrionldPatchRegistration.memberToAPIv1 env pa), m.2 ≠ .null ∧
      ((m.1 ∈ registrationNames fragment ∧ m.1 ∉ strayNames.map String.toList ∧
          (m.1 = "contextRegistration".toList → Has fragment "information")) ∨
        TypeMember fragment "ContextSourceRegistration" m ∨
        ∃ s, m = ("endpoint".toList, .string s) ∧ m ∈ fragment) := by
  intro m hm
  obtain ⟨m₀, hm₀, rfl⟩ := mem_map.mp hm
  rcases hc.fields m₀ hm₀ with ⟨n, hn, hvalue⟩ | ⟨s, hvalue⟩ | ⟨⟨n, hn, hname⟩, hnull⟩
  · have hname : m₀.1 = n.toList := by rw [hvalue]
    have hnode : m₀.2 = .string "ContextSourceRegistration".toList := by rw [hvalue]
    rw [field_unchanged ⟨n, type_or_endpoint n hn, hname⟩]
    exact ⟨by rw [hnode]; nofun, .inr (.inl ⟨⟨hm₀, n, hn, hname⟩, hnode⟩)⟩
  · have hname : m₀.1 = "endpoint".toList := by rw [hvalue]
    rw [field_unchanged ⟨"endpoint", by simp, hname⟩]
    exact ⟨by rw [hvalue]; nofun, .inr (.inr ⟨s, hvalue, hm₀⟩)⟩
  · obtain ⟨hdoc, hstray, hinformation⟩ := fieldName_documented n hn
    refine ⟨field_ne hnull, .inl ?_⟩
    rw [field_name, hname]
    refine ⟨mem_flatMap.mpr ⟨m₀, hm₀, hname ▸ hdoc⟩, hstray, fun h => ?_⟩
    exact mem_map.mpr ⟨m₀, hm₀, by rw [hname, hinformation h]⟩

variable {properties : Members} {doc : Document}
variable {c : Contexts} {db : Members}

theorem patchProperties_named {stored stored' : Members}
    (h : patchProperties c stored properties = .ok stored') (hk : k ∉ propertyNames c properties) :
    named k stored' = named k stored := by
  induction properties generalizing stored with
  | nil =>
    cases h
    rfl
  | cons m ms ih =>
    rw [propertyNames, map_cons, mem_cons, not_or] at hk
    rw [patchProperties] at h
    split at h
    · cases h
    · rw [ih h hk.2, named_append, named_remove_ne (Ne.symm hk.1), named_cons_ne (Ne.symm hk.1)]
      exact append_nil _

theorem propertiesPatch_ok {tree : Members} (h : propertiesPatch c tree properties = .ok db) :
    (properties = [] ∧ db = tree) ∨
      properties ≠ [] ∧ ∃ stored stored', tree.lookup "properties".toList = some (.object stored) ∧
        patchProperties c stored properties = .ok stored' ∧
        db = kjChildAddOrReplace tree "properties".toList (.object stored') := by
  cases properties with
  | nil =>
    cases h
    exact .inl ⟨rfl, rfl⟩
  | cons m ms =>
    refine .inr ⟨cons_ne_nil m ms, ?_⟩
    unfold propertiesPatch at h
    cases hlookup : tree.lookup "properties".toList with
    | none =>
      rw [hlookup] at h
      cases h
    | some node =>
      rw [hlookup] at h
      cases node with
      | object stored =>
        cases stored with
        | nil => cases h
        | cons p stored =>
          obtain ⟨stored', hstored, h⟩ := bind_ok h
          cases h
          exact ⟨p :: stored, stored', rfl, hstored, rfl⟩
      | _ => cases h

theorem propertiesPatch_named {tree : Members} (h : propertiesPatch c tree properties = .ok db)
    (hk : properties ≠ [] → k ≠ "properties".toList) : named k db = named k tree := by
  rcases propertiesPatch_ok h with ⟨-, rfl⟩ | ⟨hne, stored, stored', -, -, rfl⟩
  · rfl
  · exact named_addOrReplace_ne (Ne.symm (hk hne)) _ _

theorem interval_decoded (hdoc : RegistrationDocument doc)
    (hn : n ∈ ["observationInterval", "managementInterval"])
    (h : db.lookup n.toList = (objectToKjTree doc).lookup n.toList) :
    childrenRead (db.lookup n.toList) = .ok () := by
  rw [h]
  cases hlookup : (objectToKjTree doc).lookup n.toList with
  | none => rfl
  | some node =>
    obtain ⟨v, hv, hnode⟩ := stored_of_lookup hdoc.distinct hlookup
    obtain ⟨fields, rfl⟩ := hdoc.interval n hn v hv
    cases hnode
    rfl

theorem fixDbRegistration_id (hdoc : RegistrationDocument doc)
    (h : ∀ n ∈ ["observationInterval", "managementInterval"],
    db.lookup n.toList = (objectToKjTree doc).lookup n.toList) : fixDbRegistration db = .ok db := by
  rw [fixDbRegistration, interval_decoded hdoc (by simp) (h _ (by simp)), ok_bind,
    interval_decoded hdoc (by simp) (h _ (by simp)), ok_bind]

theorem untyped : ∀ n ∈ ["type", "@type"], n ≠ "endpoint" := by
  decide

theorem datamodel_ok (env : RenderEnv) (hc : CheckedRegistration fragment) {item : Members}
    {items : List KjNode} {s : Text} (hcontext : db.lookup "contextRegistration".toList =
    some (.array (.object item :: items)))
    (hpa : item.lookup "providingApplication".toList = some (.string s)) :
    ∃ pa db', ngsildRegistrationToAPIv1Datamodel env fragment db =
        (fragment.map (OrionldPatchRegistration.memberToAPIv1 env pa), db') ∧
      (¬ Has fragment "endpoint" → db' = db) ∧
      (Has fragment "endpoint" → ∃ e, db' = kjChildAddOrReplace db "contextRegistration".toList
        (.array (.object (kjChildAddOrReplace item "providingApplication".toList (.string e)) ::
          items))) := by
  have hstored : providingApplication db = some s := by
    simp only [providingApplication, hcontext, hpa]
  unfold ngsildRegistrationToAPIv1Datamodel
  cases hendpoint : fragment.lookup "endpoint".toList with
  | none =>
    have hnot : ¬ Has fragment "endpoint" := by
      intro h
      obtain ⟨node, hnode⟩ := lookup_of_has h
      rw [hendpoint] at hnode
      cases hnode
    dsimp only
    split
    · exact ⟨[], db, rfl, fun _ => rfl, fun h => absurd h hnot⟩
    · rw [hstored]
      exact ⟨s, db, rfl, fun _ => rfl, fun h => absurd h hnot⟩
  | some node =>
    have hmem := has_of_lookup hendpoint
    obtain ⟨e, rfl⟩ : ∃ e, node = .string e := by
      obtain ⟨m, hm, hname, hnode⟩ : ∃ m ∈ fragment, m.1 = "endpoint".toList ∧ m.2 = node :=
        ⟨_, hmem, rfl, rfl⟩
      rcases hc.fields m hm with ⟨n, hn, hvalue⟩ | ⟨e, hvalue⟩ | ⟨⟨n, hn, hplain⟩, -⟩
      · rw [hvalue] at hname
        exact absurd hname (toList_ne (untyped n hn))
      · exact ⟨e, by rw [← hnode, hvalue]⟩
      · exact absurd (String.toList_inj.mp (hplain.symm.trans hname)) (plainFields_ne_endpoint n hn)
    rw [if_neg (fun h => by cases h.1), hstored, hcontext]
    exact ⟨e, _, rfl, fun h => absurd (mem_map.mpr ⟨_, hmem, rfl⟩) h, fun _ => ⟨e, rfl⟩⟩

theorem ngsildRegistrationPatch_eq {fields : Members} (h : ∀ m ∈ fields, m.2 ≠ .null)
    (db : Members) : ngsildRegistrationPatch db fields = addFragments db fields := by
  induction fields generalizing db with
  | nil => rfl
  | cons m ms ih =>
    obtain ⟨hm, hms⟩ := forall_mem_cons.mp h
    have hmember : registrationPatchMember db m = kjChildAddOrReplace db m.1 m.2 := by
      unfold registrationPatchMember
      split
      · next hnull => exact absurd hnull hm
      · rfl
    exact (congrArg (fun db => ms.foldl registrationPatchMember db) hmember).trans (ih hms _)

structure RegistrationResult (c : Contexts) (fragment properties : Members)
    (doc doc' : Document) : Prop where
  field : ∀ k, Untouched fragment properties k →
    (∀ m, Given fragment ["type", "@type", "endpoint"] m → m.1 ≠ k) →
    doc'.lookup k = valueOf k (objectToKjTree doc)
  type : ∀ m, Given fragment ["type", "@type"] m →
    doc'.lookup m.1 = some (.string "ContextSourceRegistration".toList)
  endpoint : ∀ s, ("endpoint".toList, .string s) ∈ fragment →
    doc'.lookup "endpoint".toList = some (.string s)
  head : Has fragment "endpoint" → ¬ Has fragment "information" →
    ∀ k, k ≠ "providingApplication".toList →
      (headFields doc').lookup k = valueOf k (objectToKjTree (headFields doc))
  tail : Has fragment "endpoint" → ¬ Has fragment "information" →
    tailItems doc' = kjTreeToBsonArray (arrayToKjTree (tailItems doc))
  properties : properties ≠ [] → ∀ k, k ∉ propertyNames c properties →
    (subFields "properties" doc').lookup k =
      valueOf k (objectToKjTree (subFields "properties" doc))

theorem given_type_or_endpoint (h : Given fragment ["type", "@type"] m) :
    Given fragment ["type", "@type", "endpoint"] m := by
  obtain ⟨hm, n, hn, hname⟩ := h
  exact ⟨hm, n, type_or_endpoint n hn, hname⟩

theorem given_value (hc : CheckedRegistration fragment)
    (h : Given fragment ["type", "@type", "endpoint"] m) :
    TypeMember fragment "ContextSourceRegistration" m ∨
      ∃ s, m = ("endpoint".toList, .string s) := by
  obtain ⟨hm, n, hn, hname⟩ := h
  rcases hc.fields m hm with ⟨t, ht, hvalue⟩ | hendpoint | ⟨⟨t, ht, hplain⟩, -⟩
  · exact .inl ⟨⟨hm, t, ht, by rw [hvalue]⟩, by rw [hvalue]⟩
  · exact .inr hendpoint
  · rw [← String.toList_inj.mp (hname.symm.trans hplain)] at ht
    exact absurd ht (stray_given n hn).1

theorem type_value (hc : CheckedRegistration fragment) (h : Given fragment ["type", "@type"] m) :
    m.2 = .string "ContextSourceRegistration".toList := by
  rcases given_value hc (given_type_or_endpoint h) with htype | ⟨e, rfl⟩
  · exact htype.2
  · obtain ⟨-, n, hn, hname⟩ := h
    exact absurd hname.symm (toList_ne (untyped n hn))

theorem stray_value (pa : Text) (hc : CheckedRegistration fragment)
    (h : Given fragment ["type", "@type", "endpoint"] m) :
    ∀ x ∈ fragment.map (OrionldPatchRegistration.memberToAPIv1 env pa), x.1 = m.1 → x.2 = m.2 := by
  intro x hx hname
  obtain ⟨hm, n, hn, hmname⟩ := h
  rcases (fragment_fields env pa hc x hx).2 with ⟨-, hno, -⟩ | ⟨⟨hxmem, t, ht, htype⟩, hvalue⟩ |
    ⟨e, hvalue, hxmem⟩
  · refine absurd (mem_map.mpr ⟨n, (stray_given n hn).2.1, ?_⟩) hno
    rw [hname, hmname]
  · rw [hvalue, type_value hc ⟨hm, t, ht, hname.symm.trans htype⟩]
  have hxname : x.1 = "endpoint".toList := by rw [hvalue]
  have hlookup := hc.endpoint x hxmem hxname
  rw [hc.endpoint m hm (hname.symm.trans hxname)] at hlookup
  exact (Option.some.inj hlookup).symm

theorem fields_not_mem (pa : Text) (hc : CheckedRegistration fragment)
    (hnames : k ∉ registrationNames fragment)
    (hgiven : ∀ m, Given fragment ["type", "@type", "endpoint"] m → m.1 ≠ k) :
    k ∉ (fragment.map (OrionldPatchRegistration.memberToAPIv1 env pa)).map Prod.fst := by
  intro h
  obtain ⟨m, hm, hname⟩ := mem_map.mp h
  rcases (fragment_fields env pa hc m hm).2 with ⟨htarget, -⟩ | htype | ⟨e, he, hmem⟩
  · exact hnames (hname ▸ htarget)
  · exact hgiven m (given_type_or_endpoint htype.1) hname
  · exact hgiven m ⟨hmem, "endpoint", by simp, by rw [he]⟩ hname

theorem untargeted : ∀ n ∈ ["modifiedAt", "properties"],
    n ∈ strayNames ∧ n ∉ ["type", "@type"] ∧ n ≠ "endpoint" := by
  decide

theorem stray_not_mem (pa : Text) (hc : CheckedRegistration fragment)
    (hn : n ∈ ["modifiedAt", "properties"]) :
    n.toList ∉ (fragment.map (OrionldPatchRegistration.memberToAPIv1 env pa)).map Prod.fst := by
  obtain ⟨hstray, htypes, hendpoint⟩ := untargeted n hn
  intro h
  obtain ⟨m, hm, hname⟩ := mem_map.mp h
  rcases (fragment_fields env pa hc m hm).2 with ⟨-, hno, -⟩ | ⟨⟨-, t, ht, htype⟩, -⟩ | ⟨e, he, -⟩
  · exact hno (mem_map.mpr ⟨n, hstray, hname.symm⟩)
  · rw [← String.toList_inj.mp (hname.symm.trans htype)] at ht
    exact htypes ht
  · have hname' : m.1 = "endpoint".toList := by rw [he]
    exact hendpoint (String.toList_inj.mp (hname.symm.trans hname'))

theorem context_not_mem (pa : Text) (hc : CheckedRegistration fragment)
    (hinformation : ¬ Has fragment "information") : "contextRegistration".toList ∉
      (fragment.map (OrionldPatchRegistration.memberToAPIv1 env pa)).map Prod.fst := by
  intro h
  obtain ⟨m, hm, hname⟩ := mem_map.mp h
  rcases (fragment_fields env pa hc m hm).2 with ⟨-, -, hinfo⟩ | ⟨⟨-, t, ht, htype⟩, -⟩ | ⟨e, he, -⟩
  · exact hinformation (hinfo hname)
  · rw [← String.toList_inj.mp (hname.symm.trans htype)] at ht
    exact absurd ht (by decide)
  · have hname' : m.1 = "endpoint".toList := by rw [he]
    exact toList_ne (by decide) (hname.symm.trans hname')

theorem headFields_of_lookup {item : Document} {items : List BsonValue}
    (h : doc.lookup "contextRegistration".toList = some (.array (.object item :: items))) :
    headFields doc = item ∧ tailItems doc = items := by
  rw [headFields, tailItems, h]
  exact ⟨rfl, rfl⟩

theorem patchedRegistration_result (env : RenderEnv)
    (overwritten : KjNode → Except CheckError KjNode) (hdoc : RegistrationDocument doc)
    (hc : CheckedRegistration fragment)
    (hproperties : propertiesPatch env.toContexts (objectToKjTree doc) properties = .ok db) :
    ∃ doc', patchedRegistration env overwritten fragment db = .ok doc' ∧
      RegistrationResult env.toContexts fragment properties doc doc' := by
  obtain ⟨item, items, s, hcontext, hpa⟩ := hdoc.contextRegistration
  have hdb {k : Text} (hk : k ≠ "properties".toList) : named k db = named k (objectToKjTree doc) :=
    propertiesPatch_named hproperties fun _ => hk
  have hdbcontext : db.lookup "contextRegistration".toList =
      some (.array (.object (objectToKjTree item) :: arrayToKjTree items)) := by
    rw [lookup_congr (hdb (toList_ne (by decide)))]
    exact lookup_decoded hcontext rfl
  obtain ⟨pa, db', hmodel, hsame, hendpoint⟩ :=
    datamodel_ok env hc hdbcontext (lookup_decoded hpa rfl)
  have hfields := fragment_fields env pa hc
  have hframe {k : Text} (hk : Has fragment "endpoint" → k ≠ "contextRegistration".toList) :
      named k db' = named k db := by
    by_cases hhas : Has fragment "endpoint"
    · obtain ⟨e, rfl⟩ := hendpoint hhas
      exact named_addOrReplace_ne (Ne.symm (hk hhas)) _ _
    · rw [hsame hhas]
  obtain ⟨db'', hdb'', hdate⟩ := modifiedAtSet_ok env.requestTime overwritten
    (addFragments db' (fragment.map (OrionldPatchRegistration.memberToAPIv1 env pa)))
    (fun node hnode => by
      rw [lookup_congr ((named_addFragments (stray_not_mem pa hc (by simp)) _).trans
        ((hframe fun _ => toList_ne (by decide)).trans (hdb (toList_ne (by decide)))))] at hnode
      obtain ⟨v, hv, hdecoded⟩ := stored_of_lookup hdoc.distinct hnode
      obtain ⟨x, rfl⟩ := hdoc.modifiedAt v hv
      cases hdecoded
      exact ⟨x, rfl⟩)
  have hfix : fixDbRegistration db = .ok db := by
    refine fixDbRegistration_id hdoc fun n hn => lookup_congr (hdb ?_)
    rcases mem_pair.mp hn with rfl | rfl
    · exact toList_ne (by decide)
    · exact toList_ne (by decide)
  have hstrayValue (m : Text × KjNode) (hm : Given fragment ["type", "@type", "endpoint"] m) :
      valueOf m.1 db'' = kjTreeToBson m.2 := by
    obtain ⟨v, hv⟩ : ∃ v, kjTreeToBson m.2 = some v := by
      have hnull := (hfields m (mem_map.mpr ⟨m, hm.1, field_unchanged hm.2⟩)).1
      cases hnode : m.2 with
      | null => exact absurd hnode hnull
      | _ => exact ⟨_, rfl⟩
    have hne : m.1 ≠ "modifiedAt".toList := by
      obtain ⟨-, n, hn, hname⟩ := hm
      rw [hname]
      exact toList_ne (stray_given n hn).2.2.1
    rw [hv]
    refine (valueOf_congr (hdate _ hne)).trans (valueOf_addFragments (fun x hx hname => ?_)
      (.inr (mem_map.mpr ⟨m, mem_map.mpr ⟨m, hm.1, field_unchanged hm.2⟩, rfl⟩)))
    rw [stray_value pa hc hm x hx hname]
    exact hv
  have hcontext' (hhas : Has fragment "endpoint") (hinformation : ¬ Has fragment "information") :
      ∃ e, valueOf "contextRegistration".toList db'' = some (.array (.object (kjTreeToBsonObject
        (kjChildAddOrReplace (objectToKjTree item) "providingApplication".toList (.string e))) ::
          kjTreeToBsonArray (arrayToKjTree items))) := by
    obtain ⟨e, he⟩ := hendpoint hhas
    refine ⟨e, ?_⟩
    rw [valueOf_congr (hdate _ (toList_ne (by decide))),
      valueOf_congr (named_addFragments (context_not_mem pa hc hinformation) _), he]
    exact valueOf_addOrReplace rfl
  refine ⟨kjTreeToBsonObject db'', ?_, ?_, ?_, ?_, ?_, ?_, ?_⟩
  · rw [patchedRegistration, hfix, ok_bind, hmodel]
    dsimp only
    rw [ngsildRegistrationPatch_eq fun m hm => (hfields m hm).1, hdb'']
    rfl
  · intro k hk hgiven
    refine (valueOf_congr (hdate k hk.date)).trans (valueOf_congr ?_)
    rw [named_addFragments (fields_not_mem pa hc hk.names hgiven), hframe hk.endpoint]
    exact propertiesPatch_named hproperties hk.properties
  · intro m hm
    refine (hstrayValue m (given_type_or_endpoint hm)).trans ?_
    rw [type_value hc hm]
    rfl
  · intro e he
    exact hstrayValue _ ⟨he, "endpoint", by simp, rfl⟩
  · intro hhas hinformation k hk
    obtain ⟨e, he⟩ := hcontext' hhas hinformation
    rw [(headFields_of_lookup he).1, (headFields_of_lookup hcontext).1]
    exact valueOf_congr (named_addOrReplace_ne (Ne.symm hk) _ _)
  · intro hhas hinformation
    obtain ⟨e, he⟩ := hcontext' hhas hinformation
    rw [(headFields_of_lookup he).2, (headFields_of_lookup hcontext).2]
  · intro hne k hk
    rcases propertiesPatch_ok hproperties with
      ⟨hnil, -⟩ | ⟨-, stored, stored', hstored, hpatch, hdb'⟩
    · exact absurd hnil hne
    obtain ⟨v, hv, hnode⟩ := stored_of_lookup hdoc.distinct hstored
    obtain ⟨fields, rfl⟩ := hdoc.properties v hv
    cases hnode
    have hwritten : valueOf "properties".toList db'' =
        some (.object (kjTreeToBsonObject stored')) := by
      rw [valueOf_congr (hdate _ (toList_ne (by decide))),
        valueOf_congr (named_addFragments (stray_not_mem pa hc (by simp)) _),
        valueOf_congr (hframe fun _ => toList_ne (by decide)), hdb']
      exact valueOf_addOrReplace rfl
    rw [subFields_of_lookup hwritten, subFields_of_lookup hv]
    exact valueOf_congr (patchProperties_named hpatch hk)

theorem registrationNames_target {n : Text} (h : n ∈ registrationNames fragment) :
    ∃ e ∈ registrationTable, n = e.2.toList := by
  obtain ⟨m, -, hn⟩ := mem_flatMap.mp h
  exact documented_mem hn

theorem target_ne_stray : ∀ e ∈ registrationTable, ∀ n ∈ ["type", "@type", "endpoint"],
    e.2 ≠ n := by
  decide

theorem stray_untouched (properties : Members)
    (h : Given fragment ["type", "@type", "endpoint"] m) :
    Untouched fragment properties m.1 := by
  obtain ⟨-, n, hn, hname⟩ := h
  obtain ⟨-, -, hdate, hcontext, hproperties⟩ := stray_given n hn
  rw [hname]
  refine ⟨toList_ne hdate, fun hnames => ?_, fun _ => toList_ne hcontext,
    fun _ => toList_ne hproperties⟩
  obtain ⟨e, he, hne⟩ := registrationNames_target hnames
  exact target_ne_stray e he n hn (String.toList_inj.mp hne).symm

def givenText (m : Text × KjNode) : Text :=
  match m.2 with
  | .string s => s
  | _ => []

theorem registration_kept_iff (hc : CheckedRegistration fragment) {doc' : Document}
    (h : RegistrationResult c fragment properties doc doc') :
    RegistrationKept c fragment properties doc doc' ↔
      RegistrationCondition c fragment properties doc := by
  have hgiven (m : Text × KjNode) (hm : Given fragment ["type", "@type", "endpoint"] m) :
      doc'.lookup m.1 = some (.string (givenText m)) := by
    rcases given_value hc hm with ⟨htype, hvalue⟩ | ⟨e, rfl⟩
    · rw [h.type m htype, givenText, hvalue]
    · exact h.endpoint e hm.1
  have hfields := fields_kept_iff (F := Untouched fragment properties)
    (fun m hm => stray_untouched properties hm) hgiven h.field
  have hhead hhas hnot k hk := kept_iff_storable (h.head hhas hnot k hk)
  have hproperties hne k hk := kept_iff_storable (h.properties hne k hk)
  constructor
  · intro hkept
    obtain ⟨hsame, hstored⟩ := hfields.mp hkept.field
    refine ⟨fun m hm => ?_, fun s hs => hsame _ ⟨hs, "endpoint", by simp, rfl⟩, hstored,
      fun hhas hnot k v hk => ?_, fun hhas hnot => ?_, fun hne k v hk => ?_⟩
    · rw [hsame m (given_type_or_endpoint hm), givenText, type_value hc hm]
    · exact (hhead hhas hnot k hk).mp (hkept.head hhas hnot k hk) v
    · exact (array_written_iff _).mp ((h.tail hhas hnot).symm.trans (hkept.tail hhas hnot))
    · exact (hproperties hne k hk).mp (hkept.properties hne k hk) v
  · intro hcond
    have hsame (m : Text × KjNode) (hm : Given fragment ["type", "@type", "endpoint"] m) :
        doc.lookup m.1 = some (.string (givenText m)) := by
      rcases given_value hc hm with ⟨htype, hvalue⟩ | ⟨e, rfl⟩
      · rw [hcond.type m htype, givenText, hvalue]
      · exact hcond.endpoint e hm.1
    refine ⟨hfields.mpr ⟨hsame, hcond.field⟩, fun hhas hnot k hk => ?_, fun hhas hnot => ?_,
      fun hne k hk => ?_⟩
    · exact (hhead hhas hnot k hk).mpr fun v hv => hcond.head hhas hnot k v hk hv
    · exact (h.tail hhas hnot).trans ((array_written_iff _).mpr (hcond.tail hhas hnot))
    · exact (hproperties hne k hk).mpr fun v hv => hcond.properties hne k v hk hv

theorem patchRegistrationChecks_ok {registrationId : Text}
    (h : patchRegistrationChecks env registrationId payload (some doc) =
    .ok (fragment, properties, db)) : CheckedRegistration fragment ∧
        propertiesPatch env.toContexts (objectToKjTree doc) properties = .ok db := by
  unfold patchRegistrationChecks at h
  split at h
  · cases h
  obtain ⟨r, hr, h⟩ := bind_ok h
  obtain ⟨db', hdb', h⟩ := bind_ok h
  cases h
  exact ⟨pcheckRegistration_ok hr, hdb'⟩

theorem patch_registration_kept {overwritten : KjNode → Except CheckError KjNode}
    {registrationId : Text} (hdoc : RegistrationDocument doc)
    (h : patchRegistrationChecks env registrationId payload (some doc) =
    .ok (fragment, properties, db)) :
    (∃ doc', orionldPatchRegistration env overwritten registrationId payload (some doc) =
        .ok doc' ∧ RegistrationKept env.toContexts fragment properties doc doc') ↔
      RegistrationCondition env.toContexts fragment properties doc := by
  obtain ⟨hc, hproperties⟩ := patchRegistrationChecks_ok h
  obtain ⟨doc', hdoc', hresult⟩ := patchedRegistration_result env overwritten hdoc hc hproperties
  have hrun : orionldPatchRegistration env overwritten registrationId payload (some doc) =
      .ok doc' := by
    rw [orionldPatchRegistration, h]
    exact hdoc'
  rw [hrun, ← registration_kept_iff hc hresult]
  constructor
  · rintro ⟨doc'', hok, hkept⟩
    cases hok
    exact hkept
  · intro hkept
    exact ⟨doc', rfl, hkept⟩

/-- A PATCH that is not refused keeps what its fragment does not determine exactly under the
conditions. -/
theorem patch_keeps_fields_iff (env : RenderEnv) (strtold : Text → ℚ)
    (overwritten : KjNode → Except CheckError KjNode) (id : Text) (payload : KjNode)
    (doc : Document) :
    (∀ fragment db, SubscriptionDocument doc →
      patchSubscriptionChecks env id payload (some doc) = .ok (fragment, db) →
      ((∃ doc', orionldPatchSubscription env strtold overwritten id payload (some doc) = .ok doc' ∧
          SubscriptionKept fragment doc doc') ↔ SubscriptionCondition fragment doc)) ∧
    (∀ fragment properties db, RegistrationDocument doc →
      patchRegistrationChecks env id payload (some doc) = .ok (fragment, properties, db) →
      ((∃ doc', orionldPatchRegistration env overwritten id payload (some doc) = .ok doc' ∧
          RegistrationKept env.toContexts fragment properties doc doc') ↔
        RegistrationCondition env.toContexts fragment properties doc)) :=
  ⟨fun _ _ hdoc h => patch_subscription_kept hdoc h,
    fun _ _ _ hdoc h => patch_registration_kept hdoc h⟩

def sampleEnv : RenderEnv where
  toEnv := OrionldPostEntity.plainEnv
  kjFastRender := fun _ => []
  floatText := fun _ => []

def noOverwrite : KjNode → Except CheckError KjNode := fun _ => .error .fault

def storedSubscription (expiration : BsonValue) : Document :=
  [("_id".toList, .string "urn:S1".toList), ("expiration".toList, expiration),
    ("name".toList, .string "S1".toList)]

def renamed : Members := [("name".toList, .string "S2".toList)]

theorem storedSubscription_document {v : BsonValue} (hv : ∀ fields, v ≠ .object fields) :
    SubscriptionDocument (storedSubscription v) := by
  refine ⟨?_, fun w hw => ?_, fun w hw => ?_, fun fields h => ?_, fun fields h => ?_⟩
  · show (["_id", "expiration", "name"].map String.toList).Nodup
    decide
  · cases hw
  · cases hw
  · exact hv fields (Option.some.inj h)
  · cases h

theorem renamed_accepted (v : BsonValue) : patchSubscriptionChecks sampleEnv "urn:S1".toList
    (.object renamed) (some (storedSubscription v)) =
      .ok (renamed, objectToKjTree (storedSubscription v)) := by
  rfl

def storedRegistration : Document :=
  [("_id".toList, .string "urn:R1".toList), ("name".toList, .string "R1".toList),
    ("contextRegistration".toList, .array [.object
      [("providingApplication".toList, .string "http://a.org".toList)]])]

theorem storedRegistration_document : RegistrationDocument storedRegistration := by
  refine ⟨by decide +kernel, fun w hw => ?_, ⟨_, _, _, rfl, rfl⟩, fun n hn w hw => ?_,
    fun w hw => ?_⟩
  · cases hw
  · rcases mem_pair.mp hn with rfl | rfl
    · cases hw
    · cases hw
  · cases hw

theorem renamed_not_given {names : List String} (h : "name" ∉ names) (m : Text × KjNode) :
    ¬ Given renamed names m := by
  rintro ⟨hm, n, hn, hname⟩
  rw [mem_singleton.mp hm] at hname
  rw [← String.toList_inj.mp hname] at hn
  exact h hn

theorem renamed_not_has (h : name ≠ "name") : ¬ Has renamed name :=
  fun hhas => h (String.toList_inj.mp (mem_singleton.mp hhas))

theorem renamed_subscription_kept :
    SubscriptionCondition renamed (storedSubscription (.double 1)) := by
  refine ⟨fun m hm => absurd hm (renamed_not_given (by decide) m), fun k v hk hnames hv => ?_,
    fun hhas => absurd hhas (renamed_not_has (by decide)),
    fun hhas => absurd hhas (renamed_not_has (by decide))⟩
  have hmem := has_of_lookup hv
  simp only [storedSubscription, mem_cons, Prod.mk.injEq, not_mem_nil, or_false] at hmem
  rcases hmem with ⟨-, rfl⟩ | ⟨-, rfl⟩ | ⟨-, rfl⟩
  · trivial
  · trivial
  · trivial

theorem renamed_registration_kept :
    RegistrationCondition sampleEnv.toContexts renamed [] storedRegistration := by
  refine ⟨fun m hm => absurd hm (renamed_not_given (by decide) m), fun s hs => ?_,
    fun k v hk hv => ?_, fun hhas => absurd hhas (renamed_not_has (by decide)),
    fun hhas => absurd hhas (renamed_not_has (by decide)), fun h => absurd rfl h⟩
  · have hgiven : Given renamed ["endpoint"] ("endpoint".toList, .string s) :=
      ⟨hs, "endpoint", mem_singleton_self _, rfl⟩
    exact absurd hgiven (renamed_not_given (by decide) _)
  · have hmem := has_of_lookup hv
    simp only [storedRegistration, mem_cons, Prod.mk.injEq, not_mem_nil, or_false] at hmem
    rcases hmem with ⟨-, rfl⟩ | ⟨-, rfl⟩ | ⟨-, rfl⟩
    · trivial
    · trivial
    · exact ⟨⟨trivial, trivial⟩, trivial⟩

theorem rename_keeps_fields :
    (∃ doc', orionldPatchSubscription sampleEnv (fun _ => 0) noOverwrite "urn:S1".toList
        (.object renamed) (some (storedSubscription (.double 1))) = .ok doc' ∧
      SubscriptionKept renamed (storedSubscription (.double 1)) doc') ∧
    ∃ doc', orionldPatchRegistration sampleEnv noOverwrite "urn:R1".toList (.object renamed)
        (some storedRegistration) = .ok doc' ∧
      RegistrationKept sampleEnv.toContexts renamed [] storedRegistration doc' :=
  ⟨((patch_keeps_fields_iff sampleEnv (fun _ => 0) noOverwrite "urn:S1".toList (.object renamed)
      (storedSubscription (.double 1))).1 renamed _ (storedSubscription_document nofun)
        (renamed_accepted _)).mpr renamed_subscription_kept,
    ((patch_keeps_fields_iff sampleEnv (fun _ => 0) noOverwrite "urn:R1".toList (.object renamed)
      storedRegistration).2 renamed [] _ storedRegistration_document
        (by rfl)).mpr renamed_registration_kept⟩

def typed : Members := [("type".toList, .string "Subscription".toList)]

/-- The expiration is a 64-bit integer; and a type becomes a field. -/
theorem expiration_lost_and_type_added :
    SubscriptionDocument (storedSubscription (.int64 1861869600)) ∧
    patchSubscriptionChecks sampleEnv "urn:S1".toList (.object renamed)
      (some (storedSubscription (.int64 1861869600))) =
        .ok (renamed, objectToKjTree (storedSubscription (.int64 1861869600))) ∧
    (¬ ∃ doc', orionldPatchSubscription sampleEnv (fun _ => 0) noOverwrite "urn:S1".toList
        (.object renamed) (some (storedSubscription (.int64 1861869600))) = .ok doc' ∧
      SubscriptionKept renamed (storedSubscription (.int64 1861869600)) doc') ∧
    SubscriptionDocument (storedSubscription (.double 1)) ∧
    patchSubscriptionChecks sampleEnv "urn:S1".toList (.object typed)
      (some (storedSubscription (.double 1))) =
        .ok (typed, objectToKjTree (storedSubscription (.double 1))) ∧
    ¬ ∃ doc', orionldPatchSubscription sampleEnv (fun _ => 0) noOverwrite "urn:S1".toList
        (.object typed) (some (storedSubscription (.double 1))) = .ok doc' ∧
      SubscriptionKept typed (storedSubscription (.double 1)) doc' := by
  have hdoc (v : BsonValue) (hv : ∀ fields, v ≠ .object fields) := storedSubscription_document hv
  have htyped : patchSubscriptionChecks sampleEnv "urn:S1".toList (.object typed)
      (some (storedSubscription (.double 1))) =
        .ok (typed, objectToKjTree (storedSubscription (.double 1))) := by rfl
  refine ⟨hdoc _ nofun, renamed_accepted _, fun h => ?_, hdoc _ nofun, htyped, fun h => ?_⟩
  · have hcond :=
      (patch_subscription_kept (hdoc (.int64 1861869600) nofun) (renamed_accepted _)).mp h
    exact hcond.field "expiration".toList (.int64 1861869600) (toList_ne (by decide))
      (by decide +kernel) rfl
  · have hcond := (patch_subscription_kept (hdoc (.double 1) nofun) htyped).mp h
    have htype := hcond.type _ ⟨mem_singleton_self _, "type", by simp, rfl⟩
    cases htype

end PatchRegistrationKept
