import OrionLd.SubscriptionShown

/-! A subscription that is accepted, and what is shown of it: when the one is the other.
Each field is shown from the slot that it was read into, and q and geoQ can fail to be shown,
and the whole subscription with them. -/
namespace SubscriptionRoundTrip

open KjTree OrionldContextItem KjTreeToContextAttribute KjTreeToEntIdVector KjTreeToSubscription
open KjTreeFromSubscription SubscriptionRead SubscriptionShown Fallible SameJson List Option
open RegistrationRead (Slot)
open RegistrationShown (SameDate sameDate_string)
open KjTreeToRegistration (timeOf)
open RegistrationDocument

variable {env : ShownEnv}

def shownField (env : ShownEnv) (s : Subscription) (q geoQ : Option KjNode) :
    Field → Option KjNode
  | .name => shownText s.name
  | .description => shownText s.description
  | .entities => shownArray (s.entities.map (shownEntity env))
  | .watchedAttributes => shownArray (s.watchedAttributes.map (shownName env))
  | .timeInterval => shownWhen (s.timeInterval ≠ -1 ∧ s.timeInterval ≠ 0) (.int s.timeInterval)
  | .q => q
  | .geoQ => geoQ
  | .csf => shownText s.csf
  | .isActive => shownWhen (s.status ≠ "active".toList) (.bool false)
  | .notification => some (.object (shownMembers (notificationParts env s)))
  | .expires => shownWhen (s.expires ≠ noExpiration) (shownDate env s.expires)
  | .throttling => shownWhen (s.throttling ≠ 0) (.float s.throttling)

theorem mem_field {req : Request} {s : StoredSubscription} {q geoQ : Option KjNode} {f : Field}
    {v : KjNode} :
    (f.text.toList, v) ∈ shownMembers (subscriptionParts env req s q geoQ) ↔
      some v = shownField env s.toSubscription q geoQ f := by
  rw [part_of_name]
  cases f <;> simp [subscriptionParts, Field.text, shownField]

theorem isActive_shown_iff {b : Bool} :
    (∃ v, some v = shownWhen ((match some b with
        | none => ([] : Text)
        | some true => "active".toList
        | some false => "paused".toList) ≠ "active".toList) (.bool false) ∧
      Same (.bool b) v) ↔ KjNode.bool b = .bool false := by
  simp only [shownWhen_iff]
  cases b with
  | true =>
    constructor
    · rintro ⟨v, ⟨hne, -⟩, -⟩
      exact absurd hne (by decide)
    · intro h
      cases h
  | false =>
    constructor
    · intro _
      rfl
    · intro _
      exact ⟨_, ⟨by decide, rfl⟩, Same.refl _⟩

variable {node : KjNode}

theorem expires_shown_iff {time : ℚ} (h : TimeOf env.toEnv node time) :
    (∃ v, some v = shownWhen (time ≠ noExpiration) (shownDate env time) ∧
      SameDate env.toEnv node v) ↔ FieldKept env .expires node := by
  obtain ⟨s, rfl, rfl, -⟩ := h
  simp only [shownWhen_iff, decide_eq_true_eq, FieldKept, KjNode.string.injEq, forall_eq']
  constructor
  · rintro ⟨v, ⟨hne, rfl⟩, hsame⟩
    exact ⟨hne, (sameDate_string.mp hsame).symm⟩
  · rintro ⟨hne, hkept⟩
    have hsame : SameDate env.toDateEnv.toEnv (.string s) (shownDate env (timeOf env.toEnv s)) :=
      sameDate_string.mpr hkept.symm
    exact ⟨_, ⟨hne, rfl⟩, hsame⟩

theorem same_float_iff {x : ℚ} : Same node (.float x) ↔ numberOf node = some x := by
  constructor
  · intro h
    cases h with
    | number hx hy =>
      cases hy
      exact hx
  · intro h
    exact .number h rfl

theorem throttling_shown_iff {x : ℚ} (h : throttlingNumber env.toSubscriptionEnv node = .ok x) :
    (∃ v, some v = shownWhen (x ≠ 0) (.float x) ∧ Same node v) ↔
      FieldKept env .throttling node := by
  simp only [shownWhen_iff, decide_eq_true_eq, FieldKept, h, Except.ok.injEq, exists_eq_left']
  constructor
  · rintro ⟨v, ⟨hne, rfl⟩, hsame⟩
    exact ⟨hne, same_float_iff.mp hsame⟩
  · rintro ⟨hne, hnumber⟩
    exact ⟨_, ⟨hne, rfl⟩, same_float_iff.mpr hnumber⟩

theorem field_shown_iff {p : Post} {s : SubscriptionFields} {n : Notification}
    (hread : ReadFrom env.toSubscriptionEnv p s n) {q geoQ : Option KjNode}
    (hgeoQ : shownGeoQ env (s.geoQ.getD ⟨[], [], [], []⟩) = .ok geoQ) {f : Field} (hq : f ≠ .q)
    (hm : (f.text.toList, node) ∈ p.members) :
    (∃ v, some v = shownField env (subscriptionWith (subscriptionId p) s n) q geoQ f ∧
      SameValue env.toEnv f node v) ↔ FieldKept env f node := by
  have hf := hread.fields f
  cases f with
  | name | description | csf =>
    obtain ⟨a, ha, hof⟩ := Slot.of_mem hf hm
    simp only [shownField, subscriptionWith, ha, getD_some]
    exact shownText_iff hof
  | entities =>
    obtain ⟨a, ha, hof⟩ := Slot.of_mem hf hm
    simp only [shownField, subscriptionWith, ha, getD_some]
    exact entities_shown_iff hof
  | watchedAttributes =>
    obtain ⟨a, ha, hof⟩ := Slot.of_mem hf hm
    simp only [shownField, subscriptionWith, ha, getD_some]
    exact watched_shown_iff hof
  | timeInterval => exact absurd (mem_map_of_mem hm) hf
  | q => exact absurd rfl hq
  | geoQ =>
    obtain ⟨a, ha, hof⟩ := Slot.of_mem hf hm
    rw [ha, getD_some] at hgeoQ
    have hshown := geoQ_shown_iff hof
    simp only [hgeoQ, Except.ok.injEq] at hshown
    exact Iff.trans (exists_congr fun v => and_congr_left fun _ => eq_comm) hshown
  | isActive =>
    obtain ⟨b, hb, rfl⟩ := Slot.of_mem hf hm
    simp only [shownField, subscriptionWith, hb]
    exact isActive_shown_iff
  | notification =>
    obtain ⟨a, ha, hof⟩ := Slot.of_mem hf hm
    obtain rfl := some.inj (hread.notification.symm.trans ha)
    simp only [shownField, some.injEq, exists_eq_left]
    exact notification_shown_iff hof
  | expires =>
    obtain ⟨a, ha, hof⟩ := Slot.of_mem hf hm
    simp only [shownField, subscriptionWith, ha, getD_some]
    exact expires_shown_iff hof
  | throttling =>
    obtain ⟨a, ha, hof⟩ := Slot.of_mem hf hm
    simp only [shownField, subscriptionWith, ha, getD_some]
    exact throttling_shown_iff hof
variable {p : Post} {s : SubscriptionFields} {n : Notification}

theorem shownGeoQ_of_kept (hread : ReadFrom env.toSubscriptionEnv p s n) (hkept : Kept env p) :
    ∃ geoQ, shownGeoQ env (s.geoQ.getD ⟨[], [], [], []⟩) = .ok geoQ := by
  cases hs : s.geoQ with
  | none => exact ⟨none, rfl⟩
  | some g =>
    have hf := hread.fields .geoQ
    rw [FieldRead, hs] at hf
    obtain ⟨node, hm, hof⟩ := mem_of_slot hf rfl
    have hnode : FieldKept env .geoQ node := hkept _ hm _ (text_fieldOf .geoQ)
    obtain ⟨v, hv, -⟩ := (geoQ_shown_iff hof).mpr hnode
    exact ⟨some v, hv⟩

theorem shownQ_of_kept (hread : ReadFrom env.toSubscriptionEnv p s n) (hkept : Kept env p) :
    ∃ q, shownQ env (s.q.getD []) = .ok q := by
  cases hs : s.q with
  | none => exact ⟨none, rfl⟩
  | some text =>
    have hf := hread.fields .q
    rw [FieldRead, hs] at hf
    obtain ⟨node, hm, q, rfl, htext⟩ := mem_of_slot hf rfl
    have hnode : FieldKept env .q (.string q) := hkept _ hm _ (text_fieldOf .q)
    exact hnode q text rfl htext

theorem qFits_of_shown (hread : ReadFrom env.toSubscriptionEnv p s n) {shown : Option KjNode}
    (h : shownQ env (s.q.getD []) = .ok shown) (hm : (Field.q.text.toList, node) ∈ p.members) :
    QFits env node := by
  obtain ⟨text, hs, q, rfl, htext⟩ := Slot.of_mem (hread.fields .q) hm
  intro q' text' hq' htext'
  obtain rfl := KjNode.string.inj hq'
  obtain rfl := Except.ok.inj (htext.symm.trans htext')
  rw [hs, getD_some] at h
  exact ⟨shown, h⟩

theorem kjTreeFromSubscription_ok {req : Request} {s : StoredSubscription} {tree : Members} :
    kjTreeFromSubscription env req s = .ok tree ↔ ∃ q geoQ, shownQ env s.q = .ok q ∧
      shownGeoQ env s.geoQ = .ok geoQ ∧
        tree = shownMembers (subscriptionParts env req s q geoQ) := by
  constructor
  · intro h
    obtain ⟨q, hq, h⟩ := bind_ok h
    obtain ⟨geoQ, hgeoQ, h⟩ := bind_ok h
    exact ⟨q, geoQ, hq, hgeoQ, (Except.ok.inj h).symm⟩
  · rintro ⟨q, geoQ, hq, hgeoQ, rfl⟩
    rw [kjTreeFromSubscription, hq, ok_bind, hgeoQ, ok_bind]

theorem kept_of_shown {req : Request} {sub : Subscription}
    (h : kjTreeToSubscription env.toSubscriptionEnv p = .ok sub) {createdAt modifiedAt : ℚ}
    {ldContext : Text} (hshown : ShownAs env.toEnv p
    (kjTreeFromSubscription env req ⟨sub, createdAt, modifiedAt, ldContext⟩)) : Kept env p := by
  obtain ⟨s, n, hread, rfl⟩ := subscription_read h
  obtain ⟨tree, htree, hshown⟩ := hshown
  obtain ⟨q, geoQ, hq, hgeoQ, rfl⟩ := kjTreeFromSubscription_ok.mp htree
  rintro ⟨name, node⟩ hm f hf
  obtain rfl := fieldOf_text hf
  by_cases hfq : f = .q
  · subst hfq
    exact qFits_of_shown hread hq hm
  · obtain ⟨v, hv, hsame⟩ := hshown.members _ hm f hf hfq
    exact (field_shown_iff hread hgeoQ hfq hm).mp ⟨v, mem_field.mp hv, hsame⟩

theorem shown_of_kept (req : Request) {sub : Subscription}
    (h : kjTreeToSubscription env.toSubscriptionEnv p = .ok sub) (createdAt modifiedAt : ℚ)
    (ldContext : Text) (hkept : Kept env p) : ShownAs env.toEnv p
      (kjTreeFromSubscription env req ⟨sub, createdAt, modifiedAt, ldContext⟩) := by
  obtain ⟨s, n, hread, rfl⟩ := subscription_read h
  obtain ⟨q, hq⟩ := shownQ_of_kept hread hkept
  obtain ⟨geoQ, hgeoQ⟩ := shownGeoQ_of_kept hread hkept
  refine ⟨_, kjTreeFromSubscription_ok.mpr ⟨q, geoQ, hq, hgeoQ, rfl⟩, ?_, ?_⟩
  · intro id hid
    have hsame : subscriptionId p = id := by
      rw [subscriptionId, hid]
      rfl
    refine part_of_name.mpr ?_
    rw [← hsame]
    exact mem_cons_self
  · rintro ⟨name, node⟩ hm f hf hfq
    obtain rfl := fieldOf_text hf
    obtain ⟨v, hv, hsame⟩ := (field_shown_iff hread hgeoQ hfq hm).mpr (hkept _ hm f hf)
    exact ⟨v, mem_field.mpr hv, hsame⟩

/-- A subscription that is accepted is shown as it was created if and only if its payload
meets the condition, whatever dates and context are stored with it. -/
theorem subscription_shown_as_created_iff (env : ShownEnv) (req : Request) {p : Post}
    {sub : Subscription} (h : kjTreeToSubscription env.toSubscriptionEnv p = .ok sub)
    (createdAt modifiedAt : ℚ) (ldContext : Text) :
    ShownAs env.toEnv p (kjTreeFromSubscription env req ⟨sub, createdAt, modifiedAt, ldContext⟩) ↔
      Kept env p := by
  constructor
  · intro hshown
    exact kept_of_shown h hshown
  · intro hkept
    exact shown_of_kept req h createdAt modifiedAt ldContext hkept

def sampleEnv : ShownEnv where
  core := []
  context := []
  defaultUrl := "https://uri.etsi.org/ngsi-ld/default-context/".toList
  parse8601Time := fun _ => none
  valueAsInteger := fun _ => 0
  integerAsDouble := fun i => i
  requestTime := 0
  kjFastRender := fun
    | .array [.int 1, .int 2] => "[1,2]".toList
    | .array [.array [.int 1, .int 2], .array [.int 3, .int 4]] => "[[1,2],[3,4]]".toList
    | _ => []
  floatText := fun _ => []
  str2double := fun _ => none
  regcomp := fun _ => true
  kFloatTrim := fun s => s
  stack := List.replicate 512 'x'
  strftime := fun _ => []
  kjParse := fun s => if s = "[1,2]".toList then some (.array [.int 1, .int 2]) else none

def sampleRequest : Request := ⟨false, false, 0, []⟩

def sampleNotification : KjNode :=
  .object [("attributes".toList, .array [.string "speed".toList]),
    ("endpoint".toList, .object [("uri".toList, .string "http://cars".toList),
      ("receiverInfo".toList, .array [.object [("key".toList, .string "k".toList),
        ("value".toList, .string "v".toList)]])])]

def samplePost (geometry : String) (coordinates : KjNode) : Post where
  payloadId := some "urn:s1".toList
  payloadType := some "Subscription".toList
  members := [("entities".toList, .array [.object [("type".toList, .string "Car".toList)]]),
    ("geoQ".toList, .object [("geometry".toList, .string geometry.toList),
      ("coordinates".toList, coordinates),
      ("georel".toList, .string "near;maxDistance==1".toList)]),
    ("isActive".toList, .bool false), ("throttling".toList, .int 5),
    ("notification".toList, sampleNotification)]
  randomId := []

def sampleSubscription (geometry coords : String) : Subscription where
  id := "urn:s1".toList
  name := []
  description := []
  descriptionProvided := false
  entities := [⟨[], [], "https://uri.etsi.org/ngsi-ld/default-context/Car".toList⟩]
  watchedAttributes := []
  q := []
  geoQ := ⟨geometry.toList, coords.toList, "near;maxDistance==1".toList, []⟩
  csf := []
  status := "paused".toList
  notification := ⟨["https://uri.etsi.org/ngsi-ld/default-context/speed".toList],
    ⟨"http://cars".toList, .json, [("k".toList, "v".toList)], []⟩, .ngsiLdV1Normalized⟩
  expires := noExpiration
  throttling := 5
  timeInterval := -1
  timesSent := 0
  lastNotification := 0
  lastFailure := 0
  lastSuccess := 0

theorem point_accepted : kjTreeToSubscription sampleEnv.toSubscriptionEnv
    (samplePost "Point" (.array [.int 1, .int 2])) = .ok (sampleSubscription "Point" "1,2") := by
  rfl

theorem sample_entity_kept :
    EntityKept sampleEnv.toContexts (.object [("type".toList, .string "Car".toList)]) := by
  refine ⟨_, rfl, by simp [RegistrationRead.PlainName], by simp [stringMember], ?_⟩
  intro s hs
  obtain rfl : s = "Car".toList := by simpa [stringMember] using hs
  decide +kernel

theorem sample_notification_kept (ms : Members) (h : sampleNotification = .object ms) :
    NotificationKept sampleEnv.toContexts ms := by
  obtain rfl := KjNode.object.inj h
  constructor
  · intro items hitems
    obtain rfl : items = [.string "speed".toList] := by simpa using hitems
    refine ⟨by simp, ?_⟩
    intro item hitem s hs
    obtain rfl : item = .string "speed".toList := by simpa using hitem
    obtain rfl := KjNode.string.inj hs
    decide +kernel
  · intro es hes
    obtain rfl : es = _ := by simpa using hes
    constructor
    · intro node hnode
      obtain rfl : node = _ := by simpa using hnode
      refine ⟨by simp, ?_⟩
      intro key value value' hpair hpair'
      have hof : List.Forall₂ PairOf [KjNode.object [("key".toList, .string "k".toList),
          ("value".toList, .string "v".toList)]] [("k".toList, "v".toList)] :=
        .cons ⟨_, rfl, List.Perm.refl _⟩ .nil
      have h₁ := mem_singleton.mp ((hasPair_given hof _).mp hpair)
      have h₂ := mem_singleton.mp ((hasPair_given hof _).mp hpair')
      rw [(Prod.mk.inj h₁).2, (Prod.mk.inj h₂).2]
    · simp

theorem point_shown_as_created : ShownAs sampleEnv.toEnv
    (samplePost "Point" (.array [.int 1, .int 2]))
    (kjTreeFromSubscription sampleEnv sampleRequest
      ⟨sampleSubscription "Point" "1,2", 0, 0, []⟩) := by
  apply (subscription_shown_as_created_iff sampleEnv sampleRequest point_accepted 0 0 []).mpr
  intro m hm f hf
  obtain rfl | rfl | rfl | rfl | rfl : m = _ ∨ m = _ ∨ m = _ ∨ m = _ ∨ m = _ := by
    simpa [samplePost] using hm
  · obtain rfl : Field.entities = f := some.inj hf
    intro items hitems item hitem
    obtain rfl := KjNode.array.inj hitems
    obtain rfl := mem_singleton.mp hitem
    exact sample_entity_kept
  · obtain rfl : Field.geoQ = f := some.inj hf
    intro ms hms
    obtain rfl := KjNode.object.inj hms
    refine ⟨by simp [stringMember], ?_, by simp [stringMember]⟩
    intro geometry node hgeometry hnode
    obtain rfl : geometry = "Point".toList := by simpa [stringMember] using hgeometry
    obtain rfl : node = .array [.int 1, .int 2] := by simpa using hnode
    exact ⟨_, rfl, Same.refl _⟩
  · obtain rfl : Field.isActive = f := some.inj hf
    exact rfl
  · obtain rfl : Field.throttling = f := some.inj hf
    exact ⟨5, rfl, by norm_num, rfl⟩
  · obtain rfl : Field.notification = f := some.inj hf
    exact sample_notification_kept

theorem line_accepted : kjTreeToSubscription sampleEnv.toSubscriptionEnv
    (samplePost "LineString" (.array [.array [.int 1, .int 2], .array [.int 3, .int 4]])) =
      .ok (sampleSubscription "LineString" "[1,2],[3,4]") := by
  rfl

theorem line_shown_as_string : ∃ p sub,
    kjTreeToSubscription sampleEnv.toSubscriptionEnv p = .ok sub ∧
      ¬ ShownAs sampleEnv.toEnv p
        (kjTreeFromSubscription sampleEnv sampleRequest ⟨sub, 0, 0, []⟩) := by
  refine ⟨_, _, line_accepted, ?_⟩
  intro hshown
  have hkept : FieldKept sampleEnv .geoQ _ :=
    kept_of_shown line_accepted hshown _ (mem_cons_of_mem _ mem_cons_self) .geoQ rfl
  have hcoordinates := (hkept _ rfl).coordinates "LineString".toList _ mem_cons_self
    (mem_cons_of_mem _ mem_cons_self)
  obtain ⟨s, hs⟩ := hcoordinates
  cases hs

end SubscriptionRoundTrip
