import OrionLd.RegistrationShown
import Mathlib.Data.Finset.Card

/-! A registration that is stored, and what is shown of it: when the one is the other. A field is
shown from the slot it was read into. -/
namespace RegistrationRoundTrip

open KjTree OrionldContextItem KjTreeToContextAttribute KjTreeToEntIdVector KjTreeToRegistration
open OrionldPostRegistrations RegistrationDocument RegistrationRead RegistrationShown
open MongoCppLegacyCodec Fallible SameJson List Option
open PcheckGeoQ (CheckError)

theorem values_of_covering {α : Type} [DecidableEq α] {xs : List α} {g : α → α}
    (h : ∀ x ∈ xs, ∃ y ∈ xs, g y = x) : ∀ y ∈ xs, g y ∈ xs := by
  have hsub : xs.toFinset ⊆ xs.toFinset.image g := by
    intro x hx
    obtain ⟨y, hy, hyx⟩ := h x (mem_toFinset.mp hx)
    exact Finset.mem_image.mpr ⟨y, mem_toFinset.mpr hy, hyx⟩
  have hsame := Finset.eq_of_subset_of_card_le hsub Finset.card_image_le
  intro y hy
  have hmem : g y ∈ xs.toFinset.image g := Finset.mem_image_of_mem g (mem_toFinset.mpr hy)
  rw [← hsame] at hmem
  exact mem_toFinset.mp hmem

variable {env : DateEnv}
variable {n : Text} {ms : Members} {c : Contexts}

theorem mem_stored {xs : Members} {w : KjNode} : (n, w) ∈ objectToKjTree (kjTreeToBsonObject xs) ↔
      ∃ x, (n, x) ∈ xs ∧ kept x = some w := by
  induction xs with
  | nil =>
    constructor
    · intro h
      cases h
    · rintro ⟨x, hx, -⟩
      cases hx
  | cons m xs ih =>
    obtain ⟨name, node⟩ := m
    rw [object_cons, mem_append, ih]
    constructor
    · rintro (h | ⟨x, hx, hkept⟩)
      · obtain ⟨w', hkept, hpair⟩ := map_eq_some_iff.mp (mem_toList.mp h)
        cases hpair
        exact ⟨node, mem_cons_self, hkept⟩
      · exact ⟨x, mem_cons_of_mem _ hx, hkept⟩
    · rintro ⟨x, hx, hkept⟩
      rcases mem_cons.mp hx with hx | hx
      · cases hx
        exact .inl (by simp [hkept])
      · exact .inr ⟨x, hx, hkept⟩

theorem mem_shownExtras {xs : Members} {w : KjNode} : (n, w) ∈ shownExtras env xs ↔ ∃ m ∈ xs,
      orionldContextItemAliasLookup env.toContexts m.1 = n ∧ kept m.2 = some w := by
  unfold shownExtras
  rw [List.mem_map]
  constructor
  · rintro ⟨⟨n', w'⟩, hm, hpair⟩
    obtain ⟨hname, rfl⟩ := Prod.mk.inj hpair
    obtain ⟨x, hx, hkept⟩ := mem_stored.mp hm
    exact ⟨(n', x), hx, hname, hkept⟩
  · rintro ⟨⟨n', x⟩, hx, rfl, hkept⟩
    exact ⟨(n', w), mem_stored.mpr ⟨x, hx, hkept⟩, rfl⟩

def propertyNames (ms : Members) : List Text := (ms.filter isProperty).map Prod.fst

def shownExtraName (c : Contexts) (name : Text) : Text :=
  orionldContextItemAliasLookup c (orionldAttributeExpand c name).1

theorem mem_propertyNames {m : Text × KjNode} (hm : m ∈ ms) (h : isProperty m = true) :
    m.1 ∈ propertyNames ms :=
  mem_map_of_mem (mem_filter.mpr ⟨hm, h⟩)

theorem property_of_name (h : n ∈ propertyNames ms) :
    memberKind n = .property ∧ n ∈ ms.map Prod.fst := by
  obtain ⟨m, hm, rfl⟩ := mem_map.mp h
  obtain ⟨hm, hproperty⟩ := mem_filter.mp hm
  exact ⟨of_decide_eq_true hproperty, mem_map_of_mem hm⟩

theorem mem_extras {m' : Text × KjNode} (h : m' ∈ extras c ms) : ∃ m ∈ ms, isProperty m = true ∧
      m' = ((orionldAttributeExpand c m.1).1, m.2) := by
  obtain ⟨m, hm, rfl⟩ := mem_map.mp h
  obtain ⟨hm, hproperty⟩ := mem_filter.mp hm
  exact ⟨m, hm, hproperty, rfl⟩

theorem extra_name_given (hall : ∀ m ∈ ms, isProperty m = true →
    ∃ m' ∈ extras c ms, orionldContextItemAliasLookup c m'.1 = m.1) {m' : Text × KjNode}
    (h : m' ∈ extras c ms) : orionldContextItemAliasLookup c m'.1 ∈ propertyNames ms := by
  have hcover : ∀ n ∈ propertyNames ms, ∃ n' ∈ propertyNames ms, shownExtraName c n' = n := by
    intro n hn
    obtain ⟨m, hm, rfl⟩ := mem_map.mp hn
    obtain ⟨hm, hproperty⟩ := mem_filter.mp hm
    obtain ⟨x, hx, hname⟩ := hall m hm hproperty
    obtain ⟨m₀, hm₀, hproperty₀, rfl⟩ := mem_extras hx
    exact ⟨m₀.1, mem_propertyNames hm₀ hproperty₀, hname⟩
  obtain ⟨m₀, hm₀, hproperty₀, rfl⟩ := mem_extras h
  exact values_of_covering hcover m₀.1 (mem_propertyNames hm₀ hproperty₀)

theorem extras_kept
    (h : ∀ m ∈ ms, isProperty m = true → shownExtraName c m.1 = m.1 ∧ Lossless m.2) :
    ∀ m ∈ ms, isProperty m = true →
      ∃ m' ∈ extras c ms, orionldContextItemAliasLookup c m'.1 = m.1 ∧
        ∃ left, kept m'.2 = some left ∧ Same m.2 left := by
  intro m hm hproperty
  obtain ⟨hname, hlossless⟩ := h m hm hproperty
  have hmem : ((orionldAttributeExpand c m.1).1, m.2) ∈ extras c ms :=
    mem_map.mpr ⟨m, mem_filter.mpr ⟨hm, hproperty⟩, rfl⟩
  exact ⟨_, hmem, hname, (kept_same_iff m.2).mpr hlossless⟩

variable {r : Registration}
variable {node : KjNode} {f : Field}

theorem string_shown_iff {s : Text} (h : node = .string s) :
    (∃ v, (filled s).map KjNode.string = some v ∧ Same node v) ↔ node ≠ .string [] := by
  subst h
  unfold filled
  by_cases hs : s = []
  · simp [hs]
  rw [if_neg hs]
  constructor
  · rintro - hempty
    exact hs (KjNode.string.inj hempty)
  · intro _
    exact ⟨.string s, rfl, Same.refl _⟩

theorem expires_shown_iff (h : FieldRead env.toEnv r .expires (some node)) :
    (∃ v, shownField env r .expires = some v ∧ SameDate env.toEnv node v) ↔
      FieldKept env .expires node := by
  obtain ⟨s, rfl, htime, hne⟩ := h
  have hshown : shownField env r .expires =
      some (.string (numberToDate env (timeOf env.toEnv s))) := by
    rw [shownField, if_pos hne, htime]
  simp only [hshown, some.injEq, exists_eq_left', sameDate_string, FieldKept,
    KjNode.string.injEq, forall_eq', DateKept]
  exact eq_comm

theorem interval_field_iff {i : TimeInterval}
    (h : ∃ ms, node = .object ms ∧ i = (kjTreeToTimeInterval env.toEnv ms ⟨0, 0⟩).1)
    (hfield : f = .observationInterval ∨ f = .managementInterval) :
    (∃ v, shownIntervalValue env i = some v ∧ SameInterval env.toEnv node v) ↔
      FieldKept env f node := by
  obtain ⟨ms, rfl, rfl⟩ := h
  rw [interval_shown_iff]
  rcases hfield with rfl | rfl <;> simp [FieldKept]

theorem geo_field_iff {l : GeoLocation} (h : ∃ ms, node = .object ms ∧
    l = (kjTreeToGeoLocation f.text.toList ms ⟨none, none⟩).1)
    (hfield : f = .location ∨ f = .observationSpace ∨ f = .operationSpace) :
    (∃ v, shownGeoValue l = some v ∧ Same node v) ↔ FieldKept env f node := by
  obtain ⟨ms, rfl, rfl⟩ := h
  rw [geo_shown_iff]
  rcases hfield with rfl | rfl | rfl <;> simp [FieldKept]

theorem field_shown_iff (f : Field) (h : FieldRead env.toEnv r f (some node)) :
    (∃ v, shownField env r f = some v ∧ SameValue env.toEnv f.text.toList node v) ↔
      FieldKept env f node := by
  unfold SameValue
  cases f with
  | name | description => exact string_shown_iff h
  | expires => exact expires_shown_iff h
  | observationInterval => exact interval_field_iff h (.inl rfl)
  | managementInterval => exact interval_field_iff h (.inr rfl)
  | location => exact geo_field_iff h (.inl rfl)
  | observationSpace => exact geo_field_iff h (.inr (.inl rfl))
  | operationSpace => exact geo_field_iff h (.inr (.inr rfl))
  | endpoint =>
    obtain rfl : node = .string r.url := h
    exact iff_of_true ⟨_, rfl, Same.refl _⟩ trivial
  | information =>
    simp only [shownField, some.injEq, exists_eq_left']
    exact information_shown_iff h

theorem field_not_shown (hne : f ≠ .endpoint ∧ f ≠ .information)
    (h : FieldRead env.toEnv r f none) :
    shownField env r f = none := by
  have hinterval : shownIntervalValue env ⟨0, 0⟩ = none := by
    simp [shownIntervalValue]
  cases f with
  | name =>
    have hread : r.name = [] := h
    simp [shownField, filled, hread]
  | description =>
    have hread : r.description = [] := h
    simp [shownField, filled, hread]
  | expires =>
    have hread : r.expires = -1 := h
    simp [shownField, hread]
  | observationInterval =>
    have hread : r.observationInterval = ⟨0, 0⟩ := h
    rw [shownField, hread, hinterval]
  | managementInterval =>
    have hread : r.managementInterval = ⟨0, 0⟩ := h
    rw [shownField, hread, hinterval]
  | location =>
    have hread : r.location = ⟨none, none⟩ := h
    rw [shownField, hread]
    rfl
  | observationSpace =>
    have hread : r.observationSpace = ⟨none, none⟩ := h
    rw [shownField, hread]
    rfl
  | operationSpace =>
    have hread : r.operationSpace = ⟨none, none⟩ := h
    rw [shownField, hread]
    rfl
  | endpoint => exact absurd rfl hne.1
  | information => exact absurd rfl hne.2

variable {sysAttrs : Bool} {p : Post}

theorem stored_read {db : Database} {status : ℕ} {tree : Option CheckError}
    (h : orionldPostRegistrations env.toEnv db p = .answered status tree (some r)) :
    p.payloadType = some "ContextSourceRegistration".toList ∧
      ∃ s, s.registration = r ∧ LoopRead env.toEnv (registrationId p) s p.members := by
  unfold orionldPostRegistrations at h
  split at h
  · cases h
  split at h
  · rename_i e _
    cases e <;> cases h
  rename_i s hread
  have hstored : s.registration = r := by
    have hinserted := (Outcome.answered.inj h).2.2
    split at hinserted
    · exact some.inj hinserted
    · cases hinserted
  refine ⟨?_, s, hstored, registration_read hread⟩
  obtain ⟨u, -, hread⟩ := bind_ok hread
  obtain ⟨u', htype, -⟩ := bind_ok hread
  unfold typeCheck at htype
  split at htype
  · cases htype
  split at htype
  · rename_i type hpayload hname
    rw [hpayload, hname]
  · cases htype

theorem shown_field_given (hread : ∀ f, FieldRead env.toEnv r f
    (RegistrationRead.given p.members f)) (hkept : Kept env sysAttrs p) {v : KjNode}
    (h : shownField env r f = some v) : f.text.toList ∈ p.members.map Prod.fst := by
  have hf := hread f
  cases hgiven : RegistrationRead.given p.members f with
  | some node => exact mem_map_of_mem (mem_of_given hgiven)
  | none =>
    rw [hgiven] at hf
    have hnot := given_none_iff.mp hgiven
    have hne : f ≠ .endpoint ∧ f ≠ .information := by
      constructor
      · rintro rfl
        exact hnot hkept.endpoint
      · rintro rfl
        exact hnot hkept.information
    rw [field_not_shown hne hf] at h
    cases h

theorem memberKind_special : memberKind "id".toList = .property ∧
    memberKind "type".toList = .property := by
  exact ⟨rfl, rfl⟩

variable {m : Text × KjNode} {s : Reading}

theorem fieldOf_kind (h : fieldOf m = some f) : memberKind m.1 = .field f := by
  rw [fieldOf_iff.mp h, memberKind_text]

theorem sameValue_property {name : Text} (h : memberKind name = .property) :
    SameValue env.toEnv name = Same := by
  unfold SameValue
  rw [h]

theorem sameValue_readOnly {name : Text} (h : memberKind name = .readOnly) :
    SameValue env.toEnv name = SameDate env.toEnv := by
  unfold SameValue
  rw [h]

theorem property_shown_iff (hread : LoopRead env.toEnv (registrationId p) s p.members)
    (hm : m ∈ p.members) (h : isProperty m = true) :
    (∃ v, (m.1, v) ∈ shown env sysAttrs s.registration ∧ SameValue env.toEnv m.1 m.2 v) ↔
      ∃ m' ∈ extras env.toContexts p.members,
        orionldContextItemAliasLookup env.toContexts m'.1 = m.1 ∧
          ∃ left, kept m'.2 = some left ∧ Same m.2 left := by
  have hkind : memberKind m.1 = .property := of_decide_eq_true h
  rw [sameValue_property hkind]
  constructor
  · rintro ⟨v, hv, hsame⟩
    rcases mem_shown.mp hv with hid | htype | ⟨f, hname, -⟩ | hdate | hextra
    · exact absurd (Prod.mk.inj hid).1 (p.special m hm).1
    · exact absurd (Prod.mk.inj htype).1 (p.special m hm).2
    · rw [hname, memberKind_text] at hkind
      cases hkind
    · rw [(mem_shownDates.mp hdate).1] at hkind
      cases hkind
    rw [hread.properties] at hextra
    obtain ⟨m', hm', hname, hkept⟩ := mem_shownExtras.mp hextra
    exact ⟨m', hm', hname, v, hkept, hsame⟩
  · rintro ⟨m', hm', hname, left, hkept, hsame⟩
    refine ⟨left, mem_shown.mpr ?_, hsame⟩
    rw [hread.properties]
    exact .inr (.inr (.inr (.inr (mem_shownExtras.mpr ⟨m', hm', hname, hkept⟩))))

theorem shown_extra_given (hread : LoopRead env.toEnv (registrationId p) s p.members)
    (hall : ∀ m ∈ p.members, isProperty m = true →
    ∃ m' ∈ extras env.toContexts p.members,
    orionldContextItemAliasLookup env.toContexts m'.1 = m.1) {v : KjNode}
    (h : (n, v) ∈ shownExtras env (s.registration.properties.getD [])) :
    memberKind n = .property ∧ n ∈ p.members.map Prod.fst := by
  rw [hread.properties] at h
  obtain ⟨m', hm', rfl, -⟩ := mem_shownExtras.mp h
  exact property_of_name (extra_name_given hall hm')

theorem kept_of_shown (hread : LoopRead env.toEnv (registrationId p) s p.members)
    (h : ShownAsGiven env.toEnv sysAttrs p (shown env sysAttrs s.registration)) :
    Kept env sysAttrs p := by
  have hextras : ∀ m ∈ p.members, isProperty m = true → ∃ m' ∈ extras env.toContexts p.members,
        orionldContextItemAliasLookup env.toContexts m'.1 = m.1 ∧
          ∃ left, kept m'.2 = some left ∧ Same m.2 left :=
    fun m hm hproperty => (property_shown_iff hread hm hproperty).mp (h.given m hm)
  have hnames : ∀ {n v}, (n, v) ∈ shownExtras env (s.registration.properties.getD []) →
      memberKind n = .property := by
    intro n v hmem
    refine (shown_extra_given hread ?_ hmem).1
    intro m hm hproperty
    obtain ⟨m', hm', hname, -⟩ := hextras m hm hproperty
    exact ⟨m', hm', hname⟩
  have halways : ∀ f v, shownField env s.registration f = some v → f ∈ seenIn p.members := by
    intro f v hv
    have hmem : (f.text.toList, v) ∈ shown env sysAttrs s.registration :=
      mem_shown.mpr (.inr (.inr (.inl ⟨f, rfl, hv⟩)))
    have hkind := memberKind_text f
    rcases h.only _ hmem with (hid : f.text.toList = _) | (htype : f.text.toList = _) |
      hgiven | ⟨-, (hreadOnly : memberKind f.text.toList = _)⟩
    · rw [hid, memberKind_special.1] at hkind
      cases hkind
    · rw [htype, memberKind_special.2] at hkind
      cases hkind
    · obtain ⟨m, hm, hname⟩ := mem_map.mp hgiven
      exact mem_filterMap.mpr ⟨m, hm, fieldOf_iff.mpr hname⟩
    · rw [hkind] at hreadOnly
      cases hreadOnly
  refine ⟨halways .endpoint _ rfl, halways .information _ rfl, ?_, ?_, hextras⟩
  · intro m hm f hf
    obtain ⟨v, hv, hsame⟩ := h.given m hm
    have hgiven := given_of_mem hread.nodup hm hf
    have hslot := hread.fields f
    rw [hgiven] at hslot
    have hname := fieldOf_iff.mp hf
    have hkind := fieldOf_kind hf
    rw [hname] at hsame
    refine (field_shown_iff f hslot).mp ⟨v, ?_, hsame⟩
    rcases mem_shown.mp hv with hid | htype | ⟨g, hg, hshown⟩ | hdate | hextra
    · exact absurd (Prod.mk.inj hid).1 (p.special m hm).1
    · exact absurd (Prod.mk.inj htype).1 (p.special m hm).2
    · rw [hg, memberKind_text] at hkind
      rwa [← MemberKind.field.inj hkind]
    · rw [(mem_shownDates.mp hdate).1] at hkind
      cases hkind
    · rw [hnames hextra] at hkind
      cases hkind
  · intro m hm hkind
    obtain ⟨v, hv, hsame⟩ := h.given m hm
    rw [sameValue_readOnly hkind] at hsame
    rcases mem_shown.mp hv with hid | htype | ⟨g, hg, -⟩ | hdate | hextra
    · exact absurd (Prod.mk.inj hid).1 (p.special m hm).1
    · exact absurd (Prod.mk.inj htype).1 (p.special m hm).2
    · rw [hg, memberKind_text] at hkind
      cases hkind
    · obtain ⟨-, ⟨hsys, htime⟩, rfl⟩ := mem_shownDates.mp hdate
      exact ⟨hsys, htime, hsame⟩
    · rw [hnames hextra] at hkind
      cases hkind

theorem member_shown_of_kept (hread : LoopRead env.toEnv (registrationId p) s p.members)
    (hkept : Kept env sysAttrs p) (hm : m ∈ p.members) :
    ∃ v, (m.1, v) ∈ shown env sysAttrs s.registration ∧ SameValue env.toEnv m.1 m.2 v := by
  cases hkind : memberKind m.1 with
  | field f =>
    have hf : fieldOf m = some f := by simp [fieldOf, hkind]
    have hgiven := given_of_mem hread.nodup hm hf
    have hslot := hread.fields f
    rw [hgiven] at hslot
    obtain ⟨v, hv, hsame⟩ := (field_shown_iff f hslot).mpr (hkept.fields m hm f hf)
    have hname := fieldOf_iff.mp hf
    rw [hname]
    exact ⟨v, mem_shown.mpr (.inr (.inr (.inl ⟨f, rfl, hv⟩))), hsame⟩
  | readOnly =>
    obtain ⟨hsys, htime, hsame⟩ := hkept.readOnly m hm hkind
    rw [sameValue_readOnly hkind]
    refine ⟨_, mem_shown.mpr (.inr (.inr (.inr (.inl ?_)))), hsame⟩
    exact mem_shownDates.mpr ⟨hkind, ⟨hsys, htime⟩, rfl⟩
  | property =>
    have hproperty : isProperty m = true := by simp [isProperty, hkind]
    exact (property_shown_iff hread hm hproperty).mpr (hkept.extras m hm hproperty)

theorem shown_of_kept (htype : p.payloadType = some "ContextSourceRegistration".toList)
    (hread : LoopRead env.toEnv (registrationId p) s p.members) (hkept : Kept env sysAttrs p) :
    ShownAsGiven env.toEnv sysAttrs p (shown env sysAttrs s.registration) := by
  refine ⟨?_, ?_, fun m hm => member_shown_of_kept hread hkept hm, ?_⟩
  · intro id hid
    have hsame : s.registration.id = id := by
      rw [hread.id, registrationId, hid]
      rfl
    refine mem_shown.mpr (.inl ?_)
    rw [hsame]
    rfl
  · intro type hgiven
    obtain rfl := some.inj (hgiven.symm.trans htype)
    exact mem_shown.mpr (.inr (.inl rfl))
  · rintro ⟨n, v⟩ hm
    rcases mem_shown.mp hm with hid | htype | ⟨f, rfl, hv⟩ | hdate | hextra
    · exact .inl (Prod.mk.inj hid).1
    · exact .inr (.inl (Prod.mk.inj htype).1)
    · exact .inr (.inr (.inl (shown_field_given hread.fields hkept hv)))
    · obtain ⟨hkind, ⟨hsys, -⟩, -⟩ := mem_shownDates.mp hdate
      exact .inr (.inr (.inr ⟨hsys, hkind⟩))
    refine .inr (.inr (.inl (shown_extra_given hread ?_ hextra).2))
    intro m hm hproperty
    obtain ⟨m', hm', hname, -⟩ := hkept.extras m hm hproperty
    exact ⟨m', hm', hname⟩

/-- A registration that is stored is shown as it was given if and only if its payload meets
the condition. -/
theorem registration_shown_as_created_iff (env : DateEnv) (sysAttrs : Bool) {db : Database}
    {p : Post} {status : ℕ} {tree : Option CheckError} {r : Registration}
    (h : orionldPostRegistrations env.toEnv db p = .answered status tree (some r)) :
    ShownAsGiven env.toEnv sysAttrs p (shown env sysAttrs r) ↔ Kept env sysAttrs p := by
  obtain ⟨htype, s, rfl, hread⟩ := stored_read h
  constructor
  · intro hshown
    exact kept_of_shown hread hshown
  · intro hkept
    exact shown_of_kept htype hread hkept

def bareDateEnv : DateEnv := { bareEnv with strftime := fun _ => [] }

def emptyDatabase : Database := ⟨fun _ => false, true⟩

def carsPost : Post where
  payloadId := some "urn:r1".toList
  payloadType := some "ContextSourceRegistration".toList
  members := [("endpoint".toList, .string "http://cars".toList),
    ("information".toList, .array [.object
      [("entities".toList, .array [.object [("type".toList, .string "Car".toList)]]),
        ("properties".toList, .array [.string "speed".toList])]]),
    ("owner".toList, .object [("n".toList, .int 1)])]
  randomId := []
  special := by decide

def carsRegistration : Registration where
  id := "urn:r1".toList
  name := []
  description := []
  descriptionProvided := false
  dataProvided := ⟨[⟨[], [],
    "https://uri.etsi.org/ngsi-ld/default-context/Car".toList⟩],
    ["https://uri.etsi.org/ngsi-ld/default-context/speed".toList], []⟩
  expires := -1
  url := "http://cars".toList
  observationInterval := ⟨0, 0⟩
  managementInterval := ⟨0, 0⟩
  location := ⟨none, none⟩
  observationSpace := ⟨none, none⟩
  operationSpace := ⟨none, none⟩
  properties := some [("https://uri.etsi.org/ngsi-ld/default-context/owner".toList,
    .object [("n".toList, .int 1)])]

theorem cars_stored : orionldPostRegistrations bareDateEnv.toEnv emptyDatabase carsPost =
    .answered 201 none (some carsRegistration) := by
  rfl

theorem cars_shown_as_created :
    ShownAsGiven bareDateEnv.toEnv false carsPost (shown bareDateEnv false carsRegistration) := by
  apply (registration_shown_as_created_iff bareDateEnv false cars_stored).mpr
  have hentity : EntityKept bareDateEnv.toContexts
      (.object [("type".toList, .string "Car".toList)]) := by
    refine ⟨_, rfl, by simp [PlainName], by simp [stringMember], ?_⟩
    intro s hs
    obtain rfl : s = "Car".toList := by simpa [stringMember] using hs
    decide +kernel
  have hname : NameKept bareDateEnv.toContexts (.string "speed".toList) :=
    ⟨_, rfl, by decide +kernel, by decide +kernel⟩
  refine ⟨by decide, by decide, ?_, ?_, extras_kept ?_⟩
  · intro m hm f hf
    obtain rfl | rfl | rfl : m = _ ∨ m = _ ∨ m = _ := by simpa [carsPost] using hm
    · obtain rfl : Field.endpoint = f := some.inj hf
      trivial
    · obtain rfl : Field.information = f := some.inj hf
      refine ⟨_, rfl, ?_⟩
      intro m hm
      obtain rfl | rfl : m = _ ∨ m = _ := by simpa using hm
      · exact ⟨_, rfl, by simpa [ItemKept] using hentity⟩
      · exact ⟨_, rfl, by simpa [ItemKept] using hname⟩
    · cases hf
  · intro m hm hkind
    obtain rfl | rfl | rfl : m = _ ∨ m = _ ∨ m = _ := by simpa [carsPost] using hm
    all_goals cases hkind
  · intro m hm hproperty
    obtain rfl | rfl | rfl : m = _ ∨ m = _ ∨ m = _ := by simpa [carsPost] using hm
    · cases hproperty
    · cases hproperty
    · exact ⟨by decide +kernel, by simp [Lossless, LosslessMembers]⟩

def barePost : Post where
  payloadId := some "urn:r1".toList
  payloadType := some "ContextSourceRegistration".toList
  members := []
  randomId := []
  special := by simp

theorem bare_shown_with_endpoint : ∃ r,
    orionldPostRegistrations bareDateEnv.toEnv emptyDatabase barePost =
      .answered 201 none (some r) ∧
    ¬ ShownAsGiven bareDateEnv.toEnv false barePost (shown bareDateEnv false r) := by
  refine ⟨emptyRegistration "urn:r1".toList, rfl, ?_⟩
  intro h
  have hmem : stringMember "endpoint" [] ∈
      shown bareDateEnv false (emptyRegistration "urn:r1".toList) :=
    mem_cons_of_mem _ (mem_cons_of_mem _ mem_cons_self)
  rcases h.only _ hmem with hid | htype | hgiven | ⟨hsys, -⟩
  · exact absurd hid (by decide)
  · exact absurd htype (by decide)
  · cases hgiven
  · cases hsys

end RegistrationRoundTrip
