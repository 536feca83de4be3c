import Mathlib.Data.List.Induction
import OrionLd.OrionldPatchAttribute
import OrionLd.OrionldPostEntity

/-! PATCH of an attribute as a partial update: what the fragment gives replaces what is stored, and
the rest is handed on as it is stored. -/
namespace PatchAttributePartial

open List Option
open KjTree OrionldContextItem KjTreeToContextAttribute MongoEntity OrionldPatchAttribute Fallible
open OrionldPostEntity (plainEnv)
open OrionldPatchEntity (attributeTree metadataTree valueName stampMember)
open NearestFloat (nearest binary64)

def reservedNames : List String := ["type", "value", "object", "createdAt", "modifiedAt"]

def isSubAttribute (name : Text) : Bool := reservedNames.all fun n => !(n.toList == name)

/-- A special sub-attribute has no timestamps and no type. -/
def StoredBare (md : StoredMetadata) : Prop :=
  md.createdAt = none ∧ md.modifiedAt = none ∧ md.type = []

/-- Distinct names, special sub-attributes as values only, the object of a relationship as a string,
and a creation date. -/
structure WellStored (a : StoredAttribute) : Prop where
  distinct : (a.md.map fun f => eqForDot f.1).Nodup
  named : ∀ f ∈ a.md, isSubAttribute (eqForDot f.1) = true
  observedAt : ∀ f ∈ a.md, eqForDot f.1 = "observedAt".toList →
    StoredBare f.2 ∧ ∃ x, f.2.value = .num x
  unitCode : ∀ f ∈ a.md, eqForDot f.1 = "unitCode".toList →
    StoredBare f.2 ∧ ∃ s, f.2.value = .str s
  relationship : ∀ f ∈ a.md, f.2.type = "Relationship".toList → ∃ s, f.2.value = .str s
  dated : 0 < a.creDate

mutual
/-- The value that is given. The conversion rounds its integers to doubles. -/
def valueOf : KjNode → CompoundValueNode
  | .null => .null
  | .bool b => .boolean b
  | .int i => .number i
  | .float f => .number f
  | .string s => .string s
  | .array items => .vector (itemsOf items)
  | .object members => .object (fieldsOf members)
def itemsOf : List KjNode → List CompoundValueNode
  | [] => []
  | item :: items => valueOf item :: itemsOf items
def fieldsOf : Members → List (Text × CompoundValueNode)
  | [] => []
  | (name, node) :: members => (name, valueOf node) :: fieldsOf members
end

mutual
/-- All its integers are doubles. -/
def Exact : KjNode → Prop
  | .int i => nearest binary64 i = i
  | .array items => ExactItems items
  | .object members => ExactMembers members
  | _ => True
def ExactItems : List KjNode → Prop
  | [] => True
  | item :: items => Exact item ∧ ExactItems items
def ExactMembers : Members → Prop
  | [] => True
  | (_, node) :: members => Exact node ∧ ExactMembers members
end

def stringText : KjNode → Option Text
  | .string s => some s
  | _ => none

def memberValue (convert : KjNode → CompoundValueNode) (m : Text × KjNode) :
    Option CompoundValueNode :=
  if m.1 = "value".toList then some (convert m.2)
  else if m.1 = "object".toList then (stringText m.2).map .string
  else none

/-- Of the members of an object the last value counts. -/
def Given (convert : KjNode → CompoundValueNode) (env : Env) (name : Text) (node : KjNode)
    (md : PatchedMetadata) : Prop :=
  md.name = name ∧
    if name = "observedAt".toList then
      ∃ s t, node = .string s ∧ env.parse8601Time s = some t ∧ md.type = [] ∧
        md.value = some (.number t)
    else if name = "unitCode".toList then
      ∃ s, node = .string s ∧ md.type = [] ∧ md.value = some (.string s)
    else ∃ members, node = .object members ∧
      ((md.type = [] ∧ "type".toList ∉ members.map Prod.fst) ∨
        ("type".toList, .string md.type) ∈ members) ∧
      md.value = members.reverse.findSome? (memberValue convert)

def asStored (f : Text × StoredMetadata) : PatchedMetadata :=
  ⟨eqForDot f.1, f.2.type, some (kjTreeToCompoundValue (dbDataToKjTree f.2.value))⟩

def givenValue (convert : KjNode → CompoundValueNode) (a : StoredAttribute) (fragment : Members) :
    CompoundValueNode :=
  match fragment.lookup (valueName (a.type == .relationship)) with
  | some node => convert node
  | none => kjTreeToCompoundValue (dbDataToKjTree a.value)

def subAttributes (fragment : Members) : Members := fragment.filter fun m => isSubAttribute m.1

/-- The value of the fragment or the stored one, the stored type and creation date, and the stored
sub-attributes not named, behind those of the fragment. -/
structure PartialUpdate (env : Env) (a : StoredAttribute) (fragment : Members)
    (ca : PatchedAttribute) : Prop where
  value : ca.value = some (givenValue valueOf a fragment)
  type : ca.type = a.type.name.toList
  creDate : ca.creDate = a.creDate
  given : ∃ mds rest, ca.metadataVector = mds ++ rest ∧
    Forall₂ (fun m md => Given valueOf env m.1 m.2 md) (subAttributes fragment) mds
  stored : ∀ f ∈ a.md, eqForDot f.1 ∉ fragment.map Prod.fst → asStored f ∈ ca.metadataVector

def ExactValue (members : Members) : Prop :=
  ∀ m ∈ members.reverse.find? (fun m => m.1 = "value".toList ∨ m.1 = "object".toList), Exact m.2

def ShapedObject (members : Members) : Prop :=
  ∀ i ∈ members, i.1 = "type".toList ∨ i.1 = "object".toList → ∃ s, i.2 = .string s

/-- The sub-attributes of the fragment have the shape that the conversion takes for granted. -/
def SubAttributesShaped (fragment : Members) : Prop :=
  ∀ m ∈ fragment, isSubAttribute m.1 = true → m.1 ≠ "observedAt".toList →
    if m.1 = "unitCode".toList then ∃ s, m.2 = .string s
    else ∃ members, m.2 = .object members ∧ ShapedObject members ∧ ExactValue members

def lastType (fragment : Members) : Option KjNode := fragment.reverse.lookup "type".toList

/-- Every type in the fragment is a string, and the last one is the stored type. -/
def TypeRepeated (a : StoredAttribute) (fragment : Members) (hasType : Bool) : Prop :=
  (∀ m ∈ fragment, m.1 = "type".toList → ∃ s, m.2 = .string s) ∧
    (hasType = true → lastType fragment = some (.string a.type.name.toList))

/-- A fragment that has all of the attribute: also a member that the context makes createdAt. -/
def SelfContained (env : Env) (a : StoredAttribute) (fragment : Members) : Prop :=
  lastType fragment = some (.string a.type.name.toList) ∧
    (∃ m ∈ fragment, m.1 = "object".toList) ∧
    (fragment.reverse.lookup "createdAt".toList).map (doubleOf env) = some a.creDate ∧
    ∀ f ∈ a.md, eqForDot f.1 ∈ fragment.map Prod.fst

variable {env : Env}

def Effect.type? : Effect → Option Text
  | .type s => some s
  | _ => none

def Effect.value? : Effect → Option CompoundValueNode
  | .value v => some v
  | _ => none

def Effect.creDate? : Effect → Option ℚ
  | .creDate x => some x
  | _ => none

def Effect.metadata? : Effect → Option PatchedMetadata
  | .metadata md => some md
  | _ => none

theorem fold_type (ca : PatchedAttribute) (es : List Effect) :
    (es.foldl PatchedAttribute.apply ca).type =
      (es.reverse.findSome? Effect.type?).getD ca.type := by
  induction es using List.reverseRecOn with
  | nil => rfl
  | append_singleton es e ih =>
    cases e <;> simp [PatchedAttribute.apply, List.findSome?_cons, Effect.type?, ih]

theorem fold_value (ca : PatchedAttribute) (es : List Effect) :
    (es.foldl PatchedAttribute.apply ca).value =
      (es.reverse.findSome? Effect.value?).or ca.value := by
  induction es using List.reverseRecOn with
  | nil => rfl
  | append_singleton es e ih =>
    cases e <;> simp [PatchedAttribute.apply, List.findSome?_cons, Effect.value?, ih]

theorem fold_creDate (ca : PatchedAttribute) (es : List Effect) :
    (es.foldl PatchedAttribute.apply ca).creDate =
      (es.reverse.findSome? Effect.creDate?).getD ca.creDate := by
  induction es using List.reverseRecOn with
  | nil => rfl
  | append_singleton es e ih =>
    cases e <;> simp [PatchedAttribute.apply, List.findSome?_cons, Effect.creDate?, ih]

theorem fold_metadata (ca : PatchedAttribute) (es : List Effect) :
    (es.foldl PatchedAttribute.apply ca).metadataVector =
      ca.metadataVector ++ es.filterMap Effect.metadata? := by
  induction es using List.reverseRecOn with
  | nil => simp
  | append_singleton es e ih =>
    cases e <;> simp [PatchedAttribute.apply, Effect.metadata?, ih]

theorem memberEffects_iff (ms : Members) (es : List Effect) :
    memberEffects env ms = .ok es ↔ List.Forall₂ (fun m e => memberEffect env m = .ok e) ms es := by
  induction ms generalizing es with
  | nil =>
    rw [memberEffects, forall₂_nil_left_iff]
    exact ⟨fun h => (Except.ok.inj h).symm, fun h => by rw [h]⟩
  | cons m ms ih =>
    rw [memberEffects]
    constructor
    · intro h
      obtain ⟨e, he, h⟩ := bind_ok h
      obtain ⟨es', hes, h⟩ := bind_ok h
      cases h
      exact List.Forall₂.cons he ((ih es').mp hes)
    · intro h
      cases h with
      | cons he hes =>
        rw [he, (ih _).mpr hes]
        rfl

theorem memberEffects_exists {ms : Members} (h : ∀ m ∈ ms, ∃ e, memberEffect env m = .ok e) :
    ∃ es, memberEffects env ms = .ok es := by
  induction ms with
  | nil => exact ⟨[], rfl⟩
  | cons m ms ih =>
    obtain ⟨e, he⟩ := h m mem_cons_self
    obtain ⟨es, hes⟩ := ih fun x hx => h x (mem_cons_of_mem m hx)
    exact ⟨e :: es, by rw [memberEffects, he, hes]; rfl⟩

def memberType (m : Text × KjNode) : Option Text :=
  if m.1 = "type".toList then stringText m.2 else none

def memberCreDate (env : Env) (m : Text × KjNode) : Option ℚ :=
  if m.1 = "createdAt".toList then some (doubleOf env m.2) else none

mutual
theorem converted_iff (node : KjNode) : kjTreeToCompoundValue node = valueOf node ↔ Exact node := by
  cases node with
  | int i => simp only [kjTreeToCompoundValue, valueOf, Exact, CompoundValueNode.number.injEq]
  | array items =>
    simp only [kjTreeToCompoundValue, valueOf, Exact, CompoundValueNode.vector.injEq]
    exact items_converted_iff items
  | object members =>
    simp only [kjTreeToCompoundValue, valueOf, Exact, CompoundValueNode.object.injEq]
    exact members_converted_iff members
  | null | bool b | float f | string s => exact iff_of_true rfl trivial
theorem items_converted_iff (items : List KjNode) :
    kjTreeToCompoundValues items = itemsOf items ↔ ExactItems items := by
  cases items with
  | nil => exact iff_of_true rfl trivial
  | cons item items =>
    rw [kjTreeToCompoundValues, itemsOf, cons.injEq, ExactItems, converted_iff item,
      items_converted_iff items]
theorem members_converted_iff (members : Members) :
    kjTreeToCompoundMembers members = fieldsOf members ↔ ExactMembers members := by
  cases members with
  | nil => exact iff_of_true rfl trivial
  | cons m members =>
    obtain ⟨name, node⟩ := m
    rw [kjTreeToCompoundMembers, fieldsOf, cons.injEq, Prod.mk.injEq, ExactMembers,
      converted_iff node, members_converted_iff members]
    exact and_congr_left fun _ => and_iff_right rfl
end

theorem last_value_iff {members : Members} (h : ShapedObject members) :
    members.reverse.findSome? (memberValue kjTreeToCompoundValue) =
      members.reverse.findSome? (memberValue valueOf) ↔ ExactValue members := by
  have hstring : ∀ i ∈ members.reverse, i.1 = "object".toList → ∃ s, i.2 = .string s :=
    fun i hi hname => h i (mem_reverse.mp hi) (.inr hname)
  unfold ExactValue
  generalize members.reverse = ms at hstring
  induction ms with
  | nil => exact iff_of_true rfl nofun
  | cons m ms ih =>
    rw [List.findSome?_cons, List.findSome?_cons, find?_cons]
    unfold memberValue
    by_cases hv : m.1 = "value".toList
    · rw [if_pos hv, if_pos hv, decide_eq_true (.inl hv)]
      exact (Option.some_inj.trans (converted_iff m.2)).trans
        ⟨fun h x hx => Option.some.inj hx ▸ h, fun h => h m rfl⟩
    by_cases ho : m.1 = "object".toList
    · obtain ⟨s, hs⟩ := hstring m mem_cons_self ho
      rw [if_neg hv, if_neg hv, if_pos ho, hs, decide_eq_true (.inr ho)]
      refine iff_of_true rfl fun x hx => ?_
      rw [← Option.some.inj hx, hs]
      trivial
    · rw [if_neg hv, if_neg hv, if_neg ho, decide_eq_false (not_or.mpr ⟨hv, ho⟩)]
      exact ih fun i hi => hstring i (mem_cons_of_mem m hi)

theorem isSubAttribute_iff (name : Text) : isSubAttribute name = true ↔
    name ≠ "type".toList ∧ name ≠ "value".toList ∧ name ≠ "object".toList ∧
      name ≠ "createdAt".toList ∧ name ≠ "modifiedAt".toList := by
  have hne (n : String) : (!(n.toList == name)) = true ↔ name ≠ n.toList := by
    rw [Bool.not_eq_true', beq_eq_false_iff_ne]
    exact ne_comm
  rw [isSubAttribute, List.all_eq_true, reservedNames]
  simp only [List.forall_mem_cons, hne]
  exact ⟨fun h => ⟨h.1, h.2.1, h.2.2.1, h.2.2.2.1, h.2.2.2.2.1⟩,
    fun h => ⟨h.1, h.2.1, h.2.2.1, h.2.2.2.1, h.2.2.2.2, fun x hx => absurd hx not_mem_nil⟩⟩

variable {node : KjNode} {e : Effect} {m : Text × KjNode} {ms : Members} {es : List Effect}

theorem stringOf_ok {s : Text} (h : stringOf node = .ok s) : node = .string s := by
  cases node <;> simp [stringOf] at h
  rw [h]

theorem observedAtEffect_ok (h : observedAtEffect env node = .ok e) :
    ∃ v, e = .metadata ⟨"observedAt".toList, [], some v⟩ := by
  unfold observedAtEffect at h
  split at h
  · cases h
    exact ⟨_, rfl⟩
  obtain ⟨child, -, h⟩ := bind_ok h
  cases h
  exact ⟨_, rfl⟩

theorem unitCodeEffect_ok (h : unitCodeEffect node = .ok e) :
    ∃ v, e = .metadata ⟨"unitCode".toList, [], some v⟩ := by
  unfold unitCodeEffect at h
  split at h
  · cases h
    exact ⟨_, rfl⟩
  obtain ⟨child, -, h⟩ := bind_ok h
  obtain ⟨s, -, h⟩ := bind_ok h
  cases h
  exact ⟨_, rfl⟩

theorem metadataItem_name {md md' : PatchedMetadata} (h : metadataItem md m = .ok md') :
    md'.name = md.name := by
  unfold metadataItem at h
  split at h
  · cases h
    rfl
  split at h
  · obtain ⟨s, -, h⟩ := bind_ok h
    cases h
    rfl
  split at h
  · obtain ⟨s, -, h⟩ := bind_ok h
    cases h
    rfl
  · cases h
    rfl

theorem metadataItems_name {md md' : PatchedMetadata} (h : metadataItems md ms = .ok md') :
    md'.name = md.name := by
  induction ms generalizing md with
  | nil =>
    cases h
    rfl
  | cons m ms ih =>
    obtain ⟨md₁, h₁, h⟩ := bind_ok h
    exact (ih h).trans (metadataItem_name h₁)

theorem metadataEffect_ok {name : Text} (h : metadataEffect name node = .ok e) :
    ∃ md, e = .metadata md ∧ md.name = name := by
  unfold metadataEffect at h
  split at h
  case h_1 members =>
    obtain ⟨md, hmd, h⟩ := bind_ok h
    cases h
    exact ⟨md, rfl, metadataItems_name hmd⟩
  · cases h
    exact ⟨_, rfl, rfl⟩
  split at h
  · cases h
    exact ⟨_, rfl, rfl⟩
  · cases h

/-- What a member can do, by its name. -/
theorem memberEffect_cases (h : memberEffect env m = .ok e) :
    (m.1 = "type".toList ∧ ∃ s, m.2 = .string s ∧ e = .type s) ∨
    (m.1 = "value".toList ∧ e = .value (kjTreeToCompoundValue m.2)) ∨
    (m.1 = "object".toList ∧ ∃ s, m.2 = .string s ∧ e = .value (.string s)) ∨
    (m.1 = "createdAt".toList ∧ e = .creDate (doubleOf env m.2)) ∨
    (m.1 = "modifiedAt".toList ∧ e = .modDate (doubleOf env m.2)) ∨
    (isSubAttribute m.1 = true ∧ ∃ md, e = .metadata md ∧ md.name = m.1) := by
  unfold memberEffect at h
  split at h
  · next htype =>
    obtain ⟨s, hs, h⟩ := bind_ok h
    cases h
    exact .inl ⟨htype, s, stringOf_ok hs, rfl⟩
  rename_i htype
  split at h
  · next hvalue =>
    cases h
    exact .inr (.inl ⟨hvalue, rfl⟩)
  rename_i hvalue
  split at h
  · next hobject =>
    obtain ⟨s, hs, h⟩ := bind_ok h
    cases h
    exact .inr (.inr (.inl ⟨hobject, s, stringOf_ok hs, rfl⟩))
  rename_i hobject
  split at h
  · next hcreated =>
    cases h
    exact .inr (.inr (.inr (.inl ⟨hcreated, rfl⟩)))
  rename_i hcreated
  split at h
  · next hmodified =>
    cases h
    exact .inr (.inr (.inr (.inr (.inl ⟨hmodified, rfl⟩))))
  rename_i hmodified
  have hsub : isSubAttribute m.1 = true :=
    (isSubAttribute_iff m.1).mpr ⟨htype, hvalue, hobject, hcreated, hmodified⟩
  refine .inr (.inr (.inr (.inr (.inr ⟨hsub, ?_⟩))))
  split at h
  · next hobserved =>
    obtain ⟨v, rfl⟩ := observedAtEffect_ok h
    exact ⟨_, rfl, hobserved.symm⟩
  split at h
  · next hunit =>
    obtain ⟨v, rfl⟩ := unitCodeEffect_ok h
    exact ⟨_, rfl, hunit.symm⟩
  exact metadataEffect_ok h

variable {β : Type}
variable {g : Text × KjNode → Option β}

theorem effects_findSome {f : Effect → Option β} (h : memberEffects env ms = .ok es)
    (hfg : ∀ m e, memberEffect env m = .ok e → f e = g m) :
    es.reverse.findSome? f = ms.reverse.findSome? g := by
  have hes := (memberEffects_iff ms es).mp h
  clear h
  induction hes with
  | nil => rfl
  | cons he _ ih =>
    rw [reverse_cons, reverse_cons, List.findSome?_append, List.findSome?_append, ih,
      List.findSome?_singleton, List.findSome?_singleton, hfg _ _ he]

theorem type_of_effect (h : memberEffect env m = .ok e) : Effect.type? e = memberType m := by
  rw [memberType]
  rcases memberEffect_cases h with ⟨hm, s, hs, rfl⟩ | ⟨hm, rfl⟩ | ⟨hm, s, hs, rfl⟩ |
    ⟨hm, rfl⟩ | ⟨hm, rfl⟩ | ⟨hm, md, rfl, -⟩
  · rw [if_pos hm, hs]
    rfl
  · rw [hm, if_neg (toList_ne (by decide))]
    rfl
  · rw [hm, if_neg (toList_ne (by decide))]
    rfl
  · rw [hm, if_neg (toList_ne (by decide))]
    rfl
  · rw [hm, if_neg (toList_ne (by decide))]
    rfl
  · rw [if_neg ((isSubAttribute_iff m.1).mp hm).1]
    rfl

theorem value_of_effect (h : memberEffect env m = .ok e) :
    Effect.value? e = memberValue kjTreeToCompoundValue m := by
  rw [memberValue]
  rcases memberEffect_cases h with ⟨hm, s, hs, rfl⟩ | ⟨hm, rfl⟩ | ⟨hm, s, hs, rfl⟩ |
    ⟨hm, rfl⟩ | ⟨hm, rfl⟩ | ⟨hm, md, rfl, -⟩
  · rw [hm, if_neg (toList_ne (by decide)), if_neg (toList_ne (by decide))]
    rfl
  · rw [if_pos hm]
    rfl
  · rw [hm, if_neg (toList_ne (by decide)), if_pos rfl, hs]
    rfl
  · rw [hm, if_neg (toList_ne (by decide)), if_neg (toList_ne (by decide))]
    rfl
  · rw [hm, if_neg (toList_ne (by decide)), if_neg (toList_ne (by decide))]
    rfl
  obtain ⟨-, hvalue, hobject, -⟩ := (isSubAttribute_iff m.1).mp hm
  rw [if_neg hvalue, if_neg hobject]
  rfl

theorem creDate_of_effect (h : memberEffect env m = .ok e) :
    Effect.creDate? e = memberCreDate env m := by
  rw [memberCreDate]
  rcases memberEffect_cases h with ⟨hm, s, hs, rfl⟩ | ⟨hm, rfl⟩ | ⟨hm, s, hs, rfl⟩ |
    ⟨hm, rfl⟩ | ⟨hm, rfl⟩ | ⟨hm, md, rfl, -⟩
  · rw [hm, if_neg (toList_ne (by decide))]
    rfl
  · rw [hm, if_neg (toList_ne (by decide))]
    rfl
  · rw [hm, if_neg (toList_ne (by decide))]
    rfl
  · rw [if_pos hm]
    rfl
  · rw [hm, if_neg (toList_ne (by decide))]
    rfl
  · rw [if_neg ((isSubAttribute_iff m.1).mp hm).2.2.2.1]
    rfl

theorem findSome_eq_lookup (g : Text × KjNode → Option β) (name : Text) (ms : Members)
    (hother : ∀ m ∈ ms, m.1 ≠ name → g m = none)
    (hname : ∀ m ∈ ms, m.1 = name → (g m).isSome = true) :
    ms.findSome? g = (ms.lookup name).bind fun v => g (name, v) := by
  induction ms with
  | nil => rfl
  | cons m ms ih =>
    obtain ⟨k, v⟩ := m
    rw [List.findSome?_cons, lookup_cons]
    by_cases hk : k = name
    · subst hk
      obtain ⟨b, hb⟩ := isSome_iff_exists.mp (hname (k, v) mem_cons_self rfl)
      rw [hb, beq_self_eq_true]
      exact hb.symm
    · rw [hother (k, v) mem_cons_self hk, beq_false_of_ne (Ne.symm hk)]
      exact ih (fun m hm => hother m (mem_cons_of_mem _ hm))
        fun m hm => hname m (mem_cons_of_mem _ hm)

theorem attribute_eq {name : Text} {ca : PatchedAttribute}
    (h : kjAttributeToNgsiContextAttribute env name ms = .ok ca) :
    ca.type = (ms.reverse.findSome? memberType).getD [] ∧
      ca.value = ms.reverse.findSome? (memberValue kjTreeToCompoundValue) ∧
      ca.creDate = (ms.reverse.findSome? (memberCreDate env)).getD 0 ∧
      ∃ es, memberEffects env ms = .ok es ∧ ca.metadataVector = es.filterMap Effect.metadata? := by
  obtain ⟨es, hes, h⟩ := bind_ok h
  cases h
  refine ⟨?_, ?_, ?_, es, hes, ?_⟩
  · rw [fold_type, effects_findSome hes fun _ _ => type_of_effect]
    rfl
  · rw [fold_value, effects_findSome hes fun _ _ => value_of_effect]
    exact or_none
  · rw [fold_creDate, effects_findSome hes fun _ _ => creDate_of_effect]
    rfl
  · rw [fold_metadata]
    rfl

theorem mem_metadata (h : memberEffects env ms = .ok es) (md : PatchedMetadata) :
    md ∈ es.filterMap Effect.metadata? ↔
      ∃ m ∈ ms, memberEffect env m = .ok (.metadata md) := by
  have hes := (memberEffects_iff ms es).mp h
  clear h
  have hmetadata (e : Effect) : Effect.metadata? e = some md ↔ e = .metadata md := by
    cases e <;> simp [Effect.metadata?]
  rw [mem_filterMap]
  simp only [hmetadata, exists_eq_right]
  induction hes with
  | nil => simp
  | cons he _ ih =>
    rw [mem_cons, exists_mem_cons_iff, he, Except.ok.injEq]
    exact or_congr eq_comm ih

/-- The metadata come in the order of the sub-attributes that give them. -/
theorem metadata_order (h : memberEffects env (ms ++ ms') = .ok es) : ∃ mds rest,
    es.filterMap Effect.metadata? = mds ++ rest ∧
      Forall₂ (fun m md => memberEffect env m = .ok (.metadata md)) (subAttributes ms) mds := by
  have hall : ∀ {ms es}, Forall₂ (fun m e => memberEffect env m = .ok e) ms es →
      Forall₂ (fun m md => memberEffect env m = .ok (.metadata md)) (subAttributes ms)
        (es.filterMap Effect.metadata?) := by
    intro ms es hes
    induction hes with
    | nil => exact .nil
    | @cons m e ms es he _ ih =>
      unfold subAttributes at ih ⊢
      by_cases hsub : isSubAttribute m.1 = true
      · obtain ⟨htype, hvalue, hobject, hcreated, hmodified⟩ := (isSubAttribute_iff m.1).mp hsub
        rcases memberEffect_cases he with ⟨hm, -⟩ | ⟨hm, -⟩ | ⟨hm, -⟩ | ⟨hm, -⟩ | ⟨hm, -⟩ |
          ⟨-, md, rfl, -⟩
        · exact absurd hm htype
        · exact absurd hm hvalue
        · exact absurd hm hobject
        · exact absurd hm hcreated
        · exact absurd hm hmodified
        rw [List.filter_cons, if_pos hsub]
        exact .cons he ih
      · rw [List.filter_cons, if_neg hsub]
        rcases memberEffect_cases he with ⟨-, s, -, rfl⟩ | ⟨-, rfl⟩ | ⟨-, s, -, rfl⟩ | ⟨-, rfl⟩ |
          ⟨-, rfl⟩ | ⟨hm, -⟩
        any_goals exact ih
        exact absurd hm hsub
  have hes := hall ((memberEffects_iff _ es).mp h)
  have happend : subAttributes (ms ++ ms') = subAttributes ms ++ subAttributes ms' :=
    filter_append ms ms'
  have hfirst := forall₂_take (subAttributes ms).length hes
  rw [happend, take_left] at hfirst
  exact ⟨_, _, (take_append_drop _ _).symm, hfirst⟩

theorem forall₂_both {γ δ : Type} {R S : γ → δ → Prop} {l : List γ} {u : List δ}
    (h : Forall₂ R l u) (h' : Forall₂ S l u) {x : γ} (hx : x ∈ l) : ∃ y, R x y ∧ S x y := by
  induction h with
  | nil => cases hx
  | cons hr _ ih =>
    cases h' with
    | cons hs h' =>
      rcases mem_cons.mp hx with rfl | hx
      · exact ⟨_, hr, hs⟩
      · exact ih h' hx

theorem effects_mem (h : memberEffects env ms = .ok es) (hm : m ∈ ms) :
    ∃ e, memberEffect env m = .ok e := by
  have hes := (memberEffects_iff ms es).mp h
  clear h
  induction hes with
  | nil => cases hm
  | cons he _ ih =>
    rcases mem_cons.mp hm with rfl | hm
    · exact ⟨_, he⟩
    · exact ih hm

variable {name : Text}

structure Accepted (env : Env) (type : Text) (f : Seen) (ms : Members) : Prop where
  value : isRelationship type = true → "value".toList ∉ ms.map Prod.fst
  object : isRelationship type = false → "object".toList ∉ ms.map Prod.fst
  string : ∀ m ∈ ms, m.1 = "object".toList → ∃ s, m.2 = .string s
  observedAt : ∀ m ∈ ms, m.1 = "observedAt".toList →
    ∃ s t, m.2 = .string s ∧ env.parse8601Time s = some t
  seenValue : f.value = true → "value".toList ∉ ms.map Prod.fst
  seenObject : f.object = true → "object".toList ∉ ms.map Prod.fst
  onceValue : ms.reverse.lookup "value".toList = ms.lookup "value".toList
  onceObject : ms.reverse.lookup "object".toList = ms.lookup "object".toList

variable {k : Text}

theorem uriMember_ok {field : String} (h : uriMember field node = .ok ()) :
    ∃ s, node = .string s := by
  cases node <;> first | exact ⟨_, rfl⟩ | cases h

theorem observedAtMember_ok (h : observedAtMember env node = .ok ()) :
    ∃ s t, node = .string s ∧ env.parse8601Time s = some t := by
  unfold observedAtMember at h
  split at h
  · next s =>
    split at h
    · next hs =>
      obtain ⟨t, ht⟩ := isSome_iff_exists.mp hs
      exact ⟨s, t, rfl, ht⟩
    · cases h
  · cases h

theorem pcheckMember_ok {type : Text} {f f' : Seen}
    (h : pcheckMember env name (some type) f m = .ok f') :
    (m.1 = "value".toList ∧ isRelationship type = false ∧ f.value = false ∧
      f'.value = true ∧ f'.object = f.object) ∨
    (m.1 = "object".toList ∧ isRelationship type = true ∧ f.object = false ∧
      f'.object = true ∧ f'.value = f.value ∧ ∃ s, m.2 = .string s) ∨
    (m.1 ≠ "value".toList ∧ m.1 ≠ "object".toList ∧ f'.value = f.value ∧ f'.object = f.object ∧
      (m.1 = "observedAt".toList → ∃ s t, m.2 = .string s ∧ env.parse8601Time s = some t)) := by
  unfold pcheckMember at h
  split at h
  · next hvalue =>
    obtain ⟨u, honce, h⟩ := bind_ok h
    rw [any_some] at h
    split at h
    · cases h
    rename_i hrel
    cases h
    exact .inl ⟨hvalue, Bool.eq_false_iff.mpr hrel, onlyOnce_ok honce, rfl, rfl⟩
  rename_i hvalue
  by_cases hobject : m.1 = "object".toList
  · rw [if_pos hobject, any_some] at h
    by_cases hrel : isRelationship type = true
    · rw [hrel] at h
      obtain ⟨u, honce, h⟩ := bind_ok h
      obtain ⟨u, huri, h⟩ := bind_ok h
      cases h
      exact .inr (.inl ⟨hobject, hrel, onlyOnce_ok honce, rfl, rfl, uriMember_ok huri⟩)
    · rw [Bool.eq_false_iff.mpr hrel] at h
      cases h
  rw [if_neg hobject] at h
  refine .inr (.inr ⟨hvalue, hobject, ?_⟩)
  split at h
  · obtain ⟨u, -, h⟩ := bind_ok h
    obtain ⟨u, hparse, h⟩ := bind_ok h
    cases h
    exact ⟨rfl, rfl, fun _ => observedAtMember_ok hparse⟩
  rename_i hobserved
  split at h
  · obtain ⟨u, -, h⟩ := bind_ok h
    obtain ⟨u, -, h⟩ := bind_ok h
    cases h
    exact ⟨rfl, rfl, fun h => absurd h hobserved⟩
  · cases h
    exact ⟨rfl, rfl, fun h => absurd h hobserved⟩

theorem lookup_eq_none_of_not_mem (h : k ∉ ms.map Prod.fst) : ms.lookup k = none := by
  rw [lookup_eq_none_iff]
  intro m hm
  exact bne_iff_ne.mpr fun hk => h (mem_map.mpr ⟨m, hm, hk.symm⟩)

theorem mem_of_lookup_eq_some (h : ms.lookup k = some node) : (k, node) ∈ ms := by
  obtain ⟨l₁, l₂, rfl, -⟩ := lookup_eq_some_iff.mp h
  exact mem_append_right l₁ mem_cons_self

theorem once_cons (hms : ms.reverse.lookup k = ms.lookup k) (hk : m.1 = k → k ∉ ms.map Prod.fst) :
    (m :: ms).reverse.lookup k = (m :: ms).lookup k := by
  rw [reverse_cons, lookup_append, hms, lookup_cons, lookup_cons]
  by_cases h : m.1 = k
  · rw [lookup_eq_none_of_not_mem (hk h), h, beq_self_eq_true]
    rfl
  · rw [beq_false_of_ne (Ne.symm h)]
    exact or_none

theorem not_mem_names_cons (hm : m.1 ≠ k) (hms : k ∉ ms.map Prod.fst) :
    k ∉ (m :: ms).map Prod.fst := by
  rw [map_cons, mem_cons]
  exact fun h => h.elim (fun h => hm h.symm) hms

theorem pcheckMembers_ok {type : Text} {f : Seen}
    (h : pcheckMembers env name (some type) ms f = .ok ()) : Accepted env type f ms := by
  induction ms generalizing f with
  | nil => exact ⟨by simp, by simp, by simp, by simp, by simp, by simp, rfl, rfl⟩
  | cons m ms ih =>
    obtain ⟨f', hm, h⟩ := bind_ok h
    obtain ⟨hv, ho, hs, hobs, hsv, hso, hov, hoo⟩ := ih h
    rcases pcheckMember_ok hm with ⟨hk, hrel, hf, hf', hobj⟩ | ⟨hk, hrel, hf, hf', hval, hstr⟩ |
      ⟨hkv, hko, hval, hobj, hparse⟩
    · have hno : m.1 ≠ "object".toList := hk ▸ toList_ne (by decide)
      refine ⟨fun h => ?_, fun h => not_mem_names_cons hno (ho h), ?_, ?_, fun h => ?_,
        fun h => not_mem_names_cons hno (hso (hobj.trans h)), once_cons hov fun _ => hsv hf',
        once_cons hoo fun h => absurd h hno⟩
      · rw [hrel] at h
        cases h
      · exact forall_mem_cons.mpr ⟨fun h => absurd h hno, hs⟩
      · exact forall_mem_cons.mpr
          ⟨fun h => absurd (hk.symm.trans h) (toList_ne (by decide)), hobs⟩
      · rw [hf] at h
        cases h
    · have hnv : m.1 ≠ "value".toList := hk ▸ toList_ne (by decide)
      refine ⟨fun h => not_mem_names_cons hnv (hv h), fun h => ?_, ?_, ?_,
        fun h => not_mem_names_cons hnv (hsv (hval.trans h)), fun h => ?_,
        once_cons hov fun h => absurd h hnv, once_cons hoo fun _ => hso hf'⟩
      · rw [hrel] at h
        cases h
      · exact forall_mem_cons.mpr ⟨fun _ => hstr, hs⟩
      · exact forall_mem_cons.mpr
          ⟨fun h => absurd (hk.symm.trans h) (toList_ne (by decide)), hobs⟩
      · rw [hf] at h
        cases h
    · exact ⟨fun h => not_mem_names_cons hkv (hv h), fun h => not_mem_names_cons hko (ho h),
        forall_mem_cons.mpr ⟨fun h => absurd h hko, hs⟩,
        forall_mem_cons.mpr ⟨hparse, hobs⟩,
        fun h => not_mem_names_cons hkv (hsv (hval.trans h)),
        fun h => not_mem_names_cons hko (hso (hobj.trans h)),
        once_cons hov fun h => absurd h hkv, once_cons hoo fun h => absurd h hko⟩

theorem patchChecks_accepted {entityId attrName : Text} {a : StoredAttribute} {members : Members}
    (h : patchChecks env entityId attrName a members = .ok ()) :
    Accepted env a.type.name.toList ⟨false, false, false, false⟩ (fragmentOf env members) := by
  unfold patchChecks at h
  split at h
  · cases h
  split at h
  · cases h
  obtain ⟨u, -, h⟩ := bind_ok h
  unfold attributeCheck at h
  split at h
  · next hcheck => exact pcheckMembers_ok hcheck
  · split at h <;> cases h
variable {md md' : PatchedMetadata}

theorem metadataItem_cases (h : metadataItem md m = .ok md') :
    (m.1 = "value".toList ∧ md' = { md with value := some (kjTreeToCompoundValue m.2) }) ∨
    (m.1 = "object".toList ∧ ∃ s, m.2 = .string s ∧ md' = { md with value := some (.string s) }) ∨
    (m.1 = "type".toList ∧ ∃ s, m.2 = .string s ∧ md' = { md with type := s }) ∨
    (m.1 ≠ "value".toList ∧ m.1 ≠ "object".toList ∧ m.1 ≠ "type".toList ∧ md' = md) := by
  unfold metadataItem at h
  split at h
  · next hvalue =>
    cases h
    exact .inl ⟨hvalue, rfl⟩
  rename_i hvalue
  split at h
  · next hobject =>
    obtain ⟨s, hs, h⟩ := bind_ok h
    cases h
    exact .inr (.inl ⟨hobject, s, stringOf_ok hs, rfl⟩)
  rename_i hobject
  split at h
  · next htype =>
    obtain ⟨s, hs, h⟩ := bind_ok h
    cases h
    exact .inr (.inr (.inl ⟨htype, s, stringOf_ok hs, rfl⟩))
  rename_i htype
  cases h
  exact .inr (.inr (.inr ⟨hvalue, hobject, htype, rfl⟩))

theorem metadataItems_type (h : metadataItems md ms = .ok md') :
    (md'.type = md.type ∧ "type".toList ∉ ms.map Prod.fst) ∨
      ("type".toList, .string md'.type) ∈ ms := by
  induction ms generalizing md with
  | nil =>
    cases h
    exact .inl ⟨rfl, not_mem_nil⟩
  | cons m ms ih =>
    obtain ⟨md₁, h₁, h⟩ := bind_ok h
    rcases ih h with ⟨htype, hnot⟩ | hmem
    · rcases metadataItem_cases h₁ with ⟨hk, rfl⟩ | ⟨hk, s, hs, rfl⟩ | ⟨hk, s, hs, rfl⟩ |
        ⟨hv, ho, ht, rfl⟩
      · exact .inl ⟨htype, not_mem_names_cons (hk ▸ toList_ne (by decide)) hnot⟩
      · exact .inl ⟨htype, not_mem_names_cons (hk ▸ toList_ne (by decide)) hnot⟩
      · have hm : m = ("type".toList, .string md'.type) := Prod.ext hk (by rw [hs, htype])
        exact .inr (mem_cons.mpr (.inl hm.symm))
      · exact .inl ⟨htype, not_mem_names_cons ht hnot⟩
    · exact .inr (mem_cons_of_mem m hmem)

theorem metadataItems_value (h : metadataItems md ms = .ok md') :
    md'.value = (ms.reverse.findSome? (memberValue kjTreeToCompoundValue)).or md.value := by
  induction ms generalizing md with
  | nil =>
    cases h
    rfl
  | cons m ms ih =>
    obtain ⟨md₁, h₁, h⟩ := bind_ok h
    rw [ih h, reverse_cons, List.findSome?_append, Option.or_assoc, List.findSome?_singleton]
    refine congrArg _ ?_
    unfold memberValue
    rcases metadataItem_cases h₁ with ⟨hk, rfl⟩ | ⟨hk, s, hs, rfl⟩ | ⟨hk, s, hs, rfl⟩ |
      ⟨hv, ho, ht, rfl⟩
    · rw [if_pos hk]
      rfl
    · rw [hk, if_neg (toList_ne (by decide)), if_pos rfl, hs]
      rfl
    · rw [hk, if_neg (toList_ne (by decide)), if_neg (toList_ne (by decide))]
      rfl
    · rw [if_neg hv, if_neg ho]
      rfl

theorem metadataItems_strings (h : metadataItems md ms = .ok md') :
    ∀ i ∈ ms, i.1 = "type".toList ∨ i.1 = "object".toList → ∃ s, i.2 = .string s := by
  induction ms generalizing md with
  | nil => exact fun i hi => absurd hi not_mem_nil
  | cons m ms ih =>
    obtain ⟨md₁, h₁, h⟩ := bind_ok h
    refine forall_mem_cons.mpr ⟨fun hname => ?_, ih h⟩
    rcases metadataItem_cases h₁ with ⟨hk, -⟩ | ⟨-, s, hs, -⟩ | ⟨-, s, hs, -⟩ | ⟨-, ho, ht, -⟩
    · rcases hname with h | h
      · exact absurd (hk.symm.trans h) (toList_ne (by decide))
      · exact absurd (hk.symm.trans h) (toList_ne (by decide))
    · exact ⟨s, hs⟩
    · exact ⟨s, hs⟩
    · exact absurd hname (not_or.mpr ⟨ht, ho⟩)

theorem metadataItem_exists (md : PatchedMetadata)
    (h : m.1 = "type".toList ∨ m.1 = "object".toList → ∃ s, m.2 = .string s) :
    ∃ md', metadataItem md m = .ok md' := by
  unfold metadataItem
  split
  · exact ⟨_, rfl⟩
  split
  · next hobject =>
    obtain ⟨s, hs⟩ := h (.inr hobject)
    exact ⟨_, by rw [hs]; rfl⟩
  split
  · next htype =>
    obtain ⟨s, hs⟩ := h (.inl htype)
    exact ⟨_, by rw [hs]; rfl⟩
  · exact ⟨_, rfl⟩

theorem metadataItems_exists (md : PatchedMetadata)
    (h : ∀ i ∈ ms, i.1 = "type".toList ∨ i.1 = "object".toList → ∃ s, i.2 = .string s) :
    ∃ md', metadataItems md ms = .ok md' := by
  induction ms generalizing md with
  | nil => exact ⟨md, rfl⟩
  | cons m ms ih =>
    obtain ⟨hm, hms⟩ := forall_mem_cons.mp h
    obtain ⟨md₁, h₁⟩ := metadataItem_exists md hm
    obtain ⟨md', h'⟩ := ih md₁ hms
    exact ⟨md', by rw [metadataItems, h₁]; exact h'⟩

theorem memberEffect_sub (h : isSubAttribute m.1 = true) :
    memberEffect env m = if m.1 = "observedAt".toList then observedAtEffect env m.2
      else if m.1 = "unitCode".toList then unitCodeEffect m.2 else metadataEffect m.1 m.2 := by
  obtain ⟨htype, hvalue, hobject, hcreated, hmodified⟩ := (isSubAttribute_iff m.1).mp h
  rw [memberEffect, if_neg htype, if_neg hvalue, if_neg hobject, if_neg hcreated, if_neg hmodified]

theorem given_of_shape (hsub : isSubAttribute m.1 = true) (hobserved : m.1 = "observedAt".toList →
    ∃ s t, m.2 = .string s ∧ env.parse8601Time s = some t) (hshape : m.1 ≠ "observedAt".toList →
    if m.1 = "unitCode".toList then ∃ s, m.2 = .string s
    else ∃ members, m.2 = .object members ∧ ShapedObject members ∧ ExactValue members) :
    ∃ md, memberEffect env m = .ok (.metadata md) ∧ Given valueOf env m.1 m.2 md := by
  rw [memberEffect_sub hsub]
  by_cases hobs : m.1 = "observedAt".toList
  · obtain ⟨s, t, hs, ht⟩ := hobserved hobs
    refine ⟨⟨"observedAt".toList, [], some (.number t)⟩, ?_, hobs.symm, ?_⟩
    · rw [if_pos hobs, hs, observedAtEffect, ht]
      rfl
    · rw [if_pos hobs]
      exact ⟨s, t, hs, ht, rfl, rfl⟩
  rw [if_neg hobs]
  have hshape := hshape hobs
  by_cases hunit : m.1 = "unitCode".toList
  · rw [if_pos hunit] at hshape ⊢
    obtain ⟨s, hs⟩ := hshape
    refine ⟨⟨"unitCode".toList, [], some (.string s)⟩, by rw [hs]; rfl, hunit.symm, ?_⟩
    rw [if_neg hobs, if_pos hunit]
    exact ⟨s, hs, rfl, rfl⟩
  · rw [if_neg hunit] at hshape ⊢
    obtain ⟨members, hmembers, hitems, hexact⟩ := hshape
    obtain ⟨md, hmd⟩ := metadataItems_exists ⟨m.1, [], none⟩ hitems
    refine ⟨md, ?_, metadataItems_name hmd, ?_⟩
    · rw [hmembers, metadataEffect, hmd]
      rfl
    · rw [if_neg hobs, if_neg hunit]
      refine ⟨members, hmembers, metadataItems_type hmd, ?_⟩
      rw [metadataItems_value hmd, Option.or_none]
      exact (last_value_iff hitems).mpr hexact

theorem shape_of_given (hsub : isSubAttribute m.1 = true)
    (he : memberEffect env m = .ok (.metadata md))
    (hgiven : Given valueOf env m.1 m.2 md) (hobs : m.1 ≠ "observedAt".toList) :
    if m.1 = "unitCode".toList then ∃ s, m.2 = .string s
    else ∃ members, m.2 = .object members ∧ ShapedObject members ∧ ExactValue members := by
  have hgiven := hgiven.2
  rw [if_neg hobs] at hgiven
  by_cases hunit : m.1 = "unitCode".toList
  · rw [if_pos hunit] at hgiven ⊢
    obtain ⟨s, hs, -⟩ := hgiven
    exact ⟨s, hs⟩
  rw [if_neg hunit] at hgiven ⊢
  obtain ⟨members, hmembers, -, hvalue⟩ := hgiven
  rw [memberEffect_sub hsub, if_neg hobs, if_neg hunit, hmembers] at he
  obtain ⟨md', hmd', heq⟩ := bind_ok he
  obtain rfl := Effect.metadata.inj (Except.ok.inj heq)
  have hitems := metadataItems_strings hmd'
  rw [metadataItems_value hmd', Option.or_none] at hvalue
  exact ⟨members, hmembers, hitems, (last_value_iff hitems).mp hvalue⟩

variable {a : StoredAttribute}

theorem bare_tree {md : StoredMetadata} (h : StoredBare md) :
    metadataTree md = .object [("value".toList, dbDataToKjTree md.value)] := by
  obtain ⟨hcreated, hmodified, htype⟩ := h
  rw [metadataTree, hcreated, hmodified, htype]
  rfl

theorem metadataItems_append (md : PatchedMetadata) (ms ms' : Members) :
    metadataItems md (ms ++ ms') = metadataItems md ms >>= fun md => metadataItems md ms' := by
  induction ms generalizing md with
  | nil => rfl
  | cons m ms ih =>
    rw [cons_append, metadataItems, metadataItems]
    cases metadataItem md m with
    | error e => rfl
    | ok md' => exact ih md'

theorem metadataItems_stamp {field : String} {t : Option ℚ}
    (h : field = "createdAt" ∨ field = "modifiedAt") :
    metadataItems md (stampMember field t) = .ok md := by
  have hne : field ≠ "value" ∧ field ≠ "object" ∧ field ≠ "type" := by
    rcases h with rfl | rfl <;> decide
  have hitem (x : KjNode) : metadataItem md (field.toList, x) = .ok md := by
    rw [metadataItem, if_neg (toList_ne hne.1), if_neg (toList_ne hne.2.1),
      if_neg (toList_ne hne.2.2)]
  cases t with
  | none => rfl
  | some x =>
    show (metadataItem md (field.toList, .float x) >>= fun md => metadataItems md []) = _
    rw [hitem]
    rfl

theorem metadataItems_valueName (md : PatchedMetadata) (isRel : Bool) (v : KjNode)
    (h : isRel = true → ∃ s, v = .string s) :
    metadataItems md [(valueName isRel, v)] =
      .ok { md with value := some (kjTreeToCompoundValue v) } := by
  cases isRel with
  | false => rfl
  | true =>
    obtain ⟨s, rfl⟩ := h rfl
    rfl

theorem stored_effect (ha : WellStored a) {f : Text × StoredMetadata} (hf : f ∈ a.md) :
    memberEffect env (eqForDot f.1, metadataTree f.2) = .ok (.metadata (asStored f)) := by
  rw [memberEffect_sub (ha.named f hf), asStored]
  by_cases hobs : eqForDot f.1 = "observedAt".toList
  · obtain ⟨hbare, x, hx⟩ := ha.observedAt f hf hobs
    rw [if_pos hobs, bare_tree hbare, hbare.2.2, hx, hobs]
    rfl
  rw [if_neg hobs]
  by_cases hunit : eqForDot f.1 = "unitCode".toList
  · obtain ⟨hbare, s, hs⟩ := ha.unitCode f hf hunit
    rw [if_pos hunit, bare_tree hbare, hbare.2.2, hs, hunit]
    rfl
  rw [if_neg hunit]
  have hvalue (md : PatchedMetadata) := metadataItems_valueName md
    (f.2.type == "Relationship".toList) (dbDataToKjTree f.2.value) fun hrel => by
      obtain ⟨s, hs⟩ := ha.relationship f hf (eq_of_beq hrel)
      exact ⟨s, by rw [hs]; rfl⟩
  have htype : metadataItems ⟨eqForDot f.1, [], none⟩
      (if f.2.type = [] then [] else [("type".toList, .string f.2.type)]) =
        .ok ⟨eqForDot f.1, f.2.type, none⟩ := by
    by_cases hempty : f.2.type = []
    · rw [if_pos hempty, hempty]
      rfl
    · rw [if_neg hempty]
      rfl
  rw [metadataTree, metadataEffect, metadataItems_append, metadataItems_append,
    metadataItems_stamp (.inl rfl), ok_bind, metadataItems_stamp (.inr rfl), ok_bind,
    metadataItems_append, htype, ok_bind, hvalue]
  rfl

/-- The merge adds stored sub-attributes only, and all that are not named. -/
theorem mergeMd_spec (acc : Members) (md : List (Text × KjNode)) :
    ∃ kept, mergeMd acc md = acc ++ kept ∧ kept ⊆ md.map (fun f => (eqForDot f.1, f.2)) ∧
      ((md.map fun f => eqForDot f.1).Nodup → ∀ f ∈ md,
        eqForDot f.1 ∉ acc.map Prod.fst → (eqForDot f.1, f.2) ∈ kept) := by
  induction md generalizing acc with
  | nil => exact ⟨[], by rw [mergeMd, append_nil], fun _ h => absurd h not_mem_nil,
      fun _ f hf => absurd hf not_mem_nil⟩
  | cons f md ih =>
    obtain ⟨key, node⟩ := f
    rw [mergeMd]
    split
    · next hin =>
      obtain ⟨kept, heq, hsub, hall⟩ := ih acc
      refine ⟨kept, heq, fun m hm => mem_cons_of_mem _ (hsub hm), fun hnodup f hf hnot => ?_⟩
      rcases mem_cons.mp hf with rfl | hf
      · rw [lookup_eq_none_of_not_mem hnot] at hin
        cases hin
      · exact hall (nodup_cons.mp hnodup).2 f hf hnot
    · obtain ⟨kept, heq, hsub, hall⟩ := ih (acc ++ [(eqForDot key, node)])
      refine ⟨(eqForDot key, node) :: kept, by rw [heq, append_assoc]; rfl, ?_,
        fun hnodup f hf hnot => ?_⟩
      · intro m hm
        rcases mem_cons.mp hm with rfl | hm
        · exact mem_cons_self
        · exact mem_cons_of_mem _ (hsub hm)
      · obtain ⟨hhead, htail⟩ := nodup_cons.mp hnodup
        rcases mem_cons.mp hf with rfl | hf
        · exact mem_cons_self
        refine mem_cons_of_mem _ (hall htail f hf ?_)
        rw [map_append, mem_append, not_or]
        refine ⟨hnot, fun h => hhead ?_⟩
        exact mem_map.mpr ⟨f, hf, mem_singleton.mp h⟩

theorem attributeTree_value (ha : a.type ≠ .relationship) :
    (membersOf (attributeTree a)).lookup "value".toList = some (dbDataToKjTree a.value) := by
  have hrel : (a.type == .relationship) = false := beq_false_of_ne ha
  rw [attributeTree, hrel]
  rfl

theorem attributeTree_no_value (ha : a.type = .relationship) :
    (membersOf (attributeTree a)).lookup "value".toList = none := by
  rw [attributeTree, ha]
  rfl

theorem attributeTree_md : (membersOf (attributeTree a)).lookup "md".toList =
    some (.object (a.md.map fun f => (f.1, metadataTree f.2))) := by
  rw [attributeTree]
  cases (a.type == .relationship) <;> rfl

/-- For a relationship the merge is given up and the fragment stays as it is. -/
theorem merge_relationship {fragment : Members} {hasType : Bool} (ha : a.type = .relationship)
    (h : "value".toList ∉ fragment.map Prod.fst) :
    kjAttributeMerge env fragment (membersOf (attributeTree a)) a.type.name.toList a.creDate
      hasType = fragment := by
  rw [kjAttributeMerge, lookup_eq_none_of_not_mem h, attributeTree_no_value ha]

def dbMembers (env : Env) (a : StoredAttribute) (fragment : Members) (hasType : Bool) : Members :=
  (if (fragment.lookup "value".toList).isSome then []
    else [("value".toList, dbDataToKjTree a.value)]) ++
  (if hasType then [] else [("type".toList, KjNode.string a.type.name.toList)]) ++
  [("createdAt".toList, .float a.creDate), ("modifiedAt".toList, .float env.requestTime)]

/-- Otherwise what the fragment does not give is added, and then the stored sub-attributes. -/
theorem merge_property {fragment : Members} {hasType : Bool} (ha : a.type ≠ .relationship) :
    kjAttributeMerge env fragment (membersOf (attributeTree a)) a.type.name.toList a.creDate
      hasType = mergeMd (fragment ++ dbMembers env a fragment hasType)
        (a.md.map fun f => (f.1, metadataTree f.2)) := by
  rw [kjAttributeMerge, attributeTree_value ha, attributeTree_md, dbMembers]
  cases fragment.lookup "value".toList <;>
    simp

variable {fragment : Members}

theorem isRelationship_name (type : AttributeType) :
    isRelationship type.name.toList = (type == .relationship) := by
  cases type <;> decide

theorem type_ne_nil (type : AttributeType) : type.name.toList ≠ [] := by
  cases type <;> decide

theorem fragment_type (h : ∀ m ∈ fragment, m.1 = "type".toList → ∃ s, m.2 = .string s) :
    fragment.reverse.findSome? memberType = (lastType fragment).bind stringText := by
  have hlookup := findSome_eq_lookup memberType "type".toList fragment.reverse
    (fun m _ hm => if_neg hm) fun m hm hname => by
      obtain ⟨s, hs⟩ := h m (mem_reverse.mp hm) hname
      rw [memberType, if_pos hname, hs]
      rfl
  rw [hlookup]
  rfl

theorem fragment_creDate : fragment.reverse.findSome? (memberCreDate env) =
    (fragment.reverse.lookup "createdAt".toList).map (doubleOf env) := by
  have hlookup := findSome_eq_lookup (memberCreDate env) "createdAt".toList fragment.reverse
    (fun m _ hm => if_neg hm) fun m _ hname => by rw [memberCreDate, if_pos hname]; rfl
  rw [hlookup, map_eq_bind]
  rfl

variable {f : Seen} {hasType : Bool} {ca : PatchedAttribute}

theorem fragment_value (h : Accepted env a.type.name.toList f fragment) :
    fragment.reverse.findSome? (memberValue kjTreeToCompoundValue) =
      (fragment.lookup (valueName (a.type == .relationship))).map kjTreeToCompoundValue := by
  have hnone {k : Text} (hk : k ∉ fragment.map Prod.fst) {m : Text × KjNode}
      (hm : m ∈ fragment.reverse) : m.1 ≠ k :=
    fun heq => hk (mem_map.mpr ⟨m, mem_reverse.mp hm, heq⟩)
  by_cases hrel : a.type = .relationship
  · have hvalue := h.value (by rw [hrel]; decide)
    have hlookup := findSome_eq_lookup (memberValue kjTreeToCompoundValue) "object".toList
      fragment.reverse
      (fun m hm hname => by rw [memberValue, if_neg (hnone hvalue hm), if_neg hname])
      fun m hm hname => by
        obtain ⟨s, hs⟩ := h.string m (mem_reverse.mp hm) hname
        rw [memberValue, if_neg (hnone hvalue hm), if_pos hname, hs]
        rfl
    rw [hlookup, h.onceObject, hrel]
    show _ = (fragment.lookup "object".toList).map kjTreeToCompoundValue
    cases hobject : fragment.lookup "object".toList with
    | none => rfl
    | some node =>
      obtain ⟨s, hs⟩ := h.string _ (mem_of_lookup_eq_some hobject) rfl
      rw [show node = .string s from hs]
      rfl
  · have hobject := h.object (by rw [isRelationship_name]; exact beq_false_of_ne hrel)
    have hlookup := findSome_eq_lookup (memberValue kjTreeToCompoundValue) "value".toList
      fragment.reverse
      (fun m hm hname => by rw [memberValue, if_neg hname, if_neg (hnone hobject hm)])
      fun m _ hname => by rw [memberValue, if_pos hname]; rfl
    rw [hlookup, h.onceValue, beq_false_of_ne hrel, map_eq_bind]
    rfl

theorem findSome_append_none {kept : Members} (h : ∀ m ∈ kept, g m = none) :
    (ms ++ kept).reverse.findSome? g = ms.reverse.findSome? g := by
  have hkept : kept.reverse.findSome? g = none :=
    List.findSome?_eq_none_iff.mpr fun m hm => h m (mem_reverse.mp hm)
  rw [reverse_append, List.findSome?_append, hkept]
  exact none_or

theorem db_type (hasType : Bool) : (dbMembers env a fragment hasType).reverse.findSome? memberType =
    if hasType then none else some a.type.name.toList := by
  rw [dbMembers]
  cases hasType <;> cases (fragment.lookup "value".toList).isSome <;> rfl

theorem db_value (hasType : Bool) :
    (dbMembers env a fragment hasType).reverse.findSome? (memberValue kjTreeToCompoundValue) =
      if (fragment.lookup "value".toList).isSome then none
      else some (kjTreeToCompoundValue (dbDataToKjTree a.value)) := by
  rw [dbMembers]
  cases hasType <;> cases (fragment.lookup "value".toList).isSome <;> rfl

theorem db_creDate (hasType : Bool) :
    (dbMembers env a fragment hasType).reverse.findSome? (memberCreDate env) = some a.creDate := by
  rw [dbMembers]
  cases hasType <;> cases (fragment.lookup "value".toList).isSome <;> rfl

theorem db_effect (hm : m ∈ dbMembers env a fragment hasType) :
    isSubAttribute m.1 = false ∧ ∃ e, memberEffect env m = .ok e := by
  rw [dbMembers, mem_append, mem_append] at hm
  rcases hm with (hm | hm) | hm
  · split at hm
    · cases hm
    · rw [mem_singleton.mp hm]
      exact ⟨rfl, _, rfl⟩
  · split at hm
    · cases hm
    · rw [mem_singleton.mp hm]
      exact ⟨rfl, _, rfl⟩
  · rcases mem_cons.mp hm with rfl | hm
    · exact ⟨rfl, _, rfl⟩
    · rw [mem_singleton.mp hm]
      exact ⟨rfl, _, rfl⟩

theorem metadata_none (env : Env) (h : isSubAttribute m.1 = true) :
    memberType m = none ∧ memberValue kjTreeToCompoundValue m = none ∧
      memberCreDate env m = none := by
  obtain ⟨htype, hvalue, hobject, hcreated, -⟩ := (isSubAttribute_iff m.1).mp h
  exact ⟨if_neg htype, by rw [memberValue, if_neg hvalue, if_neg hobject], if_neg hcreated⟩

theorem kept_stored (env : Env) (ha : WellStored a) {kept : Members}
    (h : kept ⊆ (a.md.map fun f => (f.1, metadataTree f.2)).map fun f => (eqForDot f.1, f.2))
    (hm : m ∈ kept) : isSubAttribute m.1 = true ∧
      ∃ f ∈ a.md, memberEffect env m = .ok (.metadata (asStored f)) := by
  obtain ⟨g, hg, rfl⟩ := mem_map.mp (h hm)
  obtain ⟨f, hf, rfl⟩ := mem_map.mp hg
  exact ⟨ha.named f hf, f, hf, stored_effect ha hf⟩

theorem property_attribute (ha : WellStored a) (hrel : a.type ≠ .relationship)
    (hacc : Accepted env a.type.name.toList f fragment)
    (h : kjAttributeToNgsiContextAttribute env name (mergeMd
    (fragment ++ dbMembers env a fragment hasType)
    (a.md.map fun f => (f.1, metadataTree f.2))) = .ok ca) :
    ca.type = (if hasType then fragment.reverse.findSome? memberType
        else some a.type.name.toList).getD [] ∧
      ca.value = some (givenValue kjTreeToCompoundValue a fragment) ∧ ca.creDate = a.creDate ∧
      (∃ mds rest, ca.metadataVector = mds ++ rest ∧ Forall₂
        (fun m md => memberEffect env m = .ok (.metadata md)) (subAttributes fragment) mds) ∧
      ∀ f ∈ a.md, eqForDot f.1 ∉ fragment.map Prod.fst → asStored f ∈ ca.metadataVector := by
  obtain ⟨kept, hmerge, hkept, hall⟩ := mergeMd_spec (fragment ++ dbMembers env a fragment hasType)
    (a.md.map fun f => (f.1, metadataTree f.2))
  rw [hmerge] at h
  obtain ⟨htype, hvalue, hcreDate, es, hes, hmd⟩ := attribute_eq h
  have hnone {m : Text × KjNode} (hm : m ∈ kept) :=
    metadata_none env (kept_stored env ha hkept hm).1
  refine ⟨?_, ?_, ?_, ?_, fun f hf hnot => ?_⟩
  · rw [htype, findSome_append_none fun m hm => (hnone hm).1, reverse_append,
      List.findSome?_append, db_type]
    cases hasType <;> rfl
  · rw [hvalue, findSome_append_none fun m hm => (hnone hm).2.1, reverse_append,
      List.findSome?_append, db_value, fragment_value hacc, givenValue, beq_false_of_ne hrel]
    show _ = some (match fragment.lookup "value".toList with
      | some node => kjTreeToCompoundValue node
      | none => kjTreeToCompoundValue (dbDataToKjTree a.value))
    show Option.or _ (Option.map _ (fragment.lookup "value".toList)) = _
    cases fragment.lookup "value".toList <;> rfl
  · rw [hcreDate, findSome_append_none fun m hm => (hnone hm).2.2, reverse_append,
      List.findSome?_append, db_creDate]
    rfl
  · rw [append_assoc] at hes
    rw [hmd]
    exact metadata_order hes
  · rw [hmd, mem_metadata hes]
    refine ⟨_, List.mem_append_right _ (hall ?_ (f.1, metadataTree f.2)
      (List.mem_map.mpr ⟨f, hf, rfl⟩) ?_), stored_effect ha hf⟩
    · rw [List.map_map]
      exact ha.distinct
    · rw [List.map_append, List.mem_append, not_or]
      refine ⟨hnot, fun hdb => ?_⟩
      obtain ⟨m, hm, hname⟩ := mem_map.mp hdb
      have hsub := ha.named f hf
      rw [← show m.1 = eqForDot f.1 from hname, (db_effect hm).1] at hsub
      cases hsub

theorem fragment_effects (hacc : Accepted env a.type.name.toList f fragment)
    (hshape : SubAttributesShaped fragment)
    (htype : ∀ m ∈ fragment, m.1 = "type".toList → ∃ s, m.2 = .string s) :
    ∀ m ∈ fragment, ∃ e, memberEffect env m = .ok e := by
  intro m hm
  by_cases hsub : isSubAttribute m.1 = true
  · obtain ⟨md, hmd, -⟩ := given_of_shape hsub (hacc.observedAt m hm) (hshape m hm hsub)
    exact ⟨_, hmd⟩
  unfold memberEffect
  by_cases ht : m.1 = "type".toList
  · obtain ⟨s, hs⟩ := htype m hm ht
    rw [if_pos ht, hs]
    exact ⟨_, rfl⟩
  rw [if_neg ht]
  split
  · exact ⟨_, rfl⟩
  rename_i hv
  by_cases ho : m.1 = "object".toList
  · obtain ⟨s, hs⟩ := hacc.string m hm ho
    rw [if_pos ho, hs]
    exact ⟨_, rfl⟩
  rw [if_neg ho]
  split
  · exact ⟨_, rfl⟩
  rename_i hc
  by_cases hmod : m.1 = "modifiedAt".toList
  · rw [if_pos hmod]
    exact ⟨_, rfl⟩
  exact absurd ((isSubAttribute_iff m.1).mpr ⟨ht, hv, ho, hc, hmod⟩) hsub

theorem given_all (hacc : Accepted env a.type.name.toList f fragment)
    (hshape : SubAttributesShaped fragment) {mds : List PatchedMetadata}
    (h : Forall₂ (fun m md => memberEffect env m = .ok (.metadata md)) (subAttributes fragment)
      mds) : Forall₂ (fun m md => Given valueOf env m.1 m.2 md) (subAttributes fragment) mds := by
  have hboth := forall₂_and_left _ _ |>.mpr ⟨fun m hm => hm, h⟩
  refine hboth.imp fun m md ⟨hm, heffect⟩ => ?_
  obtain ⟨hm, hsub⟩ := mem_filter.mp hm
  obtain ⟨md', heffect', hgiven⟩ := given_of_shape hsub (hacc.observedAt m hm) (hshape m hm hsub)
  rw [heffect] at heffect'
  exact Effect.metadata.inj (Except.ok.inj heffect') ▸ hgiven

theorem merged_exists (ha : WellStored a) (hacc : Accepted env a.type.name.toList f fragment)
    (h : ∀ m ∈ fragment, ∃ e, memberEffect env m = .ok e) :
    ∃ ca, kjAttributeToNgsiContextAttribute env name (kjAttributeMerge env fragment
      (membersOf (attributeTree a)) a.type.name.toList a.creDate hasType) = .ok ca := by
  by_cases hrel : a.type = .relationship
  · rw [merge_relationship hrel (hacc.value (by rw [hrel]; decide))]
    obtain ⟨es, hes⟩ := memberEffects_exists h
    exact ⟨_, by rw [kjAttributeToNgsiContextAttribute, hes]; rfl⟩
  rw [merge_property hrel]
  obtain ⟨kept, hmerge, hkept, -⟩ := mergeMd_spec
    (fragment ++ dbMembers env a fragment hasType) (a.md.map fun f => (f.1, metadataTree f.2))
  rw [hmerge]
  have hall : ∀ m ∈ fragment ++ dbMembers env a fragment hasType ++ kept,
      ∃ e, memberEffect env m = .ok e := by
    intro m hm
    rcases mem_append.mp hm with hm | hm
    · rcases mem_append.mp hm with hm | hm
      · exact h m hm
      · exact (db_effect hm).2
    · obtain ⟨-, g, -, hg⟩ := kept_stored env ha hkept hm
      exact ⟨_, hg⟩
  obtain ⟨es, hes⟩ := memberEffects_exists hall
  exact ⟨_, by rw [kjAttributeToNgsiContextAttribute, hes]; rfl⟩

theorem merge_fragment_subset (hacc : Accepted env a.type.name.toList f fragment)
    (hm : m ∈ fragment) :
    m ∈ kjAttributeMerge env fragment (membersOf (attributeTree a)) a.type.name.toList a.creDate
      hasType := by
  by_cases hrel : a.type = .relationship
  · rw [merge_relationship hrel (hacc.value (by rw [hrel]; decide))]
    exact hm
  rw [merge_property hrel]
  obtain ⟨kept, hmerge, -⟩ := mergeMd_spec
    (fragment ++ dbMembers env a fragment hasType) (a.md.map fun f => (f.1, metadataTree f.2))
  rw [hmerge]
  exact mem_append_left _ (mem_append_left _ hm)

theorem getD_eq_of_ne {o : Option β} {d x : β} (h : o.getD d = x) (hx : x ≠ d) : o = some x := by
  cases o with
  | none => exact absurd h.symm hx
  | some y => exact congrArg some h

theorem lastType_of_text {o : Option KjNode} {s : Text} (h : o.bind stringText = some s) :
    o = some (.string s) := by
  obtain ⟨node, rfl, hs⟩ := bind_eq_some_iff.mp h
  cases node <;> simp [stringText] at hs
  rw [hs]

theorem selfContained_of_update (ha : WellStored a) (hrel : a.type = .relationship)
    (hacc : Accepted env a.type.name.toList f fragment)
    (htypes : ∀ m ∈ fragment, m.1 = "type".toList → ∃ s, m.2 = .string s)
    (h : kjAttributeToNgsiContextAttribute env name fragment = .ok ca)
    (hpart : PartialUpdate env a fragment ca) : SelfContained env a fragment := by
  obtain ⟨htype, hvalue, hcreDate, es, hes, hmd⟩ := attribute_eq h
  refine ⟨?_, ?_, ?_, fun f hf => ?_⟩
  · rw [fragment_type htypes, hpart.type] at htype
    exact lastType_of_text (getD_eq_of_ne htype.symm (type_ne_nil a.type))
  · rw [fragment_value hacc, hrel, hpart.value] at hvalue
    obtain ⟨node, hnode, -⟩ := map_eq_some_iff.mp hvalue.symm
    exact ⟨_, mem_of_lookup_eq_some hnode, rfl⟩
  · rw [fragment_creDate, hpart.creDate] at hcreDate
    exact getD_eq_of_ne hcreDate.symm ha.dated.ne'
  · by_contra hnot
    have hmem := hpart.stored f hf hnot
    rw [hmd, mem_metadata hes] at hmem
    obtain ⟨m, hm, heffect⟩ := hmem
    rcases memberEffect_cases heffect with ⟨-, s, -, h⟩ | ⟨-, h⟩ | ⟨-, s, -, h⟩ | ⟨-, h⟩ |
      ⟨-, h⟩ | ⟨-, md, h, hname⟩
    any_goals cases h
    exact hnot (mem_map.mpr ⟨m, hm, hname.symm⟩)

theorem partial_of_selfContained (hrel : a.type = .relationship)
    (hacc : Accepted env a.type.name.toList f fragment)
    (htypes : ∀ m ∈ fragment, m.1 = "type".toList → ∃ s, m.2 = .string s)
    (hshape : SubAttributesShaped fragment)
    (h : kjAttributeToNgsiContextAttribute env name fragment = .ok ca)
    (hself : SelfContained env a fragment) : PartialUpdate env a fragment ca := by
  obtain ⟨htype, hvalue, hcreDate, es, hes, hmd⟩ := attribute_eq h
  obtain ⟨hlast, ⟨m, hm, hname⟩, hdate, hnames⟩ := hself
  refine ⟨?_, ?_, ?_, ?_, fun f hf hnot => absurd (hnames f hf) hnot⟩
  · rw [hvalue, fragment_value hacc, givenValue, hrel]
    show (fragment.lookup "object".toList).map kjTreeToCompoundValue =
      some (match fragment.lookup "object".toList with
        | some node => valueOf node
        | none => kjTreeToCompoundValue (dbDataToKjTree a.value))
    cases hlookup : fragment.lookup "object".toList with
    | none =>
      have hne := bne_iff_ne.mp (lookup_eq_none_iff.mp hlookup m hm)
      exact absurd hname.symm hne
    | some node =>
      obtain ⟨s, hs⟩ := hacc.string _ (mem_of_lookup_eq_some hlookup) rfl
      rw [show node = .string s from hs]
      rfl
  · rw [htype, fragment_type htypes, hlast]
    rfl
  · rw [hcreDate, fragment_creDate, hdate]
    rfl
  · rw [← append_nil fragment] at hes
    rw [hmd]
    obtain ⟨mds, rest, hmds, hall⟩ := metadata_order hes
    exact ⟨mds, rest, hmds, given_all hacc hshape hall⟩

theorem shaped_of_given (hacc : Accepted env a.type.name.toList f fragment)
    (h : kjAttributeToNgsiContextAttribute env name (kjAttributeMerge env fragment
      (membersOf (attributeTree a)) a.type.name.toList a.creDate hasType) = .ok ca)
    (hpart : PartialUpdate env a fragment ca) : SubAttributesShaped fragment := by
  obtain ⟨ms, hms⟩ : ∃ ms, kjAttributeMerge env fragment (membersOf (attributeTree a))
      a.type.name.toList a.creDate hasType = fragment ++ ms := by
    by_cases hrel : a.type = .relationship
    · rw [merge_relationship hrel (hacc.value (by rw [hrel]; decide))]
      exact ⟨[], (append_nil _).symm⟩
    rw [merge_property hrel]
    obtain ⟨kept, hmerge, -⟩ := mergeMd_spec
      (fragment ++ dbMembers env a fragment hasType) (a.md.map fun f => (f.1, metadataTree f.2))
    rw [hmerge, append_assoc]
    exact ⟨_, rfl⟩
  rw [hms] at h
  obtain ⟨-, -, -, es, hes, hmd⟩ := attribute_eq h
  obtain ⟨mds, rest, hmds, heffects⟩ := metadata_order hes
  obtain ⟨mds', rest', hmds', hgiven⟩ := hpart.given
  have hsame : mds ++ rest = mds' ++ rest' := hmds.symm.trans (hmd.symm.trans hmds')
  obtain ⟨rfl, -⟩ := append_inj hsame (heffects.length_eq.symm.trans hgiven.length_eq)
  intro m hm hsub hobs
  obtain ⟨md, heffect, hgiven⟩ := forall₂_both heffects hgiven (mem_filter.mpr ⟨hm, hsub⟩)
  exact shape_of_given hsub heffect hgiven hobs

theorem value_exact_iff :
    givenValue kjTreeToCompoundValue a fragment = givenValue valueOf a fragment ↔
      ∀ node ∈ fragment.lookup (valueName (a.type == .relationship)), Exact node := by
  unfold givenValue
  cases fragment.lookup (valueName (a.type == .relationship)) with
  | none => exact iff_of_true rfl nofun
  | some node => simp only [Option.mem_def, Option.some.injEq, forall_eq', converted_iff]

def storedLength : StoredAttribute where
  type := .property
  value := .num 1
  md := [("unitCode".toList, ⟨none, none, [], .str "MTR".toList⟩)]
  mdNames := ["unitCode".toList]
  creDate := 1
  modDate := 1

def lengthFragment : Members := [("value".toList, .int 2)]

theorem storedLength_wellStored : WellStored storedLength := by
  have hmd {f : Text × StoredMetadata} (hf : f ∈ storedLength.md) :
      f = ("unitCode".toList, ⟨none, none, [], .str "MTR".toList⟩) := mem_singleton.mp hf
  refine ⟨nodup_singleton _, fun f hf => ?_, fun f hf h => ?_, fun f hf _ => ?_,
    fun f hf _ => ?_, by decide⟩
  · rw [hmd hf]
    rfl
  · rw [hmd hf] at h
    exact absurd h (by decide)
  · rw [hmd hf]
    exact ⟨⟨rfl, rfl, rfl⟩, _, rfl⟩
  · rw [hmd hf]
    exact ⟨_, rfl⟩

def storedOwner : StoredAttribute where
  type := .relationship
  value := .str "urn:E2".toList
  md := []
  mdNames := []
  creDate := 1
  modDate := 1

def ownerFragment : Members := [("object".toList, .string "urn:E3".toList)]

end PatchAttributePartial
