import OrionLd.OrionldPostEntity

/-! What POST /entities/*/attrs leaves alone: the attributes it refuses, and the default
instance of those for which the payload only has instances with a datasetId. The names to
delete are fixed before the conversion, and the deletion is made when any member has a default
instance. -/
namespace PostEntityKept

open KjTree OrionldContextItem KjTreeToContextAttribute FieldList MongoEntity OrionldPostEntity
  Fallible

variable (env : Env)

/-- The member is given under a name that is stored as x. -/
def Names (m : Text × KjNode) (x : Text) : Prop :=
  isTimestamp m.1 = false ∧ dotForEq (longName env m.1) = x

/-- The payload only has instances with a datasetId for the attribute stored as x. -/
def OnlyInDatasets (members : Members) (x : Text) : Prop :=
  (∃ m ∈ members, Names env m x) ∧ ∀ m ∈ members, Names env m x → onlyDatasets m.2

def storedAfter (e : Entity) : Except PostError PostResult → Entity
  | .ok r => r.entity
  | .error _ => e

def listedNotUpdated : Except PostError PostResult → List NotUpdated
  | .ok r => r.notUpdated
  | .error _ => []

def storedNames : Except PostError PostResult → List Text
  | .ok r => r.contextAttributeVector.map fun ca => dotForEq ca.name
  | .error _ => []

/-- Every attribute not updated, or with only instances that have a datasetId, is stored as before,
unless another member updates it. -/
def AttributesKept (merge : MergeAttrInfo) (noOverwrite : Bool) (e : Entity) (entityId : Text)
    (requestTree : KjNode) : Prop :=
  let res := orionldPostEntity env merge noOverwrite (some e) entityId requestTree
  ∀ x, (∃ n ∈ listedNotUpdated res, dotForEq n.attr = x) ∨
      OnlyInDatasets env (payloadMembers requestTree) x → x ∉ storedNames res →
    (storedAfter e res).attrs.lookup x = e.attrs.lookup x

/-- It may not be overwritten, or the loop gets to a member of that name and refuses it. -/
def RefusedName (noOverwrite : Bool) (e : Entity) (members : Members) (x : Text) : Prop :=
  let (left, notUpdated) := firstPass env noOverwrite e.attrNames members
  (∃ n ∈ notUpdated, dotForEq n.attr = x) ∨
    ∃ m ∈ reached left, dotForEq m.1 = x ∧ ∃ reason, treatment env m = .notUpdated reason

/-- Nothing that the payload leaves alone is stored under a name that gets deleted, or nothing is
deleted. -/
def HarmlessDeletion (noOverwrite : Bool) (e : Entity) (members : Members) : Prop :=
  let left := (firstPass env noOverwrite e.attrNames members).1
  (∀ m ∈ left, onlyDatasets m.2) ∨
    ∀ x ∈ attrNameV left, RefusedName env noOverwrite e members x ∨ OnlyInDatasets env members x →
      x ∉ (reached left).filterMap (fun m => (convertedBy env m).map fun ca => dotForEq ca.name) →
      e.attrs.lookup x = none

variable {env} {merge : MergeAttrInfo} {noOverwrite : Bool} {e : Entity} {members : Members}
  {r : PostResult}

theorem any_default_reached (members : Members) :
    (reached members).any (!onlyDatasets ·.2) = members.any (!onlyDatasets ·.2) := by
  induction members with
  | nil => rfl
  | cons m members ih =>
    by_cases h : lifted m.2 = true
    · have hd : onlyDatasets m.2 = false := by
        obtain ⟨name, node⟩ := m
        cases node with
        | array items =>
          rw [onlyDatasets_array]
          simp only [lifted, beq_iff_eq] at h
          cases hl : items.filter (!hasDatasetId ·) with
          | nil => simp [hl] at h
          | cons x xs => rfl
        | _ => rfl
      simp [reached, h, hd]
    · simp [reached, h, ih]

theorem mem_notUpdatedBy {left : Members} {x : Text} :
    (∃ n ∈ left.filterMap (notUpdatedBy env), dotForEq n.attr = x) ↔
      ∃ m ∈ left, dotForEq m.1 = x ∧ ∃ reason, treatment env m = .notUpdated reason := by
  constructor
  · rintro ⟨n, hn, rfl⟩
    obtain ⟨m, hm, hby⟩ := List.mem_filterMap.mp hn
    unfold notUpdatedBy at hby
    split at hby
    · rename_i reason ht
      cases hby
      exact ⟨m, hm, rfl, reason, ht⟩
    · cases hby
  · rintro ⟨m, hm, rfl, reason, ht⟩
    refine ⟨⟨m.1, orionldContextItemAliasLookup env.toContexts m.1, reason⟩,
      List.mem_filterMap.mpr ⟨m, hm, ?_⟩, rfl⟩
    simp [notUpdatedBy, ht]

theorem postMembers_ok (h : postMembers env merge noOverwrite e members = .ok r) :
    let (left, notUpdated) := firstPass env noOverwrite e.attrNames members
    r.notUpdated = notUpdated ++ (reached left).filterMap (notUpdatedBy env) ∧
      r.contextAttributeVector = (reached left).filterMap (convertedBy env) ∧
      r.entity.attrs = (if left.any (!onlyDatasets ·.2) then
          mongoUpdateContextAppend env merge noOverwrite
            (dbEntityAttributesDelete e (attrNameV left)) r.contextAttributeVector
        else e).attrs := by
  rw [postMembers_eq] at h
  rw [firstPass_eq]
  generalize members.filterMap (leftBy env noOverwrite e.attrNames) = left at h ⊢
  generalize members.filterMap (keptBy env noOverwrite e.attrNames) = notUpdated at h ⊢
  cases hc : convertMembers env left ⟨e.datasets, false, [], [], notUpdated⟩ with
  | error err => rw [hc] at h; cases h
  | ok s =>
    rw [hc] at h
    cases h
    obtain ⟨hcas, -, hnot, hdef⟩ := convertMembers_lists hc
    refine ⟨hnot, by simpa using hcas, ?_⟩
    rw [any_default_reached, Bool.false_or] at hdef
    rw [← hdef]
    exact (writeEntity_fields env merge noOverwrite e s _).1

theorem lookup_after {left : Members} {x : Text} (hdef : left.any (!onlyDatasets ·.2) = true)
    (hx : x ∉ r.contextAttributeVector.map fun ca => dotForEq ca.name)
    (hattrs : r.entity.attrs = (if left.any (!onlyDatasets ·.2) then
      mongoUpdateContextAppend env merge noOverwrite
        (dbEntityAttributesDelete e (attrNameV left)) r.contextAttributeVector
      else e).attrs) :
    r.entity.attrs.lookup x = if x ∈ attrNameV left then none else e.attrs.lookup x := by
  rw [hattrs, if_pos hdef, lookup_append_of_notMem hx]
  split
  · next hm =>
    exact lookup_remove_of_mem hm
  · next hm =>
    exact lookup_remove_of_notMem hm

theorem members_kept_iff (h : postMembers env merge noOverwrite e members = .ok r) :
    (∀ x, (∃ n ∈ r.notUpdated, dotForEq n.attr = x) ∨ OnlyInDatasets env members x →
      x ∉ (r.contextAttributeVector.map fun ca => dotForEq ca.name) →
      r.entity.attrs.lookup x = e.attrs.lookup x) ↔ HarmlessDeletion env noOverwrite e members := by
  have hok := postMembers_ok h
  unfold HarmlessDeletion RefusedName
  generalize firstPass env noOverwrite e.attrNames members = p at hok ⊢
  obtain ⟨left, notUpdated⟩ := p
  obtain ⟨hnot, hcas, hattrs⟩ := hok
  have hspared : ∀ x, (∃ n ∈ r.notUpdated, dotForEq n.attr = x) ↔
      (∃ n ∈ notUpdated, dotForEq n.attr = x) ∨
        ∃ m ∈ reached left, dotForEq m.1 = x ∧ ∃ reason, treatment env m = .notUpdated reason := by
    intro x
    rw [← mem_notUpdatedBy, hnot]
    simp only [List.mem_append, or_and_right, exists_or]
  have hnames : (r.contextAttributeVector.map fun ca => dotForEq ca.name) =
      (reached left).filterMap fun m => (convertedBy env m).map fun ca => dotForEq ca.name := by
    rw [hcas, List.map_filterMap]
  by_cases hdef : left.any (!onlyDatasets ·.2) = true
  · have hnone : ¬ ∀ m ∈ left, onlyDatasets m.2 = true := by
      obtain ⟨m, hm, hd⟩ := List.any_eq_true.mp hdef
      intro hall
      simp [hall m hm] at hd
    constructor
    · intro hkept
      right
      intro x hx hrefused hx'
      rw [← hnames] at hx'
      have hsame := hkept x (hrefused.imp_left (hspared x).mpr) hx'
      rw [lookup_after hdef hx' hattrs, if_pos hx] at hsame
      exact hsame.symm
    · rintro (hall | hfree) x hx hx'
      · exact absurd hall hnone
      · rw [lookup_after hdef hx' hattrs]
        split
        · rename_i hmem
          exact (hfree x hmem (hx.imp_left (hspared x).mp) (hnames ▸ hx')).symm
        · rfl
  · rw [hattrs, if_neg hdef]
    have hall : ∀ m ∈ left, onlyDatasets m.2 = true := by
      intro m hm
      by_contra hd
      exact hdef (List.any_eq_true.mpr ⟨m, hm, by simpa using hd⟩)
    exact ⟨fun _ => .inl hall, fun _ _ _ _ => rfl⟩

/-- The stored instances of the attribute, before the one of the datasetId, have no datasetId that
is a string, or that one was never created. -/
def Unplaceable (datasetId : Text) : List KjNode → Prop
  | [] => False
  | instP :: instances =>
    match kjLookup instP "datasetId" with
    | some (.string id) =>
      if id = datasetId then kjLookup instP "createdAt" = none else Unplaceable datasetId instances
    | _ => True

def RefusedInstance (slot : List KjNode) : KjNode → Prop
  | .object members =>
    match members.lookup "datasetId".toList with
    | some (.string id) => pcheckUri id = false ∨ Unplaceable id slot
    | some _ => True
    | none => False
  | _ => True

/-- An instance that is refused, or a default instance that no request may have. -/
def RefusedMember (env : Env) (datasets : Option (List (Text × List KjNode)))
    (m : Text × KjNode) : Prop :=
  acceptable env m ≠ .ok () ∨ ∃ items, m.2 = .array items ∧
    ∃ item ∈ items, RefusedInstance (slotOf datasets (dotForEq m.1)) item

def RefusedWhole (env : Env) (noOverwrite : Bool) (e : Entity) (entityId : Text)
    (requestTree : KjNode) : Prop :=
  pcheckUri entityId = false ∨ (∀ members, requestTree ≠ .object members) ∨
    ∃ m ∈ reached (firstPass env noOverwrite e.attrNames (payloadMembers requestTree)).1,
      RefusedMember env e.datasets m

variable {incoming : Members} {datasetId : Text} {slot slot' : List KjNode}
  {datasets : Option (List (Text × List KjNode))} {s : PostState} {m : Text × KjNode}

theorem replaceInstance_iff :
    (∃ o, replaceInstance env incoming datasetId slot = .ok o) ↔ ¬ Unplaceable datasetId slot := by
  induction slot with
  | nil => exact iff_of_true ⟨none, rfl⟩ not_false
  | cons instP instances ih =>
    unfold replaceInstance Unplaceable
    split
    · rename_i hid
      simp [hid]
    · rename_i id hid
      simp only [hid]
      split
      · split
        · rename_i hcreated
          simp [hcreated]
        · rename_i hcreated
          simp [hcreated]
      · rw [← ih]
        cases replaceInstance env incoming datasetId instances <;> simp [bind, Except.bind]
    · rename_i d hstring hid
      rw [hid]
      refine iff_of_false nofun (not_not_intro ?_)
      cases d with
      | string id => exact absurd rfl (hstring id)
      | _ => trivial

theorem stamped_created (incoming : Members) (createdAt : KjNode) :
    kjLookup (stamped env incoming createdAt) "createdAt" ≠ none := by
  change List.lookup _ (incoming ++ _) ≠ none
  rw [List.lookup_append]
  cases incoming.lookup "createdAt".toList <;> exact nofun

theorem stamped_datasetId (createdAt : KjNode)
    (h : incoming.lookup "datasetId".toList = some (.string datasetId)) :
    kjLookup (stamped env incoming createdAt) "datasetId" = some (.string datasetId) := by
  change List.lookup _ (incoming ++ _) = _
  rw [List.lookup_append, h]
  rfl

theorem unplaceable_cons {id : Text} {instP : KjNode}
    (h : kjLookup instP "datasetId" = some (.string id)) (x : Text) :
    Unplaceable x (instP :: slot) ↔
      if id = x then kjLookup instP "createdAt" = none else Unplaceable x slot := by
  rw [Unplaceable, h]

/-- An instance in the place of one with its datasetId changes nothing for those to come. -/
theorem unplaceable_replaced (hid : incoming.lookup "datasetId".toList = some (.string datasetId))
    (h : replaceInstance env incoming datasetId slot = .ok (some slot')) (x : Text) :
    Unplaceable x slot' ↔ Unplaceable x slot := by
  induction slot generalizing slot' with
  | nil => cases h
  | cons instP instances ih =>
    unfold replaceInstance at h
    split at h
    · cases h
    · rename_i id hinst
      split at h
      · rename_i heq
        subst heq
        split at h
        · rename_i createdAt hcreated
          cases h
          rw [unplaceable_cons (stamped_datasetId createdAt hid), unplaceable_cons hinst]
          split
          · exact iff_of_false (stamped_created incoming createdAt)
              (by rw [hcreated]; exact nofun)
          · exact .rfl
        · cases h
      · obtain ⟨replaced, hreplaced, h⟩ := bind_ok h
        obtain ⟨rest, rfl, rfl⟩ := Option.map_eq_some_iff.mp (Except.ok.inj h)
        rw [unplaceable_cons hinst, unplaceable_cons hinst, ih hreplaced]
    · cases h

theorem unplaceable_appended (hid : incoming.lookup "datasetId".toList = some (.string datasetId))
    (h : replaceInstance env incoming datasetId slot = .ok none) (createdAt : KjNode) (x : Text) :
    Unplaceable x (slot ++ [stamped env incoming createdAt]) ↔ Unplaceable x slot := by
  induction slot with
  | nil =>
    rw [List.nil_append, unplaceable_cons (stamped_datasetId createdAt hid)]
    refine iff_of_false ?_ not_false
    split
    · exact stamped_created incoming createdAt
    · exact not_false
  | cons instP instances ih =>
    unfold replaceInstance at h
    split at h
    · cases h
    · rename_i id hinst
      split at h
      · split at h <;> cases h
      · obtain ⟨replaced, hreplaced, h⟩ := bind_ok h
        obtain rfl := Option.map_eq_none_iff.mp (Except.ok.inj h)
        rw [List.cons_append, unplaceable_cons hinst, unplaceable_cons hinst, ih hreplaced]
    · cases h

theorem unplaceable_inserted (hid : incoming.lookup "datasetId".toList = some (.string datasetId))
    (h : insertInstance env incoming datasetId slot = .ok slot') (x : Text) :
    Unplaceable x slot' ↔ Unplaceable x slot := by
  obtain ⟨replaced, hreplaced, h⟩ := bind_ok h
  cases replaced with
  | some slot₁ =>
    cases h
    exact unplaceable_replaced hid hreplaced x
  | none =>
    cases h
    exact unplaceable_appended hid hreplaced _ x

theorem insertInstance_iff :
    (∃ slot', insertInstance env incoming datasetId slot = .ok slot') ↔
      ¬ Unplaceable datasetId slot := by
  have hreplace : (∃ o, replaceInstance env incoming datasetId slot = .ok o) ↔
      ¬ Unplaceable datasetId slot := replaceInstance_iff
  rw [← hreplace, insertInstance]
  cases replaceInstance env incoming datasetId slot with
  | error err => exact iff_of_false nofun nofun
  | ok o => cases o <;> exact iff_of_true ⟨_, rfl⟩ ⟨_, rfl⟩

theorem refusedInstance_object (incoming : Members) :
    RefusedInstance slot (.object incoming) ↔ match incoming.lookup "datasetId".toList with
      | some (.string id) => pcheckUri id = false ∨ Unplaceable id slot
      | some _ => True
      | none => False := .rfl

theorem refusedInstance_congr (h : ∀ x, Unplaceable x slot' ↔ Unplaceable x slot) (item : KjNode) :
    RefusedInstance slot' item ↔ RefusedInstance slot item := by
  cases item <;> simp only [RefusedInstance, h]

theorem slotAfter_unplaceable {items : List KjNode} (h : slotAfter env items slot = .ok slot')
    (x : Text) : Unplaceable x slot' ↔ Unplaceable x slot := by
  induction items generalizing slot with
  | nil =>
    cases h
    exact .rfl
  | cons item items ih =>
    unfold slotAfter at h
    split at h
    · next hnil => cases hnil
    · next hitem =>
      cases hitem
      split at h
      · rename_i id hid
        split at h
        · obtain ⟨slot₁, hinsert, h⟩ := bind_ok h
          exact (ih h).trans (unplaceable_inserted hid hinsert x)
        · cases h
      · cases h
      · exact ih h
    · cases h

theorem error_not_ok {α : Type} {err : PostError} :
    ¬ ∃ x : α, Except.error err = Except.ok x := by
  rintro ⟨x, h⟩
  cases h

theorem slotAfter_iff {items : List KjNode} :
    (∃ slot', slotAfter env items slot = .ok slot') ↔
      ∀ item ∈ items, ¬ RefusedInstance slot item := by
  induction items generalizing slot with
  | nil => exact iff_of_true ⟨slot, rfl⟩ (List.forall_mem_nil _)
  | cons item items ih =>
    rw [List.forall_mem_cons]
    cases item with
    | object members =>
      rw [slotAfter, refusedInstance_object]
      cases hid : members.lookup "datasetId".toList with
      | none => exact ih.trans (and_iff_right not_false).symm
      | some d =>
        cases d with
        | string id =>
          by_cases huri : pcheckUri id = true
          · simp only [huri, if_true, Bool.true_eq_false, false_or]
            have hplace : (∃ slot', insertInstance env members id slot = .ok slot') ↔
                ¬ Unplaceable id slot := insertInstance_iff
            rw [← hplace]
            cases hinsert : insertInstance env members id slot with
            | error err => exact iff_of_false error_not_ok fun h => error_not_ok h.1
            | ok slot₁ =>
              have hrest := @ih slot₁
              simp only [refusedInstance_congr (unplaceable_inserted hid hinsert)] at hrest
              exact hrest.trans (and_iff_right ⟨slot₁, rfl⟩).symm
          · simp only [if_neg huri]
            exact iff_of_false error_not_ok fun h => h.1 (.inl (Bool.eq_false_iff.mpr huri))
        | _ => exact iff_of_false error_not_ok fun h => h.1 trivial
    | _ => exact iff_of_false error_not_ok fun h => h.1 trivial

theorem memberSlot_iff : (∃ slot', memberSlot env m slot = .ok slot') ↔
    ¬ ∃ items, m.2 = .array items ∧ ∃ item ∈ items, RefusedInstance slot item := by
  obtain ⟨name, node⟩ := m
  cases node with
  | array items =>
    refine slotAfter_iff.trans ⟨?_, fun h item hitem hr => h ⟨items, rfl, item, hitem, hr⟩⟩
    rintro h ⟨items', heq, item, hitem, hr⟩
    cases heq
    exact h item hitem hr
  | _ => exact iff_of_true ⟨slot, rfl⟩ nofun

theorem refusedMember_congr (h : memberSlot env m (slotOf datasets (dotForEq m.1)) = .ok slot)
    (m' : Text × KjNode) :
    RefusedMember env (withSlot datasets m slot) m' ↔ RefusedMember env datasets m' := by
  have hall : ∀ x, Unplaceable x (slotOf (withSlot datasets m slot) (dotForEq m'.1)) ↔
      Unplaceable x (slotOf datasets (dotForEq m'.1)) := by
    intro x
    obtain ⟨name, node⟩ := m
    cases node with
    | array items =>
      unfold withSlot
      dsimp only
      split
      · by_cases hkey : dotForEq m'.1 = dotForEq name
        · rw [hkey, ← slotAfter_unplaceable h x]
          simp [slotOf]
        · simp [slotOf, lookup_put_of_ne hkey]
      · exact .rfl
    | _ => exact .rfl
  simp only [RefusedMember, refusedInstance_congr hall]

/-- The loop ends with an error at the first member that it refuses. -/
theorem convertMembers_iff : (∃ s', convertMembers env members s = .ok s') ↔
    ∀ m ∈ reached members, ¬ RefusedMember env s.datasets m := by
  induction members generalizing s with
  | nil => exact iff_of_true ⟨s, rfl⟩ fun m hm => absurd hm List.not_mem_nil
  | cons m members ih =>
    have hmem : m ∈ reached (m :: members) := by
      unfold reached
      split <;> exact List.mem_cons_self
    have hslot : (∃ slot', memberSlot env m (slotOf s.datasets (dotForEq m.1)) = .ok slot') ↔
        ¬ ∃ items, m.2 = .array items ∧
          ∃ item ∈ items, RefusedInstance (slotOf s.datasets (dotForEq m.1)) item := memberSlot_iff
    rw [convertMembers, convertMember_eq]
    cases hm : memberSlot env m (slotOf s.datasets (dotForEq m.1)) with
    | error err =>
      rw [hm] at hslot
      refine iff_of_false error_not_ok fun h => h m hmem (.inr ?_)
      by_contra hno
      exact error_not_ok (hslot.mpr hno)
    | ok slot =>
      cases hacc : acceptable env m with
      | error err =>
        have hrefused : acceptable env m ≠ .ok () := by
          rw [hacc]
          intro h
          cases h
        exact iff_of_false error_not_ok fun h => h m hmem (.inl hrefused)
      | ok u =>
        have hfirst : ¬ RefusedMember env s.datasets m := by
          rintro (h | h)
          · exact h hacc
          · exact hslot.mp ⟨slot, hm⟩ h
        have hsets :=
          (treated_lists env { s with datasets := withSlot s.datasets m slot } m).2.2.2.2
        simp only [Except.map, Except.bind, bind, reached]
        split
        · exact iff_of_true ⟨_, rfl⟩ fun m' hm' => List.mem_singleton.mp hm' ▸ hfirst
        · rw [ih, hsets, List.forall_mem_cons]
          simp only [refusedMember_congr hm]
          exact (and_iff_right hfirst).symm

theorem refusedWhole_iff {entityId : Text} {requestTree : KjNode} :
    RefusedWhole env noOverwrite e entityId requestTree ↔
      ∀ r, orionldPostEntity env merge noOverwrite (some e) entityId requestTree ≠ .ok r := by
  unfold RefusedWhole orionldPostEntity
  cases hid : pcheckUri entityId with
  | false => exact iff_of_true (.inl rfl) nofun
  | true =>
    cases requestTree with
    | object members =>
      have hiff := @convertMembers_iff env (members.filterMap (leftBy env noOverwrite e.attrNames))
        ⟨e.datasets, false, [], [], members.filterMap (keptBy env noOverwrite e.attrNames)⟩
      simp only [postMembers_eq, firstPass_eq, payloadMembers]
      rw [← not_iff_not]
      simp only [not_or, not_exists, not_and, not_forall, not_not]
      constructor
      · rintro ⟨-, -, hall⟩
        obtain ⟨s', hs'⟩ := hiff.mpr hall
        exact ⟨_, by rw [hs']; rfl⟩
      · rintro ⟨r, hr⟩
        obtain ⟨s', hs', -⟩ := map_ok hr
        exact ⟨nofun, ⟨members, rfl⟩, hiff.mp ⟨s', hs'⟩⟩
    | _ => exact iff_of_true (.inr (.inl nofun)) nofun

theorem attributes_kept_iff (env : Env) (merge : MergeAttrInfo) (noOverwrite : Bool) (e : Entity)
    (entityId : Text) (requestTree : KjNode) :
    AttributesKept env merge noOverwrite e entityId requestTree ↔
      RefusedWhole env noOverwrite e entityId requestTree ∨
        HarmlessDeletion env noOverwrite e (payloadMembers requestTree) := by
  have hwhole : RefusedWhole env noOverwrite e entityId requestTree ↔
      ∀ r, orionldPostEntity env merge noOverwrite (some e) entityId requestTree ≠ .ok r :=
    refusedWhole_iff
  rw [hwhole]
  unfold AttributesKept
  cases h : orionldPostEntity env merge noOverwrite (some e) entityId requestTree with
  | error err => simp [storedAfter]
  | ok r =>
    have hiff := members_kept_iff (orionldPostEntity_ok h).2
    constructor
    · intro hkept
      exact .inr (hiff.mp hkept)
    · rintro (hno | hfree)
      · exact absurd rfl (hno r)
      · exact hiff.mpr hfree

theorem refused_attribute_lost :
    ¬ AttributesKept plainEnv (fun _ _ => none) false (storedEntity ["P1"]) "urn:E1".toList
      (.object [("P1".toList, .object [("type".toList, .string "Propperty".toList)])]) := by
  intro h
  have hlost := h (storedName "P1") (.inl ⟨⟨plainEnv.defaultUrl ++ "P1".toList, "P1".toList,
    "Invalid type for attribute: Propperty".toList⟩, by decide +kernel, by decide +kernel⟩)
    (by decide +kernel)
  have hafter := congrArg Option.isSome hlost
  revert hafter
  decide +kernel

end PostEntityKept
