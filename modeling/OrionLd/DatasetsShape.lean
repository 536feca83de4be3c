import OrionLd.AttributeDatasets

/-! The shape of @datasets: every slot is an array of instances with distinct datasetIds.
The codec keeps it, and so do the requests that change an entity that exists, since each of them
looks an instance up before it adds one. -/
namespace DatasetsShape

open KjTree KjTreeToContextAttribute MongoEntity AttributeNames FieldList Fallible
open OrionldPostEntities AttributeDatasets MongoCppLegacyCodec List Option
open OrionldPostEntity (PostError replaceInstance slotAfter stamped writeEntity)
open OrionldPatchAttribute

def instanceId : KjNode → Option Text
  | .object members =>
    match members.lookup "datasetId".toList with
    | some (.string id) => some id
    | _ => none
  | _ => none

structure InstanceList (items : List KjNode) : Prop where
  identified : none ∉ items.map instanceId
  distinct : (items.map instanceId).Nodup

def SlotShape (slot : KjNode) : Prop := ∃ items, slot = .array items ∧ InstanceList items

structure Shape (e : StoredEntity) : Prop where
  names : ((e.datasets.getD []).map Prod.fst).Nodup
  slots : ∀ f ∈ e.datasets.getD [], SlotShape f.2

/-- attrDatasetIdInsert replaces exactly this instance, and needs the date that it keeps. -/
def InsertFinds (pre : List KjNode) (instP : KjNode) (post : List KjNode) (id : Text) : Prop :=
  ∀ env incoming, OrionldPostEntity.replaceInstance env incoming id (pre ++ instP :: post) =
    match kjLookup instP "createdAt" with
    | some createdAt =>
      .ok (some (pre ++ OrionldPostEntity.stamped env incoming createdAt :: post))
    | none => .error .fault

def PatchFinds (e : StoredEntity) (name : Text) (pre : List KjNode) (instP : KjNode)
    (post : List KjNode) (id : Text) : Prop :=
  dbDatasetGet e name id = some (.array (pre ++ instP :: post)) ∧
    ∀ change, changeLast change id (pre ++ instP :: post) =
      (change instP).map fun instP => some (pre ++ instP :: post)

def InstancesFound (e : StoredEntity) : Prop :=
  ∀ name pre instP post, (name, .array (pre ++ instP :: post)) ∈ e.datasets.getD [] →
    ∀ id, instanceId instP = some id →
      InsertFinds pre instP post id ∧ PatchFinds e name pre instP post id

def DbShape (db : Db) : Prop := ∀ f ∈ db, Shape f.2 ∧ InstancesFound f.2

/-- The names of the slots that have instances fit the buffers of the queries. -/
structure ShortShape (e : StoredEntity) : Prop extends Shape e where
  short : ∀ f ∈ e.datasets.getD [], f.2 ≠ .array [] → f.1.length ≤ 235

variable {items slot : List KjNode} {instP : KjNode} {members : Members}
variable {dbEntity : Option StoredEntity} {attrName entityId : Text} {datasetId : Option Text}

theorem InstanceList.congr {items' : List KjNode} (h : InstanceList items)
    (heq : items'.map instanceId = items.map instanceId) : InstanceList items' :=
  ⟨heq ▸ h.identified, heq ▸ h.distinct⟩

theorem instanceId_some {id : Text} (h : instanceId instP = some id) :
    ∃ members, instP = .object members ∧ members.lookup "datasetId".toList = some (.string id) := by
  unfold instanceId at h
  split at h
  · rename_i members
    split at h
    · rename_i id' hid
      exact ⟨members, rfl, by rw [hid, some.inj h]⟩
    · cases h
  · cases h

theorem instanceId_object {id : Text} (h : members.lookup "datasetId".toList = some (.string id)) :
    instanceId (.object members) = some id := by rw [instanceId, h]

theorem lookup_append_some {others : Members} {k : Text} {node : KjNode}
    (h : members.lookup k = some node) : (members ++ others).lookup k = some node := by
  rw [lookup_append, h, some_or]

theorem kjLookup_datasetId {id : Text} (h : instanceId instP = some id) :
    kjLookup instP "datasetId" = some (.string id) := by
  obtain ⟨members, rfl, hid⟩ := instanceId_some h
  exact hid

theorem lookup_throughCodec {k : Text} {node node' : KjNode} (h : members.lookup k = some node)
    (hkept : kept node = some node') : (throughCodec members).lookup k = some node' := by
  unfold throughCodec
  induction members with
  | nil => cases h
  | cons m members ih =>
    obtain ⟨name, own⟩ := m
    rw [object_cons]
    by_cases hk : k = name
    · rw [hk, lookup_cons, beq_self_eq_true] at h
      obtain rfl : own = node := some.inj h
      rw [hkept, map_some, toList_some, singleton_append, lookup_cons, hk, beq_self_eq_true]
    rw [lookup_cons, beq_false_of_ne hk] at h
    cases kept own with
    | none => exact ih h
    | some n =>
      rw [map_some, toList_some, singleton_append, lookup_cons, beq_false_of_ne hk]
      exact ih h

theorem kept_object (members : Members) :
    kept (.object members) = some (.object (throughCodec members)) := by
  simp [kept, kjTreeToBson, bsonToKjTree, throughCodec]

theorem kept_array (items : List KjNode) :
    kept (.array items) = some (.array (arrayToKjTree (kjTreeToBsonArray items))) := by
  simp [kept, kjTreeToBson, bsonToKjTree]

theorem kept_instance {id : Text} (h : instanceId instP = some id) :
    ∃ instP', kept instP = some instP' ∧ instanceId instP' = some id := by
  obtain ⟨members, rfl, hid⟩ := instanceId_some h
  exact ⟨_, kept_object members, instanceId_object (lookup_throughCodec hid rfl)⟩

theorem codec_instanceIds (h : none ∉ items.map instanceId) :
    (arrayToKjTree (kjTreeToBsonArray items)).map instanceId = items.map instanceId := by
  induction items with
  | nil => rfl
  | cons item items ih =>
    rw [map_cons, mem_cons, not_or] at h
    obtain ⟨id, hid⟩ := ne_none_iff_exists'.mp (Ne.symm h.1)
    obtain ⟨item', hkept, hid'⟩ := kept_instance hid
    rw [array_cons, hkept, toList_some, singleton_append, map_cons, map_cons, hid, hid', ih h.2]

theorem InstanceList.throughCodec (h : InstanceList items) :
    InstanceList (arrayToKjTree (kjTreeToBsonArray items)) :=
  h.congr (codec_instanceIds h.identified)

theorem throughCodec_names (members : Members) :
    ((throughCodec members).map Prod.fst).Sublist (members.map Prod.fst) := by
  unfold OrionldPostEntities.throughCodec
  induction members with
  | nil => exact List.Sublist.refl _
  | cons m members ih =>
    obtain ⟨name, node⟩ := m
    rw [object_cons]
    cases kept node with
    | none => exact ih.cons name
    | some n => exact ih.cons_cons name

theorem mem_throughCodec {f : Text × KjNode} (h : f ∈ throughCodec members) :
    ∃ node, (f.1, node) ∈ members ∧ kept node = some f.2 := by
  unfold OrionldPostEntities.throughCodec at h
  induction members with
  | nil => cases h
  | cons m members ih =>
    obtain ⟨name, node⟩ := m
    rw [object_cons] at h
    rcases mem_append.mp h with h | h
    · obtain ⟨n, hn, rfl⟩ := map_eq_some_iff.mp (mem_toList.mp h)
      exact ⟨node, mem_cons_self, hn⟩
    · obtain ⟨n, hn, hkept⟩ := ih h
      exact ⟨n, mem_cons_of_mem _ hn, hkept⟩

theorem shortShape_throughCodec {slots : Members} (h : ShortShape ⟨[], [], some slots⟩)
    (attrs : List (Text × StoredAttribute)) (attrNames : List Text) :
    ShortShape ⟨attrs, attrNames, some (throughCodec slots)⟩ where
  names := h.names.sublist (throughCodec_names slots)
  slots := by
    intro f hf
    obtain ⟨node, hnode, hkept⟩ := mem_throughCodec hf
    obtain ⟨items, hitems, hlist⟩ := h.slots _ hnode
    rw [show node = .array items from hitems, kept_array] at hkept
    exact ⟨_, (some.inj hkept).symm, hlist.throughCodec⟩
  short := by
    intro f hf hne
    obtain ⟨node, hnode, hkept⟩ := mem_throughCodec hf
    refine h.short (f.1, node) hnode ?_
    intro hempty
    rw [show node = .array [] from hempty] at hkept
    exact hne (some.inj hkept).symm

variable {env : Env} {id : Text} {incoming : Members}

theorem instanceId_stamped (env : Env) (createdAt : KjNode)
    (h : incoming.lookup "datasetId".toList = some (.string id)) :
    instanceId (stamped env incoming createdAt) = some id :=
  instanceId_object (lookup_append_some h)

theorem replaceInstance_ids (hid : incoming.lookup "datasetId".toList = some (.string id))
    {replaced : Option (List KjNode)} (hs : none ∉ items.map instanceId)
    (h : replaceInstance env incoming id items = .ok replaced) :
    match replaced with
    | some items' => items'.map instanceId = items.map instanceId
    | none => some id ∉ items.map instanceId := by
  induction items generalizing replaced with
  | nil =>
    cases h
    exact not_mem_nil
  | cons item items ih =>
    rw [map_cons, mem_cons, not_or] at hs
    obtain ⟨own, hown⟩ := ne_none_iff_exists'.mp (Ne.symm hs.1)
    rw [replaceInstance, kjLookup_datasetId hown] at h
    simp only at h
    split at h
    · next hsame =>
      split at h
      · rename_i createdAt hcreated
        cases h
        simp only [map_cons]
        rw [instanceId_stamped env createdAt hid, hown, hsame]
      · cases h
    · next hsame =>
      obtain ⟨later, hlater, hreplaced⟩ := bind_ok h
      have hstep := ih hs.2 hlater
      cases Except.ok.inj hreplaced
      cases later with
      | some items' =>
        simp only [map_some, map_cons] at hstep ⊢
        rw [hstep]
      | none =>
        simp only [map_none, map_cons, mem_cons, not_or] at hstep ⊢
        refine ⟨?_, hstep⟩
        rw [hown]
        exact fun heq => hsame (some.inj heq).symm

theorem instanceList_insert (hid : incoming.lookup "datasetId".toList = some (.string id))
    {slot' : List KjNode} (hs : InstanceList slot)
    (h : OrionldPostEntity.insertInstance env incoming id slot = .ok slot') :
    InstanceList slot' := by
  obtain ⟨replaced, hreplaced, hslot⟩ := bind_ok h
  have hids := replaceInstance_ids hid hs.identified hreplaced
  cases replaced with
  | some items =>
    cases hslot
    exact hs.congr hids
  | none =>
    cases hslot
    have hnew : instanceId (stamped env incoming (.float env.requestTime)) =
        some id := instanceId_stamped env _ hid
    constructor
    · rw [map_append, map_singleton, hnew, mem_append, mem_singleton]
      exact not_or.mpr ⟨hs.identified, (some_ne_none id).symm⟩
    · rw [map_append, map_singleton, hnew]
      exact nodup_append.mpr ⟨hs.distinct, nodup_singleton _, by
        intro a ha b hb heq
        rw [mem_singleton] at hb
        exact hids (hb ▸ heq ▸ ha)⟩

theorem instanceList_slotAfter {slot' : List KjNode} (hs : InstanceList slot)
    (h : slotAfter env items slot = .ok slot') : InstanceList slot' := by
  induction items generalizing slot with
  | nil =>
    cases h
    exact hs
  | cons item items ih =>
    cases item with
    | object members =>
      rw [slotAfter] at h
      split at h
      · rename_i id hid
        split at h
        · obtain ⟨next, hnext, hrest⟩ := bind_ok h
          exact ih (instanceList_insert hid hs hnext) hrest
        · cases h
      · cases h
      · exact ih hs h
    | _ => cases h

/-- The slots of an entity as lists of instances. -/
structure SlotLists (d : List (Text × List KjNode)) : Prop where
  names : (d.map Prod.fst).Nodup
  short : ∀ f ∈ d, f.2 ≠ [] → f.1.length ≤ 235
  lists : ∀ f ∈ d, InstanceList f.2

/-- The stored name of an attribute that is given with datasets fits the buffers. -/
def ShortNames (c : OrionldContextItem.Contexts) (members : Members) : Prop :=
  ∀ m ∈ members, ∀ items, m.2 = .array items →
    items.any OrionldPostEntity.hasDatasetId = true → (databaseKey c m.1).length ≤ 235

variable {d : Option (List (Text × List KjNode))} {e : StoredEntity}

theorem SlotLists.slotOf (h : SlotLists (d.getD [])) (key : Text) :
    InstanceList (OrionldPostEntity.slotOf d key) := by
  unfold OrionldPostEntity.slotOf
  cases hslot : (d.getD []).lookup key with
  | none => exact ⟨List.not_mem_nil, List.nodup_nil⟩
  | some slot => exact h.lists _ (mem_of_lookup hslot)

theorem SlotLists.withSlot (h : SlotLists (d.getD [])) {m : Text × KjNode}
    (hshort : ∀ items, m.2 = .array items →
    items.any OrionldPostEntity.hasDatasetId = true → (dotForEq m.1).length ≤ 235)
    (hslot : OrionldPostEntity.memberSlot env m
    (OrionldPostEntity.slotOf d (dotForEq m.1)) = .ok slot) :
    SlotLists ((OrionldPostEntity.withSlot d m slot).getD []) := by
  obtain ⟨name, node⟩ := m
  cases node with
  | array items =>
    have hlist : InstanceList slot := instanceList_slotAfter (h.slotOf (dotForEq name)) hslot
    by_cases hany : items.any OrionldPostEntity.hasDatasetId = true
    · rw [show OrionldPostEntity.withSlot d (name, .array items) slot =
        some (put (dotForEq name) slot (d.getD [])) from if_pos hany]
      constructor
      · exact nodup_put h.names
      · intro f hf
        rcases mem_put hf with rfl | hf
        · exact fun _ => hshort items rfl hany
        · exact h.short f hf
      · intro f hf
        rcases mem_put hf with rfl | hf
        · exact hlist
        · exact h.lists f hf
    · rw [show OrionldPostEntity.withSlot d (name, .array items) slot = d from if_neg hany]
      exact h
  | null => exact h
  | bool b => exact h
  | int i => exact h
  | float f => exact h
  | string s => exact h
  | object members => exact h

theorem slotLists_convertMembers {s s' : OrionldPostEntity.PostState}
    (hs : SlotLists (s.datasets.getD [])) (hshort : ∀ m ∈ members, ∀ items, m.2 = .array items →
    items.any OrionldPostEntity.hasDatasetId = true → (dotForEq m.1).length ≤ 235)
    (h : OrionldPostEntity.convertMembers env members s = .ok s') :
    SlotLists (s'.datasets.getD []) := by
  induction members generalizing s with
  | nil =>
    cases h
    exact hs
  | cons m members ih =>
    obtain ⟨⟨next, cut⟩, hnext, hrest⟩ := bind_ok h
    obtain ⟨slot, hslot, -, rfl, -⟩ := OrionldPostEntity.convertMember_ok hnext
    have hdatasets : (OrionldPostEntity.PostState.treated env
        { s with datasets := OrionldPostEntity.withSlot s.datasets m slot } m).datasets =
        OrionldPostEntity.withSlot s.datasets m slot :=
      (OrionldPostEntity.treated_lists env _ m).2.2.2.2
    have hstep := hs.withSlot (hshort m mem_cons_self) hslot
    rw [← hdatasets] at hstep
    cases cut with
    | true =>
      cases hrest
      exact hstep
    | false => exact ih hstep (fun m hm => hshort m (mem_cons_of_mem _ hm)) hrest

theorem writeEntity_datasets (env : Env) (merge : MergeAttrInfo) (noOverwrite : Bool)
    (names : List Text) (s : OrionldPostEntity.PostState) (e : Entity) :
    (writeEntity env merge noOverwrite names s e).datasets =
      s.datasets.or e.datasets := by
  unfold writeEntity
  cases s.datasets <;> cases s.notOnlyDatasets <;> rfl

theorem slotLists_nil : SlotLists [] := by
  constructor
  · exact nodup_nil
  · intro f hf
    cases hf
  · intro f hf
    cases hf

theorem slotLists_of_shape (h : ShortShape e) : SlotLists ((entityOf e).datasets.getD []) := by
  unfold entityOf
  cases hd : e.datasets with
  | none => exact slotLists_nil
  | some d =>
    have hmem : ∀ f ∈ d, f ∈ e.datasets.getD [] := by
      intro f hf
      rw [hd]
      exact hf
    have hnames := h.names
    rw [hd] at hnames
    constructor
    · rw [Option.map_some, Option.getD_some, List.map_map]
      exact hnames
    · intro f hf hne
      obtain ⟨g, hg, rfl⟩ := mem_map.mp hf
      refine h.short g (hmem g hg) fun hempty => hne ?_
      rw [hempty]
      rfl
    · intro f hf
      obtain ⟨g, hg, rfl⟩ := mem_map.mp hf
      obtain ⟨items, hitems, hlist⟩ := h.slots g (hmem g hg)
      rw [hitems]
      exact hlist

theorem withSlots_names (members : Members) (d : List (Text × List KjNode)) :
    (withSlots members d).map Prod.fst = d.map Prod.fst := by
  induction d generalizing members with
  | nil => cases members <;> rfl
  | cons f d ih =>
    cases members with
    | nil => exact congrArg (f.1 :: ·) (ih [])
    | cons m members => exact congrArg (f.1 :: ·) (ih members)

theorem mem_withSlots {d : List (Text × List KjNode)}
    (h : ∀ m ∈ members, ∃ items, m.2 = .array items) {f : Text × KjNode}
    (hf : f ∈ withSlots members d) : ∃ items, (f.1, items) ∈ d ∧ f.2 = .array items := by
  induction d generalizing members with
  | nil => cases members <;> cases hf
  | cons g d ih =>
    cases members with
    | nil =>
      rcases mem_cons.mp hf with rfl | hf
      · exact ⟨g.2, mem_cons_self, rfl⟩
      · obtain ⟨items, hitems, hslot⟩ := ih h hf
        exact ⟨items, mem_cons_of_mem _ hitems, hslot⟩
    | cons m members =>
      rcases mem_cons.mp hf with rfl | hf
      · obtain ⟨old, hold⟩ := h m mem_cons_self
        refine ⟨g.2, mem_cons_self, ?_⟩
        simp only [hold, withItems]
      · obtain ⟨items, hitems, hslot⟩ := ih (fun m hm => h m (mem_cons_of_mem _ hm)) hf
        exact ⟨items, mem_cons_of_mem _ hitems, hslot⟩

theorem shortShape_empty (h : e.datasets = none) : ShortShape e := by
  constructor
  · constructor
    · rw [h]
      exact nodup_nil
    · intro f hf
      rw [h] at hf
      cases hf
  · intro f hf
    rw [h] at hf
    cases hf

theorem shortShape_ofEntity {old : StoredEntity} (hold : ShortShape old) {e : Entity}
    (h : SlotLists (e.datasets.getD [])) : ShortShape (ofEntity old e) := by
  unfold ofEntity
  cases hd : e.datasets with
  | none => exact shortShape_empty rfl
  | some d =>
    rw [hd] at h
    have harrays : ∀ m ∈ old.datasets.getD [], ∃ items, m.2 = .array items := by
      intro m hm
      obtain ⟨items, hitems, -⟩ := hold.slots m hm
      exact ⟨items, hitems⟩
    refine shortShape_throughCodec ⟨⟨?_, ?_⟩, ?_⟩ _ _
    · rw [getD_some, withSlots_names]
      exact h.names
    · intro f hf
      obtain ⟨items, hitems, hslot⟩ := mem_withSlots harrays hf
      exact ⟨items, hslot, h.lists _ hitems⟩
    · intro f hf hne
      obtain ⟨items, hitems, hslot⟩ := mem_withSlots harrays hf
      refine h.short (f.1, items) hitems fun hempty => hne ?_
      rw [hslot, show items = [] from hempty]

theorem shortShape_postEntity {merge : MergeAttrInfo} {noOverwrite : Bool} {requestTree : KjNode}
    (hdb : ∀ e ∈ dbEntity, ShortShape e)
    (hshort : ShortNames env.toContexts (OrionldPostEntity.payloadMembers requestTree))
    (h : postEntity env merge noOverwrite dbEntity entityId requestTree = .ok e) :
    ShortShape e := by
  obtain ⟨r, hr, he⟩ := bind_ok h
  cases he
  cases dbEntity with
  | none =>
    unfold OrionldPostEntity.orionldPostEntity at hr
    split at hr
    · cases hr
    · split at hr <;> cases hr
  | some old =>
    have hold : ShortShape old := hdb old rfl
    have hpost := (OrionldPostEntity.orionldPostEntity_ok hr).2
    rw [OrionldPostEntity.postMembers_eq] at hpost
    obtain ⟨s, hs, hresult⟩ := map_ok hpost
    refine shortShape_ofEntity hold ?_
    rw [← hresult]
    simp only [writeEntity_datasets]
    have hlists := slotLists_of_shape hold
    have hafter : SlotLists (s.datasets.getD []) := by
      refine slotLists_convertMembers hlists ?_ hs
      intro m hm items hitems
      obtain ⟨m', hm', hleft⟩ := mem_filterMap.mp hm
      unfold OrionldPostEntity.leftBy at hleft
      split at hleft
      · cases hleft
      · cases hleft
        exact hshort m' hm' items hitems
    cases hd : s.datasets with
    | none => exact hlists
    | some d =>
      rw [hd] at hafter
      exact hafter

def datasetIdName : Text := "datasetId".toList

variable {ms : Members} {k name : Text}
variable {change : KjNode → Except PostError KjNode}

theorem count_kjChildRemove_ne (ms : Members) (h : k ≠ name) :
    ((kjChildRemove ms name).map Prod.fst).count k = (ms.map Prod.fst).count k := by
  unfold kjChildRemove
  induction ms with
  | nil => rfl
  | cons m ms ih =>
    obtain ⟨n, node⟩ := m
    by_cases hn : n = name
    · rw [eraseP_cons_of_pos (by simpa using hn), map_cons,
        count_cons_of_ne (hn ▸ Ne.symm h)]
    · rw [eraseP_cons_of_neg (by simpa using hn), map_cons, map_cons,
        count_cons, count_cons, ih]

theorem notMem_withoutFirst (h : (ms.map Prod.fst).count datasetIdName ≤ 1) :
    datasetIdName ∉ (withoutFirst "datasetId" ms).map Prod.fst := by
  change datasetIdName ∉ (kjChildRemove ms datasetIdName).map Prod.fst
  unfold kjChildRemove
  induction ms with
  | nil => exact not_mem_nil
  | cons m ms ih =>
    obtain ⟨n, node⟩ := m
    by_cases hn : n = datasetIdName
    · rw [eraseP_cons_of_pos (by simpa using hn)]
      rw [map_cons, hn, count_cons_self] at h
      exact count_eq_zero.mp (by omega)
    rw [eraseP_cons_of_neg (by simpa using hn), map_cons, mem_cons, not_or]
    rw [map_cons, count_cons_of_ne hn] at h
    exact ⟨Ne.symm hn, ih h⟩

theorem pcheckMember_datasetId {type : Option Text} {f f' : OrionldPatchAttribute.Seen}
    {m : Text × KjNode} (h : OrionldPatchAttribute.pcheckMember env name type f m = .ok f') :
    if m.1 = datasetIdName then f.datasetId = false ∧ f'.datasetId = true
    else f'.datasetId = f.datasetId := by
  unfold OrionldPatchAttribute.pcheckMember at h
  split at h
  · next hvalue =>
    rw [if_neg (hvalue ▸ toList_ne (by decide))]
    obtain ⟨u, -, h⟩ := bind_ok h
    split at h
    · cases h
    · cases h
      rfl
  split at h
  · next hobject =>
    rw [if_neg (hobject ▸ toList_ne (by decide))]
    split at h
    · cases h
    obtain ⟨u, -, h⟩ := bind_ok h
    obtain ⟨u, -, h⟩ := bind_ok h
    cases h
    rfl
  split at h
  · next hobserved =>
    rw [if_neg (hobserved ▸ toList_ne (by decide))]
    obtain ⟨u, -, h⟩ := bind_ok h
    obtain ⟨u, -, h⟩ := bind_ok h
    cases h
    rfl
  split
  · next hdataset =>
    rw [if_pos (show m.1 = "datasetId".toList from hdataset)] at h
    obtain ⟨u, honce, h⟩ := bind_ok h
    obtain ⟨u, -, h⟩ := bind_ok h
    cases h
    exact ⟨OrionldPatchAttribute.onlyOnce_ok honce, rfl⟩
  · next hdataset =>
    rw [if_neg (show ¬ m.1 = "datasetId".toList from hdataset)] at h
    cases h
    rfl

theorem pcheckMembers_count {type : Option Text} {f : OrionldPatchAttribute.Seen}
    (h : OrionldPatchAttribute.pcheckMembers env name type ms f = .ok ()) :
    (ms.map Prod.fst).count datasetIdName ≤ if f.datasetId then 0 else 1 := by
  induction ms generalizing f with
  | nil => exact Nat.zero_le _
  | cons m ms ih =>
    obtain ⟨f', hm, hrest⟩ := bind_ok h
    have hlater := ih hrest
    have hseen := pcheckMember_datasetId hm
    split at hseen
    · next hname =>
      rw [hseen.2, if_pos rfl] at hlater
      rw [hseen.1, if_neg Bool.false_ne_true, map_cons, hname, count_cons_self]
      omega
    · next hname =>
      rw [hseen] at hlater
      rw [map_cons, count_cons_of_ne hname]
      exact hlater

theorem pcheckAttribute_count {typeMandatory : Bool}
    (h : pcheckAttribute env [] none typeMandatory ms = .ok ()) :
    (ms.map Prod.fst).count datasetIdName ≤ 1 := by
  unfold OrionldPatchAttribute.pcheckAttribute at h
  simp only at h
  split at h
  · have hcount := pcheckMembers_count h
    have hne : datasetIdName ≠ "type".toList := toList_ne (by decide)
    rw [count_kjChildRemove_ne ms hne] at hcount
    exact hcount
  · cases h
  · split at h
    · cases h
    · exact pcheckMembers_count h

variable {env : UnionEnv}

theorem setModifiedAt_datasetId {members' : Members}
    (hid : members.lookup datasetIdName = some (.string id))
    (h : setModifiedAt env members = .ok members') :
    members'.lookup datasetIdName = some (.string id) := by
  have hne : datasetIdName ≠ "modifiedAt".toList := toList_ne (by decide)
  induction members generalizing members' with
  | nil => cases hid
  | cons m members ih =>
    obtain ⟨name, node⟩ := m
    rw [setModifiedAt] at h
    split at h
    · rename_i hname
      obtain ⟨node', -, h⟩ := bind_ok h
      cases h
      rw [lookup_cons, beq_false_of_ne (hname ▸ hne)] at hid ⊢
      exact hid
    · obtain ⟨rest, hrest, h⟩ := bind_ok h
      cases h
      by_cases hname : datasetIdName = name
      · rw [lookup_cons, hname, beq_self_eq_true] at hid ⊢
        exact hid
      · rw [lookup_cons, beq_false_of_ne hname] at hid ⊢
        exact ih hid hrest

theorem lookup_removeIncoming (h : k ∉ incoming.map Prod.fst) :
    (removeIncoming incoming members).lookup k = members.lookup k := by
  unfold removeIncoming
  induction incoming generalizing members with
  | nil => rfl
  | cons m incoming ih =>
    rw [map_cons, mem_cons, not_or] at h
    rw [foldl_cons, ih h.2, lookup_kjChildRemove_ne h.1]

theorem mergeNode_id {instP' : KjNode} (hin : datasetIdName ∉ incoming.map Prod.fst)
    (hid : instanceId instP = some id) (h : mergeNode env incoming instP = .ok instP') :
    instanceId instP' = some id := by
  obtain ⟨members, rfl, hlookup⟩ := instanceId_some hid
  obtain ⟨merged, hmerged, h⟩ := bind_ok h
  cases h
  have hset : ∃ set : Members, set.lookup datasetIdName = some (.string id) ∧
      merged = removeIncoming incoming set ++ incoming := by
    unfold mergeInstance at hmerged
    split at hmerged
    · cases hmerged
      exact ⟨members, hlookup, rfl⟩
    obtain ⟨set, hset, hmerged⟩ := bind_ok hmerged
    cases hmerged
    exact ⟨set, setModifiedAt_datasetId hlookup hset, rfl⟩
  obtain ⟨set, hkeep, rfl⟩ := hset
  refine instanceId_object (lookup_append_some ?_)
  exact (lookup_removeIncoming hin).trans hkeep

theorem datasetIdOf_eq (h : datasetIdOf instP = .ok id) : instanceId instP = some id := by
  unfold datasetIdOf at h
  split at h
  · rename_i own hown
    cases h
    cases instP with
    | object members => exact instanceId_object hown
    | _ => cases hown
  · cases h

theorem datasetIdOf_of (h : instanceId instP = some id) : datasetIdOf instP = .ok id := by
  rw [datasetIdOf, kjLookup_datasetId h]

theorem changeLast_ids
    (hkeep : ∀ i i', instanceId i = some id → change i = .ok i' → instanceId i' = some id)
    {changed : Option (List KjNode)} (h : changeLast change id items = .ok changed) :
    ∀ items' ∈ changed, items'.map instanceId = items.map instanceId := by
  induction items generalizing changed with
  | nil =>
    cases h
    intro items' hitems
    cases hitems
  | cons item items ih =>
    obtain ⟨own, hown, h⟩ := bind_ok h
    obtain ⟨later, hlater, h⟩ := bind_ok h
    cases later with
    | some rest =>
      cases h
      intro items' hitems
      cases hitems
      exact congrArg (instanceId item :: ·) (ih hlater rest rfl)
    | none =>
      simp only at h
      split at h
      · rename_i hsame
        obtain ⟨item', hitem, h⟩ := bind_ok h
        cases h
        intro items' hitems
        cases hitems
        have hid : instanceId item = some id := hsame ▸ datasetIdOf_eq hown
        rw [map_cons, map_cons, hkeep item item' hid hitem, hid]
      · cases h
        intro items' hitems
        cases hitems

theorem changeLast_none (hs : none ∉ items.map instanceId) (hid : some id ∉ items.map instanceId) :
    changeLast change id items = .ok none := by
  induction items with
  | nil => rfl
  | cons item items ih =>
    rw [map_cons, mem_cons, not_or] at hs hid
    obtain ⟨own, hown⟩ := ne_none_iff_exists'.mp (Ne.symm hs.1)
    have hne : own ≠ id := fun h => hid.1 (h ▸ hown.symm)
    rw [changeLast, datasetIdOf_of hown, ok_bind, ih hs.2 hid.2, ok_bind]
    exact if_neg hne

theorem changeLast_found {pre : List KjNode} {post : List KjNode}
    (hs : InstanceList (pre ++ instP :: post)) (hid : instanceId instP = some id) :
    changeLast change id (pre ++ instP :: post) =
      (change instP).map fun instP => some (pre ++ instP :: post) := by
  induction pre with
  | nil =>
    have hids := hs.identified
    have hdistinct := hs.distinct
    rw [nil_append, map_cons] at hids hdistinct
    rw [mem_cons, not_or] at hids
    rw [nodup_cons, hid] at hdistinct
    rw [nil_append, changeLast, datasetIdOf_of hid, ok_bind,
      changeLast_none hids.2 hdistinct.1, ok_bind]
    simp only [if_true]
    cases change instP <;> rfl
  | cons item pre ih =>
    have hids := hs.identified
    have hdistinct := hs.distinct
    rw [cons_append, map_cons] at hids hdistinct
    rw [mem_cons, not_or] at hids
    obtain ⟨own, hown⟩ := ne_none_iff_exists'.mp (Ne.symm hids.1)
    rw [cons_append, changeLast, datasetIdOf_of hown, ok_bind,
      ih ⟨hids.2, (nodup_cons.mp hdistinct).2⟩]
    cases change instP <;> rfl

theorem mem_of_dbDatasetGet {slot : KjNode} (h : dbDatasetGet e name id = some slot) :
    (name, slot) ∈ e.datasets.getD [] ∧ slot ≠ .array [] := by
  unfold dbDatasetGet datasetSlot at h
  split at h
  · cases h
  obtain ⟨hlookup, hmatches⟩ := filter_eq_some_iff.mp h
  refine ⟨mem_of_lookup hlookup, fun hempty => ?_⟩
  rw [hempty] at hmatches
  cases hmatches

theorem shortShape_replace (h : ShortShape e) (hshort : name.length ≤ 235)
    (hitems : InstanceList items) : ShortShape (dbEntityFieldReplace e name (.array items)) := by
  unfold dbEntityFieldReplace
  refine ⟨⟨nodup_put h.names, ?_⟩, ?_⟩
  · intro f hf
    rcases mem_put hf with rfl | hf
    · exact ⟨_, rfl, hitems.throughCodec⟩
    · exact h.slots f hf
  · intro f hf
    rcases mem_put hf with rfl | hf
    · exact fun _ => hshort
    · exact h.short f hf

theorem shortShape_old (h : ∀ e ∈ dbEntity, ShortShape e) :
    ShortShape (dbEntity.getD ⟨[], [], none⟩) := by
  cases dbEntity with
  | none => exact shortShape_empty rfl
  | some old => exact h old rfl

theorem patched_of_ok
    (h : orionldPatchAttribute env dbEntity entityId attrName members = .ok (some e)) :
    ∃ old name id inAttribute slot slot' seen, old = dbEntity.getD ⟨[], [], none⟩ ∧
      pcheckAttribute env.toEnv [] none false inAttribute = .ok seen ∧
      dbDatasetGet old name id = some slot ∧
      patchSlot env (withoutFirst "datasetId" inAttribute) id slot = .ok slot' ∧
      e = dbEntityFieldReplace old name slot' := by
  unfold AttributeDatasets.orionldPatchAttribute at h
  split at h
  · cases h
  split at h
  · cases h
  simp only at h
  split at h
  · cases h
  · split at h
    · obtain ⟨e', he, h⟩ := bind_ok h
      cases h
      unfold orionldPatchAttributeWithDatasetId at he
      split at he
      · cases he
      rename_i seen hcheck
      split at he
      · cases he
      rename_i slot hslot
      obtain ⟨slot', hpatched, he⟩ := bind_ok he
      cases he
      exact ⟨_, _, _, _, slot, slot', seen, rfl, hcheck, hslot, hpatched, rfl⟩
    · cases h
  · cases h

theorem shortShape_patch (hdb : ∀ e ∈ dbEntity, ShortShape e)
    (h : orionldPatchAttribute env dbEntity entityId attrName members = .ok (some e)) :
    ShortShape e := by
  obtain ⟨old, name, id, inAttribute, slot, slot', seen, rfl, hcheck, hslot, hpatched, rfl⟩ :=
    patched_of_ok h
  have hold := shortShape_old hdb
  obtain ⟨hmem, hne⟩ := mem_of_dbDatasetGet hslot
  obtain ⟨items, hitems, hlist⟩ := hold.slots _ hmem
  cases hitems
  obtain ⟨changed, hchanged, hpatched⟩ := bind_ok hpatched
  cases changed with
  | none => cases hpatched
  | some items' =>
    cases hpatched
    have hin := notMem_withoutFirst (pcheckAttribute_count hcheck)
    have hids := changeLast_ids (fun i i' hi => mergeNode_id hin hi) hchanged
    exact shortShape_replace hold (hold.short _ hmem hne) (hlist.congr (hids items' rfl))

theorem removeFirst_sublist {left : Option (List KjNode)} (h : removeFirst id items = .ok left) :
    ∀ items' ∈ left, items'.Sublist items := by
  induction items generalizing left with
  | nil =>
    cases h
    intro items' hitems
    cases hitems
  | cons item items ih =>
    have hrest : ∀ later, removeFirst id items = .ok later →
        ∀ items' ∈ later.map (item :: ·), items'.Sublist (item :: items) := by
      intro later hlater items' hitems
      obtain ⟨rest, hsome, rfl⟩ := map_eq_some_iff.mp hitems
      exact (ih hlater rest hsome).cons_cons item
    unfold removeFirst at h
    split at h
    · split at h
      · cases h
        intro items' hitems
        cases hitems
        exact (List.Sublist.refl items).cons item
      · obtain ⟨later, hlater, h⟩ := bind_ok h
        cases h
        exact hrest later hlater
    · cases h
    · obtain ⟨later, hlater, h⟩ := bind_ok h
      cases h
      exact hrest later hlater

theorem InstanceList.sublist {items' : List KjNode} (h : InstanceList items)
    (hs : items'.Sublist items) : InstanceList items' :=
  ⟨fun hmem => h.identified ((hs.map instanceId).subset hmem), h.distinct.sublist (hs.map _)⟩

theorem shortShape_fieldDelete (h : ShortShape e) (name : Text) :
    ShortShape (dbEntityFieldDelete e name) := by
  have hsub : ((dbEntityFieldDelete e name).datasets.getD []).Sublist (e.datasets.getD []) := by
    unfold dbEntityFieldDelete
    cases e.datasets with
    | none => exact List.Sublist.refl _
    | some d => exact filter_sublist
  refine ⟨⟨h.names.sublist (hsub.map _), ?_⟩, ?_⟩
  · intro f hf
    exact h.slots f (hsub.subset hf)
  · intro f hf
    exact h.short f (hsub.subset hf)

theorem shortShape_attributeDelete (h : ShortShape e) (name : Text) :
    ShortShape (dbEntityAttributeDelete e name) := ⟨⟨h.names, h.slots⟩, h.short⟩

/-- What a deletion that succeeds makes of an entity. -/
inductive Deleted (old : StoredEntity) : StoredEntity → Prop where
  | oneInstance {name id : Text} {items left : List KjNode} :
    dbDatasetGet old name id = some (.array items) → removeFirst id items = .ok (some left) →
    Deleted old (dbEntityFieldReplace old name (.array left))
  | slot {name id : Text} {slot : KjNode} : dbDatasetGet old name id = some slot →
    (∀ items, slot ≠ .array items) → Deleted old (dbEntityFieldDelete old name)
  | all {name : Text} : Deleted old (dbEntityAttributeDelete (dbEntityFieldDelete old name) name)
  | attrsOnly {name : Text} : Deleted old (dbEntityAttributeDelete old name)

theorem deleted_of_ok {env : Env} {deleteAll : Bool}
    (h : orionldDeleteAttribute env dbEntity entityId attrName datasetId deleteAll = .ok e) :
    Deleted (dbEntity.getD ⟨[], [], none⟩) e := by
  unfold orionldDeleteAttribute at h
  generalize dbEntity.getD ⟨[], [], none⟩ = old at h ⊢
  simp only at h
  split at h
  · cases h
  split at h
  · cases h
  split at h
  · cases h
  · split at h
    · unfold orionldDeleteAttributeDatasetId at h
      split at h
      · cases h
      · rename_i items hslot
        obtain ⟨left, hleft, h⟩ := bind_ok h
        cases left with
        | none => cases h
        | some left =>
          cases h
          exact .oneInstance hslot hleft
      · rename_i slot hnot hslot
        split at h
        · split at h
          · cases h
            exact .slot hslot hnot
          · cases h
        · cases h
        · cases h
    · cases h
  · split at h
    · split at h
      · cases h
        exact .all
      · cases h
    · split at h
      · cases h
        exact .attrsOnly
      · cases h

theorem shortShape_delete {env : Env} {deleteAll : Bool} (hdb : ∀ e ∈ dbEntity, ShortShape e)
    (h : orionldDeleteAttribute env dbEntity entityId attrName datasetId deleteAll = .ok e) :
    ShortShape e := by
  have hold := shortShape_old hdb
  cases deleted_of_ok h with
  | oneInstance hslot hleft =>
    obtain ⟨hmem, hne⟩ := mem_of_dbDatasetGet hslot
    obtain ⟨items', hitems, hlist⟩ := hold.slots _ hmem
    cases hitems
    exact shortShape_replace hold (hold.short _ hmem hne)
      (hlist.sublist (removeFirst_sublist hleft _ rfl))
  | slot hslot hnot =>
    obtain ⟨items, hitems, -⟩ := hold.slots _ (mem_of_dbDatasetGet hslot).1
    exact absurd hitems (hnot items)
  | all => exact shortShape_attributeDelete (shortShape_fieldDelete hold _) _
  | attrsOnly => exact shortShape_attributeDelete hold _

end DatasetsShape
