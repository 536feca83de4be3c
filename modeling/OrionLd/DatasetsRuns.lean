import OrionLd.DatasetsShape

/-! @datasets over the runs of the requests that write it. The creation of an entity stores what it
is given: an object where the attribute is one, instances of one datasetId side by side, and two
slots for an attribute given twice. -/
namespace DatasetsRuns

open KjTree KjTreeToContextAttribute MongoEntity AttributeNames FieldList Fallible
open OrionldPostEntities AttributeDatasets MongoCppLegacyCodec DatasetsShape List
open OrionldPostEntity (hasDatasetId replaceInstance)
open OrionldPatchAttribute (membersOf)

/-- No attribute that is an object has a datasetId, no two arrays one stored name, no two instances
of an array one datasetId. -/
structure StorableDatasets (c : OrionldContextItem.Contexts) (members : Members) : Prop where
  arrays : ∀ m ∈ members, kjLookup m.2 "datasetId" = none
  names : ((members.filter (isArray ·.2)).map (databaseKey c ·.1)).Nodup
  distinct : ∀ m ∈ members, ∀ items, m.2 = .array items → (items.filterMap instanceId).Nodup
  short : ShortNames c members

variable {env : Env} {timestamp : ℚ}
variable {instP : KjNode}

theorem instanceId_membersOf {id : Text}
    (h : (membersOf instP).lookup "datasetId".toList = some (.string id)) :
    instanceId instP = some id := by
  cases instP with
  | object members => exact instanceId_object h
  | _ => cases h

theorem instanceId_none (h : (membersOf instP).lookup "datasetId".toList = none) :
    instanceId instP = none := by
  cases instP with
  | object members =>
    rw [instanceId]
    rw [show members.lookup "datasetId".toList = none from h]
  | null => rfl
  | bool b => rfl
  | int i => rfl
  | float f => rfl
  | string s => rfl
  | array items => rfl

variable {items : List KjNode} {s s' : PostState}

theorem datasetInstances_ok {default : Option Members} {left : List KjNode}
    {default' : Option Members} (hdefault : ∀ d ∈ default, d.lookup "datasetId".toList = none)
    (h : datasetInstances env timestamp default items = .ok (left, default')) :
    left.map instanceId = (items.filterMap instanceId).map some ∧
      ∀ d ∈ default', d.lookup "datasetId".toList = none := by
  induction items generalizing default left with
  | nil =>
    cases h
    exact ⟨rfl, hdefault⟩
  | cons item items ih =>
    obtain ⟨u, -, h⟩ := bind_ok h
    split at h
    · rename_i id hid
      split at h
      · obtain ⟨⟨left', d⟩, hrest, h⟩ := bind_ok h
        cases h
        obtain ⟨hids, hd⟩ := ih hdefault hrest
        refine ⟨?_, hd⟩
        have hstamped : instanceId (timestamped timestamp (membersOf item)) = some id :=
          instanceId_object (lookup_append_some hid)
        rw [map_cons, hstamped, hids, filterMap_cons_some (instanceId_membersOf hid), map_cons]
      · cases h
    · cases h
    · rename_i hnone
      rw [filterMap_cons_none (instanceId_none hnone)]
      split at h
      · refine ih ?_ h
        intro d hd
        cases hd
        exact hnone
      · cases h

theorem instanceList_left {left : List KjNode}
    (h : left.map instanceId = (items.filterMap instanceId).map some)
    (hdistinct : (items.filterMap instanceId).Nodup) : InstanceList left := by
  constructor
  · rw [h]
    intro hmem
    obtain ⟨id, -, hid⟩ := mem_map.mp hmem
    cases hid
  · rw [h]
    exact hdistinct.map (Option.some_injective _)

theorem postObject_datasets {name : Text} {node : KjNode} (hnone : kjLookup node "datasetId" = none)
    (h : postObject env timestamp s name node = .ok s') : s'.datasets = s.datasets := by
  unfold postObject at h
  rw [hnone] at h
  split at h
  · cases h
  · simp only at h
    split at h
    · cases h
      rfl
    · cases h
    · cases h
  · cases h

structure AddedSlot (c : OrionldContextItem.Contexts) (m f : Text × KjNode) : Prop where
  name : f.1 = databaseKey c m.1
  given : ∃ items, m.2 = .array items ∧
    (f.2 ≠ .array [] → items.any OrionldPostEntity.hasDatasetId = true)
  slot : SlotShape f.2

theorem any_hasDatasetId (h : items.filterMap instanceId ≠ []) :
    items.any hasDatasetId = true := by
  obtain ⟨id, hid⟩ := exists_mem_of_ne_nil _ h
  obtain ⟨item, hitem, hid⟩ := mem_filterMap.mp hid
  refine any_eq_true.mpr ⟨item, hitem, ?_⟩
  unfold hasDatasetId
  rw [kjLookup_datasetId hid]
  rfl

theorem postAttribute_datasets {m : Text × KjNode} (hobject : kjLookup m.2 "datasetId" = none)
    (hdistinct : ∀ items, m.2 = .array items → (items.filterMap instanceId).Nodup)
    (h : postAttribute env timestamp s m = .ok s') : ∃ added, s'.datasets = s.datasets ++ added ∧
      added.map Prod.fst = ([m].filter (isArray ·.2)).map (databaseKey env.toContexts ·.1) ∧
      ∀ f ∈ added, AddedSlot env.toContexts m f := by
  obtain ⟨name, node⟩ := m
  have hother : isArray node = false → postAttribute env timestamp s (name, node) = .ok s' →
      s'.datasets = s.datasets := by
    intro hnode h
    unfold postAttribute at h
    split at h
    · rename_i items hitems
      rw [show node = .array items from hitems] at hnode
      cases hnode
    split at h
    · cases h
      rfl
    · exact postObject_datasets hobject h
  by_cases hnode : isArray node = true
  · cases node with
    | array items =>
      obtain ⟨⟨left, default⟩, hleft, h⟩ := bind_ok h
      have hempty : ∀ d ∈ (none : Option Members), d.lookup "datasetId".toList = none := by
        intro d hd
        cases hd
      obtain ⟨hids, hd⟩ := datasetInstances_ok hempty hleft
      have hslot := instanceList_left hids (hdistinct items rfl)
      refine ⟨[(databaseKey env.toContexts name, .array left)], ?_, rfl, ?_⟩
      · simp only at h
        split at h
        · cases h
          rfl
        rename_i members
        exact postObject_datasets
          (show kjLookup (.object members) "datasetId" = none from hd members rfl) h
      · intro f hf
        rw [mem_singleton] at hf
        cases hf
        refine ⟨rfl, ⟨items, rfl, fun hne => any_hasDatasetId ?_⟩, ⟨left, rfl, hslot⟩⟩
        intro hnil
        rw [hnil] at hids
        exact hne (congrArg KjNode.array (map_eq_nil_iff.mp hids))
    | _ => cases hnode
  · rw [Bool.not_eq_true] at hnode
    refine ⟨[], by rw [hother hnode h, append_nil], ?_, fun f hf => by cases hf⟩
    rw [filter_cons_of_neg (by simp [hnode])]
    rfl

theorem postAttributes_datasets {members : Members}
    (hobject : ∀ m ∈ members, kjLookup m.2 "datasetId" = none)
    (hdistinct : ∀ m ∈ members, ∀ items, m.2 = .array items →
    (items.filterMap instanceId).Nodup) (h : postAttributes env timestamp s members = .ok s') :
    ∃ added, s'.datasets = s.datasets ++ added ∧
      added.map Prod.fst = (members.filter (isArray ·.2)).map (databaseKey env.toContexts ·.1) ∧
      ∀ f ∈ added, ∃ m ∈ members, AddedSlot env.toContexts m f := by
  induction members generalizing s with
  | nil =>
    cases h
    exact ⟨[], (append_nil _).symm, rfl, fun f hf => by cases hf⟩
  | cons m members ih =>
    obtain ⟨next, hnext, hrest⟩ := bind_ok h
    obtain ⟨first, hfirst, hname, hslot⟩ := postAttribute_datasets
      (hobject m mem_cons_self) (hdistinct m mem_cons_self) hnext
    obtain ⟨later, hlater, hnames, hslots⟩ := ih (fun m hm => hobject m (mem_cons_of_mem _ hm))
      (fun m hm => hdistinct m (mem_cons_of_mem _ hm)) hrest
    refine ⟨first ++ later, ?_, ?_, ?_⟩
    · rw [hlater, hfirst, append_assoc]
    · rw [map_append, hname, hnames, ← map_append, ← filter_append, singleton_append]
    · intro f hf
      rcases mem_append.mp hf with hf | hf
      · exact ⟨m, mem_cons_self, hslot f hf⟩
      · obtain ⟨m', hm', hadded⟩ := hslots f hf
        exact ⟨m', mem_cons_of_mem _ hm', hadded⟩

theorem shortShape_create {accepts : Text → List ContextAttribute → Bool}
    {present : Text → Bool} {payloadId payloadType : Option Text} {requestTree : KjNode}
    {created : Text × StoredEntity}
    (hstorable : StorableDatasets env.toContexts (OrionldPostEntity.payloadMembers requestTree))
    (h : orionldPostEntities env accepts present timestamp payloadId payloadType requestTree =
      .ok created) : ShortShape created.2 := by
  cases requestTree with
  | object members =>
    obtain ⟨⟨id, type⟩, -, h⟩ := bind_ok h
    obtain ⟨u, -, h⟩ := bind_ok h
    obtain ⟨s, hs, h⟩ := bind_ok h
    obtain ⟨added, hadded, hnames, hslots⟩ :=
      postAttributes_datasets hstorable.arrays hstorable.distinct hs
    split at h
    · cases h
      unfold createEntity
      rw [hadded, nil_append]
      split
      · exact shortShape_empty rfl
      refine shortShape_throughCodec ⟨⟨?_, ?_⟩, ?_⟩ _ _
      · rw [Option.getD_some, hnames]
        exact hstorable.names
      · intro f hf
        obtain ⟨m, -, hm⟩ := hslots f hf
        exact hm.slot
      · intro f hf hne
        obtain ⟨m, hmem, hm⟩ := hslots f hf
        obtain ⟨items, hitems, hany⟩ := hm.given
        rw [hm.name]
        exact hstorable.short m hmem items hitems (hany hne)
    · cases h
  | _ => cases h

theorem replaceInstance_found {incoming : Members} {id : Text} {pre : List KjNode}
    {post : List KjNode} (hs : InstanceList (pre ++ instP :: post))
    (hid : instanceId instP = some id) :
    replaceInstance env incoming id (pre ++ instP :: post) =
      match kjLookup instP "createdAt" with
      | some createdAt =>
        .ok (some (pre ++ OrionldPostEntity.stamped env incoming createdAt :: post))
      | none => .error .fault := by
  induction pre with
  | nil =>
    rw [nil_append, replaceInstance, kjLookup_datasetId hid]
    exact if_pos rfl
  | cons item pre ih =>
    have hids := hs.identified
    have hdistinct := hs.distinct
    rw [cons_append, map_cons] at hids hdistinct
    rw [mem_cons, not_or] at hids
    obtain ⟨own, hown⟩ := Option.ne_none_iff_exists'.mp (Ne.symm hids.1)
    obtain ⟨hhead, htail⟩ := nodup_cons.mp hdistinct
    have hne : own ≠ id := by
      rintro rfl
      apply hhead
      rw [hown, ← hid]
      exact mem_map.mpr ⟨instP, mem_append_right pre mem_cons_self, rfl⟩
    rw [cons_append, replaceInstance, kjLookup_datasetId hown]
    simp only
    rw [if_neg hne, ih ⟨hids.2, htail⟩]
    cases kjLookup instP "createdAt" <;> rfl

theorem instanceField_short {name : Text} (h : name.length ≤ 235) :
    instanceField 256 name = "datasetId".toList := by
  have hat : "@datasets.".length = 10 := rfl
  have hfield : "datasetId".toList.length = 9 := rfl
  exact take_of_length_le (by omega)

theorem slotMatches_found {pre : List KjNode} {post : List KjNode} {id : Text}
    (hid : instanceId instP = some id) :
    slotMatches "datasetId".toList id (.array (pre ++ instP :: post)) = true := by
  obtain ⟨members, rfl, hlookup⟩ := instanceId_some hid
  refine any_eq_true.mpr ⟨_, mem_append_right pre mem_cons_self, ?_⟩
  unfold hasField membersOf
  rw [hlookup]
  exact beq_self_eq_true id

theorem instancesFound {e : StoredEntity} (h : ShortShape e) : InstancesFound e := by
  intro name pre instP post hmem id hid
  obtain ⟨items, hitems, hlist⟩ := h.slots _ hmem
  cases hitems
  refine ⟨fun env incoming => replaceInstance_found hlist hid, ?_, fun change =>
    changeLast_found hlist hid⟩
  have hshort : name.length ≤ 235 := by
    refine h.short _ hmem ?_
    intro hempty
    exact append_ne_nil_of_right_ne_nil pre (cons_ne_nil _ _) (KjNode.array.inj hempty)
  unfold dbDatasetGet datasetSlot
  rw [instanceField_short hshort, if_neg (by decide), lookup_of_mem h.names hmem]
  exact Option.filter_eq_some_iff.mpr ⟨rfl, slotMatches_found hid⟩

variable (accepts : Text → List ContextAttribute → Bool) (merge : MergeAttrInfo)

def Storable (event : Event) : Prop :=
  match event.request with
  | .postEntities _ _ _ requestTree =>
    StorableDatasets event.env.toContexts (OrionldPostEntity.payloadMembers requestTree)
  | .postEntity _ _ requestTree =>
    ShortNames event.env.toContexts (OrionldPostEntity.payloadMembers requestTree)
  | _ => True

def Inv (db : Db) : Prop := ∀ f ∈ db, ShortShape f.2

variable {db : Db}

theorem inv_lookup (h : Inv db) (id : Text) : ∀ e ∈ db.lookup id, ShortShape e := by
  intro e he
  exact h _ (mem_of_lookup he)

theorem written_shape {event : Event} {f : Text × StoredEntity} (hdb : Inv db)
    (hok : Storable event) (h : written accepts merge db event = .ok (some f)) :
    ShortShape f.2 := by
  unfold Storable at hok
  unfold written at h
  split at h
  · rename_i hrequest
    rw [hrequest] at hok
    obtain ⟨created, hcreated, h⟩ := bind_ok h
    cases h
    exact shortShape_create hok hcreated
  · rename_i hrequest
    rw [hrequest] at hok
    obtain ⟨e, he, h⟩ := bind_ok h
    cases h
    exact shortShape_postEntity (inv_lookup hdb _) hok he
  · obtain ⟨e, he, h⟩ := bind_ok h
    cases e with
    | none => cases h
    | some e =>
      cases h
      exact shortShape_patch (inv_lookup hdb _) he
  · obtain ⟨e, he, h⟩ := bind_ok h
    cases h
    exact shortShape_delete (inv_lookup hdb _) he

theorem step_inv {event : Event} (hdb : Inv db) (hok : Storable event) :
    Inv (step accepts merge db event) := by
  unfold step
  split
  · rename_i id e hwritten
    intro f hf
    rcases mem_put hf with rfl | hf
    · exact written_shape accepts merge hdb hok hwritten
    · exact hdb f hf
  · exact hdb

/-- In every run of storable requests from the empty database, @datasets keeps its shape and
every instance is found. -/
theorem datasets_keep_shape (events : List Event)
    (hok : StepSystem.Guarded (step accepts merge) (fun _ event => Storable event) [] events) :
    StepSystem.Throughout (step accepts merge) DbShape [] events := by
  have hinv : StepSystem.Throughout (step accepts merge) Inv [] events :=
    StepSystem.throughout_of_guarded (fun f hf => by cases hf)
      (fun db event hdb hok => step_inv accepts merge hdb hok) hok
  refine hinv.mono ?_
  intro db hdb f hf
  exact ⟨(hdb f hf).toShape, instancesFound (hdb f hf)⟩

def acceptAll (_ : Text) (_ : List ContextAttribute) : Bool := true
def mergeNothing : MergeAttrInfo := fun _ _ => none

def plainUnionEnv : UnionEnv :=
  { OrionldPostEntity.plainEnv with
    doubleAsInteger := fun _ => 0
    doubleAsBoolean := fun _ => true }

def propertyOf (value : ℤ) (datasetId : Option String) : KjNode :=
  .object (OrionldPostEntity.propertyMembers value ++
    (datasetId.map fun id => ("datasetId".toList, KjNode.string id.toList)).toList)

def creation (node : KjNode) : Event :=
  ⟨plainUnionEnv, .postEntities 1 (some "urn:E1".toList) (some "T".toList)
    (.object [("P1".toList, node)])⟩

def storableRun : List Event :=
  [creation (.array [propertyOf 1 none, propertyOf 2 (some "urn:D1")]),
    ⟨plainUnionEnv, .postEntity false "urn:E1".toList
      (.object [("P1".toList, .array [propertyOf 3 (some "urn:D2")])])⟩,
    ⟨plainUnionEnv, .patchAttribute "urn:E1".toList "P1".toList
      [("datasetId".toList, .string "urn:D2".toList), ("value".toList, .int 4)]⟩,
    ⟨plainUnionEnv, .deleteAttribute "urn:E1".toList "P1".toList (some "urn:D1".toList) false⟩]

theorem storableRun_keeps_shape :
    StepSystem.Throughout (step acceptAll mergeNothing) DbShape [] storableRun := by
  apply datasets_keep_shape
  refine ⟨⟨?_, ?_, ?_, ?_⟩, ?_, trivial, trivial, trivial⟩
  · intro m hm
    cases mem_singleton.mp hm
    rfl
  · exact nodup_singleton _
  · intro m hm items hitems
    cases mem_singleton.mp hm
    cases hitems
    decide +kernel
  · intro m hm items _ _
    cases mem_singleton.mp hm
    decide +kernel
  · intro m hm items _ _
    cases mem_singleton.mp hm
    decide +kernel

theorem shape_slots (h : DbShape db) : (db.all fun f => (f.2.datasets.getD []).all fun g =>
      isArray g.2 && decide ((slotItems g.2).map instanceId).Nodup) = true := by
  refine all_eq_true.mpr fun f hf => all_eq_true.mpr fun g hg => ?_
  obtain ⟨items, hitems, hlist⟩ := (h f hf).1.slots g hg
  rw [hitems]
  exact (Bool.and_eq_true _ _).mpr ⟨rfl, decide_eq_true hlist.distinct⟩

/-- An attribute that is an object with a datasetId is stored as an object, and two instances of
one datasetId are stored side by side. -/
theorem creation_breaks_shape :
    ¬ StepSystem.Throughout (step acceptAll mergeNothing) DbShape []
        [creation (propertyOf 1 (some "urn:D1"))] ∧
      ¬ StepSystem.Throughout (step acceptAll mergeNothing) DbShape []
        [creation (.array [propertyOf 1 (some "urn:D1"), propertyOf 2 (some "urn:D1")])] := by
  constructor
  · intro h
    have hall := shape_slots h.last
    revert hall
    decide +kernel
  · intro h
    have hall := shape_slots h.last
    revert hall
    decide +kernel

end DatasetsRuns
