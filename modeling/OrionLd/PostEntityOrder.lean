import OrionLd.OrionldPostEntity

/-! POST /entities/*/attrs and the order of the payload. Every member has to be treated, and
its treatment must not depend on the other members. An array that is turned into its default
instance ends the conversion loop, so whatever stands after it is left out. -/
namespace PostEntityOrder

open Fallible KjTree OrionldContextItem KjTreeToContextAttribute FieldList MongoEntity
open OrionldPostEntity List Except

variable (env : Env)

def Written (instP : KjNode) (datasetId : Text) : Prop :=
  ∃ members, instP = .object members ∧
    members.lookup "datasetId".toList = some (.string datasetId) ∧
    ("modifiedAt".toList, .float env.requestTime) ∈ members

variable {env}
variable {incoming : Members} {datasetId : Text} {slot slot' : List KjNode}

theorem written_stamped (createdAt : KjNode)
    (h : incoming.lookup "datasetId".toList = some (.string datasetId)) :
    Written env (stamped env incoming createdAt) datasetId := by
  refine ⟨_, rfl, ?_, by simp⟩
  rw [lookup_append, h]
  rfl

theorem replaceInstance_some (h : replaceInstance env incoming datasetId slot = .ok (some slot')) :
    (∃ createdAt, stamped env incoming createdAt ∈ slot') ∧
      ∀ instP ∈ slot, kjLookup instP "datasetId" ≠ some (.string datasetId) → instP ∈ slot' := by
  induction slot generalizing slot' with
  | nil => cases h
  | cons x slot ih =>
    rw [replaceInstance] at h
    split at h
    · cases h
    · rename_i id hid
      split at h
      · rename_i heq
        subst heq
        split at h
        · rename_i createdAt _
          obtain rfl := Option.some.inj (ok.inj h)
          refine ⟨⟨createdAt, by simp⟩, ?_⟩
          intro instP hi hne
          rcases mem_cons.mp hi with rfl | hi
          · exact absurd hid hne
          · exact mem_cons_of_mem _ hi
        · cases h
      · obtain ⟨o, ho, hmap⟩ := bind_ok h
        obtain ⟨slot₁, rfl, rfl⟩ := Option.map_eq_some_iff.mp (ok.inj hmap)
        obtain ⟨⟨createdAt, hs⟩, hkeep⟩ := ih ho
        refine ⟨⟨createdAt, mem_cons_of_mem _ hs⟩, ?_⟩
        intro instP hi hne
        rcases mem_cons.mp hi with rfl | hi
        · exact mem_cons_self
        · exact mem_cons_of_mem _ (hkeep instP hi hne)
    · cases h

theorem insertInstance_spec (h : insertInstance env incoming datasetId slot = .ok slot') :
    (∃ createdAt, stamped env incoming createdAt ∈ slot') ∧
      ∀ instP ∈ slot, kjLookup instP "datasetId" ≠ some (.string datasetId) → instP ∈ slot' := by
  obtain ⟨o, ho, hmatch⟩ := bind_ok h
  cases o with
  | some slot₁ =>
    cases hmatch
    exact replaceInstance_some ho
  | none =>
    cases hmatch
    refine ⟨⟨_, mem_append_right _ mem_cons_self⟩, ?_⟩
    intro instP hi _
    exact mem_append_left _ hi

theorem insertInstance_keeps_written {id : Text}
    (hin : incoming.lookup "datasetId".toList = some (.string datasetId))
    (h : insertInstance env incoming datasetId slot = .ok slot')
    (hw : ∃ instP ∈ slot, Written env instP id) : ∃ instP ∈ slot', Written env instP id := by
  obtain ⟨⟨createdAt, hs⟩, hkeep⟩ := insertInstance_spec h
  by_cases hid : id = datasetId
  · exact ⟨_, hs, hid ▸ written_stamped createdAt hin⟩
  obtain ⟨instP, hi, members, rfl, hlook, hmod⟩ := hw
  refine ⟨_, hkeep _ hi ?_, members, rfl, hlook, hmod⟩
  intro heq
  have : KjNode.string id = .string datasetId := Option.some.inj (hlook.symm.trans heq)
  exact hid (KjNode.string.inj this)

theorem slotAfter_spec {items : List KjNode} (h : slotAfter env items slot = .ok slot') :
    (∀ id, (∃ instP ∈ slot, Written env instP id) → ∃ instP ∈ slot', Written env instP id) ∧
      ∀ item ∈ items, hasDatasetId item = true → ∃ id,
        kjLookup item "datasetId" = some (.string id) ∧ ∃ instP ∈ slot', Written env instP id := by
  induction items generalizing slot with
  | nil =>
    cases h
    exact ⟨fun _ hw => hw, by simp⟩
  | cons item items ih =>
    cases item with
    | object members =>
      rw [slotAfter] at h
      split at h
      · rename_i id hid
        split at h
        · obtain ⟨slot₁, hins, hrest⟩ := bind_ok h
          obtain ⟨hold, hnew⟩ := ih hrest
          obtain ⟨⟨createdAt, hs⟩, -⟩ := insertInstance_spec hins
          constructor
          · intro id' hw
            exact hold id' (insertInstance_keeps_written hid hins hw)
          · intro item hi hd
            rcases mem_cons.mp hi with rfl | hi
            · exact ⟨id, hid, hold id ⟨_, hs, written_stamped createdAt hid⟩⟩
            · exact hnew item hi hd
        · cases h
      · cases h
      · rename_i hid
        obtain ⟨hold, hnew⟩ := ih h
        refine ⟨hold, ?_⟩
        intro item hi hd
        rcases mem_cons.mp hi with rfl | hi
        · rw [hasDatasetId, kjLookup, hid] at hd
          cases hd
        · exact hnew item hi hd
    | _ => cases h

variable (env : Env)

def key (m : Text × KjNode) : Text := dotForEq m.1

def touches (m : Text × KjNode) : Bool :=
  match m.2 with
  | .array items => items.any hasDatasetId
  | _ => false

/-- The member causes no error, as @datasets is. -/
def Fits (datasets : Option (List (Text × List KjNode))) (m : Text × KjNode) : Prop :=
  (∃ slot, memberSlot env m (slotOf datasets (key m)) = .ok slot) ∧ acceptable env m = .ok ()

variable {env} {s s' : PostState} {m : Text × KjNode} {members : Members}

theorem withSlot_eq (datasets : Option (List (Text × List KjNode))) (m : Text × KjNode)
    (slot : List KjNode) : withSlot datasets m slot =
      if touches m then some (put (key m) slot (datasets.getD [])) else datasets := by
  obtain ⟨name, node⟩ := m
  cases node <;> rfl

variable {datasets : Option (List (Text × List KjNode))}

theorem lookup_withSlot_of_ne {x : Text} (slot : List KjNode) (h : touches m = true → key m ≠ x) :
    ((withSlot datasets m slot).getD []).lookup x = (datasets.getD []).lookup x := by
  rw [withSlot_eq]
  split
  · rename_i ht
    exact lookup_put_of_ne (h ht).symm
  · rfl

theorem slotOf_withSlot_of_ne {x : Text} (slot : List KjNode) (h : key m ≠ x) :
    slotOf (withSlot datasets m slot) x = slotOf datasets x := by
  unfold slotOf
  rw [lookup_withSlot_of_ne slot fun _ => h]

theorem reached_tail (h : reached (m :: members) = m :: members) : reached members = members := by
  rw [reached] at h
  split at h
  · obtain rfl := (cons.inj h).2
    rfl
  · exact (cons.inj h).2

theorem convertMembers_cons (s : PostState) (h : reached (m :: members) = m :: members) :
    convertMembers env (m :: members) s =
      (memberSlot env m (slotOf s.datasets (key m))).bind fun slot =>
        (acceptable env m).bind fun _ =>
          convertMembers env members
            (({ s with datasets := withSlot s.datasets m slot }).treated env m) := by
  rw [convertMembers, convertMember_eq]
  change Except.bind (Except.bind (memberSlot env m (slotOf s.datasets (key m))) _) _ = _
  cases memberSlot env m (slotOf s.datasets (key m)) with
  | error e => rfl
  | ok slot =>
    cases acceptable env m with
    | error e => rfl
    | ok u =>
      simp only [Except.bind, Except.map]
      split
      · rename_i hl
        rw [reached, if_pos hl] at h
        obtain rfl := (cons.inj h).2
        rfl
      · rfl

theorem treated_datasets (s : PostState) (m : Text × KjNode) :
    (s.treated env m).datasets = s.datasets := (treated_lists env s m).2.2.2.2

theorem fits_congr {d d' : Option (List (Text × List KjNode))}
    (h : slotOf d (key m) = slotOf d' (key m)) : Fits env d m ↔ Fits env d' m := by
  unfold Fits
  rw [h]

theorem fits_after (hn : key m ∉ members.map key) :
    (∀ m' ∈ members, Fits env (withSlot s.datasets m slot) m') ↔
      ∀ m' ∈ members, Fits env s.datasets m' := by
  have hne : ∀ m' ∈ members, key m ≠ key m' := fun m' hm' e => hn (e ▸ mem_map_of_mem hm')
  constructor
  · intro h m' hm'
    exact (fits_congr (slotOf_withSlot_of_ne slot (hne m' hm'))).mp (h m' hm')
  · intro h m' hm'
    exact (fits_congr (slotOf_withSlot_of_ne slot (hne m' hm'))).mpr (h m' hm')

theorem convertMembers_ok_iff (hn : (members.map key).Nodup) (hr : reached members = members) :
    (∃ s', convertMembers env members s = .ok s') ↔ ∀ m ∈ members, Fits env s.datasets m := by
  induction members generalizing s with
  | nil => simp [convertMembers]
  | cons m members ih =>
    rw [map_cons, nodup_cons] at hn
    rw [convertMembers_cons s hr, forall_mem_cons]
    cases hslot : memberSlot env m (slotOf s.datasets (key m)) with
    | error e => simp [Fits, hslot, Except.bind]
    | ok slot =>
      cases hacc : acceptable env m with
      | error e => simp [Fits, hacc, Except.bind]
      | ok u =>
        have hfit : Fits env s.datasets m := ⟨⟨slot, hslot⟩, hacc⟩
        have hrest := ih (s := ({ s with datasets := withSlot s.datasets m slot }).treated env m)
          hn.2 (reached_tail hr)
        rw [treated_datasets] at hrest
        simp only [Except.bind, hrest, hfit, true_and]
        exact fits_after hn.1

theorem convertMembers_datasets (hn : (members.map key).Nodup) (hr : reached members = members)
    (h : convertMembers env members s = .ok s') :
    (∀ m ∈ members, touches m = true → ∀ slot,
        memberSlot env m (slotOf s.datasets (key m)) = .ok slot →
          (s'.datasets.getD []).lookup (key m) = some slot) ∧
      (∀ x, (∀ m ∈ members, touches m = true → key m ≠ x) →
        (s'.datasets.getD []).lookup x = (s.datasets.getD []).lookup x) ∧
      s'.datasets.isSome = (s.datasets.isSome || members.any touches) := by
  induction members generalizing s with
  | nil =>
    cases h
    simp
  | cons m members ih =>
    rw [map_cons, nodup_cons] at hn
    rw [convertMembers_cons s hr] at h
    cases hslot : memberSlot env m (slotOf s.datasets (key m)) with
    | error e => rw [hslot] at h; cases h
    | ok slot =>
      cases hacc : acceptable env m with
      | error e => rw [hslot, hacc] at h; cases h
      | ok u =>
        rw [hslot, hacc] at h
        obtain ⟨hin, hout, hsome⟩ := ih hn.2 (reached_tail hr) h
        rw [treated_datasets] at hin hout hsome
        have hne : ∀ m' ∈ members, key m ≠ key m' := fun m' hm' e => hn.1 (e ▸ mem_map_of_mem hm')
        refine ⟨?_, ?_, ?_⟩
        · intro m' hm' ht slot' hslot'
          rcases mem_cons.mp hm' with rfl | hm'
          · rw [hout _ fun m'' hm'' _ e => hne m'' hm'' e.symm, withSlot_eq, if_pos ht]
            obtain rfl := ok.inj (hslot.symm.trans hslot')
            simp
          · exact hin m' hm' ht slot' (by rwa [slotOf_withSlot_of_ne slot (hne m' hm')])
        · intro x hx
          rw [hout x fun m' hm' => hx m' (mem_cons_of_mem _ hm')]
          exact lookup_withSlot_of_ne slot (hx m mem_cons_self)
        · rw [hsome, withSlot_eq, any_cons]
          cases touches m <;> simp

variable (env : Env) (merge : MergeAttrInfo) (noOverwrite : Bool) (e : Entity)

/-- All instances of the member have a datasetId and are in @datasets, written by this
request. -/
def InDatasets (e' : Entity) (m : Text × KjNode) : Prop :=
  ∃ items, m.2 = .array items ∧ items ≠ [] ∧ ∀ item ∈ items, ∃ id,
    kjLookup item "datasetId" = some (.string id) ∧
      ∃ instP ∈ slotOf e'.datasets (dotForEq (longName env m.1)), Written env instP id

def AllTreated (members : Members) (r : PostResult) : Prop :=
  ∀ m ∈ members, isTimestamp m.1 = false →
    (∃ u ∈ r.updated, u.attr = longName env m.1) ∨
      (∃ n ∈ r.notUpdated, n.attr = longName env m.1) ∨ InDatasets env r.entity m

/-- The same lists as sets, and entities in which every lookup finds the same. -/
structure SameOutcome (r r' : PostResult) : Prop where
  updated : ∀ u, u ∈ r.updated ↔ u ∈ r'.updated
  notUpdated : ∀ n, n ∈ r.notUpdated ↔ n ∈ r'.notUpdated
  attrs : ∀ x, r.entity.attrs.lookup x = r'.entity.attrs.lookup x
  attrNames : ∀ x, x ∈ r.entity.attrNames ↔ x ∈ r'.entity.attrNames
  datasets : r.entity.datasets.isSome = r'.entity.datasets.isSome ∧
    ∀ x, (r.entity.datasets.getD []).lookup x = (r'.entity.datasets.getD []).lookup x

def OrderFree (entityId : Text) (members : Members) (r : PostResult) : Prop :=
  ∀ members', members'.Perm members → ∃ r',
    orionldPostEntity env merge noOverwrite (some e) entityId (.object members') = .ok r' ∧
      AllTreated env members' r' ∧ SameOutcome r r'

def left (members : Members) : Members := members.filterMap (leftBy env noOverwrite e.attrNames)

def isEmptyArray : KjNode → Bool
  | .array [] => true
  | _ => false

/-- No empty array, and no array with one default instance next to another member. -/
def NothingCut (members : Members) : Prop :=
  (∀ m ∈ left env noOverwrite e members, isEmptyArray m.2 = false) ∧
    ((left env noOverwrite e members).length ≤ 1 ∨
      ∀ m ∈ left env noOverwrite e members, lifted m.2 = false)

instance (members : Members) : Decidable (NothingCut env noOverwrite e members) :=
  inferInstanceAs (Decidable (_ ∧ (_ ∨ _)))

def named (members : Members) : Members := members.filter fun m => !isTimestamp m.1

/-- Every member names another attribute, also after the conversion has expanded the name a
second time. -/
structure Distinct (members : Members) : Prop where
  names : ((named members).map fun m => dotForEq (longName env m.1)).Nodup
  stored : ((named members).map fun m => dotForEq (longName env (longName env m.1))).Nodup

/-- The request is later than the last change of every stored instance. -/
def Fresh : Prop :=
  ∀ x, ∀ members, .object members ∈ slotOf e.datasets x →
    ("modifiedAt".toList, .float env.requestTime) ∉ members

variable {env : Env} {merge : MergeAttrInfo} {noOverwrite : Bool} {e : Entity} {members' : Members}
  {r r' : PostResult}

theorem leftBy_some {l : Text × KjNode} (h : leftBy env noOverwrite e.attrNames m = some l) :
    isTimestamp m.1 = false ∧ l = (longName env m.1, m.2) := by
  unfold leftBy at h
  split at h
  · cases h
  · rename_i hn
    exact ⟨by simpa using fun ht => hn (.inl ht), (Option.some.inj h).symm⟩

theorem left_map_sublist {γ : Type} (env : Env) (noOverwrite : Bool) (e : Entity)
    (g : Text → γ) (members : Members) :
    ((left env noOverwrite e members).map fun l => g l.1).Sublist
      ((named members).map fun m => g (longName env m.1)) := by
  have hnamed : left env noOverwrite e members =
      (named members).filterMap (leftBy env noOverwrite e.attrNames) := by
    unfold left named
    induction members with
    | nil => rfl
    | cons m members ih =>
      by_cases ht : isTimestamp m.1 = true
      · simp [ht, leftBy, ih]
      · simp [ht, filterMap_cons, ih]
  rw [hnamed]
  apply filterMap_map_sublist
  intro m l hl
  rw [(leftBy_some hl).2]

theorem left_keys_nodup (noOverwrite : Bool) (e : Entity) (h : Distinct env members) :
    ((left env noOverwrite e members).map key).Nodup :=
  (left_map_sublist env noOverwrite e dotForEq members).nodup h.names

theorem converted_keys_nodup (h : Distinct env members) :
    (((left env noOverwrite e members).filterMap (convertedBy env)).map
      fun ca => dotForEq ca.name).Nodup := by
  have hsub := left_map_sublist env noOverwrite e (fun n => dotForEq (longName env n)) members
  refine (List.Sublist.trans (filterMap_map_sublist ?_ _) hsub).nodup h.stored
  intro l ca hca
  rw [convertedBy_name hca]

variable {ms : Members}

theorem reached_of_nothingCut (h : ms.length ≤ 1 ∨ ∀ m ∈ ms, lifted m.2 = false) :
    reached ms = ms := by
  induction ms with
  | nil => rfl
  | cons m ms ih =>
    rw [reached]
    split
    · rename_i hl
      rcases h with hlen | hno
      · have hnil : ms = [] := length_eq_zero_iff.mp (by simpa using hlen)
        rw [hnil]
      · rw [hno m mem_cons_self] at hl
        cases hl
    · rw [ih]
      rcases h with hlen | hno
      · left
        simp only [length_cons] at hlen
        omega
      · exact .inr fun m' hm' => hno m' (mem_cons_of_mem _ hm')

theorem left_perm (noOverwrite : Bool) (e : Entity) (h : members'.Perm members) :
    (left env noOverwrite e members').Perm (left env noOverwrite e members) :=
  h.filterMap _

theorem distinct_perm (h : members'.Perm members) (hd : Distinct env members) :
    Distinct env members' :=
  ⟨((h.filter _).map _).nodup_iff.mpr hd.names, ((h.filter _).map _).nodup_iff.mpr hd.stored⟩

theorem nothingCut_perm (h : members'.Perm members) (hc : NothingCut env noOverwrite e members) :
    NothingCut env noOverwrite e members' := by
  have hp : (left env noOverwrite e members').Perm (left env noOverwrite e members) :=
    left_perm noOverwrite e h
  refine ⟨fun m hm => hc.1 m (hp.mem_iff.mp hm), ?_⟩
  rw [hp.length_eq]
  exact hc.2.imp_right fun hno m hm => hno m (hp.mem_iff.mp hm)

/-- A request that is not refused as a whole, taken apart. -/
structure Run (env : Env) (merge : MergeAttrInfo) (noOverwrite : Bool) (e : Entity)
    (members : Members) (r : PostResult) (s : PostState) : Prop where
  converted : convertMembers env (left env noOverwrite e members)
    ⟨e.datasets, false, [], [], members.filterMap (keptBy env noOverwrite e.attrNames)⟩ = .ok s
  result : r = ⟨writeEntity env merge noOverwrite
    (attrNameV (left env noOverwrite e members)) s e, s.contextAttributeVector, s.updated,
    s.notUpdated, statusCode s.notUpdated⟩

theorem run_of_ok (h : postMembers env merge noOverwrite e members = .ok r) :
    ∃ s, Run env merge noOverwrite e members r s := by
  rw [postMembers_eq] at h
  cases hc : convertMembers env (members.filterMap (leftBy env noOverwrite e.attrNames))
      ⟨e.datasets, false, [], [], members.filterMap (keptBy env noOverwrite e.attrNames)⟩ with
  | error err => rw [hc] at h; cases h
  | ok s =>
    rw [hc] at h
    exact ⟨s, hc, (ok.inj h).symm⟩

theorem writeEntity_datasets (s : PostState) (names : List Text)
    (h : s.datasets = none → e.datasets = none) :
    (writeEntity env merge noOverwrite names s e).datasets = s.datasets := by
  unfold writeEntity
  cases hd : s.datasets <;> cases s.notOnlyDatasets <;>
    simp [mongoUpdateContextAppend, dbEntityAttributesDelete, h, hd]

theorem run_lists (h : Run env merge noOverwrite e members r s)
    (hr : reached (left env noOverwrite e members) = left env noOverwrite e members) :
    r.updated = (left env noOverwrite e members).filterMap (updatedBy env) ∧
      r.notUpdated = members.filterMap (keptBy env noOverwrite e.attrNames) ++
        (left env noOverwrite e members).filterMap (notUpdatedBy env) ∧
      s.contextAttributeVector = (left env noOverwrite e members).filterMap (convertedBy env) ∧
      s.notOnlyDatasets = (left env noOverwrite e members).any (!onlyDatasets ·.2) := by
  obtain ⟨hcas, hupd, hnot, hdef⟩ := convertMembers_lists h.converted
  rw [hr] at hcas hupd hnot hdef
  rw [h.result]
  exact ⟨by simpa using hupd, hnot, by simpa using hcas, by simpa using hdef⟩

theorem run_datasets (h : Run env merge noOverwrite e members r s) (hd : Distinct env members)
    (hr : reached (left env noOverwrite e members) = left env noOverwrite e members) :
    r.entity.datasets = s.datasets := by
  rw [h.result]
  apply writeEntity_datasets
  intro hnone
  obtain ⟨-, -, hsome⟩ := convertMembers_datasets (left_keys_nodup noOverwrite e hd) hr h.converted
  rw [hnone] at hsome
  simpa using (Bool.or_eq_false_iff.mp hsome.symm).1

theorem ofConversion_ne_inDatasets {reason : String → String → Text → Text}
    {c : Except ConversionError ContextAttribute} (h : noFault c = .ok ()) :
    ofConversion reason c ≠ .inDatasets := by
  cases c with
  | ok ca => simp [ofConversion]
  | error err =>
    cases err with
    | fault => cases h
    | refused detail title details => simp [ofConversion]

theorem other_ne_inDatasets (env : Env) (name : Text) (node : KjNode)
    (h : (if hasDatasetId node then .ok ()
      else noFault (kjTreeToContextAttribute env name node)) = .ok ()) :
    (if hasDatasetId node then .notUpdated "datasetId given but not an array".toList
      else ofConversion titleAndDetail (kjTreeToContextAttribute env name node)) ≠
        .inDatasets := by
  split at h
  · rename_i hd
    simp [hd]
  rename_i hd
  rw [if_neg hd]
  exact ofConversion_ne_inDatasets h

theorem treatment_inDatasets (hacc : acceptable env m = .ok ())
    (ht : treatment env m = .inDatasets) :
    ∃ items, m.2 = .array items ∧ ∀ item ∈ items, hasDatasetId item = true := by
  obtain ⟨name, node⟩ := m
  cases node with
  | array items =>
    refine ⟨items, rfl, ?_⟩
    simp only [treatment] at ht
    simp only [acceptable] at hacc
    split at ht
    · rename_i instP hone
      rw [hone] at hacc
      simp only at hacc
      split at hacc
      · cases hacc
      · exact absurd ht (ofConversion_ne_inDatasets hacc)
    · rename_i hmany
      split at hacc
      · rename_i hnil
        intro item hi
        by_contra hno
        have hmem : item ∈ items.filter (!hasDatasetId ·) := mem_filter.mpr ⟨hi, by simpa using hno⟩
        rw [hnil] at hmem
        cases hmem
      · rename_i instP hone
        exact absurd hone (hmany instP)
      · cases hacc
  | null => exact absurd ht (other_ne_inDatasets env name .null hacc)
  | bool b => exact absurd ht (other_ne_inDatasets env name (.bool b) hacc)
  | int i => exact absurd ht (other_ne_inDatasets env name (.int i) hacc)
  | float f => exact absurd ht (other_ne_inDatasets env name (.float f) hacc)
  | string t => exact absurd ht (other_ne_inDatasets env name (.string t) hacc)
  | object ms => exact absurd ht (other_ne_inDatasets env name (.object ms) hacc)

theorem keptBy_or_leftBy (env : Env) (noOverwrite : Bool) (e : Entity) (m : Text × KjNode)
    (h : isTimestamp m.1 = false) :
    (∃ n, keptBy env noOverwrite e.attrNames m = some n ∧ n.attr = longName env m.1) ∨
      leftBy env noOverwrite e.attrNames m = some (longName env m.1, m.2) := by
  by_cases hk : noOverwrite ∧ longName env m.1 ∈ e.attrNames
  · exact .inl ⟨_, if_pos ⟨h, hk⟩, rfl⟩
  right
  unfold leftBy
  rw [if_neg]
  rintro (ht | hk')
  · rw [h] at ht
    cases ht
  · exact hk hk'

theorem all_treated (hd : Distinct env members) (hc : NothingCut env noOverwrite e members)
    (h : postMembers env merge noOverwrite e members = .ok r) : AllTreated env members r := by
  obtain ⟨s, hrun⟩ := run_of_ok h
  have hr := reached_of_nothingCut hc.2
  have hkeys := left_keys_nodup noOverwrite e hd
  obtain ⟨hupd, hnot, -, -⟩ := run_lists hrun hr
  obtain ⟨hin, -, -⟩ := convertMembers_datasets hkeys hr hrun.converted
  have hfits := (convertMembers_ok_iff hkeys hr).mp ⟨s, hrun.converted⟩
  intro m hm hts
  rcases keptBy_or_leftBy env noOverwrite e m hts with ⟨n, hn, hattr⟩ | hl
  · right; left
    exact ⟨n, hnot ▸ mem_append_left _ (mem_filterMap.mpr ⟨m, hm, hn⟩), hattr⟩
  have hmem : (longName env m.1, m.2) ∈ left env noOverwrite e members :=
    mem_filterMap.mpr ⟨m, hm, hl⟩
  obtain ⟨⟨slot, hslot⟩, hacc⟩ := hfits _ hmem
  cases ht : treatment env (longName env m.1, m.2) with
  | updated ca =>
    left
    refine ⟨⟨longName env m.1, orionldContextItemAliasLookup env.toContexts (longName env m.1)⟩,
      ?_, rfl⟩
    rw [hupd]
    exact mem_filterMap.mpr ⟨_, hmem, by simp [updatedBy, ht]⟩
  | notUpdated reason =>
    right; left
    refine ⟨⟨longName env m.1, orionldContextItemAliasLookup env.toContexts (longName env m.1),
      reason⟩, ?_, rfl⟩
    rw [hnot]
    exact mem_append_right _ (mem_filterMap.mpr ⟨_, hmem, by simp [notUpdatedBy, ht]⟩)
  | inDatasets =>
    right; right
    obtain ⟨items, hitems, hall⟩ := treatment_inDatasets hacc ht
    simp only at hitems
    have hne : items ≠ [] := by
      rintro rfl
      have hempty := hc.1 _ hmem
      rw [hitems] at hempty
      cases hempty
    have htouch : touches (longName env m.1, m.2) = true := by
      obtain ⟨item, hi⟩ := exists_mem_of_ne_nil items hne
      simp only [touches, hitems]
      exact any_eq_true.mpr ⟨item, hi, hall item hi⟩
    have hlook := hin _ hmem htouch slot hslot
    refine ⟨items, hitems, hne, ?_⟩
    intro item hi
    simp only [memberSlot, hitems] at hslot
    obtain ⟨id, hid, hw⟩ := (slotAfter_spec hslot).2 item hi (hall item hi)
    refine ⟨id, hid, ?_⟩
    rw [run_datasets hrun hd hr]
    have hso : slotOf s.datasets (dotForEq (longName env m.1)) = slot := by
      unfold slotOf
      rw [show dotForEq (longName env m.1) = key (longName env m.1, m.2) from rfl, hlook]
      rfl
    rwa [hso]

theorem same_datasets {ms' : Members} {s₀ s₀' : PostState} (hp : ms'.Perm ms)
    (hn : (ms.map key).Nodup) (hr : reached ms = ms) (hr' : reached ms' = ms')
    (hd : s₀.datasets = s₀'.datasets) (h : convertMembers env ms s₀ = .ok s)
    (h' : convertMembers env ms' s₀' = .ok s') : s.datasets.isSome = s'.datasets.isSome ∧
      ∀ x, (s.datasets.getD []).lookup x = (s'.datasets.getD []).lookup x := by
  have hn' : (ms'.map key).Nodup := (hp.map key).nodup_iff.mpr hn
  obtain ⟨hin, hout, hsome⟩ := convertMembers_datasets hn hr h
  obtain ⟨hin', hout', hsome'⟩ := convertMembers_datasets hn' hr' h'
  have hfits := (convertMembers_ok_iff hn hr).mp ⟨s, h⟩
  constructor
  · have hany : ms.any touches = ms'.any touches := by
      rw [Bool.eq_iff_iff, any_eq_true, any_eq_true]
      simp only [hp.mem_iff]
    rw [hsome, hsome', hd, hany]
  · intro x
    by_cases hx : ∃ m ∈ ms, touches m = true ∧ key m = x
    · obtain ⟨m, hm, ht, rfl⟩ := hx
      obtain ⟨⟨slot, hslot⟩, -⟩ := hfits m hm
      rw [hin m hm ht slot hslot, hin' m (hp.mem_iff.mpr hm) ht slot (hd ▸ hslot)]
    · have hfree : ∀ m ∈ ms, touches m = true → key m ≠ x := fun m hm ht e => hx ⟨m, hm, ht, e⟩
      rw [hout x hfree, hout' x fun m hm => hfree m (hp.mem_iff.mp hm), hd]

theorem same_outcome (hp : members'.Perm members) (hd : Distinct env members)
    (hc : NothingCut env noOverwrite e members)
    (h : postMembers env merge noOverwrite e members = .ok r)
    (h' : postMembers env merge noOverwrite e members' = .ok r') : SameOutcome r r' := by
  obtain ⟨s, hrun⟩ := run_of_ok h
  obtain ⟨s', hrun'⟩ := run_of_ok h'
  have hr := reached_of_nothingCut hc.2
  have hr' := reached_of_nothingCut (nothingCut_perm hp hc).2
  have hleft : (left env noOverwrite e members').Perm (left env noOverwrite e members) :=
    left_perm noOverwrite e hp
  obtain ⟨hupd, hnot, hcas, hdef⟩ := run_lists hrun hr
  obtain ⟨hupd', hnot', hcas', hdef'⟩ := run_lists hrun' hr'
  have hwrite : ∀ (members : Members) (r : PostResult) (s : PostState),
      Run env merge noOverwrite e members r s →
      r.entity = writeEntity env merge noOverwrite
        (attrNameV (left env noOverwrite e members)) s e :=
    fun members r s hrun => by rw [hrun.result]
  have hnames : ∀ x, x ∈ attrNameV (left env noOverwrite e members) ↔
      x ∈ attrNameV (left env noOverwrite e members') := fun x => (hleft.map _).symm.mem_iff
  have hsame : s.notOnlyDatasets = s'.notOnlyDatasets := by
    rw [hdef, hdef', Bool.eq_iff_iff, any_eq_true, any_eq_true]
    simp only [hleft.mem_iff]
  have hperm : s.contextAttributeVector.Perm s'.contextAttributeVector := by
    rw [hcas, hcas']
    exact (hleft.filterMap _).symm
  have hkeys : (s.contextAttributeVector.map fun ca => dotForEq ca.name).Nodup := by
    rw [hcas]
    exact converted_keys_nodup hd
  have hfields := writeEntity_fields env merge noOverwrite e s
    (attrNameV (left env noOverwrite e members))
  have hfields' := writeEntity_fields env merge noOverwrite e s'
    (attrNameV (left env noOverwrite e members'))
  simp only [← hsame, ← delete_congr hnames] at hfields hfields'
  refine ⟨?_, ?_, ?_, ?_, ?_⟩
  · intro u
    rw [hupd, hupd']
    exact (hleft.filterMap _).symm.mem_iff
  · intro n
    rw [hnot, hnot']
    exact ((hp.filterMap _).append (hleft.filterMap _)).symm.mem_iff
  · intro x
    rw [hwrite _ _ _ hrun, hwrite _ _ _ hrun', hfields.1, hfields'.1]
    split
    · exact (append_perm hperm hkeys).1 x
    · rfl
  · intro x
    rw [hwrite _ _ _ hrun, hwrite _ _ _ hrun', hfields.2, hfields'.2]
    split
    · exact (append_perm hperm hkeys).2 x
    · rfl
  · rw [run_datasets hrun hd hr, run_datasets hrun' (distinct_perm hp hd) hr']
    refine same_datasets hleft (left_keys_nodup noOverwrite e hd) hr hr' ?_ hrun.converted
      hrun'.converted
    rfl

theorem accepted_perm (hp : members'.Perm members) (hd : Distinct env members)
    (hc : NothingCut env noOverwrite e members)
    (h : postMembers env merge noOverwrite e members = .ok r) :
    ∃ r', postMembers env merge noOverwrite e members' = .ok r' := by
  obtain ⟨s, hrun⟩ := run_of_ok h
  have hleft : (left env noOverwrite e members').Perm (left env noOverwrite e members) :=
    left_perm noOverwrite e hp
  have hfits := (convertMembers_ok_iff (left_keys_nodup noOverwrite e hd)
    (reached_of_nothingCut hc.2)).mp ⟨s, hrun.converted⟩
  obtain ⟨s', hs'⟩ := (convertMembers_ok_iff
    (s := ⟨e.datasets, false, [], [], members'.filterMap (keptBy env noOverwrite e.attrNames)⟩)
    (left_keys_nodup noOverwrite e (distinct_perm hp hd))
    (reached_of_nothingCut (nothingCut_perm hp hc).2)).mpr
    fun m hm => hfits m (hleft.mem_iff.mp hm)
  rw [postMembers_eq]
  exact ⟨_, congrArg (Except.map _) hs'⟩

theorem reached_subset (h : m ∈ reached ms) : m ∈ ms := by
  induction ms with
  | nil => exact h
  | cons m' ms ih =>
    rw [reached] at h
    split at h
    · rw [mem_singleton.mp h]
      exact mem_cons_self
    rcases mem_cons.mp h with rfl | h
    · exact mem_cons_self
    · exact mem_cons_of_mem _ (ih h)

theorem mem_named (hm : m ∈ members) (ht : isTimestamp m.1 = false) : m ∈ named members :=
  mem_filter.mpr ⟨hm, by simpa using ht⟩

theorem not_all_treated (hrun : Run env merge noOverwrite e members r s)
    (hd : Distinct env members) (hm : m ∈ members)
    (hl : leftBy env noOverwrite e.attrNames m = some (longName env m.1, m.2))
    (hno : (longName env m.1, m.2) ∈ reached (left env noOverwrite e members) →
      treatment env (longName env m.1, m.2) = .inDatasets)
    (hds : ¬ InDatasets env r.entity m) : ¬ AllTreated env members r := by
  have hts := (leftBy_some hl).1
  have hmem : (longName env m.1, m.2) ∈ left env noOverwrite e members :=
    mem_filterMap.mpr ⟨m, hm, hl⟩
  have hinj := inj_on_of_nodup_map (left_keys_nodup noOverwrite e hd)
  have hsole : ∀ l ∈ reached (left env noOverwrite e members), l.1 = longName env m.1 →
      treatment env l = .inDatasets := by
    intro l hlr hname
    have heq := hinj (reached_subset hlr) hmem (by unfold key; rw [hname])
    rw [heq] at hlr ⊢
    exact hno hlr
  obtain ⟨-, hupd, hnot, -⟩ := convertMembers_lists hrun.converted
  intro hall
  have hcases := hall m hm hts
  rw [hrun.result] at hcases
  simp only [hupd, hnot, nil_append] at hcases
  rcases hcases with ⟨u, hu, hattr⟩ | ⟨n, hn, hattr⟩ | hin
  · obtain ⟨l, hlr, hby⟩ := mem_filterMap.mp hu
    have hname : l.1 = longName env m.1 := by
      unfold updatedBy at hby
      split at hby
      · rw [← hattr, ← Option.some.inj hby]
      · cases hby
    rw [updatedBy, hsole l hlr hname] at hby
    cases hby
  · rcases mem_append.mp hn with hn | hn
    · obtain ⟨m', hm', hkept⟩ := mem_filterMap.mp hn
      unfold keptBy at hkept
      split at hkept
      · rename_i hk
        have hname : longName env m'.1 = longName env m.1 := by
          rw [← hattr, ← Option.some.inj hkept]
        have heq := inj_on_of_nodup_map hd.names (mem_named hm' hk.1) (mem_named hm hts)
          (by rw [hname])
        subst heq
        rw [leftBy, if_pos (.inr hk.2)] at hl
        cases hl
      · cases hkept
    · obtain ⟨l, hlr, hby⟩ := mem_filterMap.mp hn
      have hname : l.1 = longName env m.1 := by
        unfold notUpdatedBy at hby
        split at hby
        · rw [← hattr, ← Option.some.inj hby]
        · cases hby
      rw [notUpdatedBy, hsole l hlr hname] at hby
      cases hby
  · rw [hrun.result] at hds
    exact hds hin

theorem isEmptyArray_iff {node : KjNode} : isEmptyArray node = true ↔ node = .array [] := by
  unfold isEmptyArray
  split <;> simp_all

theorem not_all_treated_empty (h : postMembers env merge noOverwrite e members = .ok r)
    (hd : Distinct env members) {l : Text × KjNode} (hl : l ∈ left env noOverwrite e members)
    (hempty : l.2 = .array []) : ¬ AllTreated env members r := by
  obtain ⟨s, hrun⟩ := run_of_ok h
  obtain ⟨m, hm, hby⟩ := mem_filterMap.mp hl
  obtain rfl := (leftBy_some hby).2
  simp only at hempty
  refine not_all_treated hrun hd hm hby ?_ ?_
  · intro _
    simp [treatment, hempty]
  · rintro ⟨items, hitems, hne, -⟩
    rw [hempty] at hitems
    exact hne (KjNode.array.inj hitems).symm

/-- With an array that is turned into its default instance first, the rest is not treated. -/
theorem not_all_treated_after {m₀ : Text × KjNode} {rest : Members}
    (h : postMembers env merge noOverwrite e (m₀ :: rest) = .ok r) (hd : Distinct env (m₀ :: rest))
    (hfresh : Fresh env e)
    (hl₀ : leftBy env noOverwrite e.attrNames m₀ = some (longName env m₀.1, m₀.2))
    (hlift : lifted m₀.2 = true) (hm : m ∈ rest)
    (hl : leftBy env noOverwrite e.attrNames m = some (longName env m.1, m.2)) :
    ¬ AllTreated env (m₀ :: rest) r := by
  obtain ⟨s, hrun⟩ := run_of_ok h
  have hleft : left env noOverwrite e (m₀ :: rest) =
      (longName env m₀.1, m₀.2) :: left env noOverwrite e rest := by
    rw [left, filterMap_cons, hl₀]
    rfl
  have hkeys := left_keys_nodup noOverwrite e hd
  rw [hleft, map_cons, nodup_cons] at hkeys
  have hmem : (longName env m.1, m.2) ∈ left env noOverwrite e rest := mem_filterMap.mpr ⟨m, hm, hl⟩
  have hne : key (longName env m₀.1, m₀.2) ≠ key (longName env m.1, m.2) :=
    fun heq => hkeys.1 (heq ▸ mem_map_of_mem hmem)
  refine not_all_treated hrun hd (mem_cons_of_mem _ hm) hl ?_ ?_
  · rw [hleft, reached, if_pos hlift]
    intro hin
    exact absurd (congrArg key (mem_singleton.mp hin)).symm hne
  · have hconv := hrun.converted
    rw [hleft, convertMembers] at hconv
    obtain ⟨⟨s₁, cut⟩, hstep, hcut⟩ := bind_ok hconv
    obtain ⟨slot, -, -, rfl, rfl⟩ := convertMember_ok hstep
    simp only [hlift, if_true] at hcut
    cases hcut
    have hdata : r.entity.datasets = withSlot e.datasets (longName env m₀.1, m₀.2) slot := by
      rw [hrun.result]
      refine (writeEntity_datasets _ _ ?_).trans (treated_datasets _ _)
      rw [treated_datasets, withSlot_eq]
      split
      · intro hnone
        cases hnone
      · exact id
    rintro ⟨items, -, hitems, hall⟩
    obtain ⟨item, hi⟩ := exists_mem_of_ne_nil items hitems
    obtain ⟨id, -, instP, hinst, ms, rfl, -, hmod⟩ := hall item hi
    rw [hdata, show dotForEq (longName env m.1) = key (longName env m.1, m.2) from rfl,
      slotOf_withSlot_of_ne slot hne] at hinst
    exact hfresh _ ms hinst hmod

/-- The attributes of a payload have the same effects in every order if and only if none of them
cuts the payload short. -/
theorem order_free_iff {env : Env} {merge : MergeAttrInfo} {noOverwrite : Bool} {e : Entity}
    {entityId : Text} {members : Members} {r : PostResult}
    (h : orionldPostEntity env merge noOverwrite (some e) entityId (.object members) = .ok r)
    (hd : Distinct env members) (hfresh : Fresh env e) :
    OrderFree env merge noOverwrite e entityId members r ↔
      NothingCut env noOverwrite e members := by
  obtain ⟨hid, hok⟩ := orionldPostEntity_ok h
  have hpost : ∀ ms, orionldPostEntity env merge noOverwrite (some e) entityId (.object ms) =
      postMembers env merge noOverwrite e ms := orionldPostEntity_object merge noOverwrite e hid
  constructor
  · intro hfree
    constructor
    · intro l hl
      obtain ⟨r', hr', htreated, -⟩ := hfree members (List.Perm.refl _)
      by_contra hempty
      exact not_all_treated_empty ((hpost _).symm.trans hr') hd hl
        (isEmptyArray_iff.mp (by simpa using hempty)) htreated
    · by_contra hcon
      rw [not_or] at hcon
      obtain ⟨hlen, hlift⟩ := hcon
      simp only [not_forall, Bool.not_eq_false] at hlift
      obtain ⟨l, hl, hlift⟩ := hlift
      obtain ⟨m₀, hm₀, hby₀⟩ := mem_filterMap.mp hl
      obtain rfl := (leftBy_some hby₀).2
      obtain ⟨before, after, rfl⟩ := append_of_mem hm₀
      have hp : (m₀ :: (before ++ after)).Perm (before ++ m₀ :: after) := perm_middle.symm
      have hlen' : left env noOverwrite e (before ++ after) ≠ [] := by
        intro hnil
        apply hlen
        rw [← (left_perm noOverwrite e hp).length_eq]
        unfold left at hnil ⊢
        rw [filterMap_cons, hby₀, hnil]
        exact le_refl 1
      obtain ⟨l', hl'⟩ := exists_mem_of_ne_nil _ hlen'
      obtain ⟨m, hm, hby⟩ := mem_filterMap.mp hl'
      obtain rfl := (leftBy_some hby).2
      obtain ⟨r', hr', htreated, -⟩ := hfree _ hp
      exact not_all_treated_after ((hpost _).symm.trans hr') (distinct_perm hp hd) hfresh hby₀
        hlift hm hby htreated
  · intro hc members' hp
    obtain ⟨r', hr'⟩ := accepted_perm hp hd hc hok
    refine ⟨r', (hpost members').trans hr', ?_, same_outcome hp hd hc hok hr'⟩
    exact all_treated (distinct_perm hp hd) (nothingCut_perm hp hc) hr'

theorem fresh_storedEntity (shortNames : List String) :
    Fresh plainEnv (storedEntity shortNames) := by
  intro x members hm
  cases hm

def withInstance : Members :=
  [("P1".toList, .object (propertyMembers 1)),
    ("P2".toList, .array
      [.object (("datasetId".toList, .string "urn:D1".toList) :: propertyMembers 2)])]

theorem order_free_withInstance : ∃ r,
    orionldPostEntity plainEnv (fun _ _ => none) false (some (storedEntity ["P1"]))
        "urn:E1".toList (.object withInstance) = .ok r ∧
      OrderFree plainEnv (fun _ _ => none) false (storedEntity ["P1"]) "urn:E1".toList
        withInstance r := by
  obtain ⟨r, h⟩ := exists_ok (x := orionldPostEntity plainEnv (fun _ _ => none) false
    (some (storedEntity ["P1"])) "urn:E1".toList (.object withInstance)) (by decide +kernel)
  have hd : Distinct plainEnv withInstance := ⟨by decide +kernel, by decide +kernel⟩
  exact ⟨r, h, (order_free_iff h hd (fresh_storedEntity _)).mpr (by decide +kernel)⟩

def withDefaultInstance : Members :=
  [("P1".toList, .array [.object (propertyMembers 1)]), ("P2".toList, .object (propertyMembers 2))]

theorem default_instance_cuts_payload : ∃ r,
    orionldPostEntity plainEnv (fun _ _ => none) false (some (storedEntity ["P1"]))
        "urn:E1".toList (.object withDefaultInstance) = .ok r ∧
      ¬ OrderFree plainEnv (fun _ _ => none) false (storedEntity ["P1"]) "urn:E1".toList
        withDefaultInstance r := by
  obtain ⟨r, h⟩ := exists_ok (x := orionldPostEntity plainEnv (fun _ _ => none) false
    (some (storedEntity ["P1"])) "urn:E1".toList (.object withDefaultInstance))
    (by decide +kernel)
  have hd : Distinct plainEnv withDefaultInstance := ⟨by decide +kernel, by decide +kernel⟩
  refine ⟨r, h, ?_⟩
  intro hfree
  obtain ⟨r', hr', htreated, -⟩ := hfree withDefaultInstance (List.Perm.refl _)
  exact not_all_treated_after (orionldPostEntity_ok hr').2 hd (fresh_storedEntity _)
    (if_neg (by decide)) (by decide +kernel) mem_cons_self (if_neg (by decide)) htreated

end PostEntityOrder
