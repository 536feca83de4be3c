import OrionLd.BatchResponse

/-! Batch creation of entities. The entities that exist are removed one instance for each document,
repeated identifiers afterwards and only those under "id". kjChildRemove leaves the removed node
without a next one. -/
namespace PostBatchCreate

open KjTree KjTreeToContextAttribute BatchEntities BatchResponse List

variable {κ : Type}

/-- One instance goes for each entity of the database. -/
def removeExisting (dbEntities : List DbEntity) (s : List BatchEntity × Errors) :
    List BatchEntity × Errors :=
  dbEntities.foldl (fun s d => (removeById s.1 d.id,
    entityErrorPush s.2 (badRequest d.id "entity already exists" none) true)) s

/-- The outer loop, over the entities that are still present. It goes to the next one even if that
has just been removed, and ends there. -/
def dropRepeated (present : BatchEntity → Bool) :
    List BatchEntity → Errors → List BatchEntity × Errors
  | [], errorsArray => ([], errorsArray)
  | e :: tree, errorsArray =>
    if present e then
      let left := fun copy => present copy && !repeats e copy
      let errorsArray :=
        if (tree.filter present).any (repeats e) then
          entityErrorPush errorsArray (badRequest e.id "Entity ID repetition" none) true
        else errorsArray
      if (tree.filter present).head?.any (repeats e) then (e :: tree.filter left, errorsArray)
      else
        let (kept, errorsArray) := dropRepeated left tree errorsArray
        (e :: kept, errorsArray)
    else dropRepeated present tree errorsArray

/-- The entities that the outer loop gets to. -/
def visited (present : BatchEntity → Bool) : List BatchEntity → List BatchEntity
  | [] => []
  | e :: tree =>
    if present e then
      if (tree.filter present).head?.any (repeats e) then [e]
      else e :: visited (fun copy => present copy && !repeats e copy) tree
    else visited present tree

def uniqueNew (dbEntities : Option (List DbEntity)) (s : List BatchEntity × Errors) :
    List BatchEntity × Errors :=
  let s := removeExisting (dbEntities.getD []) s
  let typed := typeCheckForNonExistingEntities dbEntities s.1 s.2 []
  dropRepeated (fun _ => true) typed.1 typed.2.1

structure Prepared where
  tree : List BatchEntity
  elements : List Element
  errorsArray : Errors

/-- orionldPostBatchCreate until it calls mongoUpdateContext, with ActionTypeAppendStrict. -/
def prepare (r : Request) (db : List (EntityDoc κ)) (payload : List KjNode) :
    Option Prepared := do
  let items ← payload.mapM children
  let s := extract entityIdAndTypeGet items []
  let s := uniqueNew (entityListLookupWithIdTypeCreDate db (idArray s.1)) s
  let out ← kjTreeToUpdateContextRequest r none s.1 s.2
  some ⟨s.1, out.1, out.2⟩

def finish (mongo : MongoUpdateContext κ) (db : List (EntityDoc κ)) (p : Prepared) :
    BatchResult κ :=
  let out := if p.elements.isEmpty then (db, []) else mongo p.elements db
  let l := fillLists (fun _ => false) p.elements out.2 p.errorsArray
  ⟨if l.errorsArray.isEmpty then 201 else 207, l.success, l.errorsArray, out.1⟩

def orionldPostBatchCreate (r : Request) (mongo : MongoUpdateContext κ)
    (db : List (EntityDoc κ)) (payload : List KjNode) : Option (BatchResult κ) :=
  (prepare r db payload).map (finish mongo db)

variable {a : Text}

theorem instances_removeExisting (dbEntities : List DbEntity) (s : List BatchEntity × Errors) :
    instances a (removeExisting dbEntities s).1 =
      (instances a s.1).drop (dbEntities.filter fun d => d.id = a).length := by
  induction dbEntities generalizing s with
  | nil => rfl
  | cons d dbEntities ih =>
    refine (ih _).trans ?_
    rw [instances_removeById, filter_cons]
    by_cases h : d.id = a
    · rw [if_pos h.symm, if_pos (decide_eq_true h), length_cons, drop_tail]
    · rw [if_neg fun ha => h ha.symm, if_neg fun hd => h (of_decide_eq_true hd)]

theorem mem_removeExisting_errors {dbEntities : List DbEntity}
    {s : List BatchEntity × Errors} :
    a ∈ errorIds (removeExisting dbEntities s).2 ↔
      a ∈ errorIds s.2 ∨ ∃ d ∈ dbEntities, d.id = a := by
  induction dbEntities generalizing s with
  | nil => simp [removeExisting]
  | cons d dbEntities ih =>
    refine ih.trans ?_
    rw [mem_errorIds_push, or_assoc, exists_mem_cons_iff]
    exact or_congr_right (or_congr_left eq_comm)

variable {present : BatchEntity → Bool} {group tree : List BatchEntity} {e : BatchEntity}
  {errorsArray : Errors}

theorem errors_subset_dropRepeated (h : a ∈ errorIds errorsArray) :
    a ∈ errorIds (dropRepeated present tree errorsArray).2 := by
  induction tree generalizing present errorsArray with
  | nil => exact h
  | cons e tree ih =>
    unfold dropRepeated
    split
    · have hpush : a ∈ errorIds (if (tree.filter present).any (repeats e) then
          entityErrorPush errorsArray (badRequest e.id "Entity ID repetition" none) true
          else errorsArray) := by
        split
        · exact mem_errorIds_push.mpr (.inl h)
        · exact h
      dsimp only
      split
      · exact hpush
      · exact ih hpush
    · exact ih h

/-- Of the instances under "id" the first one. -/
def firstOnly : List BatchEntity → List BatchEntity
  | [] => []
  | e :: group => e :: (firstOnly group).filter fun copy => !repeats e copy

theorem firstOnly_sublist (group : List BatchEntity) : (firstOnly group).Sublist group := by
  induction group with
  | nil => exact List.Sublist.refl _
  | cons e group ih => exact (filter_sublist.trans ih).cons_cons e

theorem repeats_false_of_ne {copy : BatchEntity} (h : e.id ≠ copy.id) : repeats e copy = false := by
  rw [repeats, decide_eq_false h, Bool.and_false]

theorem repeats_false_of_atId {copy : BatchEntity} (h : e.atId = true) :
    repeats e copy = false := by
  rw [repeats, h]
  rfl

theorem repeats_of_plain {copy : BatchEntity} (h : e.atId = false) (hid : e.id = copy.id) :
    repeats e copy = !copy.atId := by
  rw [repeats, h, decide_eq_true hid, Bool.not_false, Bool.true_and, Bool.and_true]

/-- The group is told from the first instance under "id" on. -/
theorem filter_firstOnly (hplain : e.atId = false) (hid : ∀ x ∈ group, e.id = x.id) :
    (firstOnly group).filter (fun copy => !repeats e copy) =
      group.filter fun copy => !repeats e copy := by
  induction group with
  | nil => rfl
  | cons x group ih =>
    obtain ⟨hx, hgroup⟩ := forall_mem_cons.mp hid
    have hrest := ih hgroup
    rw [firstOnly, filter_cons, filter_cons]
    cases hat : x.atId with
    | true =>
      have hnone : (firstOnly group).filter (fun copy => !repeats x copy) = firstOnly group :=
        filter_eq_self.mpr fun copy _ => by rw [repeats_false_of_atId hat]; rfl
      rw [hnone, hrest]
    | false =>
      rw [repeats_of_plain hplain hx, hat, filter_filter]
      refine (filter_congr fun copy hcopy => ?_).trans hrest
      have hcopy := (firstOnly_sublist group).subset hcopy
      rw [repeats_of_plain hplain (hgroup copy hcopy),
        repeats_of_plain hat (hx.symm.trans (hgroup copy hcopy)), Bool.and_self]

theorem firstOnly_eq_filter (hplain : e.atId = false) (hid : ∀ x ∈ group, e.id = x.id) :
    firstOnly (e :: group) = e :: group.filter fun copy => !repeats e copy := by
  rw [firstOnly, filter_firstOnly hplain hid]

/-- The outer loop gets to an instance under "id". -/
def reaches (present : BatchEntity → Bool) (tree : List BatchEntity) (a : Text) : Bool :=
  (visited present tree).any fun e => decide (e.id = a) && !e.atId

theorem visited_present {x : BatchEntity} (h : x ∈ visited present tree) :
    x ∈ tree.filter present := by
  induction tree generalizing present with
  | nil => cases h
  | cons e tree ih =>
    unfold visited at h
    split at h
    · rename_i hpresent
      rw [filter_cons_of_pos hpresent]
      split at h
      · exact mem_singleton.mp h ▸ mem_cons_self
      rcases mem_cons.mp h with rfl | h
      · exact mem_cons_self
      · obtain ⟨hx, hleft⟩ := mem_filter.mp (ih h)
        exact mem_cons_of_mem _ (mem_filter.mpr ⟨hx, (Bool.and_eq_true_iff.mp hleft).1⟩)
    · rename_i hpresent
      rw [filter_cons_of_neg hpresent]
      exact ih h

theorem instances_left (e : BatchEntity) (tree : List BatchEntity) (a : Text) :
    instances a (tree.filter fun copy => present copy && !repeats e copy) =
      (instances a (tree.filter present)).filter fun copy => !repeats e copy := by
  rw [← instances_filter, filter_filter]
  simp only [Bool.and_comm]

theorem not_reaches_left (h : e.atId = false) (hid : e.id = a) :
    reaches (fun copy => present copy && !repeats e copy) tree a = false := by
  refine any_eq_false.mpr fun x hx => ?_
  obtain ⟨-, hleft⟩ := mem_filter.mp (visited_present hx)
  have hkept := (Bool.and_eq_true_iff.mp hleft).2
  rw [Bool.and_eq_true, decide_eq_true_eq]
  rintro ⟨hxa, hat⟩
  rw [repeats_of_plain h (hid.trans hxa.symm), Bool.not_not] at hkept
  rw [hkept] at hat
  cases hat

theorem instances_kept (h : e.id ≠ a ∨ e.atId = true) (present : BatchEntity → Bool)
    (tree : List BatchEntity) :
    instances a (tree.filter fun copy => present copy && !repeats e copy) =
      instances a (tree.filter present) := by
  rw [instances_left, filter_eq_self]
  intro x hx
  rcases h with hid | hat
  · rw [repeats_false_of_ne fun heq => hid (heq.trans (mem_instances.mp hx).2)]
    rfl
  · rw [repeats_false_of_atId hat]
    rfl

/-- Of an identifier that the loop gets to the first instance is left, and those under "@id". -/
theorem instances_dropRepeated (present : BatchEntity → Bool) (tree : List BatchEntity)
    (errorsArray : Errors) (a : Text) :
    instances a (dropRepeated present tree errorsArray).1 =
      if reaches present tree a then firstOnly (instances a (tree.filter present))
      else instances a (tree.filter present) := by
  induction tree generalizing present errorsArray with
  | nil => rfl
  | cons e tree ih =>
    unfold reaches at ih ⊢
    unfold dropRepeated visited
    by_cases hpresent : present e = true
    case neg =>
      rw [if_neg hpresent, if_neg hpresent, filter_cons_of_neg hpresent]
      exact ih present errorsArray
    rw [if_pos hpresent, if_pos hpresent, filter_cons_of_pos hpresent]
    have hsame : e.id = a → ∀ x ∈ instances a (tree.filter present), e.id = x.id :=
      fun hid x hx => hid.trans (mem_instances.mp hx).2.symm
    dsimp only
    split
    · rename_i hend
      have hplain : e.atId = false := by
        obtain ⟨next, -, hnext⟩ := (Option.any_eq_true _ _).mp hend
        by_contra hat
        rw [repeats_false_of_atId (Bool.eq_true_of_not_eq_false hat)] at hnext
        cases hnext
      rw [any_cons, any_nil, Bool.or_false, hplain, instances_cons, instances_cons]
      by_cases hid : e.id = a
      · rw [if_pos hid, if_pos hid, decide_eq_true hid, instances_left]
        exact (firstOnly_eq_filter hplain (hsame hid)).symm
      · rw [if_neg hid, if_neg hid, decide_eq_false hid]
        exact instances_kept (.inl hid) present tree
    · have hrest := ih (fun copy => present copy && !repeats e copy)
        (if (tree.filter present).any (repeats e) then
          entityErrorPush errorsArray (badRequest e.id "Entity ID repetition" none) true
          else errorsArray)
      rw [any_cons, instances_cons, instances_cons, hrest]
      by_cases hid : e.id = a
      · rw [if_pos hid, if_pos hid, decide_eq_true hid, Bool.true_and]
        cases hat : e.atId with
        | false =>
          have hno : reaches (fun copy => present copy && !repeats e copy) tree a = false :=
            not_reaches_left hat hid
          unfold reaches at hno
          rw [hno, if_neg Bool.false_ne_true, instances_left]
          exact (firstOnly_eq_filter hat (hsame hid)).symm
        | true =>
          rw [instances_kept (.inr hat), Bool.not_true, Bool.false_or, firstOnly]
          have hself : (firstOnly (instances a (tree.filter present))).filter
              (fun copy => !repeats e copy) = firstOnly (instances a (tree.filter present)) :=
            filter_eq_self.mpr fun copy _ => by rw [repeats_false_of_atId hat]; rfl
          rw [hself, apply_ite (e :: ·)]
      · rw [if_neg hid, if_neg hid, decide_eq_false hid, instances_kept (.inl hid),
          Bool.false_and, Bool.false_or]

theorem atId_mem_firstOnly (h : e ∈ group) (hat : e.atId = true) : e ∈ firstOnly group := by
  induction group with
  | nil => exact h
  | cons head group ih =>
    rcases mem_cons.mp h with rfl | h
    · exact mem_cons_self
    refine mem_cons_of_mem _ (mem_filter.mpr ⟨ih h, ?_⟩)
    unfold repeats
    rw [hat, Bool.not_true, Bool.and_false, Bool.false_and]
    rfl

theorem two_le_firstOnly (hlen : 2 ≤ group.length) (he : e ∈ group) (hat : e.atId = true) :
    2 ≤ (firstOnly group).length := by
  match group, hlen with
  | head :: next :: group, _ =>
    refine Nat.succ_le_succ (length_pos_iff_exists_mem.mpr ?_)
    by_cases hhead : head.atId = true
    · refine ⟨next, mem_filter.mpr ⟨mem_cons_self, ?_⟩⟩
      rw [repeats_false_of_atId hhead]
      rfl
    · rcases mem_cons.mp he with rfl | he
      · exact absurd hat hhead
      refine ⟨e, mem_filter.mpr ⟨atId_mem_firstOnly he hat, ?_⟩⟩
      unfold repeats
      rw [hat, Bool.not_true, Bool.and_false, Bool.false_and]
      rfl

theorem length_firstOnly_le (hid : ∀ e ∈ group, e.id = a) (hplain : ∀ e ∈ group, e.atId = false) :
    (firstOnly group).length ≤ 1 := by
  cases group with
  | nil => exact Nat.zero_le _
  | cons e group =>
    have hsame : ∀ x ∈ group, e.id = x.id := fun x hx =>
      (hid e mem_cons_self).trans (hid x (mem_cons_of_mem _ hx)).symm
    have hnone : group.filter (fun copy => !repeats e copy) = [] := by
      refine filter_eq_nil_iff.mpr fun copy hcopy => ?_
      rw [repeats_of_plain (hplain e mem_cons_self) (hsame copy hcopy),
        hplain copy (mem_cons_of_mem _ hcopy)]
      decide
    rw [firstOnly_eq_filter (hplain e mem_cons_self) hsame, hnone]
    exact le_rfl

def entities (payload : List KjNode) : List BatchEntity := accepted entityIdAndTypeGet payload

def dbEntities (db : List (EntityDoc κ)) (payload : List KjNode) : Option (List DbEntity) :=
  entityListLookupWithIdTypeCreDate db (idArray (entities payload))

def documents (db : List (EntityDoc κ)) (payload : List KjNode) (a : Text) : List DbEntity :=
  ((dbEntities db payload).getD []).filter fun d => d.id = a

def Stored (db : List (EntityDoc κ)) (a : Text) : Prop := ∃ doc ∈ db, doc.id = a

def typedInstances (payload : List KjNode) (a : Text) : List BatchEntity :=
  (instances a (entities payload)).filter fun e => e.type.isSome

/-- What is handed over is new and named once, what exists is in the errors array, and of a new
identifier the first instance with a type is kept. -/
structure NewOnly (db : List (EntityDoc κ)) (payload : List KjNode) (p : Prepared) : Prop where
  unknown : ∀ el ∈ p.elements, ¬ Stored db el.id
  once : (p.elements.map Element.id).Nodup
  reported : ∀ a ∈ payloadIds payload, Stored db a → a ∈ errorIds p.errorsArray
  firstKept : ∀ a, ¬ Stored db a → ∀ e, (typedInstances payload a).head? = some e → e ∈ p.tree

/-- The entities that are neither stored nor without a type. -/
def newEntities (db : List (EntityDoc κ)) (payload : List KjNode) : List BatchEntity :=
  (entities payload).filter fun e => (documents db payload e.id).isEmpty && e.type.isSome

/-- The lookup finds what is stored, no more instances are given than documents, and a new repeated
one is given under "id", where the outer loop gets to it. -/
structure NoneSlips (db : List (EntityDoc κ)) (payload : List KjNode) : Prop where
  found : ∀ e ∈ entities payload, Stored db e.id → documents db payload e.id ≠ []
  existing : ∀ a, documents db payload a ≠ [] →
    (instances a (entities payload)).length ≤ (documents db payload a).length
  repeated : ∀ a, documents db payload a = [] → (typedInstances payload a).length ≤ 1 ∨
    (∀ e ∈ typedInstances payload a, e.atId = false) ∧
      reaches (fun _ => true) (newEntities db payload) a = true

def left (db : List (EntityDoc κ)) (payload : List KjNode) (a : Text) : List BatchEntity :=
  if documents db payload a = [] then typedInstances payload a
  else (instances a (entities payload)).drop (documents db payload a).length

def remaining (dbEntities : List DbEntity) (tree : List BatchEntity) : List BatchEntity :=
  dbEntities.foldl (fun tree d => removeById tree d.id) tree

/-- The array as the outer loop finds it. -/
def presentTree (db : List (EntityDoc κ)) (payload : List KjNode) : List BatchEntity :=
  (remaining ((dbEntities db payload).getD []) (entities payload)).filter
    (hasType (dbEntities db payload))

theorem removeExisting_tree (dbEntities : List DbEntity) (s : List BatchEntity × Errors) :
    (removeExisting dbEntities s).1 = remaining dbEntities s.1 := by
  induction dbEntities generalizing s with
  | nil => rfl
  | cons d dbEntities ih => exact ih _

theorem filter_removeById {q : BatchEntity → Bool} {id : Text}
    (h : ∀ e : BatchEntity, e.id = id → q e = false) (tree : List BatchEntity) :
    (removeById tree id).filter q = tree.filter q := by
  unfold removeById
  induction tree with
  | nil => rfl
  | cons e tree ih =>
    rw [eraseP_cons]
    by_cases hid : e.id = id
    · have hout : q e ≠ true := by rw [h e hid]; decide
      rw [decide_eq_true hid, cond_true, filter_cons_of_neg hout]
    · rw [decide_eq_false hid, cond_false, filter_cons, filter_cons, ih]

theorem filter_remaining {dbEntities : List DbEntity} {q : BatchEntity → Bool}
    (h : ∀ d ∈ dbEntities, ∀ e, e.id = d.id → q e = false) (tree : List BatchEntity) :
    (remaining dbEntities tree).filter q = tree.filter q := by
  induction dbEntities generalizing tree with
  | nil => rfl
  | cons d dbEntities ih =>
    obtain ⟨hd, hrest⟩ := forall_mem_cons.mp h
    exact (ih hrest _).trans (filter_removeById hd tree)

variable {db : List (EntityDoc κ)} {payload : List KjNode} {r : Request} {p : Prepared}

theorem documents_ne_nil :
    documents db payload a ≠ [] ↔ (lookupInDb (dbEntities db payload) a).isSome := by
  unfold documents
  rw [lookupInDb_isSome, Ne, filter_eq_nil_iff]
  push Not
  simp

theorem stored_of_documents (h : documents db payload a ≠ []) : Stored db a := by
  obtain ⟨d, hd, rfl⟩ := lookupInDb_isSome.mp (documents_ne_nil.mp h)
  obtain ⟨-, doc, hdoc, hid, -⟩ := mem_dbEntities hd
  exact ⟨doc, hdoc, hid⟩

theorem prepare_spec (h : prepare r db payload = some p) :
    p.tree = (uniqueNew (dbEntities db payload)
      (entities payload, itemErrors entityIdAndTypeGet payload)).1 ∧
    Converted r none p.tree (uniqueNew (dbEntities db payload)
      (entities payload, itemErrors entityIdAndTypeGet payload)).2
      (p.elements, p.errorsArray) := by
  obtain ⟨items, hitems, h⟩ := Option.bind_eq_some_iff.mp h
  rw [extract_payload hitems] at h
  obtain ⟨out, hout, h⟩ := Option.bind_eq_some_iff.mp h
  cases h
  exact ⟨rfl, request_converted hout⟩

/-- What the loop leaves of an identifier. -/
def leftAfter (db : List (EntityDoc κ)) (payload : List KjNode) (a : Text) : List BatchEntity :=
  if reaches (fun _ => true) (presentTree db payload) a then firstOnly (left db payload a)
  else left db payload a

theorem leftAfter_sublist : (leftAfter db payload a).Sublist (left db payload a) := by
  unfold leftAfter
  split
  · exact firstOnly_sublist _
  · exact List.Sublist.refl _

theorem head_mem_leftAfter {group : List BatchEntity} (h : left db payload a = e :: group) :
    e ∈ leftAfter db payload a := by
  unfold leftAfter
  rw [h]
  split <;> exact mem_cons_self

theorem instances_presentTree (a : Text) :
    instances a (presentTree db payload) = left db payload a := by
  unfold presentTree
  rw [instances_filter, ← removeExisting_tree _ (entities payload, []), instances_removeExisting]
  change ((instances a (entities payload)).drop
    (documents db payload a).length).filter (hasType (dbEntities db payload)) = _
  have hid : ∀ e ∈ instances a (entities payload), e.id = a := fun e he => (mem_instances.mp he).2
  unfold left typedInstances hasType
  split_ifs with hdoc
  · rw [hdoc, length_nil, drop_zero]
    refine filter_congr fun e he => ?_
    have hnone := mt documents_ne_nil.mpr (not_not.mpr hdoc)
    rw [hid e he, Bool.eq_false_iff.mpr hnone, Bool.false_or]
  · refine filter_eq_self.mpr fun e he => ?_
    rw [hid e (mem_of_mem_drop he), documents_ne_nil.mp hdoc, Bool.true_or]

theorem instances_uniqueNew (errorsArray : Errors) (a : Text) :
    instances a (uniqueNew (dbEntities db payload) (entities payload, errorsArray)).1 =
      leftAfter db payload a := by
  unfold uniqueNew
  dsimp only
  rw [instances_dropRepeated, typeCheck_tree, removeExisting_tree, filter_true]
  change (if reaches _ (presentTree db payload) a then
    firstOnly (instances a (presentTree db payload)) else instances a (presentTree db payload)) = _
  rw [instances_presentTree]
  rfl

/-- Where all instances of what is stored are removed, the loop finds the new entities. -/
theorem presentTree_eq (hexisting : ∀ a, documents db payload a ≠ [] →
    (instances a (entities payload)).length ≤ (documents db payload a).length) :
    presentTree db payload = newEntities db payload := by
  have hmem : ∀ d ∈ (dbEntities db payload).getD [], documents db payload d.id ≠ [] :=
    fun d hd => ne_nil_of_mem (mem_filter.mpr ⟨hd, decide_eq_true rfl⟩)
  have hnew : ∀ e ∈ presentTree db payload, documents db payload e.id = [] := by
    intro e he
    by_contra hdoc
    have hleft : e ∈ left db payload e.id := by
      rw [← instances_presentTree]
      exact mem_instances.mpr ⟨he, rfl⟩
    unfold left at hleft
    rw [if_neg hdoc, drop_eq_nil_of_le (hexisting e.id hdoc)] at hleft
    cases hleft
  have hsame : (presentTree db payload).filter (fun e => (documents db payload e.id).isEmpty) =
      presentTree db payload :=
    filter_eq_self.mpr fun e he => isEmpty_iff.mpr (hnew e he)
  have htyped : ∀ e ∈ remaining ((dbEntities db payload).getD []) (entities payload),
      ((documents db payload e.id).isEmpty && hasType (dbEntities db payload) e) =
        ((documents db payload e.id).isEmpty && e.type.isSome) := by
    intro e _
    by_cases hdoc : documents db payload e.id = []
    · have hnone := mt documents_ne_nil.mpr (not_not.mpr hdoc)
      rw [hasType, Bool.eq_false_iff.mpr hnone, Bool.false_or]
    · rw [Bool.eq_false_iff.mpr fun h => hdoc (isEmpty_iff.mp h), Bool.false_and, Bool.false_and]
  rw [← hsame]
  unfold presentTree newEntities
  rw [filter_filter, filter_congr htyped]
  refine filter_remaining (fun d hd e hid => ?_) _
  rw [hid, Bool.eq_false_iff.mpr fun h => hmem d hd (isEmpty_iff.mp h), Bool.false_and]

theorem left_subset (h : e ∈ left db payload a) : e ∈ entities payload ∧ e.id = a := by
  unfold left typedInstances at h
  split_ifs at h
  · exact mem_instances.mp (mem_of_mem_filter h)
  · exact mem_instances.mp (mem_of_mem_drop h)

theorem mem_tree (h : prepare r db payload = some p) :
    e ∈ p.tree ↔ e ∈ leftAfter db payload e.id := by
  rw [← instances_uniqueNew, (prepare_spec h).1, mem_instances]
  exact (and_iff_left rfl).symm

theorem length_instances (h : prepare r db payload = some p) (a : Text) :
    (p.tree.map BatchEntity.id).count a = (leftAfter db payload a).length := by
  rw [← instances_uniqueNew, ← (prepare_spec h).1, count_ids]

theorem reported_of_documents (h : prepare r db payload = some p)
    (hdoc : documents db payload a ≠ []) : a ∈ errorIds p.errorsArray := by
  refine ((prepare_spec h).2.errors a).mpr (.inl ?_)
  refine errors_subset_dropRepeated (mem_typeCheck_errors.mpr (.inl ?_))
  refine mem_removeExisting_errors.mpr (.inr ?_)
  exact lookupInDb_isSome.mp (documents_ne_nil.mp hdoc)

theorem accepted_or_reported (h : prepare r db payload = some p) (ha : a ∈ payloadIds payload) :
    (∃ e ∈ entities payload, e.id = a) ∨ a ∈ errorIds p.errorsArray := by
  obtain ⟨node, hnode, hid⟩ := mem_filterMap.mp ha
  obtain ⟨item, hitem, hid⟩ := Option.bind_eq_some_iff.mp hid
  cases hcheck : entityIdAndTypeGet item with
  | ok e =>
    refine .inl ⟨e, mem_accepted.mpr ⟨node, hnode, item, hitem, hcheck⟩, ?_⟩
    exact Option.some.inj ((entityIdAndTypeGet_names.passed item e hcheck).1.symm.trans hid)
  | error refusal =>
    refine .inr (((prepare_spec h).2.errors a).mpr (.inl ?_))
    refine errors_subset_dropRepeated (mem_typeCheck_errors.mpr (.inl ?_))
    refine mem_removeExisting_errors.mpr (.inl (mem_itemErrors.mpr ?_))
    exact ⟨node, hnode, item, hitem, refusal, hcheck,
      (entityIdAndTypeGet_names.named item refusal a hcheck hid).symm⟩

theorem newOnly_of_noneSlips (h : prepare r db payload = some p)
    (hcond : NoneSlips db payload) : NewOnly db payload p where
  unknown el hel hstored := by
    obtain ⟨e, he, hid, -⟩ := (prepare_spec h).2.mem_ids.mp (mem_map_of_mem hel)
    have hleft := leftAfter_sublist.subset ((mem_tree h).mp he)
    have hdoc := hcond.found e (left_subset hleft).1 (hid.symm ▸ hstored)
    unfold left at hleft
    rw [if_neg hdoc, drop_eq_nil_of_le (hcond.existing e.id hdoc)] at hleft
    cases hleft
  once := by
    refine nodup_iff_count_le_one.mpr fun a => ?_
    refine ((prepare_spec h).2.ids_sublist.count_le a).trans ?_
    rw [length_instances h]
    by_cases hdoc : documents db payload a = []
    · have hgroup : left db payload a = typedInstances payload a := if_pos hdoc
      rcases hcond.repeated a hdoc with hone | ⟨hplain, hreaches⟩
      · exact leftAfter_sublist.length_le.trans (hgroup ▸ hone)
      · unfold leftAfter
        rw [presentTree_eq hcond.existing, if_pos hreaches]
        exact length_firstOnly_le (fun e he => (left_subset he).2) (hgroup ▸ hplain)
    · refine leftAfter_sublist.length_le.trans ?_
      unfold left
      rw [if_neg hdoc, drop_eq_nil_of_le (hcond.existing a hdoc)]
      exact Nat.zero_le _
  reported a ha hstored := by
    rcases accepted_or_reported h ha with ⟨e, he, rfl⟩ | hreported
    · exact reported_of_documents h (hcond.found e he hstored)
    · exact hreported
  firstKept a hnew e hfirst := by
    have hid : e.id = a := (mem_instances.mp (mem_of_mem_filter (mem_of_mem_head? hfirst))).2
    have hdoc : documents db payload a = [] := by
      by_contra hdoc
      exact hnew (stored_of_documents hdoc)
    have hgroup : left db payload a = typedInstances payload a := if_pos hdoc
    obtain ⟨group, hhead⟩ := head?_eq_some_iff.mp hfirst
    exact (mem_tree h).mpr (hid ▸ head_mem_leftAfter (hgroup.trans hhead))

theorem noneSlips_of_newOnly (h : prepare r db payload = some p)
    (hall : ∀ e ∈ entities payload, Converts r none e) (hnew : NewOnly db payload p) :
    NoneSlips db payload := by
  have htree : ∀ e ∈ p.tree, e ∈ entities payload := fun e he =>
    (left_subset (leftAfter_sublist.subset ((mem_tree h).mp he))).1
  -- whatever is left of an identifier is handed over
  have hstored : ∀ a, left db payload a ≠ [] → ¬ Stored db a := by
    intro a hleft
    cases hgroup : left db payload a with
    | nil => exact absurd hgroup hleft
    | cons e group =>
      obtain ⟨he, hid⟩ := left_subset (hgroup ▸ mem_cons_self : e ∈ left db payload a)
      have hmem : e ∈ p.tree := (mem_tree h).mpr (hid ▸ head_mem_leftAfter hgroup)
      obtain ⟨el, hel, heq⟩ := mem_map.mp ((prepare_spec h).2.mem_ids.mpr ⟨e, hmem, rfl, hall e he⟩)
      rw [← hid, ← heq]
      exact hnew.unknown el hel
  have hexisting : ∀ a, documents db payload a ≠ [] →
      (instances a (entities payload)).length ≤ (documents db payload a).length := by
    intro a hdoc
    by_contra hlt
    refine hstored a ?_ (stored_of_documents hdoc)
    unfold left
    rw [if_neg hdoc]
    intro hnil
    exact hlt (drop_eq_nil_iff.mp hnil)
  refine ⟨?_, hexisting, ?_⟩
  · intro e he hs hdoc
    refine hstored e.id ?_ hs
    unfold left typedInstances
    rw [if_pos hdoc]
    exact ne_nil_of_mem (mem_filter.mpr
      ⟨mem_instances.mpr ⟨he, rfl⟩, typed_of_converts (hall e he)⟩)
  · intro a hdoc
    have hgroup : left db payload a = typedInstances payload a := if_pos hdoc
    have hids := (prepare_spec h).2.ids_eq fun e he => hall e (htree e he)
    have hone := nodup_iff_count_le_one.mp hnew.once a
    rw [hids, length_instances h a] at hone
    unfold leftAfter at hone
    rw [presentTree_eq hexisting, hgroup] at hone
    by_contra hboth
    obtain ⟨htwo, hslips⟩ := not_or.mp hboth
    by_cases hreaches : reaches (fun _ => true) (newEntities db payload) a = true
    · rw [if_pos hreaches] at hone
      refine hslips ⟨fun e he => ?_, hreaches⟩
      by_contra hat
      have hlen := two_le_firstOnly (by omega) he (Bool.eq_true_of_not_eq_false hat)
      omega
    · rw [if_neg hreaches] at hone
      exact htwo hone

/-- Batch creation is right when no instance slips through, and when every entity can be
converted only then. -/
theorem newOnly_when_noneSlips (h : prepare r db payload = some p) :
    (NoneSlips db payload → NewOnly db payload p) ∧
      ((∀ e ∈ entities payload, Converts r none e) → NewOnly db payload p →
        NoneSlips db payload) :=
  ⟨newOnly_of_noneSlips h, noneSlips_of_newOnly h⟩

def handedIds (r : Request) (db : List (EntityDoc Unit)) (payload : List KjNode) :
    Option (List Text) :=
  (prepare r db payload).map fun p => p.elements.map Element.id

theorem create_two : ∃ p, prepare plainRequest [storedEntity "urn:E1"]
    [bareEntity "urn:E1", bareEntity "urn:E2"] = some p ∧
    NewOnly [storedEntity "urn:E1"] [bareEntity "urn:E1", bareEntity "urn:E2"] p := by
  obtain ⟨p, hp⟩ := Option.isSome_iff_exists.mp (by decide +kernel :
    (prepare plainRequest [storedEntity "urn:E1"]
      [bareEntity "urn:E1", bareEntity "urn:E2"]).isSome = true)
  refine ⟨p, hp, (newOnly_when_noneSlips hp).1 ⟨?_, ?_, ?_⟩⟩
  · intro e he hstored
    obtain ⟨doc, hdoc, hid⟩ := hstored
    obtain rfl := mem_singleton.mp hdoc
    rw [← hid]
    decide +kernel
  · intro a hdoc
    obtain ⟨doc, hmem, rfl⟩ := stored_of_documents hdoc
    obtain rfl := mem_singleton.mp hmem
    decide +kernel
  · intro a _
    have hids : ((entities [bareEntity "urn:E1", bareEntity "urn:E2"]).map
        BatchEntity.id).Nodup := by
      decide +kernel
    refine .inl ((length_filter_le _ _).trans ?_)
    rw [← count_ids]
    exact nodup_iff_count_le_one.mp hids a

theorem stored_instance_slips : ¬ ∀ (r : Request) (db : List (EntityDoc Unit))
    (payload : List KjNode) (p : Prepared), prepare r db payload = some p →
      NewOnly db payload p := by
  intro h
  obtain ⟨p, hp⟩ := Option.isSome_iff_exists.mp (by decide +kernel :
    (prepare plainRequest [storedEntity "urn:E1"]
      [bareEntity "urn:E1", bareEntity "urn:E1"]).isSome = true)
  have hids : handedIds plainRequest [storedEntity "urn:E1"]
      [bareEntity "urn:E1", bareEntity "urn:E1"] = some ["urn:E1".toList] := by
    decide +kernel
  unfold handedIds at hids
  rw [hp] at hids
  obtain ⟨el, hel, hid⟩ := mem_map.mp
    ((Option.some.inj hids).symm ▸ mem_cons_self : "urn:E1".toList ∈ p.elements.map _)
  exact (h _ _ _ p hp).unknown el hel ⟨_, mem_cons_self, hid.symm⟩

end PostBatchCreate
