import OrionLd.BatchEntities

/-! Instances of one entity in a batch. For a replacement the last one stays. For an update the
instances of the first repeated identifier are moved to an array and merged there: each copy gives
its first attribute to the first instance, and the loop over its attributes goes on from what
follows the copy, which has been unlinked. -/
namespace DuplicatedInstances

open KjTree OrionldContextItem KjTreeToContextAttribute BatchEntities List Option

def duplicatedEntity (entityId : Text) : BatchEntityError :=
  badRequest entityId "Duplicated Entity" (some "previous instances merged into one".toList)

def lastInstances : List BatchEntity → List BatchEntity
  | [] => []
  | e :: tree => if tree.any (repeats e) then lastInstances tree else e :: lastInstances tree

def replaceErrors : List BatchEntity → Errors → Errors
  | [], errorsArray => errorsArray
  | e :: tree, errorsArray =>
    replaceErrors tree
      (if tree.any (repeats e) then entityErrorPush errorsArray (duplicatedEntity e.id) true
      else errorsArray)

structure Split where
  kept : List BatchEntity
  duplicateArray : List BatchEntity
  errorsArray : Errors

/-- Without entityReplace: once the array exists only its identifiers count. -/
def splitDuplicated : List BatchEntity → List BatchEntity → Errors → Split
  | [], duplicateArray, errorsArray => ⟨[], duplicateArray, errorsArray⟩
  | e :: tree, duplicateArray, errorsArray =>
    if (if duplicateArray.isEmpty then tree.any (repeats e)
        else duplicateArray.any (repeats e)) then
      splitDuplicated tree (duplicateArray ++ [e])
        (entityErrorPush errorsArray (duplicatedEntity e.id) true)
    else
      let out := splitDuplicated tree duplicateArray errorsArray
      { out with kept := e :: out.kept }

def isObject : KjNode → Bool
  | .object _ => true
  | _ => false

/-- Its successor is read off the copy, and kjChildRemove has left the copy without one. -/
def firstAttribute (copy : BatchEntity) : Option (Text × KjNode) :=
  copy.members.find? fun m => isObject m.2

def kjEntityMergeReplacingAttributes (e copy : BatchEntity) : BatchEntity :=
  match firstAttribute copy with
  | none => e
  | some m => { e with members := (e.members.eraseP fun old => old.1 = m.1) ++ [m] }

/-- The names of the database are read through a null pointer when it lacks the entity. -/
def kjEntityMergeIgnoringExistingAttributes (r : Request)
    (dbEntities : Option (List DbEntity)) (e copy : BatchEntity) : Option BatchEntity :=
  match firstAttribute copy with
  | none => some e
  | some m => do
    let d ← lookupInDb dbEntities e.id
    if (orionldAttributeExpand r.env.toContexts m.1).1 ∈ d.attrNames ||
        (e.members.lookup m.1).isSome then some e
    else some { e with members := e.members ++ [m] }

def mergeCopy (r : Request) (dbEntities : Option (List DbEntity)) (attributeReplace : Bool)
    (e copy : BatchEntity) : Option BatchEntity :=
  if attributeReplace then some (kjEntityMergeReplacingAttributes e copy)
  else kjEntityMergeIgnoringExistingAttributes r dbEntities e copy

def mergeCopies (merge : BatchEntity → BatchEntity → Option BatchEntity) :
    BatchEntity → List BatchEntity → Option BatchEntity
  | e, [] => some e
  | e, copy :: copies => do
    let merged ← merge e copy
    mergeCopies merge merged copies

/-- The array holds the instances of one identifier, which become one entity at the end. -/
def mergeDuplicated (merge : BatchEntity → BatchEntity → Option BatchEntity)
    (tree : List BatchEntity) (errorsArray : Errors) : Option (List BatchEntity × Errors) :=
  let out := splitDuplicated tree [] errorsArray
  match out.duplicateArray with
  | [] => some (out.kept, out.errorsArray)
  | e :: copies => do
    let merged ← mergeCopies merge e copies
    some (out.kept ++ [merged], out.errorsArray)

variable {a : Text}

theorem repeats_id {e copy : BatchEntity} (h : repeats e copy = true) : e.id = copy.id := by
  unfold repeats at h
  exact of_decide_eq_true (Bool.and_eq_true_iff.mp h).2

theorem instances_lastInstances (tree : List BatchEntity) :
    instances a (lastInstances tree) = lastInstances (instances a tree) := by
  induction tree with
  | nil => rfl
  | cons e tree ih =>
    rw [lastInstances, instances_cons]
    by_cases hid : e.id = a
    · have hany : (instances a tree).any (repeats e) = tree.any (repeats e) := by
        rw [Bool.eq_iff_iff, List.any_eq_true, List.any_eq_true]
        constructor
        · rintro ⟨copy, hcopy, hrep⟩
          exact ⟨copy, (mem_instances.mp hcopy).1, hrep⟩
        · rintro ⟨copy, hcopy, hrep⟩
          exact ⟨copy, mem_instances.mpr ⟨hcopy, (repeats_id hrep).symm.trans hid⟩, hrep⟩
      rw [if_pos hid, lastInstances, hany]
      split_ifs
      · exact ih
      · rw [instances_cons, if_pos hid, ih]
    · rw [if_neg hid]
      split_ifs
      · exact ih
      · rw [instances_cons, if_neg hid, ih]

variable {tree : List BatchEntity}

theorem lastInstances_ne_nil (h : tree ≠ []) : lastInstances tree ≠ [] := by
  induction tree with
  | nil => exact absurd rfl h
  | cons e tree ih =>
    rw [lastInstances]
    split_ifs with hany
    · obtain ⟨copy, hcopy, -⟩ := any_eq_true.mp hany
      exact ih (ne_nil_of_mem hcopy)
    · exact cons_ne_nil _ _

theorem errors_subset_replaceErrors {errorsArray : Errors} (h : a ∈ errorIds errorsArray) :
    a ∈ errorIds (replaceErrors tree errorsArray) := by
  induction tree generalizing errorsArray with
  | nil => exact h
  | cons e tree ih =>
    apply ih
    split_ifs
    · exact mem_errorIds_push.mpr (.inl h)
    · exact h

theorem any_repeats_false {e : BatchEntity} (h : ((e :: tree).map BatchEntity.id).Nodup) :
    tree.any (repeats e) = false := by
  rw [List.any_eq_false]
  intro copy hcopy hrep
  rw [List.map_cons, List.nodup_cons] at h
  exact h.1 (repeats_id hrep ▸ mem_map_of_mem hcopy)

theorem lastInstances_distinct (h : (tree.map BatchEntity.id).Nodup) :
    lastInstances tree = tree := by
  induction tree with
  | nil => rfl
  | cons e tree ih =>
    rw [lastInstances, any_repeats_false h, if_neg Bool.false_ne_true]
    exact congrArg (List.cons e) (ih (nodup_cons.mp h).2)

theorem replaceErrors_distinct (h : (tree.map BatchEntity.id).Nodup) (errorsArray : Errors) :
    replaceErrors tree errorsArray = errorsArray := by
  induction tree with
  | nil => rfl
  | cons e tree ih =>
    rw [replaceErrors, any_repeats_false h, if_neg Bool.false_ne_true]
    exact ih (nodup_cons.mp h).2

theorem mergeDuplicated_distinct {merge : BatchEntity → BatchEntity → Option BatchEntity}
    (h : (tree.map BatchEntity.id).Nodup) (errorsArray : Errors) :
    mergeDuplicated merge tree errorsArray = some (tree, errorsArray) := by
  have hsplit : splitDuplicated tree [] errorsArray = ⟨tree, [], errorsArray⟩ := by
    induction tree with
    | nil => rfl
    | cons e tree ih =>
      rw [splitDuplicated, any_repeats_false h, ih (nodup_cons.mp h).2]
      rfl
  unfold mergeDuplicated
  rw [hsplit]

variable {errorsArray : Errors}

def inGroup (a : Text) (e : BatchEntity) : Bool := e.id = a && !e.atId

/-- The first identifier that is repeated, the only one whose instances are merged. -/
def mergedId : List BatchEntity → Option Text
  | [] => none
  | e :: tree => if tree.any (repeats e) then some e.id else mergedId tree

def unmerged (tree : List BatchEntity) : List BatchEntity :=
  match mergedId tree with
  | none => tree
  | some a => (tree.filter fun e => !inGroup a e) ++ (tree.filter (inGroup a)).head?.toList

def mergedCopies (tree : List BatchEntity) : List BatchEntity :=
  match mergedId tree with
  | none => []
  | some a => (tree.filter (inGroup a)).tail

variable {copy e : BatchEntity} {merge : BatchEntity → BatchEntity → Option BatchEntity}

theorem inGroup_iff : inGroup a e = true ↔ e.id = a ∧ e.atId = false := by
  unfold inGroup
  rw [Bool.and_eq_true_iff, decide_eq_true_iff, Bool.not_eq_true']

theorem repeats_iff : repeats e copy = true ↔ inGroup copy.id e = true ∧ copy.atId = false := by
  unfold repeats
  rw [inGroup_iff, Bool.and_eq_true_iff, Bool.and_eq_true_iff, decide_eq_true_iff,
    Bool.not_eq_true', Bool.not_eq_true']
  tauto

theorem mergedId_some (h : mergedId tree = some a) : ∃ e ∈ tree, inGroup a e = true := by
  induction tree with
  | nil => cases h
  | cons e tree ih =>
    rw [mergedId] at h
    split_ifs at h with hany
    · cases h
      obtain ⟨copy, -, hrep⟩ := any_eq_true.mp hany
      have hgroup := (repeats_iff.mp hrep).1
      exact ⟨e, mem_cons_self, repeats_id hrep ▸ hgroup⟩
    · obtain ⟨e', he', hgroup⟩ := ih h
      exact ⟨e', mem_cons_of_mem e he', hgroup⟩

theorem unmerged_subset (he : e ∈ unmerged tree) : e ∈ tree := by
  unfold unmerged at he
  split at he
  · exact he
  rcases mem_append.mp he with he | he
  · exact mem_of_mem_filter he
  · exact mem_of_mem_filter (mem_of_mem_head? (mem_toList.mp he))

theorem mergedCopies_subset (he : e ∈ mergedCopies tree) : e ∈ tree := by
  unfold mergedCopies at he
  split at he
  · cases he
  · exact mem_of_mem_filter (mem_of_mem_tail he)

theorem mergedId_of_gone (he : e ∈ tree) (hgone : e ∉ unmerged tree) :
    mergedId tree = some e.id := by
  unfold unmerged at hgone
  split at hgone
  · exact absurd he hgone
  rename_i a hid
  rw [mem_append, not_or, mem_filter, not_and, Bool.not_eq_true, Bool.not_eq_false'] at hgone
  rw [hid, (inGroup_iff.mp (hgone.1 he)).1]

theorem head_unmerged (h : (instances e.id tree).head? = some e) : e ∈ unmerged tree := by
  have he := (mem_instances.mp (mem_of_mem_head? h)).1
  unfold unmerged
  split
  · exact he
  rename_i a hid
  rw [mem_append]
  by_cases hgroup : inGroup a e = true
  · obtain ⟨rfl, hat⟩ := inGroup_iff.mp hgroup
    have hfilter : tree.filter (inGroup e.id) = (instances e.id tree).filter fun e => !e.atId := by
      unfold instances
      rw [List.filter_filter]
      exact List.filter_congr fun e' _ => Bool.and_comm _ _
    obtain ⟨group, hcons⟩ := List.head?_eq_some_iff.mp h
    refine .inr (mem_toList.mpr ?_)
    rw [hfilter, hcons, filter_cons, hat]
    rfl
  · exact .inl (mem_filter.mpr ⟨he, by rw [Bool.eq_false_iff.mpr hgroup]; rfl⟩)

structure KeepsIds (f : BatchEntity → BatchEntity) : Prop where
  id : ∀ e, (f e).id = e.id
  atId : ∀ e, (f e).atId = e.atId

variable {f : BatchEntity → BatchEntity}

theorem mergedId_map (hf : KeepsIds f) (tree : List BatchEntity) :
    mergedId (tree.map f) = mergedId tree := by
  induction tree with
  | nil => rfl
  | cons e tree ih =>
    have hany : (tree.map f).any (repeats (f e)) = tree.any (repeats e) := by
      rw [List.any_map]
      refine congrArg tree.any (funext fun copy => ?_)
      unfold repeats Function.comp
      dsimp only
      rw [hf.id, hf.id, hf.atId, hf.atId]
    rw [map_cons, mergedId, mergedId, hany, ih, hf.id]

theorem inGroup_map (hf : KeepsIds f) (e : BatchEntity) : inGroup a (f e) = inGroup a e := by
  unfold inGroup
  rw [hf.id, hf.atId]

theorem filter_group_map (hf : KeepsIds f) (tree : List BatchEntity) :
    (tree.map f).filter (inGroup a) = (tree.filter (inGroup a)).map f := by
  rw [List.filter_map]
  exact congrArg (List.map f) (List.filter_congr fun e _ => inGroup_map hf e)

theorem unmerged_map (hf : KeepsIds f) (tree : List BatchEntity) :
    unmerged (tree.map f) = (unmerged tree).map f := by
  unfold unmerged
  rw [mergedId_map hf]
  split
  · rfl
  have hothers : ∀ a, (tree.map f).filter (fun e => !inGroup a e) =
      (tree.filter fun e => !inGroup a e).map f := by
    intro a
    rw [List.filter_map]
    refine congrArg (List.map f) (List.filter_congr fun e _ => ?_)
    exact congrArg not (inGroup_map hf e)
  rw [hothers, filter_group_map hf, map_append, List.head?_map]
  congr 1
  cases (tree.filter (inGroup _)).head? <;> rfl

theorem mergedCopies_map (hf : KeepsIds f) (tree : List BatchEntity) :
    mergedCopies (tree.map f) = (mergedCopies tree).map f := by
  unfold mergedCopies
  rw [mergedId_map hf]
  split
  · rfl
  · rw [filter_group_map hf, map_tail]

theorem errors_subset_split (duplicateArray : List BatchEntity) {b : Text}
    (h : b ∈ errorIds errorsArray) :
    b ∈ errorIds (splitDuplicated tree duplicateArray errorsArray).errorsArray := by
  induction tree generalizing duplicateArray errorsArray with
  | nil => exact h
  | cons e tree ih =>
    unfold splitDuplicated
    have hpushed : b ∈ errorIds (entityErrorPush errorsArray (duplicatedEntity e.id) true) :=
      mem_errorIds_push.mpr (.inl h)
    split_ifs
    · exact ih _ hpushed
    · exact ih _ h
    · exact ih _ hpushed
    · exact ih _ h

theorem split_group (tree : List BatchEntity) (errorsArray : Errors)
    {duplicateArray : List BatchEntity} (hne : duplicateArray ≠ [])
    (hgroup : ∀ e ∈ duplicateArray, inGroup a e = true) :
    (splitDuplicated tree duplicateArray errorsArray).kept =
        tree.filter (fun e => !inGroup a e) ∧
      (splitDuplicated tree duplicateArray errorsArray).duplicateArray =
        duplicateArray ++ tree.filter (inGroup a) := by
  induction tree generalizing errorsArray duplicateArray with
  | nil => exact ⟨rfl, (append_nil _).symm⟩
  | cons e tree ih =>
    have hany : duplicateArray.any (repeats e) = inGroup a e := by
      obtain ⟨first, hfirst⟩ := List.exists_mem_of_ne_nil _ hne
      rw [Bool.eq_iff_iff, List.any_eq_true]
      constructor
      · rintro ⟨copy, hcopy, hrep⟩
        exact (inGroup_iff.mp (hgroup copy hcopy)).1 ▸ (repeats_iff.mp hrep).1
      · intro he
        obtain ⟨hid, hat⟩ := inGroup_iff.mp (hgroup first hfirst)
        exact ⟨first, hfirst, repeats_iff.mpr ⟨hid.symm ▸ he, hat⟩⟩
    have hempty : duplicateArray.isEmpty = false := isEmpty_eq_false_iff.mpr hne
    rw [splitDuplicated, hempty, if_neg Bool.false_ne_true, hany, filter_cons, filter_cons]
    by_cases he : inGroup a e = true
    · have hgroup' : ∀ e' ∈ duplicateArray ++ [e], inGroup a e' = true := by
        intro e' he'
        rcases mem_append.mp he' with he' | he'
        · exact hgroup e' he'
        · exact mem_singleton.mp he' ▸ he
      obtain ⟨hkept, harray⟩ := ih (entityErrorPush errorsArray (duplicatedEntity e.id) true)
        (append_ne_nil_of_left_ne_nil hne [e]) hgroup'
      rw [if_pos he, he]
      refine ⟨hkept, harray.trans ?_⟩
      rw [append_assoc]
      rfl
    · obtain ⟨hkept, harray⟩ := ih errorsArray hne hgroup
      rw [if_neg he, Bool.eq_false_iff.mpr he]
      exact ⟨congrArg (List.cons e) hkept, harray⟩

/-- How the instances are split, by the merged identifier. -/
structure SplitAt (tree : List BatchEntity) (out : Split) (a : Text) : Prop where
  kept : out.kept = tree.filter fun e => !inGroup a e
  array : out.duplicateArray = tree.filter (inGroup a)
  reported : a ∈ errorIds out.errorsArray

theorem split_none (h : mergedId tree = none) :
    splitDuplicated tree [] errorsArray = ⟨tree, [], errorsArray⟩ := by
  induction tree with
  | nil => rfl
  | cons e tree ih =>
    rw [mergedId] at h
    split_ifs at h with hany
    rw [splitDuplicated, ih h]
    exact if_neg hany

theorem split_some (errorsArray : Errors) (h : mergedId tree = some a) :
    SplitAt tree (splitDuplicated tree [] errorsArray) a := by
  induction tree with
  | nil => cases h
  | cons e tree ih =>
    rw [mergedId] at h
    rw [splitDuplicated, isEmpty_nil, if_pos rfl]
    split_ifs at h ⊢ with hany
    · cases h
      obtain ⟨copy, -, hrep⟩ := any_eq_true.mp hany
      have he : inGroup e.id e = true := by
        have hgroup := (repeats_iff.mp hrep).1
        rwa [← repeats_id hrep] at hgroup
      have hgroup : ∀ e' ∈ [e], inGroup e.id e' = true := fun e' he' => mem_singleton.mp he' ▸ he
      obtain ⟨hkept, harray⟩ := split_group tree
        (entityErrorPush errorsArray (duplicatedEntity e.id) true) (cons_ne_nil e []) hgroup
      refine ⟨hkept.trans ?_, harray.trans ?_,
        errors_subset_split _ (mem_errorIds_push.mpr (.inr rfl))⟩
      · rw [filter_cons, he]
        rfl
      · rw [filter_cons, he]
        rfl
    · have hrest := ih h
      have he : inGroup a e = false := by
        obtain ⟨copy, hcopy, hgroup⟩ := mergedId_some h
        obtain ⟨hid, hat⟩ := inGroup_iff.mp hgroup
        refine Bool.eq_false_iff.mpr fun he => hany (any_eq_true.mpr ⟨copy, hcopy, ?_⟩)
        exact repeats_iff.mpr ⟨hid.symm ▸ he, hat⟩
      refine ⟨?_, ?_, hrest.reported⟩
      · rw [filter_cons, he]
        exact congrArg (List.cons e) hrest.kept
      · rw [filter_cons, he]
        exact hrest.array

theorem filter_eraseP {α : Type} {p q : α → Bool} (l : List α)
    (h : ∀ x, p x = true → q x = false) : (l.eraseP p).filter q = l.filter q := by
  induction l with
  | nil => rfl
  | cons x l ih =>
    rw [eraseP_cons]
    cases hx : p x with
    | true =>
      rw [cond_true, filter_cons, h x hx]
      rfl
    | false => rw [cond_false, filter_cons, filter_cons, ih]

def contextMembers (e : BatchEntity) : Members :=
  e.members.filter fun m => m.1 = "@context".toList

structure Alike (e e' : BatchEntity) : Prop where
  id : e'.id = e.id
  type : e'.type = e.type
  contexts : contextMembers e' = contextMembers e

theorem Alike.refl (e : BatchEntity) : Alike e e := ⟨rfl, rfl, rfl⟩

theorem Alike.trans {e' e'' : BatchEntity} (h : Alike e e') (h' : Alike e' e'') : Alike e e'' :=
  ⟨h'.id.trans h.id, h'.type.trans h.type, h'.contexts.trans h.contexts⟩

/-- The context of the copy is what the merge would move, as an attribute. -/
def BringsContext (copy : BatchEntity) : Prop :=
  ∃ m, firstAttribute copy = some m ∧ m.1 = "@context".toList

def ContextStays (attributeReplace : Bool) (e copy : BatchEntity) : Prop :=
  BringsContext copy → attributeReplace = false ∧ contextMembers e ≠ []

variable {r : Request} {dbEntities : Option (List DbEntity)} {attributeReplace : Bool}

theorem mergeReplacing_alike (hcopy : ¬ BringsContext copy) :
    Alike e (kjEntityMergeReplacingAttributes e copy) := by
  unfold kjEntityMergeReplacingAttributes
  split
  · exact Alike.refl e
  rename_i m hfirst
  have hname : m.1 ≠ "@context".toList := fun hname => hcopy ⟨m, hfirst, hname⟩
  refine ⟨rfl, rfl, ?_⟩
  unfold contextMembers
  rw [filter_append, filter_singleton, decide_eq_false hname, cond_false, append_nil]
  refine filter_eraseP _ fun old hold => decide_eq_false fun hcontext => hname ?_
  rw [← of_decide_eq_true hold, hcontext]

theorem lookup_isSome (h : contextMembers e ≠ []) :
    (e.members.lookup "@context".toList).isSome = true := by
  obtain ⟨m, hm⟩ := exists_mem_of_ne_nil _ h
  obtain ⟨hm, hname⟩ := mem_filter.mp hm
  rw [isSome_iff_ne_none, ne_eq, lookup_eq_none_iff]
  intro hnone
  exact absurd (of_decide_eq_true hname).symm (by simpa using hnone m hm)

theorem mergeIgnoring_alike {e' : BatchEntity} (hcopy : BringsContext copy → contextMembers e ≠ [])
    (h : kjEntityMergeIgnoringExistingAttributes r dbEntities e copy = some e') : Alike e e' := by
  unfold kjEntityMergeIgnoringExistingAttributes at h
  split at h
  · cases h
    exact Alike.refl e
  rename_i m hfirst
  obtain ⟨d, -, h⟩ := bind_eq_some_iff.mp h
  split_ifs at h with hold
  · cases h
    exact Alike.refl e
  · cases h
    have hname : m.1 ≠ "@context".toList := by
      intro hname
      have hsome := lookup_isSome (hcopy ⟨m, hfirst, hname⟩)
      rw [hname, hsome, Bool.or_true] at hold
      exact hold rfl
    refine ⟨rfl, rfl, ?_⟩
    unfold contextMembers
    rw [filter_append, filter_singleton, decide_eq_false hname, cond_false, append_nil]

theorem mergeCopy_alike {e' : BatchEntity} (hcopy : ContextStays attributeReplace e copy)
    (h : mergeCopy r dbEntities attributeReplace e copy = some e') : Alike e e' := by
  unfold mergeCopy at h
  split_ifs at h with hreplace
  · cases h
    refine mergeReplacing_alike fun hbrings => ?_
    rw [(hcopy hbrings).1] at hreplace
    cases hreplace
  · exact mergeIgnoring_alike (fun hbrings => (hcopy hbrings).2) h

theorem mergeCopies_alike {merged : BatchEntity} {copies : List BatchEntity}
    (hcopies : ∀ copy ∈ copies, ContextStays attributeReplace e copy)
    (h : mergeCopies (mergeCopy r dbEntities attributeReplace) e copies = some merged) :
    Alike e merged := by
  induction copies generalizing e with
  | nil =>
    obtain rfl := Option.some.inj h
    exact Alike.refl e
  | cons copy copies ih =>
    obtain ⟨e', he', h⟩ := Option.bind_eq_some_iff.mp h
    have halike := mergeCopy_alike (hcopies copy mem_cons_self) he'
    refine halike.trans (ih (fun c hc hbrings => ?_) h)
    rw [halike.contexts]
    exact hcopies c (mem_cons_of_mem copy hc) hbrings

/-- What becomes of the tree when no copy brings a context. -/
structure Merged (tree : List BatchEntity) (errorsArray : Errors)
    (out : List BatchEntity × Errors) : Prop where
  from_tree : ∀ e' ∈ out.1, ∃ e ∈ unmerged tree, Alike e e'
  to_tree : ∀ e ∈ unmerged tree, ∃ e' ∈ out.1, Alike e e'
  errors : ∀ b ∈ errorIds errorsArray, b ∈ errorIds out.2
  reported : ∀ b, mergedId tree = some b → b ∈ errorIds out.2

theorem mergeDuplicated_spec {out : List BatchEntity × Errors}
    (hcopies : ∀ e ∈ tree, ∀ copy ∈ mergedCopies tree, e.id = copy.id → copy.atId = false →
      ContextStays attributeReplace e copy)
    (h : mergeDuplicated (mergeCopy r dbEntities attributeReplace) tree errorsArray = some out) :
    Merged tree errorsArray out := by
  unfold mergeDuplicated at h
  unfold mergedCopies at hcopies
  cases hid : mergedId tree with
  | none =>
    rw [split_none hid] at h
    cases h
    have hsame : unmerged tree = tree := by
      unfold unmerged
      rw [hid]
    refine ⟨fun e he => ⟨e, hsame.symm ▸ he, Alike.refl e⟩,
      fun e he => ⟨e, hsame ▸ he, Alike.refl e⟩, fun b hb => hb, fun b hb => ?_⟩
    rw [hid] at hb
    cases hb
  | some a =>
    have hsplit := split_some errorsArray hid
    have hleft : unmerged tree =
        (tree.filter fun e => !inGroup a e) ++ (tree.filter (inGroup a)).head?.toList := by
      unfold unmerged
      rw [hid]
    have hgroup : tree.filter (inGroup a) ≠ [] := by
      obtain ⟨e, he, heq⟩ := mergedId_some hid
      exact ne_nil_of_mem (mem_filter.mpr ⟨he, heq⟩)
    obtain ⟨e, copies, hcons⟩ := exists_cons_of_ne_nil hgroup
    rw [hid] at hcopies
    dsimp only at h hcopies
    rw [hsplit.array, hcons] at h
    rw [hcons, tail_cons] at hcopies
    have hmem : ∀ x ∈ e :: copies, x ∈ tree ∧ x.id = a ∧ x.atId = false := fun x hx =>
      (mem_filter.mp (hcons ▸ hx)).imp_right inGroup_iff.mp
    obtain ⟨he, hida, -⟩ := hmem e mem_cons_self
    obtain ⟨merged, hmerged, h⟩ := bind_eq_some_iff.mp h
    cases h
    have hstays : ∀ copy ∈ copies, ContextStays attributeReplace e copy := by
      intro copy hcopy
      obtain ⟨-, hid', hat⟩ := hmem copy (mem_cons_of_mem e hcopy)
      exact hcopies e he copy hcopy (hida.trans hid'.symm) hat
    have halike := mergeCopies_alike hstays hmerged
    rw [hcons, List.head?_cons, toList_some] at hleft
    refine ⟨fun e' he' => ?_, fun e' he' => ?_, fun b hb => errors_subset_split [] hb,
      fun b hb => ?_⟩
    · rw [hleft]
      rcases mem_append.mp he' with he' | he'
      · exact ⟨e', mem_append_left _ (hsplit.kept ▸ he'), Alike.refl e'⟩
      · obtain rfl := mem_singleton.mp he'
        exact ⟨e, mem_append_right _ mem_cons_self, halike⟩
    · rw [hleft] at he'
      rcases mem_append.mp he' with he' | he'
      · exact ⟨e', mem_append_left _ (hsplit.kept ▸ he'), Alike.refl e'⟩
      · obtain rfl := mem_singleton.mp he'
        exact ⟨merged, mem_append_right _ mem_cons_self, halike⟩
    · rw [hid] at hb
      cases hb
      exact hsplit.reported

end DuplicatedInstances
