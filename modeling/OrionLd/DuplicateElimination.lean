import OrionLd.DuplicatedInstances

/-! The whole of duplicatedInstances: what it leaves in the tree and what it records for the
temporal database, and when that is one instance of each identifier. -/
namespace DuplicateElimination

open KjTree BatchEntities DuplicatedInstances List Option

/-- The instances that a replacement takes out of the tree. -/
def earlierInstances : List BatchEntity → List BatchEntity
  | [] => []
  | e :: tree =>
    if tree.any (repeats e) then e :: earlierInstances tree else earlierInstances tree

/-- The first entity takes the copies that follow it. Each round removes an entity. -/
def mergeArray (merge : BatchEntity → BatchEntity → Option BatchEntity) :
    ℕ → List BatchEntity → Option (List BatchEntity)
  | 0, _ => some []
  | _, [] => some []
  | n + 1, e :: array => do
    let merged ← mergeCopies merge e (array.filter fun copy => copy.id = e.id)
    let others ← mergeArray merge n (array.filter fun copy => copy.id ≠ e.id)
    some (merged :: others)

structure Result where
  tree : List BatchEntity
  duplicateArray : List BatchEntity
  errorsArray : Errors

/-- With troe a clone of the array is merged, otherwise the array itself, which is then
empty. -/
def duplicatedInstances (troe : Bool) (r : Request) (dbEntities : Option (List DbEntity))
    (entityReplace attributeReplace : Bool) (tree : List BatchEntity) (errorsArray : Errors) :
    Option Result :=
  if entityReplace then
    some ⟨lastInstances tree, earlierInstances tree, replaceErrors tree errorsArray⟩
  else do
    let out := splitDuplicated tree [] errorsArray
    let merged ← mergeArray (mergeCopy r dbEntities attributeReplace)
      out.duplicateArray.length out.duplicateArray
    some ⟨out.kept ++ merged, if troe then out.duplicateArray else [], out.errorsArray⟩

variable {tree : List BatchEntity} {a : Text}
variable {merge : BatchEntity → BatchEntity → Option BatchEntity}
variable {e : BatchEntity}

theorem mergeArray_group {copies : List BatchEntity} (h : ∀ copy ∈ copies, copy.id = e.id) :
    mergeArray merge (e :: copies).length (e :: copies) =
      (mergeCopies merge e copies).map fun merged => [merged] := by
  have hsame : (copies.filter fun copy => copy.id = e.id) = copies :=
    filter_eq_self.mpr fun copy hcopy => decide_eq_true (h copy hcopy)
  have hothers : (copies.filter fun copy => copy.id ≠ e.id) = [] :=
    filter_eq_nil_iff.mpr fun copy hcopy hne => of_decide_eq_true hne (h copy hcopy)
  have hnone : mergeArray merge copies.length [] = some [] := by
    cases copies.length <;> rfl
  rw [length_cons, mergeArray, hsame, hothers, hnone]
  cases mergeCopies merge e copies <;> rfl

theorem group_cons (h : mergedId tree = some a) :
    ∃ e copies, tree.filter (inGroup a) = e :: copies ∧ e.id = a ∧
      mergedCopies tree = copies ∧ ∀ copy ∈ copies, copy.id = a := by
  obtain ⟨e', he', hgroup⟩ := mergedId_some h
  have hne : tree.filter (inGroup a) ≠ [] := ne_nil_of_mem (mem_filter.mpr ⟨he', hgroup⟩)
  obtain ⟨e, copies, hcons⟩ := exists_cons_of_ne_nil hne
  have hid : ∀ e' ∈ e :: copies, e'.id = a := by
    intro e' he'
    rw [← hcons] at he'
    exact (inGroup_iff.mp (mem_filter.mp he').2).1
  refine ⟨e, copies, hcons, hid e mem_cons_self, ?_,
    fun copy hcopy => hid copy (mem_cons_of_mem e hcopy)⟩
  unfold mergedCopies
  rw [h]
  exact congrArg List.tail hcons

/-- Every instance is left in the tree or recorded, in order, and recorded for a repeated
identifier. -/
structure Recorded (tree left duplicateArray : List BatchEntity) : Prop where
  all : (left ++ duplicateArray).Perm tree
  left_order : left.Sublist tree
  array_order : duplicateArray.Sublist tree
  repeated : ∀ e ∈ duplicateArray, 2 ≤ (instances e.id tree).length

theorem last_earlier_perm (tree : List BatchEntity) :
    (lastInstances tree ++ earlierInstances tree).Perm tree := by
  induction tree with
  | nil => exact List.Perm.refl _
  | cons e tree ih =>
    rw [lastInstances, earlierInstances]
    split_ifs
    · exact perm_middle.trans (ih.cons e)
    · exact ih.cons e

theorem lastInstances_sublist (tree : List BatchEntity) : (lastInstances tree).Sublist tree := by
  induction tree with
  | nil => exact List.Sublist.refl _
  | cons e tree ih =>
    rw [lastInstances]
    split_ifs
    · exact ih.cons e
    · exact ih.cons_cons e

theorem earlierInstances_sublist (tree : List BatchEntity) :
    (earlierInstances tree).Sublist tree := by
  induction tree with
  | nil => exact List.Sublist.refl _
  | cons e tree ih =>
    rw [earlierInstances]
    split_ifs
    · exact ih.cons_cons e
    · exact ih.cons e

theorem instances_length_cons (a : Text) (e : BatchEntity) (tree : List BatchEntity) :
    (instances a tree).length ≤ (instances a (e :: tree)).length := by
  rw [instances_cons]
  split_ifs
  · exact Nat.le_succ _
  · exact Nat.le_refl _

theorem two_of_any (h : tree.any (repeats e) = true) : 2 ≤ (instances e.id (e :: tree)).length := by
  obtain ⟨copy, hcopy, hrep⟩ := any_eq_true.mp h
  have hmem : copy ∈ instances e.id tree := mem_instances.mpr ⟨hcopy, (repeats_id hrep).symm⟩
  rw [instances_cons, if_pos rfl, length_cons]
  exact Nat.succ_le_succ (length_pos_of_mem hmem)

theorem earlierInstances_repeated (tree : List BatchEntity) :
    ∀ e ∈ earlierInstances tree, 2 ≤ (instances e.id tree).length := by
  induction tree with
  | nil =>
    intro e he
    cases he
  | cons e tree ih =>
    intro e' he'
    rw [earlierInstances] at he'
    split_ifs at he' with hany
    · rcases mem_cons.mp he' with rfl | he'
      · exact two_of_any hany
      · exact (ih e' he').trans (instances_length_cons e'.id e tree)
    · exact (ih e' he').trans (instances_length_cons e'.id e tree)

theorem replace_recorded (tree : List BatchEntity) :
    Recorded tree (lastInstances tree) (earlierInstances tree) :=
  ⟨last_earlier_perm tree, lastInstances_sublist tree, earlierInstances_sublist tree,
    earlierInstances_repeated tree⟩

def hidden (a : Text) (tree : List BatchEntity) : List BatchEntity :=
  tree.filter fun e => e.id = a && e.atId

theorem hidden_cons (a : Text) (e : BatchEntity) (tree : List BatchEntity) :
    hidden a (e :: tree) =
      if e.id = a ∧ e.atId = true then e :: hidden a tree else hidden a tree := by
  unfold hidden
  rw [filter_cons]
  simp

theorem inGroup_cons (a : Text) (e : BatchEntity) (tree : List BatchEntity) :
    (e :: tree).filter (inGroup a) =
      if e.id = a ∧ e.atId = false then e :: tree.filter (inGroup a)
      else tree.filter (inGroup a) := by
  rw [filter_cons]
  simp only [inGroup_iff]

theorem length_instances (a : Text) (tree : List BatchEntity) :
    (instances a tree).length = (tree.filter (inGroup a)).length + (hidden a tree).length := by
  induction tree with
  | nil => rfl
  | cons e tree ih =>
    rw [instances_cons, inGroup_cons, hidden_cons]
    by_cases hid : e.id = a
    · cases hat : e.atId with
      | false =>
        rw [if_pos hid, if_pos ⟨hid, rfl⟩, if_neg (fun h => Bool.false_ne_true h.2)]
        rw [length_cons, length_cons, ih]
        omega
      | true =>
        rw [if_pos hid, if_neg (fun h => Bool.false_ne_true h.2.symm), if_pos ⟨hid, rfl⟩]
        rw [length_cons, length_cons, ih]
        omega
    · rw [if_neg hid, if_neg (fun h => hid h.1), if_neg (fun h => hid h.1), ih]

theorem any_repeats_iff (hat : e.atId = false) :
    tree.any (repeats e) = true ↔ tree.filter (inGroup e.id) ≠ [] := by
  rw [List.any_eq_true]
  constructor
  · rintro ⟨copy, hcopy, hrep⟩
    have hgroup : inGroup e.id copy = true :=
      inGroup_iff.mpr ⟨(repeats_id hrep).symm, (repeats_iff.mp hrep).2⟩
    exact ne_nil_of_mem (mem_filter.mpr ⟨hcopy, hgroup⟩)
  · intro hne
    obtain ⟨copy, hcopy⟩ := exists_mem_of_ne_nil _ hne
    obtain ⟨hmem, hgroup⟩ := mem_filter.mp hcopy
    obtain ⟨hid, hcat⟩ := inGroup_iff.mp hgroup
    exact ⟨copy, hmem, repeats_iff.mpr ⟨inGroup_iff.mpr ⟨hid.symm, hat⟩, hcat⟩⟩

theorem any_repeats_hidden (hat : e.atId = true) : tree.any (repeats e) = false := by
  rw [List.any_eq_false]
  intro copy _ hrep
  have hseen := (inGroup_iff.mp (repeats_iff.mp hrep).1).2
  rw [hat] at hseen
  cases hseen

theorem length_lastInstances (a : Text) (tree : List BatchEntity) :
    (instances a (lastInstances tree)).length =
      min 1 (tree.filter (inGroup a)).length + (hidden a tree).length := by
  induction tree with
  | nil => rfl
  | cons e tree ih =>
    rw [lastInstances, inGroup_cons, hidden_cons]
    cases hat : e.atId with
    | true =>
      rw [any_repeats_hidden hat, if_neg Bool.false_ne_true,
        if_neg (fun h => Bool.false_ne_true h.2.symm), instances_cons]
      by_cases hid : e.id = a
      · rw [if_pos hid, if_pos ⟨hid, rfl⟩, length_cons, length_cons, ih]
        omega
      · rw [if_neg hid, if_neg (fun h => hid h.1), ih]
    | false =>
      rw [if_neg (fun h : e.id = a ∧ false = true => Bool.false_ne_true h.2)]
      by_cases hid : e.id = a
      · subst hid
        have hseen : e.id = e.id ∧ false = false := ⟨rfl, rfl⟩
        rw [if_pos hseen, length_cons]
        split_ifs with hany
        · have hpos := length_pos_iff.mpr ((any_repeats_iff hat).mp hany)
          omega
        · have hnil : tree.filter (inGroup e.id) = [] := by
            by_contra hne
            exact hany ((any_repeats_iff hat).mpr hne)
          rw [instances_cons, if_pos rfl, length_cons, ih, hnil, length_nil]
          omega
      · have hother : ¬(e.id = a ∧ false = false) := fun h => hid h.1
        split_ifs
        · exact ih
        · rw [instances_cons, if_neg hid, ih]

theorem seen_of_none (h : mergedId tree = none) (a : Text) :
    (tree.filter (inGroup a)).length ≤ 1 := by
  induction tree with
  | nil => exact Nat.zero_le 1
  | cons e tree ih =>
    rw [mergedId] at h
    split_ifs at h with hany
    rw [inGroup_cons]
    split_ifs with he
    · have hnil : tree.filter (inGroup a) = [] := by
        by_contra hne
        exact hany ((any_repeats_iff he.2).mpr (he.1.symm ▸ hne))
      rw [hnil]
      exact Nat.le_refl 1
    · exact ih h

theorem seen_of_some (h : mergedId tree = some a) : 2 ≤ (tree.filter (inGroup a)).length := by
  induction tree with
  | nil => cases h
  | cons e tree ih =>
    rw [mergedId] at h
    rw [inGroup_cons]
    split_ifs at h with hany
    · cases h
      have hat : e.atId = false := by
        cases hat : e.atId with
        | false => rfl
        | true =>
          rw [any_repeats_hidden hat] at hany
          cases hany
      rw [if_pos ⟨rfl, hat⟩, length_cons]
      exact Nat.succ_le_succ (length_pos_iff.mpr ((any_repeats_iff hat).mp hany))
    · have hrest := ih h
      split_ifs
      · exact hrest.trans (Nat.le_succ _)
      · exact hrest

theorem instances_kept (a b : Text) (tree : List BatchEntity) :
    instances b (tree.filter fun e => !inGroup a e) =
      if b = a then hidden a tree else instances b tree := by
  unfold instances hidden
  rw [List.filter_filter]
  split_ifs with hba
  · subst hba
    refine filter_congr fun e _ => ?_
    unfold inGroup
    cases decide (e.id = b) <;> cases e.atId <;> rfl
  · refine filter_congr fun e _ => ?_
    unfold inGroup
    by_cases hid : e.id = b
    · rw [decide_eq_true hid, decide_eq_false (fun h => hba (hid.symm.trans h))]
      rfl
    · rw [decide_eq_false hid]
      rfl

variable {r : Request} {dbEntities : Option (List DbEntity)} {attributeReplace : Bool}
variable {copy merged : BatchEntity} {copies : List BatchEntity}

theorem mergeCopy_id (h : mergeCopy r dbEntities attributeReplace e copy = some merged) :
    merged.id = e.id := by
  unfold mergeCopy at h
  split_ifs at h
  · cases h
    unfold kjEntityMergeReplacingAttributes
    split <;> rfl
  · unfold kjEntityMergeIgnoringExistingAttributes at h
    split at h
    · exact congrArg BatchEntity.id (some.inj h).symm
    obtain ⟨d, -, h⟩ := bind_eq_some_iff.mp h
    split_ifs at h
    · exact congrArg BatchEntity.id (some.inj h).symm
    · cases h
      rfl

def CanMerge (dbEntities : Option (List DbEntity)) (attributeReplace : Bool) (a : Text)
    (copy : BatchEntity) : Prop :=
  attributeReplace = true ∨ firstAttribute copy = none ∨ (lookupInDb dbEntities a).isSome

theorem mergeCopy_isSome_iff :
    (mergeCopy r dbEntities attributeReplace e copy).isSome = true ↔
      CanMerge dbEntities attributeReplace e.id copy := by
  unfold mergeCopy CanMerge kjEntityMergeIgnoringExistingAttributes
  cases attributeReplace with
  | true => simp
  | false =>
    cases firstAttribute copy with
    | none => simp
    | some m =>
      cases lookupInDb dbEntities e.id with
      | none => simp
      | some d =>
        dsimp only [bind_eq_bind, bind_some]
        split_ifs <;> simp

theorem mergeCopies_id
    (h : mergeCopies (mergeCopy r dbEntities attributeReplace) e copies = some merged) :
    merged.id = e.id := by
  induction copies generalizing e with
  | nil => exact congrArg BatchEntity.id (some.inj h).symm
  | cons copy copies ih =>
    obtain ⟨e', he', h⟩ := bind_eq_some_iff.mp h
    exact (ih h).trans (mergeCopy_id he')

theorem mergeCopies_isSome_iff :
    (mergeCopies (mergeCopy r dbEntities attributeReplace) e copies).isSome = true ↔
      ∀ copy ∈ copies, CanMerge dbEntities attributeReplace e.id copy := by
  induction copies generalizing e with
  | nil => simp [mergeCopies]
  | cons copy copies ih =>
    rw [forall_mem_cons]
    cases hm : mergeCopy r dbEntities attributeReplace e copy with
    | none =>
      have hcannot : ¬ CanMerge dbEntities attributeReplace e.id copy := by
        rw [← mergeCopy_isSome_iff (r := r), hm]
        exact Bool.false_ne_true
      simp [mergeCopies, hm, hcannot]
    | some e' =>
      have hcan : CanMerge dbEntities attributeReplace e.id copy := by
        rw [← mergeCopy_isSome_iff (r := r), hm]
        rfl
      have hrest : mergeCopies (mergeCopy r dbEntities attributeReplace) e (copy :: copies) =
          mergeCopies (mergeCopy r dbEntities attributeReplace) e' copies := by
        rw [mergeCopies, hm]
        rfl
      rw [hrest, ih, mergeCopy_id hm]
      exact (and_iff_right hcan).symm

theorem update_recorded (h : mergedId tree = some a) :
    Recorded tree (tree.filter fun e => !inGroup a e) (tree.filter (inGroup a)) where
  all := List.perm_append_comm.trans (List.filter_append_perm (inGroup a) tree)
  left_order := filter_sublist
  array_order := filter_sublist
  repeated e he := by
    have hid := (inGroup_iff.mp (mem_filter.mp he).2).1
    rw [hid, length_instances]
    exact (seen_of_some h).trans (Nat.le_add_right _ _)

def OneOfEach (tree out : List BatchEntity) : Prop :=
  ∀ a ∈ tree.map BatchEntity.id, (instances a out).length = 1

/-- What is under "@id" is not repeated. -/
def Shown (tree : List BatchEntity) : Prop :=
  ∀ a, hidden a tree ≠ [] → (instances a tree).length = 1

def Single (tree : List BatchEntity) : Prop :=
  ∀ a b, 2 ≤ (instances a tree).length → 2 ≤ (instances b tree).length → a = b

theorem mem_ids_iff :
    a ∈ tree.map BatchEntity.id ↔
      0 < (tree.filter (inGroup a)).length + (hidden a tree).length := by
  rw [← length_instances, length_pos_iff, ne_eq, instances_eq_nil, not_not]

theorem hidden_ne_nil_iff : hidden a tree ≠ [] ↔ 0 < (hidden a tree).length :=
  length_pos_iff.symm

theorem oneOfEach_last_iff : OneOfEach tree (lastInstances tree) ↔ Shown tree := by
  refine forall_congr' fun a => ?_
  rw [mem_ids_iff, hidden_ne_nil_iff, length_lastInstances, length_instances]
  omega

theorem oneOfEach_unmerged_iff (h : mergedId tree = none) :
    OneOfEach tree tree ↔ Shown tree ∧ Single tree := by
  have hshown : OneOfEach tree tree ↔ Shown tree := by
    refine forall_congr' fun a => ?_
    have hseen := seen_of_none h a
    rw [mem_ids_iff, hidden_ne_nil_iff, length_instances]
    omega
  refine hshown.trans ⟨fun hall => ⟨hall, fun a b ha _ => ?_⟩, fun hall => hall.1⟩
  have hseen := seen_of_none h a
  have hone := hall a
  rw [hidden_ne_nil_iff] at hone
  rw [length_instances] at ha hone
  omega

theorem oneOfEach_merged_iff (h : mergedId tree = some a) (hid : merged.id = a) :
    OneOfEach tree ((tree.filter fun e => !inGroup a e) ++ [merged]) ↔
      Shown tree ∧ Single tree := by
  have hseen := seen_of_some h
  have hlength : ∀ b, (instances b ((tree.filter fun e => !inGroup a e) ++ [merged])).length =
      if b = a then (hidden a tree).length + 1 else (instances b tree).length := by
    intro b
    have happend : instances b ((tree.filter fun e => !inGroup a e) ++ [merged]) =
        instances b (tree.filter fun e => !inGroup a e) ++ instances b [merged] :=
      filter_append _ _
    rw [happend, instances_kept, instances_cons, hid]
    split_ifs with hba hab hab
    · rw [length_append]
      rfl
    · exact absurd hba.symm hab
    · exact absurd hab.symm hba
    · exact congrArg List.length (append_nil _)
  have hids : ∀ b, b ∈ tree.map BatchEntity.id ↔ 0 < (instances b tree).length := by
    intro b
    rw [mem_ids_iff, length_instances]
  constructor
  · intro hone
    have hhidden : (hidden a tree).length = 0 := by
      have ha := hone a ((hids a).mpr (by rw [length_instances]; omega))
      rw [hlength, if_pos rfl] at ha
      omega
    have hothers : ∀ b, b ≠ a → (instances b tree).length ≤ 1 := by
      intro b hba
      have hb := hone b
      rw [hids, hlength, if_neg hba] at hb
      omega
    refine ⟨fun b hb => ?_, fun b c hb hc => ?_⟩
    · rw [hidden_ne_nil_iff] at hb
      have hba : b ≠ a := by
        rintro rfl
        omega
      have hle := hothers b hba
      rw [length_instances] at hle ⊢
      omega
    · have hba : b = a := by
        by_contra hba
        have hle := hothers b hba
        omega
      have hca : c = a := by
        by_contra hca
        have hle := hothers c hca
        omega
      exact hba.trans hca.symm
  · rintro ⟨hshown, hsingle⟩ b hb
    rw [hids] at hb
    rw [hlength]
    have htwo : 2 ≤ (instances a tree).length := by
      rw [length_instances]
      omega
    split_ifs with hba
    · have hnone : ¬ 0 < (hidden a tree).length := fun hpos => by
        have hone := hshown a (hidden_ne_nil_iff.mpr hpos)
        omega
      omega
    · by_contra hne
      exact hba (hsingle b a (by omega) htwo)

/-- One instance of each identifier is left, and with troe nothing is lost. -/
structure Eliminated (troe : Bool) (tree : List BatchEntity) (out : Result) : Prop where
  once : OneOfEach tree out.tree
  recorded : troe = true → ∃ left, left.Sublist out.tree ∧ Recorded tree left out.duplicateArray

structure Eliminable (dbEntities : Option (List DbEntity))
    (entityReplace attributeReplace : Bool) (tree : List BatchEntity) : Prop where
  shown : Shown tree
  single : entityReplace = false → Single tree
  merges : entityReplace = false →
    ∀ copy ∈ mergedCopies tree, CanMerge dbEntities attributeReplace copy.id copy

variable {troe : Bool}
variable {errorsArray : Errors}

theorem update_none (h : mergedId tree = none) :
    duplicatedInstances troe r dbEntities false attributeReplace tree errorsArray =
      some ⟨tree, [], errorsArray⟩ := by
  unfold duplicatedInstances
  rw [if_neg Bool.false_ne_true, split_none h]
  cases troe <;> exact congrArg (fun kept => some (Result.mk kept [] errorsArray))
    (append_nil tree)

theorem update_some (h : mergedId tree = some e.id)
    (hgroup : tree.filter (inGroup e.id) = e :: copies)
    (hcopies : ∀ copy ∈ copies, copy.id = e.id) :
    duplicatedInstances troe r dbEntities false attributeReplace tree errorsArray =
      (mergeCopies (mergeCopy r dbEntities attributeReplace) e copies).map fun merged =>
        ⟨(tree.filter fun e' => !inGroup e.id e') ++ [merged],
          if troe then tree.filter (inGroup e.id) else [],
          (splitDuplicated tree [] errorsArray).errorsArray⟩ := by
  have hsplit := split_some errorsArray h
  unfold duplicatedInstances
  dsimp only
  rw [hsplit.array, hsplit.kept, hgroup, mergeArray_group hcopies]
  cases mergeCopies (mergeCopy r dbEntities attributeReplace) e copies <;> rfl

/-- duplicatedInstances loses nothing exactly when what is under "@id" is not repeated and, for an
update, one identifier at most is repeated and its merge can read what it needs. -/
theorem eliminated_iff (troe : Bool) (r : Request) (dbEntities : Option (List DbEntity))
    (entityReplace attributeReplace : Bool) (tree : List BatchEntity) (errorsArray : Errors) :
    (∃ out, duplicatedInstances troe r dbEntities entityReplace attributeReplace tree
        errorsArray = some out ∧ Eliminated troe tree out) ↔
      Eliminable dbEntities entityReplace attributeReplace tree := by
  cases entityReplace with
  | true =>
    constructor
    · rintro ⟨out, hout, helim⟩
      cases hout
      exact ⟨oneOfEach_last_iff.mp helim.once, fun h => (by cases h), fun h => (by cases h)⟩
    · intro helim
      refine ⟨_, rfl, oneOfEach_last_iff.mpr helim.shown, fun _ => ?_⟩
      exact ⟨lastInstances tree, List.Sublist.refl _, replace_recorded tree⟩
  | false =>
    cases hid : mergedId tree with
    | none =>
      have hcopies : mergedCopies tree = [] := by
        unfold mergedCopies
        rw [hid]
      rw [update_none hid]
      constructor
      · rintro ⟨out, hout, helim⟩
        cases hout
        obtain ⟨hshown, hsingle⟩ := (oneOfEach_unmerged_iff hid).mp helim.once
        refine ⟨hshown, fun _ => hsingle, fun _ copy hcopy => ?_⟩
        rw [hcopies] at hcopy
        cases hcopy
      · intro helim
        refine ⟨_, rfl, (oneOfEach_unmerged_iff hid).mpr ⟨helim.shown, helim.single rfl⟩,
          fun _ => ⟨tree, List.Sublist.refl _, ?_⟩⟩
        exact ⟨List.Perm.of_eq (append_nil tree), List.Sublist.refl _,
          nil_sublist _, fun e he => by cases he⟩
    | some a =>
      obtain ⟨e, copies, hgroup, rfl, hmerged, hcopies⟩ := group_cons hid
      rw [update_some hid hgroup hcopies]
      have hcan : (∀ copy ∈ mergedCopies tree, CanMerge dbEntities attributeReplace copy.id copy) ↔
          (mergeCopies (mergeCopy r dbEntities attributeReplace) e copies).isSome = true := by
        rw [mergeCopies_isSome_iff, hmerged]
        refine forall₂_congr fun copy hcopy => ?_
        rw [hcopies copy hcopy]
      constructor
      · rintro ⟨out, hout, helim⟩
        obtain ⟨merged, hmerge, rfl⟩ := map_eq_some_iff.mp hout
        obtain ⟨hshown, hsingle⟩ := (oneOfEach_merged_iff hid (mergeCopies_id hmerge)).mp helim.once
        refine ⟨hshown, fun _ => hsingle, fun _ => hcan.mpr ?_⟩
        rw [hmerge]
        rfl
      · intro helim
        obtain ⟨merged, hmerge⟩ := isSome_iff_exists.mp (hcan.mp (helim.merges rfl))
        rw [hmerge]
        refine ⟨_, rfl, ?_, fun htroe => ⟨_, sublist_append_left _ _, ?_⟩⟩
        · exact (oneOfEach_merged_iff hid (mergeCopies_id hmerge)).mpr
            ⟨helim.shown, helim.single rfl⟩
        · dsimp only
          rw [if_pos htroe]
          exact update_recorded hid

def instanceOf (id : String) : BatchEntity :=
  ⟨id.toList, false, some ⟨false, "T".toList⟩, []⟩

/-- Of two repeated identifiers the second one keeps both its instances. -/
theorem second_repetition_stays : ¬ ∀ (troe : Bool) (r : Request)
    (dbEntities : Option (List DbEntity)) (entityReplace attributeReplace : Bool)
    (tree : List BatchEntity) (errorsArray : Errors),
    (∀ e ∈ tree, e.atId = false) →
      ∃ out, duplicatedInstances troe r dbEntities entityReplace attributeReplace tree
        errorsArray = some out ∧ Eliminated troe tree out := by
  intro h
  obtain ⟨out, hout, helim⟩ := h true plainRequest none false true
    [instanceOf "urn:A", instanceOf "urn:B", instanceOf "urn:A", instanceOf "urn:B"] [] (by decide)
  have hseen : (duplicatedInstances true plainRequest none false true
      [instanceOf "urn:A", instanceOf "urn:B", instanceOf "urn:A", instanceOf "urn:B"] []).map
        (fun out => (instances "urn:B".toList out.tree).length) = some 2 := by
    decide +kernel
  rw [hout] at hseen
  have hone := helim.once "urn:B".toList (by decide)
  rw [map_some, hone] at hseen
  cases hseen

end DuplicateElimination
