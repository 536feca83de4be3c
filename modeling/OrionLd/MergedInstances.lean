import OrionLd.DuplicateElimination
import Mathlib.Data.List.DropRight

/-! The attributes of the entity that an update makes of the instances of one identifier. At
each name a merge moves one value along: the first instance and the copies whose first
attribute has that name carry values, and the last of them stays, or the first. -/
namespace MergedInstances

open KjTree OrionldContextItem KjTreeToContextAttribute BatchEntities DuplicatedInstances
open DuplicateElimination List Option Bool

variable {α : Type}

theorem foldl_replace (vs xs : List α) :
    vs.foldl (fun xs v => xs.tail ++ [v]) xs = (xs ++ vs).rtake (max 1 xs.length) := by
  induction vs generalizing xs with
  | nil =>
    rw [foldl_nil, append_nil]
    unfold List.rtake
    have hzero : xs.length - max 1 xs.length = 0 := by omega
    rw [hzero, drop_zero]
  | cons v vs ih =>
    rw [foldl_cons, ih]
    unfold List.rtake
    cases xs with
    | nil => rfl
    | cons x xs =>
      have hdrop : ((x :: xs) ++ v :: vs).length - max 1 (x :: xs).length =
          ((xs ++ [v]) ++ vs).length - max 1 (xs ++ [v]).length + 1 := by
        simp only [length_append, length_cons, length_nil]
        omega
      rw [hdrop, cons_append, drop_succ_cons, tail_cons, append_assoc xs [v] vs]
      rfl

theorem foldl_ignore (vs xs : List α) :
    vs.foldl (fun xs v => if xs.isEmpty then [v] else xs) xs =
      (xs ++ vs).take (max 1 xs.length) := by
  induction vs generalizing xs with
  | nil =>
    rw [foldl_nil, append_nil, take_of_length_le (Nat.le_max_right 1 xs.length)]
  | cons v vs ih =>
    rw [foldl_cons, ih]
    cases xs with
    | nil => rfl
    | cons x xs =>
      have hmax : max 1 (x :: xs).length = (x :: xs).length := by
        rw [List.length_cons]
        omega
      rw [List.isEmpty_cons, if_neg Bool.false_ne_true, hmax, List.take_left, List.take_left]

def entries (name : Text) (members : Members) : List KjNode :=
  (members.filter fun m => m.1 = name).map Prod.snd

variable {name : Text} {members : Members}

theorem entries_append (name : Text) (members others : Members) :
    entries name (members ++ others) = entries name members ++ entries name others := by
  unfold entries
  rw [filter_append, map_append]

theorem entries_singleton (name : Text) (m : Text × KjNode) :
    entries name [m] = if m.1 = name then [m.2] else [] := by
  unfold entries
  by_cases h : m.1 = name <;> simp [h]

theorem entries_cons (name : Text) (m : Text × KjNode) (members : Members) :
    entries name (m :: members) =
      if m.1 = name then m.2 :: entries name members else entries name members := by
  unfold entries
  by_cases h : m.1 = name <;> simp [h]

theorem entries_eraseP (name removed : Text) (members : Members) :
    entries name (members.eraseP fun m => m.1 = removed) =
      if removed = name then (entries name members).tail else entries name members := by
  induction members with
  | nil => split_ifs <;> rfl
  | cons m members ih =>
    rw [eraseP_cons, entries_cons]
    by_cases hm : m.1 = removed
    · rw [decide_eq_true hm, cond_true, hm]
      split_ifs <;> rfl
    rw [decide_eq_false hm, cond_false, entries_cons, ih]
    split_ifs with hname hremoved
    · exact absurd (hname.trans hremoved.symm) hm
    · rfl
    · rfl
    · rfl

theorem lookup_isSome_iff : (members.lookup name).isSome = !(entries name members).isEmpty := by
  induction members with
  | nil => rfl
  | cons m members ih =>
    rw [lookup_cons, entries_cons]
    by_cases h : m.1 = name
    · rw [if_pos h, h, beq_self_eq_true]
      rfl
    · rw [if_neg h, beq_eq_false_iff_ne.mpr (Ne.symm h)]
      exact ih

def attributeValue (e : BatchEntity) (name : Text) : Option KjNode :=
  (entries name e.members).find? isObject

variable (r : Request) (dbEntities : Option (List DbEntity)) (attributeReplace : Bool)

def inAttrNames (a name : Text) : Bool :=
  match lookupInDb dbEntities a with
  | none => false
  | some d => (orionldAttributeExpand r.env.toContexts name).1 ∈ d.attrNames

def accepts (a name : Text) : Bool := attributeReplace || !inAttrNames r dbEntities a name

def brought (name : Text) (copies : List BatchEntity) : List KjNode :=
  entries name (copies.filterMap firstAttribute)

def takeValue (xs : List KjNode) (v : KjNode) : List KjNode :=
  if attributeReplace then xs.tail ++ [v] else if xs.isEmpty then [v] else xs

variable {r dbEntities attributeReplace}
variable {e copy merged : BatchEntity} {copies : List BatchEntity}

theorem entries_replacing (name : Text) (e copy : BatchEntity) :
    entries name (kjEntityMergeReplacingAttributes e copy).members =
      (brought name [copy]).foldl (takeValue true) (entries name e.members) := by
  unfold kjEntityMergeReplacingAttributes brought
  rw [filterMap_cons]
  split
  · rename_i hnone
    rw [hnone]
    rfl
  rename_i m hfirst
  rw [hfirst, filterMap_nil, entries_singleton]
  rw [entries_append, entries_eraseP, entries_singleton]
  split_ifs
  · rfl
  · exact append_nil _

theorem entries_ignoring
    (h : kjEntityMergeIgnoringExistingAttributes r dbEntities e copy = some merged) :
    entries name merged.members =
      if inAttrNames r dbEntities e.id name then entries name e.members
      else (brought name [copy]).foldl (takeValue false) (entries name e.members) := by
  unfold kjEntityMergeIgnoringExistingAttributes at h
  unfold brought
  rw [filterMap_cons]
  split at h
  · rename_i hnone
    cases h
    rw [hnone]
    exact (ite_self (entries name e.members)).symm
  · rename_i m hfirst
    obtain ⟨d, hd, h⟩ := bind_eq_some_iff.mp h
    have hin : decide ((orionldAttributeExpand r.env.toContexts m.1).1 ∈ d.attrNames) =
        inAttrNames r dbEntities e.id m.1 := by
      unfold inAttrNames
      rw [hd]
    rw [hfirst, filterMap_nil, entries_singleton]
    rw [lookup_isSome_iff, hin] at h
    by_cases hname : m.1 = name
    · subst hname
      rw [if_pos rfl, foldl_cons, foldl_nil]
      unfold takeValue
      cases hdb : inAttrNames r dbEntities e.id m.1 with
      | true =>
        rw [hdb, Bool.true_or, if_pos rfl] at h
        exact congrArg (fun e => entries m.1 e.members) (Option.some.inj h).symm
      | false =>
        rw [hdb, Bool.false_or] at h
        cases hold : (entries m.1 e.members).isEmpty with
        | false =>
          rw [hold, Bool.not_false, if_pos rfl] at h
          exact congrArg (fun e => entries m.1 e.members) (Option.some.inj h).symm
        | true =>
          rw [hold, Bool.not_true, if_neg Bool.false_ne_true] at h
          obtain rfl := Option.some.inj h
          rw [entries_append, List.isEmpty_iff.mp hold, entries_singleton, if_pos rfl]
          rfl
    · rw [if_neg hname, foldl_nil, ite_self]
      split_ifs at h
      · exact congrArg (fun e => entries name e.members) (some.inj h).symm
      · cases h
        rw [entries_append, entries_singleton, if_neg hname, append_nil]

theorem entries_mergeCopy (h : mergeCopy r dbEntities attributeReplace e copy = some merged) :
    entries name merged.members =
      if accepts r dbEntities attributeReplace e.id name then
        (brought name [copy]).foldl (takeValue attributeReplace) (entries name e.members)
      else entries name e.members := by
  unfold accepts
  cases attributeReplace with
  | true =>
    cases h
    exact entries_replacing name e copy
  | false =>
    rw [entries_ignoring h, Bool.false_or]
    cases inAttrNames r dbEntities e.id name <;> rfl

theorem entries_mergeCopies
    (h : mergeCopies (mergeCopy r dbEntities attributeReplace) e copies = some merged) :
    entries name merged.members =
      if accepts r dbEntities attributeReplace e.id name then
        (brought name copies).foldl (takeValue attributeReplace) (entries name e.members)
      else entries name e.members := by
  induction copies generalizing e with
  | nil =>
    obtain rfl := Option.some.inj h
    exact (ite_self (entries name e.members)).symm
  | cons copy copies ih =>
    obtain ⟨e', he', h⟩ := Option.bind_eq_some_iff.mp h
    have hsplit : brought name (copy :: copies) = brought name [copy] ++ brought name copies := by
      unfold brought
      rw [← entries_append, ← filterMap_append]
      rfl
    rw [ih h, mergeCopy_id he', entries_mergeCopy he', hsplit, foldl_append]
    split_ifs <;> rfl

variable (r : Request) (dbEntities : Option (List DbEntity)) (attributeReplace : Bool)

/-- The values under a name that can come into the merged entity. -/
def carriers (a name : Text) (e : BatchEntity) (copies : List BatchEntity) : List KjNode :=
  entries name e.members ++
    if accepts r dbEntities attributeReplace a name then brought name copies else []

/-- As many of them stay as the first instance has, or one: the last or the first. -/
def staying (a name : Text) (e : BatchEntity) (copies : List BatchEntity) : List KjNode :=
  let number := max 1 (entries name e.members).length
  if attributeReplace then (carriers r dbEntities attributeReplace a name e copies).rtake number
  else (carriers r dbEntities attributeReplace a name e copies).take number

def held (name : Text) (group : List BatchEntity) : List KjNode :=
  group.filterMap fun e => attributeValue e name

def dueValue (a name : Text) (group : List BatchEntity) : Option KjNode :=
  if attributeReplace then (held name group).getLast?
  else if inAttrNames r dbEntities a name then none else (held name group).head?

variable {r dbEntities attributeReplace}

theorem entries_merged
    (h : mergeCopies (mergeCopy r dbEntities attributeReplace) e copies = some merged)
    (name : Text) :
    entries name merged.members = staying r dbEntities attributeReplace e.id name e copies := by
  rw [entries_mergeCopies h]
  unfold staying carriers
  cases attributeReplace with
  | true =>
    unfold accepts
    exact foldl_replace _ _
  | false =>
    rw [if_neg Bool.false_ne_true]
    split_ifs
    · exact foldl_ignore _ _
    · rw [append_nil, take_of_length_le (Nat.le_max_right 1 _)]

variable {troe : Bool}
variable {a : Text} {tree : List BatchEntity} {errorsArray : Errors}

/-- The instances have become one entity with the attributes that are due. An "@context" is none. -/
def AttributesKept (r : Request) (dbEntities : Option (List DbEntity)) (attributeReplace : Bool)
    (a : Text) (tree : List BatchEntity) (out : Result) : Prop :=
  ∃ merged, instances a out.tree = [merged] ∧ ∀ name, name ≠ "@context".toList →
    attributeValue merged name = dueValue r dbEntities attributeReplace a name (instances a tree)

structure Mergeable (r : Request) (dbEntities : Option (List DbEntity))
    (attributeReplace : Bool) (a : Text) (tree : List BatchEntity) : Prop where
  first : mergedId tree = some a
  shown : hidden a tree = []
  merges : ∀ copy ∈ (instances a tree).tail, CanMerge dbEntities attributeReplace a copy
  carried : ∀ e copies, instances a tree = e :: copies → ∀ name, name ≠ "@context".toList →
    (staying r dbEntities attributeReplace a name e copies).find? isObject =
      dueValue r dbEntities attributeReplace a name (e :: copies)

theorem group_of_shown (h : hidden a tree = []) : tree.filter (inGroup a) = instances a tree := by
  refine filter_congr fun e he => ?_
  unfold inGroup
  cases hat : e.atId with
  | false => exact and_true _
  | true =>
    have hid : e.id ≠ a := by
      rintro rfl
      have hmem : e ∈ hidden e.id tree := mem_filter.mpr ⟨he, by rw [decide_eq_true rfl, hat]; rfl⟩
      rw [h] at hmem
      cases hmem
    rw [decide_eq_false hid]
    rfl

theorem instances_result {b : Text} (h : merged.id = b) (a : Text) :
    instances a ((tree.filter fun e => !inGroup b e) ++ [merged]) =
      if a = b then hidden b tree ++ [merged] else instances a tree := by
  have happend : instances a ((tree.filter fun e => !inGroup b e) ++ [merged]) =
      instances a (tree.filter fun e => !inGroup b e) ++ instances a [merged] :=
    filter_append _ _
  rw [happend, instances_kept, instances_cons, h]
  split_ifs with hab hba hba
  · rfl
  · exact absurd hab.symm hba
  · exact absurd hba.symm hab
  · exact append_nil _

theorem merged_of_single (htwo : 2 ≤ (instances a tree).length) {out : Result}
    (hout : duplicatedInstances troe r dbEntities false attributeReplace tree errorsArray =
    some out) (hone : instances a out.tree = [merged]) :
    mergedId tree = some a ∧ hidden a tree = [] ∧
      ∃ e copies, instances a tree = e :: copies ∧ e.id = a ∧
        mergeCopies (mergeCopy r dbEntities attributeReplace) e copies = some merged := by
  have hlong : instances a tree ≠ [merged] := by
    intro heq
    rw [heq] at htwo
    exact absurd htwo (Nat.not_succ_le_self 1)
  cases hid : mergedId tree with
  | none =>
    rw [update_none hid] at hout
    cases hout
    exact absurd hone hlong
  | some b =>
    obtain ⟨e, copies, hgroup, rfl, -, hcopies⟩ := group_cons hid
    rw [update_some hid hgroup hcopies] at hout
    obtain ⟨merged', hmerge, rfl⟩ := map_eq_some_iff.mp hout
    rw [instances_result (mergeCopies_id hmerge)] at hone
    split_ifs at hone with hab
    · subst hab
      have hhidden : hidden e.id tree = [] := by
        have hlength := congrArg List.length hone
        rw [length_append] at hlength
        exact length_eq_zero_iff.mp (Nat.succ.inj hlength)
      rw [hhidden] at hone
      obtain rfl := (cons.inj hone).1
      exact ⟨rfl, hhidden, e, copies, (group_of_shown hhidden).symm.trans hgroup, rfl, hmerge⟩
    · exact absurd hone hlong

theorem single_of_merged (troe : Bool) (errorsArray : Errors) (hid : mergedId tree = some a)
    (hhidden : hidden a tree = []) (hgroup : instances a tree = e :: copies)
    (hmerge : mergeCopies (mergeCopy r dbEntities attributeReplace) e copies = some merged) :
    ∃ out, duplicatedInstances troe r dbEntities false attributeReplace tree errorsArray =
      some out ∧ instances a out.tree = [merged] := by
  have hids : ∀ e' ∈ e :: copies, e'.id = a := by
    intro e' he'
    rw [← hgroup] at he'
    exact (mem_instances.mp he').2
  obtain rfl := hids e mem_cons_self
  have hseen := (group_of_shown hhidden).trans hgroup
  rw [update_some hid hseen fun copy hcopy => hids copy (mem_cons_of_mem e hcopy), hmerge]
  refine ⟨_, rfl, ?_⟩
  rw [instances_result (mergeCopies_id hmerge), if_pos rfl, hhidden]
  rfl

/-- The instances become one entity exactly when the identifier is the first repeated one, no
instance is under "@id", the merge can read what it needs, and at each name the carriers that stay
give the value due. -/
theorem merged_kept_iff (troe : Bool) (r : Request) (dbEntities : Option (List DbEntity))
    (attributeReplace : Bool) (a : Text) (tree : List BatchEntity) (errorsArray : Errors)
    (htwo : 2 ≤ (instances a tree).length) :
    (∃ out, duplicatedInstances troe r dbEntities false attributeReplace tree errorsArray =
        some out ∧ AttributesKept r dbEntities attributeReplace a tree out) ↔
      Mergeable r dbEntities attributeReplace a tree := by
  constructor
  · rintro ⟨out, hout, merged, hone, hkept⟩
    obtain ⟨hid, hhidden, e, copies, hgroup, rfl, hmerge⟩ := merged_of_single htwo hout hone
    refine ⟨hid, hhidden, ?_, ?_⟩
    · rw [hgroup, tail_cons]
      refine (mergeCopies_isSome_iff (r := r)).mp ?_
      rw [hmerge]
      rfl
    · intro e' copies' hgroup' name hname
      obtain ⟨rfl, rfl⟩ := cons.inj (hgroup.symm.trans hgroup')
      rw [← entries_merged hmerge name, ← hgroup]
      exact hkept name hname
  · rintro ⟨hid, hhidden, hmerges, hcarried⟩
    obtain ⟨e, copies, hgroup⟩ := exists_cons_of_length_pos
      (Nat.lt_of_lt_of_le Nat.zero_lt_two htwo)
    have he : e ∈ instances a tree := by
      rw [hgroup]
      exact mem_cons_self
    obtain rfl := (mem_instances.mp he).2
    rw [hgroup, tail_cons] at hmerges
    obtain ⟨merged, hmerge⟩ := isSome_iff_exists.mp ((mergeCopies_isSome_iff (r := r)).mpr hmerges)
    obtain ⟨out, hout, hone⟩ := single_of_merged troe errorsArray hid hhidden hgroup hmerge
    refine ⟨out, hout, merged, hone, fun name hname => ?_⟩
    unfold attributeValue
    rw [entries_merged hmerge name, hgroup]
    exact hcarried e copies hgroup name hname

def instanceWith (names : List String) : BatchEntity :=
  ⟨"urn:A".toList, false, some ⟨false, "T".toList⟩,
    names.map fun name => (name.toList, .object [("type".toList, .string "Property".toList),
      ("value".toList, .string name.toList)])⟩

theorem one_attribute_each :
    ∃ out, duplicatedInstances true plainRequest none false true
        [instanceWith ["P1"], instanceWith ["P2"]] [] = some out ∧
      AttributesKept plainRequest none true "urn:A".toList
        [instanceWith ["P1"], instanceWith ["P2"]] out := by
  refine (merged_kept_iff true plainRequest none true "urn:A".toList
    [instanceWith ["P1"], instanceWith ["P2"]] [] (by decide)).mpr ⟨by decide, by decide, ?_, ?_⟩
  · intro copy _
    exact .inl rfl
  · intro e copies hcons name _
    have hinstances : instances "urn:A".toList [instanceWith ["P1"], instanceWith ["P2"]] =
        [instanceWith ["P1"], instanceWith ["P2"]] := rfl
    rw [hinstances] at hcons
    cases hcons
    have hnone : ∀ other, name ≠ other.toList → entries name (instanceWith [other]).members = [] :=
      fun other hne => (entries_singleton name _).trans (if_neg hne.symm)
    by_cases hfirst : name = "P1".toList
    · subst hfirst
      rfl
    by_cases hsecond : name = "P2".toList
    · subst hsecond
      rfl
    have hbrought : brought name [instanceWith ["P2"]] = [] := hnone "P2" hsecond
    simp [staying, carriers, dueValue, held, attributeValue, hnone "P1" hfirst,
      hnone "P2" hsecond, hbrought]

/-- The second attribute of the second instance is lost. -/
theorem second_attribute_lost : ¬ ∀ (troe : Bool) (r : Request)
    (dbEntities : Option (List DbEntity)) (attributeReplace : Bool) (a : Text)
    (tree : List BatchEntity) (errorsArray : Errors), 2 ≤ (instances a tree).length →
      ∃ out, duplicatedInstances troe r dbEntities false attributeReplace tree errorsArray =
        some out ∧ AttributesKept r dbEntities attributeReplace a tree out := by
  intro h
  obtain ⟨out, hout, merged, hone, hkept⟩ := h true plainRequest none true "urn:A".toList
    [instanceWith ["P1"], instanceWith ["P2", "P3"]] [] (by decide)
  have hseen : (duplicatedInstances true plainRequest none false true
      [instanceWith ["P1"], instanceWith ["P2", "P3"]] []).map (fun out =>
        (instances "urn:A".toList out.tree).map fun e =>
          (attributeValue e "P3".toList).isSome) = some [false] := by
    decide +kernel
  have hdue : (dueValue plainRequest none true "urn:A".toList "P3".toList
      (instances "urn:A".toList [instanceWith ["P1"], instanceWith ["P2", "P3"]])).isSome =
        true := by
    decide +kernel
  rw [hout, map_some, hone, map_singleton, hkept "P3".toList (by decide), hdue] at hseen
  cases hseen

end MergedInstances
