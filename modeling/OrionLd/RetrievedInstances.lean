import OrionLd.EntityShown
import Mathlib.Data.List.Dedup

/-! GET /entities/{id} of an entity with @datasets: mongoCppLegacyEntityRetrieve with an attribute
list. The default instances are put in front of the arrays of the other ones, and an array of one
instance is made that instance. What is returned of a geometry property is left out. `none` is the
return of NULL, or a read of children where there are none. -/
namespace RetrievedInstances

open KjTree OrionldContextItem RegistrationDocument EntityDocument FieldList List Option
open MongoCppLegacyEntityRetrieve

variable (env : DateEnv) (o : Options)

/-- datamodelAttributeFix on a node of attrs, if it is called. -/
def attrFix : KjNode → Option KjNode
  | .object attr => (datamodelPass env o attr).map .object
  | node => some node

def kjChildPrepend (child : Text × KjNode) : KjNode → Option KjNode
  | .array items => some (.array (child.2 :: items))
  | .object members => some (.object (child :: members))
  | _ => none

def incorporate : Members → Members → Option Members
  | [], dbDataSets => some dbDataSets
  | attr :: dbAttrs, dbDataSets =>
    match dbDataSets.lookup attr.1 with
    | some didAttr =>
      (kjChildPrepend attr didAttr).bind fun didAttr =>
        incorporate dbAttrs (put attr.1 didAttr dbDataSets)
    | none => incorporate dbAttrs (dbDataSets ++ [attr])

structure Filtered where
  dbAttrs : Members
  dbDataSets : Members
  attrTree : Members

def filterStep (s : Filtered) (name : Text) : Option Filtered :=
  match s.dbAttrs.lookup name, s.dbDataSets.lookup name with
  | some attr, some dataset =>
    (attrFix env o attr).bind fun attr => (kjChildPrepend (name, attr) dataset).map fun dataset =>
      ⟨kjChildRemove s.dbAttrs name, kjChildRemove s.dbDataSets name,
        s.attrTree ++ [(name, dataset)]⟩
  | some attr, none =>
    (attrFix env o attr).map fun attr =>
      ⟨kjChildRemove s.dbAttrs name, s.dbDataSets, s.attrTree ++ [(name, attr)]⟩
  | none, some dataset =>
    some ⟨s.dbAttrs, kjChildRemove s.dbDataSets name, s.attrTree ++ [(name, dataset)]⟩
  | none, none => some s

def fixed (m : Text × KjNode) : Option (Text × KjNode) :=
  (attrFix env o m.2).map fun node => (m.1, node)

def attrTree (attrs : List Text) (dbAttrs dbDataSets : Members) : Option Members :=
  if attrs = [] then
    (dbAttrs.mapM (fixed env o)).bind fun dbAttrs =>
      if dbDataSets = [] then some dbAttrs else incorporate dbAttrs dbDataSets
  else (attrs.foldlM (filterStep env o) ⟨dbAttrs, dbDataSets, []⟩).map Filtered.attrTree

def instanceFix : KjNode → Option KjNode
  | .object attr => presentationAttributeFix env o attr
  | .array items =>
    if o.keyValues then none else some (.array (items.map (onMembers (stampsFix env o))))
  | _ => none

/-- The attribute becomes an object with the children of its instance. The second assignment reads
the first child. The children of an array have no names, and are no members. -/
def withoutArray : KjNode → Option KjNode
  | .object (m :: members) => some (.object (m :: members))
  | _ => none

def presented : KjNode → Option KjNode
  | .object attr => presentationAttributeFix env o attr
  | .array items =>
    (items.mapM (instanceFix env o)).bind fun
      | [inst] => withoutArray inst
      | instances => some (.array instances)
  | _ => none

def attributeShown (m : Text × KjNode) : Option (Text × KjNode) :=
  let m := compactAttribute env.toContexts m
  (presented env o m.2).map fun node => (m.1, node)

def idMembers (dbTree idP : Members) : Members :=
  changeFirst "type" (compactString env.toContexts) (removeFirst "servicePath" idP) ++
    if o.sysAttrs then movedDate env "creDate" "createdAt" dbTree ++
      movedDate env "modDate" "modifiedAt" dbTree else []

def mongoCppLegacyEntityRetrieve (attrs : List Text) (attrMandatory : Bool) (dbTree : Members) :
    Option Members := do
  let dbAttrsP ← dbTree.lookup "attrs".toList
  let tree ← attrTree env o attrs (childrenOf dbAttrsP)
    (((dbTree.lookup "@datasets".toList).map childrenOf).getD [])
  if attrs ≠ [] ∧ tree = [] ∧ attrMandatory then none
  else
    let shown ← tree.mapM (attributeShown env o)
    let idP ← dbTree.lookup "_id".toList
    let _ ← kjLookup idP "type"
    some (idMembers env o dbTree (childrenOf idP) ++ shown)

/-- An instance has a type, and its value under one of two names. -/
structure WellFormed (inst : Members) : Prop where
  type : ∃ type, inst.lookup "type".toList = some (.string type)
  value : (inst.lookup "value".toList).isSome ∨ (inst.lookup "object".toList).isSome

/-- Each attribute has a default instance in attrs, or an array of instances in @datasets, or both.
No metadata document is empty. -/
structure StoredInstances where
  attrs : List (Text × Members)
  datasets : Option (List (Text × List Members))
  attrsOnce : (attrs.map Prod.fst).Nodup
  datasetsOnce : ((datasets.getD []).map Prod.fst).Nodup
  attrsWellFormed : ∀ a ∈ attrs, WellFormed a.2
  datasetsWellFormed : ∀ s ∈ datasets.getD [], ∀ inst ∈ s.2, WellFormed inst
  mdFilled : ∀ a ∈ attrs, ∀ md ∈ a.2.lookup "md".toList, ∀ m ∈ childrenOf md, m.2 ≠ .object []

def StoredInstances.slots (e : StoredInstances) : List (Text × List Members) := e.datasets.getD []

structure TreeOf (dbTree : Members) (e : StoredInstances) (idP : Members) : Prop where
  attrs : dbTree.lookup "attrs".toList =
    some (.object (e.attrs.map fun a => (a.1, .object a.2)))
  datasets : dbTree.lookup "@datasets".toList =
    e.datasets.map fun slots => .object (slots.map fun s => (s.1, .array (s.2.map .object)))
  id : dbTree.lookup "_id".toList = some (.object idP)
  type : ∃ type, idP.lookup "type".toList = some (.string type)

def selected (filter : List Text) (e : StoredInstances) : List Text :=
  let all := e.slots.map Prod.fst ++
    (e.attrs.map Prod.fst).filter fun n => !(e.slots.map Prod.fst).contains n
  if filter = [] then all else filter.dedup.filter fun n => all.contains n

def defaultInstance (attr : Members) : Members := (datamodelPass env o attr).getD attr

/-- The stored instances, the default one first. -/
def StoredInstances.instances (e : StoredInstances) (n : Text) : List Members :=
  (e.attrs.lookup n).toList ++ (e.slots.lookup n).getD []

def instances (e : StoredInstances) (n : Text) : List Members :=
  ((e.attrs.lookup n).map (defaultInstance env o)).toList ++ (e.slots.lookup n).getD []

def valueNames : List Text := ["value".toList, "object".toList]

/-- The value of an instance, under the name of a property or of a relationship. -/
def instanceValue (inst : Members) : Option KjNode :=
  (inst.find? fun m => valueNames.contains m.1).map Prod.snd

def bareValue (inst : Members) : Option KjNode :=
  (inst.lookup "value".toList).or (inst.lookup "object".toList)

/-- The instance in the presentation of the request, with its value. That of a vocabulary term may
be compacted. -/
def Presents (n : Text) (inst : Members) (shown : KjNode) : Prop :=
  ∃ inst', (inst' = inst ∨ valueMayBeCompacted env.toContexts (eqForDot n) = true ∧
      inst' = changeFirst "value" (compactValue env.toContexts) inst) ∧
    presentationAttributeFix env o inst' = some shown ∧
    (o.keyValues = false → instanceValue (childrenOf shown) = instanceValue inst')

/-- One instance alone, and otherwise an array. -/
def arranged : List KjNode → KjNode
  | [shown] => shown
  | shown => .array shown

def shownName (n : Text) : Text :=
  if n = "location".toList then n else orionldContextItemAliasLookup env.toContexts (eqForDot n)

def ShowsInstances (filter : List Text) (attrMandatory : Bool) (dbTree idP : Members)
    (e : StoredInstances) : Prop :=
  let answer := mongoCppLegacyEntityRetrieve env o filter attrMandatory dbTree
  if filter ≠ [] ∧ selected filter e = [] ∧ attrMandatory then answer = none
  else ∃ names shown, names.Perm (selected filter e) ∧
    answer = some (idMembers env o dbTree idP ++ shown) ∧
    List.Forall₂ (fun n m => m.1 = shownName env n ∧ ∃ nodes,
      List.Forall₂ (Presents env o n) (instances env o e n) nodes ∧ m.2 = arranged nodes)
      names shown

/-- A value in which nothing is taken for a date of a sub-attribute. -/
def Undated (inst : Members) : Prop :=
  ∀ members, instanceValue inst = some (.object members) →
    ∀ name ∈ ["createdAt", "modifiedAt"], ∀ node ∈ members.lookup name.toList,
      o.sysAttrs = true ∧ (∀ x, node ≠ .float x) ∧ ∀ i, node ≠ .int i

structure ShowableAt (e : StoredInstances) (n : Text) : Prop where
  keyValues : o.keyValues = true → (e.slots.lookup n).isSome → ∀ inst, e.instances n = [inst] →
    ∃ m members, bareValue inst = some (.object (m :: members))
  normalized : o.keyValues = false → ∀ inst ∈ e.instances n, Undated o inst

def Showable (filter : List Text) (e : StoredInstances) : Prop :=
  ∀ n ∈ selected filter e, ShowableAt o e n

variable {members : Members} {k : Text} {name newName : String}

theorem lookup_renameFirst (h : k ≠ name.toList) (h' : k ≠ newName.toList) :
    (renameFirst name newName members).lookup k = members.lookup k := by
  induction members with
  | nil => rfl
  | cons m members ih =>
    unfold renameFirst
    split
    · rename_i hm
      rw [lookup_cons, lookup_cons, beq_false_of_ne h', eq_of_beq hm, beq_false_of_ne h]
    · rw [lookup_cons, lookup_cons, ih]

theorem lookup_changeFirst (change : KjNode → KjNode) (k : Text) :
    (changeFirst name change members).lookup k =
      if k = name.toList then (members.lookup k).map change else members.lookup k := by
  induction members with
  | nil => split <;> rfl
  | cons m members ih =>
    unfold changeFirst
    by_cases hm : m.1 = name.toList
    · rw [if_pos (by simpa using hm), lookup_cons, lookup_cons, hm]
      by_cases hk : k = name.toList
      · rw [hk, beq_self_eq_true, if_pos rfl]
        rfl
      · rw [beq_false_of_ne hk, if_neg hk]
    · rw [if_neg (by simpa using hm), lookup_cons, lookup_cons, ih]
      by_cases hk : k = m.1
      · simp only [hk, beq_self_eq_true, if_neg hm]
      · rw [beq_false_of_ne hk]

theorem lookup_kjChildRemove (hn : (members.map Prod.fst).Nodup) {n : Text} :
    (kjChildRemove members n).lookup k = if k = n then none else members.lookup k := by
  split
  · rename_i hk
    subst hk
    rw [lookup_eq_none_iff]
    unfold kjChildRemove
    induction members with
    | nil => exact fun _ hm => nomatch hm
    | cons m members ih =>
      rw [map_cons, nodup_cons] at hn
      by_cases hm : m.1 = k
      · rw [eraseP_cons_of_pos (by simpa using hm)]
        intro p hp
        have hne : k ≠ p.1 := fun e => hn.1 (hm ▸ e ▸ mem_map_of_mem (f := Prod.fst) hp)
        simpa using hne
      · rw [eraseP_cons_of_neg (by simpa using hm)]
        intro p hp
        rcases mem_cons.mp hp with rfl | hp
        · simpa using Ne.symm hm
        · exact ih hn.2 p hp
  · rename_i hk
    exact lookup_kjChildRemove_ne hk

variable {env : DateEnv} {o : Options}

theorem metadataFix_isSome (env : DateEnv) {m : Text × KjNode} (h : m.2 ≠ .object []) :
    ∃ fixed, metadataFix env m = some fixed := by
  have hfirst : ∃ node, firstChild m.2 = some node := by
    unfold firstChild
    split
    · rename_i hm
      exact absurd hm h
    · exact ⟨_, rfl⟩
    · exact ⟨_, rfl⟩
  obtain ⟨node, hnode⟩ := hfirst
  unfold metadataFix
  simp only [hnode, map_some]
  split
  · exact ⟨_, rfl⟩
  split
  · exact ⟨_, rfl⟩
  split
  · split <;> exact ⟨_, rfl⟩
  · exact ⟨_, rfl⟩

theorem metadatasFix_isSome (env : DateEnv) {md : Members} (h : ∀ m ∈ md, m.2 ≠ .object []) :
    ∃ fixed, metadatasFix env md = some fixed := by
  induction md with
  | nil => exact ⟨_, rfl⟩
  | cons m md ih =>
    obtain ⟨hm, hmd⟩ := forall_mem_cons.mp h
    obtain ⟨⟨fixed, goesOn⟩, hfixed⟩ := metadataFix_isSome env hm
    obtain ⟨⟨rest, done⟩, hrest⟩ := ih hmd
    rw [metadatasFix, hfixed, hrest]
    cases goesOn <;> exact ⟨_, rfl⟩

def touchedNames : List String :=
  ["value", "object", "creDate", "createdAt", "modDate", "modifiedAt", "mdNames"]

theorem lookup_dateField {attr : Members} (h : k ≠ name.toList) (h' : k ≠ newName.toList) :
    (dateField o name newName attr).lookup k = attr.lookup k := by
  unfold dateField
  split
  · exact lookup_renameFirst h h'
  · exact lookup_kjChildRemove_ne h

variable {attr : Members}

def untilMd (o : Options) (relationship : Bool) (attr : Members) : Members :=
  removeFirst "mdNames" (dateField o "modDate" "modifiedAt" (dateField o "creDate" "createdAt"
    (if relationship then renameFirst "value" "object" attr else attr)))

theorem datamodelSteps_eq (relationship : Bool) :
    datamodelSteps env o relationship attr =
      if relationship && (attr.lookup "value".toList).isNone then some attr
      else match (untilMd o relationship attr).lookup "md".toList with
        | none => some (untilMd o relationship attr)
        | some md => (metadatasFix env (childrenOf md)).bind fun (metadatas, done) =>
          if done then some (removeFirst "md" (untilMd o relationship attr) ++ metadatas)
          else some (changeFirst "md" (fun _ => .object metadatas)
            (untilMd o relationship attr)) := rfl

theorem lookup_untilMd (hk : ∀ name ∈ touchedNames, k ≠ name.toList) (relationship : Bool) :
    (untilMd o relationship attr).lookup k = attr.lookup k := by
  unfold untilMd
  rw [show ∀ ms : Members, removeFirst "mdNames" ms = kjChildRemove ms "mdNames".toList from
      fun _ => rfl, lookup_kjChildRemove_ne (hk _ (by decide)),
    lookup_dateField (hk _ (by decide)) (hk _ (by decide)),
    lookup_dateField (hk _ (by decide)) (hk _ (by decide))]
  split
  · exact lookup_renameFirst (hk _ (by decide)) (hk _ (by decide))
  · rfl

theorem datamodelAttributeFix_spec {type : Text}
    (htype : attr.lookup "type".toList = some (.string type))
    (hmd : ∀ md ∈ attr.lookup "md".toList, ∀ m ∈ childrenOf md, m.2 ≠ .object []) :
    ∃ fixed, datamodelAttributeFix env o attr = some fixed ∧
      fixed.lookup "type".toList = some (.string type) := by
  unfold datamodelAttributeFix
  rw [htype]
  simp only
  rw [datamodelSteps_eq]
  have htouched : ∀ name ∈ touchedNames, "type".toList ≠ name.toList := fun name hname =>
    toList_ne (by revert name hname; decide)
  have htouched' : ∀ name ∈ touchedNames, "md".toList ≠ name.toList := fun name hname =>
    toList_ne (by revert name hname; decide)
  have hmdne : "type".toList ≠ "md".toList := toList_ne (by decide)
  generalize (type == "Relationship".toList) = relationship
  split
  · exact ⟨attr, rfl, htype⟩
  have htype' : (untilMd o relationship attr).lookup "type".toList = some (.string type) :=
    (lookup_untilMd htouched relationship).trans htype
  rw [lookup_untilMd htouched']
  cases hlookup : attr.lookup "md".toList with
  | none => exact ⟨_, rfl, htype'⟩
  | some md =>
    obtain ⟨⟨metadatas, done⟩, hfixed⟩ := metadatasFix_isSome env (hmd md hlookup)
    simp only [hfixed, bind_some]
    split
    · refine ⟨_, rfl, ?_⟩
      rw [lookup_append, show ∀ ms : Members, removeFirst "md" ms =
        kjChildRemove ms "md".toList from fun _ => rfl, lookup_kjChildRemove_ne hmdne, htype',
        some_or]
    · exact ⟨_, rfl, by rw [lookup_changeFirst, if_neg hmdne, htype']⟩

theorem defaultInstance_spec (env : DateEnv) (o : Options) {type : Text}
    (htype : attr.lookup "type".toList = some (.string type))
    (hmd : ∀ md ∈ attr.lookup "md".toList, ∀ m ∈ childrenOf md, m.2 ≠ .object []) :
    datamodelPass env o attr = some (defaultInstance env o attr) ∧
      (defaultInstance env o attr).lookup "type".toList = some (.string type) := by
  have hfixed : ∃ fixed, datamodelPass env o attr = some fixed ∧
      fixed.lookup "type".toList = some (.string type) := by
    unfold datamodelPass
    split
    · exact ⟨attr, rfl, htype⟩
    · exact datamodelAttributeFix_spec htype hmd
  obtain ⟨fixed, hfixed, htype'⟩ := hfixed
  unfold defaultInstance
  rw [hfixed, getD_some]
  exact ⟨rfl, htype'⟩

variable {more : Members}

theorem instanceValue_cons (m : Text × KjNode) (members : Members) :
    instanceValue (m :: members) =
      if valueNames.contains m.1 then some m.2 else instanceValue members := by
  unfold instanceValue
  rw [List.find?_cons]
  cases valueNames.contains m.1 <;> rfl

theorem instanceValue_append : instanceValue (members ++ more) =
    (instanceValue members).or (instanceValue more) := by
  unfold instanceValue
  rw [List.find?_append]
  cases members.find? fun m => valueNames.contains m.1 <;> rfl

theorem instanceValue_map {f : KjNode → KjNode} :
    instanceValue (members.map fun m => (m.1, f m.2)) = (instanceValue members).map f := by
  induction members with
  | nil => rfl
  | cons m members ih =>
    rw [map_cons, instanceValue_cons, instanceValue_cons, ih]
    split <;> rfl

theorem instanceValue_renameFirst
    (h : valueNames.contains name.toList = valueNames.contains newName.toList) :
    instanceValue (renameFirst name newName members) = instanceValue members := by
  induction members with
  | nil => rfl
  | cons m members ih =>
    unfold renameFirst
    split
    · rename_i hm
      rw [instanceValue_cons, instanceValue_cons, eq_of_beq hm, h]
    · rw [instanceValue_cons, instanceValue_cons, ih]

theorem instanceValue_changeFirst_ne {change : KjNode → KjNode}
    (h : valueNames.contains name.toList = false) :
    instanceValue (changeFirst name change members) = instanceValue members := by
  induction members with
  | nil => rfl
  | cons m members ih =>
    unfold changeFirst
    split
    · rename_i hm
      rw [instanceValue_cons, instanceValue_cons, eq_of_beq hm, h]
      rfl
    · rw [instanceValue_cons, instanceValue_cons, ih]

theorem instanceValue_removeFirst (h : valueNames.contains name.toList = false) :
    instanceValue (removeFirst name members) = instanceValue members := by
  unfold removeFirst kjChildRemove
  induction members with
  | nil => rfl
  | cons m members ih =>
    by_cases hm : m.1 = name.toList
    · rw [eraseP_cons_of_pos (by simpa using hm), instanceValue_cons, hm, h]
      rfl
    · rw [eraseP_cons_of_neg (by simpa using hm), instanceValue_cons, instanceValue_cons, ih]

theorem instanceValue_dateField (h : valueNames.contains name.toList = false)
    (h' : valueNames.contains newName.toList = false) :
    instanceValue (dateField o name newName members) = instanceValue members := by
  unfold dateField
  split
  · exact instanceValue_renameFirst (h.trans h'.symm)
  · exact instanceValue_removeFirst h

theorem instanceValue_untilMd (o : Options) (members : Members) (relationship : Bool) :
    instanceValue (untilMd o relationship members) = instanceValue members := by
  unfold untilMd
  rw [instanceValue_removeFirst rfl, instanceValue_dateField rfl rfl,
    instanceValue_dateField rfl rfl]
  split
  · exact instanceValue_renameFirst rfl
  · rfl

theorem instanceValue_datamodelSteps {relationship : Bool} {fixed : Members}
    (hvalue : (instanceValue members).isSome)
    (h : datamodelSteps env o relationship members = some fixed) :
    instanceValue fixed = instanceValue members := by
  rw [datamodelSteps_eq] at h
  have huntil := instanceValue_untilMd o members relationship
  split at h
  · rw [← some.inj h]
  split at h
  · rw [← some.inj h, huntil]
  obtain ⟨⟨metadatas, done⟩, -, h⟩ := bind_eq_some_iff.mp h
  simp only at h
  split at h
  · rw [← some.inj h, instanceValue_append, instanceValue_removeFirst rfl, huntil,
      or_of_isSome hvalue]
  · rw [← some.inj h, instanceValue_changeFirst_ne rfl, huntil]

theorem instanceValue_datamodelPass {fixed : Members} (hvalue : (instanceValue members).isSome)
    (h : datamodelPass env o members = some fixed) :
    instanceValue fixed = instanceValue members := by
  unfold datamodelPass datamodelAttributeFix at h
  split at h
  · rw [← some.inj h]
  split at h
  · exact instanceValue_datamodelSteps hvalue h
  · rw [← some.inj h]

theorem WellFormed.instanceValue_isSome {inst : Members} (h : WellFormed inst) :
    (instanceValue inst).isSome := by
  unfold instanceValue
  rw [isSome_map, List.find?_isSome]
  rcases h.value with h | h
  all_goals
    obtain ⟨value, hvalue⟩ := isSome_iff_exists.mp h
    exact ⟨_, mem_of_lookup hvalue, rfl⟩

def slotNodes (slots : List (Text × List KjNode)) : Members :=
  slots.map fun s => (s.1, .array s.2)

variable {attrs extra : Members} {slots : List (Text × List KjNode)} {items : List KjNode}

theorem lookup_slotNodes : (slotNodes slots).lookup k = (slots.lookup k).map .array := by
  unfold slotNodes
  induction slots with
  | nil => rfl
  | cons s slots ih =>
    rw [map_cons, lookup_cons, lookup_cons, ih]
    cases k == s.1 <;> rfl

theorem put_slotNodes (h : slots.lookup k = some items) (items' : List KjNode) :
    put k (.array items') (slotNodes slots ++ extra) =
      slotNodes (put k items' slots) ++ extra := by
  unfold slotNodes
  induction slots with
  | nil => cases h
  | cons s slots ih =>
    by_cases hk : s.1 = k
    · simp [put, hk]
    rw [lookup_cons, beq_false_of_ne (Ne.symm hk)] at h
    simp only [map_cons, cons_append, put, beq_false_of_ne hk, Bool.false_eq_true,
      if_false]
    rw [ih h]

def withDefaults (attrs : Members) (slots : List (Text × List KjNode)) :
    List (Text × List KjNode) :=
  slots.map fun s => (s.1, (attrs.lookup s.1).toList ++ s.2)

theorem withDefaults_put {attr : Text × KjNode} (hslots : (slots.map Prod.fst).Nodup)
    (h : slots.lookup attr.1 = some items) (hattrs : attrs.lookup attr.1 = none) :
    withDefaults attrs (put attr.1 (attr.2 :: items) slots) =
      withDefaults (attr :: attrs) slots := by
  unfold withDefaults
  induction slots with
  | nil => cases h
  | cons s slots ih =>
    rw [map_cons, nodup_cons] at hslots
    by_cases hk : s.1 = attr.1
    · rw [lookup_cons, hk, beq_self_eq_true] at h
      cases h
      have hfirst : (attr :: attrs).lookup attr.1 = some attr.2 := by
        rw [lookup_cons, beq_self_eq_true]
      simp only [put, hk, beq_self_eq_true, if_true, map_cons, hattrs, hfirst,
        toList_none, nil_append, toList_some, singleton_append]
      refine congrArg (List.cons _) (map_congr_left fun s' hs' => ?_)
      have hne : s'.1 ≠ attr.1 := fun e => hslots.1 (hk ▸ e ▸ mem_map_of_mem hs')
      rw [lookup_cons, beq_false_of_ne hne]
    · rw [lookup_cons, beq_false_of_ne (Ne.symm hk)] at h
      simp only [put, beq_false_of_ne hk, Bool.false_eq_true, if_false, map_cons]
      rw [ih hslots.2 h, lookup_cons, beq_false_of_ne hk]

theorem withDefaults_cons_of_notMem {attr : Text × KjNode} (h : slots.lookup attr.1 = none) :
    withDefaults (attr :: attrs) slots = withDefaults attrs slots := by
  refine map_congr_left fun s hs => ?_
  have hne : s.1 ≠ attr.1 := by
    intro e
    have hnone := lookup_eq_none_iff.mp h s hs
    simp [e] at hnone
  rw [lookup_cons, beq_false_of_ne hne]

theorem put_names (h : slots.lookup k = some items) (items' : List KjNode) :
    (put k items' slots).map Prod.fst = slots.map Prod.fst := by
  induction slots with
  | nil => cases h
  | cons s slots ih =>
    by_cases hk : s.1 = k
    · simp [put, hk]
    · rw [lookup_cons, beq_false_of_ne (Ne.symm hk)] at h
      simp only [put, beq_false_of_ne hk, Bool.false_eq_true, if_false, map_cons, ih h]

theorem incorporate_eq (hattrs : ((attrs ++ extra).map Prod.fst).Nodup)
    (hslots : (slots.map Prod.fst).Nodup) :
    incorporate attrs (slotNodes slots ++ extra) =
      some (slotNodes (withDefaults attrs slots) ++ extra ++
        attrs.filter fun a => !(slots.map Prod.fst).contains a.1) := by
  induction attrs generalizing slots extra with
  | nil =>
    have hnone : withDefaults [] slots = slots := by
      exact (map_congr_left fun s _ => rfl).trans (map_id slots)
    rw [incorporate, hnone, filter_nil, append_nil]
  | cons attr attrs ih =>
    rw [cons_append, map_cons, nodup_cons] at hattrs
    have hfresh : ∀ p ∈ attrs ++ extra, attr.1 ≠ p.1 := fun p hp e =>
      hattrs.1 (e ▸ mem_map_of_mem (f := Prod.fst) hp)
    have hnone : ∀ ms : Members, (∀ p ∈ ms, p ∈ attrs ++ extra) → ms.lookup attr.1 = none :=
      fun ms hms => lookup_eq_none_iff.mpr fun p hp => by
        simpa using hfresh p (hms p hp)
    rw [incorporate, lookup_append, lookup_slotNodes,
      hnone extra fun p hp => mem_append_right _ hp, or_none]
    cases hslot : slots.lookup attr.1 with
    | some items =>
      simp only [map_some, kjChildPrepend, bind_some]
      rw [put_slotNodes hslot, ih hattrs.2 (by rw [put_names hslot]; exact hslots),
        withDefaults_put hslots hslot (hnone attrs fun p hp => mem_append_left _ hp),
        put_names hslot, filter_cons_of_neg]
      have hmem := mem_map_of_mem (f := Prod.fst) (mem_of_lookup hslot)
      simpa using hmem
    | none =>
      have hmem : attr.1 ∉ slots.map Prod.fst := by
        intro hmem
        obtain ⟨s, hs, he⟩ := mem_map.mp hmem
        have hne := lookup_eq_none_iff.mp hslot s hs
        simp [he] at hne
      have hperm : ((attrs ++ (extra ++ [attr])).map Prod.fst).Nodup := by
        have hp : (attrs ++ (extra ++ [attr])).Perm (attr :: (attrs ++ extra)) := by
          rw [← append_assoc]
          exact perm_append_singleton attr (attrs ++ extra)
        exact (hp.map Prod.fst).nodup_iff.mpr (nodup_cons.mpr hattrs)
      simp only [map_none]
      rw [append_assoc, ih hperm hslots, withDefaults_cons_of_notMem hslot,
        filter_cons_of_pos (by simpa using hmem)]
      simp

variable {s : Filtered}

def assembledOf (env : DateEnv) (o : Options) (dbAttrs dbDataSets : Members) (n : Text) : KjNode :=
  let attr := (dbAttrs.lookup n).bind (attrFix env o)
  match dbDataSets.lookup n with
  | some (.array items) => .array (attr.toList ++ items)
  | _ => attr.getD .null

def present (s : Filtered) (n : Text) : Bool :=
  (s.dbAttrs.lookup n).isSome || (s.dbDataSets.lookup n).isSome

structure Loaded (env : DateEnv) (o : Options) (s : Filtered) : Prop where
  attrsOnce : (s.dbAttrs.map Prod.fst).Nodup
  dataSetsOnce : (s.dbDataSets.map Prod.fst).Nodup
  fixable : ∀ m ∈ s.dbAttrs, ∃ node, attrFix env o m.2 = some node
  arrays : ∀ m ∈ s.dbDataSets, ∃ items, m.2 = .array items

theorem Loaded.remove (h : Loaded env o s) {dbAttrs dbDataSets attrTree : Members}
    (hattrs : dbAttrs.Sublist s.dbAttrs) (hdataSets : dbDataSets.Sublist s.dbDataSets) :
    Loaded env o ⟨dbAttrs, dbDataSets, attrTree⟩ :=
  ⟨h.attrsOnce.sublist (hattrs.map _), h.dataSetsOnce.sublist (hdataSets.map _),
    fun m hm => h.fixable m (hattrs.subset hm), fun m hm => h.arrays m (hdataSets.subset hm)⟩

theorem lookup_absent {n : Text} (h : members.lookup n = none) :
    members.lookup k = if k = n then none else members.lookup k := by
  split
  · rename_i hk
    rw [hk, h]
  · rfl

theorem filterStep_spec (h : Loaded env o s) (n : Text) :
    ∃ s', filterStep env o s n = some s' ∧ Loaded env o s' ∧
      (∀ k, s'.dbAttrs.lookup k = if k = n then none else s.dbAttrs.lookup k) ∧
      (∀ k, s'.dbDataSets.lookup k = if k = n then none else s.dbDataSets.lookup k) ∧
      s'.attrTree = s.attrTree ++
        if present s n then [(n, assembledOf env o s.dbAttrs s.dbDataSets n)] else [] := by
  have hkeep : ∀ ms : Members, (kjChildRemove ms n).Sublist ms := fun ms => eraseP_sublist
  unfold filterStep assembledOf present
  cases hattr : s.dbAttrs.lookup n with
  | some attr =>
    obtain ⟨fixed, hfixed⟩ := h.fixable _ (mem_of_lookup hattr)
    cases hdataset : s.dbDataSets.lookup n with
    | some dataset =>
      obtain ⟨items, hitems⟩ := h.arrays _ (mem_of_lookup hdataset)
      obtain rfl : dataset = .array items := hitems
      simp only [hfixed, bind_some, kjChildPrepend, map_some]
      exact ⟨_, rfl, h.remove (hkeep _) (hkeep _), fun k => lookup_kjChildRemove h.attrsOnce,
        fun k => lookup_kjChildRemove h.dataSetsOnce, rfl⟩
    | none =>
      simp only [hfixed, map_some, bind_some]
      exact ⟨_, rfl, h.remove (hkeep _) (List.Sublist.refl _),
        fun k => lookup_kjChildRemove h.attrsOnce, fun k => lookup_absent hdataset, rfl⟩
  | none =>
    cases hdataset : s.dbDataSets.lookup n with
    | some dataset =>
      obtain ⟨items, hitems⟩ := h.arrays _ (mem_of_lookup hdataset)
      obtain rfl : dataset = .array items := hitems
      exact ⟨_, rfl, h.remove (List.Sublist.refl _) (hkeep _), fun k => lookup_absent hattr,
        fun k => lookup_kjChildRemove h.dataSetsOnce, rfl⟩
    | none =>
      exact ⟨s, rfl, h, fun k => lookup_absent hattr, fun k => lookup_absent hdataset,
        (append_nil _).symm⟩

theorem assembledOf_congr {dbAttrs dbDataSets dbAttrs' dbDataSets' : Members} {n : Text}
    (hattrs : dbAttrs'.lookup n = dbAttrs.lookup n)
    (hdataSets : dbDataSets'.lookup n = dbDataSets.lookup n) :
    assembledOf env o dbAttrs' dbDataSets' n = assembledOf env o dbAttrs dbDataSets n := by
  unfold assembledOf
  rw [hattrs, hdataSets]

theorem filter_spec (h : Loaded env o s) (attrs : List Text) :
    ∃ (s' : Filtered) (names : List Text), attrs.foldlM (filterStep env o) s = some s' ∧
      s'.attrTree = s.attrTree ++
        names.map (fun n => (n, assembledOf env o s.dbAttrs s.dbDataSets n)) ∧
      names.Nodup ∧ ∀ n, n ∈ names ↔ n ∈ attrs ∧ present s n = true := by
  induction attrs generalizing s with
  | nil => exact ⟨s, [], rfl, (append_nil _).symm, nodup_nil, by simp⟩
  | cons n attrs ih =>
    obtain ⟨s₁, hstep, hloaded, hattrs, hdataSets, htree⟩ := filterStep_spec h n
    obtain ⟨s', names, hfold, htree', hnodup, hnames⟩ := ih hloaded
    have hpresent : ∀ k, present s₁ k = true ↔ k ≠ n ∧ present s k = true := by
      intro k
      unfold present
      rw [hattrs, hdataSets]
      by_cases hk : k = n <;> simp [hk]
    have hsame : names.map (fun k => (k, assembledOf env o s₁.dbAttrs s₁.dbDataSets k)) =
        names.map fun k => (k, assembledOf env o s.dbAttrs s.dbDataSets k) := by
      refine map_congr_left fun k hk => ?_
      have hne : k ≠ n := ((hpresent k).mp ((hnames k).mp hk).2).1
      exact congrArg (k, ·) (assembledOf_congr ((hattrs k).trans (if_neg hne))
        ((hdataSets k).trans (if_neg hne)))
    refine ⟨s', (if present s n then [n] else []) ++ names, ?_, ?_, ?_, ?_⟩
    · rw [foldlM_cons, hstep]
      exact hfold
    · rw [htree', htree, hsame, append_assoc, map_append]
      split <;> rfl
    · split
      · refine nodup_cons.mpr ⟨fun hn => ?_, hnodup⟩
        exact ((hpresent n).mp ((hnames n).mp hn).2).1 rfl
      · exact hnodup
    · intro k
      rw [mem_append, hnames, hpresent, mem_cons]
      by_cases hk : k = n
      · subst hk
        by_cases hp : present s k = true <;> simp [hp]
      have hnot : k ∉ (if present s n then [n] else []) := by
        split <;> simp [hk]
      simp [hk, hnot]

variable {e : StoredInstances} {n : Text}

def attrNodes (attrs : List (Text × Members)) : Members := attrs.map fun a => (a.1, .object a.2)

def instanceNodes (slots : List (Text × List Members)) : List (Text × List KjNode) :=
  slots.map fun s => (s.1, s.2.map .object)

def assembled (env : DateEnv) (o : Options) (e : StoredInstances) (n : Text) : KjNode :=
  let nodes := (instances env o e n).map .object
  if (e.slots.lookup n).isSome then .array nodes else nodes.headD .null

theorem lookup_attrNodes {attrs : List (Text × Members)} :
    (attrNodes attrs).lookup n = (attrs.lookup n).map .object := by
  unfold attrNodes
  induction attrs with
  | nil => rfl
  | cons a attrs ih =>
    rw [map_cons, lookup_cons, lookup_cons, ih]
    cases n == a.1 <;> rfl

theorem lookup_instanceNodes {slots : List (Text × List Members)} :
    (instanceNodes slots).lookup n = (slots.lookup n).map fun insts => insts.map .object := by
  unfold instanceNodes
  induction slots with
  | nil => rfl
  | cons s slots ih =>
    rw [map_cons, lookup_cons, lookup_cons, ih]
    cases n == s.1 <;> rfl

theorem attrNodes_names (attrs : List (Text × Members)) :
    (attrNodes attrs).map Prod.fst = attrs.map Prod.fst := by
  unfold attrNodes
  rw [List.map_map]
  rfl

theorem slotNodes_names (slots : List (Text × List Members)) :
    (slotNodes (instanceNodes slots)).map Prod.fst = slots.map Prod.fst := by
  unfold slotNodes instanceNodes
  rw [List.map_map, List.map_map]
  rfl

theorem datamodelPass_stored (env : DateEnv) (o : Options) {a : Text × Members} (ha : a ∈ e.attrs) :
    datamodelPass env o a.2 = some (defaultInstance env o a.2) := by
  obtain ⟨type, htype⟩ := (e.attrsWellFormed a ha).type
  exact (defaultInstance_spec env o htype (e.mdFilled a ha)).1

theorem assembledOf_stored :
    assembledOf env o (attrNodes e.attrs) (slotNodes (instanceNodes e.slots)) n =
      assembled env o e n := by
  have hattr : ((attrNodes e.attrs).lookup n).bind (attrFix env o) =
      (e.attrs.lookup n).map fun attr => .object (defaultInstance env o attr) := by
    rw [lookup_attrNodes]
    cases hlookup : e.attrs.lookup n with
    | none => rfl
    | some attr =>
      have hpass := datamodelPass_stored env o (mem_of_lookup hlookup)
      rw [map_some, bind_some, attrFix, hpass]
      rfl
  unfold assembledOf assembled instances
  rw [hattr, lookup_slotNodes, lookup_instanceNodes]
  cases e.slots.lookup n with
  | some insts => cases e.attrs.lookup n <;> simp
  | none => cases e.attrs.lookup n <;> rfl

theorem present_stored : present ⟨attrNodes e.attrs, slotNodes (instanceNodes e.slots), []⟩ n =
    ((e.attrs.lookup n).isSome || (e.slots.lookup n).isSome) := by
  unfold present
  rw [lookup_attrNodes, lookup_slotNodes, lookup_instanceNodes, isSome_map,
    isSome_map, isSome_map]

theorem isSome_lookup_iff {κ : Type} {fields : List (Text × κ)} :
    (fields.lookup n).isSome ↔ n ∈ fields.map Prod.fst := by
  rw [List.lookup_isSome_iff, List.mem_map]
  constructor
  · rintro ⟨f, hf, hn⟩
    exact ⟨f, hf, (eq_of_beq hn).symm⟩
  · rintro ⟨f, hf, rfl⟩
    exact ⟨f, hf, beq_self_eq_true _⟩

theorem mem_selected {filter : List Text} (hfilter : filter ≠ []) :
    n ∈ selected filter e ↔ n ∈ filter ∧
      ((e.attrs.lookup n).isSome || (e.slots.lookup n).isSome) = true := by
  unfold selected
  rw [if_neg hfilter, mem_filter, mem_dedup, contains_iff_mem, mem_append,
    mem_filter, Bool.or_eq_true, isSome_lookup_iff, isSome_lookup_iff]
  by_cases hslot : n ∈ e.slots.map Prod.fst <;> simp [hslot]

theorem slots_once (e : StoredInstances) : (e.slots.map Prod.fst).Nodup := e.datasetsOnce

def fixedNodes (env : DateEnv) (o : Options) (attrs : List (Text × Members)) : Members :=
  attrs.map fun a => (a.1, .object (defaultInstance env o a.2))

theorem fixed_stored :
    (attrNodes e.attrs).mapM (fixed env o) = some (fixedNodes env o e.attrs) := by
  refine Fallible.mapM_eq_some.mpr ?_
  unfold attrNodes fixedNodes
  rw [forall₂_map_left_iff, forall₂_map_right_iff, forall₂_same]
  intro a ha
  simp only [fixed, attrFix, datamodelPass_stored env o ha, map_some]

theorem lookup_fixedNodes {attrs : List (Text × Members)} : (fixedNodes env o attrs).lookup n =
    (attrs.lookup n).map fun attr => .object (defaultInstance env o attr) := by
  unfold fixedNodes
  induction attrs with
  | nil => rfl
  | cons a attrs ih =>
    rw [map_cons, lookup_cons, lookup_cons, ih]
    cases n == a.1 <;> rfl

theorem attrTree_all (env : DateEnv) (o : Options) (e : StoredInstances) :
    attrTree env o [] (attrNodes e.attrs) (slotNodes (instanceNodes e.slots)) =
      some ((selected [] e).map fun n => (n, assembled env o e n)) := by
  have hnames : ((fixedNodes env o e.attrs ++ []).map Prod.fst).Nodup := by
    rw [List.append_nil, fixedNodes, List.map_map]
    exact e.attrsOnce
  have hslotNames : (instanceNodes e.slots).map Prod.fst = e.slots.map Prod.fst := by
    rw [instanceNodes, List.map_map]
    rfl
  have hslots : ((instanceNodes e.slots).map Prod.fst).Nodup := hslotNames ▸ slots_once e
  have htree := incorporate_eq hnames hslots
  rw [append_nil, append_nil, hslotNames] at htree
  have hincorporate : (if slotNodes (instanceNodes e.slots) = [] then
      some (fixedNodes env o e.attrs)
      else incorporate (fixedNodes env o e.attrs) (slotNodes (instanceNodes e.slots))) =
        incorporate (fixedNodes env o e.attrs) (slotNodes (instanceNodes e.slots)) := by
    split
    · rename_i hempty
      have hnone : e.slots = [] := by
        simpa [slotNodes, instanceNodes] using hempty
      rw [htree, hnone]
      simp [slotNodes, instanceNodes, withDefaults]
    · rfl
  unfold attrTree
  rw [if_pos rfl, fixed_stored, bind_some, hincorporate, htree]
  unfold selected
  rw [if_pos rfl, map_append]
  refine congrArg some (congrArg₂ _ ?_ ?_)
  · unfold slotNodes withDefaults instanceNodes
    rw [List.map_map, List.map_map, List.map_map]
    refine List.map_congr_left fun s hs => Prod.ext rfl ?_
    have hlookup : e.slots.lookup s.1 = some s.2 := lookup_of_mem (slots_once e) hs
    change KjNode.array (((fixedNodes env o e.attrs).lookup s.1).toList ++ s.2.map .object) =
      assembled env o e s.1
    unfold assembled instances
    rw [hlookup, lookup_fixedNodes]
    cases e.attrs.lookup s.1 <;> simp
  · rw [List.filter_map, List.map_map, fixedNodes, List.filter_map]
    refine List.map_congr_left fun a ha => Prod.ext rfl ?_
    obtain ⟨hmem, hnot⟩ := List.mem_filter.mp ha
    have hlookup : e.attrs.lookup a.1 = some a.2 := lookup_of_mem e.attrsOnce hmem
    have hslot : e.slots.lookup a.1 = none := by
      rw [← not_isSome_iff_eq_none, isSome_lookup_iff]
      simpa using hnot
    change KjNode.object (defaultInstance env o a.2) = assembled env o e a.1
    unfold assembled instances
    rw [hslot, hlookup]
    rfl

theorem attrTree_spec (env : DateEnv) (o : Options) (e : StoredInstances) (filter : List Text) :
    ∃ names : List Text, names.Perm (selected filter e) ∧
      attrTree env o filter (attrNodes e.attrs) (slotNodes (instanceNodes e.slots)) =
        some (names.map fun n => (n, assembled env o e n)) := by
  by_cases hfilter : filter = []
  · subst hfilter
    exact ⟨_, List.Perm.refl _, attrTree_all env o e⟩
  have hloaded : Loaded env o ⟨attrNodes e.attrs, slotNodes (instanceNodes e.slots), []⟩ := by
    refine ⟨?_, ?_, ?_, ?_⟩
    · change ((attrNodes e.attrs).map Prod.fst).Nodup
      rw [attrNodes_names]
      exact e.attrsOnce
    · change ((slotNodes (instanceNodes e.slots)).map Prod.fst).Nodup
      rw [slotNodes_names]
      exact slots_once e
    · intro m hm
      obtain ⟨a, ha, rfl⟩ := mem_map.mp hm
      exact ⟨_, by rw [attrFix, datamodelPass_stored env o ha, map_some]⟩
    · intro m hm
      obtain ⟨s, -, rfl⟩ := mem_map.mp hm
      exact ⟨s.2, rfl⟩
  obtain ⟨s', names, hfold, htree, hnodup, hnames⟩ := filter_spec hloaded filter
  refine ⟨names, ?_, ?_⟩
  · have hselected : (selected filter e).Nodup := by
      unfold selected
      rw [if_neg hfilter]
      exact (nodup_dedup filter).filter _
    rw [perm_ext_iff_of_nodup hnodup hselected]
    intro n
    rw [hnames, mem_selected hfilter, present_stored]
  · unfold attrTree
    rw [if_neg hfilter, hfold, map_some, htree]
    refine congrArg some ?_
    exact map_congr_left fun n _ => congrArg (n, ·) assembledOf_stored

variable {inst : Members}

theorem changeFirst_eq_self (name : String) {change : KjNode → KjNode}
    (h : ∀ node ∈ members.lookup name.toList, change node = node) :
    changeFirst name change members = members := by
  induction members with
  | nil => rfl
  | cons m members ih =>
    unfold changeFirst
    by_cases hm : m.1 = name.toList
    · have hlookup : (m :: members).lookup name.toList = some m.2 := by
        rw [lookup_cons, hm, beq_self_eq_true]
      rw [if_pos (by simpa using hm), h m.2 hlookup]
    · rw [lookup_cons, beq_false_of_ne (Ne.symm hm)] at h
      rw [if_neg (by simpa using hm), ih h]

theorem removeFirst_sublist : (removeFirst name members).Sublist members := List.eraseP_sublist

theorem removeFirst_eq_self_iff :
    removeFirst name members = members ↔ members.lookup name.toList = none := by
  rw [lookup_eq_none_iff]
  constructor
  · intro h p hp
    by_contra hname
    have hany : (p.1 == name.toList) = true := by
      rw [Bool.not_eq_true, bne_eq_false_iff_eq] at hname
      exact beq_iff_eq.mpr hname.symm
    have hlength := length_eraseP_of_mem (p := (·.1 == name.toList)) hp hany
    have hpos := length_pos_of_mem hp
    rw [show members.eraseP (·.1 == name.toList) = members from h] at hlength
    omega
  · intro h
    refine eraseP_of_forall_not fun p hp hname => ?_
    have hne := h p hp
    rw [eq_of_beq hname] at hne
    simp at hne

theorem timestampToString_eq_self_iff (env : DateEnv) {node : KjNode} :
    timestampToString env node = node ↔ (∀ x, node ≠ .float x) ∧ ∀ i, node ≠ .int i := by
  unfold timestampToString
  split <;> simp_all

theorem stampsFix_eq_self_iff : stampsFix env o members = members ↔
    ∀ name ∈ ["createdAt", "modifiedAt"], ∀ node ∈ members.lookup name.toList,
      o.sysAttrs = true ∧ (∀ x, node ≠ .float x) ∧ ∀ i, node ≠ .int i := by
  have hne : "createdAt".toList ≠ "modifiedAt".toList := toList_ne (by decide)
  unfold stampsFix
  simp only [forall_mem_cons, not_mem_nil, false_imp_iff, implies_true, and_true]
  split
  · next hsys =>
    simp only [hsys, true_and, ← timestampToString_eq_self_iff env]
    constructor
    · intro h
      have hlookup : ∀ k : Text, (changeFirst "modifiedAt" (timestampToString env)
          (changeFirst "createdAt" (timestampToString env) members)).lookup k =
            members.lookup k := fun k => congrArg (List.lookup k) h
      constructor
      · intro node hnode
        have hfirst := hlookup "createdAt".toList
        rw [lookup_changeFirst, if_neg hne, lookup_changeFirst, if_pos rfl, hnode] at hfirst
        exact some.inj hfirst
      · intro node hnode
        have hsecond := hlookup "modifiedAt".toList
        rw [lookup_changeFirst, if_pos rfl, lookup_changeFirst, if_neg hne.symm, hnode] at hsecond
        exact some.inj hsecond
    · rintro ⟨hcreated, hmodified⟩
      rw [changeFirst_eq_self "createdAt" hcreated, changeFirst_eq_self "modifiedAt" hmodified]
  · next hsys =>
    have habsent : ∀ {k : Text}, (∀ node ∈ members.lookup k, o.sysAttrs = true ∧
        (∀ x, node ≠ KjNode.float x) ∧ ∀ i, node ≠ KjNode.int i) ↔ members.lookup k = none := by
      intro k
      cases hlookup : members.lookup k with
      | none => simp
      | some node => simp [hsys]
    rw [habsent, habsent]
    constructor
    · intro h
      have hsub : (removeFirst "modifiedAt" (removeFirst "createdAt" members)).Sublist
          (removeFirst "createdAt" members) := removeFirst_sublist
      have hinner : removeFirst "createdAt" members = members :=
        removeFirst_sublist.eq_of_length_le (by rw [h] at hsub; exact hsub.length_le)
      rw [hinner] at h
      exact ⟨removeFirst_eq_self_iff.mp hinner, removeFirst_eq_self_iff.mp h⟩
    · rintro ⟨hcreated, hmodified⟩
      rw [removeFirst_eq_self_iff.mpr hcreated, removeFirst_eq_self_iff.mpr hmodified]

theorem lookup_stampsFix (hc : k ≠ "createdAt".toList) (hm : k ≠ "modifiedAt".toList) :
    (stampsFix env o members).lookup k = members.lookup k := by
  unfold stampsFix
  split
  · rw [lookup_changeFirst, if_neg hm, lookup_changeFirst, if_neg hc]
  · exact (lookup_kjChildRemove_ne hm).trans (lookup_kjChildRemove_ne hc)

theorem instanceValue_stampsFix (env : DateEnv) (o : Options) (members : Members) :
    instanceValue (stampsFix env o members) = instanceValue members := by
  unfold stampsFix
  split
  · rw [instanceValue_changeFirst_ne rfl, instanceValue_changeFirst_ne rfl]
  · rw [instanceValue_removeFirst rfl, instanceValue_removeFirst rfl]

theorem instanceValue_shown_iff (hkv : o.keyValues = false) {shown : KjNode}
    (h : presentationAttributeFix env o inst = some shown) :
    instanceValue (childrenOf shown) = instanceValue inst ↔ Undated o inst := by
  have hshown : instanceValue (childrenOf shown) =
      (instanceValue inst).map (onMembers (stampsFix env o)) := by
    unfold presentationAttributeFix at h
    rw [if_neg (by simp [hkv]), some.injEq] at h
    subst h
    rw [← instanceValue_stampsFix env o inst]
    exact instanceValue_map
  rw [hshown]
  unfold Undated
  cases instanceValue inst with
  | none => simp
  | some value =>
    cases value with
    | object members =>
      simp only [map_some, onMembers, some.injEq, KjNode.object.injEq,
        stampsFix_eq_self_iff, forall_eq']
    | _ => simp [onMembers]

/-- What the presentation needs of an instance. -/
structure Presentable (o : Options) (inst : Members) : Prop where
  type : ∃ type, inst.lookup "type".toList = some (.string type)
  value : o.keyValues = true → (bareValue inst).isSome

theorem WellFormed.presentable (h : WellFormed inst) : Presentable o inst :=
  ⟨h.type, fun _ => by
    unfold bareValue
    rw [isSome_or, Bool.or_eq_true]
    exact h.value⟩

theorem instances_presentable (env : DateEnv) (o : Options) (e : StoredInstances) (n : Text) :
    ∀ inst ∈ instances env o e n, Presentable o inst := by
  intro inst hinst
  unfold instances at hinst
  rw [mem_append] at hinst
  rcases hinst with hdefault | hslot
  · cases hlookup : e.attrs.lookup n with
    | none => simp [hlookup] at hdefault
    | some attr =>
      rw [hlookup, map_some, toList_some, mem_singleton] at hdefault
      subst hdefault
      have ha := mem_of_lookup hlookup
      have hwell := e.attrsWellFormed _ ha
      obtain ⟨type, htype⟩ := hwell.type
      obtain ⟨hpass, htype'⟩ := defaultInstance_spec env o htype (e.mdFilled _ ha)
      refine ⟨⟨type, htype'⟩, fun hkv => ?_⟩
      unfold datamodelPass at hpass
      rw [if_pos hkv] at hpass
      rw [← some.inj hpass]
      exact (hwell.presentable (o := o)).value hkv
  · cases hlookup : e.slots.lookup n with
    | none => simp [hlookup] at hslot
    | some insts =>
      rw [hlookup, getD_some] at hslot
      exact (e.datasetsWellFormed _ (mem_of_lookup hlookup) inst hslot).presentable

theorem presentationAttributeFix_keyValues (hkv : o.keyValues = true) (h : Presentable o inst) :
    presentationAttributeFix env o inst = bareValue inst := by
  obtain ⟨type, htype⟩ := h.type
  unfold presentationAttributeFix
  rw [if_pos hkv, htype]
  rfl

theorem Presentable.shown (env : DateEnv) (h : Presentable o inst) :
    ∃ shown, presentationAttributeFix env o inst = some shown ∧
      (o.keyValues = false → ∃ m members, shown = .object (m :: members)) := by
  by_cases hkv : o.keyValues = true
  · obtain ⟨shown, hshown⟩ := isSome_iff_exists.mp (h.value hkv)
    exact ⟨shown, (presentationAttributeFix_keyValues hkv h).trans hshown,
      fun hnot => absurd hkv (by simp [hnot])⟩
  unfold presentationAttributeFix
  rw [if_neg hkv]
  refine ⟨_, rfl, fun _ => ?_⟩
  -- the type is not taken away
  obtain ⟨type, htype⟩ := h.type
  have hstamped : (stampsFix env o inst).lookup "type".toList = some (.string type) :=
    (lookup_stampsFix (toList_ne (by decide)) (toList_ne (by decide))).trans htype
  cases hmembers : stampsFix env o inst with
  | nil => simp [hmembers] at hstamped
  | cons m members => exact ⟨_, _, rfl⟩

theorem Presentable.compacted (h : Presentable o inst) :
    Presentable o (changeFirst "value" (compactValue env.toContexts) inst) := by
  refine ⟨?_, fun hkv => ?_⟩
  · rw [lookup_changeFirst, if_neg (toList_ne (by decide))]
    exact h.type
  · have hvalue := h.value hkv
    unfold bareValue at hvalue ⊢
    rwa [lookup_changeFirst, if_pos rfl, lookup_changeFirst, if_neg (toList_ne (by decide)),
      isSome_or, isSome_map, ← isSome_or]

theorem instanceValue_compacted :
    instanceValue (changeFirst "value" (compactValue env.toContexts) inst) =
      some (.object members) ↔ instanceValue inst = some (.object members) := by
  induction inst with
  | nil => rfl
  | cons m inst ih =>
    unfold changeFirst
    split
    · rename_i hm
      have hvalue : valueNames.contains m.1 = true := by
        rw [eq_of_beq hm]
        rfl
      rw [instanceValue_cons, instanceValue_cons, if_pos hvalue, if_pos hvalue]
      cases m.2 <;> simp [compactValue]
    · rw [instanceValue_cons, instanceValue_cons]
      split
      · rfl
      · exact ih

theorem undated_compacted :
    Undated o (changeFirst "value" (compactValue env.toContexts) inst) ↔ Undated o inst := by
  unfold Undated
  simp only [instanceValue_compacted]

theorem undated_defaultInstance {a : Text × Members} (ha : a ∈ e.attrs) :
    Undated o (defaultInstance env o a.2) ↔ Undated o a.2 := by
  unfold Undated
  rw [instanceValue_datamodelPass (e.attrsWellFormed a ha).instanceValue_isSome
    (datamodelPass_stored env o ha)]

theorem instances_keyValues (hkv : o.keyValues = true) :
    instances env o e n = e.instances n := by
  have hdefault : ∀ attr, defaultInstance env o attr = attr := by
    intro attr
    unfold defaultInstance datamodelPass
    rw [if_pos hkv, getD_some]
  unfold instances StoredInstances.instances
  cases e.attrs.lookup n with
  | none => rfl
  | some attr => rw [map_some, hdefault]

theorem undated_instances_iff (env : DateEnv) : (∀ inst ∈ instances env o e n, Undated o inst) ↔
    ∀ inst ∈ e.instances n, Undated o inst := by
  unfold instances StoredInstances.instances
  rw [forall_mem_append, forall_mem_append]
  cases hattr : e.attrs.lookup n with
  | none => rfl
  | some attr =>
    rw [map_some, toList_some, toList_some, forall_mem_singleton,
      forall_mem_singleton, undated_defaultInstance (mem_of_lookup hattr)]

variable {insts : List Members}

theorem compactAttribute_name (node : KjNode) :
    (compactAttribute env.toContexts (n, node)).1 = shownName env n := by
  unfold compactAttribute shownName
  split <;> rfl

theorem compactAttribute_array (items : List KjNode) :
    (compactAttribute env.toContexts (n, .array items)).2 = .array items := by
  unfold compactAttribute
  split
  · rfl
  · simp only
    split <;> rfl

theorem compactAttribute_object (env : DateEnv) (n : Text) (inst : Members) : ∃ inst',
    (compactAttribute env.toContexts (n, .object inst)).2 = .object inst' ∧
      (inst' = inst ∨ valueMayBeCompacted env.toContexts (eqForDot n) = true ∧
        inst' = changeFirst "value" (compactValue env.toContexts) inst) := by
  unfold compactAttribute
  split
  · exact ⟨inst, rfl, .inl rfl⟩
  simp only
  split
  · rename_i hmay
    exact ⟨_, rfl, .inr ⟨hmay, rfl⟩⟩
  · exact ⟨inst, rfl, .inl rfl⟩

theorem Presents.of_undated {inst' : Members} {shown : KjNode}
    (hcompacted : inst' = inst ∨ valueMayBeCompacted env.toContexts (eqForDot n) = true ∧
    inst' = changeFirst "value" (compactValue env.toContexts) inst)
    (hshown : presentationAttributeFix env o inst' = some shown)
    (hundated : o.keyValues = false → Undated o inst) : Presents env o n inst shown := by
  refine ⟨inst', hcompacted, hshown, fun hkv => (instanceValue_shown_iff hkv hshown).mpr ?_⟩
  rcases hcompacted with rfl | ⟨-, rfl⟩
  · exact hundated hkv
  · exact undated_compacted.mpr (hundated hkv)

theorem Presents.undated {shown : KjNode} (h : Presents env o n inst shown)
    (hkv : o.keyValues = false) : Undated o inst := by
  obtain ⟨inst', hcompacted, hshown, hvalue⟩ := h
  have hundated := (instanceValue_shown_iff hkv hshown).mp (hvalue hkv)
  rcases hcompacted with rfl | ⟨-, rfl⟩
  · exact hundated
  · exact undated_compacted.mp hundated

theorem instances_shown (n : Text) (hpresentable : ∀ inst ∈ insts, Presentable o inst)
    (hundated : o.keyValues = false → ∀ inst ∈ insts, Undated o inst) :
    ∃ nodes, (insts.map .object).mapM (instanceFix env o) = some nodes ∧
      List.Forall₂ (Presents env o n) insts nodes := by
  rw [mapM_map]
  refine Fallible.exists_mapM fun inst hinst => ?_
  obtain ⟨shown, hshown, -⟩ := (hpresentable inst hinst).shown env
  exact ⟨shown, hshown, .of_undated (.inl rfl) hshown fun hkv => hundated hkv inst hinst⟩

theorem presented_array {nodes : List KjNode} (hnodes : items.mapM (instanceFix env o) = some nodes)
    (hfilled : ∀ node, nodes = [node] → ∃ m members, node = .object (m :: members)) :
    presented env o (.array items) = some (arranged nodes) := by
  unfold presented
  simp only [hnodes, bind_some]
  split
  · rename_i node
    obtain ⟨m, members, rfl⟩ := hfilled node rfl
    rfl
  rename_i hmany
  unfold arranged
  split
  · rename_i node
    exact absurd rfl (hmany node)
  · rfl

def Held (e : StoredInstances) (n : Text) : Prop :=
  ((e.attrs.lookup n).isSome || (e.slots.lookup n).isSome) = true

theorem attributeShown_spec (hheld : Held e n) (h : ShowableAt o e n) :
    ∃ nodes, attributeShown env o (n, assembled env o e n) =
        some (shownName env n, arranged nodes) ∧
      List.Forall₂ (Presents env o n) (instances env o e n) nodes := by
  have hpresentable := instances_presentable env o e n
  unfold attributeShown
  simp only [compactAttribute_name]
  by_cases hslot : (e.slots.lookup n).isSome = true
  · obtain ⟨nodes, hnodes, hall⟩ := instances_shown n hpresentable
      fun hkv => (undated_instances_iff env).mpr (h.normalized hkv)
    have hfilled : ∀ node, nodes = [node] → ∃ m members, node = .object (m :: members) := by
      rintro node rfl
      obtain ⟨inst, hinst⟩ := length_eq_one_iff.mp hall.length_eq
      rw [hinst, map_singleton, mapM_cons, mapM_nil] at hnodes
      obtain ⟨shown, hshown, hmembers⟩ :=
        (hpresentable inst (by rw [hinst]; exact mem_singleton_self inst)).shown env
      have hfirst : instanceFix env o (.object inst) = some shown := hshown
      rw [hfirst] at hnodes
      obtain rfl : shown = node := by simpa using hnodes
      by_cases hkv : o.keyValues = true
      · obtain ⟨m, members, hvalue⟩ := h.keyValues hkv hslot inst (instances_keyValues hkv ▸ hinst)
        rw [presentationAttributeFix_keyValues hkv
          (hpresentable inst (by rw [hinst]; exact mem_singleton_self inst)), hvalue] at hshown
        exact ⟨m, members, (some.inj hshown).symm⟩
      · exact hmembers (by simpa using hkv)
    refine ⟨nodes, ?_, hall⟩
    unfold assembled
    rw [if_pos hslot, compactAttribute_array, presented_array hnodes hfilled]
    rfl
  · have hnone : e.slots.lookup n = none := not_isSome_iff_eq_none.mp hslot
    unfold Held at hheld
    rw [hnone, isSome_none, Bool.or_false] at hheld
    obtain ⟨attr, hattr⟩ := isSome_iff_exists.mp hheld
    have hinst : instances env o e n = [defaultInstance env o attr] := by
      unfold instances
      rw [hattr, hnone]
      rfl
    obtain ⟨inst', hcompact, hcompacted⟩ :=
      compactAttribute_object env n (defaultInstance env o attr)
    have hp := hpresentable _ (by rw [hinst]; exact mem_singleton_self _)
    have hp' : Presentable o inst' := by
      rcases hcompacted with rfl | ⟨-, rfl⟩
      · exact hp
      · exact hp.compacted
    obtain ⟨shown, hshown, -⟩ := hp'.shown env
    refine ⟨[shown], ?_, ?_⟩
    · unfold assembled
      rw [if_neg hslot, hinst, map_singleton, headD_cons, hcompact]
      unfold presented
      simp only [hshown, map_some]
      rfl
    · rw [hinst]
      refine .cons (.of_undated hcompacted hshown fun hkv => ?_) .nil
      have hundated := (undated_instances_iff env).mpr (h.normalized hkv)
      rw [hinst] at hundated
      exact hundated _ (mem_singleton_self _)

/-- In keyValues, one instance in a slot is only shown when its value has members. -/
theorem filled_of_attributeShown (hkv : o.keyValues = true)
    (hslot : (e.slots.lookup n).isSome = true) (hinst : instances env o e n = [inst])
    {m : Text × KjNode} (h : attributeShown env o (n, assembled env o e n) = some m) :
    ∃ m members, bareValue inst = some (.object (m :: members)) := by
  have hp := instances_presentable env o e n inst (by rw [hinst]; exact mem_singleton_self _)
  obtain ⟨value, hvalue⟩ := isSome_iff_exists.mp (hp.value hkv)
  have hfirst : instanceFix env o (.object inst) = some value :=
    (presentationAttributeFix_keyValues hkv hp).trans hvalue
  unfold attributeShown assembled at h
  rw [if_pos hslot, hinst, List.map_singleton] at h
  simp only [compactAttribute_array, presented, List.mapM_cons, List.mapM_nil, hfirst,
    Option.bind_eq_bind, Option.bind_some, Option.pure_def] at h
  rw [hvalue]
  cases value with
  | object members =>
    cases members with
    | nil => cases h
    | cons m members => exact ⟨m, members, rfl⟩
  | _ => cases h

variable {dbTree idP : Members} {filter : List Text} {attrMandatory : Bool}

theorem mem_selected_held (h : n ∈ selected filter e) : Held e n := by
  by_cases hfilter : filter = []
  · unfold selected at h
    rw [if_pos hfilter, mem_append, mem_filter] at h
    unfold Held
    rw [Bool.or_eq_true, isSome_lookup_iff, isSome_lookup_iff]
    rcases h with h | ⟨h, -⟩
    · exact .inr h
    · exact .inl h
  · exact ((mem_selected hfilter).mp h).2

theorem retrieve_eq (env : DateEnv) (o : Options) (filter : List Text) (attrMandatory : Bool)
    (h : TreeOf dbTree e idP) : ∃ names : List Text,
    names.Perm (selected filter e) ∧
      mongoCppLegacyEntityRetrieve env o filter attrMandatory dbTree =
        if filter ≠ [] ∧ selected filter e = [] ∧ attrMandatory then none
        else ((names.map fun n => (n, assembled env o e n)).mapM (attributeShown env o)).map
          (idMembers env o dbTree idP ++ ·) := by
  obtain ⟨names, hperm, htree⟩ := attrTree_spec env o e filter
  refine ⟨names, hperm, ?_⟩
  have hslots : ((dbTree.lookup "@datasets".toList).map childrenOf).getD [] =
      slotNodes (instanceNodes e.slots) := by
    rw [h.datasets]
    unfold StoredInstances.slots slotNodes instanceNodes
    cases e.datasets with
    | none => rfl
    | some slots =>
      rw [Option.map_some, Option.map_some, Option.getD_some, Option.getD_some, List.map_map]
      rfl
  obtain ⟨type, htype⟩ := h.type
  unfold mongoCppLegacyEntityRetrieve
  rw [h.attrs, hslots, h.id]
  have hattrs : childrenOf (.object (e.attrs.map fun a => (a.1, .object a.2))) =
      attrNodes e.attrs := rfl
  have hempty : (names.map fun n => (n, assembled env o e n)) = [] ↔ selected filter e = [] := by
    rw [map_eq_nil_iff]
    exact ⟨fun hnil => (hnil ▸ hperm).symm.eq_nil, fun hnil => (hnil ▸ hperm).eq_nil⟩
  have hidtype : kjLookup (.object idP) "type" = some (.string type) := htype
  simp only [bind_eq_bind, bind_some, hattrs, htree, hempty, hidtype]
  split
  · rfl
  · cases (names.map fun n => (n, assembled env o e n)).mapM (attributeShown env o) <;> rfl

/-- The answer shows exactly the instances that are stored if and only if, in keyValues, the value
of an attribute with an array and one instance is an object with members, and otherwise no value
has members that are taken for dates. -/
theorem shows_instances_iff (h : TreeOf dbTree e idP) :
    ShowsInstances env o filter attrMandatory dbTree idP e ↔ Showable o filter e := by
  obtain ⟨names, hperm, hanswer⟩ := retrieve_eq env o filter attrMandatory h
  unfold ShowsInstances Showable
  rw [hanswer]
  by_cases hnone : filter ≠ [] ∧ selected filter e = [] ∧ attrMandatory = true
  · rw [if_pos hnone, if_pos hnone, hnone.2.1]
    simp
  rw [if_neg hnone, if_neg hnone]
  constructor
  · rintro ⟨names', shown, hperm', hshown, hall⟩ n hn
    obtain ⟨shown', hmapM, happend⟩ := map_eq_some_iff.mp hshown
    refine ⟨fun hkv hslot inst hinst => ?_,
      fun hkv => (undated_instances_iff env).mp fun inst hinst => ?_⟩
    · obtain ⟨m, hm⟩ := Fallible.exists_related (forall₂_map_left_iff.mp
        (Fallible.mapM_eq_some.mp hmapM)) (hperm.mem_iff.mpr hn)
      exact filled_of_attributeShown hkv hslot ((instances_keyValues hkv).trans hinst) hm
    · obtain ⟨m, -, nodes, hnodes, -⟩ :=
        Fallible.exists_related hall (hperm'.mem_iff.mpr hn)
      obtain ⟨node, hpresents⟩ := Fallible.exists_related hnodes hinst
      exact hpresents.undated hkv
  · intro hshowable
    have hspec : ∀ n ∈ names, ∃ m, (attributeShown env o ∘ fun n => (n, assembled env o e n)) n =
        some m ∧ m.1 = shownName env n ∧ ∃ nodes,
          List.Forall₂ (Presents env o n) (instances env o e n) nodes ∧ m.2 = arranged nodes := by
      intro n hn
      have hmem := hperm.mem_iff.mp hn
      obtain ⟨nodes, hnodes, hpresents⟩ :=
        attributeShown_spec (mem_selected_held hmem) (hshowable n hmem)
      exact ⟨_, hnodes, rfl, nodes, hpresents, rfl⟩
    obtain ⟨shown, hmapM, hall⟩ := Fallible.exists_mapM hspec
    rw [mapM_map]
    exact ⟨names, shown, hperm, map_eq_some_iff.mpr ⟨shown, hmapM, rfl⟩, hall⟩

variable {e : StoredEntity}

def speed : Text := "urn:speed".toList

def speedInstance (value : ℚ) : Members :=
  [("type".toList, .string "Property".toList), ("value".toList, .float value)]

theorem speedInstance_wellFormed (value : ℚ) : WellFormed (speedInstance value) :=
  ⟨⟨"Property".toList, rfl⟩, .inl rfl⟩

def speedEntity (default : Option ℚ) (values : List ℚ) : StoredInstances where
  attrs := (default.map fun value => (speed, speedInstance value)).toList
  datasets := some [(speed, values.map speedInstance)]
  attrsOnce := by cases default <;> simp
  datasetsOnce := List.nodup_singleton _
  attrsWellFormed a ha := by
    cases default with
    | none => cases ha
    | some value =>
      obtain rfl := List.mem_singleton.mp ha
      exact speedInstance_wellFormed value
  datasetsWellFormed s hs inst hinst := by
    obtain rfl := List.mem_singleton.mp hs
    obtain ⟨value, -, rfl⟩ := List.mem_map.mp hinst
    exact speedInstance_wellFormed value
  mdFilled a ha := by
    cases default with
    | none => cases ha
    | some value =>
      obtain rfl := List.mem_singleton.mp ha
      exact fun md hmd => nomatch hmd

def sampleId : Members :=
  [("id".toList, .string "urn:E1".toList), ("type".toList, .string "urn:T".toList)]

def sampleTree (e : StoredInstances) : Members :=
  [("_id".toList, .object sampleId), ("attrs".toList, .object (attrNodes e.attrs)),
    ("@datasets".toList, .object (slotNodes (instanceNodes e.slots)))]

theorem sampleTree_of (default : Option ℚ) (values : List ℚ) :
    TreeOf (sampleTree (speedEntity default values)) (speedEntity default values) sampleId :=
  ⟨rfl, rfl, rfl, ⟨_, rfl⟩⟩

theorem three_speeds_shown : ShowsInstances EntityShown.sampleEnv ⟨false, false⟩ [speed] true
    (sampleTree (speedEntity (some 1) [2, 3])) sampleId (speedEntity (some 1) [2, 3]) := by
  refine (shows_instances_iff (sampleTree_of (some 1) [2, 3])).mpr
    fun n hn => ⟨fun hkv => (by cases hkv), fun _ inst hinst members hvalue => ?_⟩
  have hselected : selected [speed] (speedEntity (some 1) [2, 3]) = [speed] := by decide +kernel
  obtain rfl := mem_singleton.mp (hselected ▸ hn)
  have hinstances : (speedEntity (some 1) [2, 3]).instances speed =
      [speedInstance 1, speedInstance 2, speedInstance 3] := by rfl
  rw [hinstances] at hinst
  have hfloat : ∀ value, instanceValue (speedInstance value) = some (.float value) := fun _ => rfl
  simp only [mem_cons, not_mem_nil, or_false] at hinst
  rcases hinst with rfl | rfl | rfl <;> simp [hfloat] at hvalue

theorem single_speed_unread : ¬ ∀ (env : DateEnv) (o : Options) (filter : List Text)
    (attrMandatory : Bool) (dbTree idP : Members) (e : StoredInstances), TreeOf dbTree e idP →
      ShowsInstances env o filter attrMandatory dbTree idP e := by
  intro h
  have hshown := h EntityShown.sampleEnv ⟨true, false⟩ [] false _ _ _ (sampleTree_of none [1])
  have hnone : mongoCppLegacyEntityRetrieve EntityShown.sampleEnv ⟨true, false⟩ [] false
      (sampleTree (speedEntity none [1])) = none := by rfl
  unfold ShowsInstances at hshown
  obtain ⟨names, shown, hperm, hsome, hall⟩ := hshown
  cases hsome

end RetrievedInstances
