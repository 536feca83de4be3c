import OrionLd.DuplicatedInstances

/-! Batch update of entities. Existence and type are checked once for each identifier, on its first
instance. -/
namespace PostBatchUpdate

open List Option
open KjTree OrionldContextItem KjTreeToContextAttribute BatchEntities DuplicatedInstances
  Fallible

variable {κ : Type} (r : Request)

def doesNotExist (entityId : Text) : BatchEntityError :=
  badRequest entityId "entity does not exist" none

/-- The context of the type check; of several "@context" members the first one counts. -/
def checkContext (e : BatchEntity) : Contexts :=
  match e.members.lookup "@context".toList with
  | none => r.env.toContexts
  | some contextNode =>
    match r.contextFromTree contextNode with
    | .ok contextP => contextP
    | .error _ => r.coreContext

/-- A type under "type" is that of the database; one under "@type" is not looked at. -/
def typeAgrees (e : BatchEntity) (d : DbEntity) : Bool :=
  match e.type with
  | some ⟨false, t⟩ => (orionldContextItemExpand (checkContext r e) t).1 = d.type
  | _ => true

def checkId (dbEntities : List DbEntity) (s : List BatchEntity × Errors) (entityId : Text) :
    List BatchEntity × Errors :=
  match entityLookupById s.1 entityId with
  | none => (s.1, entityErrorPush s.2
      (internalError entityId "entity disappeared from incomingTree" none) false)
  | some e =>
    match lookupInDb (some dbEntities) entityId with
    | none => (removeById s.1 entityId, entityErrorPush s.2 (doesNotExist entityId) true)
    | some d =>
      if typeAgrees r e d then s
      else (removeById s.1 entityId, entityErrorPush s.2
        (badRequest entityId "non-matching entity type" (e.type.map TypeMember.value)) false)

def dropId (s : List BatchEntity × Errors) (entityId : Text) : List BatchEntity × Errors :=
  (removeById s.1 entityId, entityErrorPush s.2 (doesNotExist entityId) true)

def checkIds (dbEntities : Option (List DbEntity)) (s : List BatchEntity × Errors)
    (ids : List Text) : List BatchEntity × Errors :=
  match dbEntities with
  | none => ids.foldl dropId s
  | some dbEntities => ids.foldl (checkId r dbEntities) s

def isStripped (d : DbEntity) (name : Text) : Bool :=
  if ["location", "observationSpace", "operationSpace"].any fun n => n.toList = name then
    name ∈ d.attrNames
  else if name = "createdAt".toList || name = "modifiedAt".toList then true
  else (orionldAttributeExpand r.env.toContexts name).1 ∈ d.attrNames

/-- An "@type" may go. An "@id" and an entity that the database lacks are read through null
pointers. -/
def removeExistingAttributes (dbEntities : Option (List DbEntity)) (e : BatchEntity) :
    Option BatchEntity :=
  if e.atId then none
  else (lookupInDb dbEntities e.id).map fun d =>
    { e with
      type := e.type.filter fun t => !(t.atType && isStripped r d "@type".toList)
      members := e.members.filter fun m => !isStripped r d m.1 }

structure Prepared where
  tree : List BatchEntity
  elements : List Element
  errorsArray : Errors
  dbEntities : Option (List DbEntity)

def mergeInstances (dbEntities : Option (List DbEntity)) (s : List BatchEntity × Errors) :
    Option (List BatchEntity × Errors) :=
  if r.noOverwrite then do
    let tree ← s.1.mapM (removeExistingAttributes r dbEntities)
    mergeDuplicated (mergeCopy r dbEntities false) tree s.2
  else mergeDuplicated (mergeCopy r none true) s.1 s.2

/-- orionldPostBatchUpdate until it calls mongoUpdateContext, with ActionTypeAppend. -/
def prepare (db : List (EntityDoc κ)) (payload : List KjNode) : Option Prepared := do
  let items ← payload.mapM children
  let s := kjEntityIdArrayExtract r items []
  let ids := idArray s.1
  let dbEntities := entityListLookupWithIdTypeCreDate db ids
  let s := checkIds r dbEntities s ids
  let merged ← mergeInstances r dbEntities s
  let out ← kjTreeToUpdateContextRequest r dbEntities merged.1 merged.2
  some ⟨merged.1, out.1, out.2, dbEntities⟩

section

variable {r : Request} {dbEntities : Option (List DbEntity)} {a : Text}

def stays (r : Request) (dbEntities : Option (List DbEntity)) (e : BatchEntity) : Bool :=
  match lookupInDb dbEntities e.id with
  | none => false
  | some d => typeAgrees r e d

def passFirst (r : Request) (dbEntities : Option (List DbEntity)) (tree : List BatchEntity)
    (b : Text) : List BatchEntity :=
  match (instances b tree).head? with
  | none => tree
  | some e => if stays r dbEntities e then tree else removeById tree b

def remaining (r : Request) (dbEntities : Option (List DbEntity)) :
    List Text → List BatchEntity → List BatchEntity
  | _, [] => []
  | ids, e :: tree =>
    if e.id ∈ ids then
      if stays r dbEntities e then e :: remaining r dbEntities (ids.erase e.id) tree
      else remaining r dbEntities (ids.erase e.id) tree
    else e :: remaining r dbEntities ids tree

theorem passFirst_cons_self (e : BatchEntity) (tree : List BatchEntity) :
    passFirst r dbEntities (e :: tree) e.id = if stays r dbEntities e then e :: tree else tree := by
  unfold passFirst
  rw [instances_cons, if_pos rfl, removeById_cons, if_pos rfl]
  rfl

variable {e : BatchEntity} {b : Text} {ids : List Text}

theorem passFirst_cons_of_ne (hb : e.id ≠ b) (tree : List BatchEntity) :
    passFirst r dbEntities (e :: tree) b = e :: passFirst r dbEntities tree b := by
  unfold passFirst
  rw [instances_cons, if_neg hb, removeById_cons, if_neg hb]
  split
  · rfl
  · split_ifs <;> rfl

/-- One identifier after the other, or all of them in one pass over the entities. -/
theorem foldl_passFirst_cons (hids : ids.Nodup) (e : BatchEntity) (tree : List BatchEntity) :
    ids.foldl (passFirst r dbEntities) (e :: tree) =
      if e.id ∈ ids then
        if stays r dbEntities e then e :: (ids.erase e.id).foldl (passFirst r dbEntities) tree
        else (ids.erase e.id).foldl (passFirst r dbEntities) tree
      else e :: ids.foldl (passFirst r dbEntities) tree := by
  induction ids generalizing tree with
  | nil => rfl
  | cons b ids ih =>
    obtain ⟨hb, hrest⟩ := nodup_cons.mp hids
    rw [foldl_cons]
    by_cases he : e.id = b
    · subst he
      rw [passFirst_cons_self, if_pos mem_cons_self, erase_cons_head]
      split_ifs
      · rw [ih hrest, if_neg hb]
      · rfl
    · have hmem : e.id ∈ b :: ids ↔ e.id ∈ ids := by
        rw [mem_cons]
        exact or_iff_right he
      have herase : (b :: ids).erase e.id = b :: ids.erase e.id :=
        erase_cons_tail fun h => he (beq_iff_eq.mp h).symm
      rw [passFirst_cons_of_ne he, ih hrest, herase, foldl_cons, foldl_cons]
      simp only [hmem]

theorem foldl_passFirst (hids : ids.Nodup) (tree : List BatchEntity) :
    ids.foldl (passFirst r dbEntities) tree = remaining r dbEntities ids tree := by
  induction tree generalizing ids with
  | nil =>
    induction ids with
    | nil => rfl
    | cons b ids ih => exact ih (nodup_cons.mp hids).2
  | cons e tree ih =>
    rw [foldl_passFirst_cons hids, remaining, ih hids, ih (hids.erase e.id)]

def checkFirst (r : Request) (dbEntities : Option (List DbEntity)) :
    List BatchEntity → List BatchEntity
  | [] => []
  | e :: group => if stays r dbEntities e then e :: group else group

theorem instances_remaining (hids : ids.Nodup) (tree : List BatchEntity) :
    instances a (remaining r dbEntities ids tree) =
      if a ∈ ids then checkFirst r dbEntities (instances a tree) else instances a tree := by
  induction tree generalizing ids with
  | nil => split_ifs <;> rfl
  | cons e tree ih =>
    rw [remaining, instances_cons]
    by_cases he : e.id ∈ ids
    · rw [if_pos he]
      have hrest := ih (hids.erase e.id)
      simp only [hids.mem_erase_iff] at hrest
      by_cases ha : e.id = a
      · subst ha
        rw [if_neg fun h => h.1 rfl] at hrest
        rw [if_pos he, if_pos rfl, checkFirst]
        split_ifs
        · rw [instances_cons, if_pos rfl, hrest]
        · exact hrest
      · have hsame : (if a ≠ e.id ∧ a ∈ ids then checkFirst r dbEntities (instances a tree)
            else instances a tree) =
            if a ∈ ids then checkFirst r dbEntities (instances a tree)
            else instances a tree := by
          simp only [ne_eq, Ne.symm ha, not_false_eq_true, true_and]
        rw [if_neg ha, ← hsame, ← hrest]
        split_ifs
        · rw [instances_cons, if_neg ha]
        · rfl
    · rw [if_neg he, instances_cons, ih hids]
      by_cases ha : e.id = a
      · subst ha
        rw [if_pos rfl, if_neg he, if_neg he, if_pos rfl]
      · rw [if_neg ha, if_neg ha]

/-- The tree passes the check of its identifier, and an identifier whose first instance is removed
gets an error. -/
structure Turn (r : Request) (dbEntities : Option (List DbEntity))
    (s s' : List BatchEntity × Errors) (b : Text) : Prop where
  tree : s'.1 = passFirst r dbEntities s.1 b
  errors : ∀ a ∈ errorIds s.2, a ∈ errorIds s'.2
  reported : ∀ e, (instances b s.1).head? = some e → stays r dbEntities e = false →
    b ∈ errorIds s'.2

variable {tree : List BatchEntity} {s : List BatchEntity × Errors}

theorem id_of_head (h : (instances a tree).head? = some e) : e ∈ tree ∧ e.id = a :=
  mem_instances.mp (mem_of_mem_head? h)

theorem turn_removes {error : BatchEntityError} {avoidDuplicate : Bool}
    (herror : error.entityId = b) (he : (instances b s.1).head? = some e)
    (hgoes : stays r dbEntities e = false) :
    Turn r dbEntities s (removeById s.1 b, entityErrorPush s.2 error avoidDuplicate) b := by
  refine ⟨?_, fun a ha => ?_, fun _ _ _ => ?_⟩
  · unfold passFirst
    rw [he]
    exact (if_neg (Bool.eq_false_iff.mp hgoes)).symm
  · exact mem_errorIds_push.mpr (.inl ha)
  · exact mem_errorIds_push.mpr (.inr herror.symm)

theorem turn_nothing {errorsArray : Errors} (hnone : (instances b s.1).head? = none)
    (herrors : ∀ a ∈ errorIds s.2, a ∈ errorIds errorsArray) :
    Turn r dbEntities s (s.1, errorsArray) b := by
  refine ⟨?_, herrors, fun e he _ => ?_⟩
  · unfold passFirst
    rw [hnone]
  · rw [hnone] at he
    cases he

theorem turn_checkId (dbs : List DbEntity) (s : List BatchEntity × Errors) (b : Text) :
    Turn r (some dbs) s (checkId r dbs s b) b := by
  unfold checkId
  rw [entityLookupById_eq]
  cases hhead : (instances b s.1).head? with
  | none =>
    exact turn_nothing hhead fun a ha => mem_errorIds_push.mpr (.inl ha)
  | some e =>
    have hid := (id_of_head hhead).2
    dsimp only
    split
    · rename_i hdb
      refine turn_removes rfl hhead ?_
      unfold stays
      rw [hid, hdb]
    · rename_i d hdb
      have hstays : stays r (some dbs) e = typeAgrees r e d := by
        unfold stays
        rw [hid, hdb]
      split_ifs with htype
      · refine ⟨?_, fun _ ha => ha, fun e' he' hgoes => ?_⟩
        · unfold passFirst
          rw [hhead]
          exact (if_pos (hstays.trans htype)).symm
        · rw [hhead] at he'
          cases he'
          rw [hstays, htype] at hgoes
          cases hgoes
      · exact turn_removes rfl hhead (hstays.trans (Bool.eq_false_iff.mpr htype))

theorem turn_dropId (s : List BatchEntity × Errors) (b : Text) : Turn r none s (dropId s b) b := by
  cases hhead : (instances b s.1).head? with
  | none =>
    have hsame : removeById s.1 b = s.1 := by
      refine eraseP_of_forall_not fun e he hid => ?_
      have hmem := mem_instances.mpr ⟨he, of_decide_eq_true hid⟩
      rw [List.head?_eq_none_iff.mp hhead] at hmem
      cases hmem
    unfold dropId
    rw [hsame]
    exact turn_nothing hhead fun a ha => mem_errorIds_push.mpr (.inl ha)
  | some e => exact turn_removes rfl hhead rfl

structure Turns (r : Request) (dbEntities : Option (List DbEntity))
    (s s' : List BatchEntity × Errors) (ids : List Text) : Prop where
  tree : s'.1 = remaining r dbEntities ids s.1
  errors : ∀ a ∈ errorIds s.2, a ∈ errorIds s'.2
  reported : ∀ b ∈ ids, ∀ e, (instances b s.1).head? = some e → stays r dbEntities e = false →
    b ∈ errorIds s'.2

theorem instances_passFirst_of_ne (hab : a ≠ b) :
    instances a (passFirst r dbEntities tree b) = instances a tree := by
  unfold passFirst
  split
  · rfl
  split_ifs
  · rfl
  · rw [instances_removeById, if_neg hab]

theorem turns_foldl {step : List BatchEntity × Errors → Text → List BatchEntity × Errors}
    (hstep : ∀ s b, Turn r dbEntities s (step s b) b) (hids : ids.Nodup)
    (s : List BatchEntity × Errors) : Turns r dbEntities s (ids.foldl step s) ids := by
  suffices h : (ids.foldl step s).1 = ids.foldl (passFirst r dbEntities) s.1 ∧
      (∀ a ∈ errorIds s.2, a ∈ errorIds (ids.foldl step s).2) ∧
      ∀ b ∈ ids, ∀ e, (instances b s.1).head? = some e → stays r dbEntities e = false →
        b ∈ errorIds (ids.foldl step s).2 from
    ⟨h.1.trans (foldl_passFirst hids s.1), h.2.1, h.2.2⟩
  induction ids generalizing s with
  | nil => exact ⟨rfl, fun _ ha => ha, fun _ hb => absurd hb not_mem_nil⟩
  | cons b ids ih =>
    obtain ⟨hb, hids⟩ := nodup_cons.mp hids
    have hturn := hstep s b
    obtain ⟨htree, herrors, hreported⟩ := ih hids (step s b)
    rw [foldl_cons, foldl_cons]
    refine ⟨?_, fun a ha => herrors a (hturn.errors a ha), fun c hc e he hgoes => ?_⟩
    · rw [htree, hturn.tree]
    · rcases mem_cons.mp hc with rfl | hc
      · exact herrors c (hturn.reported e he hgoes)
      refine hreported c hc e ?_ hgoes
      have hne : c ≠ b := fun h => hb (h ▸ hc)
      rwa [hturn.tree, instances_passFirst_of_ne hne]

variable (r dbEntities) in
theorem turns_checkIds (hids : ids.Nodup) (s : List BatchEntity × Errors) :
    Turns r dbEntities s (checkIds r dbEntities s ids) ids := by
  unfold checkIds
  split
  · exact turns_foldl turn_dropId hids s
  · exact turns_foldl (turn_checkId _) hids s

end

section

variable {r : Request} {dbEntities : Option (List DbEntity)}

def stripped (r : Request) (dbEntities : Option (List DbEntity)) (e : BatchEntity) :
    BatchEntity :=
  if r.noOverwrite then (removeExistingAttributes r dbEntities e).getD e else e

theorem map_of_mapM {α : Type} {f : α → Option α} {l l' : List α} (h : l.mapM f = some l') :
    l' = l.map fun x => (f x).getD x := by
  induction l generalizing l' with
  | nil => exact (some.inj h).symm
  | cons x l ih =>
    rw [mapM_cons] at h
    obtain ⟨y, hy, h⟩ := bind_eq_some_iff.mp h
    obtain ⟨rest, hrest, h⟩ := bind_eq_some_iff.mp h
    cases h
    rw [map_cons, hy, ← ih hrest]
    rfl

structure StripsTo (r : Request) (dbEntities : Option (List DbEntity))
    (e e' : BatchEntity) : Prop where
  id : e'.id = e.id
  atId : e'.atId = e.atId
  type : e'.type = e.type ∨ e'.type = none ∧ r.noOverwrite = true ∧
    ∃ d ∈ dbEntities.getD [], isStripped r d "@type".toList = true
  contexts : contextMembers e' = contextMembers e ∨ contextMembers e' = [] ∧
    r.noOverwrite = true ∧ ∃ d ∈ dbEntities.getD [], lookupInDb dbEntities e.id = some d ∧
      isStripped r d "@context".toList = true

theorem type_filter (type : Option TypeMember) (goes : Bool) :
    (type.filter fun t => !(t.atType && goes)) = type ∨
      (type.filter fun t => !(t.atType && goes)) = none ∧ goes = true := by
  cases type with
  | none => exact .inl rfl
  | some t =>
    rw [filter_some]
    cases goes with
    | false =>
      rw [Bool.and_false]
      exact .inl rfl
    | true =>
      split_ifs
      · exact .inl rfl
      · exact .inr ⟨rfl, rfl⟩

theorem contextMembers_filter (keep : Text → Bool) (members : Members) :
    ((members.filter fun m => keep m.1).filter fun m => m.1 = "@context".toList) =
        (members.filter fun m => m.1 = "@context".toList) ∨
      ((members.filter fun m => keep m.1).filter fun m => m.1 = "@context".toList) = [] ∧
        keep "@context".toList = false := by
  rw [List.filter_filter]
  cases hkeep : keep "@context".toList with
  | true =>
    refine .inl (filter_congr fun m _ => ?_)
    by_cases hname : m.1 = "@context".toList
    · rw [decide_eq_true hname, Bool.true_and, hname, hkeep]
    · rw [decide_eq_false hname, Bool.false_and]
  | false =>
    refine .inr ⟨filter_eq_nil_iff.mpr fun m _ hm => ?_, rfl⟩
    obtain ⟨hname, hm⟩ := Bool.and_eq_true_iff.mp hm
    rw [of_decide_eq_true hname, hkeep] at hm
    cases hm

variable (r dbEntities) in
theorem stripsTo_stripped (e : BatchEntity) :
    StripsTo r dbEntities e (stripped r dbEntities e) := by
  have hsame : StripsTo r dbEntities e e := ⟨rfl, rfl, .inl rfl, .inl rfl⟩
  unfold stripped
  split_ifs with hoption
  · unfold removeExistingAttributes
    split_ifs with hat
    · exact hsame
    · cases hdb : lookupInDb dbEntities e.id with
      | none => exact hsame
      | some d =>
        have hd := (lookupInDb_spec hdb).1
        refine ⟨rfl, rfl, (type_filter e.type _).imp_right fun h => ⟨h.1, hoption, d, hd, h.2⟩, ?_⟩
        refine (contextMembers_filter (fun name => !isStripped r d name) e.members).imp_right ?_
        exact fun h => ⟨h.1, hoption, d, hd, hdb, by simpa using h.2⟩
  · exact hsame

theorem stripped_keepsIds : KeepsIds (stripped r dbEntities) :=
  ⟨fun e => (stripsTo_stripped r dbEntities e).id, fun e => (stripsTo_stripped r dbEntities e).atId⟩

theorem lookup_context (e : BatchEntity) :
    e.members.lookup "@context".toList = (contextMembers e).head?.map Prod.snd := by
  unfold contextMembers
  induction e.members with
  | nil => rfl
  | cons m members ih =>
    rw [lookup_cons, filter_cons]
    by_cases hname : m.1 = "@context".toList
    · rw [hname, decide_eq_true rfl, if_pos rfl, beq_self_eq_true]
      rfl
    rw [decide_eq_false hname, if_neg Bool.false_ne_true, beq_eq_false_iff_ne.mpr (Ne.symm hname)]
    exact ih

/-- An entity has a context exactly in a request of JSON-LD. -/
theorem contexts_iff {e : BatchEntity} (h : contextCheck r e = .ok e) :
    contextMembers e = [] ↔ r.ngsildContent = false := by
  unfold contextCheck at h
  rw [lookup_context] at h
  cases hmembers : contextMembers e with
  | nil =>
    rw [hmembers] at h
    refine iff_of_true rfl (Bool.eq_false_iff.mpr fun hcontent => ?_)
    rw [hcontent] at h
    cases h
  | cons m members =>
    rw [hmembers] at h
    refine iff_of_false (cons_ne_nil _ _) fun hcontent => ?_
    rw [hcontent] at h
    cases h

theorem contexts_of_brings {copy : BatchEntity} (h : BringsContext copy) :
    contextMembers copy ≠ [] := by
  obtain ⟨m, hfirst, hname⟩ := h
  exact ne_nil_of_mem (mem_filter.mpr ⟨mem_of_find?_eq_some hfirst, decide_eq_true hname⟩)

/-- What the first instance has lost to a stored attribute, the copies have lost too. -/
theorem context_stripped {e copy : BatchEntity} (he : contextCheck r e = .ok e)
    (hcopy : contextCheck r copy = .ok copy) (hid : e.id = copy.id) (hat : copy.atId = false)
    (hcontext : contextMembers (stripped r dbEntities copy) ≠ []) :
    contextMembers (stripped r dbEntities e) ≠ [] := by
  rcases (stripsTo_stripped r dbEntities e).contexts with hkept | ⟨-, hoption, d, -, hdb, hgoes⟩
  · rw [hkept]
    intro hnone
    have hnone' := (contexts_iff hcopy).mpr ((contexts_iff he).mp hnone)
    rcases (stripsTo_stripped r dbEntities copy).contexts with hkept | ⟨hgone, -⟩
    · exact hcontext (hkept.trans hnone')
    · exact hcontext hgone
  · refine absurd (filter_eq_nil_iff.mpr fun m hm hname => ?_) hcontext
    unfold stripped removeExistingAttributes at hm
    rw [if_pos hoption, hat, if_neg Bool.false_ne_true, ← hid, hdb] at hm
    have hkept := (mem_filter.mp hm).2
    rw [of_decide_eq_true hname, hgoes] at hkept
    cases hkept

theorem mergeInstances_spec {s out : List BatchEntity × Errors}
    (haccepted : ∀ e ∈ s.1, contextCheck r e = .ok e)
    (hcopies : r.noOverwrite = false → ∀ copy ∈ mergedCopies s.1, ¬ BringsContext copy)
    (h : mergeInstances r dbEntities s = some out) :
    Merged (s.1.map (stripped r dbEntities)) s.2 out := by
  unfold mergeInstances at h
  split_ifs at h with hoption
  · obtain ⟨tree, htree, h⟩ := bind_eq_some_iff.mp h
    have hmap : tree = s.1.map (stripped r dbEntities) := by
      rw [map_of_mapM htree]
      refine map_congr_left fun e _ => ?_
      unfold stripped
      rw [if_pos hoption]
    rw [hmap] at h
    refine mergeDuplicated_spec (fun e he copy hcopy hid hat hbrings => ⟨rfl, ?_⟩) h
    rw [mergedCopies_map stripped_keepsIds] at hcopy
    obtain ⟨e, hmem, rfl⟩ := mem_map.mp he
    obtain ⟨copy, hmem', rfl⟩ := mem_map.mp hcopy
    rw [stripped_keepsIds.id, stripped_keepsIds.id] at hid
    rw [stripped_keepsIds.atId] at hat
    exact context_stripped (haccepted e hmem) (haccepted copy (mergedCopies_subset hmem')) hid hat
      (contexts_of_brings hbrings)
  · have hmap : s.1.map (stripped r dbEntities) = s.1 := by
      refine (map_congr_left fun e _ => ?_).trans (map_id s.1)
      unfold stripped
      rw [if_neg hoption]
      rfl
    rw [hmap]
    exact mergeDuplicated_spec (fun _ _ copy hcopy _ _ hbrings =>
      absurd hbrings (hcopies (Bool.eq_false_iff.mpr hoption) copy hcopy)) h

end

section

def entities (r : Request) (payload : List KjNode) : List BatchEntity :=
  accepted (idAndContextCheck r) payload

def dbEntities (r : Request) (db : List (EntityDoc κ)) (payload : List KjNode) :
    Option (List DbEntity) :=
  entityListLookupWithIdTypeCreDate db (idArray (entities r payload))

def left (r : Request) (db : List (EntityDoc κ)) (payload : List KjNode) : List BatchEntity :=
  remaining r (dbEntities r db payload) (idArray (entities r payload)) (entities r payload)

variable {r : Request} {db : List (EntityDoc κ)} {payload : List KjNode} {p : Prepared}
  {a : Text}

theorem prepare_spec (h : prepare r db payload = some p) :
    p.dbEntities = dbEntities r db payload ∧
    ∃ s merged, s.1 = left r db payload ∧
      Turns r (dbEntities r db payload)
        (entities r payload, itemErrors (idAndContextCheck r) payload) s
        (idArray (entities r payload)) ∧
      mergeInstances r (dbEntities r db payload) s = some merged ∧ p.tree = merged.1 ∧
      Converted r p.dbEntities merged.1 merged.2 (p.elements, p.errorsArray) := by
  unfold prepare at h
  obtain ⟨items, hitems, h⟩ := bind_eq_some_iff.mp h
  unfold kjEntityIdArrayExtract at h
  rw [extract_payload hitems] at h
  obtain ⟨merged, hmerged, h⟩ := bind_eq_some_iff.mp h
  obtain ⟨out, hout, h⟩ := bind_eq_some_iff.mp h
  cases h
  have hturns := turns_checkIds r (dbEntities r db payload) (idArray_nodup (entities r payload))
    (entities r payload, itemErrors (idAndContextCheck r) payload)
  exact ⟨rfl, _, merged, hturns.tree, hturns, hmerged, rfl, request_converted hout⟩

variable {e : BatchEntity}

theorem mem_entities (he : e ∈ entities r payload) : contextCheck r e = .ok e := by
  obtain ⟨node, -, item, -, hcheck⟩ := mem_accepted.mp he
  obtain ⟨e', -, hcontext⟩ := bind_ok hcheck
  obtain rfl := contextCheck_ok hcontext
  exact hcontext

theorem mem_left : e ∈ left r db payload ↔
    ((instances e.id (entities r payload)).head? = some e ∧
        stays r (dbEntities r db payload) e = true) ∨
      e ∈ (instances e.id (entities r payload)).tail := by
  have hmem : e ∈ left r db payload ↔ e ∈ instances e.id (left r db payload) :=
    ⟨fun he => mem_instances.mpr ⟨he, rfl⟩, fun he => (mem_instances.mp he).1⟩
  unfold left at hmem ⊢
  rw [hmem, instances_remaining (idArray_nodup _)]
  cases hgroup : instances e.id (entities r payload) with
  | nil => split_ifs <;> simp [checkFirst]
  | cons e' group =>
    have hid : e.id ∈ idArray (entities r payload) := by
      have he' := mem_instances.mp (hgroup ▸ mem_cons_self :
        e' ∈ instances e.id (entities r payload))
      exact mem_idArray.mpr (he'.2 ▸ mem_map_of_mem he'.1)
    rw [if_pos hid, checkFirst, List.head?_cons, tail_cons, some_inj]
    split_ifs with hstays
    · rw [mem_cons]
      refine or_congr_left ⟨fun he => ⟨he.symm, he ▸ hstays⟩, fun he => he.1.symm⟩
    · refine ⟨.inr, fun he => he.resolve_left fun h => hstays ?_⟩
      exact h.1 ▸ h.2

theorem first_of_gone (he : e ∈ entities r payload) (hgone : e ∉ left r db payload) :
    (instances e.id (entities r payload)).head? = some e ∧
      stays r (dbEntities r db payload) e = false := by
  rw [mem_left, not_or] at hgone
  have hmem := mem_instances.mpr ⟨he, rfl⟩
  cases hgroup : instances e.id (entities r payload) with
  | nil =>
    rw [hgroup] at hmem
    cases hmem
  | cons e' group =>
    rw [hgroup] at hmem hgone
    rcases mem_cons.mp hmem with rfl | htail
    · exact ⟨rfl, Bool.eq_false_iff.mpr fun hstays => hgone.1 ⟨rfl, hstays⟩⟩
    · exact absurd htail hgone.2

theorem head_left (hhead : (instances e.id (entities r payload)).head? = some e)
    (hstays : stays r (dbEntities r db payload) e = true) :
    (instances e.id (left r db payload)).head? = some e := by
  obtain ⟨group, hgroup⟩ := List.head?_eq_some_iff.mp hhead
  have hid : e.id ∈ idArray (entities r payload) :=
    mem_idArray.mpr (mem_map_of_mem (id_of_head hhead).1)
  unfold left
  rw [instances_remaining (idArray_nodup _), if_pos hid, hgroup, checkFirst, hstays]
  rfl

theorem left_subset (he : e ∈ left r db payload) : e ∈ entities r payload := by
  rcases mem_left.mp he with ⟨hhead, -⟩ | htail
  · exact (id_of_head hhead).1
  · exact (mem_instances.mp (mem_of_mem_tail htail)).1

end

def IsStored (r : Request) (db : List (EntityDoc κ)) (e : BatchEntity) : Prop :=
  ∃ doc ∈ db, doc.id = e.id ∧ ∀ contextP, contextOfEntity r e = .ok contextP →
    ∀ t, e.type = some t → doc.type = some (orionldContextItemExpand contextP t.value).1

/-- What is handed to mongoUpdateContext is stored, with its type, and so is all that is left in the
tree; any other item has its identifier among the errors. -/
structure ExistingOnly (r : Request) (db : List (EntityDoc κ)) (payload : List KjNode)
    (p : Prepared) : Prop where
  handed : ∀ el ∈ p.elements, ∃ e ∈ p.tree, toElement r p.dbEntities e = .ok el ∧
    ∃ doc ∈ db, doc.id = el.id ∧ (e.type.isSome → doc.type = some el.type)
  tree : ∀ e ∈ p.tree, IsStored r db e
  refused : ∀ node ∈ payload, ∀ item, children node = some item → ∀ a, payloadId item = some a →
    (∀ e, idAndContextCheck r item = .ok e → ¬ IsStored r db e) → a ∈ errorIds p.errorsArray

/-- The check does not see the type, or not under the context of the conversion. -/
def hidesType (e : BatchEntity) : Prop :=
  (∃ t, e.type = some ⟨true, t⟩) ∨ 1 < (contextMembers e).length

/-- What escapes the check is stored all the same. -/
structure UncheckedStored (r : Request) (db : List (EntityDoc κ)) (payload : List KjNode) :
    Prop where
  first : ∀ e, (instances e.id (entities r payload)).head? = some e →
    stays r (dbEntities r db payload) e = true → hidesType e → IsStored r db e
  repeated : ∀ e ∈ unmerged (left r db payload),
    e ∈ (instances e.id (entities r payload)).tail → IsStored r db e
  contexts : r.noOverwrite = false → ∀ e ∈ mergedCopies (left r db payload), ¬ BringsContext e

/-- No copy brings the context it was not checked under, and neither "@type" nor, in JSON-LD,
"@context" counts as a stored attribute. -/
structure Comparable (r : Request) (db : List (EntityDoc κ)) (payload : List KjNode) : Prop where
  contexts : r.noOverwrite = false → r.ngsildContent = true →
    ∀ e ∈ mergedCopies (left r db payload), ¬ BringsContext e
  noAttribute : r.noOverwrite = true → ∀ d ∈ (dbEntities r db payload).getD [],
    isStripped r d "@type".toList = false ∧
      (r.ngsildContent = true → isStripped r d "@context".toList = false)

variable {r : Request} {db : List (EntityDoc κ)} {payload : List KjNode} {p : Prepared}

variable {e : BatchEntity}

theorem contextOfEntity_congr {e' : BatchEntity} (hid : e'.id = e.id)
    (hcontexts : contextMembers e' = contextMembers e) :
    contextOfEntity r e' = contextOfEntity r e := by
  unfold contextMembers at hcontexts
  unfold contextOfEntity
  rw [hid, hcontexts]

theorem isStored_congr {e' : BatchEntity} (h : Alike e e') :
    IsStored r db e' ↔ IsStored r db e := by
  unfold IsStored
  rw [contextOfEntity_congr h.id h.contexts, h.id, h.type]

theorem contextOfEntity_none (hmembers : contextMembers e = []) :
    contextOfEntity r e = if r.ngsildContent then .error (.refused (badRequest e.id
      ("Content-Type is 'application/ld+json', but no @context in payload data array " ++
        "item") none)) else .ok r.env.toContexts := by
  unfold contextMembers at hmembers
  unfold contextOfEntity
  rw [hmembers]
  rfl

theorem isStored_stripped {dbs : Option (List DbEntity)} (haccepted : contextCheck r e = .ok e)
    (h : IsStored r db e) : IsStored r db (stripped r dbs e) := by
  obtain ⟨doc, hdoc, hid, htype⟩ := h
  have hstrips := stripsTo_stripped r dbs e
  refine ⟨doc, hdoc, hid.trans hstrips.id.symm, fun contextP hcontext t ht => ?_⟩
  have hsame : e.type = some t := by
    rcases hstrips.type with h | ⟨h, -⟩
    · rw [← h, ht]
    · rw [h] at ht
      cases ht
  refine htype contextP ?_ t hsame
  rcases hstrips.contexts with hcontexts | ⟨hcontexts, -⟩
  · rwa [contextOfEntity_congr hstrips.id hcontexts] at hcontext
  rw [contextOfEntity_none hcontexts] at hcontext
  split_ifs at hcontext with hcontent
  rw [contextOfEntity_none ((contexts_iff haccepted).mpr (Bool.eq_false_iff.mpr hcontent)),
    if_neg hcontent, hcontext]

theorem isStored_of_stripped (hcomparable : Comparable r db payload)
    (haccepted : contextCheck r e = .ok e)
    (h : IsStored r db (stripped r (dbEntities r db payload) e)) : IsStored r db e := by
  have hstrips := stripsTo_stripped r (dbEntities r db payload) e
  refine (isStored_congr ⟨hstrips.id, ?_, ?_⟩).mp h
  · rcases hstrips.type with htype | ⟨-, hoption, d, hd, htype⟩
    · exact htype
    · rw [(hcomparable.noAttribute hoption d hd).1] at htype
      cases htype
  · rcases hstrips.contexts with hcontexts | ⟨hcontexts, hoption, d, hd, -, hgoes⟩
    · exact hcontexts
    · rw [hcontexts]
      refine ((contexts_iff haccepted).mpr (Bool.eq_false_iff.mpr fun hcontent => ?_)).symm
      rw [(hcomparable.noAttribute hoption d hd).2 hcontent] at hgoes
      cases hgoes

theorem isStored_of_stays (hstays : stays r (dbEntities r db payload) e = true)
    (hsees : ¬ hidesType e) : IsStored r db e := by
  unfold stays at hstays
  unfold hidesType at hsees
  rw [not_or, not_exists] at hsees
  obtain ⟨htype, hlength⟩ := hsees
  split at hstays
  · cases hstays
  rename_i d hd
  obtain ⟨hmem, hid⟩ := lookupInDb_spec hd
  obtain ⟨-, doc, hdoc, hdocid, hdoctype⟩ := mem_dbEntities hmem
  refine ⟨doc, hdoc, hdocid.trans hid, fun contextP hcontext t ht => ?_⟩
  have hcheck : checkContext r e = contextP := by
    unfold checkContext
    rw [lookup_context]
    unfold contextOfEntity at hcontext
    have hlast : (e.members.filter fun m => m.1 = "@context".toList) = contextMembers e := rfl
    rw [hlast] at hcontext
    cases hmembers : contextMembers e with
    | nil =>
      rw [hmembers] at hcontext
      dsimp only [List.getLast?_nil] at hcontext
      split_ifs at hcontext
      exact Except.ok.inj hcontext
    | cons m members =>
      rw [hmembers, length_cons] at hlength
      obtain rfl : members = [] := length_eq_zero_iff.mp (by omega)
      rw [hmembers] at hcontext
      dsimp only [List.getLast?_singleton] at hcontext
      dsimp only [List.head?_cons, map_some]
      split_ifs at hcontext
      cases htree : r.contextFromTree m.2 with
      | ok contextP' =>
        rw [htree] at hcontext
        exact Except.ok.inj hcontext
      | error pd =>
        rw [htree] at hcontext
        cases hcontext
  unfold typeAgrees at hstays
  obtain ⟨atType, value⟩ := t
  cases atType with
  | true => exact absurd ht (htype value)
  | false =>
    rw [ht] at hstays
    rw [hdoctype, ← hcheck]
    exact congrArg some (of_decide_eq_true hstays).symm

theorem isStored_of_left (h : UncheckedStored r db payload)
    (he : e ∈ unmerged (left r db payload)) :
    IsStored r db e := by
  rcases mem_left.mp (unmerged_subset he) with ⟨hhead, hstays⟩ | htail
  · by_cases hhides : hidesType e
    · exact h.first e hhead hstays hhides
    · exact isStored_of_stays hstays hhides
  · exact h.repeated e he htail

theorem handed_of_tree (h : prepare r db payload = some p)
    (htree : ∀ e ∈ p.tree, IsStored r db e) :
    ∀ el ∈ p.elements, ∃ e ∈ p.tree, toElement r p.dbEntities e = .ok el ∧
      ∃ doc ∈ db, doc.id = el.id ∧ (e.type.isSome → doc.type = some el.type) := by
  obtain ⟨-, s, merged, -, -, -, hmerged, hconverted⟩ := prepare_spec h
  intro el hel
  obtain ⟨e, he, hok⟩ := hconverted.mem_elements.mp hel
  rw [← hmerged] at he
  obtain ⟨doc, hdoc, hid, htype⟩ := htree e he
  refine ⟨e, he, hok, doc, hdoc, hid.trans (toElement_id hok).symm, fun hsome => ?_⟩
  obtain ⟨t, ht⟩ := isSome_iff_exists.mp hsome
  obtain ⟨contextP, hcontext, hok⟩ := bind_ok hok
  obtain ⟨type, htypeOf, hok⟩ := bind_ok hok
  obtain ⟨attributes, -, hok⟩ := bind_ok hok
  unfold typeOfEntity at htypeOf
  rw [ht] at htypeOf
  cases htypeOf
  cases hok
  exact htype contextP hcontext t ht

theorem reported_of_gone {s merged : List BatchEntity × Errors} (hs : s.1 = left r db payload)
    (hturns : Turns r (dbEntities r db payload)
      (entities r payload, itemErrors (idAndContextCheck r) payload) s
      (idArray (entities r payload)))
    (hmerged : Merged (s.1.map (stripped r (dbEntities r db payload))) s.2 merged)
    {node : KjNode} (hnode : node ∈ payload) {item : Members} (hitem : children node = some item)
    {a : Text} (ha : payloadId item = some a)
    (hgone : ∀ e, idAndContextCheck r item = .ok e → e ∉ unmerged (left r db payload)) :
    a ∈ errorIds merged.2 := by
  cases hcheck : idAndContextCheck r item with
  | error refusal =>
    refine hmerged.errors a (hturns.errors a ?_)
    refine mem_itemErrors.mpr ⟨node, hnode, item, hitem, refusal, hcheck, ?_⟩
    exact ((idAndContextCheck_names r).named item refusal a hcheck ha).symm
  | ok e =>
    have hid : e.id = a := some.inj
      (((idAndContextCheck_names r).passed item e hcheck).1.symm.trans ha)
    have he : e ∈ entities r payload := mem_accepted.mpr ⟨node, hnode, item, hitem, hcheck⟩
    by_cases hleft : e ∈ left r db payload
    · refine hmerged.reported a ?_
      rw [mergedId_map stripped_keepsIds, hs, ← hid]
      exact mergedId_of_gone hleft (hgone e hcheck)
    obtain ⟨hhead, hgoes⟩ := first_of_gone he hleft
    refine hmerged.errors a (hturns.reported a ?_ e (hid ▸ hhead) hgoes)
    exact mem_idArray.mpr (hid ▸ mem_map_of_mem he)

theorem merged_of_prepare (h : prepare r db payload = some p)
    (hcopies : r.noOverwrite = false → ∀ e ∈ mergedCopies (left r db payload),
      ¬ BringsContext e) :
    ∃ s merged, s.1 = left r db payload ∧
      Turns r (dbEntities r db payload)
        (entities r payload, itemErrors (idAndContextCheck r) payload) s
        (idArray (entities r payload)) ∧
      Merged (s.1.map (stripped r (dbEntities r db payload))) s.2 merged ∧
      p.tree = merged.1 ∧ ∀ a ∈ errorIds merged.2, a ∈ errorIds p.errorsArray := by
  obtain ⟨-, s, merged, hs, hturns, hmerged, htree, hconverted⟩ := prepare_spec h
  refine ⟨s, merged, hs, hturns, mergeInstances_spec ?_ ?_ hmerged, htree, fun a ha => ?_⟩
  · rw [hs]
    exact fun e he => mem_entities (left_subset he)
  · rw [hs]
    exact hcopies
  · exact (hconverted.errors a).mpr (.inl ha)

theorem existingOnly_of_unchecked (h : prepare r db payload = some p)
    (hstored : UncheckedStored r db payload) : ExistingOnly r db payload p := by
  obtain ⟨s, merged, hs, hturns, hmerged, htree, herrors⟩ := merged_of_prepare h hstored.contexts
  have hall : ∀ e ∈ p.tree, IsStored r db e := by
    intro e' he'
    rw [htree] at he'
    obtain ⟨_, hfrom, halike⟩ := hmerged.from_tree e' he'
    rw [unmerged_map stripped_keepsIds, hs] at hfrom
    obtain ⟨e, he, rfl⟩ := mem_map.mp hfrom
    rw [isStored_congr halike]
    exact isStored_stripped (mem_entities (left_subset (unmerged_subset he)))
      (isStored_of_left hstored he)
  refine ⟨handed_of_tree h hall, hall, fun node hnode item hitem a ha hnot => ?_⟩
  refine herrors a (reported_of_gone hs hturns hmerged hnode hitem ha fun e hcheck he => ?_)
  exact hnot e hcheck (isStored_of_left hstored he)

theorem unchecked_of_existingOnly (h : prepare r db payload = some p)
    (hcomparable : Comparable r db payload) (hexisting : ExistingOnly r db payload p) :
    UncheckedStored r db payload := by
  have hcopies : r.noOverwrite = false → ∀ e ∈ mergedCopies (left r db payload),
      ¬ BringsContext e := by
    intro hoption e he hbrings
    have haccepted := mem_entities (left_subset (mergedCopies_subset he))
    cases hcontent : r.ngsildContent with
    | true => exact hcomparable.contexts hoption hcontent e he hbrings
    | false => exact contexts_of_brings hbrings ((contexts_iff haccepted).mpr hcontent)
  obtain ⟨s, merged, hs, -, hmerged, htree, -⟩ := merged_of_prepare h hcopies
  have hall : ∀ e ∈ unmerged (left r db payload), IsStored r db e := by
    intro e he
    have hmem : stripped r (dbEntities r db payload) e ∈
        unmerged (s.1.map (stripped r (dbEntities r db payload))) := by
      rw [unmerged_map stripped_keepsIds, hs]
      exact mem_map_of_mem he
    obtain ⟨e', he', halike⟩ := hmerged.to_tree _ hmem
    refine isStored_of_stripped hcomparable (mem_entities (left_subset (unmerged_subset he))) ?_
    exact (isStored_congr halike).mp (hexisting.tree e' (htree ▸ he'))
  refine ⟨fun e hhead hstays _ => hall e (head_unmerged ?_), fun e he _ => hall e he, hcopies⟩
  exact head_left hhead hstays

/-- Nothing is created when the instances that escape the checks are stored, and, where no copy
brings its context along, only then. -/
theorem existingOnly_iff (h : prepare r db payload = some p) :
    (UncheckedStored r db payload → ExistingOnly r db payload p) ∧
    (Comparable r db payload → ExistingOnly r db payload p → UncheckedStored r db payload) :=
  ⟨existingOnly_of_unchecked h, unchecked_of_existingOnly h⟩

theorem update_stored : ∃ p, prepare plainRequest [storedEntity "urn:E1"]
      [bareEntity "urn:E1"] = some p ∧
    (UncheckedStored plainRequest [storedEntity "urn:E1"] [bareEntity "urn:E1"] →
      ExistingOnly plainRequest [storedEntity "urn:E1"] [bareEntity "urn:E1"] p) ∧
    (Comparable plainRequest [storedEntity "urn:E1"] [bareEntity "urn:E1"] →
      ExistingOnly plainRequest [storedEntity "urn:E1"] [bareEntity "urn:E1"] p →
      UncheckedStored plainRequest [storedEntity "urn:E1"] [bareEntity "urn:E1"]) := by
  obtain ⟨p, hp⟩ := isSome_iff_exists.mp (by decide +kernel :
    (prepare plainRequest [storedEntity "urn:E1"] [bareEntity "urn:E1"]).isSome = true)
  exact ⟨p, hp, existingOnly_iff hp⟩

theorem second_instance_created : ¬ ∀ (r : Request) (db : List (EntityDoc Unit))
    (payload : List KjNode) (p : Prepared), prepare r db payload = some p →
      ExistingOnly r db payload p := by
  intro h
  have hseen : (prepare plainRequest ([] : List (EntityDoc Unit))
      [bareEntity "urn:E1", bareEntity "urn:E1"]).map (fun p => p.elements.length) = some 1 := by
    decide +kernel
  obtain ⟨p, hp, hlength⟩ := map_eq_some_iff.mp hseen
  obtain ⟨el, hel⟩ := exists_mem_of_length_pos (by omega : 0 < p.elements.length)
  obtain ⟨e, -, -, doc, hdoc, -⟩ := (h _ _ _ p hp).handed el hel
  cases hdoc

end PostBatchUpdate
