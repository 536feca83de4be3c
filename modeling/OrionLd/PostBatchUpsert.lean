import OrionLd.BatchResponse
import OrionLd.DuplicatedInstances

/-! Batch creation or replacement of entities. In replace mode the stored entities are deleted
before the attributes of the new ones are looked at: an entity that is refused after that is gone.
-/
namespace PostBatchUpsert

open List Option
open KjTree OrionldContextItem KjTreeToContextAttribute BatchEntities BatchResponse
  DuplicatedInstances

variable {κ : Type} (r : Request)

/-- The context that the type of an entity is compared under; the last "@context" counts. -/
def typeContext (e : BatchEntity) : Contexts :=
  match (e.members.filter fun m => m.1 = "@context".toList).getLast? with
  | none => r.env.toContexts
  | some (_, contextNode) =>
    match r.contextFromTree contextNode with
    | .ok contextP => contextP
    | .error _ => r.env.toContexts

def typeMatches (e : BatchEntity) (d : DbEntity) : Bool :=
  match e.type with
  | some t => (orionldContextItemExpand (typeContext r e) t.value).1 = d.type
  | none => true

def nonMatching (e : BatchEntity) (d : DbEntity) : BatchEntityError :=
  badRequest d.id "non-matching entity type" (e.type.map TypeMember.value)

def completeType (e : BatchEntity) (d : DbEntity) : BatchEntity :=
  { e with type := e.type.or (some ⟨false, d.type⟩) }

def completeFirst (d : DbEntity) : List BatchEntity → List BatchEntity
  | [] => []
  | e :: tree => if e.id = d.id then completeType e d :: tree else e :: completeFirst d tree

structure Checked where
  tree : List BatchEntity
  errorsArray : Errors
  removeArray : List Text

/-- One turn of the loop over the entities of the database. -/
def checkDbEntity (s : Checked) (d : DbEntity) : Checked :=
  match entityLookupById s.tree d.id with
  | none => s
  | some e =>
    if typeMatches r e d then
      { s with tree := completeFirst d s.tree, removeArray := s.removeArray ++ [d.id] }
    else
      { s with tree := removeById s.tree d.id
               errorsArray := entityErrorPush s.errorsArray (nonMatching e d) false }

/-- The entities to convert, and what is removed from the database before. -/
def checkTypes (dbEntities : Option (List DbEntity)) (s : List BatchEntity × Errors) : Checked :=
  let s := (dbEntities.getD []).foldl (checkDbEntity r) ⟨s.1, s.2, []⟩
  let out := typeCheckForNonExistingEntities dbEntities s.tree s.errorsArray s.removeArray
  ⟨out.1, out.2.1, out.2.2⟩

def mergeInstances (tree : List BatchEntity) (errorsArray : Errors) :
    Option (List BatchEntity × Errors) :=
  if r.update then mergeDuplicated (mergeCopy r none true) tree errorsArray
  else some (lastInstances tree, replaceErrors tree errorsArray)

structure Prepared where
  tree : List BatchEntity
  elements : List Element
  errorsArray : Errors
  /-- The identifiers given to dbEntitiesDelete. -/
  deleted : List Text
  dbEntities : Option (List DbEntity)

def prepare (db : List (EntityDoc κ)) (payload : List KjNode) : Option Prepared := do
  if r.update && r.replace then none else
  let items ← payload.mapM children
  let s := kjEntityIdArrayExtract r items []
  let dbEntities := entityListLookupWithIdTypeCreDate db (idArray s.1)
  let s := checkTypes r dbEntities s
  let merged ← mergeInstances r s.tree s.errorsArray
  let out ← kjTreeToUpdateContextRequest r dbEntities merged.1 merged.2
  some ⟨merged.1, out.1, out.2, if r.update then [] else s.removeArray, dbEntities⟩

def dbEntitiesDelete (deleted : List Text) (db : List (EntityDoc κ)) : List (EntityDoc κ) :=
  db.filter fun doc => doc.id ∉ deleted

def statusCode (l : Lists) : ℕ :=
  if l.errorsArray.isEmpty && l.updated.isEmpty then 201
  else if l.errorsArray.isEmpty && l.created.isEmpty then 204
  else 207

def finish (mongo : MongoUpdateContext κ) (db : List (EntityDoc κ)) (p : Prepared) :
    BatchResult κ :=
  let out := mongo p.elements (dbEntitiesDelete p.deleted db)
  let l := fillLists (fun a => (lookupInDb p.dbEntities a).isSome) p.elements out.2 p.errorsArray
  ⟨statusCode l, l.success, l.errorsArray, out.1⟩

def orionldPostBatchUpsert (mongo : MongoUpdateContext κ) (db : List (EntityDoc κ))
    (payload : List KjNode) : Option (BatchResult κ) :=
  (prepare r db payload).map (finish mongo db)

section

variable {r : Request} {a : Text}

def checkInstances (r : Request) (s : List BatchEntity × Bool) (d : DbEntity) :
    List BatchEntity × Bool :=
  match s.1 with
  | [] => s
  | e :: group =>
    if typeMatches r e d then (completeType e d :: group, true) else (group, s.2)

theorem instances_completeFirst (d : DbEntity) (tree : List BatchEntity) :
    instances a (completeFirst d tree) =
      if d.id = a then (instances a tree).modifyHead fun e => completeType e d
      else instances a tree := by
  induction tree with
  | nil => split_ifs <;> rfl
  | cons e tree ih =>
    rw [completeFirst, instances_cons]
    by_cases he : e.id = d.id
    · have hid : (completeType e d).id = d.id := he
      rw [if_pos he, instances_cons, hid, he]
      split_ifs <;> rfl
    rw [if_neg he, instances_cons, ih]
    split_ifs with ha hd hd
    · exact absurd (ha.trans hd.symm) he
    · rfl
    · rfl
    · rfl

def partOf (a : Text) (s : Checked) : List BatchEntity × Bool :=
  (instances a s.tree, a ∈ s.removeArray)

theorem partOf_checkDbEntity (s : Checked) (d : DbEntity) :
    partOf a (checkDbEntity r s d) =
      if d.id = a then checkInstances r (partOf a s) d else partOf a s := by
  unfold checkDbEntity
  rw [entityLookupById_eq]
  by_cases hid : d.id = a
  · subst hid
    rw [if_pos rfl]
    unfold checkInstances partOf
    cases hgroup : instances d.id s.tree with
    | nil =>
      dsimp only [List.head?_nil]
      rw [hgroup]
      rfl
    | cons e group =>
      dsimp only [List.head?_cons]
      split_ifs
      · dsimp only
        rw [instances_completeFirst, if_pos rfl, hgroup]
        refine Prod.ext rfl ?_
        exact decide_eq_true (mem_append_right _ mem_cons_self)
      · dsimp only
        rw [instances_removeById, if_pos rfl, hgroup]
        rfl
  · rw [if_neg hid]
    unfold partOf
    split
    · rfl
    split_ifs
    · dsimp only
      rw [instances_completeFirst, if_neg hid]
      refine Prod.ext rfl (decide_eq_decide.mpr ?_)
      rw [mem_append, mem_singleton]
      exact or_iff_left fun ha => hid ha.symm
    · dsimp only
      rw [instances_removeById, if_neg fun ha => hid ha.symm]

theorem partOf_foldl (dbEntities : List DbEntity) (s : Checked) :
    partOf a (dbEntities.foldl (checkDbEntity r) s) =
      (dbEntities.filter fun d => d.id = a).foldl (checkInstances r) (partOf a s) := by
  induction dbEntities generalizing s with
  | nil => rfl
  | cons d dbEntities ih =>
    rw [foldl_cons, ih, partOf_checkDbEntity, filter_cons]
    by_cases h : d.id = a
    · rw [if_pos h, if_pos (decide_eq_true h), foldl_cons]
    · rw [if_neg h, if_neg fun hd => h (of_decide_eq_true hd)]

theorem ids_completeFirst (d : DbEntity) (tree : List BatchEntity) :
    (completeFirst d tree).map BatchEntity.id = tree.map BatchEntity.id := by
  induction tree with
  | nil => rfl
  | cons e tree ih =>
    rw [completeFirst]
    split_ifs
    · rfl
    · rw [map_cons, map_cons, ih]

theorem checkDbEntity_keeps (s : Checked) (d : DbEntity) :
    KeepsOrReports (s.tree, s.errorsArray)
      ((checkDbEntity r s d).tree, (checkDbEntity r s d).errorsArray) := by
  unfold checkDbEntity
  split
  · exact KeepsOrReports.refl _
  split_ifs
  · refine ⟨fun _ hb => hb, fun b hb => .inl ?_⟩
    rwa [ids_completeFirst]
  · refine ⟨fun b hb => ?_, fun b hb => ?_⟩
    · dsimp only at hb ⊢
      exact mem_errorIds_push.mpr (.inl hb)
    · dsimp only at hb ⊢
      by_cases hbd : b = d.id
      · exact .inr (mem_errorIds_push.mpr (.inr hbd))
      refine .inl ?_
      obtain ⟨e, he, rfl⟩ := mem_map.mp hb
      refine mem_map_of_mem ((mem_eraseP_of_neg ?_).mpr he)
      exact fun h => hbd (of_decide_eq_true h)

theorem foldl_keeps (dbEntities : List DbEntity) (s : Checked) :
    KeepsOrReports (s.tree, s.errorsArray)
      ((dbEntities.foldl (checkDbEntity r) s).tree,
        (dbEntities.foldl (checkDbEntity r) s).errorsArray) := by
  induction dbEntities generalizing s with
  | nil => exact KeepsOrReports.refl _
  | cons d dbEntities ih => exact (checkDbEntity_keeps s d).trans (ih _)

end

section

def entities (r : Request) (payload : List KjNode) : List BatchEntity :=
  accepted (idAndContextCheck r) payload

def dbEntities (r : Request) (db : List (EntityDoc κ)) (payload : List KjNode) :
    Option (List DbEntity) :=
  entityListLookupWithIdTypeCreDate db (idArray (entities r payload))

def documents (r : Request) (db : List (EntityDoc κ)) (payload : List KjNode) (a : Text) :
    List DbEntity :=
  ((dbEntities r db payload).getD []).filter fun d => d.id = a

/-- And whether one of them makes the broker delete the stored entity. -/
def checkedInstances (r : Request) (db : List (EntityDoc κ)) (payload : List KjNode)
    (a : Text) : List BatchEntity × Bool :=
  (documents r db payload a).foldl (checkInstances r) (instances a (entities r payload), false)

def checkedPayload (r : Request) (db : List (EntityDoc κ)) (payload : List KjNode) : Checked :=
  checkTypes r (dbEntities r db payload)
    (entities r payload, itemErrors (idAndContextCheck r) payload)

variable {r : Request} {db : List (EntityDoc κ)} {payload : List KjNode} {p : Prepared}
  {a : Text}

theorem documents_ne_nil : documents r db payload a ≠ [] ↔
    (lookupInDb (dbEntities r db payload) a).isSome := by
  unfold documents
  rw [lookupInDb_isSome, Ne, filter_eq_nil_iff]
  push Not
  simp

theorem prepare_spec (h : prepare r db payload = some p) :
    p.dbEntities = dbEntities r db payload ∧
    p.deleted = (if r.update then [] else (checkedPayload r db payload).removeArray) ∧
    ∃ merged, mergeInstances r (checkedPayload r db payload).tree
      (checkedPayload r db payload).errorsArray = some merged ∧ p.tree = merged.1 ∧
      Converted r p.dbEntities merged.1 merged.2 (p.elements, p.errorsArray) := by
  unfold prepare at h
  split at h
  · cases h
  obtain ⟨items, hitems, h⟩ := bind_eq_some_iff.mp h
  unfold kjEntityIdArrayExtract at h
  rw [extract_payload hitems] at h
  obtain ⟨merged, hmerged, h⟩ := bind_eq_some_iff.mp h
  obtain ⟨out, hout, h⟩ := bind_eq_some_iff.mp h
  cases h
  exact ⟨rfl, rfl, merged, hmerged, rfl, request_converted hout⟩

variable (r db payload a) in
theorem partOf_start (errorsArray : Errors) :
    partOf a (((dbEntities r db payload).getD []).foldl (checkDbEntity r)
      ⟨entities r payload, errorsArray, []⟩) = checkedInstances r db payload a := by
  rw [partOf_foldl]
  rfl

theorem mem_removeArray : a ∈ (checkedPayload r db payload).removeArray ↔
    (checkedInstances r db payload a).2 = true := by
  rw [← partOf_start r db payload a (itemErrors (idAndContextCheck r) payload)]
  unfold checkedPayload checkTypes partOf
  dsimp only
  rw [decide_eq_true_eq]
  by_cases hdoc : documents r db payload a = []
  · have hnone : a ∉ (((dbEntities r db payload).getD []).foldl (checkDbEntity r)
        ⟨entities r payload, itemErrors (idAndContextCheck r) payload, []⟩).removeArray := by
      have hpart := congrArg Prod.snd
        (partOf_start r db payload a (itemErrors (idAndContextCheck r) payload))
      unfold checkedInstances at hpart
      rw [hdoc] at hpart
      exact of_decide_eq_false hpart
    refine iff_of_false (fun hmem => hnone ?_) hnone
    exact (typeCheck_removeArray_sublist _ _ _).subset hmem
  · exact mem_typeCheck_removeArray (documents_ne_nil.mp hdoc)

theorem instances_checked (hdoc : documents r db payload a ≠ []) :
    instances a (checkedPayload r db payload).tree = (checkedInstances r db payload a).1 := by
  rw [← partOf_start r db payload a (itemErrors (idAndContextCheck r) payload)]
  unfold checkedPayload checkTypes partOf
  dsimp only
  rw [typeCheck_tree, instances_filter]
  refine filter_eq_self.mpr fun e he => ?_
  unfold hasType
  rw [(mem_instances.mp he).2, documents_ne_nil.mp hdoc, Bool.true_or]

theorem documents_of_deleted (h : (checkedInstances r db payload a).2 = true) :
    documents r db payload a ≠ [] := by
  intro hdoc
  unfold checkedInstances at h
  rw [hdoc] at h
  cases h

theorem checkInstances_nonempty (dbs : List DbEntity) (s : List BatchEntity × Bool)
    (hs : s.2 = true → s.1 ≠ []) :
    (dbs.foldl (checkInstances r) s).2 = true → s.1 ≠ [] := by
  induction dbs generalizing s with
  | nil => exact hs
  | cons d dbs ih =>
    intro h hnil
    have hsame : checkInstances r s d = s := by
      unfold checkInstances
      rw [hnil]
    rw [foldl_cons, hsame] at h
    exact ih s hs h hnil

variable (r db payload) in
theorem checkedPayload_keeps : KeepsOrReports
    (entities r payload, itemErrors (idAndContextCheck r) payload)
    ((checkedPayload r db payload).tree, (checkedPayload r db payload).errorsArray) := by
  refine (foldl_keeps (r := r) ((dbEntities r db payload).getD [])
    ⟨entities r payload, itemErrors (idAndContextCheck r) payload, []⟩).trans ⟨?_, ?_⟩
  · intro b hb
    exact mem_typeCheck_errors.mpr (.inl hb)
  · intro b hb
    obtain ⟨e, he, rfl⟩ := mem_map.mp hb
    by_cases htype : hasType (dbEntities r db payload) e = true
    · refine .inl (mem_map_of_mem ?_)
      unfold checkedPayload checkTypes
      rw [typeCheck_tree]
      exact mem_filter.mpr ⟨he, htype⟩
    · exact .inr (mem_typeCheck_errors.mpr (.inr ⟨e, he, rfl, htype⟩))

end

def LeavesRefused (db : List (EntityDoc κ)) (result : BatchResult κ) : Prop :=
  ∀ a ∈ errorIds result.errorsArray, a ∉ result.success → docsOf a result.db = docsOf a db

/-- Of an entity that is deleted an instance that is left can be converted. -/
def KeepsReplaced (r : Request) (db : List (EntityDoc κ)) (payload : List KjNode) : Prop :=
  ∀ a, (checkedInstances r db payload a).2 = true →
    ∃ e ∈ lastInstances (checkedInstances r db payload a).1,
      Converts r (dbEntities r db payload) e

variable {r : Request} {db : List (EntityDoc κ)} {payload : List KjNode} {p : Prepared}
  {a : Text} {mongo : MongoUpdateContext κ}

theorem docsOf_delete (deleted : List Text) :
    docsOf a (dbEntitiesDelete deleted db) = if a ∈ deleted then [] else docsOf a db := by
  unfold docsOf dbEntitiesDelete
  rw [List.filter_filter]
  split_ifs with h
  · refine List.filter_eq_nil_iff.mpr fun doc _ hdoc => ?_
    obtain ⟨hid, hnot⟩ := Bool.and_eq_true_iff.mp hdoc
    exact of_decide_eq_true hnot (of_decide_eq_true hid ▸ h)
  · refine filter_congr fun doc _ => ?_
    by_cases hid : doc.id = a
    · rw [decide_eq_true hid, Bool.true_and]
      exact decide_eq_true (hid ▸ h)
    · rw [decide_eq_false hid, Bool.false_and]

theorem replaced_spec (h : prepare r db payload = some p) (hreplace : r.update = false) :
    p.dbEntities = dbEntities r db payload ∧
    (∀ a, a ∈ p.deleted ↔ (checkedInstances r db payload a).2 = true) ∧
    p.tree = lastInstances (checkedPayload r db payload).tree ∧
    Converted r p.dbEntities p.tree
      (replaceErrors (checkedPayload r db payload).tree
        (checkedPayload r db payload).errorsArray) (p.elements, p.errorsArray) := by
  obtain ⟨hdb, hdeleted, merged, hmerged, htree, hconverted⟩ := prepare_spec h
  unfold mergeInstances at hmerged
  rw [hreplace, if_neg Bool.false_ne_true] at hmerged hdeleted
  cases hmerged
  exact ⟨hdb, fun a => hdeleted ▸ mem_removeArray, htree, htree ▸ hconverted⟩

theorem handed_iff (h : prepare r db payload = some p) (hreplace : r.update = false)
    (hdeleted : (checkedInstances r db payload a).2 = true) :
    a ∈ p.elements.map Element.id ↔
      ∃ e ∈ lastInstances (checkedInstances r db payload a).1,
        Converts r (dbEntities r db payload) e := by
  obtain ⟨hdb, -, htree, hconverted⟩ := replaced_spec h hreplace
  rw [hconverted.mem_ids, htree, hdb, ← instances_checked (documents_of_deleted hdeleted),
    ← instances_lastInstances]
  simp only [mem_instances, and_assoc]

theorem reported_of_deleted (h : prepare r db payload = some p) (hreplace : r.update = false)
    (hdeleted : (checkedInstances r db payload a).2 = true)
    (hnot : a ∉ p.elements.map Element.id) : a ∈ errorIds p.errorsArray := by
  obtain ⟨hdb, -, htree, hconverted⟩ := replaced_spec h hreplace
  have hgiven : a ∈ (entities r payload).map BatchEntity.id := by
    by_contra hnone
    refine checkInstances_nonempty _ _ (fun hf => absurd hf Bool.false_ne_true) hdeleted ?_
    exact instances_eq_nil.mpr hnone
  rcases (checkedPayload_keeps r db payload).kept a hgiven with hkept | hreported
  · have hlast : instances a p.tree ≠ [] := by
      rw [htree, instances_lastInstances]
      exact lastInstances_ne_nil (mt instances_eq_nil.mp (not_not.mpr hkept))
    obtain ⟨e, he⟩ := exists_mem_of_ne_nil _ hlast
    obtain ⟨hmem, hid⟩ := mem_instances.mp he
    refine (hconverted.errors a).mpr (.inr ⟨e, hmem, hid, fun hconv => hnot ?_⟩)
    exact hconverted.mem_ids.mpr ⟨e, hmem, hid, hconv⟩
  · exact (hconverted.errors a).mpr (.inl (errors_subset_replaceErrors hreported))

theorem stored_of_deleted (hdeleted : (checkedInstances r db payload a).2 = true) :
    docsOf a db ≠ [] := by
  obtain ⟨d, hd, rfl⟩ := lookupInDb_isSome.mp (documents_ne_nil.mp (documents_of_deleted hdeleted))
  obtain ⟨-, doc, hdoc, hid, -⟩ := mem_dbEntities hd
  exact ne_nil_of_mem (mem_filter.mpr ⟨hdoc, decide_eq_true hid⟩)

/-- A refused upsert leaves the old entity alone if and only if every entity that is deleted up
front has an instance left that can be converted. -/
theorem leavesRefused_iff (hmongo : ForElements mongo) (hreplace : r.update = false)
    {result : BatchResult κ} (hresult : orionldPostBatchUpsert r mongo db payload = some result) :
    LeavesRefused db result ↔ KeepsReplaced r db payload := by
  obtain ⟨p, h, rfl⟩ := map_eq_some_iff.mp hresult
  obtain ⟨-, hdeleted, -, -⟩ := replaced_spec h hreplace
  have hsuccess : ∀ a, a ∈ (finish mongo db p).success ↔ a ∈ p.elements.map Element.id :=
    fun a => mem_fillLists fun resp hresp => hmongo.answers _ _ resp hresp
  have hdocs : ∀ a, a ∉ p.elements.map Element.id → docsOf a (finish mongo db p).db =
      if a ∈ p.deleted then [] else docsOf a db := fun a ha =>
    (hmongo.frame _ _ a ha).trans (docsOf_delete p.deleted)
  constructor
  · intro hleaves a hdel
    rw [← handed_iff h hreplace hdel]
    by_contra hnot
    have herror : a ∈ errorIds (finish mongo db p).errorsArray :=
      mem_fillLists_errors.mpr (.inl (reported_of_deleted h hreplace hdel hnot))
    have hsame := hleaves a herror (mt (hsuccess a).mp hnot)
    rw [hdocs a hnot, if_pos ((hdeleted a).mpr hdel)] at hsame
    exact stored_of_deleted hdel hsame.symm
  · intro hkeeps a _ hnot
    have hhanded := mt (hsuccess a).mpr hnot
    rw [hdocs a hhanded, if_neg fun hdel => hhanded ?_]
    exact (handed_iff h hreplace ((hdeleted a).mp hdel)).mpr (hkeeps a ((hdeleted a).mp hdel))

def createAll : MongoUpdateContext Unit := fun elements db =>
  (db ++ elements.map fun el => ⟨el.id, some el.type, some 1, none, ()⟩,
    elements.map fun el => ⟨el.id, 200, "OK".toList⟩)

theorem createAll_forElements : ForElements createAll where
  frame elements db a ha := by
    unfold createAll docsOf
    have hnone : (elements.map fun el => (⟨el.id, some el.type, some 1, none, ()⟩ :
        EntityDoc Unit)).filter (fun doc => doc.id = a) = [] := by
      refine filter_eq_nil_iff.mpr fun doc hdoc hid => ha ?_
      obtain ⟨el, hel, rfl⟩ := mem_map.mp hdoc
      exact of_decide_eq_true hid ▸ mem_map_of_mem hel
    rw [filter_append, hnone, append_nil]
  answers elements db resp hresp := by
    obtain ⟨el, hel, rfl⟩ := mem_map.mp hresp
    exact mem_map_of_mem hel

theorem replace_stored : ∃ result, orionldPostBatchUpsert plainRequest createAll
    [storedEntity "urn:E1"] [bareEntity "urn:E1"] = some result ∧
    (LeavesRefused [storedEntity "urn:E1"] result ↔
      KeepsReplaced plainRequest [storedEntity "urn:E1"] [bareEntity "urn:E1"]) := by
  obtain ⟨result, hresult⟩ := isSome_iff_exists.mp (by decide +kernel :
    (orionldPostBatchUpsert plainRequest createAll [storedEntity "urn:E1"]
      [bareEntity "urn:E1"]).isSome = true)
  exact ⟨result, hresult, leavesRefused_iff createAll_forElements rfl hresult⟩

def flatAttribute : KjNode :=
  .object [("id".toList, .string "urn:E1".toList), ("type".toList, .string "T".toList),
    ("speed".toList, .int 5)]

def observed (a : Text) (result : BatchResult Unit) : List Text × List Text × ℕ :=
  (result.success, errorIds result.errorsArray, (docsOf a result.db).length)

theorem refused_entity_deleted : ¬ ∀ (r : Request) (mongo : MongoUpdateContext Unit)
    (db : List (EntityDoc Unit)) (payload : List KjNode) (result : BatchResult Unit),
    ForElements mongo → r.update = false →
      orionldPostBatchUpsert r mongo db payload = some result → LeavesRefused db result := by
  intro h
  have hseen : (orionldPostBatchUpsert plainRequest createAll [storedEntity "urn:E1"]
      [flatAttribute]).map (observed "urn:E1".toList) = some ([], ["urn:E1".toList], 0) := by
    decide +kernel
  obtain ⟨result, hresult, hobserved⟩ := map_eq_some_iff.mp hseen
  have hsuccess : result.success = [] := congrArg Prod.fst hobserved
  have herrors : errorIds result.errorsArray = ["urn:E1".toList] :=
    congrArg (fun o => o.2.1) hobserved
  have hdocs : (docsOf "urn:E1".toList result.db).length = 0 := congrArg (fun o => o.2.2) hobserved
  have hsame := h _ _ _ _ result createAll_forElements rfl hresult "urn:E1".toList
    (herrors ▸ mem_cons_self) (hsuccess ▸ not_mem_nil)
  rw [hsame] at hdocs
  exact absurd hdocs (by decide +kernel)

end PostBatchUpsert
