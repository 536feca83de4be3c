import OrionLd.LinkedChildren
import OrionLd.PostBatchUpsert

/-! POST /ngsi-ld/v1/entityOperations/delete. The array of identifiers is a linked list that
three loops go over, two of which unlink nodes. kjChildRemove, which does that, is a parameter. -/
namespace PostBatchDelete

open KjTree LinkedChildren KjTreeToContextAttribute BatchEntities List Option
open PostBatchUpsert (dbEntitiesDelete)

variable {ν κ : Type}

/-- The payload, an array. -/
structure IdArray (ν : Type) where
  node : ν → KjNode
  items : List ν
  links : Links ν
  wellFormed : links.WellFormed items

structure Problem where
  type : ErrorType
  title : String
  detail : String
  status : ℕ
  deriving DecidableEq

def invalidPayload (detail : String) : Except Problem Unit :=
  .error ⟨.badRequestData, "Invalid payload", detail, 400⟩

def itemCheck : KjNode → Except Problem Unit
  | .string s =>
    if pcheckUri s then .ok () else invalidPayload "Array items must be valid URIs"
  | _ => invalidPayload "Array items must be JSON Strings"

def itemsCheck : List KjNode → Except Problem Unit
  | [] => .ok ()
  | item :: items => itemCheck item >>= fun _ => itemsCheck items

def valueString : KjNode → Text
  | .string s => s
  | _ => []

def IdArray.idOf (requestTree : IdArray ν) (node : ν) : Text := valueString (requestTree.node node)

def IdArray.ids (requestTree : IdArray ν) : List Text := requestTree.items.map requestTree.idOf

structure Sorted (ν : Type) where
  links : Links ν
  success : List Text
  errorsArray : Errors

def notFound (entityId : Text) : BatchEntityError :=
  ⟨entityId, .resourceNotFound, "Entity not found".toList, none, 404⟩

variable (kjChildRemove : Links ν → ν → Links ν)

def sortId (requestTree : IdArray ν) (dbEntities : Option (List DbEntity)) (s : Sorted ν)
    (reqEntityId : ν) : Sorted ν :=
  let id := requestTree.idOf reqEntityId
  if (lookupInDb dbEntities id).isSome then { s with success := s.success ++ [id] }
  else
    { s with
      errorsArray := entityErrorPush s.errorsArray (notFound id) true
      links := kjChildRemove s.links reqEntityId }

def sortIds (requestTree : IdArray ν) (dbEntities : Option (List DbEntity)) (fuel : ℕ) :
    Option (Sorted ν) :=
  forEach Sorted.links (fun s node => some (sortId kjChildRemove requestTree dbEntities s node))
    fuel requestTree.links.container.first ⟨requestTree.links, [], []⟩

def removeCopies (idOf : ν → Text) (fuel : ℕ) (links : Links ν) (eid : ν) : Option (Links ν) :=
  forEach id (fun links copy =>
      some (if idOf eid = idOf copy then kjChildRemove links copy else links))
    fuel (links.next eid) links

def removeDuplicates (idOf : ν → Text) (fuel : ℕ) (links : Links ν) : Option (Links ν) :=
  forEach id (removeCopies kjChildRemove idOf fuel) fuel links.container.first links

structure BatchDeleteResult (κ : Type) where
  statusCode : ℕ
  success : List Text
  errorsArray : Errors
  /-- The identifiers given to dbEntitiesDelete. -/
  deleted : List Text
  db : List (EntityDoc κ)

def BatchDeleteResult.responseTree (result : BatchDeleteResult κ) : Option (List Text × Errors) :=
  if result.errorsArray.isEmpty then none else some (result.success, result.errorsArray)

/-- The deletion itself does not fail: mongoCppLegacyEntitiesDelete returns true. -/
def deleteEntities (requestTree : IdArray ν) (db : List (EntityDoc κ)) (fuel : ℕ) :
    Option (BatchDeleteResult κ) := do
  let dbEntities := entityListLookupWithIdTypeCreDate db requestTree.ids
  let s ← sortIds kjChildRemove requestTree dbEntities fuel
  let links ← removeDuplicates kjChildRemove requestTree.idOf fuel s.links
  let items ← walk links.next fuel links.container.first
  let deleted := items.map requestTree.idOf
  some {
    statusCode := if s.errorsArray.isEmpty then 204 else 207
    success := s.success
    errorsArray := s.errorsArray
    deleted := deleted
    db := if items.isEmpty then db else dbEntitiesDelete deleted db }

/-- None for a payload that is not an array; no result when the fuel does not suffice. -/
def orionldPostBatchDelete (requestTree : Option (IdArray ν)) (db : List (EntityDoc κ))
    (fuel : ℕ) : Option (Except Problem (BatchDeleteResult κ)) :=
  match requestTree with
  | none => some (.error ⟨.badRequestData, "Invalid payload", "Must be a JSON Array", 400⟩)
  | some requestTree =>
    match itemsCheck (requestTree.items.map requestTree.node) with
    | .error problem => some (.error problem)
    | .ok () => (deleteEntities kjChildRemove requestTree db fuel).map .ok

section

variable [DecidableEq ν]

def Removes (kjChildRemove : Links ν → ν → Links ν) : Prop :=
  ∀ links items node, links.WellFormed items → node ∈ items →
    (kjChildRemove links node).WellFormed (items.erase node)

def Stored (db : List (EntityDoc κ)) (a : Text) : Prop := ∃ doc ∈ db, doc.id = a

structure DeletesWhatItReports (db : List (EntityDoc κ)) (ids : List Text)
    (result : BatchDeleteResult κ) : Prop where
  deleted : result.db = db.filter fun doc => doc.id ∉ ids
  stored : ∀ a ∈ ids, Stored db a → result.success.count a = 1 ∧ a ∉ errorIds result.errorsArray
  missing : ∀ a ∈ ids, ¬ Stored db a →
    (errorIds result.errorsArray).count a = 1 ∧ a ∉ result.success
  distinct : result.deleted.Nodup

def readDocs (db : List (EntityDoc κ)) (ids : List Text) : List (EntityDoc κ) :=
  (db.filter fun doc => decide (doc.id ∈ ids) && doc.type.isSome && doc.creDate.isSome).take 1000

end

variable {db : List (EntityDoc κ)} {ids : List Text} {a : Text}

theorem map_id_filterMap (docs : List (EntityDoc κ)) :
    (docs.filterMap tinyEntity).map DbEntity.id =
      (docs.filter fun doc => doc.type.isSome && doc.creDate.isSome).map EntityDoc.id := by
  induction docs with
  | nil => rfl
  | cons doc docs ih =>
    obtain ⟨id, type, creDate, attrNames, rest⟩ := doc
    rcases type with _ | type
    · exact ih
    rcases creDate with _ | creDate
    · exact ih
    · exact congrArg (List.cons id) ih

theorem lookup_isSome_iff :
    (lookupInDb (entityListLookupWithIdTypeCreDate db ids) a).isSome ↔
      a ∈ (readDocs db ids).map EntityDoc.id := by
  have hentities : (entityListLookupWithIdTypeCreDate db ids).getD [] =
      ((db.filter fun doc => doc.id ∈ ids).filterMap tinyEntity).take 1000 := by
    unfold entityListLookupWithIdTypeCreDate
    split
    · rename_i hnone
      exact hnone.symm
    · rfl
  have hdocs : (readDocs db ids).map EntityDoc.id =
      (((db.filter fun doc => doc.id ∈ ids).filterMap tinyEntity).take 1000).map DbEntity.id := by
    unfold readDocs
    rw [List.map_take, List.map_take, map_id_filterMap, List.filter_filter]
    simp only [Bool.and_comm, Bool.and_left_comm]
  rw [lookupInDb_isSome, hentities, hdocs, List.mem_map]

theorem stored_of_read (h : a ∈ (readDocs db ids).map EntityDoc.id) : Stored db a := by
  obtain ⟨doc, hdoc, rfl⟩ := mem_map.mp h
  exact ⟨doc, (mem_filter.mp (mem_of_mem_take hdoc)).1, rfl⟩

def notFounds (missing : List Text) : Errors :=
  missing.foldl (fun errorsArray a => entityErrorPush errorsArray (notFound a) true) []

theorem notFounds_concat (missing : List Text) (a : Text) :
    notFounds (missing ++ [a]) = entityErrorPush (notFounds missing) (notFound a) true := by
  unfold notFounds
  rw [foldl_append]
  rfl

theorem mem_notFounds {missing : List Text} : a ∈ errorIds (notFounds missing) ↔ a ∈ missing := by
  induction missing using List.reverseRecOn with
  | nil => rfl
  | append_singleton missing b ih =>
    rw [notFounds_concat, mem_errorIds_push, ih, mem_append, mem_singleton]
    rfl

theorem nodup_push {errorsArray : Errors} (h : (errorIds errorsArray).Nodup)
    (error : BatchEntityError) : (errorIds (entityErrorPush errorsArray error true)).Nodup := by
  unfold entityErrorPush
  split
  · exact h
  rename_i hnew
  unfold errorIds
  rw [map_append]
  refine nodup_append.mpr ⟨h, nodup_singleton _, ?_⟩
  rintro id hid id' hid' rfl
  obtain ⟨error', herror', rfl⟩ := mem_map.mp hid
  refine hnew (any_eq_true.mpr ⟨error', herror', ?_⟩)
  exact decide_eq_true (mem_singleton.mp hid')

theorem nodup_notFounds (missing : List Text) : (errorIds (notFounds missing)).Nodup := by
  induction missing using List.reverseRecOn with
  | nil => exact nodup_nil
  | append_singleton missing b ih =>
    rw [notFounds_concat]
    exact nodup_push ih _

variable {kjChildRemove : Links ν → ν → Links ν} {requestTree : IdArray ν}
  {dbEntities : Option (List DbEntity)} {fuel : ℕ} {s : Sorted ν}

def isFound (requestTree : IdArray ν) (dbEntities : Option (List DbEntity)) (node : ν) : Bool :=
  (lookupInDb dbEntities (requestTree.idOf node)).isSome

structure SortedUntil (requestTree : IdArray ν) (dbEntities : Option (List DbEntity))
    (done rest : List ν) (s : Sorted ν) : Prop where
  items : done ++ rest = requestTree.items
  links : s.links.WellFormed (done.filter (isFound requestTree dbEntities) ++ rest)
  success : s.success = (done.filter (isFound requestTree dbEntities)).map requestTree.idOf
  errors : s.errorsArray =
    notFounds ((done.filter (!isFound requestTree dbEntities ·)).map requestTree.idOf)

theorem sortId_sorted [DecidableEq ν] (hremove : Removes kjChildRemove) {done rest : List ν}
    {node : ν} (h : SortedUntil requestTree dbEntities done (node :: rest) s) :
    SortedUntil requestTree dbEntities (done ++ [node]) rest
      (sortId kjChildRemove requestTree dbEntities s node) := by
  have hitems : (done ++ [node]) ++ rest = requestTree.items := by
    rw [append_assoc]
    exact h.items
  by_cases hfound : isFound requestTree dbEntities node
  · have hkept : (done ++ [node]).filter (isFound requestTree dbEntities) =
        done.filter (isFound requestTree dbEntities) ++ [node] := by
      rw [filter_append, filter_cons_of_pos hfound, filter_nil]
    have hmissed : (done ++ [node]).filter (!isFound requestTree dbEntities ·) =
        done.filter (!isFound requestTree dbEntities ·) := by
      rw [filter_append, filter_cons_of_neg (by simp [hfound]), filter_nil,
        append_nil]
    rw [isFound] at hfound
    rw [sortId, if_pos hfound]
    refine ⟨hitems, ?_, ?_, ?_⟩
    · rw [hkept, append_assoc]
      exact h.links
    · rw [hkept, map_append, ← h.success]
      rfl
    · rw [hmissed]
      exact h.errors
  · have hkept : (done ++ [node]).filter (isFound requestTree dbEntities) =
        done.filter (isFound requestTree dbEntities) := by
      rw [filter_append, filter_cons_of_neg hfound, filter_nil, append_nil]
    have hmissed : (done ++ [node]).filter (!isFound requestTree dbEntities ·) =
        done.filter (!isFound requestTree dbEntities ·) ++ [node] := by
      rw [filter_append, filter_cons_of_pos (by simp [hfound]), filter_nil]
    have hnew : node ∉ done.filter (isFound requestTree dbEntities) := fun hmem =>
      hfound (mem_filter.mp hmem).2
    rw [isFound] at hfound
    rw [sortId, if_neg hfound]
    refine ⟨hitems, ?_, ?_, ?_⟩
    · have hlinks := hremove s.links _ node h.links (mem_append_right _ mem_cons_self)
      rw [erase_append_right _ hnew, erase_cons_head] at hlinks
      rw [hkept]
      exact hlinks
    · rw [hkept]
      exact h.success
    · rw [hmissed, map_append, map_singleton, notFounds_concat, ← h.errors]

theorem sortIds_start (requestTree : IdArray ν) (dbEntities : Option (List DbEntity)) :
    SortedUntil requestTree dbEntities [] requestTree.items ⟨requestTree.links, [], []⟩ :=
  ⟨rfl, requestTree.wellFormed, rfl, rfl⟩

theorem sortIds_sorted [DecidableEq ν] (hremove : Removes kjChildRemove)
    (h : sortIds kjChildRemove requestTree dbEntities fuel = some s) :
    SortedUntil requestTree dbEntities requestTree.items [] s := by
  rw [sortIds, requestTree.wellFormed.first_eq] at h
  have hrule := forEach_rule (I := fun rest s =>
    ∃ done, SortedUntil requestTree dbEntities done rest s) ?_ ?_ h
    ⟨[], sortIds_start requestTree dbEntities⟩
  · obtain ⟨done, hdone⟩ := hrule
    have hitems := hdone.items
    rw [append_nil] at hitems
    exact hitems ▸ hdone
  · rintro node rest s ⟨done, hdone⟩
    exact hdone.links.next_eq
  · rintro node rest s s' ⟨done, hdone⟩ hs'
    cases hs'
    exact ⟨_, sortId_sorted hremove hdone⟩

theorem sortIds_returns [DecidableEq ν] (hremove : Removes kjChildRemove)
    (hfuel : requestTree.items.length ≤ fuel) :
    ∃ s, sortIds kjChildRemove requestTree dbEntities fuel = some s := by
  rw [sortIds, requestTree.wellFormed.first_eq]
  refine forEach_returns (I := fun rest s =>
    ∃ done, SortedUntil requestTree dbEntities done rest s) ?_ ?_ hfuel
    ⟨[], sortIds_start requestTree dbEntities⟩
  · rintro node rest s ⟨done, hdone⟩
    exact hdone.links.next_eq
  · rintro node rest s ⟨done, hdone⟩
    exact ⟨_, rfl, _, sortId_sorted hremove hdone⟩

theorem removeDuplicates_distinct {idOf : ν → Text} {links : Links ν} {items : List ν}
    (h : links.WellFormed items) (hdistinct : (items.map idOf).Nodup)
    (hfuel : items.length ≤ fuel) :
    removeDuplicates kjChildRemove idOf fuel links = some links := by
  unfold removeDuplicates
  rw [h.first_eq]
  refine forEach_unchanged h ?_ (suffix_refl items) hfuel
  rintro eid rest ⟨done, rfl⟩
  have hnew : idOf eid ∉ rest.map idOf := by
    rw [map_append, map_cons] at hdistinct
    exact (nodup_cons.mp (nodup_append.mp hdistinct).2.1).1
  have hrest : rest <:+ done ++ eid :: rest := ⟨done ++ [eid], by rw [append_assoc]; rfl⟩
  unfold removeCopies
  rw [h.next_eq]
  refine forEach_unchanged h ?_ hrest (hrest.length_le.trans hfuel)
  intro copy rest' hcopy
  have hne : idOf eid ≠ idOf copy := fun heq =>
    hnew (heq ▸ mem_map_of_mem (hcopy.mem mem_cons_self))
  rw [if_neg hne]

section

variable [DecidableEq ν] {result : BatchDeleteResult κ}

def foundIds (db : List (EntityDoc κ)) (ids : List Text) : List Text :=
  ids.filter fun a => (lookupInDb (entityListLookupWithIdTypeCreDate db ids) a).isSome

def missingIds (db : List (EntityDoc κ)) (ids : List Text) : List Text :=
  ids.filter fun a => !(lookupInDb (entityListLookupWithIdTypeCreDate db ids) a).isSome

theorem mem_foundIds : a ∈ foundIds db ids ↔ a ∈ ids ∧ a ∈ (readDocs db ids).map EntityDoc.id := by
  unfold foundIds
  rw [mem_filter, lookup_isSome_iff]

theorem count_foundIds (h : a ∈ (readDocs db ids).map EntityDoc.id) :
    (foundIds db ids).count a = ids.count a := by
  have hfound : (fun a => (lookupInDb (entityListLookupWithIdTypeCreDate db ids) a).isSome) a =
      true := lookup_isSome_iff.mpr h
  exact count_filter hfound

theorem mem_missingIds :
    a ∈ missingIds db ids ↔ a ∈ ids ∧ a ∉ (readDocs db ids).map EntityDoc.id := by
  unfold missingIds
  rw [mem_filter, Bool.not_eq_true', ← lookup_isSome_iff, Bool.not_eq_true]

omit [DecidableEq ν] in
theorem foundIds_eq : (requestTree.items.filter (isFound requestTree
    (entityListLookupWithIdTypeCreDate db requestTree.ids))).map requestTree.idOf =
      foundIds db requestTree.ids := by
  unfold foundIds IdArray.ids
  rw [List.filter_map]
  rfl

omit [DecidableEq ν] in
theorem missingIds_eq : (requestTree.items.filter (!isFound requestTree
    (entityListLookupWithIdTypeCreDate db requestTree.ids) ·)).map requestTree.idOf =
      missingIds db requestTree.ids := by
  unfold missingIds IdArray.ids
  rw [List.filter_map]
  rfl

theorem deleteEntities_reports (hremove : Removes kjChildRemove)
    (h : deleteEntities kjChildRemove requestTree db fuel = some result) :
    result.success = foundIds db requestTree.ids ∧
      result.errorsArray = notFounds (missingIds db requestTree.ids) := by
  obtain ⟨s, hs, h⟩ := bind_eq_some_iff.mp h
  obtain ⟨links, -, h⟩ := bind_eq_some_iff.mp h
  obtain ⟨items, -, h⟩ := bind_eq_some_iff.mp h
  cases h
  have hsorted := sortIds_sorted hremove hs
  exact ⟨hsorted.success.trans foundIds_eq, by rw [hsorted.errors, missingIds_eq]⟩

theorem deleteEntities_distinct (hremove : Removes kjChildRemove)
    (hdistinct : (foundIds db requestTree.ids).Nodup) (hfuel : requestTree.items.length ≤ fuel) :
    ∃ result, deleteEntities kjChildRemove requestTree db fuel = some result ∧
      result.deleted = foundIds db requestTree.ids ∧
        result.db = dbEntitiesDelete (foundIds db requestTree.ids) db := by
  obtain ⟨s, hs⟩ : ∃ s, sortIds kjChildRemove requestTree
      (entityListLookupWithIdTypeCreDate db requestTree.ids) fuel = some s :=
    sortIds_returns hremove hfuel
  have hlinks := (sortIds_sorted hremove hs).links
  rw [append_nil] at hlinks
  have hlength := (length_filter_le (isFound requestTree
    (entityListLookupWithIdTypeCreDate db requestTree.ids)) requestTree.items).trans hfuel
  rw [← foundIds_eq] at hdistinct ⊢
  generalize requestTree.items.filter (isFound requestTree
    (entityListLookupWithIdTypeCreDate db requestTree.ids)) = items at *
  have hremoved : removeDuplicates kjChildRemove requestTree.idOf fuel s.links = some s.links :=
    removeDuplicates_distinct hlinks hdistinct hlength
  have hwalk : walk s.links.next fuel s.links.container.first = some items :=
    walk_of_segment hlinks.lists hlength
  have hdb : (if items.isEmpty then db else dbEntitiesDelete (items.map requestTree.idOf) db) =
      dbEntitiesDelete (items.map requestTree.idOf) db := by
    cases items with
    | nil => simp [dbEntitiesDelete]
    | cons node items => rfl
  have hresult : deleteEntities kjChildRemove requestTree db fuel = some {
        statusCode := if s.errorsArray.isEmpty then 204 else 207
        success := s.success
        errorsArray := s.errorsArray
        deleted := items.map requestTree.idOf
        db := if items.isEmpty then db else dbEntitiesDelete (items.map requestTree.idOf) db } := by
    rw [deleteEntities]
    simp [hs, hremoved, hwalk]
  exact ⟨_, hresult, rfl, hdb⟩

/-- The loops come to an end with this result. -/
def Returns (kjChildRemove : Links ν → ν → Links ν) (requestTree : IdArray ν)
    (db : List (EntityDoc κ)) (result : BatchDeleteResult κ) : Prop :=
  ∃ fuel, orionldPostBatchDelete kjChildRemove (some requestTree) db fuel = some (.ok result)

def ValidUris (requestTree : IdArray ν) : Prop :=
  ∀ node ∈ requestTree.items, ∃ s, requestTree.node node = .string s ∧ pcheckUri s

omit [DecidableEq ν] in
theorem orionldPostBatchDelete_uris (huris : ValidUris requestTree) :
    orionldPostBatchDelete kjChildRemove (some requestTree) db fuel =
      (deleteEntities kjChildRemove requestTree db fuel).map .ok := by
  have hchecks : itemsCheck (requestTree.items.map requestTree.node) = .ok () := by
    unfold ValidUris at huris
    generalize requestTree.items = items at huris
    induction items with
    | nil => rfl
    | cons node items ih =>
      obtain ⟨s, hs, huri⟩ := huris node mem_cons_self
      rw [map_cons, hs, itemsCheck, itemCheck, if_pos huri]
      exact ih fun node' hnode' => huris node' (mem_cons_of_mem _ hnode')
  simp only [orionldPostBatchDelete, hchecks]

theorem Returns.reports (hremove : Removes kjChildRemove) (huris : ValidUris requestTree)
    (h : Returns kjChildRemove requestTree db result) :
    result.success = foundIds db requestTree.ids ∧
      result.errorsArray = notFounds (missingIds db requestTree.ids) := by
  obtain ⟨fuel, hfuel⟩ := h
  rw [orionldPostBatchDelete_uris huris] at hfuel
  obtain ⟨result', hresult, heq⟩ := map_eq_some_iff.mp hfuel
  cases heq
  exact deleteEntities_reports hremove hresult

/-- A batch delete does what it reports when every stored identifier occurs once, and is that of a
document that the lookup reads. -/
theorem deletes_what_it_reports_iff (hremove : Removes kjChildRemove)
    (huris : ValidUris requestTree) :
    (∃ result, Returns kjChildRemove requestTree db result ∧
        DeletesWhatItReports db requestTree.ids result) ↔
      ∀ a ∈ requestTree.ids, Stored db a →
        requestTree.ids.count a = 1 ∧ a ∈ (readDocs db requestTree.ids).map EntityDoc.id := by
  constructor
  · rintro ⟨result, hreturns, hdeletes⟩ a ha hstored
    obtain ⟨hsuccess, herrors⟩ := hreturns.reports hremove huris
    obtain ⟨hcount, hnotError⟩ := hdeletes.stored a ha hstored
    rw [herrors, mem_notFounds, mem_missingIds, not_and, not_not] at hnotError
    have hread := hnotError ha
    refine ⟨?_, hread⟩
    rw [hsuccess, count_foundIds hread] at hcount
    exact hcount
  · intro h
    have hdistinct : (foundIds db requestTree.ids).Nodup := by
      rw [nodup_iff_count_le_one]
      intro a
      by_cases ha : a ∈ foundIds db requestTree.ids
      · obtain ⟨hid, hread⟩ := mem_foundIds.mp ha
        have hone := (h a hid (stored_of_read hread)).1
        exact (filter_sublist.count_le a).trans (le_of_eq hone)
      · rw [count_eq_zero_of_not_mem ha]
        exact Nat.zero_le 1
    obtain ⟨result, hresult, hdeleted, hdb⟩ :=
      deleteEntities_distinct (κ := κ) hremove hdistinct le_rfl
    obtain ⟨hsuccess, herrors⟩ := deleteEntities_reports hremove hresult
    refine ⟨result, ⟨requestTree.items.length, ?_⟩, ?_⟩
    · rw [orionldPostBatchDelete_uris huris, hresult]
      rfl
    refine ⟨?_, ?_, ?_, hdeleted ▸ hdistinct⟩
    · rw [hdb]
      refine filter_congr fun doc hdoc => decide_eq_decide.mpr (not_congr ?_)
      rw [mem_foundIds]
      exact ⟨And.left, fun hid => ⟨hid, (h doc.id hid ⟨doc, hdoc, rfl⟩).2⟩⟩
    · intro a ha hstored
      obtain ⟨hone, hread⟩ := h a ha hstored
      rw [hsuccess, herrors, mem_notFounds, mem_missingIds]
      refine ⟨?_, fun hmissing => hmissing.2 hread⟩
      rw [count_foundIds hread]
      exact hone
    · intro a ha hstored
      have hnotRead : a ∉ (readDocs db requestTree.ids).map EntityDoc.id :=
        fun hread => hstored (stored_of_read hread)
      rw [hsuccess, herrors, mem_foundIds]
      refine ⟨count_eq_one_of_mem (nodup_notFounds _) ?_, fun hfound => hnotRead hfound.2⟩
      rw [mem_notFounds, mem_missingIds]
      exact ⟨ha, hnotRead⟩

end

theorem unlink_removes [Fintype ν] [DecidableEq ν] :
    Removes (Links.unlink : Links ν → ν → Links ν) :=
  fun _ _ _ hlinks hnode => hlinks.unlink hnode

def twoIds (a b : Text) : IdArray (Fin 2) where
  node
    | 0 => .string a
    | 1 => .string b
  items := [0, 1]
  links := ⟨fun
    | 0 => some 1
    | 1 => none, ⟨some 0, some 1⟩⟩
  wellFormed := ⟨⟨rfl, rfl, rfl⟩, rfl, by decide⟩

theorem twoIds_uris {b : Text} (ha : pcheckUri a) (hb : pcheckUri b) : ValidUris (twoIds a b) := by
  intro node hnode
  obtain rfl | rfl : node = 0 ∨ node = 1 := mem_pair.mp hnode
  · exact ⟨a, rfl, ha⟩
  · exact ⟨b, rfl, hb⟩

def urnA : Text := "urn:A".toList
def urnB : Text := "urn:B".toList

def vehicleA : EntityDoc Unit := ⟨urnA, some "Vehicle".toList, some 1, none, ()⟩

theorem stored_vehicleA (h : Stored [vehicleA] a) : a = urnA := by
  obtain ⟨doc, hdoc, rfl⟩ := h
  rw [mem_singleton.mp hdoc]
  rfl

theorem vehicle_deleted : ∃ result, Returns Links.unlink (twoIds urnA urnB) [vehicleA] result ∧
    DeletesWhatItReports [vehicleA] (twoIds urnA urnB).ids result := by
  refine (deletes_what_it_reports_iff unlink_removes (twoIds_uris (by decide) (by decide))).mpr ?_
  intro a _ hstored
  rw [stored_vehicleA hstored]
  exact ⟨by decide, by decide⟩

theorem repeated_id_reported_twice : ¬ ∃ result,
    Returns Links.unlink (twoIds urnA urnA) [vehicleA] result ∧
      DeletesWhatItReports [vehicleA] (twoIds urnA urnA).ids result := by
  rintro ⟨result, hreturns, hdeletes⟩
  obtain ⟨hsuccess, -⟩ := hreturns.reports unlink_removes (twoIds_uris (by decide) (by decide))
  have hone := (hdeletes.stored urnA mem_cons_self ⟨vehicleA, mem_singleton.mpr rfl, rfl⟩).1
  rw [hsuccess] at hone
  revert hone
  decide

end PostBatchDelete
