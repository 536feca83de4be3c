import OrionLd.PostBatchCreate
import OrionLd.PostBatchUpsert

/-! The lists of a batch creation and of a batch upsert, for payloads of distinct identifiers.
Before mongoUpdateContext every identifier is either handed over or in the errors array. -/
namespace BatchResults

open KjTree KjTreeToContextAttribute BatchEntities BatchResponse DuplicatedInstances List Option

/-- Each identifier has one entity left, or errors. -/
structure Accounted (ids : List Text) (tree : List BatchEntity) (errorsArray : Errors) :
    Prop where
  once : (tree.map BatchEntity.id).Nodup
  within : ∀ e ∈ tree, e.id ∈ ids
  either : ∀ a ∈ ids, a ∈ tree.map BatchEntity.id ↔ a ∉ errorIds errorsArray

theorem eq_of_nodup_filterMap {α β : Type} {f : α → Option β} {l : List α}
    (h : (l.filterMap f).Nodup) {x y : α} (hx : x ∈ l) (hy : y ∈ l) {b : β}
    (hfx : f x = some b) (hfy : f y = some b) : x = y := by
  induction l with
  | nil => cases hx
  | cons z l ih =>
    cases hz : f z with
    | none =>
      rw [filterMap_cons_none hz] at h
      rcases mem_cons.mp hx with rfl | hxl
      · rw [hz] at hfx
        cases hfx
      rcases mem_cons.mp hy with rfl | hyl
      · rw [hz] at hfy
        cases hfy
      · exact ih h hxl hyl
    | some c =>
      rw [filterMap_cons_some hz, nodup_cons] at h
      rcases mem_cons.mp hx with rfl | hxl
      · rcases mem_cons.mp hy with rfl | hyl
        · rfl
        · refine absurd (mem_filterMap.mpr ⟨y, hyl, ?_⟩) h.1
          rw [hfy, ← hfx, hz]
      · rcases mem_cons.mp hy with rfl | hyl
        · refine absurd (mem_filterMap.mpr ⟨x, hxl, ?_⟩) h.1
          rw [hfx, ← hfy, hz]
        · exact ih h.2 hxl hyl

variable {check : Members → Except Refusal BatchEntity} {payload : List KjNode}

theorem accepted_ids (hcheck : NamesItem check) :
    ((accepted check payload).map BatchEntity.id).Sublist (payloadIds payload) := by
  unfold accepted payloadIds
  induction payload with
  | nil => exact List.Sublist.refl _
  | cons node payload ih =>
    rw [filterMap_cons, filterMap_cons]
    cases children node with
    | none => exact ih
    | some item =>
      rw [bind_some, bind_some]
      cases hitem : check item with
      | ok e =>
        rw [(hcheck.passed item e hitem).1]
        exact ih.cons_cons e.id
      | error refusal =>
        cases payloadId item with
        | none => exact ih
        | some a => exact ih.cons a

theorem extracted_accounted (hcheck : NamesItem check) (hdistinct : (payloadIds payload).Nodup) :
    Accounted (payloadIds payload) (accepted check payload) (itemErrors check payload) := by
  refine ⟨hdistinct.sublist (accepted_ids hcheck), fun e he =>
    (accepted_ids hcheck).subset (mem_map_of_mem he), fun a ha => ?_⟩
  rw [mem_itemErrors]
  constructor
  · intro hmem
    obtain ⟨e, he, rfl⟩ := mem_map.mp hmem
    obtain ⟨node, hnode, item, hitem, hok⟩ := mem_accepted.mp he
    obtain ⟨hid, huri⟩ := hcheck.passed item e hok
    rintro ⟨node', hnode', item', hitem', refusal, hrefused, hname⟩
    cases hother : payloadId item' with
    | none => exact hcheck.unnamed item' refusal hrefused hother (hname ▸ huri)
    | some b =>
      have hb := (hcheck.named item' refusal b hrefused hother).symm.trans hname.symm
      have hsame : node = node' := eq_of_nodup_filterMap hdistinct hnode hnode'
        (by rw [hitem, bind_some, hid]) (by rw [hitem', bind_some, hother, hb])
      rw [hsame, hitem'] at hitem
      cases hitem
      rw [hok] at hrefused
      cases hrefused
  · intro hnone
    obtain ⟨node, hnode, hid⟩ := mem_filterMap.mp ha
    obtain ⟨item, hitem, hid⟩ := bind_eq_some_iff.mp hid
    cases hok : check item with
    | ok e =>
      have he : e ∈ accepted check payload := mem_accepted.mpr ⟨node, hnode, item, hitem, hok⟩
      have hsame := (hcheck.passed item e hok).1.symm.trans hid
      exact some.inj hsame ▸ mem_map_of_mem he
    | error refusal =>
      refine absurd ⟨node, hnode, item, hitem, refusal, hok, ?_⟩ hnone
      exact (hcheck.named item refusal a hok hid).symm

variable {ids : List Text} {tree : List BatchEntity} {errorsArray errorsArray' : Errors}

theorem Accounted.of_ids (h : Accounted ids tree errorsArray) {tree' : List BatchEntity}
    (hsame : tree'.map BatchEntity.id = tree.map BatchEntity.id) :
    Accounted ids tree' errorsArray := by
  refine ⟨hsame ▸ h.once, fun e he => ?_, fun a ha => hsame ▸ h.either a ha⟩
  have hmem := mem_map_of_mem (f := BatchEntity.id) he
  rw [hsame] at hmem
  obtain ⟨e', he', hid⟩ := mem_map.mp hmem
  exact hid ▸ h.within e' he'

theorem Accounted.either_of (h : Accounted ids tree errorsArray) {P : BatchEntity → Prop}
    (herrors : ∀ a, a ∈ errorIds errorsArray' ↔
      a ∈ errorIds errorsArray ∨ ∃ e ∈ tree, e.id = a ∧ ¬ P e) {a : Text} (ha : a ∈ ids) :
    (∃ e ∈ tree, e.id = a ∧ P e) ↔ a ∉ errorIds errorsArray' := by
  rw [herrors, not_or, ← h.either a ha]
  constructor
  · rintro ⟨e, he, rfl, hP⟩
    refine ⟨mem_map_of_mem he, ?_⟩
    rintro ⟨e', he', hid, hnot⟩
    rw [inj_on_of_nodup_map h.once he' he hid] at hnot
    exact hnot hP
  · rintro ⟨hmem, hnone⟩
    obtain ⟨e, he, rfl⟩ := mem_map.mp hmem
    refine ⟨e, he, rfl, ?_⟩
    by_contra hnot
    exact hnone ⟨e, he, rfl, hnot⟩

theorem Accounted.filter (h : Accounted ids tree errorsArray) (P : BatchEntity → Bool)
    (herrors : ∀ a, a ∈ errorIds errorsArray' ↔
      a ∈ errorIds errorsArray ∨ ∃ e ∈ tree, e.id = a ∧ ¬ P e) :
    Accounted ids (tree.filter P) errorsArray' := by
  refine ⟨h.once.sublist (List.filter_sublist.map _), fun e he =>
    h.within e (List.mem_of_mem_filter he), fun a ha => ?_⟩
  rw [← h.either_of herrors ha, List.mem_map]
  constructor
  · rintro ⟨e, he, hid⟩
    exact ⟨e, (mem_filter.mp he).1, hid, (mem_filter.mp he).2⟩
  · rintro ⟨e, he, hid, hP⟩
    exact ⟨e, mem_filter.mpr ⟨he, hP⟩, hid⟩

theorem Accounted.handed (h : Accounted ids tree errorsArray) {r : Request}
    {dbEntities : Option (List DbEntity)} {out : List Element × Errors}
    (hout : Converted r dbEntities tree errorsArray out) {a : Text} (ha : a ∈ ids) :
    a ∈ out.1.map Element.id ↔ a ∉ errorIds out.2 := by
  rw [hout.mem_ids]
  exact h.either_of hout.errors ha

theorem Accounted.remove (h : Accounted ids tree errorsArray) (error : BatchEntityError)
    (avoidDuplicate : Bool) : Accounted ids (removeById tree error.entityId)
      (entityErrorPush errorsArray error avoidDuplicate) := by
  refine ⟨h.once.sublist (eraseP_sublist.map _), fun e he =>
    h.within e (List.mem_of_mem_eraseP he), fun a ha => ?_⟩
  rw [mem_errorIds_push, not_or, ← h.either a ha, ← not_iff_not, ← instances_eq_nil,
    instances_removeById, not_and_not_right]
  by_cases hid : a = error.entityId
  · rw [if_pos hid]
    have hone := count_ids a tree ▸ nodup_iff_count_le_one.mp h.once a
    refine iff_of_true ?_ fun _ => hid
    cases hgroup : instances a tree with
    | nil => rfl
    | cons e group =>
      rw [hgroup, length_cons] at hone
      change group = []
      exact length_eq_zero_iff.mp (by omega)
  · rw [if_neg hid, instances_eq_nil]
    exact ⟨fun hnot hmem => absurd hmem hnot, fun himp hmem => hid (himp hmem)⟩

theorem Accounted.typeCheck (h : Accounted ids tree errorsArray)
    (dbEntities : Option (List DbEntity)) (removeArray : List Text) :
    Accounted ids
      (typeCheckForNonExistingEntities dbEntities tree errorsArray removeArray).1
      (typeCheckForNonExistingEntities dbEntities tree errorsArray removeArray).2.1 := by
  rw [typeCheck_tree]
  exact h.filter _ fun a => mem_typeCheck_errors

section

open PostBatchCreate

theorem accounted_removeExisting (dbEntities : List DbEntity)
    (h : Accounted ids tree errorsArray) :
    Accounted ids (removeExisting dbEntities (tree, errorsArray)).1
      (removeExisting dbEntities (tree, errorsArray)).2 := by
  induction dbEntities generalizing tree errorsArray with
  | nil => exact h
  | cons d dbEntities ih =>
    exact ih (h.remove (badRequest d.id "entity already exists" none) true)

theorem dropRepeated_distinct {present : BatchEntity → Bool} (hall : ∀ e ∈ tree, present e = true)
    (h : (tree.map BatchEntity.id).Nodup) :
    dropRepeated present tree errorsArray = (tree, errorsArray) := by
  induction tree generalizing present with
  | nil => rfl
  | cons e tree ih =>
    have hnone := any_repeats_false h
    obtain ⟨he, htree⟩ := forall_mem_cons.mp hall
    have hhead : tree.head?.any (repeats e) = false := by
      cases tree with
      | nil => rfl
      | cons next tree => exact Bool.eq_false_iff.mpr ((any_eq_false.mp hnone) next mem_cons_self)
    have hleft : ∀ copy ∈ tree, (present copy && !repeats e copy) = true := fun copy hcopy => by
      rw [htree copy hcopy, Bool.eq_false_iff.mpr ((any_eq_false.mp hnone) copy hcopy)]
      rfl
    rw [dropRepeated, if_pos he]
    dsimp only
    rw [filter_eq_self.mpr htree, hnone, hhead, if_neg Bool.false_ne_true,
      if_neg Bool.false_ne_true, ih hleft (nodup_cons.mp h).2]

theorem accounted_uniqueNew (dbEntities : Option (List DbEntity))
    (h : Accounted ids tree errorsArray) :
    Accounted ids (uniqueNew dbEntities (tree, errorsArray)).1
      (uniqueNew dbEntities (tree, errorsArray)).2 := by
  have htyped := (accounted_removeExisting (dbEntities.getD []) h).typeCheck dbEntities []
  unfold uniqueNew
  dsimp only
  rw [dropRepeated_distinct (fun _ _ => rfl) htyped.once]
  exact htyped

end

section

open PostBatchUpsert

variable {r : Request}

theorem accounted_checkDbEntity {s : Checked} (d : DbEntity)
    (h : Accounted ids s.tree s.errorsArray) :
    Accounted ids (checkDbEntity r s d).tree (checkDbEntity r s d).errorsArray := by
  unfold checkDbEntity
  split
  · exact h
  split_ifs
  · exact h.of_ids (ids_completeFirst d s.tree)
  · exact h.remove (nonMatching _ d) false

theorem accounted_foldl (dbEntities : List DbEntity) {s : Checked}
    (h : Accounted ids s.tree s.errorsArray) :
    Accounted ids (dbEntities.foldl (checkDbEntity r) s).tree
      (dbEntities.foldl (checkDbEntity r) s).errorsArray := by
  induction dbEntities generalizing s with
  | nil => exact h
  | cons d dbEntities ih => exact ih (accounted_checkDbEntity d h)

theorem accounted_checkTypes (dbEntities : Option (List DbEntity))
    (h : Accounted ids tree errorsArray) :
    Accounted ids (checkTypes r dbEntities (tree, errorsArray)).tree
      (checkTypes r dbEntities (tree, errorsArray)).errorsArray :=
  Accounted.typeCheck
    (accounted_foldl (dbEntities.getD []) (s := ⟨tree, errorsArray, []⟩) h) dbEntities _

theorem mergeInstances_distinct (errorsArray : Errors) (h : (tree.map BatchEntity.id).Nodup) :
    mergeInstances r tree errorsArray = some (tree, errorsArray) := by
  unfold mergeInstances
  split_ifs
  · exact mergeDuplicated_distinct h errorsArray
  · rw [lastInstances_distinct h, replaceErrors_distinct h]

end

/-- Each identifier is in one of the lists only, in success when it was handed over and is not
reported as failed. -/
structure Truthful (payload : List KjNode) (handed : List Text) (responses : List Response)
    (success : List Text) (errorsArray : Errors) : Prop where
  exactlyOne : ∀ a ∈ payloadIds payload, a ∈ success ↔ a ∉ errorIds errorsArray
  honest : ∀ a ∈ payloadIds payload, a ∈ success ↔ a ∈ handed ∧ ¬ Reported responses a

variable {elements : List Element} {responses : List Response}

/-- The two passes tell the truth exactly when no error is reported. -/
theorem truthful_iff {inDb : Text → Bool}
    (hhanded : ∀ a ∈ payloadIds payload, a ∈ elements.map Element.id ↔ a ∉ errorIds errorsArray)
    (hwithin : ∀ a ∈ elements.map Element.id, a ∈ payloadIds payload)
    (hanswers : ∀ resp ∈ responses, resp.id ∈ elements.map Element.id) :
    Truthful payload (elements.map Element.id) responses
      (fillLists inDb elements responses errorsArray).success
      (fillLists inDb elements responses errorsArray).errorsArray ↔
        ∀ resp ∈ responses, resp.code = 200 := by
  constructor
  · intro htruth resp hresp
    by_contra hcode
    have hmem := hanswers resp hresp
    have hsuccess := (htruth.honest resp.id (hwithin _ hmem)).mp ((mem_fillLists hanswers).mpr hmem)
    exact hsuccess.2 ⟨resp, hresp, rfl, hcode⟩
  · intro hok
    have hnone : ∀ a, ¬ Reported responses a := by
      rintro a ⟨resp, hresp, -, hcode⟩
      exact hcode (hok resp hresp)
    refine ⟨fun a ha => ?_, fun a ha => ?_⟩
    · rw [mem_fillLists hanswers, mem_fillLists_errors, or_iff_left (hnone a)]
      exact hhanded a ha
    · rw [mem_fillLists hanswers]
      exact (and_iff_left (hnone a)).symm

variable {κ : Type}

def TruthfulCreate (mongo : MongoUpdateContext κ) (db : List (EntityDoc κ))
    (payload : List KjNode) (p : PostBatchCreate.Prepared) : Prop :=
  Truthful payload (p.elements.map Element.id) (mongo p.elements db).2
    (PostBatchCreate.finish mongo db p).success (PostBatchCreate.finish mongo db p).errorsArray

def upsertResponses (mongo : MongoUpdateContext κ) (db : List (EntityDoc κ))
    (p : PostBatchUpsert.Prepared) : List Response :=
  (mongo p.elements (PostBatchUpsert.dbEntitiesDelete p.deleted db)).2

def TruthfulUpsert (mongo : MongoUpdateContext κ) (db : List (EntityDoc κ))
    (payload : List KjNode) (p : PostBatchUpsert.Prepared) : Prop :=
  Truthful payload (p.elements.map Element.id) (upsertResponses mongo db p)
    (PostBatchUpsert.finish mongo db p).success (PostBatchUpsert.finish mongo db p).errorsArray

variable {r : Request} {mongo : MongoUpdateContext κ} {db : List (EntityDoc κ)}

theorem truthfulCreate_iff (hmongo : ForElements mongo)
    (hdistinct : (payloadIds payload).Nodup) {p : PostBatchCreate.Prepared}
    (h : PostBatchCreate.prepare r db payload = some p) :
    TruthfulCreate mongo db payload p ↔ ∀ resp ∈ (mongo p.elements db).2, resp.code = 200 := by
  obtain ⟨htree, hconverted⟩ := PostBatchCreate.prepare_spec h
  have haccount := accounted_uniqueNew (PostBatchCreate.dbEntities db payload)
    (extracted_accounted entityIdAndTypeGet_names hdistinct)
  rw [htree] at hconverted
  have hresponses : (if p.elements.isEmpty then (db, []) else mongo p.elements db).2 =
      (mongo p.elements db).2 := by
    split_ifs with hempty
    · refine (eq_nil_iff_forall_not_mem.mpr fun resp hresp => ?_).symm
      have hmem := hmongo.answers _ _ resp hresp
      rw [isEmpty_iff.mp hempty] at hmem
      cases hmem
    · rfl
  unfold TruthfulCreate PostBatchCreate.finish
  dsimp only
  rw [hresponses]
  refine truthful_iff (fun a ha => haccount.handed hconverted ha) ?_ (hmongo.answers _ _)
  intro a ha
  obtain ⟨e, he, rfl, -⟩ := hconverted.mem_ids.mp ha
  exact haccount.within e he

theorem truthfulUpsert_iff (hmongo : ForElements mongo)
    (hdistinct : (payloadIds payload).Nodup) {p : PostBatchUpsert.Prepared}
    (h : PostBatchUpsert.prepare r db payload = some p) :
    TruthfulUpsert mongo db payload p ↔ ∀ resp ∈ upsertResponses mongo db p, resp.code = 200 := by
  obtain ⟨-, -, merged, hmerged, -, hconverted⟩ := PostBatchUpsert.prepare_spec h
  have haccount := accounted_checkTypes (r := r) (PostBatchUpsert.dbEntities r db payload)
    (extracted_accounted (idAndContextCheck_names r) hdistinct)
  have hsame := hmerged.symm.trans (mergeInstances_distinct _ haccount.once)
  cases hsame
  refine truthful_iff (fun a ha => haccount.handed hconverted ha) ?_ (hmongo.answers _ _)
  intro a ha
  obtain ⟨e, he, rfl, -⟩ := hconverted.mem_ids.mp ha
  exact haccount.within e he

/-- For distinct identifiers the lists of both operations tell the truth if and only if
mongoUpdateContext reports no error. -/
theorem truthful_iff_no_error (r : Request) (db : List (EntityDoc κ)) (hmongo : ForElements mongo)
    (hdistinct : (payloadIds payload).Nodup) :
    (∀ p, PostBatchCreate.prepare r db payload = some p →
      (TruthfulCreate mongo db payload p ↔
        ∀ resp ∈ (mongo p.elements db).2, resp.code = 200)) ∧
    (∀ p, PostBatchUpsert.prepare r db payload = some p →
      (TruthfulUpsert mongo db payload p ↔
        ∀ resp ∈ upsertResponses mongo db p, resp.code = 200)) :=
  ⟨fun _ h => truthfulCreate_iff hmongo hdistinct h,
    fun _ h => truthfulUpsert_iff hmongo hdistinct h⟩

theorem truthful_two_entities :
    (∃ p, PostBatchCreate.prepare plainRequest ([] : List (EntityDoc Unit))
        [bareEntity "urn:E1", bareEntity "urn:E2"] = some p ∧
      TruthfulCreate PostBatchUpsert.createAll []
        [bareEntity "urn:E1", bareEntity "urn:E2"] p) ∧
    ∃ p, PostBatchUpsert.prepare plainRequest ([] : List (EntityDoc Unit))
        [bareEntity "urn:E1", bareEntity "urn:E2"] = some p ∧
      TruthfulUpsert PostBatchUpsert.createAll []
        [bareEntity "urn:E1", bareEntity "urn:E2"] p := by
  have hdistinct : (payloadIds [bareEntity "urn:E1", bareEntity "urn:E2"]).Nodup := by
    decide +kernel
  obtain ⟨hcreate, hupsert⟩ := truthful_iff_no_error plainRequest []
    PostBatchUpsert.createAll_forElements hdistinct
  refine ⟨⟨_, rfl, (hcreate _ rfl).mpr ?_⟩, ⟨_, rfl, (hupsert _ rfl).mpr ?_⟩⟩
  · decide +kernel
  · decide +kernel

/-- mongoUpdateContext when the database refuses every write. -/
def refuseAll : MongoUpdateContext Unit := fun elements db =>
  (db, elements.map fun el => ⟨el.id, 500, "Internal Server Error".toList⟩)

theorem refuseAll_forElements : ForElements refuseAll where
  frame _ _ _ _ := rfl
  answers elements db resp hresp := by
    obtain ⟨el, hel, rfl⟩ := mem_map.mp hresp
    exact mem_map_of_mem hel

/-- A failed entity is in both lists. -/
theorem failed_entity_in_both : ¬ ∀ (r : Request) (mongo : MongoUpdateContext Unit)
    (db : List (EntityDoc Unit)) (payload : List KjNode), ForElements mongo →
    (payloadIds payload).Nodup →
      (∀ p, PostBatchCreate.prepare r db payload = some p →
        TruthfulCreate mongo db payload p) ∧
      (∀ p, PostBatchUpsert.prepare r db payload = some p →
        TruthfulUpsert mongo db payload p) := by
  intro h
  have hseen : (PostBatchCreate.prepare plainRequest ([] : List (EntityDoc Unit))
      [bareEntity "urn:E1"]).map (fun p => ((PostBatchCreate.finish refuseAll [] p).success,
        errorIds (PostBatchCreate.finish refuseAll [] p).errorsArray)) =
      some (["urn:E1".toList], ["urn:E1".toList]) := by
    decide +kernel
  obtain ⟨p, hp, hlists⟩ := map_eq_some_iff.mp hseen
  obtain ⟨hsuccess, herrors⟩ := Prod.mk.inj hlists
  have htruth := (h plainRequest refuseAll [] [bareEntity "urn:E1"] refuseAll_forElements
    (by decide +kernel)).1 p hp
  refine (htruth.exactlyOne "urn:E1".toList (by decide +kernel)).mp ?_ ?_
  · rw [hsuccess]
    exact mem_cons_self
  · rw [herrors]
    exact mem_cons_self

end BatchResults
