import OrionLd.RegistrationRoundTrip
import OrionLd.TemporalValues

/-! When a row of the temporal database carries the data: no string has a quote in it, the value
is one of those that are written as they are, and the row has room in the buffers. -/
namespace TemporalWritten

open KjTree SqlRows PgAttributeAppend PgSubAttributeBuild TemporalRows TemporalValues List Option

variable (env : TroeEnv) (b : PgAppendBuffer)

def attributeStrings (a : AttributeArgs) : List Text :=
  [a.instanceId, a.attributeName, a.opMode, a.entityId, a.datasetId.getD "None".toList] ++
    (if a.isDelete then [] else a.observedAt.toList ++ a.unitCode.toList) ++
      [env.requestTimeString]

def attributeText (a : AttributeArgs) : Text := ((attributeCells env a).map rowText).getD []

structure AttributeWritten (a : AttributeArgs) : Prop where
  strings : ∀ s ∈ attributeStrings env a, '\'' ∉ s
  value : a.isDelete = false →
    ∃ type, a.type = some type ∧ ValueWritten env attributeCoordsLen type a.value a.object
  fits : RowFits b (attributeBufSize a) (attributeText env a)

def subAttributeStrings (a : SubAttributeArgs) : List Text :=
  [a.instanceId, a.subAttributeName, a.entityId, a.attrInstanceId,
    a.attrDatasetId.getD "None".toList] ++ a.observedAt.toList ++
      (a.unitCode.bind valueS).toList ++ [env.requestTimeString]

def subAttributeText (a : SubAttributeArgs) : Text :=
  ((subAttributeCells env a).map rowText).getD []

structure SubAttributeWritten (a : SubAttributeArgs) : Prop where
  strings : ∀ s ∈ subAttributeStrings env a, '\'' ∉ s
  unitCode : a.unitCode.map valueS ≠ some none
  value : ∃ type, a.type = some type ∧
    ValueWritten env subAttributeCoordsLen type a.value a.object
  fits : RowFits b subAttributeBufSize (subAttributeText env a)

variable {env : TroeEnv} {b : PgAppendBuffer} {bufSize : ℕ} {head middle : List Cell}
  {headColumns middleColumns : List Column}

theorem forall₂_row_iff {R : Cell → Column → Prop} {last : Cell} {lastColumn : Column}
    (hhead : head.length = headColumns.length) (hmiddle : middle.length = middleColumns.length) :
    List.Forall₂ R (head ++ middle ++ [last]) (headColumns ++ middleColumns ++ [lastColumn]) ↔
      List.Forall₂ R head headColumns ∧ List.Forall₂ R middle middleColumns ∧
        R last lastColumn := by
  have hlength : (head ++ middle).length = (headColumns ++ middleColumns).length := by
    rw [length_append, length_append, hhead, hmiddle]
  rw [forall₂_append_iff hlength, forall₂_append_iff hhead, forall₂_cons, and_assoc]
  exact and_congr_right fun _ => and_congr_right fun _ => and_iff_left .nil

theorem templateRow_iff {cells : Option (List Cell)} {columns : Option (List Column)}
    (hcells : cells = some (head ++ middle ++ [.quoted env.requestTimeString]))
    (hcolumns : columns =
      some (headColumns ++ middleColumns ++ [.text env.requestTimeString]))
    (hhead : List.Forall₂ (Fits env.toDouble) head headColumns)
    (hmiddle : List.Forall₂ (Fits env.toDouble) middle middleColumns)
    (hheadWell : ∀ c ∈ head, c.WellFormed) (hwell : ∀ c ∈ middle, c.WellFormed) :
    RowAppended env b (cells.bind fun cells => appendRow b bufSize (rowText cells)) columns ↔
      (List.Forall₂ (Written env.toDouble) head headColumns ∧
        List.Forall₂ (Written env.toDouble) middle middleColumns ∧ '\'' ∉ env.requestTimeString) ∧
      RowFits b bufSize ((cells.map rowText).getD []) := by
  subst hcells hcolumns
  have hne : head ++ middle ++ [Cell.quoted env.requestTimeString] ≠ [] :=
    append_ne_nil_of_right_ne_nil _ (cons_ne_nil _ _)
  have hrowWell : ∀ c ∈ head ++ middle ++ [Cell.quoted env.requestTimeString], c.WellFormed :=
    forall_mem_append.mpr
      ⟨forall_mem_append.mpr ⟨hheadWell, hwell⟩, forall_mem_singleton.mpr trivial⟩
  have hfits := (forall₂_row_iff hhead.length_eq hmiddle.length_eq).mpr
    ⟨hhead, hmiddle, fits_quoted env.requestTimeString⟩
  rw [bind_some, appendRow_iff hne hrowWell hfits,
    forall₂_row_iff hhead.length_eq hmiddle.length_eq, written_quoted_iff]
  rfl

variable {a : AttributeArgs}

theorem attributeRoomy : Roomy attributeCoordsLen := by
  intro geoType _
  unfold attributeCoordsLen
  decide

def updateHead (a : AttributeArgs) : List Cell :=
  [.quoted a.instanceId, .quoted a.attributeName, .quoted a.opMode, .quoted a.entityId,
    optionalCell a.observedAt, boolCell a.subProperties, optionalCell a.unitCode, a.datasetCell]

def updateColumns (a : AttributeArgs) : List Column :=
  [.text a.instanceId, .text a.attributeName, .text a.opMode, .text a.entityId,
    optionalText a.observedAt, .bool a.subProperties, optionalText a.unitCode,
    .text (a.datasetId.getD "None".toList)]

theorem updateHead_written_iff (hdelete : a.isDelete = false) :
    List.Forall₂ (Written env.toDouble) (updateHead a) (updateColumns a) ∧
        '\'' ∉ env.requestTimeString ↔
      ∀ s ∈ attributeStrings env a, '\'' ∉ s := by
  simp only [updateHead, updateColumns, attributeStrings, AttributeArgs.datasetCell, hdelete,
    Bool.false_eq_true, if_false, forall₂_cons, forall₂_nil_right_iff,
    written_quoted_iff, written_optional_iff, written_bool, forall_mem_append,
    forall_mem_cons, mem_toList]
  tauto

theorem updateHead_fits : List.Forall₂ (Fits env.toDouble) (updateHead a) (updateColumns a) :=
  .cons (fits_quoted _) (.cons (fits_quoted _) (.cons (fits_quoted _) (.cons (fits_quoted _)
    (.cons (fits_optional _) (.cons (fits_bool _ _) (.cons (fits_optional _)
      (.cons (fits_quoted _) .nil)))))))

theorem updateHead_wellFormed : ∀ c ∈ updateHead a, c.WellFormed := by
  have hquoted : ∀ s, (Cell.quoted s).WellFormed := fun _ => trivial
  simp [updateHead, AttributeArgs.datasetCell, hquoted, wellFormed_optional, wellFormed_bool]

theorem update_iff {type : Text} {cells : List Cell} {d : DueValue} (hdelete : a.isDelete = false)
    (htype : a.type = some type)
    (hcells : typedCells env attributeCoordsLen type a.value a.object = some cells)
    (hdue : dueValue env type a.value a.object = some d) :
    RowAppended env b (pgAttributeAppend env b a) (attributeRow env a) ↔
      AttributeWritten env b a := by
  have hin := typed_inTemplate attributeRoomy hcells hdue
  have hrow : attributeCells env a =
      some (updateHead a ++ cells ++ [.quoted env.requestTimeString]) := by
    unfold attributeCells
    rw [if_neg (ne_true_of_eq_false hdelete), htype]
    dsimp only [bind_eq_bind, bind_some]
    rw [hcells]
    rfl
  have hcolumns : attributeRow env a =
      some (updateColumns a ++ d.columns ++ [.text env.requestTimeString]) := by
    unfold attributeRow
    rw [if_neg (ne_true_of_eq_false hdelete), htype]
    dsimp only [bind_eq_bind, bind_some]
    rw [hdue]
    rfl
  refine (templateRow_iff hrow hcolumns updateHead_fits hin.fits updateHead_wellFormed
    hin.wellFormed).trans ?_
  rw [hin.written_iff]
  constructor
  · rintro ⟨⟨hhead, hvalue, htime⟩, hfits⟩
    exact ⟨(updateHead_written_iff hdelete).mp ⟨hhead, htime⟩, fun _ => ⟨type, htype, hvalue⟩,
      hfits⟩
  · rintro ⟨hstrings, hvalue, hfits⟩
    obtain ⟨hhead, htime⟩ := (updateHead_written_iff hdelete).mpr hstrings
    obtain ⟨type', htype', hvalue⟩ := hvalue hdelete
    obtain rfl := some.inj (htype.symm.trans htype')
    exact ⟨⟨hhead, hvalue, htime⟩, hfits⟩

def deleteHead (a : AttributeArgs) : List Cell :=
  [.quoted a.instanceId, .quoted a.attributeName, .quoted a.opMode, .quoted a.entityId,
    nullCell, nullCell, nullCell, a.datasetCell]

def deleteColumns (a : AttributeArgs) : List Column :=
  [.text a.instanceId, .text a.attributeName, .text a.opMode, .text a.entityId,
    .null, .null, .null, .text (a.datasetId.getD "None".toList)]

theorem deleteHead_written_iff (hdelete : a.isDelete = true) :
    List.Forall₂ (Written env.toDouble) (deleteHead a) (deleteColumns a) ∧
        '\'' ∉ env.requestTimeString ↔
      ∀ s ∈ attributeStrings env a, '\'' ∉ s := by
  simp only [deleteHead, deleteColumns, attributeStrings, AttributeArgs.datasetCell, hdelete,
    if_true, forall₂_cons, forall₂_nil_right_iff, written_quoted_iff, written_null,
    forall_mem_append, forall_mem_cons]
  tauto

theorem deleteHead_fits : List.Forall₂ (Fits env.toDouble) (deleteHead a) (deleteColumns a) :=
  .cons (fits_quoted _) (.cons (fits_quoted _) (.cons (fits_quoted _) (.cons (fits_quoted _)
    (.cons (fun _ _ => trivial) (.cons (fun _ _ => trivial) (.cons (fun _ _ => trivial)
      (.cons (fits_quoted _) .nil)))))))

theorem deleteHead_wellFormed : ∀ c ∈ deleteHead a, c.WellFormed := by
  have hquoted : ∀ s, (Cell.quoted s).WellFormed := fun _ => trivial
  simp [deleteHead, AttributeArgs.datasetCell, hquoted, wellFormed_null]

theorem delete_iff (hdelete : a.isDelete = true) :
    RowAppended env b (pgAttributeAppend env b a) (attributeRow env a) ↔
      AttributeWritten env b a := by
  have hopMode : a.opMode = "Delete".toList := of_decide_eq_true hdelete
  have hrow : attributeCells env a =
      some (deleteHead a ++ nulls 12 ++ [.quoted env.requestTimeString]) := by
    unfold attributeCells deleteHead
    rw [if_pos hdelete, hopMode]
  have hcolumns : attributeRow env a = some (deleteColumns a ++ List.replicate 12 .null ++
      [.text env.requestTimeString]) := by
    unfold attributeRow
    rw [if_pos hdelete]
    rfl
  refine (templateRow_iff hrow hcolumns deleteHead_fits
    (forall₂_nulls (fun _ _ => trivial) 12) deleteHead_wellFormed (wellFormed_nulls 12)).trans ?_
  constructor
  · rintro ⟨⟨hhead, -, htime⟩, hfits⟩
    refine ⟨(deleteHead_written_iff hdelete).mp ⟨hhead, htime⟩, fun hupdate => ?_, hfits⟩
    exact absurd (hdelete.symm.trans hupdate) (by decide)
  · rintro ⟨hstrings, -, hfits⟩
    obtain ⟨hhead, htime⟩ := (deleteHead_written_iff hdelete).mpr hstrings
    exact ⟨⟨hhead, forall₂_nulls written_null 12, htime⟩, hfits⟩

theorem attribute_appended_iff (env : TroeEnv) (b : PgAppendBuffer) (a : AttributeArgs) :
    RowAppended env b (pgAttributeAppend env b a) (attributeRow env a) ↔
      AttributeWritten env b a := by
  by_cases hdelete : a.isDelete = true
  · exact delete_iff hdelete
  have hupdate := Bool.eq_false_of_not_eq_true hdelete
  constructor
  · intro h
    have happended := h
    obtain ⟨b', columns, row, values, happend, hrow, -⟩ := happended
    obtain ⟨rowCells, hcells, -⟩ := bind_eq_some_iff.mp happend
    unfold attributeCells at hcells
    unfold attributeRow at hrow
    rw [if_neg hdelete] at hcells hrow
    obtain ⟨type, htype, hcells⟩ := bind_eq_some_iff.mp hcells
    obtain ⟨cells, hcells, -⟩ := bind_eq_some_iff.mp hcells
    rw [htype, bind_eq_bind, bind_some] at hrow
    obtain ⟨d, hdue, -⟩ := bind_eq_some_iff.mp hrow
    exact (update_iff hupdate htype hcells hdue).mp h
  · intro h
    obtain ⟨type, htype, hvalue⟩ := h.value hupdate
    obtain ⟨cells, d, hcells, hdue⟩ := typed_some attributeRoomy hvalue
    exact (update_iff hupdate htype hcells hdue).mpr h

variable {a : SubAttributeArgs}

theorem subAttributeRoomy : Roomy subAttributeCoordsLen := by
  intro geoType hpoint
  cases geoType with
  | point => exact absurd rfl hpoint
  | _ => decide

def subAttributeHead (a : SubAttributeArgs) : List Cell :=
  [.quoted a.instanceId, .quoted a.subAttributeName, .quoted a.entityId,
    .quoted a.attrInstanceId, .quoted (a.attrDatasetId.getD "None".toList),
    optionalCell a.observedAt, optionalCell (a.unitCode.bind valueS)]

def subAttributeHeadColumns (a : SubAttributeArgs) : List Column :=
  [.text a.instanceId, .text a.subAttributeName, .text a.entityId,
    .text a.attrInstanceId, .text (a.attrDatasetId.getD "None".toList),
    optionalText a.observedAt, optionalText (a.unitCode.bind valueS)]

theorem subAttributeHead_written_iff :
    List.Forall₂ (Written env.toDouble) (subAttributeHead a) (subAttributeHeadColumns a) ∧
        '\'' ∉ env.requestTimeString ↔
      ∀ s ∈ subAttributeStrings env a, '\'' ∉ s := by
  simp only [subAttributeHead, subAttributeHeadColumns, subAttributeStrings, forall₂_cons,
    forall₂_nil_right_iff, written_quoted_iff, written_optional_iff,
    forall_mem_append, forall_mem_cons, mem_toList]
  tauto

theorem subAttributeHead_fits :
    List.Forall₂ (Fits env.toDouble) (subAttributeHead a) (subAttributeHeadColumns a) :=
  .cons (fits_quoted _) (.cons (fits_quoted _) (.cons (fits_quoted _) (.cons (fits_quoted _)
    (.cons (fits_quoted _) (.cons (fits_optional _) (.cons (fits_optional _) .nil))))))

theorem subAttributeHead_wellFormed : ∀ c ∈ subAttributeHead a, c.WellFormed := by
  have hquoted : ∀ s, (Cell.quoted s).WellFormed := fun _ => trivial
  simp [subAttributeHead, hquoted, wellFormed_optional]

theorem unitCodeCell_eq (unitCode : Option KjNode) : unitCodeCell unitCode =
    if unitCode.map valueS = some none then none
    else some (optionalCell (unitCode.bind valueS)) := by
  cases unitCode with
  | none => rfl
  | some node =>
    cases hnode : valueS node with
    | none => simp [unitCodeCell, hnode]
    | some s => simp [unitCodeCell, hnode, optionalCell]

theorem datasetCell_eq (attrDatasetId : Option Text) :
    datasetCell attrDatasetId = .quoted (attrDatasetId.getD "None".toList) := by
  cases attrDatasetId <;> rfl

theorem build_iff {type : Text} {cells : List Cell} {d : DueValue}
    (hunitCode : a.unitCode.map valueS ≠ some none) (htype : a.type = some type)
    (hcells : typedCells env subAttributeCoordsLen type a.value a.object = some cells)
    (hdue : dueValue env type a.value a.object = some d) :
    RowAppended env b (subAttributeAppend env b a) (subAttributeRow env a) ↔
      SubAttributeWritten env b a := by
  have hin := typed_inTemplate subAttributeRoomy hcells hdue
  have hrow : subAttributeCells env a =
      some (subAttributeHead a ++ cells ++ [.quoted env.requestTimeString]) := by
    unfold subAttributeCells subAttributeHead
    rw [unitCodeCell_eq, if_neg hunitCode, htype, datasetCell_eq]
    dsimp only [bind_eq_bind, bind_some]
    rw [hcells]
    rfl
  have hcolumns : subAttributeRow env a =
      some (subAttributeHeadColumns a ++ d.columns ++ [.text env.requestTimeString]) := by
    unfold subAttributeRow
    rw [if_neg hunitCode, htype]
    dsimp only [bind_eq_bind, bind_some]
    rw [hdue]
    rfl
  refine (templateRow_iff hrow hcolumns subAttributeHead_fits hin.fits
    subAttributeHead_wellFormed hin.wellFormed).trans ?_
  rw [hin.written_iff]
  constructor
  · rintro ⟨⟨hhead, hvalue, htime⟩, hfits⟩
    exact ⟨subAttributeHead_written_iff.mp ⟨hhead, htime⟩, hunitCode, ⟨type, htype, hvalue⟩, hfits⟩
  · rintro ⟨hstrings, -, ⟨type', htype', hvalue⟩, hfits⟩
    obtain ⟨hhead, htime⟩ := subAttributeHead_written_iff.mpr hstrings
    obtain rfl := some.inj (htype.symm.trans htype')
    exact ⟨⟨hhead, hvalue, htime⟩, hfits⟩

theorem subAttribute_appended_iff (env : TroeEnv) (b : PgAppendBuffer) (a : SubAttributeArgs) :
    RowAppended env b (subAttributeAppend env b a) (subAttributeRow env a) ↔
      SubAttributeWritten env b a := by
  constructor
  · intro h
    have happended := h
    obtain ⟨b', columns, row, values, happend, hrow, -⟩ := happended
    obtain ⟨rowCells, hcells, -⟩ := bind_eq_some_iff.mp happend
    obtain ⟨unitCode, -, hcells⟩ := bind_eq_some_iff.mp hcells
    obtain ⟨type, htype, hcells⟩ := bind_eq_some_iff.mp hcells
    obtain ⟨cells, hcells, -⟩ := bind_eq_some_iff.mp hcells
    unfold subAttributeRow at hrow
    split_ifs at hrow with hunitCode
    rw [htype, bind_eq_bind, bind_some] at hrow
    obtain ⟨d, hdue, -⟩ := bind_eq_some_iff.mp hrow
    exact (build_iff hunitCode htype hcells hdue).mp h
  · intro h
    obtain ⟨type, htype, hvalue⟩ := h.value
    obtain ⟨cells, d, hcells, hdue⟩ := typed_some subAttributeRoomy hvalue
    exact (build_iff h.unitCode htype hcells hdue).mpr h

def builtRow (env : TroeEnv) (s : SubAttribute) : Option (List Column) :=
  match s.node with
  | .object members => subAttributeRow env (subAttributeArgs env s members)
  | _ => none

def Built (env : TroeEnv) (b : PgAppendBuffer) (s : SubAttribute) : Prop :=
  match s.node with
  | .object members => SubAttributeWritten env b (subAttributeArgs env s members)
  | _ => False

theorem built_appended_iff (env : TroeEnv) (b : PgAppendBuffer) (s : SubAttribute) :
    RowAppended env b (pgSubAttributeBuild env b s) (builtRow env s) ↔ Built env b s := by
  obtain ⟨instanceId, entityId, attrInstanceId, attrDatasetId, name, node⟩ := s
  have hnone : ∀ after, RowAppended env b after none ↔ False := by
    refine fun after => ⟨?_, False.elim⟩
    rintro ⟨b', columns, row, values, -, hcolumns, -⟩
    cases hcolumns
  cases node with
  | object members => exact subAttribute_appended_iff env b _
  | _ => exact hnone _

/-- An attribute or a sub-attribute gets its row in the temporal database exactly when no
string of it has a quote, its value is one that is written as it is, and there is room. -/
theorem rows_carry_data_iff (env : TroeEnv) (b : PgAppendBuffer) :
    (∀ a, RowAppended env b (pgAttributeAppend env b a) (attributeRow env a) ↔
      AttributeWritten env b a) ∧
    ∀ s, RowAppended env b (pgSubAttributeBuild env b s) (builtRow env s) ↔ Built env b s :=
  ⟨attribute_appended_iff env b, built_appended_iff env b⟩

def noticeEnv : TroeEnv where
  toDouble := id
  kjFastRender := fun _ => []
  requestTimeString := "2021-10-20T10:00:00.000Z".toList
  dates := RegistrationRoundTrip.bareDateEnv

def firstBuffer : PgAppendBuffer := ⟨[], 2048, false, 0⟩

def ownerAttribute : AttributeArgs where
  instanceId := "urn:1".toList
  attributeName := "owner".toList
  opMode := "Create".toList
  entityId := "urn:E1".toList
  type := some "Property".toList
  observedAt := none
  subProperties := false
  unitCode := none
  datasetId := none
  value := some (.string "O'Hara".toList)
  object := none

theorem quoted_value_lost : ¬ RowAppended noticeEnv firstBuffer
    (pgAttributeAppend noticeEnv firstBuffer ownerAttribute)
    (attributeRow noticeEnv ownerAttribute) := by
  rw [attribute_appended_iff]
  intro h
  obtain ⟨type, htype, hvalue⟩ := h.value (by decide)
  cases htype
  unfold ValueWritten at hvalue
  obtain ⟨v, hv, hwritten⟩ := hvalue
  cases hv
  have hplain : '\'' ∉ "O'Hara".toList := hwritten
  exact absurd hplain (by decide)

example : attributeText noticeEnv ownerAttribute =
    ("('urn:1', 'owner', 'Create', 'urn:E1', null, false, null, 'None', 'String', 'O'Hara', " ++
      "null, null, null, null, null, null, null, null, null, null, " ++
      "'2021-10-20T10:00:00.000Z')").toList := by decide +kernel

end TemporalWritten
