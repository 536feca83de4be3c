import OrionLd.GeometryWritten
import OrionLd.PgSubAttributeBuild

/-! The rows that the temporal database is due for an attribute or a sub-attribute, by the
names of the columns, and what it takes for the text that is appended to be read as one. -/
namespace TemporalRows

open KjTree KjGeoExtract PointTexts GeometryWritten SqlRows WktTokens
open PgAttributeAppend PgSubAttributeBuild List

section

inductive ColumnName where
  | instanceId | id | opMode | entityId | attrInstanceId | attrDatasetId | observedAt
  | subProperties | unitCode | datasetId | valueType | text | boolean | number | datetime
  | compound | geoPoint | geoMultiPoint | geoPolygon | geoMultiPolygon | geoLineString
  | geoMultiLineString | ts
  deriving DecidableEq

open ColumnName

def valueColumns : List ColumnName :=
  [text, boolean, number, datetime, compound, geoPoint, geoMultiPoint, geoPolygon,
    geoMultiPolygon, geoLineString, geoMultiLineString]

def attributeColumns : List ColumnName :=
  [instanceId, id, opMode, entityId, observedAt, subProperties, unitCode, datasetId, valueType] ++
    valueColumns ++ [ts]

def subAttributeColumns : List ColumnName :=
  [instanceId, id, entityId, attrInstanceId, attrDatasetId, observedAt, unitCode, valueType] ++
    valueColumns ++ [ts]

inductive Column where
  | null
  | text (s : Text)
  | bool (b : Bool)
  | int (i : ℤ)
  | double (x : ℚ)
  | geometry (g : Geometry)

def optionalText : Option Text → Column
  | none => .null
  | some s => .text s

/-- A literal of a double is read as the nearest one. -/
def Column.Holds (toDouble : ℚ → ℚ) : Column → Value → Prop
  | .null, v => v = .null
  | .text s, v => v = .text s
  | .bool b, v => v = .bool b
  | .int i, v => v = .number i
  | .double x, v => ∃ y, v = .number y ∧ toDouble y = x
  | .geometry g, v => ∃ argument srid, v = .call "ST_GeomFromText".toList argument srid ∧
      tokens (doubleOf toDouble) argument = g.tokens

structure DueValue where
  valueType : String
  column : ColumnName
  value : Column

variable (env : TroeEnv)

def geometryValue (g : Geometry) : DueValue :=
  match g with
  | .point _ => ⟨"GeoPoint", geoPoint, .geometry g⟩
  | .multiPoint _ => ⟨"GeoMultiPoint", geoMultiPoint, .geometry g⟩
  | .lineString _ => ⟨"GeoLineString", geoLineString, .geometry g⟩
  | .multiLineString _ => ⟨"GeoMultiLineString", geoMultiLineString, .geometry g⟩
  | .polygon _ => ⟨"GeoPolygon", geoPolygon, .geometry g⟩
  | .multiPolygon _ => ⟨"GeoMultiPolygon", geoMultiPolygon, .geometry g⟩

def geometryOfValue (value : KjNode) : Option (GeoType × Geometry) := do
  let type ← geoTypeOf (← geoTypeName value)
  let coordinates ← kjLookup value "coordinates"
  let g ← geometryOf env.toDouble coordinates type
  some (type, g)

def propertyValue : KjNode → Option DueValue
  | .string s => some ⟨"String", text, .text s⟩
  | .bool b => some ⟨"Boolean", boolean, .bool b⟩
  | .int i => some ⟨"Number", number, .int i⟩
  | .float x => some ⟨"Number", number, .double x⟩
  | .array items => some ⟨"Compound", compound, .text (env.kjFastRender (.array items))⟩
  | .object members => some ⟨"Compound", compound, .text (env.kjFastRender (.object members))⟩
  | .null => none

def dueValue (type : Text) (value : Option KjNode) (object : Option Text) : Option DueValue :=
  if type = "Relationship".toList then
    object.map fun object => ⟨"Relationship", text, .text object⟩
  else if type = "GeoProperty".toList then
    (value.bind (geometryOfValue env)).map fun g => geometryValue g.2
  else value.bind (propertyValue env)

def DueValue.at (d : DueValue) (c : ColumnName) : Column :=
  if c = d.column then d.value else .null

def DueValue.columns (d : DueValue) : List Column :=
  .text d.valueType.toList :: valueColumns.map d.at

def attributeColumn (a : AttributeArgs) (d : Option DueValue) : ColumnName → Column
  | .instanceId => .text a.instanceId
  | .id => .text a.attributeName
  | .opMode => .text a.opMode
  | .entityId => .text a.entityId
  | .observedAt => if d.isSome then optionalText a.observedAt else .null
  | .subProperties => if d.isSome then .bool a.subProperties else .null
  | .unitCode => if d.isSome then optionalText a.unitCode else .null
  | .datasetId => .text (a.datasetId.getD "None".toList)
  | .valueType => optionalText (d.map fun d => d.valueType.toList)
  | .ts => .text env.requestTimeString
  | c => (d.map fun d => d.at c).getD .null

def attributeRow (a : AttributeArgs) : Option (List Column) :=
  if a.isDelete then some (attributeColumns.map (attributeColumn env a none))
  else do
    let d ← dueValue env (← a.type) a.value a.object
    some (attributeColumns.map (attributeColumn env a (some d)))

def subAttributeColumn (a : SubAttributeArgs) (d : DueValue) : ColumnName → Column
  | .instanceId => .text a.instanceId
  | .id => .text a.subAttributeName
  | .entityId => .text a.entityId
  | .attrInstanceId => .text a.attrInstanceId
  | .attrDatasetId => .text (a.attrDatasetId.getD "None".toList)
  | .observedAt => optionalText a.observedAt
  | .unitCode => optionalText (a.unitCode.bind valueS)
  | .valueType => .text d.valueType.toList
  | .ts => .text env.requestTimeString
  | c => d.at c

/-- The row of a sub-attribute whose unit code, if it has one, is a string. -/
def subAttributeRow (a : SubAttributeArgs) : Option (List Column) :=
  if a.unitCode.map valueS = some none then none
  else do
    let d ← dueValue env (← a.type) a.value a.object
    some (subAttributeColumns.map (subAttributeColumn env a d))

/-- The text appended is one more row, with the values that are due in its columns. -/
def RowAppended (before : PgAppendBuffer) (after : Option PgAppendBuffer)
    (due : Option (List Column)) : Prop :=
  ∃ b columns row values, after = some b ∧ due = some columns ∧ b.values = before.values + 1 ∧
    b.buf = before.buf ++ ((if before.values ≠ 0 then [','] else []) ++ row) ∧
    readRow row = some (values, []) ∧
    List.Forall₂ (Column.Holds env.toDouble) columns values

end

variable {toDouble : ℚ → ℚ} {cell : Cell} {column : Column} {cells : List Cell}
  {columns : List Column} {t : Text}

/-- What is due in a column is spliced in the cell. -/
def Fits (toDouble : ℚ → ℚ) (cell : Cell) (column : Column) : Prop :=
  ∀ v, column.Holds toDouble v → cell.Due v

def Written (toDouble : ℚ → ℚ) (cell : Cell) (column : Column) : Prop :=
  ∃ v, cell.Reads v ∧ column.Holds toDouble v

theorem forall₂_written_iff : List.Forall₂ (Written toDouble) cells columns ↔
    ∃ values, List.Forall₂ Cell.Reads cells values ∧
      List.Forall₂ (Column.Holds toDouble) columns values := by
  constructor
  · intro h
    induction h with
    | nil => exact ⟨[], .nil, .nil⟩
    | cons hcell _ ih =>
      obtain ⟨v, hreads, hholds⟩ := hcell
      obtain ⟨values, hcells, hcolumns⟩ := ih
      exact ⟨v :: values, .cons hreads hcells, .cons hholds hcolumns⟩
  · rintro ⟨values, hcells, hcolumns⟩
    induction hcells generalizing columns with
    | nil =>
      cases hcolumns
      exact .nil
    | cons hreads _ ih =>
      cases hcolumns with
      | cons hholds hcolumns => exact .cons ⟨_, hreads, hholds⟩ (ih hcolumns)

theorem due_of_fits {values : List Value} (hfits : List.Forall₂ (Fits toDouble) cells columns)
    (h : List.Forall₂ (Column.Holds toDouble) columns values) :
    List.Forall₂ Cell.Due cells values := by
  induction hfits generalizing values with
  | nil =>
    cases h
    exact .nil
  | cons hfit _ ih =>
    cases h with
    | cons hholds h => exact .cons (hfit _ hholds) (ih h)

theorem row_read_iff (hne : cells ≠ []) (hwell : ∀ c ∈ cells, c.WellFormed)
    (hfits : List.Forall₂ (Fits toDouble) cells columns) (hpart : t <+: rowText cells) :
    (∃ values, readRow t = some (values, []) ∧
        List.Forall₂ (Column.Holds toDouble) columns values) ↔
      List.Forall₂ (Written toDouble) cells columns ∧ t = rowText cells := by
  rw [forall₂_written_iff]
  constructor
  · rintro ⟨values, hread, hholds⟩
    obtain ⟨hreads, heq⟩ := (readRow_part hne hwell (due_of_fits hfits hholds) hpart).mp hread
    exact ⟨⟨values, hreads, hholds⟩, heq⟩
  · rintro ⟨⟨values, hreads, hholds⟩, heq⟩
    exact ⟨values, (readRow_part hne hwell (due_of_fits hfits hholds) hpart).mpr
      ⟨hreads, heq⟩, hholds⟩

theorem forall₂_append_iff {α β : Type} {R : α → β → Prop} {as as' : List α} {bs bs' : List β}
    (hlength : as.length = bs.length) : List.Forall₂ R (as ++ as') (bs ++ bs') ↔
      List.Forall₂ R as bs ∧ List.Forall₂ R as' bs' := by
  induction as generalizing bs with
  | nil =>
    obtain rfl := length_eq_zero_iff.mp hlength.symm
    exact (and_iff_right .nil).symm
  | cons a as ih =>
    obtain ⟨b, bs, rfl⟩ := exists_cons_of_length_eq_add_one hlength.symm
    rw [cons_append, cons_append, forall₂_cons, forall₂_cons, ih (Nat.succ.inj hlength), and_assoc]

variable {env : TroeEnv} {b : PgAppendBuffer} {bufSize : ℕ}

def commaOf (b : PgAppendBuffer) : Text := if b.values ≠ 0 then [','] else []

/-- The row with its comma has room in its own buffer, and in the one it goes to when that one has
grown once. -/
structure RowFits (b : PgAppendBuffer) (bufSize : ℕ) (row : Text) : Prop where
  own : (commaOf b ++ row).length < bufSize
  appended : b.buf.length + (commaOf b ++ row).length < grownSize b.bufSize

theorem le_grownSize (bufSize : ℕ) : bufSize ≤ grownSize bufSize := by
  unfold grownSize
  dsimp only
  split_ifs <;> omega

theorem pgAppend_eq_some {tail : Text} {b' : PgAppendBuffer} (h : pgAppend b tail = some b') :
    b'.buf = b.buf ++ tail ∧ b'.values = b.values ∧
      b.buf.length + tail.length < grownSize b.bufSize := by
  unfold pgAppend at h
  split at h
  · dsimp only at h
    rw [grow_buf, grow_bufSize] at h
    split_ifs at h with hgrown
    cases h
    refine ⟨rfl, ?_, hgrown⟩
    dsimp only
    exact grow_values b
  · dsimp only at h
    split_ifs at h with hsame
    cases h
    exact ⟨rfl, rfl, lt_of_lt_of_le hsame (le_grownSize _)⟩

theorem pgAppend_fits {tail : Text} (h : b.buf.length + tail.length < grownSize b.bufSize) :
    ∃ b', pgAppend b tail = some b' ∧ b'.buf = b.buf ++ tail ∧ b'.values = b.values := by
  unfold pgAppend
  split
  · dsimp only
    rw [grow_buf, grow_bufSize, if_pos h]
    refine ⟨_, rfl, rfl, ?_⟩
    dsimp only
    exact grow_values b
  · next hroom =>
    exact ⟨_, if_pos (Nat.lt_of_not_le hroom), rfl, rfl⟩

theorem appendRow_iff (hne : cells ≠ []) (hwell : ∀ c ∈ cells, c.WellFormed)
    (hfits : List.Forall₂ (Fits env.toDouble) cells columns) :
    RowAppended env b (appendRow b bufSize (rowText cells)) (some columns) ↔
      List.Forall₂ (Written env.toDouble) cells columns ∧ RowFits b bufSize (rowText cells) := by
  constructor
  · rintro ⟨b', columns', row, values, happend, hcolumns, -, hbuf, hread, hholds⟩
    cases hcolumns
    obtain ⟨appended, htail, hb'⟩ := Option.bind_eq_some_iff.mp happend
    cases hb'
    obtain ⟨happended, -, hroom⟩ := pgAppend_eq_some htail
    have htext : snprintf bufSize (commaOf b ++ rowText cells) = commaOf b ++ row :=
      append_cancel_left (happended.symm.trans hbuf)
    have hpart : row <+: rowText cells := by
      have htake := take_prefix (bufSize - 1) (commaOf b ++ rowText cells)
      unfold snprintf at htext
      rw [htext] at htake
      exact (prefix_append_right_inj _).mp htake
    obtain ⟨hwritten, rfl⟩ := (row_read_iff hne hwell hfits hpart).mp ⟨values, hread, hholds⟩
    have hlength := congrArg List.length htext
    unfold snprintf at hlength
    rw [length_take] at hlength
    have hpos : 0 < (commaOf b ++ rowText cells).length := by
      rw [length_append]
      exact Nat.add_pos_right _ (Nat.succ_pos _)
    have hroom : b.buf.length + (snprintf bufSize (commaOf b ++ rowText cells)).length <
        grownSize b.bufSize := hroom
    rw [htext] at hroom
    exact ⟨hwritten, by omega, hroom⟩
  · rintro ⟨hwritten, hown, hroom⟩
    obtain ⟨values, hread, hholds⟩ := (row_read_iff hne hwell hfits prefix_rfl).mpr ⟨hwritten, rfl⟩
    have htext : snprintf bufSize (commaOf b ++ rowText cells) = commaOf b ++ rowText cells :=
      take_of_length_le (Nat.le_sub_one_of_lt hown)
    obtain ⟨b', happend, hbuf, hvalues⟩ := pgAppend_fits hroom
    rw [← htext] at happend
    refine ⟨_, columns, rowText cells, values, Option.bind_eq_some_iff.mpr ⟨b', happend, rfl⟩, rfl,
      congrArg (· + 1) hvalues, hbuf, hread, hholds⟩

end TemporalRows
