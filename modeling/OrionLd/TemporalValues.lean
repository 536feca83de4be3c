import OrionLd.GeoTextPlain
import OrionLd.TemporalRows

/-! The values that the templates write as they are: strings without a quote, numbers that keep
their value with six decimals, and geometries that have room in the buffers. -/
namespace TemporalValues

open DecimalText KjTree KjGeoExtract PointTexts GeometryWritten SqlRows WktTokens
open PgAttributeAppend TemporalRows List Option
open StringFilter (printfF)
open StringFilterRoundTrip (intText)

variable {toDouble : ℚ → ℚ} {s text : Text} {b : Bool} {i : ℤ} {x : ℚ} {srid : Option Text}
  {g : Geometry}

theorem written_quoted_iff : Written toDouble (.quoted s) (.text s) ↔ '\'' ∉ s := by
  constructor
  · rintro ⟨v, ⟨hplain, -⟩, -⟩
    exact hplain
  · intro hplain
    exact ⟨_, ⟨hplain, rfl⟩, rfl⟩

theorem written_null : Written toDouble nullCell .null := ⟨_, rfl, rfl⟩

theorem written_optional_iff {o : Option Text} :
    Written toDouble (optionalCell o) (optionalText o) ↔ ∀ s ∈ o, '\'' ∉ s := by
  cases o with
  | none => exact iff_of_true written_null fun s hs => absurd hs (not_mem_none s)
  | some s =>
    refine written_quoted_iff.trans ⟨?_, fun h => h s rfl⟩
    rintro hplain s' ⟨⟩
    exact hplain

theorem written_bool : Written toDouble (boolCell b) (.bool b) := by
  cases b <;> exact ⟨_, rfl, rfl⟩

theorem decimalValue_intText (i : ℤ) : decimalValue (intText i) = some (i : ℚ) := by
  have hvalue := decimalValue_int (decide (i < 0)) i.natAbs
  have habs : (i : ℚ) = if decide (i < 0) = true then -(i.natAbs : ℚ) else i.natAbs := by
    rw [Nat.cast_natAbs]
    by_cases hi : i < 0
    · rw [if_pos (decide_eq_true hi), abs_of_neg hi, Int.cast_neg, neg_neg]
    · rw [if_neg (by simpa using hi), abs_of_nonneg (Int.not_lt.mp hi)]
  rw [habs, ← hvalue]
  unfold intText
  simp

theorem written_double_iff :
    Written toDouble (.word (printfF x)) (.double x) ↔ toDouble (sixDecimals x) = x := by
  have hword := wordValue_number (decimalValue_printfF x)
  constructor
  · rintro ⟨v, hreads, y, rfl, hy⟩
    have hreads : wordValue (printfF x) = some (.number y) := hreads
    rw [hword] at hreads
    rwa [Value.number.inj (some.inj hreads)]
  · intro h
    exact ⟨_, hword, _, rfl, h⟩

theorem written_geometry_iff : Written toDouble (geomFromText text srid) (.geometry g) ↔
    tokens (doubleOf toDouble) text = g.tokens := by
  constructor
  · rintro ⟨v, rfl, argument, srid', heq, htokens⟩
    obtain ⟨-, rfl, -⟩ := Value.call.inj heq
    exact htokens
  · intro htokens
    exact ⟨_, rfl, text, srid, rfl, htokens⟩

theorem isWordChar_of_isNumeric {c : Char} (h : isNumeric c = true) : isWordChar c = true := by
  have hne : ∀ d, isNumeric d = false → c ≠ d := by
    rintro d hd rfl
    rw [h] at hd
    cases hd
  unfold isWordChar Char.isWhitespace
  simp [hne '(' (by decide), hne ')' (by decide), hne ',' (by decide), hne '\'' (by decide),
    hne ' ' (by decide), hne '\t' (by decide), hne '\r' (by decide), hne '\n' (by decide)]

theorem wellFormed_int (i : ℤ) : (Cell.word (intText i)).WellFormed := by
  refine ⟨StringFilterRoundTrip.intText_ne_nil i, fun c hc => isWordChar_of_isNumeric ?_⟩
  rcases StringFilterRoundTrip.mem_intText hc with rfl | hdigit
  · decide
  unfold isNumeric
  rw [hdigit]
  rfl

theorem wellFormed_float (x : ℚ) : (Cell.word (printfF x)).WellFormed :=
  ⟨printfF_ne_nil x, fun _ hc => isWordChar_of_isNumeric (mem_printfF hc)⟩

theorem wellFormed_null : nullCell.WellFormed := ⟨by decide, List.all_eq_true.mp (by decide)⟩

theorem wellFormed_bool (b : Bool) : (boolCell b).WellFormed := by
  cases b <;> exact ⟨by decide, all_eq_true.mp (by decide)⟩

theorem wellFormed_optional (o : Option Text) : (optionalCell o).WellFormed := by
  cases o with
  | none => exact wellFormed_null
  | some s => trivial

theorem fits_quoted (s : Text) : Fits toDouble (.quoted s) (.text s) := fun _ h => h

theorem fits_bool (b b' : Bool) : Fits toDouble (boolCell b) (.bool b') := by
  cases b <;> exact fun _ _ => trivial

theorem fits_optional (o : Option Text) : Fits toDouble (optionalCell o) (optionalText o) := by
  cases o with
  | none => exact fun _ _ => trivial
  | some s => exact fun _ h => h

theorem forall₂_nulls {R : Cell → Column → Prop} (hnull : R nullCell .null) (n : ℕ) :
    List.Forall₂ R (nulls n) (List.replicate n .null) := by
  induction n with
  | zero => exact .nil
  | succ n ih => exact .cons hnull ih

theorem wellFormed_nulls (n : ℕ) : ∀ c ∈ nulls n, c.WellFormed := by
  intro c hc
  rw [eq_of_mem_replicate hc]
  exact wellFormed_null

theorem forall₂_values_iff {R : Cell → Column → Prop} (hnull : R nullCell .null) {cell : Cell}
    {column : Column} (before after : ℕ) :
    List.Forall₂ R (nulls before ++ cell :: nulls after)
        (List.replicate before .null ++ column :: List.replicate after .null) ↔ R cell column := by
  rw [forall₂_append_iff (by simp [nulls]), forall₂_cons]
  exact ⟨fun h => h.2.1, fun h => ⟨forall₂_nulls hnull before, h, forall₂_nulls hnull after⟩⟩

variable (env : TroeEnv)

/-- The values that are written as they are. -/
def PropertyWritten : KjNode → Prop
  | .string s => '\'' ∉ s
  | .bool _ => True
  | .int _ => True
  | .float x => env.toDouble (sixDecimals x) = x
  | .array items => '\'' ∉ env.kjFastRender (.array items)
  | .object members => '\'' ∉ env.kjFastRender (.object members)
  | .null => False

def ValueWritten (coordsLen : GeoType → ℕ) (type : Text) (value : Option KjNode)
    (object : Option Text) : Prop :=
  if type = "Relationship".toList then ∃ o ∈ object, '\'' ∉ o
  else if type = "GeoProperty".toList then
    ∃ v ∈ value, ∃ g, geometryOfValue env v = some g ∧ g.2.Written env.toDouble (coordsLen g.1)
  else ∃ v ∈ value, PropertyWritten env v

variable {env} {coordsLen : GeoType → ℕ} {type : Text} {value : Option KjNode}
  {object : Option Text} {cells : List Cell} {d : DueValue}

/-- The cells of a value are those of one template, with the value at the place of its column. -/
structure InTemplate (toDouble : ℚ → ℚ) (cells : List Cell) (d : DueValue) (P : Prop) : Prop where
  template : ∃ before cell after, cells = valueCells d.valueType before cell after ∧
    valueColumns.map d.at = List.replicate before .null ++ d.value :: List.replicate after .null ∧
    cell.WellFormed ∧ Fits toDouble cell d.value ∧ (Written toDouble cell d.value ↔ P)
  valueType : '\'' ∉ d.valueType.toList

variable {P : Prop} {v : KjNode}

theorem InTemplate.written_iff (h : InTemplate env.toDouble cells d P) :
    List.Forall₂ (Written env.toDouble) cells d.columns ↔ P := by
  obtain ⟨before, cell, after, rfl, hcolumns, -, -, hwritten⟩ := h.template
  unfold valueCells DueValue.columns
  rw [hcolumns, forall₂_cons, forall₂_values_iff written_null, hwritten]
  exact and_iff_right (written_quoted_iff.mpr h.valueType)

theorem InTemplate.fits (h : InTemplate env.toDouble cells d P) :
    List.Forall₂ (Fits env.toDouble) cells d.columns := by
  obtain ⟨before, cell, after, rfl, hcolumns, -, hfits, -⟩ := h.template
  unfold valueCells DueValue.columns
  rw [hcolumns, forall₂_cons, forall₂_values_iff fun _ _ => trivial]
  exact ⟨fun _ h => h, hfits⟩

theorem InTemplate.wellFormed (h : InTemplate env.toDouble cells d P) :
    ∀ c ∈ cells, c.WellFormed := by
  obtain ⟨before, cell, after, rfl, -, hcell, -, -⟩ := h.template
  exact forall_mem_cons.mpr ⟨trivial, forall_mem_append.mpr
    ⟨wellFormed_nulls before, forall_mem_cons.mpr ⟨hcell, wellFormed_nulls after⟩⟩⟩

theorem quoted_inTemplate (toDouble : ℚ → ℚ) (valueType : String) (column : ColumnName)
    (before after : ℕ) (s : Text) (htype : '\'' ∉ valueType.toList)
    (hcolumns : valueColumns.map (DueValue.mk valueType column (.text s)).at =
      List.replicate before .null ++ .text s :: List.replicate after .null) :
    InTemplate toDouble (valueCells valueType before (.quoted s) after)
      ⟨valueType, column, .text s⟩ ('\'' ∉ s) :=
  ⟨⟨before, _, after, rfl, hcolumns, trivial, fun _ h => h, written_quoted_iff⟩, htype⟩

theorem word_inTemplate (valueType : String) (column : ColumnName) (before after : ℕ) {w : Text}
    {value : Column} (htype : '\'' ∉ valueType.toList)
    (hcolumns : valueColumns.map (DueValue.mk valueType column value).at =
    List.replicate before .null ++ value :: List.replicate after .null)
    (hword : (Cell.word w).WellFormed) (hwritten : Written toDouble (.word w) value ↔ P) :
    InTemplate toDouble (valueCells valueType before (.word w) after)
      ⟨valueType, column, value⟩ P :=
  ⟨⟨before, _, after, rfl, hcolumns, hword, fun _ _ => trivial, hwritten⟩, htype⟩

theorem property_inTemplate (hcells : propertyCells env v = some cells)
    (hdue : propertyValue env v = some d) :
    InTemplate env.toDouble cells d (PropertyWritten env v) := by
  cases v with
  | null => cases hcells
  | bool b =>
    cases hcells
    cases hdue
    exact word_inTemplate "Boolean" .boolean 1 9 (by decide) rfl (wellFormed_bool b)
      (iff_of_true written_bool trivial)
  | int i =>
    cases hcells
    cases hdue
    exact word_inTemplate "Number" .number 2 8 (by decide) rfl (wellFormed_int i)
      (iff_of_true ⟨_, wordValue_number (decimalValue_intText i), rfl⟩ trivial)
  | float x =>
    cases hcells
    cases hdue
    exact word_inTemplate "Number" .number 2 8 (by decide) rfl (wellFormed_float x)
      written_double_iff
  | string s =>
    cases hcells
    cases hdue
    exact quoted_inTemplate _ "String" .text 0 10 s (by decide) rfl
  | array items | object members =>
    cases hcells
    cases hdue
    exact quoted_inTemplate _ "Compound" .compound 4 6 _ (by decide) rfl

theorem geom_inTemplate (valueType : String) (column : ColumnName) (before after : ℕ)
    (htype : '\'' ∉ valueType.toList)
    (hcolumns : valueColumns.map (DueValue.mk valueType column (.geometry g)).at =
    List.replicate before .null ++ .geometry g :: List.replicate after .null) (htext : '\'' ∉ text)
    (hsrid : srid = none ∨ srid = srid4326) :
    InTemplate toDouble (valueCells valueType before (geomFromText text srid) after)
      ⟨valueType, column, .geometry g⟩ (tokens (doubleOf toDouble) text = g.tokens) := by
  refine ⟨⟨before, _, after, rfl, hcolumns, ⟨all_eq_true.mp (by decide), htext, ?_⟩,
    fun _ _ => trivial,
    written_geometry_iff⟩, htype⟩
  rcases hsrid with rfl | rfl
  · exact fun o ho => absurd ho (not_mem_none o)
  · rintro o ⟨⟩
    exact ⟨by decide, all_eq_true.mp (by decide)⟩

theorem geometry_inTemplate {coordinates : KjNode} {geoType : GeoType}
    (hg : geometryOf toDouble coordinates geoType = some g) (htext : '\'' ∉ text) :
    InTemplate toDouble (geoCells text geoType) (geometryValue g)
      (tokens (doubleOf toDouble) text = g.tokens) := by
  cases geoType with
  | point =>
    obtain ⟨p, -, rfl⟩ := map_eq_some_iff.mp hg
    exact geom_inTemplate "GeoPoint" .geoPoint 5 5 (by decide) rfl htext (.inl rfl)
  | multiPoint =>
    obtain ⟨points, -, rfl⟩ := map_eq_some_iff.mp hg
    exact geom_inTemplate "GeoMultiPoint" .geoMultiPoint 6 4 (by decide) rfl htext (.inr rfl)
  | lineString =>
    obtain ⟨points, -, rfl⟩ := map_eq_some_iff.mp hg
    exact geom_inTemplate "GeoLineString" .geoLineString 9 1 (by decide) rfl htext (.inr rfl)
  | multiLineString =>
    obtain ⟨lines, -, rfl⟩ := map_eq_some_iff.mp hg
    exact geom_inTemplate "GeoMultiLineString" .geoMultiLineString 10 0 (by decide) rfl htext
      (.inr rfl)
  | polygon =>
    obtain ⟨rings, -, rfl⟩ := map_eq_some_iff.mp hg
    exact geom_inTemplate "GeoPolygon" .geoPolygon 7 3 (by decide) rfl htext (.inl rfl)
  | multiPolygon =>
    obtain ⟨polygons, -, rfl⟩ := map_eq_some_iff.mp hg
    exact geom_inTemplate "GeoMultiPolygon" .geoMultiPolygon 8 2 (by decide) rfl htext
      (.inr rfl)

theorem InTemplate.congr {Q : Prop} (h : InTemplate env.toDouble cells d P) (hPQ : P ↔ Q) :
    InTemplate env.toDouble cells d Q := by
  obtain ⟨before, cell, after, hcells, hcolumns, hcell, hfits, hwritten⟩ := h.template
  exact ⟨⟨before, cell, after, hcells, hcolumns, hcell, hfits, hwritten.trans hPQ⟩, h.valueType⟩

/-- The buffers for coordinates have room for what goes to them item by item. -/
def Roomy (coordsLen : GeoType → ℕ) : Prop :=
  ∀ geoType, geoType ≠ .point → polygonCoordsSize ≤ coordsLen geoType

theorem geoProperty_inTemplate (hlen : Roomy coordsLen) {g : GeoType × Geometry}
    (hcells : geoPropertyCells env coordsLen v = some cells) (hg : geometryOfValue env v = some g) :
    InTemplate env.toDouble cells (geometryValue g.2)
      (g.2.Written env.toDouble (coordsLen g.1)) := by
  obtain ⟨name, hname, hg⟩ := bind_eq_some_iff.mp hg
  obtain ⟨geoType, htype, hg⟩ := bind_eq_some_iff.mp hg
  obtain ⟨coordinates, hcoordinates, hg⟩ := bind_eq_some_iff.mp hg
  obtain ⟨g', hgeometry, hg⟩ := bind_eq_some_iff.mp hg
  cases hg
  unfold geoPropertyCells at hcells
  rw [hname, bind_eq_bind, bind_some, htype, bind_eq_bind, bind_some,
    hcoordinates, bind_eq_bind, bind_some] at hcells
  obtain ⟨text, htext, hcells⟩ := bind_eq_some_iff.mp hcells
  cases hcells
  have hiff := geoText_written_iff geoType hgeometry (hlen geoType)
  refine (geometry_inTemplate hgeometry (GeoTextPlain.geoText_plain htext)).congr
    (Iff.trans ?_ hiff)
  rw [htext]
  constructor
  · exact fun htokens => ⟨text, rfl, htokens⟩
  · rintro ⟨t, ht, htokens⟩
    rwa [some.inj ht]

theorem geoProperty_some (hlen : Roomy coordsLen) {g : GeoType × Geometry}
    (hg : geometryOfValue env v = some g) (hwritten : g.2.Written env.toDouble (coordsLen g.1)) :
    ∃ cells, geoPropertyCells env coordsLen v = some cells := by
  obtain ⟨name, hname, hg⟩ := bind_eq_some_iff.mp hg
  obtain ⟨geoType, htype, hg⟩ := bind_eq_some_iff.mp hg
  obtain ⟨coordinates, hcoordinates, hg⟩ := bind_eq_some_iff.mp hg
  obtain ⟨g', hgeometry, hg⟩ := bind_eq_some_iff.mp hg
  cases hg
  obtain ⟨text, htext, -⟩ := (geoText_written_iff geoType hgeometry (hlen geoType)).mpr hwritten
  refine ⟨geoCells text geoType, ?_⟩
  unfold geoPropertyCells
  rw [hname, bind_eq_bind, bind_some, htype, bind_eq_bind, bind_some,
    hcoordinates, bind_eq_bind, bind_some, htext]
  rfl

theorem exists_mem_some {α : Type} {a : α} {P : α → Prop} : (∃ x ∈ some a, P x) ↔ P a := by
  simp

theorem typed_inTemplate (hlen : Roomy coordsLen)
    (hcells : typedCells env coordsLen type value object = some cells)
    (hdue : dueValue env type value object = some d) :
    InTemplate env.toDouble cells d (ValueWritten env coordsLen type value object) := by
  unfold typedCells at hcells
  unfold dueValue at hdue
  unfold ValueWritten
  by_cases hrelationship : type = "Relationship".toList
  · rw [if_pos hrelationship] at hcells hdue ⊢
    obtain ⟨o, rfl, rfl⟩ := map_eq_some_iff.mp hcells
    cases hdue
    exact (quoted_inTemplate env.toDouble "Relationship" .text 0 10 o (by decide) rfl).congr
      (exists_mem_some (P := fun o => '\'' ∉ o)).symm
  · rw [if_neg hrelationship] at hcells hdue ⊢
    by_cases hgeo : type = "GeoProperty".toList
    · rw [if_pos hgeo] at hcells hdue ⊢
      obtain ⟨v, rfl, hcells⟩ := bind_eq_some_iff.mp hcells
      obtain ⟨g, hg, rfl⟩ := map_eq_some_iff.mp hdue
      refine (geoProperty_inTemplate hlen hcells hg).congr ?_
      have hg : geometryOfValue env v = some g := hg
      rw [exists_mem_some, hg]
      exact ⟨fun h => ⟨g, rfl, h⟩, fun ⟨g', hg', h⟩ => by rwa [some.inj hg']⟩
    · rw [if_neg hgeo] at hcells hdue ⊢
      obtain ⟨v, rfl, hcells⟩ := bind_eq_some_iff.mp hcells
      exact (property_inTemplate hcells hdue).congr exists_mem_some.symm

theorem typed_some (hlen : Roomy coordsLen)
    (h : ValueWritten env coordsLen type value object) :
    ∃ cells d, typedCells env coordsLen type value object = some cells ∧
      dueValue env type value object = some d := by
  unfold ValueWritten at h
  unfold typedCells dueValue
  split at h
  · next hrelationship =>
    rw [if_pos hrelationship, if_pos hrelationship]
    obtain ⟨o, rfl, -⟩ := h
    exact ⟨_, _, rfl, rfl⟩
  · next hrelationship =>
    rw [if_neg hrelationship, if_neg hrelationship]
    split at h
    · next hgeo =>
      rw [if_pos hgeo, if_pos hgeo]
      obtain ⟨v, rfl, g, hg, hwritten⟩ := h
      obtain ⟨cells, hcells⟩ := geoProperty_some hlen hg hwritten
      exact ⟨cells, _, hcells, by rw [bind_some, hg]; rfl⟩
    · next hgeo =>
      rw [if_neg hgeo, if_neg hgeo]
      obtain ⟨v, rfl, hwritten⟩ := h
      cases v with
      | null => exact hwritten.elim
      | bool b => exact ⟨_, _, rfl, rfl⟩
      | int i => exact ⟨_, _, rfl, rfl⟩
      | float x => exact ⟨_, _, rfl, rfl⟩
      | string s => exact ⟨_, _, rfl, rfl⟩
      | array items => exact ⟨_, _, rfl, rfl⟩
      | object members => exact ⟨_, _, rfl, rfl⟩

end TemporalValues
