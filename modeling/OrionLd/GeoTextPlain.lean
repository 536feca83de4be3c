import OrionLd.PointTexts

/-! The text of a geometry has no quote, whatever the coordinates are: it is made of names,
numbers, blanks and marks only. -/
namespace GeoTextPlain

open DecimalText KjTree KjGeoExtract PointTexts List Option

variable {toDouble : ℚ → ℚ} {len start : ℕ} {coords : Text} {node : KjNode}
  {old : Option Text} {xs : List (Option (Option Text))} {extracted : Extracted}

def Plain (t : Text) : Prop := '\'' ∉ t

instance (t : Text) : Decidable (Plain t) := inferInstanceAs (Decidable ('\'' ∉ t))

def PlainBuffer (old : Option Text) : Prop := ∀ t ∈ old, Plain t

variable {t : Text} {nodes : List KjNode}

theorem plain_append {t' : Text} (h : Plain t) (h' : Plain t') : Plain (t ++ t') :=
  fun hmem => (mem_append.mp hmem).elim h h'

theorem plain_cons {c : Char} (hc : '\'' ≠ c) (h : Plain t) : Plain (c :: t) :=
  fun hmem => (mem_cons.mp hmem).elim hc h

theorem plain_printfF (x : ℚ) : Plain (StringFilter.printfF x) :=
  fun hmem => absurd (mem_printfF hmem) (by decide)

theorem plain_pointText (p : Point) : Plain (pointText p) :=
  plain_append (plain_printfF _) (plain_cons (by decide)
    (plain_append (plain_printfF _) (plain_cons (by decide) (plain_printfF _))))

theorem addItems_plain {ok : Bool} {result : Text} (hcoords : Plain coords)
    (hxs : ∀ t, some (some t) ∈ xs → Plain t)
    (h : addItems len start coords xs = some (ok, result)) : Plain result := by
  induction xs generalizing coords with
  | nil =>
    obtain ⟨-, rfl⟩ := Prod.mk.inj (some.inj h)
    exact hcoords
  | cons x xs ih =>
    have hstop : some (false, coords) = some (ok, result) → Plain result := by
      intro h
      obtain ⟨-, rfl⟩ := Prod.mk.inj (some.inj h)
      exact hcoords
    cases x with
    | none => cases h
    | some x =>
      cases x with
      | none => exact hstop h
      | some item =>
        have hitem := hxs item mem_cons_self
        rw [addItems] at h
        split at h
        · exact hstop h
        refine ih ?_ (fun t ht => hxs t (mem_cons_of_mem _ ht)) h
        split_ifs
        · exact plain_append hcoords hitem
        · exact plain_append (plain_append hcoords (by decide)) hitem

theorem bufferText_plain {close : Text} (hold : PlainBuffer old) (hcoords : Plain coords)
    (hclose : Plain close) : PlainBuffer (bufferText len start old coords close) := by
  intro t ht
  have ht : bufferText len start old coords close = some t := ht
  have htext := plain_append hcoords hclose
  unfold bufferText overwrite at ht
  split_ifs at ht
  · obtain ⟨t', ht', ht⟩ := bind_eq_some_iff.mp ht
    split_ifs at ht
    cases ht
    exact plain_append htext fun hmem => hold t' ht' (mem_of_mem_drop hmem)
  · cases ht
    exact htext

theorem pointItems_plain (h : some (some t) ∈ pointItems toDouble nodes) : Plain t := by
  obtain ⟨node, -, hnode⟩ := mem_map.mp h
  obtain ⟨p, -, hp⟩ := map_eq_some_iff.mp hnode
  obtain ⟨q, -, rfl⟩ := map_eq_some_iff.mp hp
  exact fun hmem => plain_pointText q (mem_of_mem_take hmem)

/-- What a function leaves in a buffer has no quote, where the buffer had none. -/
def KeepsPlain (extract : Option Text → KjNode → Option Extracted) : Prop :=
  ∀ old node extracted, PlainBuffer old → extract old node = some extracted →
    PlainBuffer extracted.text

theorem points_plain (len : ℕ) : KeepsPlain (kjGeoMultiPointExtract toDouble len) := by
  intro old node extracted hold h
  obtain ⟨nodes, -, h⟩ := bind_eq_some_iff.mp h
  obtain ⟨⟨ok, coords⟩, hloop, h⟩ := bind_eq_some_iff.mp h
  cases h
  exact bufferText_plain hold
    (addItems_plain not_mem_nil (fun t ht => pointItems_plain ht) hloop) not_mem_nil

theorem ringItems_plain (h : some (some t) ∈ ringItems toDouble nodes) : Plain t := by
  obtain ⟨node, -, hnode⟩ := mem_flatMap.mp h
  split at hnode
  · cases mem_singleton.mp hnode
  · exact pointItems_plain hnode

theorem plain_close (ok : Bool) : Plain (if ok then [')'] else []) := by
  cases ok <;> decide

theorem polygon_plain (len : ℕ) : KeepsPlain (kjGeoPolygonExtract toDouble len) := by
  intro old node extracted hold h
  obtain ⟨nodes, -, h⟩ := bind_eq_some_iff.mp h
  obtain ⟨⟨ok, coords⟩, hloop, h⟩ := bind_eq_some_iff.mp h
  cases h
  exact bufferText_plain hold
    (addItems_plain (by decide) (fun t ht => ringItems_plain ht) hloop) (plain_close ok)

theorem bufferedItems_plain {extract : Option Text → KjNode → Option Extracted} {copy : Text → Text}
    (hextract : KeepsPlain extract) (hcopy : ∀ t, Plain t → Plain (copy t)) (hold : PlainBuffer old)
    (ht : some (some t) ∈ bufferedItems extract copy old nodes) : Plain t := by
  induction nodes generalizing old with
  | nil => exact absurd ht not_mem_nil
  | cons node nodes ih =>
    rw [bufferedItems] at ht
    split at ht
    · cases mem_singleton.mp ht
    rename_i extracted hnode
    have hbuffer := hextract old node extracted hold hnode
    split_ifs at ht
    · cases mem_singleton.mp ht
    · split at ht
      · cases mem_singleton.mp ht
      rename_i text htext
      have htext := hbuffer text htext
      rcases mem_cons.mp ht with heq | ht
      · rw [some.inj (some.inj heq)]
        exact hcopy text htext
      refine ih ?_ ht
      intro t' ht'
      cases ht'
      exact htext

theorem plainBuffer_none : PlainBuffer none := fun _ ht => absurd ht (Option.not_mem_none _)

theorem lines_plain (len : ℕ) (h : kjGeoMultiLineStringExtract toDouble len node = some extracted) :
    PlainBuffer extracted.text := by
  obtain ⟨nodes, -, h⟩ := bind_eq_some_iff.mp h
  obtain ⟨⟨ok, coords⟩, hloop, h⟩ := bind_eq_some_iff.mp h
  cases h
  refine bufferText_plain plainBuffer_none (addItems_plain not_mem_nil ?_ hloop) not_mem_nil
  exact fun t ht => bufferedItems_plain (points_plain lineStringCoordsSize)
    (fun _ h => plain_cons (by decide) (plain_append h (by decide))) plainBuffer_none ht

theorem polygons_plain (len : ℕ) (h : kjGeoMultiPolygonExtract toDouble len node = some extracted) :
    PlainBuffer extracted.text := by
  obtain ⟨nodes, -, h⟩ := bind_eq_some_iff.mp h
  obtain ⟨⟨ok, coords⟩, hloop, h⟩ := bind_eq_some_iff.mp h
  cases h
  refine bufferText_plain plainBuffer_none (addItems_plain (by decide) ?_ hloop) (plain_close ok)
  exact fun t ht => bufferedItems_plain (polygon_plain polygonCoordsSize) (fun _ h => h)
    plainBuffer_none ht

theorem plain_named {name : Text} {extract : Option Extracted} {t : Text} (hname : Plain name)
    (hextract : ∀ extracted, extract = some extracted → PlainBuffer extracted.text)
    (h : (extract.bind fun e => e.text.bind fun coords => some (name ++ coords ++ [')'])) =
      some t) : Plain t := by
  obtain ⟨e, he, h⟩ := bind_eq_some_iff.mp h
  obtain ⟨coords, hcoords, h⟩ := bind_eq_some_iff.mp h
  cases h
  exact plain_append (plain_append hname (hextract e he coords hcoords)) (by decide)

theorem geoText_plain {type : GeoType} (h : geoText toDouble len node type = some t) : Plain t := by
  cases type with
  | point =>
    obtain ⟨p, hp, h⟩ := bind_eq_some_iff.mp h
    obtain ⟨p, -, h⟩ := bind_eq_some_iff.mp h
    cases h
    exact plain_append (plain_append (by decide) (plain_pointText p)) (by decide)
  | multiPoint | lineString =>
    exact plain_named (by decide) (fun e => points_plain len none node e plainBuffer_none) h
  | multiLineString => exact plain_named (by decide) (fun e => lines_plain len) h
  | polygon =>
    exact plain_named (by decide) (fun e => polygon_plain len none node e plainBuffer_none) h
  | multiPolygon => exact plain_named (by decide) (fun e => polygons_plain len) h

end GeoTextPlain
