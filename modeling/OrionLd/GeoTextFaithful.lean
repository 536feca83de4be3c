import OrionLd.GeometryWritten

/-! Polygons and multi polygons as well-known text: of the geometries that fit the buffers those
with one ring are written as they are. -/
namespace GeoTextFaithful

open DecimalText KjTree KjGeoExtract PointTexts GeometryExtracted GeometryWritten WktTokens List

/-- The grammar of well-known text reads the text as the geometry. -/
def Denotes (toDouble : ℚ → ℚ) (t : Text) (g : Geometry) : Prop :=
  tokens (doubleOf toDouble) t = g.tokens

variable {toDouble : ℚ → ℚ} {coordinates : KjNode} {g : Geometry} {len : ℕ}

def polygonsOf (toDouble : ℚ → ℚ) (coordinates : KjNode) (type : GeoType) : Option Geometry :=
  match type, coordinates with
  | .polygon, .array [] => some (.polygon [])
  | .multiPolygon, .array [] => some (.multiPolygon [])
  | .polygon, _ => geometryOf toDouble coordinates .polygon
  | .multiPolygon, _ => geometryOf toDouble coordinates .multiPolygon
  | _, _ => none

def points : Geometry → List Point
  | .polygon rings => rings.flatten
  | .multiPolygon polygons => polygons.flatten.flatten
  | _ => []

/-- The texts of the points, of the polygons and of the whole have room in their buffers. -/
def FitsBuffers (len : ℕ) (g : Geometry) : Prop :=
  (∀ p ∈ points g, (pointText p).length < pointBufferSize) ∧
    match g with
    | .polygon rings => (polygonText rings).length < len
    | .multiPolygon polygons =>
      (∀ rings ∈ polygons, (polygonText rings).length < polygonCoordsSize) ∧
        (inParentheses (commaText (polygons.map polygonText))).length < len
    | _ => False

def OneRing : Geometry → Prop
  | .polygon rings => rings.length = 1
  | .multiPolygon polygons => polygons.map List.length = [1]
  | _ => False

theorem pointsWritten_iff {ring : List Point}
    (h : ∀ p ∈ ring, (pointText p).length < pointBufferSize) :
    PointsWritten toDouble ring ↔ ∀ p ∈ ring, Kept toDouble p :=
  forall₂_congr fun p hp => pointWritten_iff (h p hp)

theorem written_iff (hfits : FitsBuffers len g) :
    g.Written toDouble len ↔ OneRing g ∧ ∀ p ∈ points g, Kept toDouble p := by
  obtain ⟨hpoints, hfits⟩ := hfits
  cases g with
  | polygon rings =>
    constructor
    · rintro ⟨ring, rfl, hwritten, -⟩
      rw [points, flatten_singleton] at hpoints ⊢
      exact ⟨rfl, (pointsWritten_iff hpoints).mp hwritten⟩
    · rintro ⟨hone, hkept⟩
      obtain ⟨ring, rfl⟩ := length_eq_one_iff.mp hone
      rw [points, flatten_singleton] at hpoints hkept
      exact ⟨ring, rfl, (pointsWritten_iff hpoints).mpr hkept, hfits⟩
  | multiPolygon polygons =>
    constructor
    · rintro ⟨ring, rfl, hwritten, -⟩
      rw [points, flatten_singleton, flatten_singleton] at hpoints ⊢
      exact ⟨rfl, (pointsWritten_iff hpoints).mp hwritten⟩
    · rintro ⟨hone, hkept⟩
      obtain ⟨rings, rfl, hrings⟩ := map_eq_singleton_iff.mp hone
      obtain ⟨ring, rfl⟩ := length_eq_one_iff.mp hrings
      rw [points, flatten_singleton, flatten_singleton] at hpoints hkept
      obtain ⟨hpolygon, hwhole⟩ := hfits
      rw [map_singleton, commaText_singleton] at hwhole
      exact ⟨ring, rfl, (pointsWritten_iff hpoints).mpr hkept, hpolygon [ring] mem_cons_self,
        hwhole⟩
  | _ => cases hfits

theorem geoText_empty (type : GeoType) (htype : type = .polygon ∨ type = .multiPolygon) :
    geoText toDouble len (.array []) type = none := by
  rcases htype with rfl | rfl
  · rfl
  · rfl

/-- The text of a geometry that fits the buffers stands for it when there is one ring, of points
that six decimals suffice for. -/
theorem polygon_text_faithful_iff (type : GeoType)
    (hg : polygonsOf toDouble coordinates type = some g) (hlen : polygonCoordsSize ≤ len)
    (hfits : FitsBuffers len g) :
    (∃ t, geoText toDouble len coordinates type = some t ∧ Denotes toDouble t g) ↔
      OneRing g ∧ ∀ p ∈ points g, Kept toDouble p := by
  have hempty : ∀ type, (type = .polygon ∨ type = .multiPolygon) → ¬ OneRing g →
      ((∃ t, geoText toDouble len (.array []) type = some t ∧ Denotes toDouble t g) ↔
        OneRing g ∧ ∀ p ∈ points g, Kept toDouble p) := by
    intro type htype hnone
    refine iff_of_false ?_ fun h => hnone h.1
    rintro ⟨t, ht, -⟩
    rw [geoText_empty type htype] at ht
    cases ht
  unfold polygonsOf at hg
  split at hg
  · cases hg
    exact hempty .polygon (.inl rfl) Nat.zero_ne_one
  · cases hg
    exact hempty .multiPolygon (.inr rfl) (cons_ne_nil 1 []).symm
  · exact (geoText_written_iff .polygon hg fun _ => hlen).trans (written_iff hfits)
  · exact (geoText_written_iff .multiPolygon hg fun _ => hlen).trans (written_iff hfits)
  · cases hg

def position (x y : ℤ) : KjNode := .array [.int x, .int y]

def triangle : KjNode := .array [position 0 0, position 4 0, position 0 4, position 0 0]

def hole : KjNode := .array [position 1 1, position 2 1, position 1 2, position 1 1]

def cornersOf (corners : List (ℚ × ℚ)) : List Point := corners.map fun c => ⟨c.1, c.2, 0⟩

def triangleRing : List Point := cornersOf [(0, 0), (4, 0), (0, 4), (0, 0)]

def holeRing : List Point := cornersOf [(1, 1), (2, 1), (1, 2), (1, 1)]

theorem kept_triangle : ∀ p ∈ triangleRing, Kept id p := by
  have hall : ∀ p ∈ triangleRing, sixDecimals p.longitude = p.longitude ∧
      sixDecimals p.latitude = p.latitude ∧ sixDecimals p.altitude = p.altitude := by
    decide +kernel
  intro p hp
  obtain ⟨hlongitude, hlatitude, haltitude⟩ := hall p hp
  exact ⟨hlongitude, hlatitude, haltitude⟩

theorem triangle_denoted : ∃ t, geoText id 2048 (.array [triangle]) .polygon = some t ∧
    Denotes id t (.polygon [triangleRing]) := by
  refine (polygon_text_faithful_iff .polygon rfl (by decide) ?_).mpr ⟨rfl, ?_⟩
  · exact ⟨by decide +kernel, by decide +kernel⟩
  · exact kept_triangle

theorem hole_lost : ¬ ∃ t, geoText id 2048 (.array [triangle, hole]) .polygon = some t ∧
    Denotes id t (.polygon [triangleRing, holeRing]) := by
  intro h
  obtain ⟨ring, hring, -⟩ := (geoText_written_iff .polygon rfl fun _ => le_rfl).mp h
  cases hring

end GeoTextFaithful
