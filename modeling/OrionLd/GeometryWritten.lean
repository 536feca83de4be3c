import OrionLd.GeometryExtracted
import Mathlib.Algebra.Order.BigOperators.Group.List

/-! The geometries that are written as they are: the points keep their numbers, the text has
room in the buffers, and a polygon has one ring. -/
namespace GeometryWritten

open DecimalText KjTree KjGeoExtract PointTexts GeometryExtracted WktTokens List Option

variable (toDouble : ℚ → ℚ)

inductive Geometry where
  | point (p : Point)
  | multiPoint (points : List Point)
  | lineString (points : List Point)
  | multiLineString (lineStrings : List (List Point))
  | polygon (rings : List (List Point))
  | multiPolygon (polygons : List (List (List Point)))

def geometryOf (coordinates : KjNode) : GeoType → Option Geometry
  | .point => (pointOf toDouble coordinates).map .point
  | .multiPoint => (listOf (pointOf toDouble) coordinates).map .multiPoint
  | .lineString => (listOf (pointOf toDouble) coordinates).map .lineString
  | .multiLineString => (listOf (listOf (pointOf toDouble)) coordinates).map .multiLineString
  | .polygon => (listOf (listOf (pointOf toDouble)) coordinates).map .polygon
  | .multiPolygon =>
    (listOf (listOf (listOf (pointOf toDouble))) coordinates).map .multiPolygon

def pointsTokens (points : List Point) : List Token := commas (points.map pointTokens)

def linesTokens (lines : List (List Point)) : List Token :=
  commas (lines.map fun points => parens (pointsTokens points))

def polygonsTokens (polygons : List (List (List Point))) : List Token :=
  commas (polygons.map fun rings => parens (linesTokens rings))

def Geometry.tokens : Geometry → List Token
  | .point p => .name "POINT".toList :: parens (pointTokens p)
  | .multiPoint points => .name "MULTIPOINT".toList :: parens (pointsTokens points)
  | .lineString points => .name "LINESTRING".toList :: parens (pointsTokens points)
  | .multiLineString lines => .name "MULTILINESTRING".toList :: parens (linesTokens lines)
  | .polygon rings => .name "POLYGON".toList :: parens (linesTokens rings)
  | .multiPolygon polygons => .name "MULTIPOLYGON".toList :: parens (polygonsTokens polygons)

def PointsWritten (points : List Point) : Prop := ∀ p ∈ points, PointWritten toDouble p

/-- The geometries that are written as they are to a buffer of len characters. -/
def Geometry.Written (len : ℕ) : Geometry → Prop
  | .point p => Kept toDouble p
  | .multiPoint points => PointsWritten toDouble points ∧ (lineText points).length < len
  | .lineString points => PointsWritten toDouble points ∧ (lineText points).length < len
  | .multiLineString lines =>
    (∀ points ∈ lines, PointsWritten toDouble points ∧
      (lineText points).length < lineStringCoordsSize) ∧
    (commaText (lines.map fun points => inParentheses (lineText points))).length < len
  | .polygon rings => ∃ ring, rings = [ring] ∧ PointsWritten toDouble ring ∧
      (polygonText [ring]).length < len
  | .multiPolygon polygons => ∃ ring, polygons = [[ring]] ∧ PointsWritten toDouble ring ∧
      (polygonText [ring]).length < polygonCoordsSize ∧
      (inParentheses (polygonText [ring])).length < len

variable {toDouble : ℚ → ℚ} {node : KjNode} {points : List Point} {lines : List (List Point)}
  {len : ℕ}

def ReadsAs (toDouble : ℚ → ℚ) (extracted : Option Extracted) (due : List Token) : Prop :=
  ∃ t, extracted.bind Extracted.text = some t ∧ tokens (doubleOf toDouble) t = due

theorem points_written_iff (h : listOf (pointOf toDouble) node = some points)
    (hlen : 0 + pointBufferSize < len) :
    ReadsAs toDouble (kjGeoMultiPointExtract toDouble len none node) (pointsTokens points) ↔
      PointsWritten toDouble points ∧ (lineText points).length < len := by
  obtain ⟨-, -, hpoints, -⟩ := listOf_eq_some h
  constructor
  · rintro ⟨t, ht, htokens⟩
    obtain ⟨extracted, hextract, ht⟩ := bind_eq_some_iff.mp ht
    obtain ⟨taken, hprefix, htext, hok, hroom⟩ := extracted_points h hextract
    obtain ⟨hne, rfl, -⟩ := bufferText_none (htext.symm.trans ht)
    rw [append_nil] at htokens
    have htaken : taken ≠ [] := by
      rintro rfl
      exact hne rfl
    have hall := (tokens_lineText_iff htaken hpoints).mp htokens
    obtain rfl := hprefix.eq_of_length hall.length_eq
    rw [forall₂_same] at hall
    exact ⟨hall, hroom (hok rfl)⟩
  · rintro ⟨hall, hroom⟩
    refine ⟨lineText points, ?_, (tokens_lineText_iff hpoints hpoints).mpr (forall₂_same.mpr hall)⟩
    rw [extract_points h hroom hlen none]
    rfl

theorem mark_not_mem_lineText (points : List Point) {c : Char} (hc : c ≠ ',') :
    Token.mark c ∉ tokens (doubleOf toDouble) (lineText points) := by
  rw [tokens_lineText]
  refine mark_not_mem_commas hc fun l hl => ?_
  obtain ⟨p, -, rfl⟩ := mem_map.mp hl
  exact mark_not_mem_point p c

theorem mark_not_mem_pointsTokens (points : List Point) {c : Char} (hc : c ≠ ',') :
    Token.mark c ∉ pointsTokens points := by
  refine mark_not_mem_commas hc fun l hl => ?_
  obtain ⟨p, -, rfl⟩ := mem_map.mp hl
  exact mark_not_mem_pointTokens p c

theorem tokens_linesText (lines : List (List Point)) :
    tokens (doubleOf toDouble) (commaText (lines.map fun l => inParentheses (lineText l))) =
      commas ((lines.map fun l => tokens (doubleOf toDouble) (lineText l)).map parens) := by
  rw [tokens_commaText, List.map_map, List.map_map]
  refine congrArg commas (List.map_congr_left fun l _ => ?_)
  exact tokens_parens (lineText l)

theorem linesTokens_eq (lines : List (List Point)) :
    linesTokens lines = commas ((lines.map pointsTokens).map parens) := by
  rw [List.map_map]
  rfl

theorem tokens_lines_iff {taken : List (List Point)} (htaken : taken ≠ []) (hlines : lines ≠ []) :
    tokens (doubleOf toDouble) (commaText (taken.map fun l => inParentheses (lineText l))) =
        linesTokens lines ↔
      List.Forall₂ (fun l l' => tokens (doubleOf toDouble) (lineText l) = pointsTokens l')
        taken lines := by
  rw [tokens_linesText, linesTokens_eq,
    ← forall₂_map_left_iff (R := fun l l' => l = pointsTokens l'),
    ← forall₂_map_right_iff (R := fun l l' : List Token => l = l'), forall₂_eq_eq_eq]
  constructor
  · intro h
    refine commas_parens_injective ?_ ?_ (fun hnil => htaken (map_eq_nil_iff.mp hnil))
      (fun hnil => hlines (map_eq_nil_iff.mp hnil)) h
    · intro l hl
      obtain ⟨points, -, rfl⟩ := mem_map.mp hl
      exact mark_not_mem_lineText points (by decide)
    · intro l hl
      obtain ⟨points, -, rfl⟩ := mem_map.mp hl
      exact mark_not_mem_pointsTokens points (by decide)
  · intro h
    rw [h]

theorem tokens_line_iff (hpoints : points ≠ []) :
    tokens (doubleOf toDouble) (lineText points) = pointsTokens points ↔
      PointsWritten toDouble points := by
  unfold pointsTokens
  rw [tokens_lineText_iff hpoints hpoints, forall₂_same]
  rfl

theorem inParentheses_ne_nil (text : Text) : inParentheses text ≠ [] := List.cons_ne_nil _ _

theorem length_inParentheses (text : Text) : (inParentheses text).length = text.length + 2 := by
  simp [inParentheses]

theorem extracts_line (h : listOf (pointOf toDouble) node = some points) :
    Extracts (kjGeoLineStringExtract toDouble lineStringCoordsSize) lineText
      (fun points => (lineText points).length < lineStringCoordsSize) node points := by
  constructor
  · intro hroom old
    exact extract_points h hroom (by decide) old
  · intro hroom old extracted hextract hok
    obtain ⟨-, -, -, -, hfits⟩ := extracted_points h hextract
    exact absurd (hfits hok) hroom

theorem lines_written_iff (h : listOf (listOf (pointOf toDouble)) node = some lines)
    (hlen : lineStringCoordsSize + 2 < len) :
    ReadsAs toDouble (kjGeoMultiLineStringExtract toDouble len node) (linesTokens lines) ↔
      (Geometry.multiLineString lines).Written toDouble len := by
  obtain ⟨nodes, hchildren, hlines, hall⟩ := listOf_eq_some h
  have hextracts := hall.imp fun _ _ => extracts_line
  have hpoints := listOf_ne_nil hall
  have hextract : kjGeoMultiLineStringExtract toDouble len node =
      (addItems len 0 [] (bufferedItems (kjGeoLineStringExtract toDouble lineStringCoordsSize)
        inParentheses none nodes)).map fun r => ⟨r.1, bufferText len 0 none r.2 []⟩ := by
    unfold kjGeoMultiLineStringExtract
    rw [hchildren]
    dsimp only [bind_eq_bind, bind_some]
    cases addItems len 0 [] (bufferedItems
      (kjGeoLineStringExtract toDouble lineStringCoordsSize) inParentheses none nodes) <;> rfl
  constructor
  · rintro ⟨t, ht, htokens⟩
    rw [hextract] at ht
    obtain ⟨extracted, hextracted, ht⟩ := bind_eq_some_iff.mp ht
    obtain ⟨⟨ok, coords⟩, hloop, rfl⟩ := map_eq_some_iff.mp hextracted
    obtain ⟨first, hprefix, hfits, rfl, hok, hroom⟩ := buffered_result [] hextracts hlines
      (fun points => inParentheses_ne_nil (lineText points)) rfl hloop
    obtain ⟨hne, rfl, -⟩ := bufferText_none ht
    have hfirst : first ≠ [] := by
      rintro rfl
      exact hne rfl
    rw [append_nil, nil_append] at htokens
    have hread := (tokens_lines_iff hfirst hlines).mp htokens
    obtain rfl := hprefix.eq_of_length hread.length_eq
    rw [forall₂_same] at hread
    exact ⟨fun l hl => ⟨(tokens_line_iff (hpoints l hl)).mp (hread l hl), hfits l hl⟩,
      (hroom (hok rfl)).2⟩
  · rintro ⟨hwritten, hroom⟩
    have htext : commaText (lines.map fun l => inParentheses (lineText l)) ≠ [] := by
      refine commaText_ne_nil (fun hnil => hlines (map_eq_nil_iff.mp hnil)) fun t ht => ?_
      obtain ⟨l, -, rfl⟩ := mem_map.mp ht
      exact inParentheses_ne_nil (lineText l)
    have hitems : ∀ l ∈ lines, inParentheses (lineText l) ≠ [] ∧
        0 + (inParentheses (lineText l)).length + 1 < len := by
      intro l hl
      have hshort := (hwritten l hl).2
      refine ⟨inParentheses_ne_nil _, ?_⟩
      rw [length_inParentheses]
      omega
    have hpre : ([] : Text).length = 0 := rfl
    have hloop := buffered_fits [] inParentheses none hextracts
      (fun l hl => (hwritten l hl).2) hpre hitems hroom
    refine ⟨_, ?_, (tokens_lines_iff hlines hlines).mpr (forall₂_same.mpr fun l hl =>
      (tokens_line_iff (hpoints l hl)).mpr (hwritten l hl).1)⟩
    rw [hextract, hloop, map_some, bind_some, nil_append,
      bufferText_some none (fun hnil => htext (length_eq_zero_iff.mp hnil)) (.inl rfl),
      append_nil]

variable {rings : List (List Point)} {polygons : List (List (List Point))}

theorem tokens_open (t : Text) :
    tokens (doubleOf toDouble) ('(' :: t) = .mark '(' :: tokens (doubleOf toDouble) t :=
  tokens_mark [] t (by decide)

theorem close_mem_linesTokens (hrings : rings ≠ []) : Token.mark ')' ∈ linesTokens rings := by
  obtain ⟨ring, rings, rfl⟩ := exists_cons_of_ne_nil hrings
  unfold linesTokens
  rw [map_cons, commas_cons]
  exact mem_append_left _ (mem_cons_of_mem _ (mem_append_right _ (mem_singleton.mpr rfl)))

theorem tokens_polygonText_iff (h : ∀ ring ∈ rings, ring ≠ []) (hrings : rings ≠ []) :
    tokens (doubleOf toDouble) (polygonText rings) = linesTokens rings ↔
      ∃ ring, rings = [ring] ∧ PointsWritten toDouble ring := by
  have htext : tokens (doubleOf toDouble) (polygonText rings) =
      commas ([tokens (doubleOf toDouble) (lineText rings.flatten)].map parens) := by
    rw [map_singleton, commas_singleton]
    exact tokens_parens _
  rw [htext, linesTokens_eq]
  constructor
  · intro heq
    have hsame := commas_parens_injective ?_ ?_ (cons_ne_nil _ _)
      (fun hnil => hrings (map_eq_nil_iff.mp hnil)) heq
    · obtain ⟨ring, rfl, hring⟩ := map_eq_singleton_iff.mp hsame.symm
      rw [flatten_singleton] at hring
      exact ⟨ring, rfl, (tokens_line_iff (h ring mem_cons_self)).mp hring.symm⟩
    · exact forall_mem_singleton.mpr (mark_not_mem_lineText _ (by decide))
    · intro l hl
      obtain ⟨points, -, rfl⟩ := mem_map.mp hl
      exact mark_not_mem_pointsTokens points (by decide)
  · rintro ⟨ring, rfl, hring⟩
    rw [flatten_singleton, (tokens_line_iff (h ring mem_cons_self)).mpr hring]
    rfl

theorem polygon_written_iff (h : listOf (listOf (pointOf toDouble)) node = some rings)
    (hlen : 1 + pointBufferSize < len) :
    ReadsAs toDouble (kjGeoPolygonExtract toDouble len none node) (linesTokens rings) ↔
      (Geometry.polygon rings).Written toDouble len := by
  obtain ⟨nodes, -, hrings, hall⟩ := listOf_eq_some h
  have hiff : tokens (doubleOf toDouble) (polygonText rings) = linesTokens rings ↔ _ :=
    tokens_polygonText_iff (listOf_ne_nil hall) hrings
  constructor
  · rintro ⟨t, ht, htokens⟩
    obtain ⟨extracted, hextract, ht⟩ := bind_eq_some_iff.mp ht
    rcases extracted_polygon h hextract with ⟨-, htext⟩ | ⟨-, taken, htext⟩
    · obtain ⟨-, rfl, hroom⟩ := bufferText_none (htext.symm.trans ht)
      obtain ⟨ring, rfl, hring⟩ := hiff.mp htokens
      exact ⟨ring, rfl, hring, hroom (cons_ne_nil _ _)⟩
    obtain ⟨-, rfl, -⟩ := bufferText_none (htext.symm.trans ht)
    rw [append_nil, tokens_open] at htokens
    have hclose := close_mem_linesTokens hrings
    rw [← htokens, mem_cons] at hclose
    rcases hclose with heq | hmem
    · cases heq
    · exact absurd hmem (mark_not_mem_lineText taken (by decide))
  · rintro ⟨ring, rfl, hring, hroom⟩
    refine ⟨polygonText [ring], ?_, hiff.mpr ⟨ring, rfl, hring⟩⟩
    rw [extract_polygon h hroom hlen none]
    rfl

theorem extracts_polygon (h : listOf (listOf (pointOf toDouble)) node = some rings) :
    Extracts (kjGeoPolygonExtract toDouble polygonCoordsSize) polygonText
      (fun rings => (polygonText rings).length < polygonCoordsSize) node rings := by
  obtain ⟨nodes, -, hrings, hall⟩ := listOf_eq_some h
  constructor
  · intro hroom old
    exact extract_polygon h hroom (by decide) old
  · intro hroom old extracted hextract hok
    have hpoints := flatten_ne_nil (listOf_ne_nil hall) hrings
    rcases extracted_polygon h hextract with ⟨-, htext⟩ | ⟨hfailed, -⟩
    · have hclose : ¬ ([')'] = [] ∨
          ('(' :: lineText rings.flatten ++ [')']).length < polygonCoordsSize) :=
        not_or.mpr ⟨cons_ne_nil _ _, hroom⟩
      rw [htext]
      unfold bufferText
      rw [if_neg (length_opened_ne hpoints), if_neg hclose]
    · rw [hok] at hfailed
      cases hfailed

variable {c : Char}

theorem ne_comma (hc : c = '(' ∨ c = ')') : c ≠ ',' := by
  rcases hc with rfl | rfl <;> decide

theorem count_lists {items : List (List Token)} (hc : c = '(' ∨ c = ')')
    (h : ∀ l ∈ items, Token.mark c ∉ l) :
    (commas (items.map parens)).count (.mark c) = items.length := by
  have hone : ∀ l ∈ items, (parens l).count (.mark c) = 1 := by
    intro l hl
    rw [count_parens l hc, List.count_eq_zero.mpr (h l hl)]
  rw [count_commas _ (ne_comma hc), List.map_map]
  have hsum : items.map (List.count (Token.mark c) ∘ parens) = items.map fun _ => 1 :=
    List.map_congr_left hone
  rw [hsum, map_const', sum_replicate, Nat.nsmul_eq_mul, Nat.mul_one]

theorem count_polygonsText (first : List (List (List Point))) (hc : c = '(' ∨ c = ')') :
    (tokens (doubleOf toDouble) (commaText (first.map polygonText))).count (.mark c) =
      first.length := by
  have htokens : (first.map polygonText).map (tokens (doubleOf toDouble)) =
      (first.map fun rings => tokens (doubleOf toDouble) (lineText rings.flatten)).map parens := by
    rw [List.map_map, List.map_map]
    exact List.map_congr_left fun rings _ => tokens_parens _
  rw [tokens_commaText, htokens, count_lists hc, List.length_map]
  intro l hl
  obtain ⟨rings, -, rfl⟩ := mem_map.mp hl
  exact mark_not_mem_lineText _ (ne_comma hc)

theorem count_polygonsTokens (polygons : List (List (List Point))) (hc : c = '(' ∨ c = ')') :
    (polygonsTokens polygons).count (.mark c) =
      (polygons.map fun rings => rings.length + 1).sum := by
  unfold polygonsTokens
  rw [count_commas _ (ne_comma hc), List.map_map]
  refine congrArg List.sum (List.map_congr_left fun rings _ => ?_)
  rw [Function.comp_apply, count_parens _ hc, linesTokens_eq, count_lists hc, List.length_map]
  intro l hl
  obtain ⟨points, -, rfl⟩ := mem_map.mp hl
  exact mark_not_mem_pointsTokens points (ne_comma hc)

theorem single_ring (hpolygons : polygons ≠ []) (h : ∀ rings ∈ polygons, rings ≠ [])
    (hsum : (polygons.map fun rings => rings.length + 1).sum = polygons.length + 1) :
    ∃ ring, polygons = [[ring]] := by
  have hleast : ∀ n ∈ polygons.map (fun rings => rings.length + 1), 2 ≤ n := by
    intro n hn
    obtain ⟨rings, hrings, rfl⟩ := mem_map.mp hn
    have hpos := length_pos_of_ne_nil (h rings hrings)
    omega
  have hle := card_nsmul_le_sum _ 2 hleast
  rw [hsum, length_map, Nat.nsmul_eq_mul] at hle
  obtain ⟨rings, rest, rfl⟩ := exists_cons_of_ne_nil hpolygons
  rw [length_cons] at hle
  obtain rfl := length_eq_zero_iff.mp (show rest.length = 0 by omega)
  have hone : rings.length = 1 := by
    simpa using hsum
  obtain ⟨ring, rfl⟩ := length_eq_one_iff.mp hone
  exact ⟨ring, rfl⟩

theorem tokens_multiPolygon_iff (ring : List Point) (hring : ring ≠ []) :
    tokens (doubleOf toDouble) (inParentheses (polygonText [ring])) = polygonsTokens [[ring]] ↔
      PointsWritten toDouble ring := by
  have hiff : tokens (doubleOf toDouble) (polygonText [ring]) = linesTokens [ring] ↔ _ :=
    tokens_polygonText_iff (forall_mem_singleton.mpr hring) (cons_ne_nil _ _)
  have htext : tokens (doubleOf toDouble) (inParentheses (polygonText [ring])) =
      parens (tokens (doubleOf toDouble) (polygonText [ring])) := tokens_parens _
  have hdue : polygonsTokens [[ring]] = parens (linesTokens [ring]) := commas_singleton _
  rw [htext, hdue]
  constructor
  · intro h
    obtain ⟨ring', heq, hpoints⟩ := hiff.mp (parens_injective h)
    obtain rfl := singleton_inj.mp heq
    exact hpoints
  · intro hpoints
    rw [hiff.mpr ⟨ring, rfl, hpoints⟩]

theorem tokens_unclosed_ne (first polygons : List (List (List Point))) :
    tokens (doubleOf toDouble) ('(' :: commaText (first.map polygonText)) ≠
      polygonsTokens polygons := by
  rw [tokens_open]
  intro h
  have hopen := congrArg (List.count (Token.mark '(')) h
  have hclose := congrArg (List.count (Token.mark ')')) h
  rw [count_cons_self, count_polygonsText first (.inl rfl),
    count_polygonsTokens polygons (.inl rfl)] at hopen
  rw [count_cons_of_ne (by decide), count_polygonsText first (.inr rfl),
    count_polygonsTokens polygons (.inr rfl)] at hclose
  omega

theorem tokens_closed (hpolygons : polygons ≠ []) (hrings : ∀ rings ∈ polygons, rings ≠ [])
    (h : tokens (doubleOf toDouble) (inParentheses (commaText (polygons.map polygonText))) =
      polygonsTokens polygons) : ∃ ring, polygons = [[ring]] := by
  have hparens : tokens (doubleOf toDouble)
      (inParentheses (commaText (polygons.map polygonText))) = parens _ := tokens_parens _
  have hopen := congrArg (List.count (Token.mark '(')) h
  rw [hparens, count_parens _ (.inl rfl), count_polygonsText polygons (.inl rfl),
    count_polygonsTokens polygons (.inl rfl)] at hopen
  exact single_ring hpolygons hrings hopen.symm

theorem polygons_written_iff
    (h : listOf (listOf (listOf (pointOf toDouble))) node = some polygons) :
    ReadsAs toDouble (kjGeoMultiPolygonExtract toDouble len node) (polygonsTokens polygons) ↔
      (Geometry.multiPolygon polygons).Written toDouble len := by
  obtain ⟨nodes, hchildren, hpolygons, hall⟩ := listOf_eq_some h
  have hextracts := hall.imp fun _ _ => extracts_polygon
  have hrings := listOf_ne_nil hall
  have hpoints := nested_ne_nil hall
  have hextract : kjGeoMultiPolygonExtract toDouble len node =
      (addItems len 1 ['('] (bufferedItems (kjGeoPolygonExtract toDouble polygonCoordsSize)
        id none nodes)).map fun r =>
          ⟨r.1, bufferText len 1 none r.2 (if r.1 then [')'] else [])⟩ := by
    unfold kjGeoMultiPolygonExtract
    rw [hchildren]
    dsimp only [bind_eq_bind, bind_some]
    cases addItems len 1 ['('] (bufferedItems
      (kjGeoPolygonExtract toDouble polygonCoordsSize) id none nodes) <;> rfl
  constructor
  · rintro ⟨t, ht, htokens⟩
    rw [hextract] at ht
    obtain ⟨extracted, hextracted, ht⟩ := bind_eq_some_iff.mp ht
    obtain ⟨⟨ok, coords⟩, hloop, rfl⟩ := map_eq_some_iff.mp hextracted
    obtain ⟨first, hprefix, hfits, rfl, hok, hroom⟩ := buffered_result ['('] hextracts hpolygons
      (fun rings => inParentheses_ne_nil (lineText rings.flatten)) rfl hloop
    obtain ⟨hne, rfl, hclosed⟩ := bufferText_none ht
    cases ok with
    | false => exact absurd htokens (by
        rw [if_neg Bool.noConfusion, append_nil]
        exact tokens_unclosed_ne first polygons)
    | true =>
      obtain ⟨rfl, -⟩ := hroom rfl
      obtain ⟨ring, rfl⟩ := tokens_closed hpolygons hrings htokens
      have hring := hpoints [ring] mem_cons_self ring mem_cons_self
      have hread : tokens (doubleOf toDouble)
          (inParentheses (commaText [polygonText [ring]])) = polygonsTokens [[ring]] := htokens
      have hlength : (inParentheses (commaText [polygonText [ring]])).length < len :=
        hclosed (cons_ne_nil _ _)
      rw [commaText_singleton] at hread hlength
      exact ⟨ring, rfl, (tokens_multiPolygon_iff ring hring).mp hread,
        hfits [ring] mem_cons_self, hlength⟩
  · rintro ⟨ring, rfl, hwritten, hfits, hroom⟩
    have hring := hpoints [ring] mem_cons_self ring mem_cons_self
    have hone : commaText ([[ring]].map fun rings => id (polygonText rings)) =
        polygonText [ring] := commaText_singleton _
    have hlength := length_inParentheses (polygonText [ring])
    have hcopied : (['('] ++ commaText ([[ring]].map fun rings => id (polygonText rings))).length <
        len := by
      rw [hone, length_append, length_singleton]
      omega
    have hitem : id (polygonText [ring]) ≠ [] ∧ 1 + (id (polygonText [ring])).length + 1 < len :=
      ⟨inParentheses_ne_nil _, by rw [id]; omega⟩
    have hopened : (['('] ++ polygonText [ring]).length ≠ 1 := fun h =>
      inParentheses_ne_nil _ (length_eq_zero_iff.mp (Nat.succ.inj h))
    have hpre : ['('].length = 1 := rfl
    have hloop := buffered_fits ['('] id none hextracts (forall_mem_singleton.mpr hfits) hpre
      (forall_mem_singleton.mpr hitem) hcopied
    refine ⟨_, ?_, (tokens_multiPolygon_iff ring hring).mpr hwritten⟩
    rw [hextract, hloop, hone, map_some, bind_some]
    exact bufferText_some none hopened (.inr hroom)

variable {coordinates : KjNode} {g : Geometry}

structure IsName (name : Text) : Prop where
  plain : (name.all fun c => !(isMark c || c == ' ')) = true
  ne_nil : name ≠ []
  word : decimalValue name = none

theorem tokens_named {name : Text} (hname : IsName name) (coords : Text) :
    tokens (doubleOf toDouble) (name ++ ['('] ++ coords ++ [')']) =
      .name name :: parens (tokens (doubleOf toDouble) coords) := by
  have htext : name ++ ['('] ++ coords ++ [')'] = name ++ '(' :: (coords ++ [')']) := by simp
  have hflush : flush (doubleOf toDouble) name = [.name name] := by
    unfold flush doubleOf
    rw [if_neg hname.ne_nil, hname.word]
    rfl
  have hplain : ∀ c ∈ name, isMark c = false ∧ c ≠ ' ' := by
    intro c hc
    simpa using all_eq_true.mp hname.plain c hc
  rw [htext, tokens_mark _ _ (by decide), tokens_mark _ _ (by decide)]
  unfold tokens
  rw [tokensFrom_word [] hplain, nil_append, hflush]
  rfl

theorem named_iff (name : Text) (hname : IsName name) (extracted : Option Extracted)
    (due : List Token) :
    (∃ t, (extracted.bind fun e => e.text.bind fun coords =>
        some (name ++ ['('] ++ coords ++ [')'])) = some t ∧
      tokens (doubleOf toDouble) t = .name name :: parens due) ↔
      ReadsAs toDouble extracted due := by
  constructor
  · rintro ⟨t, ht, htokens⟩
    obtain ⟨e, he, ht⟩ := bind_eq_some_iff.mp ht
    obtain ⟨coords, hcoords, ht⟩ := bind_eq_some_iff.mp ht
    cases ht
    rw [tokens_named hname] at htokens
    exact ⟨coords, bind_eq_some_iff.mpr ⟨e, he, hcoords⟩, parens_injective (cons.inj htokens).2⟩
  · rintro ⟨coords, hcoords, htokens⟩
    obtain ⟨e, he, hcoords⟩ := bind_eq_some_iff.mp hcoords
    refine ⟨_, bind_eq_some_iff.mpr ⟨e, he, bind_eq_some_iff.mpr ⟨coords, hcoords, rfl⟩⟩, ?_⟩
    rw [tokens_named hname, htokens]

theorem geoText_written_iff (type : GeoType) (hg : geometryOf toDouble coordinates type = some g)
    (hlen : type ≠ .point → polygonCoordsSize ≤ len) :
    (∃ t, geoText toDouble len coordinates type = some t ∧
      tokens (doubleOf toDouble) t = g.tokens) ↔ g.Written toDouble len := by
  have hroom : ∀ n, n < polygonCoordsSize → type ≠ .point → n < len :=
    fun n hn htype => lt_of_lt_of_le hn (hlen htype)
  cases type with
  | point =>
    obtain ⟨p, hp, rfl⟩ := map_eq_some_iff.mp hg
    have htext : geoText toDouble len coordinates .point =
        some ("POINT".toList ++ ['('] ++ pointText p ++ [')']) := by
      unfold geoText
      rw [kjGeoPointExtract_of_pointOf hp]
      rfl
    have hname : IsName "POINT".toList := ⟨by decide, by decide, by decide⟩
    rw [htext]
    refine Iff.trans ?_ tokens_pointText_iff
    constructor
    · rintro ⟨t, ht, htokens⟩
      cases ht
      rw [tokens_named hname] at htokens
      exact parens_injective (cons.inj htokens).2
    · intro htokens
      refine ⟨_, rfl, ?_⟩
      rw [tokens_named hname, htokens]
      rfl
  | multiPoint =>
    obtain ⟨points, hpoints, rfl⟩ := map_eq_some_iff.mp hg
    exact (named_iff "MULTIPOINT".toList ⟨by decide, by decide, by decide⟩ _ _).trans
      (points_written_iff hpoints (hroom _ (by decide) (by decide)))
  | lineString =>
    obtain ⟨points, hpoints, rfl⟩ := map_eq_some_iff.mp hg
    exact (named_iff "LINESTRING".toList ⟨by decide, by decide, by decide⟩ _ _).trans
      (points_written_iff hpoints (hroom _ (by decide) (by decide)))
  | multiLineString =>
    obtain ⟨lines, hlines, rfl⟩ := map_eq_some_iff.mp hg
    exact (named_iff "MULTILINESTRING".toList ⟨by decide, by decide, by decide⟩ _ _).trans
      (lines_written_iff hlines (hroom _ (by decide) (by decide)))
  | polygon =>
    obtain ⟨rings, hrings, rfl⟩ := map_eq_some_iff.mp hg
    exact (named_iff "POLYGON".toList ⟨by decide, by decide, by decide⟩ _ _).trans
      (polygon_written_iff hrings (hroom _ (by decide) (by decide)))
  | multiPolygon =>
    obtain ⟨polygons, hpolygons, rfl⟩ := map_eq_some_iff.mp hg
    exact (named_iff "MULTIPOLYGON".toList ⟨by decide, by decide, by decide⟩ _ _).trans
      (polygons_written_iff hpolygons)

end GeometryWritten
