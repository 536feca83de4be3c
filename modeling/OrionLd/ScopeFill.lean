import OrionLd.MongoLocation
import OrionLd.ServicePathRegex
import OrionLd.Str2double

/-! Scope::fill of Scope.cpp: the geometry, the georel and the coordinates of a query. The polygons
of NGSI-LD are first written into a buffer on the stack in the syntax of NGSIv2. -/
namespace ScopeFill

open KjTree Scanf Strtod Str2double List
open Binary64 (Double)
open MongoLocation (ApiVersion)
open NearestFloat (nearest binary64)
open ServicePathRegex
open StringFilter (stringSplit)

structure Geometry where
  areaType : Text
  radius : ℤ
  external : Bool

/-- One item of a geometry. For "radius" alone the source reads behind the end of the item. -/
def Geometry.item (apiVersion : ApiVersion) (g : Geometry) (item : Text) :
    Except String Geometry :=
  let item :=
    if apiVersion = .ngsiLd ∧ item = "Point".toList then "point".toList
    else if apiVersion = .ngsiLd ∧ item = "Polygon".toList then "polygon".toList
    else item
  if apiVersion = .v1 ∧ item ∈ ["polygon".toList, "circle".toList] then
    if g.areaType ≠ [] then .error "polygon/circle present more than once"
    else .ok { g with areaType := item }
  else if apiVersion ≠ .v1 ∧
      item ∈ ["point".toList, "line".toList, "box".toList, "polygon".toList] then
    if g.areaType ≠ [] then .error "geometry-type present more than once"
    else .ok { g with areaType := item }
  else if "radius".toList <+: item then
    let radius := atoi (item.drop 7)
    if radius = 0 then .error "Invalid value of /radius/" else .ok { g with radius := radius }
  else if item = "external".toList then .ok { g with external := true }
  else .error "Invalid selector in geometry specification"

def Geometry.parse (apiVersion : ApiVersion) (s : Text) : Except String Geometry :=
  let items := stringSplit s ';'
  if items = [] then .error "empty geometry"
  else do
    let g ← items.foldlM (Geometry.item apiVersion) ⟨[], -1, false⟩
    if g.areaType = "circle".toList ∧ g.radius = -1 then .error "no radius for circle"
    else if g.areaType = "polygon".toList ∧ g.radius ≠ -1 then .error "radius set for polygon"
    else .ok g

structure Georel where
  type : Text
  maxDistance : Option Double
  minDistance : Option Double

def georelTypes : List Text :=
  ["near".toList, "coveredBy".toList, "intersects".toList, "equals".toList, "disjoint".toList,
    "within".toList]

def Georel.maximum (g : Georel) (number : Text) : Except String Georel :=
  if g.maxDistance.isSome then .error "maxDistance present more than once"
  else
    match str2double number with
    | none => .error "invalid number for maxDistance"
    | some distance => .ok { g with maxDistance := some distance }

def Georel.minimum (g : Georel) (number : Text) : Except String Georel :=
  if g.minDistance.isSome then .error "minDistance present more than once"
  else
    match str2double number with
    | none => .error "invalid number for minDistance"
    | some distance => .ok { g with minDistance := some distance }

/-- A distance that is not set is -1 in the source, which also keeps a flag. -/
def Georel.item (g : Georel) (item : Text) : Except String Georel :=
  if item ∈ georelTypes then
    if g.type ≠ [] then .error "georel type present more than once"
    else .ok { g with type := item }
  else if "maxDistance:".toList <+: item then g.maximum (item.drop 12)
  else if "minDistance:".toList <+: item then g.minimum (item.drop 12)
  else if "maxDistance==".toList <+: item then g.maximum (item.drop 13)
  else if "minDistance==".toList <+: item then g.minimum (item.drop 13)
  else .error "Invalid modifier in georel parameter"

def Georel.parse (s : Text) : Except String Georel :=
  let items := stringSplit s ';'
  if items = [] then .error "empty georel"
  else do
    let g ← items.foldlM Georel.item ⟨[], none, none⟩
    if g.maxDistance.isSome ∧ g.type ≠ "near".toList then
      .error ("maxDistance erroneously used with georel /" ++ String.ofList g.type ++ "/")
    else if g.minDistance.isSome ∧ g.type ≠ "near".toList then
      .error ("minDistance erroneously used with georel /" ++ String.ofList g.type ++ "/")
    else if g.type = "near".toList ∧ g.maxDistance = none ∧ g.minDistance = none then
      .error "georel /near/ without either minDistance nor maxDistance"
    else .ok g

/-- What is in the buffer, with the counters of the loop. -/
structure Conversion where
  text : Text
  coords : ℕ
  something : Bool

def bufferSize : ℕ := 512

def isAllowed (c : Char) : Bool := c.isDigit || c == ',' || c == '.' || c == '-' || c == ' '

/-- None is a write behind the buffer. -/
def Conversion.write (z : Conversion) (c : Char) : Option Conversion :=
  if z.text.length < bufferSize then
    some ⟨z.text ++ [c], if c = ',' then z.coords + 1 else z.coords, z.something || c.isDigit⟩
  else none

def convert : Conversion → Text → Option (Except String Conversion)
  | z, [] => some (.ok z)
  | z, ']' :: ',' :: '[' :: cP => (z.write ';').bind fun z => convert z cP
  | z, ']' :: ',' :: ' ' :: '[' :: cP => (z.write ';').bind fun z => convert z cP
  | z, [']', ']'] => some (.ok z)
  | z, [']', ' ', ']'] => some (.ok z)
  | z, [']'] => some (.ok z)
  | z, c :: cP =>
    if c = ']' then some (.error "Invalid polygon")
    else if isAllowed c then (z.write c).bind fun z => convert z cP
    else some (.error "Converting NGSI-LD polygon coordinates: invalid character")

def skipBlanks (s : Text) : Text := s.dropWhile (· = ' ')

/-- The terminator is written behind the text. -/
def Conversion.close (z : Conversion) : Option (Except String Text) :=
  if z.something = false then some (.error "Garbage coordinates URI param?")
  else if z.coords = 1 then some (.error "At least TWO coordinates must be present")
  else if z.text.length < bufferSize then some (.ok z.text)
  else none

def convertPolygon (coordsString : Text) : Option (Except String Text) :=
  match skipBlanks coordsString with
  | '[' :: cP =>
    match skipBlanks cP with
    | '[' :: cP =>
      match convert ⟨[], 1, false⟩ (skipBlanks cP) with
      | none => none
      | some (.error e) => some (.error e)
      | some (.ok z) => z.close
    | _ => some (.error "Converting NGSI-LD polygon coordinates: not starting with '[['")
  | _ => some (.error "Converting NGSI-LD polygon coordinates: not starting with '['")

structure Point where
  latitude : Double
  longitude : Double
  deriving DecidableEq

inductive Area where
  | circle (center : Point) (radius : ℤ) (inverted : Bool)
  | polygon (vertexList : List Point) (inverted : Bool)
  | line (pointList : List Point)
  | box (lowerLeft upperRight : Point)
  | point (p : Point)

structure Scope where
  type : Text
  area : Area
  georel : Georel

def less : Double → Double → Bool
  | .finite x, .finite y => decide (x < y)
  | .infinite negative, .finite _ => negative
  | .finite _, .infinite negative => !negative
  | .infinite negative, .infinite negative' => negative && !negative'
  | _, _ => false

/-- The corners of a box, none for a degenerate one. -/
def orderCoordsForBox (p q : Point) : Option (Point × Point) :=
  if p.latitude.equal q.latitude || p.longitude.equal q.longitude then none
  else
    let minimum (a b : Double) := if less a b then a else b
    let maximum (a b : Double) := if less b a then a else b
    some (⟨minimum p.latitude q.latitude, minimum p.longitude q.longitude⟩,
      ⟨maximum p.latitude q.latitude, maximum p.longitude q.longitude⟩)

def Point.equals (p q : Point) : Bool :=
  p.latitude.equal q.latitude && p.longitude.equal q.longitude

def closes (pointV : List Point) : Bool :=
  match pointV.head?, pointV.getLast? with
  | some first, some last => first.equals last
  | _, _ => false

def pointOf (stateVersion apiVersion : ApiVersion) (areaType pointString : Text) :
    Except String Point :=
  let coordV := stringSplit pointString ','
  let coords := coordV.length
  if areaType = "point".toList ∧ coords ≠ 2 ∧ (stateVersion = .ngsiLd → coords ≠ 3) then
    .error "invalid coordinates for point"
  else
    match coordV with
    | first :: second :: _ =>
      match str2double first with
      | none => .error "invalid coordinates"
      | some latitude =>
        match str2double second with
        | none => .error "invalid coordinates"
        | some longitude =>
          if apiVersion = .ngsiLd then .ok ⟨longitude, latitude⟩ else .ok ⟨latitude, longitude⟩
    | _ => .error "invalid point in URI param /coords/"

def areaOf (apiVersion : ApiVersion) (geometry : Geometry) (pointV : List Point) :
    Except String Area :=
  if geometry.areaType = "circle".toList then
    if apiVersion = .v2 then .error "circle geometry is not supported by Orion API v2"
    else
      match pointV with
      | [center] => .ok (.circle center geometry.radius geometry.external)
      | _ => .error "Too many coordinates for circle"
  else if geometry.areaType = "polygon".toList then
    if apiVersion = .v1 ∧ pointV.length < 3 then .error "Too few coordinates for polygon"
    else if apiVersion = .v2 ∧ pointV.length < 4 then .error "Too few coordinates for polygon"
    else if apiVersion = .v2 ∧ closes pointV = false then
      .error "First and last point in polygon not the same"
    else .ok (.polygon pointV geometry.external)
  else if geometry.areaType = "line".toList then
    if pointV.length < 2 then .error "invalid number of coordinates for /line/"
    else .ok (.line pointV)
  else if geometry.areaType = "box".toList then
    match pointV with
    | [p, q] =>
      match orderCoordsForBox p q with
      | none => .error "box coordinates are not defining an actual box"
      | some (lowerLeft, upperRight) => .ok (.box lowerLeft upperRight)
    | _ => .error "invalid number of coordinates for /box/"
  else if geometry.areaType = "point".toList then
    match pointV with
    | [p] => .ok (.point p)
    | _ => .error "invalid number of coordinates for /point/"
  else .error "invalid area-type"

/-- The combinations that the database does not know. -/
def checkCombination (areaType georelType : Text) : Except String Unit :=
  if areaType = "line".toList ∧ georelType = "coveredBy".toList then
    .error "line geometry cannot be used with coveredBy georel"
  else if areaType = "point".toList ∧ georelType = "coveredBy".toList then
    .error "point geometry cannot be used with coveredBy georel"
  else if areaType ≠ "point".toList ∧ georelType = "near".toList then
    .error "georel /near/ used with geometry different than point"
  else .ok ()

def georelOf (georelString2 : Text) : Except String Georel :=
  if georelString2 ≠ [] then Georel.parse (cString georelString2) else .ok ⟨[], none, none⟩

def fillArea (stateVersion apiVersion : ApiVersion)
    (geometryString coordsString2 georelString2 : Text) : Except String Scope := do
  let geometry ← (Geometry.parse apiVersion (cString geometryString)).mapError
    ("error parsing geometry: " ++ ·)
  let georel ← georelOf georelString2
  checkCombination geometry.areaType georel.type
  if coordsString2 = [] then .error "no coordinates for geometry"
  else
    let pointStringV := stringSplit coordsString2 ';'
    if pointStringV = [] then .error "erroneous coordinates for geometry"
    else
      let pointV ← pointStringV.mapM (pointOf stateVersion apiVersion geometry.areaType)
      let area ← areaOf apiVersion geometry pointV
      let type := if apiVersion = .v1 then "FIWARE::Location" else "FIWARE::Location::NGSIv2"
      .ok ⟨type.toList, area, georel⟩

/-- None is a write behind convertedCoordsString. -/
def fill (stateVersion apiVersion : ApiVersion)
    (geometryString coordsString georelString : Text) : Option (Except String Scope) :=
  if apiVersion = .ngsiLd ∧ geometryString = "Polygon".toList then
    let georelString2 :=
      if georelString = "within".toList then "coveredBy".toList else georelString
    (convertPolygon (cString coordsString)).map fun converted => do
      fillArea stateVersion apiVersion geometryString (← converted) georelString2
  else some (fillArea stateVersion apiVersion geometryString (cString coordsString) georelString)

/-- Two decimal numbers, and whether blanks stand behind their comma and behind the comma in front
of the point. -/
structure DecimalPoint where
  x : Text
  y : Text
  longitude : ℚ
  latitude : ℚ
  x_decimal : IsDecimal x longitude
  y_decimal : IsDecimal y latitude
  blank : Bool
  gap : Bool

def blankIf (b : Bool) : Text := if b then [' '] else []

def DecimalPoint.text (p : DecimalPoint) : Text := p.x ++ ',' :: (blankIf p.blank ++ p.y)

def closing : List DecimalPoint → Text
  | [] => "]]".toList
  | p :: ps => ']' :: ',' :: (blankIf p.gap ++ '[' :: (p.text ++ closing ps))

def polygonText (p : DecimalPoint) (ps : List DecimalPoint) : Text :=
  '[' :: '[' :: (p.text ++ closing ps)

def DecimalPoint.vertex (p : DecimalPoint) : Point :=
  ⟨.finite (nearest binary64 p.latitude), .finite (nearest binary64 p.longitude)⟩

def KeepsPoints (p : DecimalPoint) (ps : List DecimalPoint) : Prop :=
  ∀ stateVersion georelString, ∃ result,
    fill stateVersion .ngsiLd "Polygon".toList (polygonText p ps) georelString = some result ∧
      ∀ scope, result = .ok scope →
        scope.area = .polygon ((p :: ps).map DecimalPoint.vertex) false

def converted (p : DecimalPoint) (ps : List DecimalPoint) : Text :=
  Delimited.join ';' p.text (ps.map DecimalPoint.text)

def isPlain (c : Char) : Bool := c == ';' || isAllowed c

/-- Up to the first character that is refused, which is a plus or the letter of an exponent, the
converted text goes into the buffer, with a terminator if nothing is refused. -/
def FitsBuffer (p : DecimalPoint) (ps : List DecimalPoint) : Prop :=
  ((converted p ps).takeWhile isPlain).length ≤ bufferSize ∧
    ((converted p ps).takeWhile isPlain = converted p ps →
      (converted p ps).length < bufferSize)

variable {z : Conversion} {t u rest : Text} {c : Char}

def andThen (r : Option (Except String Conversion))
    (f : Conversion → Option (Except String Conversion)) : Option (Except String Conversion) :=
  match r with
  | some (.ok z) => f z
  | r => r

def consume : Conversion → Text → Option (Except String Conversion)
  | z, [] => some (.ok z)
  | z, c :: t =>
    if isPlain c then (z.write c).bind fun z => consume z t
    else some (.error "Converting NGSI-LD polygon coordinates: invalid character")

theorem andThen_bind (r : Option Conversion) (f g) :
    andThen (r.bind f) g = r.bind fun z => andThen (f z) g := by
  cases r <;> rfl

theorem consume_append : consume z (t ++ u) = andThen (consume z t) fun z => consume z u := by
  induction t generalizing z with
  | nil => rfl
  | cons c t ih =>
    rw [cons_append, consume, consume]
    split
    · rw [andThen_bind]
      congr 1
      funext z
      exact ih
    · rfl

theorem convert_char (hc : c ≠ ']') : convert z (c :: rest) =
    if isAllowed c then (z.write c).bind fun z => convert z rest
    else some (.error "Converting NGSI-LD polygon coordinates: invalid character") := by
  simp [convert, hc]

theorem convert_chars (h : ∀ c ∈ t, c ≠ ']' ∧ c ≠ ';') :
    convert z (t ++ rest) = andThen (consume z t) fun z => convert z rest := by
  induction t generalizing z with
  | nil => rfl
  | cons c t ih =>
    obtain ⟨⟨hbracket, hsemicolon⟩, ht⟩ := forall_mem_cons.mp h
    have hplain : isPlain c = isAllowed c := by simp [isPlain, hsemicolon]
    rw [cons_append, convert_char hbracket, consume, hplain]
    split
    · rw [andThen_bind]
      congr 1
      funext z
      exact ih ht
    · rfl

theorem convert_between (b : Bool) : convert z (']' :: ',' :: (blankIf b ++ '[' :: rest)) =
    (z.write ';').bind fun z => convert z rest := by
  cases b <;> rfl

theorem consume_plain (h : ∀ c ∈ t, isPlain c = true)
    (hfits : z.text.length + t.length ≤ bufferSize) : consume z t =
      some (.ok ⟨z.text ++ t, z.coords + t.count ',', z.something || t.any Char.isDigit⟩) := by
  induction t generalizing z with
  | nil => simp [consume]
  | cons c t ih =>
    obtain ⟨hc, ht⟩ := forall_mem_cons.mp h
    rw [length_cons] at hfits
    have hroom : z.text.length < bufferSize := by omega
    rw [consume, if_pos hc, Conversion.write, if_pos hroom, Option.bind_some, ih ht]
    · by_cases hcomma : c = ','
      · simp [hcomma]
        omega
      · simp [hcomma, Bool.or_assoc]
    · rw [length_append, length_singleton]
      omega

theorem consume_full (h : ∀ c ∈ t, isPlain c = true) (hstart : z.text.length ≤ bufferSize)
    (hfull : bufferSize < z.text.length + t.length) : consume z t = none := by
  induction t generalizing z with
  | nil =>
    rw [length_nil] at hfull
    omega
  | cons c t ih =>
    obtain ⟨hc, ht⟩ := forall_mem_cons.mp h
    rw [length_cons] at hfull
    rw [consume, if_pos hc, Conversion.write]
    split
    · rename_i hroom
      refine ih ht ?_ ?_
      · rw [length_append, length_singleton]
        omega
      · rw [length_append, length_singleton]
        omega
    · rfl

variable {x : ℚ}

theorem decimal_notMem (h : IsDecimal t x) (hc : Foreign c) : c ∉ t :=
  accepts_foreign wordy_start (accepts_kinds.mpr (.inl ⟨x, h⟩)) hc

theorem foreign_semicolon : Foreign ';' :=
  ⟨by decide, by decide, by rfl, by decide, by decide, by decide, by decide, by decide⟩

theorem foreign_bracket : Foreign ']' :=
  ⟨by decide, by decide, by rfl, by decide, by decide, by decide, by decide, by decide⟩

theorem foreign_nul : Foreign '\x00' :=
  ⟨by decide, by decide, by rfl, by decide, by decide, by decide, by decide, by decide⟩

theorem decimal_digit (h : IsDecimal t x) : t.any Char.isDigit = true := by
  obtain ⟨sign, m, -, hm, hsome, rfl, -⟩ := h
  obtain ⟨c, hc⟩ := exists_mem_of_ne_nil _ hsome
  have hdigit : c.isDigit = true := by
    rw [← isDigitOf_false]
    rcases mem_append.mp hc with hc | hc
    · exact hm.whole c hc
    · exact hm.decimals c hc
  refine any_eq_true.mpr ⟨c, mem_append_right _ ?_, hdigit⟩
  rcases mem_append.mp hc with hc | hc
  · exact mem_append_left _ hc
  refine mem_append_right _ (mem_append_left _ ?_)
  cases hpoint : m.point with
  | false =>
    rw [hm.pointless hpoint] at hc
    cases hc
  | true => exact mem_cons_of_mem _ hc

theorem decimal_ne_nil (h : IsDecimal t x) : t ≠ [] := by
  rintro rfl
  have hdigit := decimal_digit h
  cases hdigit

variable (p : DecimalPoint) (ps : List DecimalPoint)

theorem text_notMem (hc : Foreign c) (hcomma : c ≠ ',') (hblank : c ≠ ' ') : c ∉ p.text := by
  intro hmem
  rcases mem_append.mp hmem with hmem | hmem
  · exact decimal_notMem p.x_decimal hc hmem
  rcases mem_cons.mp hmem with rfl | hmem
  · exact hcomma rfl
  rcases mem_append.mp hmem with hmem | hmem
  · cases hb : p.blank <;> rw [hb] at hmem
    · cases hmem
    · exact hblank (mem_singleton.mp hmem)
  · exact decimal_notMem p.y_decimal hc hmem

theorem text_plain : ∀ c ∈ p.text, c ≠ ']' ∧ c ≠ ';' := by
  intro c hc
  constructor
  · rintro rfl
    exact text_notMem p foreign_bracket (by decide) (by decide) hc
  · rintro rfl
    exact text_notMem p foreign_semicolon (by decide) (by decide) hc

theorem text_ne_nil : p.text ≠ [] := by
  unfold DecimalPoint.text
  simp

theorem convert_points (z : Conversion) :
    convert z (p.text ++ closing ps) = consume z (converted p ps) := by
  induction ps generalizing p z with
  | nil =>
    rw [convert_chars (text_plain p), converted, map_nil, Delimited.join_nil]
    cases consume z p.text with
    | none => rfl
    | some r => cases r <;> rfl
  | cons q qs ih =>
    rw [convert_chars (text_plain p), converted, map_cons, Delimited.join_cons, consume_append]
    congr 1
    funext z
    rw [closing, convert_between, consume, if_pos (by decide)]
    congr 1
    funext z
    exact ih q z

theorem converted_counts : (converted p ps).any Char.isDigit = true ∧
    1 ≤ (converted p ps).count ',' := by
  constructor
  · unfold converted Delimited.join DecimalPoint.text
    simp only [any_append, decimal_digit p.x_decimal, Bool.true_or]
  · refine one_le_count_iff.mpr ?_
    unfold converted Delimited.join DecimalPoint.text
    simp

theorem split_converted : stringSplit (converted p ps) ';' = (p :: ps).map DecimalPoint.text := by
  refine stringSplit_cons.mpr ⟨text_ne_nil p, ?_, 0, rfl⟩
  intro t ht hc
  obtain ⟨q, -, rfl⟩ := mem_map.mp (show t ∈ (p :: ps).map DecimalPoint.text from ht)
  exact (text_plain q _ hc).2 rfl

theorem split_text : stringSplit p.text ',' = [p.x, blankIf p.blank ++ p.y] := by
  refine stringSplit_cons.mpr ⟨decimal_ne_nil p.x_decimal, ?_, 0, ?_⟩
  · intro t ht hc
    rcases mem_cons.mp ht with rfl | ht
    · exact decimal_notMem p.x_decimal foreign_comma hc
    obtain rfl := mem_singleton.mp ht
    rcases mem_append.mp hc with hc | hc
    · cases hb : p.blank <;> rw [hb] at hc
      · cases hc
      · exact absurd (mem_singleton.mp hc) (by decide)
    · exact decimal_notMem p.y_decimal foreign_comma hc
  · rw [Delimited.join_cons, Delimited.join_nil]
    rfl

variable {stateVersion : ApiVersion}

theorem str2double_point {d : Double} (b : Bool) (h : IsDecimal t x)
    (hd : str2double (blankIf b ++ t) = some d) : d = .finite (nearest binary64 x) := by
  have hblank : Blank (blankIf b) := by
    cases b
    · exact forall_mem_nil _
    · exact forall_mem_singleton.mpr (by decide)
  have hread := str2double_decimal hblank (forall_mem_nil _) h
  rw [append_nil, hd] at hread
  split at hread
  · cases hread
  · exact Option.some.inj hread

theorem pointOf_text {q : Point}
    (h : pointOf stateVersion .ngsiLd "polygon".toList p.text = .ok q) : q = p.vertex := by
  unfold pointOf at h
  rw [split_text] at h
  dsimp only at h
  cases hx : str2double p.x with
  | none =>
    rw [hx] at h
    cases h
  | some first =>
    rw [hx] at h
    cases hy : str2double (blankIf p.blank ++ p.y) with
    | none =>
      rw [hy] at h
      cases h
    | some second =>
      rw [hy] at h
      cases h
      rw [DecimalPoint.vertex, str2double_point false p.x_decimal hx,
        str2double_point p.blank p.y_decimal hy]

theorem points_read {pointV : List Point}
    (h : ((p :: ps).map DecimalPoint.text).mapM (pointOf stateVersion .ngsiLd "polygon".toList) =
      .ok pointV) : pointV = (p :: ps).map DecimalPoint.vertex := by
  have hall := Fallible.mapM_forall₂ h
  rw [forall₂_map_left_iff] at hall
  have heq := hall.imp fun q point hpoint => (pointOf_text q hpoint).symm
  exact (forall₂_eq_eq_eq ▸ forall₂_map_left_iff.mpr heq).symm

theorem fillArea_points {georelString2 : Text} {scope : Scope}
    (h : fillArea stateVersion .ngsiLd "Polygon".toList (converted p ps) georelString2 = .ok
      scope) :
    scope.area = .polygon ((p :: ps).map DecimalPoint.vertex) false := by
  have hgeometry : (Geometry.parse .ngsiLd (cString "Polygon".toList)).mapError
      ("error parsing geometry: " ++ ·) = .ok ⟨"polygon".toList, -1, false⟩ := by rfl
  have hsome : converted p ps ≠ [] := by
    unfold converted Delimited.join
    rw [Ne, append_eq_nil_iff]
    exact fun hnil => text_ne_nil p hnil.1
  unfold fillArea at h
  rw [hgeometry, Fallible.ok_bind] at h
  obtain ⟨georel, -, h⟩ := Fallible.bind_ok h
  obtain ⟨_, -, h⟩ := Fallible.bind_ok h
  rw [if_neg hsome, split_converted] at h
  obtain ⟨pointV, hpoints, h⟩ := Fallible.bind_ok h
  obtain ⟨area, harea, h⟩ := Fallible.bind_ok h
  cases h
  obtain rfl := points_read p ps hpoints
  exact (Except.ok.inj harea).symm

theorem cString_polygonText : cString (polygonText p ps) = polygonText p ps := by
  refine takeWhile_eq_self_iff.mpr ?_
  have hclosing : ∀ ps, '\x00' ∉ closing ps := by
    intro ps
    induction ps with
    | nil => decide
    | cons q qs ih =>
      have htext := text_notMem q foreign_nul (by decide) (by decide)
      have hgap : '\x00' ∉ blankIf q.gap := by cases q.gap <;> decide
      simp [closing, htext, hgap, ih]
  have htext := text_notMem p foreign_nul (by decide) (by decide)
  intro c hc
  rw [decide_eq_true_eq]
  rintro rfl
  simp [polygonText, htext, hclosing] at hc

theorem convertPolygon_points : convertPolygon (polygonText p ps) =
    match consume ⟨[], 1, false⟩ (converted p ps) with
    | none => none
    | some (.error e) => some (.error e)
    | some (.ok z) => z.close := by
  have hskip : skipBlanks (p.text ++ closing ps) = p.text ++ closing ps := by
    obtain ⟨c, x, hx⟩ := exists_cons_of_ne_nil (decimal_ne_nil p.x_decimal)
    have hc : c ≠ ' ' := by
      rintro rfl
      exact decimal_notMem p.x_decimal (foreign_space (by decide)) (hx ▸ mem_cons_self)
    unfold skipBlanks DecimalPoint.text
    rw [hx]
    exact dropWhile_cons_of_neg (by simpa using hc)
  have hfirst : skipBlanks (polygonText p ps) = polygonText p ps := rfl
  have hsecond : skipBlanks ('[' :: (p.text ++ closing ps)) = '[' :: (p.text ++ closing ps) := rfl
  unfold convertPolygon
  rw [hfirst, polygonText]
  simp only [hsecond, hskip, convert_points]

theorem convertPolygon_room (hfits : FitsBuffer p ps) :
    convertPolygon (polygonText p ps) = some (.ok (converted p ps)) ∨
      ∃ e, convertPolygon (polygonText p ps) = some (.error e) := by
  obtain ⟨hroom, hwhole⟩ := hfits
  have hsplit : (converted p ps).takeWhile isPlain ++ (converted p ps).dropWhile isPlain =
    converted p ps := takeWhile_append_dropWhile
  have hplain : ∀ c ∈ (converted p ps).takeWhile isPlain, isPlain c = true :=
    fun c hc => mem_takeWhile_imp hc
  rw [convertPolygon_points]
  cases hrest : (converted p ps).dropWhile isPlain with
  | nil =>
    rw [hrest, append_nil] at hsplit
    have hlength := hwhole hsplit
    rw [hsplit] at hplain hroom
    obtain ⟨hdigit, hcomma⟩ := converted_counts p ps
    have hconsume := @consume_plain ⟨[], 1, false⟩ _ hplain (by simpa using hroom)
    refine .inl ?_
    rw [hconsume]
    dsimp only [Conversion.close]
    rw [hdigit, Bool.or_true, if_neg (by decide), if_neg (by omega), nil_append, if_pos hlength]
  | cons c back =>
    have hbad : isPlain c = false := by
      have hhead := List.head?_dropWhile_not isPlain (converted p ps)
      rw [hrest] at hhead
      simpa using hhead
    have hconsume := @consume_plain ⟨[], 1, false⟩ _ hplain (by simpa using hroom)
    have herror : consume ⟨[], 1, false⟩ (converted p ps) =
        some (.error "Converting NGSI-LD polygon coordinates: invalid character") := by
      rw [← hsplit, hrest, consume_append, hconsume, andThen, consume, hbad]
      rfl
    rw [herror]
    exact .inr ⟨_, rfl⟩

theorem convertPolygon_full (hfull : ¬ FitsBuffer p ps) :
    convertPolygon (polygonText p ps) = none := by
  have hsplit : (converted p ps).takeWhile isPlain ++ (converted p ps).dropWhile isPlain =
    converted p ps := takeWhile_append_dropWhile
  have hplain : ∀ c ∈ (converted p ps).takeWhile isPlain, isPlain c = true :=
    fun c hc => mem_takeWhile_imp hc
  rw [convertPolygon_points]
  by_cases hroom : ((converted p ps).takeWhile isPlain).length ≤ bufferSize
  · -- the text ends at the end of the buffer, and its terminator is behind it
    have hwhole : (converted p ps).takeWhile isPlain = converted p ps := by
      by_contra hwhole
      exact hfull ⟨hroom, fun h => absurd h hwhole⟩
    have hlength : ¬ (converted p ps).length < bufferSize := fun h => hfull ⟨hroom, fun _ => h⟩
    rw [hwhole] at hplain hroom
    obtain ⟨hdigit, hcomma⟩ := converted_counts p ps
    have hconsume := @consume_plain ⟨[], 1, false⟩ _ hplain (by simpa using hroom)
    rw [hconsume]
    dsimp only [Conversion.close]
    rw [hdigit, Bool.or_true, if_neg (by decide), if_neg (by omega), nil_append,
      if_neg hlength]
  · have hconsume : consume ⟨[], 1, false⟩ ((converted p ps).takeWhile isPlain) = none :=
      consume_full hplain (Nat.zero_le _) (by simpa using hroom)
    rw [← hsplit, consume_append, hconsume]
    rfl

theorem fill_polygonText (georelString : Text) :
    fill stateVersion .ngsiLd "Polygon".toList (polygonText p ps) georelString =
      (convertPolygon (polygonText p ps)).map fun converted => converted >>= fun text =>
        fillArea stateVersion .ngsiLd "Polygon".toList text
          (if georelString = "within".toList then "coveredBy".toList else georelString) := by
  unfold fill
  rw [if_pos ⟨rfl, rfl⟩, cString_polygonText]

theorem not_kept (hfull : ¬ FitsBuffer p ps) : ¬ KeepsPoints p ps := by
  intro h
  obtain ⟨result, hresult, -⟩ := h .ngsiLd []
  rw [fill_polygonText, convertPolygon_full p ps hfull] at hresult
  cases hresult

/-- The points of a polygon are kept exactly when their text fits in the buffer. -/
theorem polygon_kept_iff : KeepsPoints p ps ↔ FitsBuffer p ps := by
  constructor
  · intro h
    by_contra hfull
    exact not_kept p ps hfull h
  · intro hfits stateVersion georelString
    rw [fill_polygonText]
    rcases convertPolygon_room p ps hfits with hconvert | ⟨e, hconvert⟩
    · rw [hconvert]
      exact ⟨_, rfl, fun scope hscope => fillArea_points p ps hscope⟩
    · rw [hconvert]
      exact ⟨_, rfl, fun scope hscope => nomatch hscope⟩

def smallPoint : DecimalPoint where
  x := ['1']
  y := ['2']
  longitude := (⟨['1'], false, [], none⟩ : Magnitude).value false
  latitude := (⟨['2'], false, [], none⟩ : Magnitude).value false
  x_decimal := ⟨[], ⟨['1'], false, [], none⟩, .inl rfl, ⟨List.forall_mem_singleton.mpr rfl,
    List.forall_mem_nil _, fun _ => rfl, fun _ h => nomatch h⟩, by decide, rfl, rfl⟩
  y_decimal := ⟨[], ⟨['2'], false, [], none⟩, .inl rfl, ⟨List.forall_mem_singleton.mpr rfl,
    List.forall_mem_nil _, fun _ => rfl, fun _ h => nomatch h⟩, by decide, rfl, rfl⟩
  blank := false
  gap := false

theorem converted_length (q : DecimalPoint) (n : ℕ) :
    (converted p (List.replicate n q)).length = p.text.length + n * (q.text.length + 1) := by
  simp [converted, Delimited.join]

theorem many_points_overflow : ¬ ∀ p ps, KeepsPoints p ps := by
  intro h
  have hlength := converted_length smallPoint smallPoint 128
  have hplain : ∀ c ∈ converted smallPoint (List.replicate 128 smallPoint), isPlain c = true := by
    have htext : ∀ c ∈ smallPoint.text, isPlain c = true := all_iff_forall_prop.mp rfl
    intro c hc
    by_cases hdelimiter : c = ';'
    · rw [hdelimiter]
      decide
    obtain ⟨t, ht, hct⟩ := (Delimited.mem_join hdelimiter).mp hc
    rw [map_replicate] at ht
    rcases mem_cons.mp ht with rfl | ht
    · exact htext c hct
    · rw [(mem_replicate.mp ht).2] at hct
      exact htext c hct
  refine not_kept _ _ ?_ (h smallPoint (List.replicate 128 smallPoint))
  rintro ⟨hroom, -⟩
  rw [takeWhile_eq_self_iff.mpr hplain, hlength] at hroom
  exact absurd hroom (by decide)

end ScopeFill
