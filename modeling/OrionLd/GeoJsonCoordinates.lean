import OrionLd.KjTreeToContextAttribute

/-! Which coordinates are accepted and which are valid. Both ask for the same arrays, and differ
in the first and the last position of a ring: they are read as doubles, and an integer is the
pattern of another double than its own value. -/
namespace GeoJsonCoordinates

open KjTree KjTreeToContextAttribute Binary64 Fallible List

def itemsOf : KjNode → List KjNode
  | .array items => items
  | _ => []

def ArrayOf (P : KjNode → Prop) (atLeast : ℕ) (node : KjNode) : Prop :=
  ∃ items, node = .array items ∧ atLeast ≤ items.length ∧ ∀ item ∈ items, P item

def IsPosition (node : KjNode) : Prop :=
  ∃ xs, node = .array xs ∧ (xs.length = 2 ∨ xs.length = 3) ∧ ∀ x ∈ xs, isNumber x = true

def numberOf : KjNode → Option ℚ
  | .int i => some i
  | .float f => some f
  | _ => none

def firstPosition (ring : KjNode) : List KjNode := ((itemsOf ring).head?.map itemsOf).getD []

def lastPosition (ring : KjNode) : List KjNode := ((itemsOf ring).getLast?.map itemsOf).getD []

def Closed (ring : KjNode) : Prop :=
  List.Forall₂ (fun x y => numberOf x = numberOf y) (firstPosition ring) (lastPosition ring)

def RingShaped : KjNode → Prop := ArrayOf IsPosition 4

/-- The coordinates of each type, over what is asked of a ring. -/
def Coordinates (R : KjNode → Prop) : GeoJsonType → KjNode → Prop
  | .point => IsPosition
  | .multiPoint => ArrayOf IsPosition 0
  | .lineString => ArrayOf IsPosition 2
  | .multiLineString => ArrayOf (ArrayOf IsPosition 2) 0
  | .polygon => ArrayOf R 0
  | .multiPolygon => ArrayOf (ArrayOf R 0) 0

def ValidCoordinates : GeoJsonType → KjNode → Prop :=
  Coordinates fun ring => RingShaped ring ∧ Closed ring

def ringsOf : GeoJsonType → KjNode → List KjNode
  | .polygon, node => itemsOf node
  | .multiPolygon, node => (itemsOf node).flatMap itemsOf
  | _, _ => []

variable {P Q : KjNode → Prop} {node : KjNode}

theorem arrayOf_and {n : ℕ} : ArrayOf (fun item => P item ∧ Q item) n node ↔
      ArrayOf P n node ∧ ∀ item ∈ itemsOf node, Q item := by
  constructor
  · rintro ⟨items, rfl, hlength, hall⟩
    exact ⟨⟨items, rfl, hlength, fun item hitem => (hall item hitem).1⟩,
      fun item hitem => (hall item hitem).2⟩
  · rintro ⟨⟨items, rfl, hlength, hP⟩, hQ⟩
    exact ⟨items, rfl, hlength, fun item hitem => ⟨hP item hitem, hQ item hitem⟩⟩

theorem arrayOf_congr {n : ℕ} (h : ∀ x, P x ↔ Q x) : ArrayOf P n node ↔ ArrayOf Q n node := by
  simp only [ArrayOf, h]

variable {t : GeoJsonType}

theorem coordinates_congr (h : ∀ x, P x ↔ Q x) : Coordinates P t node ↔ Coordinates Q t node := by
  cases t with
  | point => exact Iff.rfl
  | multiPoint => exact Iff.rfl
  | lineString => exact Iff.rfl
  | multiLineString => exact Iff.rfl
  | polygon => exact arrayOf_congr h
  | multiPolygon => exact arrayOf_congr fun _ => arrayOf_congr h

/-- What is asked of the rings on top of their shape. -/
theorem coordinates_and : Coordinates (fun ring => P ring ∧ Q ring) t node ↔
      Coordinates P t node ∧ ∀ ring ∈ ringsOf t node, Q ring := by
  cases t with
  | point | multiPoint | lineString | multiLineString => simp [Coordinates, ringsOf]
  | polygon => exact arrayOf_and
  | multiPolygon =>
    change ArrayOf (ArrayOf (fun ring => P ring ∧ Q ring) 0) 0 node ↔
      ArrayOf (ArrayOf P 0) 0 node ∧ ∀ ring ∈ (itemsOf node).flatMap itemsOf, Q ring
    rw [arrayOf_congr fun _ => arrayOf_and, arrayOf_and]
    refine and_congr_right fun _ => ?_
    constructor
    · intro h ring hring
      obtain ⟨polygon, hpolygon, hring⟩ := mem_flatMap.mp hring
      exact h polygon hpolygon ring hring
    · intro h polygon hpolygon ring hring
      exact h ring (mem_flatMap.mpr ⟨polygon, hpolygon, hring⟩)

/-- The two positions are equal as the doubles that they are read as. -/
def TakenForClosed (ring : KjNode) : Prop :=
  List.Forall₂ (fun x y => (unionDouble x).equal (unionDouble y) = true) (firstPosition ring)
    (lastPosition ring)

theorem badGeometry_ne (detail : String) : badGeometry detail ≠ .ok () := nofun

theorem point_ok : pcheckGeoPoint node = .ok () ↔ IsPosition node := by
  cases node with
  | array members =>
    rw [pcheckGeoPoint]
    split
    · next hany =>
      refine iff_of_false (badGeometry_ne _) ?_
      rintro ⟨xs, hxs, -, hall⟩
      obtain rfl := KjNode.array.inj hxs
      obtain ⟨x, hx, hnot⟩ := any_eq_true.mp hany
      rw [hall x hx] at hnot
      cases hnot
    · next hany =>
      have hall : ∀ x ∈ members, isNumber x = true := by
        intro x hx
        by_contra hnot
        exact hany (any_eq_true.mpr ⟨x, hx, by simp [Bool.eq_false_of_not_eq_true hnot]⟩)
      split
      · refine iff_of_false (badGeometry_ne _) ?_
        rintro ⟨xs, hxs, htwo, -⟩
        obtain rfl := KjNode.array.inj hxs
        omega
      · exact iff_of_true rfl ⟨members, rfl, by omega, hall⟩
  | _ => exact iff_of_false (badGeometry_ne _) nofun

variable {check : KjNode → Except Problem Unit}

theorem members_ok {notArray : String} {members : List KjNode} :
    pcheckMembers notArray check members = .ok () ↔
      ∀ m ∈ members, (∃ items, m = .array items) ∧ check m = .ok () := by
  induction members with
  | nil => exact iff_of_true rfl nofun
  | cons m members ih =>
    rw [forall_mem_cons]
    cases m with
    | array items =>
      rw [pcheckMembers]
      constructor
      · intro h
        obtain ⟨_, hfirst, hrest⟩ := bind_ok h
        exact ⟨⟨⟨items, rfl⟩, hfirst⟩, ih.mp hrest⟩
      · rintro ⟨⟨-, hfirst⟩, hrest⟩
        rw [hfirst, ok_bind, ih.mpr hrest]
    | _ => exact iff_of_false (badGeometry_ne _) nofun

theorem arrayOf_ok {notArray : String}
    (h : ∀ m, (∃ items, m = .array items) ∧ check m = .ok () ↔ P m) :
    pcheckArrayOf notArray check node = .ok () ↔ ArrayOf P 0 node := by
  cases node with
  | array members =>
    rw [pcheckArrayOf, members_ok]
    simp only [h]
    constructor
    · intro hall
      exact ⟨members, rfl, Nat.zero_le _, hall⟩
    · rintro ⟨items, hitems, -, hall⟩
      obtain rfl := KjNode.array.inj hitems
      exact hall
  | _ => exact iff_of_false (badGeometry_ne _) nofun

theorem position_member : (∃ items, node = .array items) ∧ pcheckGeoPoint node = .ok () ↔
    IsPosition node := by
  rw [point_ok, and_iff_right_iff_imp]
  rintro ⟨xs, rfl, -⟩
  exact ⟨xs, rfl⟩

theorem lineString_ok : pcheckGeoLineString node = .ok () ↔ ArrayOf IsPosition 2 node := by
  have hloop : pcheckArrayOf lineStringText pcheckGeoPoint node = .ok () ↔
      ArrayOf IsPosition 0 node := arrayOf_ok fun _ => position_member
  unfold pcheckGeoLineString
  constructor
  · intro h
    obtain ⟨_, hpoints, h⟩ := bind_ok h
    obtain ⟨items, rfl, -, hall⟩ := hloop.mp hpoints
    refine ⟨items, rfl, ?_, hall⟩
    by_contra hshort
    dsimp only at h
    rw [if_pos (by omega)] at h
    exact badGeometry_ne _ h
  · rintro ⟨items, rfl, htwo, hall⟩
    rw [hloop.mpr ⟨items, rfl, Nat.zero_le _, hall⟩, ok_bind]
    exact if_neg (by omega)

theorem lineString_member : (∃ items, node = .array items) ∧ pcheckGeoLineString node = .ok () ↔
    ArrayOf IsPosition 2 node := by
  rw [lineString_ok, and_iff_right_iff_imp]
  rintro ⟨items, rfl, -⟩
  exact ⟨items, rfl⟩

theorem samePosition_iff {xs ys : List KjNode} :
    samePosition (xs.map unionDouble) (ys.map unionDouble) = true ↔
      List.Forall₂ (fun x y => (unionDouble x).equal (unionDouble y) = true) xs ys := by
  induction xs generalizing ys with
  | nil => cases ys <;> simp [samePosition]
  | cons x xs ih => cases ys <;> simp [samePosition, ih]

theorem position_getD (points : Option KjNode) :
    (points.map positionOf).getD [] = ((points.map itemsOf).getD []).map unionDouble := by
  cases points with
  | none => rfl
  | some point => exact (by cases point <;> rfl)

theorem ring_member : (∃ items, node = .array items) ∧ pcheckRing node = .ok () ↔
    RingShaped node ∧ TakenForClosed node := by
  have hpoint (m : KjNode) : (∃ items, m = .array items) ∧
      ((pcheckGeoPoint m).mapError fun _ => ("Invalid GeoJSON", ringText.toList)) = .ok () ↔
        IsPosition m := by
    rw [← position_member]
    refine and_congr_right fun _ => ?_
    cases pcheckGeoPoint m with
    | ok u => exact Iff.rfl
    | error e => exact iff_of_false nofun nofun
  constructor
  · rintro ⟨⟨points, rfl⟩, h⟩
    obtain ⟨_, hpoints, h⟩ := bind_ok h
    have hall := members_ok.mp hpoints
    simp only [hpoint] at hall
    split at h
    · exact absurd h (badGeometry_ne _)
    rename_i hfour
    dsimp only at h
    split at h
    · rename_i hsame
      rw [position_getD, position_getD, samePosition_iff] at hsame
      exact ⟨⟨points, rfl, by omega, hall⟩, hsame⟩
    · exact absurd h (badGeometry_ne _)
  · rintro ⟨⟨points, rfl, hfour, hall⟩, hsame⟩
    refine ⟨⟨points, rfl⟩, ?_⟩
    have hpoints : pcheckMembers ringText (fun p => (pcheckGeoPoint p).mapError fun _ =>
        ("Invalid GeoJSON", ringText.toList)) points = .ok () :=
      members_ok.mpr fun m hm => (hpoint m).mpr (hall m hm)
    rw [pcheckRing, hpoints, ok_bind, if_neg (by omega)]
    rw [position_getD, position_getD]
    exact if_pos (samePosition_iff.mpr hsame)

theorem accepted_iff : pcheckGeoqCoordinates node t = .ok () ↔
    Coordinates RingShaped t node ∧ ∀ ring ∈ ringsOf t node, TakenForClosed ring := by
  rw [← coordinates_and]
  cases t with
  | point => exact point_ok
  | multiPoint => exact arrayOf_ok fun _ => position_member
  | lineString => exact lineString_ok
  | multiLineString => exact arrayOf_ok fun _ => lineString_member
  | polygon => exact arrayOf_ok fun _ => ring_member
  | multiPolygon =>
    refine arrayOf_ok fun polygon => ?_
    have hrings : pcheckGeoPolygon polygon = .ok () ↔
        ArrayOf (fun ring => RingShaped ring ∧ TakenForClosed ring) 0 polygon :=
      arrayOf_ok fun _ => ring_member
    rw [hrings, and_iff_right_iff_imp]
    rintro ⟨items, rfl, -⟩
    exact ⟨items, rfl⟩

theorem valid_iff : ValidCoordinates t node ↔
    Coordinates RingShaped t node ∧ ∀ ring ∈ ringsOf t node, Closed ring :=
  coordinates_and

def asDouble (i : ℤ) : Double := ofBits (BitVec.ofInt 64 i)

/-- Numbers that are equal and are not read as equal doubles, or the other way round. -/
def Misread : KjNode → KjNode → Prop
  | .int i, .int j =>
    if i = j then asDouble i = .nan else asDouble i ≠ .nan ∧ asDouble i = asDouble j
  | .int i, .float f => if f = i then asDouble i ≠ .finite f else asDouble i = .finite f
  | .float f, .int i => if f = i then asDouble i ≠ .finite f else asDouble i = .finite f
  | _, _ => False

theorem equal_finite (d : Double) (f : ℚ) : d.equal (.finite f) = true ↔ d = .finite f := by
  rw [Double.equal_iff, and_iff_right_iff_imp]
  rintro rfl
  exact nofun

theorem finite_equal (d : Double) (f : ℚ) : (Double.finite f).equal d = true ↔ d = .finite f := by
  rw [Double.equal_iff, and_iff_right nofun, eq_comm]

theorem equal_iff_misread {x y : KjNode} (hx : isNumber x = true) (hy : isNumber y = true) :
    (unionDouble x).equal (unionDouble y) = true ↔ (numberOf x = numberOf y ↔ ¬ Misread x y) := by
  cases x with
  | int i =>
    cases y with
    | int j =>
      by_cases hij : i = j
      · subst hij
        simp [unionDouble, numberOf, Misread, Double.equal_iff, asDouble]
      · simp [unionDouble, numberOf, Misread, Double.equal_iff, asDouble, hij]
    | float f =>
      by_cases hf : f = i
      · subst hf
        simp [unionDouble, numberOf, Misread, equal_finite, asDouble]
      · simp [unionDouble, numberOf, Misread, equal_finite, asDouble, hf, Ne.symm hf]
    | _ => cases hy
  | float f =>
    cases y with
    | int i =>
      by_cases hf : f = i
      · simp [unionDouble, numberOf, Misread, finite_equal, asDouble, hf]
      · simp [unionDouble, numberOf, Misread, finite_equal, asDouble, hf]
    | float g => simp [unionDouble, numberOf, Misread, Double.equal_iff]
    | _ => cases hy
  | _ => cases hx

def RefusedWrongly (ring : KjNode) : Prop :=
  Closed ring ∧ ∃ pair ∈ (firstPosition ring).zip (lastPosition ring), Misread pair.1 pair.2

def AcceptedWrongly (ring : KjNode) : Prop :=
  ¬ Closed ring ∧ List.Forall₂ (fun x y => numberOf x = numberOf y ↔ ¬ Misread x y)
    (firstPosition ring) (lastPosition ring)

variable {ring : KjNode}

theorem numbers_of_shaped (h : RingShaped ring) :
    (∀ x ∈ firstPosition ring, isNumber x = true) ∧ ∀ x ∈ lastPosition ring, isNumber x = true := by
  obtain ⟨points, rfl, -, hall⟩ := h
  have hposition {point : Option KjNode} (hpoint : ∀ p ∈ point, p ∈ points) :
      ∀ x ∈ (point.map itemsOf).getD [], isNumber x = true := by
    cases point with
    | none => exact nofun
    | some p =>
      obtain ⟨xs, rfl, -, hnumbers⟩ := hall p (hpoint p rfl)
      exact hnumbers
  exact ⟨hposition fun _ => mem_of_mem_head?, hposition fun _ => mem_of_mem_getLast?⟩

theorem taken_iff (h : RingShaped ring) :
    TakenForClosed ring ↔ Closed ring ∧ ¬ RefusedWrongly ring ∨ AcceptedWrongly ring := by
  obtain ⟨hfirst, hlast⟩ := numbers_of_shaped h
  have htaken : TakenForClosed ring ↔
      List.Forall₂ (fun x y => numberOf x = numberOf y ↔ ¬ Misread x y) (firstPosition ring)
        (lastPosition ring) := by
    unfold TakenForClosed
    rw [forall₂_iff_zip, forall₂_iff_zip]
    refine and_congr_right fun _ => forall₂_congr fun x y => forall_congr' fun hxy => ?_
    obtain ⟨hx, hy⟩ := of_mem_zip hxy
    exact equal_iff_misread (hfirst x hx) (hlast y hy)
  rw [htaken]
  by_cases hclosed : Closed ring
  · have hnot : ¬ AcceptedWrongly ring := fun h => h.1 hclosed
    rw [or_iff_left hnot, and_iff_right hclosed, RefusedWrongly, and_iff_right hclosed]
    unfold Closed at hclosed
    rw [forall₂_iff_zip] at hclosed ⊢
    constructor
    · rintro ⟨-, hall⟩ ⟨⟨x, y⟩, hxy, hmisread⟩
      exact (hall hxy).mp (hclosed.2 hxy) hmisread
    · intro hnone
      refine ⟨hclosed.1, fun {x y} hxy => iff_of_true (hclosed.2 hxy) fun hmisread => ?_⟩
      exact hnone ⟨(x, y), hxy, hmisread⟩
  · rw [or_iff_right fun h => hclosed h.1, AcceptedWrongly, and_iff_right hclosed]

theorem rings_shaped (h : Coordinates RingShaped t node) :
    ∀ ring ∈ ringsOf t node, RingShaped ring := by
  have hboth : Coordinates (fun ring => RingShaped ring ∧ RingShaped ring) t node :=
    (coordinates_congr fun _ => and_self_iff).mpr h
  exact (coordinates_and.mp hboth).2

/-- Other arrays than those of the type, a ring wrongly read as open, no ring judged wrongly, or
rings judged wrongly in both ways. -/
def Judged (t : GeoJsonType) (node : KjNode) : Prop :=
  ¬ Coordinates RingShaped t node ∨
    (∃ ring ∈ ringsOf t node, ¬ Closed ring ∧ ¬ AcceptedWrongly ring) ∨
    (∀ ring ∈ ringsOf t node, ¬ RefusedWrongly ring ∧ ¬ AcceptedWrongly ring) ∨
    (∃ ring ∈ ringsOf t node, RefusedWrongly ring) ∧
      ∃ ring ∈ ringsOf t node, AcceptedWrongly ring

theorem judged_iff (h : Coordinates RingShaped t node) :
    ((∀ ring ∈ ringsOf t node, TakenForClosed ring) ↔ ∀ ring ∈ ringsOf t node, Closed ring) ↔
      Judged t node := by
  have htaken : (∀ ring ∈ ringsOf t node, TakenForClosed ring) ↔ ∀ ring ∈ ringsOf t node,
      Closed ring ∧ ¬ RefusedWrongly ring ∨ AcceptedWrongly ring :=
    forall₂_congr fun ring hring => taken_iff (rings_shaped h ring hring)
  rw [htaken, Judged, or_iff_right (not_not_intro h)]
  constructor
  · intro hsame
    by_cases hall : ∀ ring ∈ ringsOf t node, Closed ring
    · refine .inr (.inl fun ring hring => ?_)
      rcases hsame.mpr hall ring hring with h | h
      · exact ⟨h.2, fun hwrong => hwrong.1 h.1⟩
      · exact absurd (hall ring hring) h.1
    · have hopen := hsame.not.mpr hall
      push Not at hall hopen
      obtain ⟨ring, hring, hnot⟩ := hall
      obtain ⟨ring', hring', hclosed, haccepted⟩ := hopen
      by_cases hwrong : AcceptedWrongly ring
      · by_cases hclosed' : Closed ring'
        · exact .inr (.inr ⟨⟨ring', hring', hclosed hclosed'⟩, ring, hring, hwrong⟩)
        · exact .inl ⟨ring', hring', hclosed', haccepted⟩
      · exact .inl ⟨ring, hring, hnot, hwrong⟩
  · rintro (⟨ring, hring, hopen, hrefused⟩ | hnone |
      ⟨⟨ring, hring, hrefused⟩, ring', hring', haccepted⟩)
    · refine iff_of_false (fun h => ?_) fun h => hopen (h ring hring)
      rcases h ring hring with h | h
      · exact hopen h.1
      · exact hrefused h
    · refine forall₂_congr fun ring hring => ?_
      rw [or_iff_left (hnone ring hring).2, and_iff_left (hnone ring hring).1]
    · refine iff_of_false (fun h => ?_) fun h => haccepted.1 (h ring' hring')
      rcases h ring hring with h | h
      · exact h.2 hrefused
      · exact h.1 hrefused.1

/-- The verdict on coordinates is right under the condition, and under no other. -/
theorem accepted_iff_valid_iff (t : GeoJsonType) (node : KjNode) :
    (pcheckGeoqCoordinates node t = .ok () ↔ ValidCoordinates t node) ↔ Judged t node := by
  rw [accepted_iff, valid_iff]
  by_cases hshaped : Coordinates RingShaped t node
  · rw [and_iff_right hshaped, and_iff_right hshaped]
    exact judged_iff hshaped
  · exact iff_of_true (iff_of_false (fun h => hshaped h.1) fun h => hshaped h.1) (.inl hshaped)

def point (x y : ℤ) : KjNode := .array [.int x, .int y]

def triangle : KjNode := .array [.array [point 0 (-1), point 4 0, point 4 4, point 0 (-1)]]

theorem negative_ring_refused :
    ¬ (pcheckGeoqCoordinates triangle .polygon = .ok () ↔ ValidCoordinates .polygon triangle) := by
  have hposition (x y : ℤ) : IsPosition (point x y) := ⟨_, rfl, .inl rfl, by simp [isNumber]⟩
  have hvalid : ValidCoordinates .polygon triangle := by
    refine ⟨_, rfl, Nat.zero_le _, ?_⟩
    rw [forall_mem_singleton]
    refine ⟨⟨_, rfl, le_rfl, ?_⟩, .cons rfl (.cons rfl .nil)⟩
    simp [hposition]
  intro h
  obtain ⟨-, hrings⟩ := accepted_iff.mp (h.mpr hvalid)
  cases hrings _ mem_cons_self with
  | cons _ hrest =>
    cases hrest with
    | cons hsame _ =>
      exact (Double.equal_iff.mp hsame).1 ((ofInt_eq_nan (by decide) (by decide)).mpr (by decide))

end GeoJsonCoordinates
