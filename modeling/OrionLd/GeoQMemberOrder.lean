import OrionLd.PcheckGeoQ

/-! The check of a geoQ against the order of its members. Each member but geoproperty is checked
on its own, and fills a field that no other member fills. geoproperty is checked by the type of
georel, of which there is none yet when geoproperty comes first. -/
namespace GeoQMemberOrder

open KjTree KjTreeToContextAttribute PcheckGeoQ Fallible

/-- What the caller of pcheckGeoQ sees of it. -/
inductive Answer where
  | accepted (g : GeoQ)
  | refused
  | fault

def answerOf : Except CheckError GeoQ → Answer
  | .ok g => .accepted g
  | .error (.response _ _ _) => .refused
  | .error .fault => .fault

def answer (members : Members) : Answer := answerOf (geoQChecks members)

structure OrderIndependent (members : Members) : Prop where
  same : ∀ members', members'.Perm members → answer members' = answer members
  noNull : ∀ members', members'.Perm members → answer members' ≠ .fault
  typed : ∀ members', members'.Perm members → ∀ g, answer members' = .accepted g →
    ∀ node, ("geoproperty".toList, node) ∈ members' → ∃ s, node = .string s

/-- A member that is accepted, by the field that it fills. -/
inductive Filled where
  | geometry (s : Text)
  | coordinates (items : List KjNode)
  | georel (s : Text)

def filledBy (m : Text × KjNode) : Option Filled :=
  if m.1 = "geometry".toList then
    match m.2 with
    | .string s => some (.geometry s)
    | _ => none
  else if m.1 = "coordinates".toList then
    match m.2 with
    | .array items => some (.coordinates items)
    | _ => none
  else if m.1 = "georel".toList then
    match m.2 with
    | .string s => some (.georel s)
    | _ => none
  else none

def fill (f : GeoQFields) : Filled → Option GeoQFields
  | .geometry s => if f.geometry.isSome then none else some { f with geometry := some s }
  | .coordinates items =>
    if f.coordinates.isSome then none else some { f with coordinates := some (.array items) }
  | .georel s => if f.georel.isSome then none else some { f with georel := some s }

theorem fill_comm (f : GeoQFields) (x y : Filled) :
    (fill f x).bind (fill · y) = (fill f y).bind (fill · x) := by
  obtain ⟨geometry, coordinates, georel, geoproperty⟩ := f
  cases x <;> cases y <;> cases geometry <;> cases coordinates <;> cases georel <;> rfl

def step (f : GeoQFields) (m : Text × KjNode) : Option GeoQFields := (filledBy m).bind (fill f)

theorem step_comm (f : GeoQFields) (m n : Text × KjNode) :
    (step f m).bind (step · n) = (step f n).bind (step · m) := by
  unfold step
  cases filledBy m with
  | none => cases (filledBy n).bind (fill f) <;> rfl
  | some x =>
    cases filledBy n with
    | none => cases (some x).bind (fill f) <;> rfl
    | some y => exact fill_comm f x y

variable {f : GeoQFields} {α : Type}

theorem geoQMember_cases {m : Text × KjNode} (h : m.1 ≠ "geoproperty".toList) :
    (∃ f', geoQMember f m = .ok f' ∧ step f m = some f') ∨
      ∃ status title details, geoQMember f m = .error (.response status title details) ∧
        step f m = none := by
  obtain ⟨name, node⟩ := m
  obtain ⟨geometry, coordinates, georel, geoproperty⟩ := f
  unfold geoQMember step filledBy
  split
  · cases geometry <;> cases node <;> first
      | exact .inl ⟨_, rfl, rfl⟩
      | exact .inr ⟨_, _, _, rfl, rfl⟩
  split
  · cases coordinates <;> cases node <;> first
      | exact .inl ⟨_, rfl, rfl⟩
      | exact .inr ⟨_, _, _, rfl, rfl⟩
  split
  · cases georel <;> cases node <;> first
      | exact .inl ⟨_, rfl, rfl⟩
      | exact .inr ⟨_, _, _, rfl, rfl⟩
  · exact .inr ⟨_, _, _, rfl, rfl⟩

variable {members members' : Members}

theorem foldlM_cases (h : "geoproperty".toList ∉ members.map Prod.fst) (f : GeoQFields) :
    (∃ f', members.foldlM geoQMember f = .ok f' ∧ members.foldlM step f = some f') ∨
      ∃ status title details,
        members.foldlM geoQMember f = .error (.response status title details) ∧
          members.foldlM step f = none := by
  induction members generalizing f with
  | nil => exact .inl ⟨f, rfl, rfl⟩
  | cons m members ih =>
    rw [List.map_cons, List.mem_cons, not_or] at h
    obtain ⟨hm, hmembers⟩ := h
    rw [List.foldlM_cons, List.foldlM_cons]
    rcases geoQMember_cases (f := f) (Ne.symm hm) with ⟨f', hok, hstep⟩ | ⟨_, _, _, herror, hstep⟩
    · rw [hok, hstep]
      exact ih hmembers f'
    · rw [herror, hstep]
      exact .inr ⟨_, _, _, rfl, rfl⟩

theorem error_not_fault {x : Except Problem α} {e : Problem → CheckError} (he : ∀ p, e p ≠ .fault) :
    x.mapError e ≠ .error .fault := by
  cases x with
  | ok a => exact nofun
  | error p => exact fun h => he p (Except.error.inj h)

theorem bind_not_fault {β : Type} {x : Except CheckError α} {f : α → Except CheckError β}
    (hx : x ≠ .error .fault) (hf : ∀ a, x = .ok a → f a ≠ .error .fault) :
    (x >>= f) ≠ .error .fault := by
  cases x with
  | ok a => exact hf a rfl
  | error e =>
    intro h
    cases h
    exact hx rfl

theorem mandatory_not_fault (field : String) (slot : Option α) :
    mandatory field slot ≠ .error .fault := by
  cases slot <;> exact nofun

theorem geometryType_not_fault (geometry : Text) : geometryType geometry ≠ .error .fault := by
  unfold geometryType
  split
  · exact nofun
  · split <;> exact nofun

theorem checksAfter_not_fault (h : f.geoproperty = none) : checksAfter f ≠ .error .fault := by
  refine bind_not_fault (mandatory_not_fault _ _) fun _ _ => ?_
  refine bind_not_fault (mandatory_not_fault _ _) fun _ _ => ?_
  refine bind_not_fault (mandatory_not_fault _ _) fun _ _ => ?_
  refine bind_not_fault (geometryType_not_fault _) fun _ _ => ?_
  refine bind_not_fault (error_not_fault fun _ => nofun) fun _ _ => ?_
  refine bind_not_fault (error_not_fault fun _ => nofun) fun _ _ => ?_
  rw [h]
  exact nofun

theorem step_geoproperty {f' : GeoQFields} {m : Text × KjNode} (h : step f m = some f') :
    f'.geoproperty = f.geoproperty := by
  obtain ⟨x, -, hfill⟩ := Option.bind_eq_some_iff.mp h
  cases x <;>
  · rw [fill] at hfill
    split at hfill
    · cases hfill
    · rw [← Option.some.inj hfill]

theorem foldlM_geoproperty {f' : GeoQFields} (h : members.foldlM step f = some f') :
    f'.geoproperty = f.geoproperty := by
  induction members generalizing f with
  | nil => rw [← Option.some.inj h]
  | cons m members ih =>
    obtain ⟨f₁, hf₁, h⟩ := Option.bind_eq_some_iff.mp h
    exact (ih h).trans (step_geoproperty hf₁)

theorem answer_eq (h : "geoproperty".toList ∉ members.map Prod.fst) :
    answer members = match members.foldlM step ⟨none, none, none, none⟩ with
      | some f => answerOf (checksAfter f)
      | none => .refused := by
  unfold answer
  unfold geoQChecks
  rcases foldlM_cases h ⟨none, none, none, none⟩ with ⟨f, hok, hstep⟩ | ⟨_, _, _, herror, hstep⟩
  · rw [hok, hstep]
    rfl
  · rw [herror, hstep]
    rfl

theorem answer_perm (h : members'.Perm members)
    (hnone : "geoproperty".toList ∉ members.map Prod.fst) : answer members' = answer members := by
  have hnone' : "geoproperty".toList ∉ members'.map Prod.fst := by
    rwa [(h.map Prod.fst).mem_iff]
  rw [answer_eq hnone, answer_eq hnone', foldlM_perm h step_comm]

theorem answer_not_fault (h : "geoproperty".toList ∉ members.map Prod.fst) :
    answer members ≠ .fault := by
  rw [answer_eq h]
  cases hfold : members.foldlM step ⟨none, none, none, none⟩ with
  | none => exact nofun
  | some f =>
    have hchecks := checksAfter_not_fault (foldlM_geoproperty hfold)
    dsimp only
    cases hresult : checksAfter f with
    | ok g => exact nofun
    | error e =>
      cases e with
      | response status title details => exact nofun
      | fault => exact absurd hresult hchecks

/-- The order of the members makes no difference without geoproperty, and only then. -/
theorem order_independent_iff (members : Members) :
    OrderIndependent members ↔ "geoproperty".toList ∉ members.map Prod.fst := by
  constructor
  · intro h hmem
    obtain ⟨⟨name, node⟩, hm, rfl⟩ := List.mem_map.mp hmem
    obtain ⟨before, after, rfl⟩ := List.append_of_mem hm
    have hperm : (("geoproperty".toList, node) :: (before ++ after)).Perm
        (before ++ ("geoproperty".toList, node) :: after) := List.perm_middle.symm
    exact h.noNull _ hperm rfl
  · intro h
    have hnone {members' : Members} (hperm : members'.Perm members) :
        "geoproperty".toList ∉ members'.map Prod.fst := by
      rwa [(hperm.map Prod.fst).mem_iff]
    refine ⟨fun members' hperm => answer_perm hperm h, ?_, ?_⟩
    · intro members' hperm
      exact answer_not_fault (hnone hperm)
    · intro members' hperm g _ node hmem
      exact absurd (List.mem_map_of_mem hmem) (hnone hperm)

def roadQuery : Members :=
  [("geoproperty".toList, .string "location".toList),
    ("geometry".toList, .string "Point".toList),
    ("coordinates".toList, .array [.int 1, .int 2]),
    ("georel".toList, .string "near;maxDistance==100".toList)]

/-- With its members in another order the query is accepted. -/
theorem roadQuery_faults : ¬ OrderIndependent roadQuery := by
  intro h
  exact h.noNull roadQuery (List.Perm.refl _) rfl

end GeoQMemberOrder
