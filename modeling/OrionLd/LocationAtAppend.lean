import OrionLd.LocationUpdates

/-! The location when an attribute that exists is appended. It is treated as in an update, but in
an entity without location, where the attribute cannot become the location. -/
namespace LocationAtAppend

open KjTree MongoLocation Fallible
open LocationUpdates (geoType_of_location)

variable {env : Numbers} {v : ApiVersion} {loc : Text × GeoJson} {ca : ContextAttribute}

def TreatsAlike (env : Numbers) (v : ApiVersion) (loc : Text × GeoJson) (ca : ContextAttribute) :
    Prop :=
  (processLocationAtAppendAttribute env v loc ca false).toOption =
    (processLocationAtUpdateAttribute env v loc ca).toOption

/-- Its value would be the first location of the entity. Without a name it could only be it with the
fields of its GeoJSON twice. -/
def BecomesLocation (env : Numbers) (v : ApiVersion) (loc : Text × GeoJson)
    (ca : ContextAttribute) : Prop :=
  loc.1 = [] ∧ getLocation v ca ≠ [] ∧
    ∃ g, getGeoJson env v ca = .ok g ∧ (ca.name = [] → g ≠ [])

theorem located_wgs84 (hv : v ≠ .v1) (h : getLocation v ca ≠ []) :
    isWgs84 (getLocation v ca) = true := by
  have hgeo := geoType_of_location hv h
  have hwgs84 : getLocation v ca = wgs84 := by
    cases v with
    | v1 => exact absurd rfl hv
    | v2 => exact if_pos hgeo
    | ngsiLd => exact if_pos hgeo
  rw [hwgs84]
  rfl

theorem unlocated_alike (hv : v ≠ .v1) (h : getLocation v ca = []) : TreatsAlike env v loc ca := by
  unfold TreatsAlike processLocationAtAppendAttribute processLocationAtUpdateAttribute
  simp [h, hv]

theorem another_alike (hv : v ≠ .v1) (hloc : loc.1 ≠ []) : TreatsAlike env v loc ca := by
  by_cases hlocated : getLocation v ca = []
  · exact unlocated_alike hv hlocated
  unfold TreatsAlike processLocationAtAppendAttribute processLocationAtUpdateAttribute
  by_cases hname : loc.1 = ca.name
  · simp [hlocated, located_wgs84 hv hlocated, hname, hname ▸ hloc]
  · simp [hlocated, located_wgs84 hv hlocated, hname, hloc]

section

variable (hv : v ≠ .v1) (hloc : loc.1 = []) (hlocated : getLocation v ca ≠ [])
include hv hloc hlocated

theorem update_first : (processLocationAtUpdateAttribute env v loc ca).toOption =
    (getGeoJson env v ca).toOption.map fun g => (ca.name, loc.2 ++ g) := by
  unfold processLocationAtUpdateAttribute geoJsonOr
  simp only [located_wgs84 hv hlocated, hlocated, hloc, ne_eq, not_false_eq_true, true_and,
    Bool.not_true, Bool.false_eq_true, if_false, if_true]
  cases getGeoJson env v ca <;> rfl

theorem append_first : (processLocationAtAppendAttribute env v loc ca false).toOption =
    if ca.name = [] then (getGeoJson env v ca).toOption.map fun g => (ca.name, loc.2 ++ g ++ g)
    else none := by
  unfold processLocationAtAppendAttribute geoJsonOr
  by_cases hname : ca.name = []
  · simp only [located_wgs84 hv hlocated, hlocated, hloc, hname, ne_eq, not_false_eq_true,
      true_and, not_true_eq_false, Bool.not_true, Bool.not_false, Bool.false_eq_true, if_false,
      if_true, false_and]
    cases getGeoJson env v ca <;> rfl
  · simp only [located_wgs84 hv hlocated, hlocated, hloc, hname, ne_eq, not_false_eq_true,
      true_and, Bool.not_true, Bool.not_false, Bool.false_eq_true, if_false, if_true, false_and,
      Ne.symm hname]
    rfl

/-- Without one, the attribute becomes the location in the update only, or there only once. -/
theorem first_alike_iff : TreatsAlike env v loc ca ↔
    ∀ g, getGeoJson env v ca = .ok g → ca.name = [] ∧ g = [] := by
  unfold TreatsAlike
  rw [append_first hv hloc hlocated, update_first hv hloc hlocated]
  cases getGeoJson env v ca with
  | error subErr =>
    refine iff_of_true ?_ nofun
    split <;> rfl
  | ok g =>
    split
    · rename_i hname
      simp [Except.toOption, hname]
    · rename_i hname
      simp [Except.toOption, hname]

end

/-- An attribute that exists is treated alike if and only if it would not become the location of
an entity without one. -/
theorem append_as_update_iff (env : Numbers) (loc : Text × GeoJson) (ca : ContextAttribute)
    (hv : v ≠ .v1) : TreatsAlike env v loc ca ↔ ¬ BecomesLocation env v loc ca := by
  unfold BecomesLocation
  by_cases hloc : loc.1 = []
  · by_cases hlocated : getLocation v ca = []
    · exact iff_of_true (unlocated_alike hv hlocated) fun h => h.2.1 hlocated
    · rw [first_alike_iff hv hloc hlocated]
      simp [hloc, hlocated]
  · exact iff_of_true (another_alike hv hloc) fun h => hloc h.1

def noNumbers : Numbers := ⟨fun _ => some 1, fun _ => none, false⟩

def placed : ContextAttribute :=
  ⟨"loc".toList, "geo:point".toList, true, .string, "1,1".toList, 0, false, none, []⟩

theorem placed_as_update : TreatsAlike noNumbers .v2 ("loc".toList, []) placed :=
  (append_as_update_iff noNumbers ("loc".toList, []) placed (by decide)).mpr
    fun h => absurd h.1 (by decide)

theorem first_location_refused : ¬ ∀ env v loc ca, v ≠ .v1 → TreatsAlike env v loc ca := by
  intro h
  have halike := h noNumbers .v2 ([], []) placed (by decide)
  unfold TreatsAlike at halike
  exact absurd (congrArg Option.isSome halike) (by decide +kernel)

end LocationAtAppend
