import OrionLd.LocationMirror

/-! The update of a request, followed attribute by attribute.
What the document will hold after it is known at every attribute, and with it which attribute
the location and the date come from. -/
namespace LocationUpdates

open MongoQuery (Bson)
open KjTree FieldList MongoLocation MongoCommonUpdate LocationMirror Fallible List

variable {μ : Type} {env : Env μ} {v : ApiVersion} {ca : ContextAttribute} {value : Bson}

def Carries (ca : ContextAttribute) (value : Bson) (a : StoredAttribute μ) : Prop :=
  a.value = some value ∧ (isGeoType ca.type = true → a.type.getD [] = ca.type)

theorem attrType_given (h : ca.typeGiven = true) : attrType v ca = ca.type := by
  rw [attrType, h]
  rfl

theorem created_carries (hv : ∀ t, valueBson env.toNumbers v t ca = some value)
    (ht : isGeoType ca.type = true → ca.typeGiven = true) :
    Carries ca value (createdAttribute env v ca) :=
  ⟨hv _, fun hgeo => attrType_given (ht hgeo)⟩

theorem geoType_ne_nil (h : isGeoType ca.type = true) : ca.type ≠ [] := by
  intro hnil
  rw [hnil] at h
  exact absurd h (by decide)

theorem autocastValue_untyped (s : Text) : autocastValue env.toNumbers [] s = .str s := rfl

theorem attrValue_kept {old : Option Bson} (hcompound : ca.compoundValueP = none)
    (hv : ∀ t, valueBson env.toNumbers v t ca = some value) (hne : value ≠ .str [])
    (h : attrValueChanged old ca = false) : old = some value := by
  have h0 := hv []
  rw [valueBson, hcompound] at h0
  unfold bsonAppendAttrValue at h0
  rw [autocastValue_untyped, ite_self] at h0
  cases old with
  | none =>
    simp only [attrValueChanged, Bool.or_eq_false_iff, bne_eq_false_iff_eq] at h
    rw [h.1, h.2] at h0
    exact absurd (Option.some.inj h0).symm hne
  | some b =>
    have hgiven : ca.valueType ≠ .notGiven := by
      intro hnone
      rw [hnone] at h0
      cases h0
    simp only [attrValueChanged, if_neg hgiven] at h
    cases b with
    | obj fields => cases h
    | arr items => cases h
    | num x | bool x | str s =>
      simp only [Bool.or_eq_false_iff, bne_eq_false_iff_eq] at h
      rw [h.1, h.2] at h0
      exact h0
    | null =>
      simp only [bne_eq_false_iff_eq] at h
      rw [h] at h0
      exact h0

theorem merged_carries {old : StoredAttribute μ}
    (hgiven : ca.compoundValueP.isSome = true → ca.valueType ≠ .notGiven)
    (hld : v = .ngsiLd → ca.compoundValueP = none)
    (hv : ∀ t, valueBson env.toNumbers v t ca = some value) (hne : value ≠ .str []) :
    Carries ca value ((mergeAttrInfo env v old ca).getD old) := by
  have hvalue : ca.valueType ≠ .notGiven := by
    intro hnone
    cases hcompound : ca.compoundValueP with
    | none =>
      have h0 := hv []
      rw [valueBson, hcompound] at h0
      simp only [bsonAppendAttrValue, hnone] at h0
      cases h0
    | some c => exact hgiven (by rw [hcompound]; rfl) hnone
  by_cases h : actuallyUpdates env v old ca = true
  · rw [mergeAttrInfo, if_pos h]
    refine ⟨?_, fun hgeo => ?_⟩
    · show (if ca.valueType = .notGiven then old.value else _) = _
      rw [if_neg hvalue]
      exact hv _
    · show (if ca.type = [] then old.type else some ca.type).getD [] = _
      rw [if_neg (geoType_ne_nil hgeo)]
      rfl
  · rw [mergeAttrInfo, if_neg h]
    have h := eq_false_of_ne_true h
    unfold actuallyUpdates at h
    cases hcompound : ca.compoundValueP with
    | none =>
      rw [hcompound] at h
      simp only [Bool.or_eq_false_iff] at h
      refine ⟨attrValue_kept hcompound hv hne h.2, fun hgeo => ?_⟩
      simpa [typeDiffers, geoType_ne_nil hgeo] using h.1.1.2
    | some c =>
      rw [hcompound] at h
      simp only [Bool.or_eq_false_iff, bne_eq_false_iff_eq] at h
      have hnone := hld h.1.2
      rw [hcompound] at hnone
      cases hnone

variable {d : EntityDoc μ} {u u' : Update μ} {k : Text}

def keys (u : Update μ) : List Text := u.toSet.map Prod.fst ++ u.toUnset

def after (d : EntityDoc μ) (u : Update μ) (k : Text) : Option (AttrsField μ) :=
  if k ∈ u.toUnset then none else ((attributeFields u.toSet).lookup k).or (d.attrs.lookup k)

theorem attributeFields_keys (toSet : List (Text × StoredAttribute μ)) :
    (attributeFields toSet).map Prod.fst = toSet.map Prod.fst := by
  rw [attributeFields, map_map]
  rfl

theorem attributeFields_append (l l' : List (Text × StoredAttribute μ)) :
    attributeFields (l ++ l') = attributeFields l ++ attributeFields l' := List.map_append

theorem lookup_attributeFields_none {toSet : List (Text × StoredAttribute μ)}
    (h : k ∉ toSet.map Prod.fst) : (attributeFields toSet).lookup k = none := by
  rw [lookup_eq_none_iff]
  intro f hf
  have hmem : f.1 ∈ toSet.map Prod.fst := by
    rw [← attributeFields_keys]
    exact mem_map_of_mem hf
  have hne : k ≠ f.1 := fun heq => h (heq ▸ hmem)
  simpa using hne

theorem lookup_updatedEntity (hn : (keys u).Nodup) :
    (updatedEntity d u).attrs.lookup k = after d u k := by
  unfold updatedEntity after
  by_cases hk : k ∈ u.toUnset
  · rw [if_pos hk]
    exact lookup_remove_of_mem hk
  rw [if_neg hk]
  refine (lookup_remove_of_notMem hk).trans (lookup_putAll ?_)
  rw [attributeFields_keys]
  exact (nodup_append.mp hn).1

theorem after_untouched (h : k ∉ keys u) : after d u k = d.attrs.lookup k := by
  rw [keys, mem_append, not_or] at h
  rw [after, if_neg h.2, lookup_attributeFields_none h.1]
  rfl

variable {name : Text} {a : StoredAttribute μ}

theorem after_set_of_ne (hset : u'.toSet = u.toSet ++ [(name, a)])
    (hunset : u'.toUnset = u.toUnset) (h : k ≠ name) : after d u' k = after d u k := by
  have hne : (k == name) = false := by simpa using h
  rw [after, after, hset, hunset, attributeFields_append, lookup_append]
  simp [attributeFields, lookup_cons, hne]

theorem after_set_self (hset : u'.toSet = u.toSet ++ [(name, a)])
    (hunset : u'.toUnset = u.toUnset) (h : name ∉ keys u) :
    after d u' name = some (.attribute a) := by
  rw [keys, mem_append, not_or] at h
  rw [after, hset, hunset, if_neg h.2, attributeFields_append, lookup_append,
    lookup_attributeFields_none h.1]
  simp [attributeFields]

theorem after_unset_of_ne (hset : u'.toSet = u.toSet) (hunset : u'.toUnset = u.toUnset ++ [name])
    (h : k ≠ name) : after d u' k = after d u k := by
  rw [after, after, hset, hunset]
  simp [h]

structure WritesOnly (d : EntityDoc μ) (ca : ContextAttribute) (u u' : Update μ) : Prop where
  others : ∀ k, k ≠ effectiveName ca → after d u' k = after d u k
  names : ∀ k ∈ keys u', k ∈ keys u ∨ k = effectiveName ca

structure SameDerived (u u' : Update μ) : Prop where
  loc : u'.loc = u.loc
  date : u'.dateExpiration = u.dateExpiration
  payload : u'.dateExpirationInPayload = u.dateExpirationInPayload

def Holds (env : Env μ) (v : ApiVersion) (d : EntityDoc μ) (ca : ContextAttribute)
    (u : Update μ) : Prop :=
  ∀ value, (∀ t, valueBson env.toNumbers v t ca = some value) → value ≠ .str [] →
    ∃ a, after d u (effectiveName ca) = some (.attribute a) ∧ Carries ca value a

theorem WritesOnly.refl : WritesOnly d ca u u :=
  ⟨fun _ _ => rfl, fun _ hk => .inl hk⟩

theorem writesOnly_set {toPush : List Text} {b : Bool} : WritesOnly d ca u { u with
      toSet := u.toSet ++ [(effectiveName ca, a)], toPush := toPush, entityModified := b } := by
  refine ⟨fun k hk => after_set_of_ne rfl rfl hk, fun k hk => ?_⟩
  simp only [keys, map_append, map_cons, map_nil, mem_append, mem_singleton] at hk ⊢
  tauto

theorem updateAttribute_writesOnly : WritesOnly d ca u (updateAttribute env v d ca false u).1 := by
  unfold updateAttribute
  simp only [Bool.false_eq_true, if_false]
  split
  · exact WritesOnly.refl
  split
  · exact writesOnly_set
  · exact WritesOnly.refl

theorem updateAttribute_derived : SameDerived u (updateAttribute env v d ca false u).1 := by
  unfold updateAttribute
  simp only [Bool.false_eq_true, if_false]
  split
  · exact ⟨rfl, rfl, rfl⟩
  · split <;> exact ⟨rfl, rfl, rfl⟩

theorem updateAttribute_holds (hfound : (d.attrs.lookup (effectiveName ca)).isSome = true)
    (hfresh : effectiveName ca ∉ keys u)
    (hgiven : ca.compoundValueP.isSome = true → ca.valueType ≠ .notGiven)
    (hld : v = .ngsiLd → ca.compoundValueP = none) :
    Holds env v d ca (updateAttribute env v d ca false u).1 := by
  intro value hv hne
  obtain ⟨field, hfield⟩ := Option.isSome_iff_exists.mp hfound
  have hcarries : Carries ca value ((mergeAttrInfo env v (field.asAttribute env) ca).getD
      (field.asAttribute env)) := merged_carries hgiven hld hv hne
  unfold updateAttribute
  simp only [Bool.false_eq_true, if_false, hfield]
  cases hmerge : mergeAttrInfo env v (field.asAttribute env) ca with
  | some a =>
    rw [hmerge] at hcarries
    exact ⟨a, after_set_self rfl rfl hfresh, hcarries⟩
  | none =>
    rw [hmerge] at hcarries
    rcases field with a | ⟨name, coords⟩
    · exact ⟨a, (after_untouched hfresh).trans hfield, hcarries⟩
    · exact absurd hcarries.1 (by simp [AttrsField.asAttribute])

variable {noOverwrite : Bool}

theorem appendAttribute_writesOnly :
    WritesOnly d ca u (appendAttribute env v d noOverwrite ca u).1 := by
  unfold appendAttribute
  split
  · split
    · exact ⟨fun _ _ => rfl, fun _ hk => .inl hk⟩
    · exact updateAttribute_writesOnly
  · exact writesOnly_set

theorem appendAttribute_derived : SameDerived u (appendAttribute env v d noOverwrite ca u).1 := by
  unfold appendAttribute
  split
  · split
    · exact ⟨rfl, rfl, rfl⟩
    · exact updateAttribute_derived
  · exact ⟨rfl, rfl, rfl⟩

theorem appendAttribute_holds
    (hwrite : noOverwrite = true → d.attrs.lookup (effectiveName ca) = none)
    (hfresh : effectiveName ca ∉ keys u)
    (hgiven : ca.compoundValueP.isSome = true → ca.valueType ≠ .notGiven)
    (htype : isGeoType ca.type = true → ca.typeGiven = true)
    (hld : v = .ngsiLd → ca.compoundValueP = none) :
    Holds env v d ca (appendAttribute env v d noOverwrite ca u).1 := by
  unfold appendAttribute
  split
  · rename_i hfound
    split
    · rename_i hskip
      rw [hwrite hskip] at hfound
      cases hfound
    · exact updateAttribute_holds hfound hfresh hgiven hld
  · intro value hv _
    exact ⟨_, after_set_self rfl rfl hfresh, ⟨hv _, fun hgeo => attrType_given (htype hgeo)⟩⟩

theorem appendAttribute_appended (h : (appendAttribute env v d noOverwrite ca u).2 = true) :
    d.attrs.lookup (effectiveName ca) = none := by
  unfold appendAttribute at h
  split at h
  · split at h <;> cases h
  · rename_i hnone
    exact Option.not_isSome_iff_eq_none.mp hnone

variable {env : Numbers} {loc loc' : Text × GeoJson}

/-- It stays, it is given by the attribute, or the attribute of that name does not give it any more.
-/
inductive LocStep (env : Numbers) (v : ApiVersion) (ca : ContextAttribute)
    (again appended : Prop) (loc : Text × GeoJson) : Text × GeoJson → Prop
  | kept (hloc : getLocation v ca = []) (hname : appended ∨ loc.1 ≠ ca.name) :
      LocStep env v ca again appended loc loc
  | located (g : GeoJson) (hg : getGeoJson env v ca = .ok g)
      (hloc : getLocation v ca ≠ [] ∨ again ∧ loc.1 = ca.name)
      (hname : loc.1 = [] ∨ loc.1 = ca.name) :
      LocStep env v ca again appended loc (ca.name, loc.2 ++ g)
  | dropped (hname : loc.1 = ca.name) : LocStep env v ca again appended loc ([], loc.2)

variable {g : GeoJson} {doc : Option (EntityDoc μ)} {caV : List ContextAttribute}

theorem geoJsonOr_ok {what : String} (h : geoJsonOr env what v ca = .ok g) :
    getGeoJson env v ca = .ok g := by
  unfold geoJsonOr at h
  split at h
  · rename_i hg
    rw [hg, Except.ok.inj h]
  · cases h

theorem update_locStep (h : processLocationAtUpdateAttribute env v loc ca = .ok loc') :
    LocStep env v ca (v = .v1) False loc loc' := by
  unfold processLocationAtUpdateAttribute at h
  simp only at h
  split at h
  · cases h
  split at h
  · rename_i hloc
    split at h
    · rename_i hnone
      obtain ⟨g, hg, h⟩ := bind_ok h
      cases h
      exact .located g (geoJsonOr_ok hg) (.inl hloc) (.inl hnone)
    · split at h
      · cases h
      rename_i hname
      obtain ⟨g, hg, h⟩ := bind_ok h
      cases h
      have hname : loc.1 = ca.name := not_not.mp hname
      rw [hname]
      exact .located g (geoJsonOr_ok hg) (.inl hloc) (.inr hname)
  · rename_i hloc
    split at h
    · rename_i hname
      split at h
      · rename_i hv
        obtain ⟨g, hg, h⟩ := bind_ok h
        cases h
        rw [hname]
        exact .located g (geoJsonOr_ok hg) (.inr ⟨hv, hname⟩) (.inr hname)
      · cases h
        exact .dropped hname
    · rename_i hname
      cases h
      exact .kept (not_not.mp hloc) (.inr hname)

theorem append_locStep {actualAppend : Bool} (hne : ca.name ≠ [])
    (h : processLocationAtAppendAttribute env v loc ca actualAppend = .ok loc') :
    LocStep env v ca False (actualAppend = true) loc loc' := by
  unfold processLocationAtAppendAttribute at h
  simp only at h
  split at h
  · cases h
  split at h
  · rename_i happend
    split at h
    · cases h
    rename_i hnone
    obtain ⟨g, hg, h⟩ := bind_ok h
    cases h
    exact .located g (geoJsonOr_ok hg) (.inl happend.2) (.inl (not_not.mp hnone))
  · rename_i hnew
    split at h
    · rename_i hexisting
      split at h
      · cases h
      rename_i hname
      have hname : loc.1 = ca.name := not_not.mp hname
      rw [if_neg (hname ▸ hne)] at h
      obtain ⟨g, hg, h⟩ := bind_ok h
      cases h
      rw [hname]
      exact .located g (geoJsonOr_ok hg) (.inl hexisting.2) (.inr hname)
    · rename_i hexisting
      have hloc : getLocation v ca = [] := by
        by_contra hloc
        cases actualAppend with
        | true => exact hnew ⟨rfl, hloc⟩
        | false => exact hexisting ⟨rfl, hloc⟩
      split at h
      · rename_i hgone
        cases h
        exact .dropped hgone.2.2
      rename_i hkept
      cases h
      refine .kept hloc ?_
      cases actualAppend with
      | true => exact .inl rfl
      | false => exact .inr fun hname => hkept ⟨rfl, hloc, hname⟩

/-- What becomes of the date, and of the mark that the request gives one. -/
inductive DateStep (ca : ContextAttribute) (marks : Bool) (date : ℤ × Bool) : ℤ × Bool → Prop
  | kept (hname : ca.name ≠ dateExpires) : DateStep ca marks date date
  | given (h : GivesDate ca) :
      DateStep ca marks date (dateOf ca.numberValue, marks || date.2)
  | dropped (hname : ca.name = dateExpires) : DateStep ca marks date (0, date.2)

theorem getDateExpiration_ok {x : ℤ} (h : getDateExpiration ca = .ok x) :
    x = dateOf ca.numberValue := by
  unfold getDateExpiration at h
  split at h
  · cases h
    rfl
  · cases h

theorem update_dateStep {date date' : ℤ × Bool}
    (h : processDateExpirationAtUpdateAttribute date ca = .ok date') :
    DateStep ca true date date' := by
  unfold processDateExpirationAtUpdateAttribute at h
  split at h
  · rename_i hname
    split at h
    · rename_i hnumber
      obtain ⟨x, hx, h⟩ := bind_ok h
      cases h
      rw [getDateExpiration_ok hx]
      exact .given ⟨hname, hnumber⟩
    · cases h
      exact .dropped hname
  · rename_i hname
    cases h
    exact .kept hname

theorem append_dateStep {x x' : ℤ} {b : Bool}
    (h : processDateExpirationAtAppendAttribute x ca = .ok x') :
    DateStep ca false (x, b) (x', b) := by
  unfold processDateExpirationAtAppendAttribute at h
  split at h
  · rename_i hname
    split at h
    · rename_i hnumber
      rw [getDateExpiration_ok h]
      exact .given ⟨hname, hnumber⟩
    · cases h
      exact .dropped hname
  · rename_i hname
    cases h
    exact .kept hname

variable {env : Env μ} {r : Request} {seen : List ContextAttribute} {date' : ℤ × Bool}
  {again appended : Prop} {marks : Bool}

structure Mirrored (env : Env μ) (d : EntityDoc μ) : Prop where
  location : ∀ name coords, d.location = some (name, coords) → Plain name ∧
    ∃ a, d.attrs.lookup (dotForEq name) = some (.attribute a) ∧ IsGeoJsonOf env a coords
  expiration : ∀ x, d.expDate = some x →
    ∃ a, d.attrs.lookup dateExpires = some (.attribute a) ∧ ExpiresAt a x

structure LocFollows (env : Env μ) (d : EntityDoc μ) (r : Request)
    (seen : List ContextAttribute) (u : Update μ) : Prop where
  location : u.loc.1 ≠ [] → Plain u.loc.1 ∧
    ∃ a, after d u (dotForEq u.loc.1) = some (.attribute a) ∧
      IsGeoJsonOf env a (finalGeoJson d u)
  origin : u.loc.2 = [] ∧ (u.loc.1 = [] ∨ u.loc.1 = locAttr (some d)) ∨
    ∃ other ∈ seen, Locates (some d) r other ∧ other.name = u.loc.1

structure DateFollows (d : EntityDoc μ) (seen : List ContextAttribute) (u : Update μ) :
    Prop where
  date : u.dateExpiration ≠ 0 →
    ∃ a, after d u dateExpires = some (.attribute a) ∧ ExpiresAt a u.dateExpiration
  payload : u.dateExpirationInPayload = true →
    u.dateExpiration ≠ 0 ∧ ∃ other ∈ seen, GivesDate other

/-- None of those before it has its name if one of the two gives a location or a date. -/
structure Next (d : EntityDoc μ) (r : Request) (seen : List ContextAttribute)
    (ca : ContextAttribute) : Prop where
  mem : ca ∈ r.contextAttributeVector
  seen_mem : ∀ other ∈ seen, other ∈ r.contextAttributeVector
  apart : ∀ other ∈ seen, other.name = ca.name →
    ¬ Special (some d) r other ∧ ¬ Special (some d) r ca

theorem plain_dateExpires : Plain dateExpires := by
  refine ⟨?_, ?_, ?_⟩ <;> decide

theorem locAttr_location {coords : GeoJson} (h : d.location = some (name, coords)) :
    locAttr (some d) = name := by
  rw [locAttr, Option.bind_some, h]
  rfl

theorem location_of_locAttr (h : locAttr (some d) ≠ []) :
    ∃ coords, d.location = some (locAttr (some d), coords) := by
  cases hl : d.location with
  | none =>
    rw [locAttr, Option.bind_some, hl] at h
    exact absurd rfl h
  | some l => exact ⟨l.2, by rw [locAttr_location hl]⟩

theorem geoType_of_location (hv : v ≠ .v1) (h : getLocation v ca ≠ []) :
    isGeoType ca.type = true := by
  by_contra hgeo
  have hnone : getLocation v ca = [] := by
    cases v with
    | v1 => exact absurd rfl hv
    | v2 => exact if_neg hgeo
    | ngsiLd => exact if_neg hgeo
  exact h hnone

theorem located_not_ld (hp : Parsed r) (hmem : ca ∈ r.contextAttributeVector)
    (h : Locates (some d) r ca) : r.apiVersion ≠ .ngsiLd := by
  intro hld
  rcases h with h | ⟨hv, -⟩
  · have hgeo := geoType_of_location (by rw [hld]; decide) h
    rw [hp.ldTypes hld ca hmem] at hgeo
    cases hgeo
  · rw [hv] at hld
    cases hld

theorem located_value (hw : Written env doc r) (hmem : ca ∈ r.contextAttributeVector)
    (hloc : Locates doc r ca) (hg : getGeoJson env.toNumbers r.apiVersion ca = .ok g) :
    (∃ value, (∀ t, valueBson env.toNumbers r.apiVersion t ca = some value) ∧ value ≠ .str [] ∧
      ∀ a, Carries ca value a → IsGeoJsonOf env a g) ∧
      (g = [] → ∀ d ∈ doc, d.location = none) := by
  obtain ⟨⟨value, hvalue, hne, hgeo⟩, hnil⟩ := getGeoJson_stored hg (hw.strings ca hmem hloc)
  refine ⟨⟨value, hvalue, hne, fun a ha => ⟨value, ha.1, ?_⟩⟩, fun h d hd => ?_⟩
  · rcases hgeo with ⟨hread, hgeo⟩ | hgeo
    · have hv : r.apiVersion ≠ .v1 := fun hv => hread (.inl hv)
      have hlocation : getLocation r.apiVersion ca ≠ [] := hloc.resolve_right fun h => hv h.1
      rw [ha.2 (geoType_of_location hv hlocation)]
      exact .inl hgeo
    · exact .inr hgeo
  · by_contra hsome
    obtain ⟨htype, hcompound⟩ := hnil h
    exact hw.objects d hd hsome ca hmem htype [] hcompound rfl

theorem dated_value (hw : Written env doc r) (hmem : ca ∈ r.contextAttributeVector)
    (hdate : GivesDate ca) :
    ∃ value, (∀ t, valueBson env.toNumbers r.apiVersion t ca = some value) ∧ value ≠ .str [] ∧
      ∀ a : StoredAttribute μ, Carries ca value a → ExpiresAt a (dateOf ca.numberValue) := by
  obtain ⟨hcompound, htype⟩ := hw.numbers ca hmem hdate
  refine ⟨.num ca.numberValue, fun t => ?_, Bson.noConfusion, fun a ha => ⟨_, ha.1, rfl⟩⟩
  rw [valueBson, hcompound]
  simp only [bsonAppendAttrValue, htype]

theorem special_name (hp : Parsed r) (hw : Written env (some d) r)
    (hmem : ca ∈ r.contextAttributeVector) (h : Special (some d) r ca) :
    effectiveName ca = dotForEq ca.name :=
  effectiveName_eq (hp.names ca hmem) (hw.ids ca hmem h)

theorem LocFollows.unlocated (hf : LocFollows env d r seen u) (hn : Next d r seen ca)
    (hname : u.loc.1 = ca.name) :
    u.loc.2 = [] ∧ (u.loc.1 = [] ∨ u.loc.1 = locAttr (some d)) := by
  rcases hf.origin with h | ⟨other, hother, hlocates, heq⟩
  · exact h
  · exact absurd (.inl hlocates) (hn.apart other hother (heq.trans hname)).1

theorem loc_kept (hp : Parsed r) (hm : Mirrored env d) (hf : LocFollows env d r seen u)
    (hn : Next d r seen ca) (hw' : WritesOnly d ca u u') (hloc : u'.loc = u.loc)
    (hname : d.attrs.lookup (effectiveName ca) = none ∨ u.loc.1 ≠ ca.name) :
    LocFollows env d r (seen ++ [ca]) u' := by
  refine ⟨fun hne => ?_, ?_⟩
  · rw [hloc] at hne ⊢
    obtain ⟨hplain, a, ha, hgeo⟩ := hf.location hne
    have hother : dotForEq u.loc.1 ≠ effectiveName ca := by
      intro heq
      have hsame : ca.name = u.loc.1 := name_of_effectiveName (hp.names ca hn.mem) hplain heq.symm
      rcases hname with hnone | hname
      · have hlocAttr := (hf.unlocated hn hsame.symm).2.resolve_left hne
        obtain ⟨coords, hcoords⟩ := location_of_locAttr (hlocAttr ▸ hne)
        obtain ⟨-, a, ha, -⟩ := hm.location _ _ hcoords
        rw [← hlocAttr, heq, hnone] at ha
        cases ha
      · exact hname hsame.symm
    rw [hw'.others _ hother]
    refine ⟨hplain, a, ha, ?_⟩
    rw [finalGeoJson, hloc]
    exact hgeo
  · rw [hloc]
    refine hf.origin.imp_right ?_
    rintro ⟨other, hother, h⟩
    exact ⟨other, mem_append_left _ hother, h⟩

theorem loc_located (hp : Parsed r) (hw : Written env (some d) r) (hf : LocFollows env d r seen u)
    (hn : Next d r seen ca) (hg : getGeoJson env.toNumbers r.apiVersion ca = .ok g)
    (hlocates : Locates (some d) r ca) (hname : u.loc.1 = [] ∨ u.loc.1 = ca.name)
    (hloc : u'.loc = (ca.name, u.loc.2 ++ g)) (hholds : Holds env r.apiVersion d ca u') :
    LocFollows env d r (seen ++ [ca]) u' := by
  -- nothing has been read for a location before
  have hempty : u.loc.2 = [] := by
    rcases hname with hname | hname
    · rcases hf.origin with h | ⟨other, hother, -, heq⟩
      · exact h.1
      · exact absurd (heq.trans hname) (hp.names other (hn.seen_mem other hother)).1
    · exact (hf.unlocated hn hname).1
  rw [hempty, nil_append] at hloc
  obtain ⟨⟨value, hvalue, hne, hgeo⟩, hnil⟩ := located_value hw hn.mem hlocates hg
  obtain ⟨a, ha, hcarries⟩ := hholds value hvalue hne
  have hfinal : finalGeoJson d u' = g := by
    rw [finalGeoJson, hloc]
    by_cases h : g = []
    · rw [if_pos h, hnil h d rfl, h]
      rfl
    · exact if_neg h
  refine ⟨fun _ => ?_, .inr ⟨ca, mem_append_right _ mem_cons_self, hlocates, ?_⟩⟩
  · rw [hfinal, hloc, ← special_name hp hw hn.mem (.inl hlocates)]
    exact ⟨hp.names ca hn.mem, a, ha, hgeo a hcarries⟩
  · rw [hloc]

theorem loc_dropped (hf : LocFollows env d r seen u) (hn : Next d r seen ca)
    (hname : u.loc.1 = ca.name) (hloc : u'.loc = ([], u.loc.2)) :
    LocFollows env d r (seen ++ [ca]) u' := by
  refine ⟨fun hne => absurd (by rw [hloc]) hne, .inl ⟨?_, .inl ?_⟩⟩
  · rw [hloc]
    exact (hf.unlocated hn hname).1
  · rw [hloc]

theorem loc_step (hp : Parsed r) (hw : Written env (some d) r) (hm : Mirrored env d)
    (hf : LocFollows env d r seen u) (hn : Next d r seen ca) (hw' : WritesOnly d ca u u')
    (hstep : LocStep env.toNumbers r.apiVersion ca again appended u.loc u'.loc)
    (hagain : again → r.apiVersion = .v1 ∧ r.action = .update)
    (happended : appended → d.attrs.lookup (effectiveName ca) = none)
    (hholds : Special (some d) r ca → Holds env r.apiVersion d ca u') :
    LocFollows env d r (seen ++ [ca]) u' := by
  generalize hl : u'.loc = l at hstep
  cases hstep with
  | kept hloc hname => exact loc_kept hp hm hf hn hw' hl (hname.imp_left happended)
  | located g hg hloc hname =>
    have hlocates : Locates (some d) r ca := by
      rcases hloc with hloc | ⟨hyes, hsame⟩
      · exact .inl hloc
      have hne : u.loc.1 ≠ [] := hsame ▸ (hp.names ca hn.mem).1
      have horigin := (hf.unlocated hn hsame).2.resolve_left hne
      exact .inr ⟨(hagain hyes).1, (hagain hyes).2, hsame.symm.trans horigin⟩
    exact loc_located hp hw hf hn hg hlocates hname hl (hholds (.inl hlocates))
  | dropped hname => exact loc_dropped hf hn hname hl

theorem DateFollows.unmarked (hf : DateFollows d seen u) (hn : Next d r seen ca)
    (hname : ca.name = dateExpires) : u.dateExpirationInPayload = false := by
  by_contra hmarked
  obtain ⟨other, hother, hgives⟩ := (hf.payload (eq_true_of_ne_false hmarked)).2
  exact (hn.apart other hother (hgives.1.trans hname.symm)).1 (.inr hgives)

theorem date_kept (hp : Parsed r) (hf : DateFollows d seen u) (hn : Next d r seen ca)
    (hw' : WritesOnly d ca u u') (hname : ca.name ≠ dateExpires)
    (hdate : u'.dateExpiration = u.dateExpiration)
    (hpayload : u'.dateExpirationInPayload = u.dateExpirationInPayload) :
    DateFollows d (seen ++ [ca]) u' := by
  have hother : dateExpires ≠ effectiveName ca := fun heq =>
    hname (name_of_effectiveName (hp.names ca hn.mem) plain_dateExpires heq.symm)
  refine ⟨fun hne => ?_, fun hmarked => ?_⟩
  · rw [hdate] at hne ⊢
    rw [hw'.others _ hother]
    exact hf.date hne
  · rw [hpayload] at hmarked
    rw [hdate]
    obtain ⟨hne, other, hmem, hgives⟩ := hf.payload hmarked
    exact ⟨hne, other, mem_append_left _ hmem, hgives⟩

theorem date_dropped (hf : DateFollows d seen u) (hn : Next d r seen ca)
    (hname : ca.name = dateExpires) (hdate : u'.dateExpiration = 0)
    (hpayload : u'.dateExpirationInPayload = u.dateExpirationInPayload) :
    DateFollows d (seen ++ [ca]) u' := by
  refine ⟨fun hne => absurd hdate hne, fun hmarked => ?_⟩
  rw [hpayload, hf.unmarked hn hname] at hmarked
  cases hmarked

theorem date_step (hp : Parsed r) (hw : Written env (some d) r) (hf : DateFollows d seen u)
    (hn : Next d r seen ca) (hw' : WritesOnly d ca u u')
    (hstep : DateStep ca marks (u.dateExpiration, u.dateExpirationInPayload)
      (u'.dateExpiration, u'.dateExpirationInPayload))
    (hmarks : marks = true → r.action = .update)
    (hholds : Special (some d) r ca → Holds env r.apiVersion d ca u') :
    DateFollows d (seen ++ [ca]) u' := by
  generalize hdate : u'.dateExpiration = x at hstep
  generalize hpayload : u'.dateExpirationInPayload = b at hstep
  cases hstep with
  | kept hname => exact date_kept hp hf hn hw' hname hdate hpayload
  | given h =>
    obtain ⟨value, hvalue, hne, hexpires⟩ := dated_value hw hn.mem h
    obtain ⟨a, ha, hcarries⟩ := hholds (.inr h) value hvalue hne
    rw [special_name hp hw hn.mem (.inr h), h.1] at ha
    refine ⟨fun _ => ⟨a, ha, hdate ▸ hexpires a hcarries⟩, fun hmarked => ⟨?_, ca, ?_, h⟩⟩
    · rw [hpayload, hf.unmarked hn h.1, Bool.or_false] at hmarked
      rw [hdate]
      exact hw.dates (hmarks hmarked) ca hn.mem h
    · exact mem_append_right _ mem_cons_self
  | dropped hname => exact date_dropped hf hn hname hdate hpayload

structure Follows (env : Env μ) (d : EntityDoc μ) (r : Request) (seen : List ContextAttribute)
    (u : Update μ) : Prop where
  loc : LocFollows env d r seen u
  date : DateFollows d seen u
  names : ∀ k ∈ keys u, ∃ other ∈ seen, k = effectiveName other

theorem noUpdate_follows (hm : Mirrored env d) : Follows env d r [] (noUpdate d) := by
  refine ⟨⟨fun hne => ?_, .inl ⟨rfl, .inr rfl⟩⟩, ⟨fun hne => ?_, fun h => ?_⟩, ?_⟩
  · obtain ⟨coords, hl⟩ := location_of_locAttr hne
    obtain ⟨hplain, a, ha, hgeo⟩ := hm.location _ _ hl
    refine ⟨hplain, a, (after_untouched not_mem_nil).trans ha, ?_⟩
    have hfinal : finalGeoJson d (noUpdate d) = coords := by
      rw [finalGeoJson, if_pos (show (noUpdate d).loc.2 = [] from rfl), hl]
      rfl
    rw [hfinal]
    exact hgeo
  · cases hx : d.expDate with
    | none =>
      refine absurd ?_ hne
      show d.expDate.getD 0 = 0
      rw [hx]
      rfl
    | some x =>
      obtain ⟨a, ha, hexpires⟩ := hm.expiration x hx
      refine ⟨a, (after_untouched not_mem_nil).trans ha, ?_⟩
      show ExpiresAt a (d.expDate.getD 0)
      rw [hx]
      exact hexpires
  · cases h
  · intro k hk
    cases hk

theorem Follows.fresh (hp : Parsed r) (hw : Written env (some d) r)
    (hf : Follows env d r seen u) (hn : Next d r seen ca) (h : Special (some d) r ca) :
    effectiveName ca ∉ keys u := by
  intro hmem
  obtain ⟨other, hother, heq⟩ := hf.names _ hmem
  rw [special_name hp hw hn.mem h] at heq
  have hsame := name_of_effectiveName (hp.names other (hn.seen_mem other hother))
    (hp.names ca hn.mem) heq.symm
  exact (hn.apart other hother hsame).2 h

theorem Follows.names_append (hf : Follows env d r seen u) (hw' : WritesOnly d ca u u') :
    ∀ k ∈ keys u', ∃ other ∈ seen ++ [ca], k = effectiveName other := by
  intro k hk
  rcases hw'.names k hk with hk | hk
  · obtain ⟨other, hother, heq⟩ := hf.names k hk
    exact ⟨other, mem_append_left _ hother, heq⟩
  · exact ⟨ca, mem_append_right _ mem_cons_self, hk⟩

theorem special_compound (hp : Parsed r) (hw : Written env (some d) r)
    (hmem : ca ∈ r.contextAttributeVector) (h : Special (some d) r ca) :
    r.apiVersion = .ngsiLd → ca.compoundValueP = none := by
  intro hld
  rcases h with h | h
  · exact absurd hld (located_not_ld hp hmem h)
  · exact (hw.numbers ca hmem h).1

theorem update_follows (hp : Parsed r) (hw : Written env (some d) r) (hm : Mirrored env d)
    (hf : Follows env d r seen u) (hn : Next d r seen ca) (haction : r.action = .update)
    (h : updateContextAttributeItem env r.apiVersion d false u ca = .ok u') :
    Follows env d r (seen ++ [ca]) u' := by
  obtain ⟨loc, hloc, h⟩ := bind_ok h
  obtain ⟨date, hdate, h⟩ := bind_ok h
  have hsame : SameDerived u (updateAttribute env r.apiVersion d ca false u).1 :=
    updateAttribute_derived
  have hwrites : WritesOnly d ca u (updateAttribute env r.apiVersion d ca false u).1 :=
    updateAttribute_writesOnly
  have hholds : Special (some d) r ca →
      Holds env r.apiVersion d ca (updateAttribute env r.apiVersion d ca false u).1 := by
    intro hspecial
    have hfound := hw.update haction d rfl ca hn.mem hspecial
    rw [← special_name hp hw hn.mem hspecial] at hfound
    exact updateAttribute_holds hfound (hf.fresh hp hw hn hspecial) (hp.valueGiven ca hn.mem)
      (special_compound hp hw hn.mem hspecial)
  rw [hsame.loc] at hloc
  rw [hsame.date, hsame.payload] at hdate
  cases h
  refine ⟨?_, ?_, hf.names_append ⟨hwrites.others, hwrites.names⟩⟩
  · exact loc_step hp hw hm hf.loc hn ⟨hwrites.others, hwrites.names⟩ (update_locStep hloc)
      (fun hv => ⟨hv, haction⟩) False.elim hholds
  · exact date_step hp hw hf.date hn ⟨hwrites.others, hwrites.names⟩ (update_dateStep hdate)
      (fun _ => haction) hholds

theorem append_follows (hp : Parsed r) (hw : Written env (some d) r) (hm : Mirrored env d)
    (hf : Follows env d r seen u) (hn : Next d r seen ca)
    (haction : r.action = .append ∨ r.action = .appendStrict) (hskip : skip d r ca = false)
    (h : appendContextAttributeItem env r.apiVersion d r.noOverwrite u ca = .ok u') :
    Follows env d r (seen ++ [ca]) u' := by
  unfold appendContextAttributeItem at h
  split at h
  · cases h
  have hsame : SameDerived u (appendAttribute env r.apiVersion d r.noOverwrite ca u).1 :=
    appendAttribute_derived
  have hwrites : WritesOnly d ca u (appendAttribute env r.apiVersion d r.noOverwrite ca u).1 :=
    appendAttribute_writesOnly
  have hholds : Special (some d) r ca → Holds env r.apiVersion d ca
        (appendAttribute env r.apiVersion d r.noOverwrite ca u).1 := by
    intro hspecial
    refine appendAttribute_holds (fun hno => ?_) (hf.fresh hp hw hn hspecial)
      (hp.valueGiven ca hn.mem) (hp.typeGiven ca hn.mem)
      (special_compound hp hw hn.mem hspecial)
    rw [special_name hp hw hn.mem hspecial]
    exact hw.noOverwrite haction hno d rfl ca hn.mem hskip hspecial
  have happended : (appendAttribute env r.apiVersion d r.noOverwrite ca u).2 = true →
      d.attrs.lookup (effectiveName ca) = none := appendAttribute_appended
  generalize appendAttribute env r.apiVersion d r.noOverwrite ca u = written at *
  obtain ⟨loc, hloc, h⟩ := bind_ok h
  obtain ⟨date, hdate, h⟩ := bind_ok h
  rw [hsame.loc] at hloc
  rw [hsame.date] at hdate
  cases h
  refine ⟨?_, ?_, hf.names_append ⟨hwrites.others, hwrites.names⟩⟩
  · exact loc_step hp hw hm hf.loc hn ⟨hwrites.others, hwrites.names⟩
      (append_locStep (hp.names ca hn.mem).1 hloc) False.elim happended hholds
  · have hstep : DateStep ca false (u.dateExpiration, u.dateExpirationInPayload)
        (date, written.1.dateExpirationInPayload) := by
      rw [hsame.payload]
      exact append_dateStep hdate
    exact date_step hp hw hf.date hn ⟨hwrites.others, hwrites.names⟩ hstep Bool.noConfusion hholds

theorem delete_follows (hp : Parsed r) (hm : Mirrored env d) (hf : Follows env d r seen u)
    (hn : Next d r seen ca) (h : deleteContextAttributeItem r.apiVersion d u ca = .ok u') :
    Follows env d r (seen ++ [ca]) u' := by
  unfold deleteContextAttributeItem at h
  split at h
  · cases h
  split at h
  · cases h
  cases h
  have hwrites : ∀ loc date, WritesOnly d ca u { u with
      toUnset := u.toUnset ++ [effectiveName ca], deleted := u.deleted ++ [ca.name],
      loc := loc, dateExpiration := date, entityModified := true } := by
    intro loc date
    refine ⟨fun k hk => after_unset_of_ne rfl rfl hk, fun k hk => ?_⟩
    simp only [keys, mem_append, mem_singleton] at hk ⊢
    tauto
  refine ⟨?_, ?_, hf.names_append (hwrites _ _)⟩
  · by_cases hname : u.loc.1 = ca.name
    · exact loc_dropped hf.loc hn hname (if_pos hname)
    · exact loc_kept hp hm hf.loc hn (hwrites _ _) (if_neg hname) (.inr hname)
  · by_cases hname : ca.name = dateExpires
    · exact date_dropped hf.date hn hname (if_pos hname) rfl
    · exact date_kept hp hf.date hn (hwrites _ _) hname (if_neg hname) rfl

theorem item_follows (hp : Parsed r) (hw : Written env (some d) r) (hm : Mirrored env d)
    (hf : Follows env d r seen u) (hn : Next d r seen ca) (hreplace : r.action ≠ .replace)
    (hskip : skip d r ca = false) (h : contextAttributeItem env d r u ca = .ok u') :
    Follows env d r (seen ++ [ca]) u' := by
  unfold contextAttributeItem at h
  cases haction : r.action with
  | update =>
    rw [haction] at h
    exact update_follows hp hw hm hf hn haction h
  | append =>
    rw [haction] at h
    exact append_follows hp hw hm hf hn (.inl haction) hskip h
  | appendStrict =>
    rw [haction] at h
    exact append_follows hp hw hm hf hn (.inr haction) hskip h
  | replace => exact absurd haction hreplace
  | delete =>
    rw [haction] at h
    exact delete_follows hp hm hf hn h

theorem next_of_append (hmem : ∀ other ∈ seen ++ ca :: caV, other ∈ r.contextAttributeVector)
    (halone : (seen ++ ca :: caV).Pairwise fun a b =>
    a.name = b.name → ¬ Special (some d) r a ∧ ¬ Special (some d) r b) : Next d r seen ca where
  mem := hmem ca (List.mem_append_right _ List.mem_cons_self)
  seen_mem := fun other hother => hmem other (mem_append_left _ hother)
  apart := fun other hother => (pairwise_append.mp halone).2.2 other hother ca mem_cons_self

theorem items_follow (hp : Parsed r) (hw : Written env (some d) r) (hm : Mirrored env d)
    (hf : Follows env d r seen u) (hreplace : r.action ≠ .replace)
    (hmem : ∀ other ∈ seen ++ caV, other ∈ r.contextAttributeVector)
    (hskip : ∀ other ∈ caV, skip d r other = false) (halone : (seen ++ caV).Pairwise fun a b =>
    a.name = b.name → ¬ Special (some d) r a ∧ ¬ Special (some d) r b)
    (h : contextAttributeItems env d r u caV = .ok u') : Follows env d r (seen ++ caV) u' := by
  induction caV generalizing seen u with
  | nil =>
    cases h
    rw [append_nil]
    exact hf
  | cons ca caV ih =>
    obtain ⟨u₁, h₁, h⟩ := bind_ok h
    have hn : Next d r seen ca := next_of_append hmem halone
    have hf₁ := item_follows hp hw hm hf hn hreplace (hskip ca mem_cons_self) h₁
    rw [append_cons] at hmem halone ⊢
    exact ih hf₁ hmem (fun other hother => hskip other (mem_cons_of_mem _ hother)) halone h

theorem vector_follows (hp : Parsed r) (hw : Written env (some d) r) (hm : Mirrored env d)
    (hreplace : r.action ≠ .replace) (h : processContextAttributeVector env d r = .ok u) :
    Follows env d r (r.contextAttributeVector.filter (!skip d r ·)) u := by
  refine items_follow hp hw hm (noUpdate_follows hm) hreplace ?_ ?_ ?_ h
  · exact fun other hother => mem_of_mem_filter hother
  · intro other hother
    simpa using (mem_filter.mp hother).2
  · exact hw.alone.filter _

theorem updatedEntity_mirrored (hf : Follows env d r seen u) (hn : (keys u).Nodup) :
    Mirrored env (updatedEntity d u) := by
  refine ⟨fun name coords hl => ?_, fun x hx => ?_⟩
  · unfold updatedEntity finalLocation at hl
    split at hl
    · cases hl
    rename_i hne
    cases hl
    rw [lookup_updatedEntity hn]
    exact hf.loc.location hne
  · unfold updatedEntity at hx
    split at hx
    · rename_i hne
      cases hx
      rw [lookup_updatedEntity hn]
      exact hf.date.date hne
    · rename_i hzero
      split at hx
      · rename_i hmarked
        exact absurd (hf.date.payload hmarked).1 hzero
      · cases hx

end LocationUpdates
