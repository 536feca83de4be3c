import OrionLd.LocationUpdates

/-! Runs of requests on an entity, with its location and its expiration date as mirrors.
A new entity is read from its attributes, a replacing request writes all of them, and the
others are followed; every step keeps the invariant of the run. -/
namespace LocationRuns

open KjTree FieldList MongoLocation MongoCommonUpdate LocationMirror LocationUpdates
open Fallible StepSystem List Option

variable {μ : Type} {env : Env μ} {doc : Option (EntityDoc μ)} {d : EntityDoc μ} {r : Request}
  {ca : ContextAttribute} {seen : List ContextAttribute} {u u' : Update μ}

def createdFields (env : Env μ) (v : ApiVersion) (caV : List ContextAttribute) :
    List (Text × StoredAttribute μ) :=
  caV.map fun ca => (effectiveName ca, createdAttribute env v ca)

variable {v : ApiVersion} {caV : List ContextAttribute}

theorem lookup_created (hplain : ∀ other ∈ caV, Plain other.name)
    (halone : caV.Pairwise fun a b => a.name = b.name → ¬ Special doc r a ∧ ¬ Special doc r b)
    (hmem : ca ∈ caV) (hspecial : Special doc r ca) (hid : getMetadataId ca = none) :
    (attributeFields (createdFields env v caV)).lookup (dotForEq ca.name) =
      some (.attribute (createdAttribute env v ca)) := by
  induction caV with
  | nil => cases hmem
  | cons other caV ih =>
    obtain ⟨hhead, htail⟩ := pairwise_cons.mp halone
    show List.lookup _ ((effectiveName other, _) :: attributeFields (createdFields env v caV)) = _
    rw [lookup_cons]
    rcases mem_cons.mp hmem with rfl | hmem
    · rw [effectiveName_eq (hplain _ mem_cons_self) hid, beq_self_eq_true]
    have hne : dotForEq ca.name ≠ effectiveName other := by
      intro heq
      have hsame := name_of_effectiveName (hplain other mem_cons_self)
        (hplain ca (mem_cons_of_mem _ hmem)) heq.symm
      exact (hhead ca hmem hsame).2 hspecial
    rw [beq_false_of_ne hne]
    exact ih (fun o ho => hplain o (mem_cons_of_mem _ ho)) htail hmem

theorem created_location (hp : Parsed r) (hw : Written env doc r)
    (hmem : ca ∈ r.contextAttributeVector) (hlocates : Locates doc r ca) {g : GeoJson}
    (hg : getGeoJson env.toNumbers r.apiVersion ca = .ok g) :
    ∃ a, (attributeFields (createdFields env r.apiVersion r.contextAttributeVector)).lookup
      (dotForEq ca.name) = some (.attribute a) ∧ IsGeoJsonOf env a g := by
  obtain ⟨⟨value, hvalue, -, hgeo⟩, -⟩ := located_value hw hmem hlocates hg
  exact ⟨_, lookup_created hp.names hw.alone hmem (.inl hlocates)
    (hw.ids ca hmem (.inl hlocates)), hgeo _ (created_carries hvalue (hp.typeGiven ca hmem))⟩

theorem created_date (hp : Parsed r) (hw : Written env doc r)
    (hmem : ca ∈ r.contextAttributeVector) (hgives : GivesDate ca) :
    ∃ a, (attributeFields (createdFields env r.apiVersion r.contextAttributeVector)).lookup
      dateExpires = some (.attribute a) ∧ ExpiresAt a (dateOf ca.numberValue) := by
  obtain ⟨value, hvalue, -, hexpires⟩ := dated_value hw hmem hgives
  have hfound : (attributeFields (createdFields env r.apiVersion r.contextAttributeVector)).lookup
      (dotForEq ca.name) = some (.attribute (createdAttribute env r.apiVersion ca)) :=
    lookup_created hp.names hw.alone hmem (.inr hgives) (hw.ids ca hmem (.inr hgives))
  rw [hgives.1] at hfound
  exact ⟨_, hfound, hexpires _ (created_carries hvalue (hp.typeGiven ca hmem))⟩

theorem creation_rest {loc loc' : Text × GeoJson} (hne : loc.1 ≠ [])
    (h : processLocationAtEntityCreation env.toNumbers v loc caV = .ok loc') : loc' = loc := by
  induction caV with
  | nil =>
    cases h
    rfl
  | cons ca caV ih =>
    unfold processLocationAtEntityCreation at h
    simp only at h
    split at h
    · exact ih h
    · cases h

theorem creation_location {loc loc' : Text × GeoJson} (hplain : ∀ other ∈ caV, Plain other.name)
    (h : processLocationAtEntityCreation env.toNumbers v loc caV = .ok loc') :
    loc' = loc ∨ ∃ other ∈ caV, getLocation v other ≠ [] ∧ ∃ g,
      getGeoJson env.toNumbers v other = .ok g ∧ loc' = (other.name, loc.2 ++ g) := by
  induction caV generalizing loc with
  | nil =>
    cases h
    exact .inl rfl
  | cons ca caV ih =>
    have hrest : ∀ other ∈ caV, Plain other.name :=
      fun other hother => hplain other (mem_cons_of_mem _ hother)
    unfold processLocationAtEntityCreation at h
    simp only at h
    split at h
    · rcases ih hrest h with h | ⟨other, hother, h⟩
      · exact .inl h
      · exact .inr ⟨other, mem_cons_of_mem _ hother, h⟩
    rename_i hloc
    split at h
    · cases h
    split at h
    · obtain ⟨g, hg, h⟩ := bind_ok h
      refine .inr ⟨ca, mem_cons_self, hloc, g, geoJsonOr_ok hg, ?_⟩
      exact creation_rest (hplain ca mem_cons_self).1 h
    · cases h

theorem creation_date {x : ℤ} (h : processDateExpirationAtEntityCreation caV = .ok x) (hx : x ≠ 0) :
    ∃ other ∈ caV, GivesDate other ∧ x = dateOf other.numberValue := by
  induction caV with
  | nil =>
    cases h
    exact absurd rfl hx
  | cons ca caV ih =>
    unfold processDateExpirationAtEntityCreation at h
    split at h
    · rename_i hname
      have hdate := getDateExpiration_ok h
      refine ⟨ca, mem_cons_self, ⟨hname, fun hzero => hx ?_⟩, hdate⟩
      rw [hdate, hzero]
      simp [dateOf]
    · obtain ⟨other, hother, h⟩ := ih h
      exact ⟨other, mem_cons_of_mem _ hother, h⟩

theorem createEntity_ok (h : createEntity env v caV = .ok d) : ∃ loc x,
      (loc = ([], []) ∨
        processLocationAtEntityCreation env.toNumbers v ([], []) caV = .ok loc) ∧
      processDateExpirationAtEntityCreation caV = .ok x ∧
      d = ⟨attributeFields (createdFields env v caV), caV.map ContextAttribute.name,
        if loc.1 = [] then none else some loc, if x = 0 then none else some x⟩ := by
  unfold createEntity at h
  split at h
  · cases h
  simp only at h
  split at h
  · obtain ⟨loc, hloc, h⟩ := bind_ok h
    obtain ⟨x, hx, h⟩ := bind_ok h
    exact ⟨loc, x, .inl (Except.ok.inj hloc).symm, hx, (Except.ok.inj h).symm⟩
  obtain ⟨loc, hloc, h⟩ := bind_ok h
  obtain ⟨x, hx, h⟩ := bind_ok h
  exact ⟨loc, x, .inr hloc, hx, (Except.ok.inj h).symm⟩

theorem createEntity_mirrored (hp : Parsed r) (hw : Written env none r)
    (h : createEntity env r.apiVersion r.contextAttributeVector = .ok d) : Mirrored env d := by
  obtain ⟨loc, x, hloc, hx, rfl⟩ := createEntity_ok h
  refine ⟨fun name coords hl => ?_, fun y hy => ?_⟩
  · simp only at hl
    split at hl
    · cases hl
    rename_i hne
    cases hl
    rcases hloc with hnone | hloc
    · rw [hnone] at hne
      exact absurd rfl hne
    rcases creation_location hp.names hloc with hnone | ⟨other, hother, hgeo, g, hg, heq⟩
    · rw [hnone] at hne
      exact absurd rfl hne
    · cases heq
      exact ⟨hp.names other hother, created_location hp hw hother (.inl hgeo) hg⟩
  · simp only at hy
    split at hy
    · cases hy
    rename_i hne
    cases hy
    obtain ⟨other, hother, hgives, heq⟩ := creation_date hx hne
    rw [heq]
    exact created_date hp hw hother hgives

/-- The update has all attributes so far, and none of the request gives a location. -/
structure Replaces (env : Env μ) (d : EntityDoc μ) (r : Request) (seen : List ContextAttribute)
    (u : Update μ) : Prop where
  toSet : u.toSet = createdFields env r.apiVersion seen
  loc : u.loc.1 = [] ∨
    u.loc.1 = locAttr (some d) ∧ locAttr (some d) ∉ seen.map ContextAttribute.name
  payload : u.dateExpirationInPayload = true →
    ∃ other ∈ seen, GivesDate other ∧ u.dateExpiration = dateOf other.numberValue

theorem locAttr_eq_nil (h : d.location = none) : locAttr (some d) = [] := by
  rw [locAttr, bind_some, h]
  rfl

theorem replace_follows (hp : Parsed r) (hw : Written env (some d) r)
    (hf : Replaces env d r seen u) (hn : Next d r seen ca) (haction : r.action = .replace)
    (h : updateContextAttributeItem env r.apiVersion d true u ca = .ok u') :
    Replaces env d r (seen ++ [ca]) u' := by
  obtain ⟨hgeo, hstored⟩ := hw.replace haction d rfl
  obtain ⟨loc, hloc, h⟩ := bind_ok h
  obtain ⟨date, hdate, h⟩ := bind_ok h
  cases h
  refine ⟨?_, ?_, ?_⟩
  · show u.toSet ++ [(effectiveName ca, createdAttribute env r.apiVersion ca)] = _
    rw [hf.toSet, createdFields, createdFields, map_append]
    rfl
  · cases update_locStep hloc with
    | kept _ hname =>
      refine hf.loc.imp_right fun ⟨hl, hnot⟩ => ⟨hl, ?_⟩
      rw [map_append, mem_append, not_or]
      refine ⟨hnot, fun hmem => hname.resolve_left id ?_⟩
      rw [map_singleton, mem_singleton] at hmem
      exact hl.trans hmem
    | located g hg hlocation hname =>
      obtain ⟨hv, hsame⟩ := hlocation.resolve_left (not_not.mpr (hgeo ca hn.mem))
      have hne : u.loc.1 ≠ [] := fun hnil => (hp.names ca hn.mem).1 (hsame.symm.trans hnil)
      rcases hstored with hnone | ⟨hnotv1, -, -⟩
      · exact absurd ((hf.loc.resolve_left hne).1.trans (locAttr_eq_nil hnone)) hne
      · exact absurd hv hnotv1
    | dropped hname => exact .inl rfl
  · intro hmarked
    cases update_dateStep hdate with
    | kept hname =>
      obtain ⟨other, hother, hgives⟩ := hf.payload hmarked
      exact ⟨other, mem_append_left _ hother, hgives⟩
    | given hgives =>
      exact ⟨ca, mem_append_right _ mem_cons_self, hgives, rfl⟩
    | dropped hname =>
      obtain ⟨other, hother, hgives, -⟩ := hf.payload hmarked
      exact absurd (.inr hgives) (hn.apart other hother (hgives.1.trans hname.symm)).1

theorem replaces_items (hp : Parsed r) (hw : Written env (some d) r) (hf : Replaces env d r seen u)
    (haction : r.action = .replace) (hmem : ∀ other ∈ seen ++ caV, other ∈ r.contextAttributeVector)
    (halone : (seen ++ caV).Pairwise fun a b =>
    a.name = b.name → ¬ Special (some d) r a ∧ ¬ Special (some d) r b)
    (h : contextAttributeItems env d r u caV = .ok u') : Replaces env d r (seen ++ caV) u' := by
  induction caV generalizing seen u with
  | nil =>
    cases h
    rw [append_nil]
    exact hf
  | cons ca caV ih =>
    obtain ⟨u₁, h₁, h⟩ := bind_ok h
    have hn : Next d r seen ca := next_of_append hmem halone
    rw [contextAttributeItem, haction] at h₁
    have hf₁ := replace_follows hp hw hf hn haction h₁
    rw [append_cons] at hmem halone ⊢
    exact ih hf₁ hmem halone h

theorem vector_replaces (hp : Parsed r) (hw : Written env (some d) r)
    (haction : r.action = .replace) (h : processContextAttributeVector env d r = .ok u) :
    Replaces env d r r.contextAttributeVector u := by
  have hskip : r.contextAttributeVector.filter (!skip d r ·) = r.contextAttributeVector := by
    rw [filter_eq_self]
    intro other _
    rw [skip, haction]
    rfl
  unfold processContextAttributeVector at h
  rw [hskip] at h
  show Replaces env d r ([] ++ _) u
  refine replaces_items hp hw ⟨rfl, ?_, fun hmarked => ?_⟩ haction
    (fun other hother => hother) hw.alone h
  · exact .inr ⟨rfl, not_mem_nil⟩
  · cases hmarked

theorem Replaces.no_location (hw : Written env (some d) r) (haction : r.action = .replace)
    (hf : Replaces env d r r.contextAttributeVector u) : u.loc.1 = [] := by
  rcases hf.loc with hnil | ⟨hl, hnot⟩
  · exact hnil
  rcases (hw.replace haction d rfl).2 with hnone | ⟨-, hmem, -⟩
  · exact hl.trans (locAttr_eq_nil hnone)
  · exact absurd hmem hnot

theorem replacedEntity_attrs (hloc : u.loc.1 = []) :
    (replacedEntity d u).attrs = attributeFields u.toSet := by
  show attributeFields u.toSet ++ _ = _
  rw [finalLocation, if_pos hloc]
  exact append_nil _

theorem replacedEntity_mirrored (hp : Parsed r) (hw : Written env (some d) r)
    (haction : r.action = .replace) (hf : Replaces env d r r.contextAttributeVector u) :
    Mirrored env (replacedEntity d u) := by
  have hloc := hf.no_location hw haction
  refine ⟨fun name coords hl => ?_, fun x hx => ?_⟩
  · unfold replacedEntity at hl
    split at hl
    · rename_i hmarked
      obtain ⟨other, hother, hgives, -⟩ := hf.payload hmarked
      rcases (hw.replace haction d rfl).2 with hnone | ⟨-, -, hno⟩
      · rw [hnone] at hl
        cases hl
      · exact absurd hgives (hno other hother)
    · cases hl
  · rw [replacedEntity_attrs hloc, hf.toSet]
    unfold replacedEntity at hx
    split at hx
    · rename_i hmarked
      obtain ⟨other, hother, hgives, heq⟩ := hf.payload hmarked
      cases hx
      rw [heq]
      exact created_date hp hw hother hgives
    · cases hx

variable {d' : EntityDoc μ}

structure Kept (env : Env μ) (s : History μ) : Prop where
  mirrored : ∀ d ∈ s.doc, Mirrored env d
  given : ∀ d ∈ s.doc, ∀ k ∈ d.attrs.map Prod.fst, k ∈ s.given

theorem Kept.mirrors {s : History μ} (h : Kept env s) : Mirrors env s := by
  refine ⟨fun d hd name coords hl => ?_, fun d hd x hx => ?_, h.given⟩
  · exact ((h.mirrored d hd).location name coords hl).2
  · exact (h.mirrored d hd).expiration x hx

theorem updatedEntity_names {k : Text} (hf : Follows env d r seen u)
    (hk : k ∈ (updatedEntity d u).attrs.map Prod.fst) :
    k ∈ seen.map effectiveName ∨ k ∈ d.attrs.map Prod.fst := by
  obtain ⟨f, hmem, rfl⟩ := mem_map.mp hk
  have hput : f ∈ putAll (attributeFields u.toSet) d.attrs := mem_of_mem_filter hmem
  rcases mem_putAll hput with hset | hold
  · have hkey : f.1 ∈ keys u := by
      refine mem_append_left _ ?_
      rw [← attributeFields_keys]
      exact mem_map_of_mem hset
    obtain ⟨other, hother, heq⟩ := hf.names _ hkey
    exact .inl (mem_map.mpr ⟨other, hother, heq.symm⟩)
  · exact .inr (mem_map_of_mem hold)

theorem createdFields_names (caV : List ContextAttribute) :
    (attributeFields (createdFields env v caV)).map Prod.fst = caV.map effectiveName := by
  rw [attributeFields_keys, createdFields, List.map_map]
  rfl

/-- An update keeps the mirrors, and brings no key but those of its attributes. -/
theorem updateEntity_keeps (hp : Parsed r) (hw : Written env (some d) r) (hm : Mirrored env d)
    (h : d' ∈ updateEntity env d r) : Mirrored env d' ∧ ∀ k ∈ d'.attrs.map Prod.fst,
      k ∈ r.contextAttributeVector.map effectiveName ∨ k ∈ d.attrs.map Prod.fst := by
  have hsame : d' ∈ some d → Mirrored env d' ∧ ∀ k ∈ d'.attrs.map Prod.fst,
      k ∈ r.contextAttributeVector.map effectiveName ∨ k ∈ d.attrs.map Prod.fst := by
    intro h
    cases h
    exact ⟨hm, fun k hk => .inr hk⟩
  unfold updateEntity at h
  split at h
  · cases h
  split at h
  · exact hsame h
  rename_i u hu
  split at h
  · exact hsame h
  split at h
  · rename_i haction
    have hf := vector_replaces hp hw haction hu
    cases h
    refine ⟨replacedEntity_mirrored hp hw haction hf, fun k hk => .inl ?_⟩
    rw [replacedEntity_attrs (hf.no_location hw haction), hf.toSet, createdFields_names] at hk
    exact hk
  · rename_i haction
    have hf := vector_follows hp hw hm haction hu
    split at h
    · rename_i hn
      cases h
      refine ⟨updatedEntity_mirrored hf hn, fun k hk => ?_⟩
      refine (updatedEntity_names hf hk).imp_left fun hseen => ?_
      obtain ⟨other, hother, rfl⟩ := mem_map.mp hseen
      exact mem_map_of_mem (mem_of_mem_filter hother)
    · exact hsame h

theorem createEntity_keeps (hp : Parsed r) (hw : Written env none r)
    (h : d ∈ (createEntity env r.apiVersion r.contextAttributeVector).toOption) :
    Mirrored env d ∧ ∀ k ∈ d.attrs.map Prod.fst,
      k ∈ r.contextAttributeVector.map effectiveName := by
  cases hc : createEntity env r.apiVersion r.contextAttributeVector with
  | error e =>
    rw [hc] at h
    cases h
  | ok created =>
    rw [hc] at h
    cases h
    refine ⟨createEntity_mirrored hp hw hc, fun k hk => ?_⟩
    obtain ⟨loc, x, -, -, rfl⟩ := createEntity_ok hc
    rw [createdFields_names] at hk
    exact hk

theorem step_keeps {s : History μ} (hs : Kept env s) (hp : Parsed r)
    (hw : Written env s.doc r) : Kept env (step env s r) := by
  have hall : ∀ d ∈ (step env s r).doc, Mirrored env d ∧
      ∀ k ∈ d.attrs.map Prod.fst, k ∈ (step env s r).given := by
    intro d hd
    change d ∈ processContextElement env s.doc r at hd
    unfold processContextElement at hd
    split at hd
    · exact ⟨hs.mirrored d hd, fun k hk => mem_append_right _ (hs.given d hd k hk)⟩
    split at hd
    · rename_i stored hdoc
      rw [hdoc] at hw
      have hstored : stored ∈ s.doc := hdoc
      obtain ⟨hm, hkeys⟩ := updateEntity_keeps hp hw (hs.mirrored stored hstored) hd
      refine ⟨hm, fun k hk => mem_append.mpr ((hkeys k hk).imp_right ?_)⟩
      exact hs.given stored hstored k
    · rename_i hdoc
      rw [hdoc] at hw
      split at hd
      · obtain ⟨hm, hkeys⟩ := createEntity_keeps hp hw hd
        exact ⟨hm, fun k hk => mem_append_left _ (hkeys k hk)⟩
      · cases hd
  exact ⟨fun d hd => (hall d hd).1, fun d hd => (hall d hd).2⟩

def someCoords (s : Text) : Option ℚ :=
  if s = "40.4".toList then some (404 / 10)
  else if s = "-3.7".toList then some (-37 / 10)
  else if s = "41".toList then some 41
  else if s = "2".toList then some 2
  else none

def someEnv : Env Unit where
  str2double := someCoords
  parse8601Time := fun _ => none
  ngsiv1Autocast := false
  noMetadata := ()
  customMetadata := fun _ _ => ()
  mergedMetadata := fun _ _ _ => ()
  metadataDiffers := fun _ _ _ => false
  compoundValueDiffers := fun _ _ => true
  noNotifyFalseUpdate := false

def locAt (coords : String) : ContextAttribute :=
  ⟨"loc".toList, "geo:point".toList, true, .string, coords.toList, 0, false, none, []⟩

def speed : ContextAttribute :=
  ⟨"speed".toList, "Number".toList, true, .number, [], 80, false, none, []⟩

def expires : ContextAttribute :=
  ⟨dateExpires, "DateTime".toList, true, .number, [], 1861869600, false, none, []⟩

def named (name : String) : ContextAttribute :=
  ⟨name.toList, [], false, .notGiven, [], 0, false, none, []⟩

def v2 (action : ActionType) (caV : List ContextAttribute) : Request := ⟨.v2, action, false, caV⟩

def bornAtMadrid : Request := v2 .append [speed, locAt "40.4,-3.7", expires]

def travels : List Request :=
  [bornAtMadrid, v2 .update [locAt "41,2"], v2 .delete [named "loc"], v2 .replace [speed, expires]]

instance (name : Text) : Decidable (Plain name) := inferInstanceAs (Decidable (_ ∧ _ ∧ _ ∧ _))

instance (r : Request) : Decidable (Parsed r) :=
  decidable_of_iff
    ((∀ ca ∈ r.contextAttributeVector, Plain ca.name) ∧
      (r.apiVersion = .ngsiLd → ∀ ca ∈ r.contextAttributeVector, isGeoType ca.type = false) ∧
      (∀ ca ∈ r.contextAttributeVector, isGeoType ca.type = true → ca.typeGiven = true) ∧
      ∀ ca ∈ r.contextAttributeVector, ca.compoundValueP.isSome = true →
        ca.valueType ≠ .notGiven)
    ⟨fun ⟨names, ldTypes, typeGiven, valueGiven⟩ => ⟨names, ldTypes, typeGiven, valueGiven⟩,
      fun h => ⟨h.names, h.ldTypes, h.typeGiven, h.valueGiven⟩⟩

/-- A point as a string and a date as a number, without metadata. -/
def Simple (ca : ContextAttribute) : Prop :=
  ca.metadataVector.isEmpty = true ∧ ca.compoundValueP.isNone = true ∧
    (ca.type = "geo:point".toList → ca.valueType = .string) ∧
    (ca.name = dateExpires → ca.numberValue ≠ 0 →
      ca.valueType = .number ∧ dateOf ca.numberValue ≠ 0)

instance (ca : ContextAttribute) : Decidable (Simple ca) :=
  inferInstanceAs (Decidable (_ ∧ _ ∧ _ ∧ _))

theorem simple_written {action : ActionType} (hauto : env.ngsiv1Autocast = false)
    (hsimple : ∀ ca ∈ caV, Simple ca) (hnames : (caV.map ContextAttribute.name).Nodup)
    (hupdate : action = .update → ∀ d ∈ doc, ∀ ca ∈ caV,
    (d.attrs.lookup (dotForEq ca.name)).isSome = true) (hreplace : action = .replace → ∀ d ∈ doc,
    d.location.isNone = true ∧ ∀ ca ∈ caV, getLocation .v2 ca = []) :
    Written env doc (v2 action caV) where
  ids := fun ca hca _ => by
    rw [getMetadataId, isEmpty_iff.mp (hsimple ca hca).1]
    rfl
  alone := (pairwise_map.mp hnames).imp fun hne heq => absurd heq hne
  strings := fun ca hca _ hread _ t => by
    obtain ⟨-, hcompound, htype, -⟩ := hsimple ca hca
    have hpoint := hread.resolve_left (show ApiVersion.v2 ≠ .v1 by decide)
    rw [valueBson, isNone_iff_eq_none.mp hcompound, hauto]
    simp only [bsonAppendAttrValue, htype hpoint]
    rfl
  numbers := fun ca hca hgives => ⟨isNone_iff_eq_none.mp (hsimple ca hca).2.1,
      ((hsimple ca hca).2.2.2 hgives.1 hgives.2).1⟩
  objects := fun d _ _ ca hca _ c hc => by
    rw [isNone_iff_eq_none.mp (hsimple ca hca).2.1] at hc
    cases hc
  update := fun haction d hd ca hca _ => hupdate haction d hd ca hca
  dates := fun _ ca hca hgives => ((hsimple ca hca).2.2.2 hgives.1 hgives.2).2
  noOverwrite := fun _ hno => Bool.noConfusion hno
  replace := fun haction d hd => by
    obtain ⟨hnone, hgeo⟩ := hreplace haction d hd
    exact ⟨hgeo, .inl (isNone_iff_eq_none.mp hnone)⟩

end LocationRuns
