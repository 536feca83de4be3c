import OrionLd.MongoCommonUpdate

/-! The location and the expiration date of an entity as mirrors of its attributes. One invariant of
the document says what they mirror, another follows the update through the attributes of a request.
-/
namespace LocationMirror

open MongoQuery (Bson)
open KjTree FieldList MongoLocation MongoCommonUpdate Fallible

variable {μ : Type} (env : Env μ)

def pointOf : Bson → Option GeoJson
  | .str s => (string2coords env.toNumbers s).map fun c => geometry "Point" (position c)
  | _ => none

def storedCoords : List Bson → Option (List (ℚ × ℚ))
  | [] => some []
  | .str s :: items => do
    let c ← string2coords env.toNumbers s
    let cs ← storedCoords items
    some (c :: cs)
  | _ :: _ => none

def geoJsonOf (type : Text) (value : Bson) : Option GeoJson :=
  if type = "geo:point".toList then pointOf env value
  else if type = "geo:json".toList then
    match value with
    | .obj fields => some fields
    | _ => none
  else match value with
    | .arr items => (storedCoords env items).bind fun coords => (shape type coords).toOption
    | _ => none

/-- NGSIv1 takes every location for a point. -/
def IsGeoJsonOf (a : StoredAttribute μ) (coords : GeoJson) : Prop :=
  ∃ value, a.value = some value ∧
    (geoJsonOf env (a.type.getD []) value = some coords ∨ pointOf env value = some coords)

def ExpiresAt (a : StoredAttribute μ) (d : ℤ) : Prop :=
  ∃ x, a.value = some (.num x) ∧ dateOf x = d

structure Mirrors (s : History μ) : Prop where
  location : ∀ d ∈ s.doc, ∀ name coords, d.location = some (name, coords) →
    ∃ a, d.attrs.lookup (dotForEq name) = some (.attribute a) ∧ IsGeoJsonOf env a coords
  expiration : ∀ d ∈ s.doc, ∀ x, d.expDate = some x →
    ∃ a, d.attrs.lookup dateExpires = some (.attribute a) ∧ ExpiresAt a x
  given : ∀ d ∈ s.doc, ∀ k ∈ d.attrs.map Prod.fst, k ∈ s.given

def locAttr (doc : Option (EntityDoc μ)) : Text :=
  ((doc.bind EntityDoc.location).map Prod.fst).getD []

/-- The attribute gives a location, in NGSIv1 also when it only updates the location attribute. -/
def Locates (doc : Option (EntityDoc μ)) (r : Request) (ca : ContextAttribute) : Prop :=
  getLocation r.apiVersion ca ≠ [] ∨
    r.apiVersion = .v1 ∧ r.action = .update ∧ ca.name = locAttr doc

def GivesDate (ca : ContextAttribute) : Prop := ca.name = dateExpires ∧ ca.numberValue ≠ 0

def Special (doc : Option (EntityDoc μ)) (r : Request) (ca : ContextAttribute) : Prop :=
  Locates doc r ca ∨ GivesDate ca

def readsString (v : ApiVersion) (ca : ContextAttribute) : Prop :=
  v = .v1 ∨ ca.type = "geo:point".toList

def Plain (name : Text) : Prop := name ≠ [] ∧ '=' ∉ name ∧ '(' ∉ name ∧ name.length ≤ 511

structure Parsed (r : Request) : Prop where
  names : ∀ ca ∈ r.contextAttributeVector, Plain ca.name
  ldTypes : r.apiVersion = .ngsiLd → ∀ ca ∈ r.contextAttributeVector, isGeoType ca.type = false
  typeGiven : ∀ ca ∈ r.contextAttributeVector, isGeoType ca.type = true → ca.typeGiven = true
  valueGiven : ∀ ca ∈ r.contextAttributeVector, ca.compoundValueP.isSome = true →
    ca.valueType ≠ .notGiven

/-- They are made of values stored as they are read, under names without an ID, of attributes that
the request writes. -/
structure Written (doc : Option (EntityDoc μ)) (r : Request) : Prop where
  ids : ∀ ca ∈ r.contextAttributeVector, Special doc r ca → getMetadataId ca = none
  alone : r.contextAttributeVector.Pairwise fun a b =>
    a.name = b.name → ¬ Special doc r a ∧ ¬ Special doc r b
  strings : ∀ ca ∈ r.contextAttributeVector, Locates doc r ca → readsString r.apiVersion ca →
    (string2coords env.toNumbers ca.stringValue).isSome = true →
    ∀ t, valueBson env.toNumbers r.apiVersion t ca = some (.str ca.stringValue)
  numbers : ∀ ca ∈ r.contextAttributeVector, GivesDate ca →
    ca.compoundValueP = none ∧ ca.valueType = .number
  objects : ∀ d ∈ doc, d.location ≠ none → ∀ ca ∈ r.contextAttributeVector,
    ca.type = "geo:json".toList → ∀ c, ca.compoundValueP = some (.object c) → c ≠ []
  update : r.action = .update → ∀ d ∈ doc, ∀ ca ∈ r.contextAttributeVector, Special doc r ca →
    (d.attrs.lookup (dotForEq ca.name)).isSome = true
  dates : r.action = .update → ∀ ca ∈ r.contextAttributeVector, GivesDate ca →
    dateOf ca.numberValue ≠ 0
  noOverwrite : r.action = .append ∨ r.action = .appendStrict → r.noOverwrite = true →
    ∀ d ∈ doc, ∀ ca ∈ r.contextAttributeVector, skip d r ca = false → Special doc r ca →
      d.attrs.lookup (dotForEq ca.name) = none
  replace : r.action = .replace → ∀ d ∈ doc,
    (∀ ca ∈ r.contextAttributeVector, getLocation r.apiVersion ca = []) ∧
      (d.location = none ∨
        r.apiVersion ≠ .v1 ∧ locAttr doc ∈ r.contextAttributeVector.map ContextAttribute.name ∧
          ∀ ca ∈ r.contextAttributeVector, ¬ GivesDate ca)

theorem dotForEq_injective {a b : Text} (ha : '=' ∉ a) (hb : '=' ∉ b)
    (h : dotForEq a = dotForEq b) : a = b := by
  have hback : ∀ t : Text, '=' ∉ t → eqForDot (dotForEq t) = t := by
    intro t ht
    rw [eqForDot_dotForEq]
    refine (List.map_congr_left fun c hc => ?_).trans (List.map_id t)
    have hne : c ≠ '=' := fun e => ht (e ▸ hc)
    exact if_neg hne
  rw [← hback a ha, h, hback b hb]

theorem paren_notMem_dotForEq {a : Text} (h : '(' ∉ a) : '(' ∉ dotForEq a := by
  intro hmem
  obtain ⟨c, hc, heq⟩ := List.mem_map.mp hmem
  by_cases hdot : c = '.'
  · rw [hdot] at heq
    exact absurd heq (by decide)
  · rw [if_neg hdot] at heq
    exact h (heq ▸ hc)

theorem effectiveName_eq {ca : ContextAttribute} (hname : Plain ca.name)
    (h : getMetadataId ca = none) : effectiveName ca = dotForEq ca.name := by
  rw [effectiveName, h]
  exact fieldName_eq hname.2.2.2

theorem name_of_effectiveName {ca : ContextAttribute} {name : Text}
    (hca : Plain ca.name) (hname : Plain name)
    (h : effectiveName ca = dotForEq name) : ca.name = name := by
  unfold effectiveName at h
  split at h
  · exact dotForEq_injective hca.2.1 hname.2.1 ((fieldName_eq hca.2.2.2).symm.trans h)
  have hmem : '(' ∈ dotForEq name := by
    rw [← h]
    simp
  exact absurd hmem (paren_notMem_dotForEq hname.2.2.1)

variable {env : Env μ} {v : ApiVersion} {ca : ContextAttribute} {g : GeoJson}

theorem pointGeoJson_ok {s : Text} (h : pointGeoJson env.toNumbers s = .ok g) :
    pointOf env (.str s) = some g ∧ g ≠ [] ∧ (string2coords env.toNumbers s).isSome = true := by
  unfold pointGeoJson at h
  split at h
  · rename_i c hc
    cases h
    refine ⟨?_, List.cons_ne_nil _ _, ?_⟩
    · rw [pointOf, hc]
      rfl
    · rw [hc]
      rfl
  · cases h

theorem storedCoords_eq {items : List CompoundValueNode} {coords : List (ℚ × ℚ)}
    (h : stringArray2coords env.toNumbers items = .ok coords) :
    storedCoords env (compoundValueBsonItems items) = some coords := by
  induction items generalizing coords with
  | nil =>
    cases h
    rfl
  | cons item items ih =>
    cases item with
    | string s =>
      rw [stringArray2coords] at h
      split at h
      · rename_i c hc
        obtain ⟨cs, hcs, h⟩ := bind_ok h
        cases h
        rw [compoundValueBsonItems, compoundValueBson, storedCoords, hc, ih hcs]
        rfl
      · cases h
    | _ => cases h

theorem shape_ne_nil {type : Text} {coords : List (ℚ × ℚ)} (h : shape type coords = .ok g) :
    g ≠ [] := by
  unfold shape at h
  split at h
  · split at h
    · split at h
      · cases h
        exact List.cons_ne_nil _ _
      · cases h
    · cases h
  · split at h
    · split at h
      · cases h
      · cases h
        exact List.cons_ne_nil _ _
    · split at h
      · split at h
        · cases h
        split at h
        · cases h
        · cases h
          exact List.cons_ne_nil _ _
      · cases h

theorem getGeoJson_stored (h : getGeoJson env.toNumbers v ca = .ok g)
    (hs : readsString v ca → (string2coords env.toNumbers ca.stringValue).isSome = true →
      ∀ t, valueBson env.toNumbers v t ca = some (.str ca.stringValue)) :
    (∃ value, (∀ t, valueBson env.toNumbers v t ca = some value) ∧ value ≠ .str [] ∧
      (¬ readsString v ca ∧ geoJsonOf env ca.type value = some g ∨
        pointOf env value = some g)) ∧
      (g = [] → ca.type = "geo:json".toList ∧ ca.compoundValueP = some (.object [])) := by
  unfold getGeoJson at h
  by_cases hread : readsString v ca
  · rw [if_pos (show v = .v1 ∨ ca.type = "geo:point".toList from hread)] at h
    obtain ⟨hpoint, hne, hsome⟩ := pointGeoJson_ok h
    refine ⟨⟨.str ca.stringValue, hs hread hsome, ?_, .inr hpoint⟩, fun hnil => absurd hnil hne⟩
    intro heq
    rw [Bson.str.inj heq] at hsome
    cases hsome
  · rw [if_neg (show ¬ (v = .v1 ∨ ca.type = "geo:point".toList) from hread)] at h
    have hpoint : ca.type ≠ "geo:point".toList := fun heq => hread (.inr heq)
    split at h
    · next hjson =>
      split at h
      · rename_i members hcompound
        cases h
        refine ⟨⟨compoundValueBson (.object members), ?_, ?_, .inl ⟨hread, ?_⟩⟩, ?_⟩
        · intro t
          rw [valueBson, hcompound]
        · rw [compoundValueBson]
          exact Bson.noConfusion
        · rw [compoundValueBson, geoJsonOf, if_neg hpoint, if_pos hjson]
        · intro hnil
          refine ⟨hjson, ?_⟩
          cases members with
          | nil => exact hcompound
          | cons m members =>
            cases hnil
      · cases h
    · next hjson =>
      split at h
      · rename_i items hcompound
        obtain ⟨coords, hcoords, hshape⟩ := bind_ok h
        refine ⟨⟨compoundValueBson (.vector items), ?_, ?_, .inl ⟨hread, ?_⟩⟩,
          fun hnil => absurd hnil (shape_ne_nil hshape)⟩
        · intro t
          rw [valueBson, hcompound]
        · rw [compoundValueBson]
          exact Bson.noConfusion
        · rw [compoundValueBson, geoJsonOf, if_neg hpoint, if_neg hjson, storedCoords_eq hcoords,
            Option.bind_some, hshape]
          rfl
      · cases h

end LocationMirror
