import OrionLd.OrionldContextItem

/-! The names of attributes on their way to the database and back. A long name is made of a text of
the context and a text of the payload, and only the second is checked. In attrs and md the key is
made in a buffer, in @datasets it is a copy of the long name. -/
namespace AttributeNames

open KjTree OrionldContextItem List

def invalidInName : List Char := "=[]&?\"'\x08\t\n# ".toList

def pcheckName (name : Text) : Bool := name.all fun c => !invalidInName.contains c

/-- The names whose characters pcheckEntity does not look at. -/
def uncheckedNames : List String :=
  ["location", "observationSpace", "operationSpace", "createdAt", "modifiedAt", "@context"]

def pcheckEntityName (name : Text) : Bool :=
  uncheckedNames.any (fun special => special.toList == name) || pcheckName name

def longName (c : Contexts) (name : Text) : Text := (orionldAttributeExpand c name).1

def databaseKey (c : Contexts) (name : Text) : Text := dotForEq (longName c name)

/-- The room is 511 for an attribute and 255 for a sub-attribute, and the byte behind it is taken
to end the key. -/
def effectiveName (room : ℕ) (c : Contexts) (name : Text) : Text :=
  dotForEq ((longName c name).take room)

def returnedName (key : Text) : Text := eqForDot key

def prefixParts (c : Contexts) (name : Text) : Text × Text :=
  if "urn:".toList.isPrefixOf name then ([], name)
  else
    let rest := name.dropWhile (· ≠ ':')
    if "://".toList.isPrefixOf rest then ([], name)
    else match orionldContextItemLookup c (name.takeWhile (· ≠ ':')) with
      | some item => (item.id, rest.tail)
      | none => ([], name)

def itemParts (c : Contexts) (name : Text) : Text × Text :=
  if ':' ∈ name then prefixParts c name
  else match orionldContextItemLookup c name with
    | none => (c.defaultUrl, name)
    | some item => (item.id, [])

/-- What the expansion takes from the context, and what it keeps of the name. -/
def expansionParts (c : Contexts) (name : Text) : Text × Text :=
  if ["location", "observationSpace", "operationSpace", "observedAt"].any
      (fun special => special.toList == name) || orionldContextItemAlreadyExpanded name then
    ([], name)
  else itemParts c name

def contextPart (c : Contexts) (name : Text) : Text := (expansionParts c name).1
def namePart (c : Contexts) (name : Text) : Text := (expansionParts c name).2

theorem prefix_expand_parts (c : Contexts) (name : Text) :
    orionldContextPrefixExpand c name = (prefixParts c name).1 ++ (prefixParts c name).2 := by
  unfold orionldContextPrefixExpand prefixParts
  by_cases hurn : "urn:".toList.isPrefixOf name = true
  · simp only [hurn, if_true, nil_append]
  by_cases hscheme : "://".toList.isPrefixOf (name.dropWhile (· ≠ ':')) = true
  · simp only [hurn, hscheme]
    simp
  · simp only [hurn, hscheme]
    cases orionldContextItemLookup c (name.takeWhile (· ≠ ':')) <;> simp

theorem item_expand_parts (c : Contexts) (name : Text) :
    (orionldContextItemExpand c name).1 = (itemParts c name).1 ++ (itemParts c name).2 := by
  unfold orionldContextItemExpand itemParts
  by_cases hcolon : ':' ∈ name
  · simp only [hcolon, if_true]
    exact prefix_expand_parts c name
  · simp only [hcolon, if_false]
    cases orionldContextItemLookup c name <;> simp

theorem longName_eq_parts (c : Contexts) (name : Text) :
    longName c name = contextPart c name ++ namePart c name := by
  unfold longName orionldAttributeExpand expandUnless contextPart namePart expansionParts
  split
  · simp
  · exact item_expand_parts c name

theorem namePart_sublist (c : Contexts) (name : Text) : (namePart c name).Sublist name := by
  unfold namePart expansionParts
  split
  · exact List.Sublist.refl name
  unfold itemParts
  split
  · unfold prefixParts
    split
    · exact List.Sublist.refl name
    dsimp only
    split
    · exact List.Sublist.refl name
    split
    · exact (tail_sublist _).trans (dropWhile_sublist _)
    · exact List.Sublist.refl name
  · split
    · exact List.Sublist.refl name
    · exact nil_sublist name

theorem eq_notMem_of_pcheckEntityName {name : Text} (h : pcheckEntityName name = true) :
    '=' ∉ name := by
  intro hmem
  rw [pcheckEntityName, Bool.or_eq_true] at h
  rcases h with h | h
  · obtain ⟨special, hspecial, heq⟩ := any_eq_true.mp h
    rw [beq_iff_eq] at heq
    subst heq
    have hnone : ∀ s ∈ uncheckedNames, '=' ∉ s.toList := by decide
    exact hnone special hspecial hmem
  · have hinvalid : (!invalidInName.contains '=') = true := all_eq_true.mp h '=' hmem
    exact absurd hinvalid (by decide)

theorem eqForDot_eq_self_iff (name : Text) : eqForDot name = name ↔ '=' ∉ name := by
  constructor
  · intro h hmem
    have hdot : '=' ∉ eqForDot name := by
      intro hm
      obtain ⟨c, -, hc⟩ := mem_map.mp hm
      by_cases e : c = '=' <;> simp [e] at hc
    exact hdot (h.symm ▸ hmem)
  · intro h
    refine (map_congr_left fun c hc => ?_).trans (map_id name)
    have hne : c ≠ '=' := fun e => h (e ▸ hc)
    exact if_neg hne

theorem key_decodes_iff (name : Text) : eqForDot (dotForEq name) = name ↔ '=' ∉ name := by
  rw [eqForDot_dotForEq]
  exact eqForDot_eq_self_iff name

/-- The buffer has room for the long name, and no part of it holds an equal sign. -/
def Storable (room : ℕ) (c : Contexts) (name : Text) : Prop :=
  (longName c name).length ≤ room ∧ '=' ∉ contextPart c name ∧ '=' ∉ namePart c name

theorem effectiveName_decodes_iff (room : ℕ) (c : Contexts) (name : Text) :
    returnedName (effectiveName room c name) = longName c name ↔ Storable room c name := by
  rw [Storable, ← not_or, ← mem_append, ← longName_eq_parts, returnedName, effectiveName]
  constructor
  · intro h
    have hlength := congrArg length h
    rw [eqForDot, dotForEq, length_map, length_map, length_take] at hlength
    have hfits : (longName c name).length ≤ room := hlength ▸ min_le_left _ _
    rw [take_of_length_le hfits] at h
    exact ⟨hfits, (key_decodes_iff _).mp h⟩
  · rintro ⟨hfits, heq⟩
    rw [take_of_length_le hfits]
    exact (key_decodes_iff _).mpr heq

/-- A key is decoded to the long name of its attribute exactly when that name is storable. A name
that pcheckEntity has accepted never brings an equal sign. -/
theorem name_survives_storage_iff (room : ℕ) (c : Contexts) (name : Text) :
    (returnedName (effectiveName room c name) = longName c name ↔ Storable room c name) ∧
      (pcheckEntityName name = true →
        (returnedName (effectiveName room c name) = longName c name ↔
          (longName c name).length ≤ room ∧ '=' ∉ contextPart c name)) ∧
      (Storable room c name → ∀ c' name', Storable room c' name' →
        effectiveName room c name = effectiveName room c' name' →
          longName c name = longName c' name') := by
  refine ⟨effectiveName_decodes_iff room c name, ?_, ?_⟩
  · intro haccepted
    have hname : '=' ∉ namePart c name := fun hmem =>
      eq_notMem_of_pcheckEntityName haccepted ((namePart_sublist c name).subset hmem)
    rw [effectiveName_decodes_iff]
    exact and_congr_right fun _ => and_iff_left hname
  · intro hstorable c' name' hstorable' hkey
    rw [← (effectiveName_decodes_iff room c name).mpr hstorable, hkey,
      (effectiveName_decodes_iff room c' name').mpr hstorable']

def queryContext : Contexts where
  core := []
  context := [⟨"speed".toList, "https://a.org/v?p=1".toList, none⟩,
    ⟨"velocity".toList, "https://a.org/v?p.1".toList, none⟩]
  defaultUrl := "https://uri.etsi.org/ngsi-ld/default-context/".toList

theorem velocity_survives_storage :
    pcheckEntityName "velocity".toList = true ∧
      returnedName (effectiveName 511 queryContext "velocity".toList) =
        longName queryContext "velocity".toList :=
  ⟨by decide +kernel, ((name_survives_storage_iff 511 queryContext "velocity".toList).2.1
    (by decide +kernel)).mpr (by decide +kernel)⟩

/-- Two terms of one context are stored under one key, and one is returned as the other. -/
theorem two_names_one_key :
    pcheckEntityName "speed".toList = true ∧ pcheckEntityName "velocity".toList = true ∧
      longName queryContext "speed".toList ≠ longName queryContext "velocity".toList ∧
      effectiveName 511 queryContext "speed".toList =
        effectiveName 511 queryContext "velocity".toList ∧
      returnedName (effectiveName 511 queryContext "speed".toList) ≠
        longName queryContext "speed".toList := by
  decide +kernel

end AttributeNames
