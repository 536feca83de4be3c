import OrionLd.PcheckGeoQ
import OrionLd.OrionldPatchEntity
import OrionLd.AttributeNames

/-! The strings of the cached contexts under the requests that expand names. A name is a string of
the request, or a reference to the id of a context item when the whole name was found as a term.
The context of a request is a cached one. A request that ends in a fault ends the broker with its
cache. -/
namespace ContextStrings

open KjTree KjTreeToContextAttribute PcheckGeoQ OrionldContextItem OrionldPatchEntity

structure CachedItem where
  name : Text
  id : ℕ

/-- The ids are locations of strings, and so is the default URL. -/
structure ContextStore where
  strings : ℕ → Text
  core : List CachedItem
  contexts : List (List CachedItem)
  defaultUrl : ℕ

inductive Name where
  | own (text : Text)
  | cached (id : ℕ)
  deriving DecidableEq, Repr

def Name.text (s : ContextStore) : Name → Text
  | .own text => text
  | .cached id => s.strings id

def ContextStore.items (s : ContextStore) (items : List CachedItem) : List ContextItem :=
  items.map fun item => ⟨item.name, s.strings item.id, none⟩

/-- The contexts that a request with this context sees. -/
def ContextStore.view (s : ContextStore) (contextP : List CachedItem) : Contexts where
  core := s.items s.core
  context := s.items contextP
  defaultUrl := s.strings s.defaultUrl

variable (s : ContextStore) (contextP : List CachedItem)

def orionldContextItemLookup (name : Text) : Option CachedItem :=
  (s.core.find? fun item => item.name == name).or (contextP.find? fun item => item.name == name)

/-- A prefix is expanded into a new string, and so is a name that is not found. -/
def orionldContextItemExpand (shortName : Text) : Name :=
  if ':' ∈ shortName then
    .own (OrionldContextItem.orionldContextPrefixExpand (s.view contextP) shortName)
  else match orionldContextItemLookup s contextP shortName with
    | none => .own (s.strings s.defaultUrl ++ shortName)
    | some item => .cached item.id

def specialNames : List String := ["location", "observationSpace", "operationSpace", "observedAt"]

def orionldAttributeExpand (shortName : Text) : Name :=
  if specialNames.any (fun name => name.toList == shortName) ||
      orionldContextItemAlreadyExpanded shortName then .own shortName
  else orionldContextItemExpand s contextP shortName

def kaStrdup (name : Name) : Name := .own (name.text s)

def edit (replace : Text → Text) : Name → ContextStore
  | .own _ => s
  | .cached id => { s with strings := Function.update s.strings id (replace (s.strings id)) }

/-- Every term of every cached context expands to the same long name. -/
def SameExpansions (s s' : ContextStore) : Prop :=
  ∀ contextP ∈ s.core :: s.contexts, ∀ term,
    (orionldContextItemExpand s' contextP term).text s' =
        (orionldContextItemExpand s contextP term).text s ∧
      (orionldAttributeExpand s' contextP term).text s' =
        (orionldAttributeExpand s contextP term).text s

def geopropertyEdit : Option Text → ContextStore
  | none => s
  | some pName =>
    if pName = "location".toList then s
    else edit s dotForEq (orionldAttributeExpand s contextP pName)

def pcheckGeoQ (env : Env) (members : Members) : Except CheckError ContextStore := do
  let geoQ ← geoQChecks members
  .ok (geopropertyEdit s contextP geoQ.geoproperty)

/-- An array of instances, one of them without a datasetId. -/
def hasDefaultInstance (items : List KjNode) : Bool :=
  items.any fun item => (kjLookup item "datasetId").isNone

def postMember (s : ContextStore) (m : Text × KjNode) : ContextStore :=
  match m.2 with
  | .array items =>
    let attributeName := kaStrdup s (orionldAttributeExpand s contextP m.1)
    let s := edit s dotForEq attributeName
    if hasDefaultInstance items then edit s eqForDot attributeName else s
  | node =>
    if isTimestamp m.1 then s
    else if (kjLookup node "datasetId").isSome then
      edit s dotForEq (kaStrdup s (orionldAttributeExpand s contextP m.1))
    else edit s eqForDot (.own m.1)

def orionldPostEntities (members : Members) : ContextStore := members.foldl (postMember contextP) s

def mergeMember (inDbAttrs : List Name) (m : Text × KjNode) : List Name :=
  match builtInReason m.1 with
  | some _ => inDbAttrs
  | none =>
    match attributeCheck m.2 with
    | .error _ => inDbAttrs
    | .ok _ =>
      let name := orionldAttributeExpand s contextP m.1
      let eqName := dotForEq (name.text s)
      if inDbAttrs.any fun n => n.text s == eqName then
        inDbAttrs.eraseP (fun n => n.text s == eqName) ++ [name]
      else inDbAttrs

/-- The names in the tree that is converted: those of the database, and those of the payload. -/
def mergedNames (e : MongoEntity.Entity) (members : Members) : List Name :=
  members.foldl (mergeMember s contextP) ((mongoCppLegacyEntityLookup e).map fun m => .own m.1)

def orionldPatchEntity (e : MongoEntity.Entity) (members : Members) : ContextStore :=
  (mergedNames s contextP e members).foldl (fun s name => edit s eqForDot name) s

/-- The geoproperty of an accepted geoQ is a term whose id has a dot. -/
def DottedTerm (env : Env) (members : Members) : Prop :=
  ∃ geoQ pName item, geoQChecks members = .ok geoQ ∧ geoQ.geoproperty = some pName ∧
    orionldAttributeExpand s contextP pName = .cached item ∧ '.' ∈ s.strings item

/-- An attribute that takes the place of a stored one is a term whose id has an equal sign. -/
def EqualSignTerm (e : MongoEntity.Entity) (members : Members) : Prop :=
  ∃ item, .cached item ∈ mergedNames s contextP e members ∧ '=' ∈ s.strings item

variable {s s' : ContextStore} {contextP : List CachedItem}

/-- Which item is found does not depend on the strings. -/
theorem attributeExpand_cached {id : ℕ} {name : Text} (hcore : s'.core = s.core)
    (h : orionldAttributeExpand s contextP name = .cached id) :
    orionldAttributeExpand s' contextP name = .cached id := by
  unfold orionldAttributeExpand at h ⊢
  split at h
  · cases h
  rename_i hspecial
  rw [if_neg hspecial]
  unfold orionldContextItemExpand at h ⊢
  by_cases hcolon : ':' ∈ name
  · rw [if_pos hcolon] at h
    cases h
  rw [if_neg hcolon] at h ⊢
  have hlook : orionldContextItemLookup s' contextP name =
      orionldContextItemLookup s contextP name := by
    rw [orionldContextItemLookup, orionldContextItemLookup, hcore]
  rw [hlook]
  cases hitem : orionldContextItemLookup s contextP name with
  | none =>
    rw [hitem] at h
    cases h
  | some item =>
    rw [hitem] at h
    exact h

theorem string_of_sameExpansions {id : ℕ} {name : Text} (hcore : s'.core = s.core)
    (hmem : contextP ∈ s.core :: s.contexts)
    (h : orionldAttributeExpand s contextP name = .cached id) (hsame : SameExpansions s s') :
    s'.strings id = s.strings id := by
  have heq := (hsame contextP hmem name).2
  rw [attributeExpand_cached hcore h, h] at heq
  exact heq

theorem sameExpansions_self (s : ContextStore) : SameExpansions s s :=
  fun _ _ _ => ⟨rfl, rfl⟩

theorem edit_eq_self (replace : Text → Text) {name : Name}
    (h : ∀ id, name = .cached id → replace (s.strings id) = s.strings id) :
    edit s replace name = s := by
  cases name with
  | own text => rfl
  | cached id =>
    rw [edit, h id rfl, Function.update_eq_self]

theorem dotForEq_eq_self_iff (name : Text) : dotForEq name = name ↔ '.' ∉ name := by
  constructor
  · intro h hmem
    exact dot_notMem_dotForEq name (h.symm ▸ hmem)
  · exact dotForEq_of_dotless

theorem special_location (s : ContextStore) (contextP : List CachedItem) :
    orionldAttributeExpand s contextP "location".toList = .own "location".toList := by
  rw [orionldAttributeExpand, if_pos (by decide)]

theorem geoproperty_same_iff (hmem : contextP ∈ s.core :: s.contexts) (geoproperty : Option Text) :
    SameExpansions s (geopropertyEdit s contextP geoproperty) ↔
      ∀ pName item, geoproperty = some pName →
        orionldAttributeExpand s contextP pName = .cached item → '.' ∉ s.strings item := by
  cases geoproperty with
  | none =>
    refine ⟨fun _ pName item h => ?_, fun _ => sameExpansions_self s⟩
    cases h
  | some pName =>
    rw [geopropertyEdit]
    split
    · next hloc =>
      refine ⟨fun _ q item hq hcached => ?_, fun _ => sameExpansions_self s⟩
      rw [← Option.some.inj hq, hloc, special_location] at hcached
      cases hcached
    · constructor
      · intro hsame q item hq hcached
        cases hq
        have hstring := string_of_sameExpansions (by rw [hcached]; rfl) hmem hcached hsame
        apply (dotForEq_eq_self_iff _).mp
        simpa [hcached, edit] using hstring
      · intro h
        rw [edit_eq_self]
        · exact sameExpansions_self s
        · intro item hcached
          exact (dotForEq_eq_self_iff _).mpr (h pName item rfl hcached)

theorem cached_mem_mergeMember {inDbAttrs : List Name} {m : Text × KjNode} {id : ℕ}
    (h : .cached id ∈ mergeMember s contextP inDbAttrs m) :
    .cached id ∈ inDbAttrs ∨ orionldAttributeExpand s contextP m.1 = .cached id := by
  unfold mergeMember at h
  split at h
  · exact .inl h
  split at h
  · exact .inl h
  dsimp only at h
  split at h
  · rcases List.mem_append.mp h with h | h
    · exact .inl (List.mem_of_mem_eraseP h)
    · exact .inr (List.mem_singleton.mp h).symm
  · exact .inl h

theorem cached_mem_fold {members : Members} {inDbAttrs : List Name} {id : ℕ}
    (h : .cached id ∈ members.foldl (mergeMember s contextP) inDbAttrs) :
    .cached id ∈ inDbAttrs ∨ ∃ name, orionldAttributeExpand s contextP name = .cached id := by
  induction members generalizing inDbAttrs with
  | nil => exact .inl h
  | cons m members ih =>
    rcases ih h with h | h
    · rcases cached_mem_mergeMember h with h | h
      · exact .inl h
      · exact .inr ⟨m.1, h⟩
    · exact .inr h

theorem cached_mem_mergedNames {e : MongoEntity.Entity} {members : Members} {id : ℕ}
    (h : .cached id ∈ mergedNames s contextP e members) :
    ∃ name, orionldAttributeExpand s contextP name = .cached id := by
  rcases cached_mem_fold h with h | h
  · simp at h
  · exact h

theorem eqForDot_eqForDot (name : Text) : eqForDot (eqForDot name) = eqForDot name := by
  have h := eqForDot_dotForEq (eqForDot name)
  rw [dotForEq_eqForDot, eqForDot_dotForEq] at h
  exact h.symm

def replacedStrings (s : ContextStore) (names : List Name) : ContextStore :=
  { s with
    strings := fun id => if .cached id ∈ names then eqForDot (s.strings id) else s.strings id }

theorem fold_edit (names : List Name) (s : ContextStore) :
    names.foldl (fun s name => edit s eqForDot name) s = replacedStrings s names := by
  induction names generalizing s with
  | nil => simp [replacedStrings]
  | cons name names ih =>
    rw [List.foldl_cons, ih]
    cases name with
    | own text => simp [edit, replacedStrings]
    | cached id =>
      simp only [edit, replacedStrings, ContextStore.mk.injEq, and_true]
      funext j
      by_cases hj : j = id
      · subst hj
        simp [eqForDot_eqForDot]
      · simp [hj]

theorem patch_same_iff (hmem : contextP ∈ s.core :: s.contexts) (e : MongoEntity.Entity)
    (members : Members) :
    SameExpansions s (orionldPatchEntity s contextP e members) ↔
      ∀ item, .cached item ∈ mergedNames s contextP e members → '=' ∉ s.strings item := by
  rw [orionldPatchEntity, fold_edit]
  constructor
  · intro hsame item hitem
    obtain ⟨name, hname⟩ := cached_mem_mergedNames hitem
    have hcore : (replacedStrings s (mergedNames s contextP e members)).core = s.core := rfl
    have hstring := string_of_sameExpansions hcore hmem hname hsame
    simp only [replacedStrings, hitem, if_true] at hstring
    exact (AttributeNames.eqForDot_eq_self_iff _).mp hstring
  · intro h
    have heq : replacedStrings s (mergedNames s contextP e members) = s := by
      simp only [replacedStrings]
      congr 1
      funext id
      by_cases hid : .cached id ∈ mergedNames s contextP e members
      · rw [if_pos hid]
        exact (AttributeNames.eqForDot_eq_self_iff _).mpr (h id hid)
      · rw [if_neg hid]
    rw [heq]
    exact sameExpansions_self s

theorem post_same (s : ContextStore) (contextP : List CachedItem) (members : Members) :
    orionldPostEntities s contextP members = s := by
  unfold orionldPostEntities
  induction members with
  | nil => rfl
  | cons m members ih =>
    have hmember : postMember contextP s m = s := by
      unfold postMember
      split
      · dsimp only [kaStrdup, edit]
        exact ite_self s
      split
      · rfl
      · exact ite_self s
    rw [List.foldl_cons, hmember]
    exact ih

/-- A geoQ leaves every term its long name unless its geoproperty is a term whose id has a dot, new
attributes always do, and those of a patch do unless one is a term whose id has an equal sign. -/
theorem cached_contexts_kept_iff (s : ContextStore) (contextP : List CachedItem)
    (hmem : contextP ∈ s.core :: s.contexts) (env : Env) (e : MongoEntity.Entity)
    (members : Members) :
    ((∀ s', pcheckGeoQ s contextP env members = .ok s' → SameExpansions s s') ↔
        ¬ DottedTerm s contextP env members) ∧
      SameExpansions s (orionldPostEntities s contextP members) ∧
      (SameExpansions s (orionldPatchEntity s contextP e members) ↔
        ¬ EqualSignTerm s contextP e members) := by
  refine ⟨?_, ?_, ?_⟩
  · unfold pcheckGeoQ DottedTerm
    cases hchecks : geoQChecks members with
    | error err =>
      constructor
      · rintro - ⟨geoQ, pName, item, hok, -⟩
        cases hok
      · intro _ s' hs'
        cases hs'
    | ok geoQ =>
      have hiff := geoproperty_same_iff hmem geoQ.geoproperty
      constructor
      · rintro h ⟨geoQ', pName, item, hok, hname, hcached, hdot⟩
        cases hok
        exact hiff.mp (h _ rfl) pName item hname hcached hdot
      · intro h s' hs'
        cases hs'
        exact hiff.mpr fun pName item hname hcached hdot =>
          h ⟨geoQ, pName, item, rfl, hname, hcached, hdot⟩
  · rw [post_same]
    exact sameExpansions_self s
  · rw [patch_same_iff hmem, EqualSignTerm]
    exact ⟨fun h ⟨item, hitem, heq⟩ => h item hitem heq, fun h item hitem heq =>
      h ⟨item, hitem, heq⟩⟩

def speedContext : List CachedItem := [⟨"speed".toList, 0⟩]

def speedStore (id : String) : ContextStore where
  strings := fun i => if i = 0 then id.toList else "https://uri.etsi.org/ngsi-ld/".toList
  core := []
  contexts := [speedContext]
  defaultUrl := 1

def sampleEnv : Env where
  core := []
  context := []
  defaultUrl := []
  parse8601Time := fun _ => none
  valueAsInteger := fun _ => 0
  integerAsDouble := fun _ => 0
  requestTime := 2

def speedGeoQ (geoproperty : String) : Members :=
  [("geometry".toList, .string "Point".toList),
    ("coordinates".toList, .array [.int 1, .int 2]),
    ("georel".toList, .string "near;maxDistance==10".toList),
    ("geoproperty".toList, .string geoproperty.toList)]

def speedEntity (key : String) : MongoEntity.Entity where
  attrs := [(key.toList, ⟨.property, .num 1, [], [], 1, 1⟩)]
  attrNames := []
  datasets := none

def speedPatch : Members :=
  [("speed".toList, .object [("type".toList, .string "Property".toList), ("value".toList, .int 2)])]

theorem speedContext_cached (id : String) :
    speedContext ∈ (speedStore id).core :: (speedStore id).contexts :=
  List.mem_cons_of_mem _ List.mem_cons_self

theorem speedGeoQ_checks (geoproperty : String) :
    geoQChecks (speedGeoQ geoproperty) =
      .ok ⟨"Point".toList, .point, .array [.int 1, .int 2], "near;maxDistance==10".toList,
        some geoproperty.toList⟩ := by
  rfl

/-- A patch of a term with a dotted id, and a geoQ on location. -/
theorem speed_kept :
    speedContext ∈ (speedStore "https://a.org/speed").core ::
        (speedStore "https://a.org/speed").contexts ∧
      (∀ s', pcheckGeoQ (speedStore "https://a.org/speed") speedContext sampleEnv
          (speedGeoQ "location") = .ok s' → SameExpansions (speedStore "https://a.org/speed") s') ∧
      SameExpansions (speedStore "https://a.org/speed")
        (orionldPatchEntity (speedStore "https://a.org/speed") speedContext
          (speedEntity "https://a=org/speed") speedPatch) := by
  have hmem := speedContext_cached "https://a.org/speed"
  refine ⟨hmem, ?_, ?_⟩
  · refine (cached_contexts_kept_iff _ speedContext hmem sampleEnv
      (speedEntity "https://a=org/speed") (speedGeoQ "location")).1.mpr ?_
    rintro ⟨geoQ, pName, item, hok, hname, hcached, -⟩
    rw [← Except.ok.inj hok, Option.some.injEq] at hname
    rw [← hname, special_location] at hcached
    cases hcached
  · refine (cached_contexts_kept_iff _ speedContext hmem sampleEnv
      (speedEntity "https://a=org/speed") speedPatch).2.2.mpr ?_
    rintro ⟨item, hitem, heq⟩
    have hnames : mergedNames (speedStore "https://a.org/speed") speedContext
        (speedEntity "https://a=org/speed") speedPatch = [.cached 0] := by decide +kernel
    rw [hnames, List.mem_singleton, Name.cached.injEq] at hitem
    subst hitem
    exact absurd heq (by decide +kernel)

/-- A geoQ edits the id of the term it names, and so does the patch of an attribute. -/
theorem cached_ids_edited :
    (∃ s', pcheckGeoQ (speedStore "https://a.org/speed") speedContext sampleEnv
        (speedGeoQ "speed") = .ok s' ∧
      (orionldAttributeExpand s' speedContext "speed".toList).text s' =
        "https://a=org/speed".toList ∧
      ¬ SameExpansions (speedStore "https://a.org/speed") s') ∧
    (orionldAttributeExpand (orionldPatchEntity (speedStore "urn:a=speed") speedContext
        (speedEntity "urn:a=speed") speedPatch) speedContext "speed".toList).text
          (orionldPatchEntity (speedStore "urn:a=speed") speedContext
            (speedEntity "urn:a=speed") speedPatch) = "urn:a.speed".toList ∧
    ¬ SameExpansions (speedStore "urn:a=speed") (orionldPatchEntity (speedStore "urn:a=speed")
        speedContext (speedEntity "urn:a=speed") speedPatch) := by
  refine ⟨⟨geopropertyEdit (speedStore "https://a.org/speed") speedContext (some "speed".toList),
    by rw [pcheckGeoQ, speedGeoQ_checks]; rfl, by decide +kernel, ?_⟩, by decide +kernel, ?_⟩
  · intro hsame
    exact absurd (hsame speedContext (speedContext_cached _) "speed".toList).2 (by decide +kernel)
  · intro hsame
    exact absurd (hsame speedContext (speedContext_cached _) "speed".toList).2 (by decide +kernel)

end ContextStrings
