import OrionLd.OrionldContextItem

/-! Contexts as orionldContextFromTree builds them: key-value tables and arrays of contexts. A
lookup walks the arrays in order, the core context first; the tables belong to the khash library. -/
namespace OrionldContextTree

open KjTree (Text)
open OrionldContextItem (ContextItem)

/-- A lookup gives an item of the table with that key, and finds one whenever the table has one. -/
structure KHash where
  khashItemLookup : (ContextItem → Text) → List ContextItem → Text → Option ContextItem
  found : ∀ {key items k item}, khashItemLookup key items k = some item →
    item ∈ items ∧ key item = k
  complete : ∀ {key items item}, item ∈ items →
    (khashItemLookup key items (key item)).isSome

/-- A NULL pointer is what a context of an array becomes when it cannot be downloaded. -/
inductive OrionldContext where
  | null
  | keyValues (items : List ContextItem)
  | array (vector : List OrionldContext)

mutual
def hasNull : OrionldContext → Bool
  | .null => true
  | .keyValues _ => false
  | .array vector => hasNullItem vector
def hasNullItem : List OrionldContext → Bool
  | [] => false
  | ctx :: vector => hasNull ctx || hasNullItem vector
end

mutual
def lookupIn (table : List ContextItem → Option ContextItem) (atNull : Option ContextItem) :
    OrionldContext → Option ContextItem
  | .null => atNull
  | .keyValues items => table items
  | .array vector => lookupInArray table atNull vector
def lookupInArray (table : List ContextItem → Option ContextItem)
    (atNull : Option ContextItem) : List OrionldContext → Option ContextItem
  | [] => none
  | ctx :: vector => (lookupIn table atNull ctx).or (lookupInArray table atNull vector)
end

/-- A NULL in the core context itself would send the lookup of a name round without end. -/
structure Contexts where
  khash : KHash
  core : OrionldContext
  core_hasNull : hasNull core = false
  context : OrionldContext
  defaultUrl : Text

/-- A NULL context stands for the core context here, but not in the lookup of a value. -/
def orionldContextItemLookup (c : Contexts) (ctx : OrionldContext) (name : Text) :
    Option ContextItem :=
  let table := fun items => c.khash.khashItemLookup ContextItem.name items name
  lookupIn table (lookupIn table none c.core) ctx

def orionldContextItemValueLookup (c : Contexts) (ctx : OrionldContext) (longName : Text) :
    Option ContextItem :=
  lookupIn (fun items => c.khash.khashItemLookup ContextItem.id items longName) none ctx

def termLookup (c : Contexts) (name : Text) : Option ContextItem :=
  (orionldContextItemLookup c c.core name).or (orionldContextItemLookup c c.context name)

def valueLookup (c : Contexts) (longName : Text) : Option ContextItem :=
  (orionldContextItemValueLookup c c.core longName).or
    (orionldContextItemValueLookup c c.context longName)

def isUri (str : Text) : Bool :=
  "urn:".toList.isPrefixOf str || "://".toList.isPrefixOf (str.dropWhile (· ≠ ':'))

def orionldContextPrefixExpand (c : Contexts) (str : Text) : Text :=
  if isUri str then str
  else match termLookup c (str.takeWhile (· ≠ ':')) with
    | some item => item.id ++ (str.dropWhile (· ≠ ':')).tail
    | none => str

def orionldContextItemExpand (c : Contexts) (shortName : Text) : Text :=
  if ':' ∈ shortName then orionldContextPrefixExpand c shortName
  else match termLookup c shortName with
    | some item => item.id
    | none => c.defaultUrl ++ shortName

def orionldContextItemAliasLookup (c : Contexts) (longName : Text) : Text :=
  if c.defaultUrl.isPrefixOf longName then longName.drop c.defaultUrl.length
  else match valueLookup c longName with
    | some item => item.name
    | none => longName

/-! What the lookups find. -/

variable {table table' : List ContextItem → Option ContextItem} {atNull' : Option ContextItem}

mutual
theorem lookupIn_isSome {item : ContextItem}
    (ht : ∀ items, table items = some item → (table' items).isSome) :
    ∀ ctx, lookupIn table none ctx = some item → (lookupIn table' atNull' ctx).isSome
  | .null, h => nomatch h
  | .keyValues items, h => ht items h
  | .array vector, h => lookupInArray_isSome ht vector h
theorem lookupInArray_isSome {item : ContextItem}
    (ht : ∀ items, table items = some item → (table' items).isSome) :
    ∀ vector, lookupInArray table none vector = some item →
      (lookupInArray table' atNull' vector).isSome
  | [], h => nomatch h
  | ctx :: vector, h => by
    rw [lookupInArray, Option.or_eq_some_iff] at h
    rw [lookupInArray, Option.isSome_or, Bool.or_eq_true]
    rcases h with h | ⟨-, h⟩
    · exact Or.inl (lookupIn_isSome ht ctx h)
    · exact Or.inr (lookupInArray_isSome ht vector h)
end

variable {c : Contexts} {ctx : OrionldContext} {name longName : Text}
  {item : ContextItem}

theorem termLookup_isSome (h : valueLookup c longName = some item) :
    (termLookup c item.name).isSome := by
  have inOne : ∀ ctx, orionldContextItemValueLookup c ctx longName = some item →
      (orionldContextItemLookup c ctx item.name).isSome := by
    intro ctx hctx
    apply lookupIn_isSome (fun items hi => ?_) ctx hctx
    exact c.khash.complete (c.khash.found hi).1
  rw [valueLookup, Option.or_eq_some_iff] at h
  rw [termLookup, Option.isSome_or, Bool.or_eq_true]
  rcases h with h | ⟨-, h⟩
  · exact .inl (inOne _ h)
  · exact .inr (inOne _ h)

/-! When a name stands for a long name. -/

def Unshadowed (c : Contexts) (name longName : Text) : Prop :=
  ∀ item ∈ termLookup c name, item.id = longName

def NotPrefixed (c : Contexts) (longName : Text) : Prop :=
  isUri longName = true ∨
    Unshadowed c (longName.takeWhile (· ≠ ':')) (longName.takeWhile (· ≠ ':') ++ [':'])

def PrefixedAs (c : Contexts) (name longName : Text) : Prop :=
  isUri name = false ∧ ∃ item ∈ termLookup c (name.takeWhile (· ≠ ':')),
    item.id ++ (name.dropWhile (· ≠ ':')).tail = longName

def StandsFor (c : Contexts) (name longName : Text) : Prop :=
  if ':' ∈ name then name = longName ∧ NotPrefixed c longName ∨ PrefixedAs c name longName
  else Unshadowed c name longName

def Unambiguous (c : Contexts) (longName : Text) : Prop :=
  if c.defaultUrl.isPrefixOf longName then
    StandsFor c (longName.drop c.defaultUrl.length) longName
  else match valueLookup c longName with
    | some item => StandsFor c item.name longName
    | none => NotPrefixed c longName

def isAbsolute (longName : Text) : Prop :=
  "://".toList <:+: longName ∨ "urn:".toList <+: longName

instance : Decidable (isAbsolute longName) := inferInstanceAs (Decidable (_ ∨ _))

theorem colon_mem_of_isAbsolute (h : isAbsolute longName) : ':' ∈ longName := by
  rcases h with h | h
  · exact h.subset (by decide)
  · exact h.subset (by decide)

theorem takeWhile_colon (h : ':' ∈ name) :
    name.takeWhile (· ≠ ':') ++ ':' :: (name.dropWhile (· ≠ ':')).tail = name := by
  obtain ⟨rest, hr⟩ : ∃ rest, name.dropWhile (· ≠ ':') = ':' :: rest := by
    induction name with
    | nil => exact absurd h (by simp)
    | cons x name ih =>
      by_cases hx : x = ':'
      · exact ⟨name, by simp [hx]⟩
      · have hm : ':' ∈ name := (List.mem_cons.mp h).resolve_left (Ne.symm hx)
        simpa [hx] using ih hm
  have split := List.takeWhile_append_dropWhile (p := (· ≠ ':')) (l := name)
  rw [hr] at split ⊢
  exact split

/-- A compact name expands to itself exactly when its prefix is no term of another id. -/
theorem prefixExpand_self (h : ':' ∈ longName) :
    orionldContextPrefixExpand c longName = longName ↔ NotPrefixed c longName := by
  unfold orionldContextPrefixExpand NotPrefixed Unshadowed
  by_cases hu : isUri longName = true
  · simp [hu]
  rw [if_neg hu, or_iff_right hu]
  rcases ht : termLookup c (longName.takeWhile (· ≠ ':')) with _ | item
  · simp
  have split := takeWhile_colon h
  constructor
  · intro he other ho
    cases ho
    have he : item.id ++ (longName.dropWhile (· ≠ ':')).tail =
        (longName.takeWhile (· ≠ ':') ++ [':']) ++ (longName.dropWhile (· ≠ ':')).tail := by
      rw [List.append_assoc]
      exact he.trans split.symm
    exact List.append_cancel_right he
  · intro hp
    show item.id ++ (longName.dropWhile (· ≠ ':')).tail = longName
    rw [hp item rfl, List.append_assoc]
    exact split

theorem prefixExpand_iff (h : ':' ∈ name) :
    orionldContextPrefixExpand c name = longName ↔
      name = longName ∧ NotPrefixed c longName ∨ PrefixedAs c name longName := by
  by_cases hn : name = longName
  · subst hn
    rw [prefixExpand_self h]
    constructor
    · exact fun hp => .inl ⟨rfl, hp⟩
    · rintro (⟨-, hp⟩ | ⟨hu, item, ht, he⟩)
      · exact hp
      · rw [← prefixExpand_self h, orionldContextPrefixExpand, if_neg (by simp [hu]), ht]
        exact he
  · simp only [hn, false_and, false_or, PrefixedAs, orionldContextPrefixExpand]
    by_cases hu : isUri name = true
    · simp [hu, hn]
    rcases ht : termLookup c (name.takeWhile (· ≠ ':')) with _ | item
    · simp [hu, hn]
    · simp [hu]

theorem expand_iff (h : ':' ∉ name)
    (hd : termLookup c name = none → c.defaultUrl ++ name = longName) :
    orionldContextItemExpand c name = longName ↔ Unshadowed c name longName := by
  unfold orionldContextItemExpand Unshadowed
  rw [if_neg h]
  rcases ht : termLookup c name with _ | item
  · simpa using hd ht
  · simp

theorem standsFor_iff (hd : ':' ∉ name → termLookup c name = none →
    c.defaultUrl ++ name = longName) :
    orionldContextItemExpand c name = longName ↔ StandsFor c name longName := by
  unfold StandsFor
  by_cases h : ':' ∈ name
  · rw [if_pos h, orionldContextItemExpand, if_pos h]
    exact prefixExpand_iff h
  · rw [if_neg h]
    exact expand_iff h (hd h)

/-- The alias of an absolute name expands to the name again if and only if what the alias stands for
is that name and nothing else. -/
theorem alias_expands_back (c : Contexts) (longName : Text) (h : isAbsolute longName) :
    orionldContextItemExpand c (orionldContextItemAliasLookup c longName) = longName ↔
      Unambiguous c longName := by
  unfold orionldContextItemAliasLookup Unambiguous
  by_cases hu : c.defaultUrl.isPrefixOf longName = true
  · rw [if_pos hu, if_pos hu]
    apply standsFor_iff
    -- without a term of that name the default URL is put back
    intro _ _
    obtain ⟨rest, hr⟩ := List.isPrefixOf_iff_prefix.mp hu
    rw [← hr, List.drop_left]
  · rw [if_neg hu, if_neg hu]
    rcases hv : valueLookup c longName with _ | item
    · have hc := colon_mem_of_isAbsolute h
      rw [orionldContextItemExpand, if_pos hc]
      exact prefixExpand_self hc
    apply standsFor_iff
    intro _ hn
    exact absurd (termLookup_isSome hv) (by simp [hn])

/-! Tables that find their first item. -/

def firstItem : KHash where
  khashItemLookup key items k := items.find? fun item => key item == k
  found h := ⟨List.mem_of_find?_eq_some h, by simpa using List.find?_some h⟩
  complete h := by
    rw [List.find?_isSome]
    exact ⟨_, h, by simp⟩

def defaultContextUrl : Text := "https://uri.etsi.org/ngsi-ld/default-context/".toList

def vocabContext : OrionldContext :=
  .keyValues [⟨"@vocab".toList, defaultContextUrl, none⟩]

theorem hasNull_vocabContext : hasNull vocabContext = false := rfl

def platesContext : Contexts where
  khash := firstItem
  core := vocabContext
  core_hasNull := hasNull_vocabContext
  context := .array [.null, .keyValues [⟨"P".toList, "http://a.org/P".toList, none⟩]]
  defaultUrl := defaultContextUrl

theorem alias_of_defined_term :
    isAbsolute "http://a.org/P".toList ∧ Unambiguous platesContext "http://a.org/P".toList :=
  have absolute : isAbsolute "http://a.org/P".toList := by decide +kernel
  ⟨absolute, (alias_expands_back platesContext _ absolute).mp (by decide +kernel)⟩

theorem alias_of_default_name : ¬ ∀ c longName, isAbsolute longName →
    orionldContextItemExpand c (orionldContextItemAliasLookup c longName) = longName := by
  intro h
  exact absurd (h platesContext (defaultContextUrl ++ "P".toList) (by decide +kernel))
    (by decide +kernel)

mutual
def items : OrionldContext → List ContextItem
  | .null => []
  | .keyValues items => items
  | .array vector => itemsOf vector
def itemsOf : List OrionldContext → List ContextItem
  | [] => []
  | ctx :: vector => items ctx ++ itemsOf vector
end

mutual
theorem lookupIn_atNull (table : List ContextItem → Option ContextItem)
    (atNull : Option ContextItem) :
    ∀ ctx, hasNull ctx = false → lookupIn table atNull ctx = lookupIn table none ctx
  | .null, h => nomatch h
  | .keyValues _, _ => rfl
  | .array vector, h => lookupInArray_atNull table atNull vector h
theorem lookupInArray_atNull (table : List ContextItem → Option ContextItem)
    (atNull : Option ContextItem) : ∀ vector, hasNullItem vector = false →
      lookupInArray table atNull vector = lookupInArray table none vector
  | [], _ => rfl
  | ctx :: vector, h => by
    obtain ⟨hc, hv⟩ := Bool.or_eq_false_iff.mp h
    rw [lookupInArray, lookupInArray, lookupIn_atNull table atNull ctx hc,
      lookupInArray_atNull table atNull vector hv]
end

mutual
theorem lookupIn_items (p : ContextItem → Bool) :
    ∀ ctx, lookupIn (fun items => items.find? p) none ctx = (items ctx).find? p
  | .null => rfl
  | .keyValues _ => rfl
  | .array vector => lookupInArray_items p vector
theorem lookupInArray_items (p : ContextItem → Bool) : ∀ vector,
    lookupInArray (fun items => items.find? p) none vector = (itemsOf vector).find? p
  | [] => rfl
  | ctx :: vector => by
    rw [itemsOf, List.find?_append, ← lookupIn_items p ctx, ← lookupInArray_items p vector]
    rfl
end

/-- Contexts that are there, with tables that give their first item, are lists of their items. -/
theorem expand_flat (hnull : hasNull c.context = false)
    (hfirst : ∀ list name, c.khash.khashItemLookup ContextItem.name list name =
      list.find? fun item => item.name == name) : orionldContextItemExpand c name =
      (OrionldContextItem.orionldContextItemExpand
        ⟨items c.core, items c.context, c.defaultUrl⟩ name).1 := by
  have hterm : ∀ term, termLookup c term = OrionldContextItem.orionldContextItemLookup
      ⟨items c.core, items c.context, c.defaultUrl⟩ term := by
    intro term
    unfold termLookup orionldContextItemLookup
    simp only [hfirst]
    rw [lookupIn_atNull _ _ _ c.core_hasNull, lookupIn_atNull _ _ _ hnull, lookupIn_items,
      lookupIn_items]
    rfl
  unfold orionldContextItemExpand orionldContextPrefixExpand isUri
    OrionldContextItem.orionldContextItemExpand OrionldContextItem.orionldContextPrefixExpand
  simp only [hterm, Bool.or_eq_true, ite_or]
  cases OrionldContextItem.orionldContextItemLookup _ name <;>
    cases OrionldContextItem.orionldContextItemLookup _ (name.takeWhile (· ≠ ':')) <;>
    split_ifs <;> rfl

end OrionldContextTree
