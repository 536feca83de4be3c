import OrionLd.KjSort
import OrionLd.KjTreeFromQueryContextResponse
import OrionLd.MongoLocation

/-! compoundValueDiffers: a compound value of a request and a stored one are compared as the
texts of their sorted trees. The text of a tree is a parameter. -/
namespace CompoundValueDiffers

open KjTree MongoCppLegacyCodec RegistrationDocument SameJson KjSort
open KjTreeFromQueryContextResponse MongoLocation List Option

structure RenderEnv extends DateEnv where
  kjFastRender : KjNode → Text
  kjFastRenderSize : KjNode → ℤ

variable (env : RenderEnv)

/-- kjTreeFromCompoundValue without a container: a value that is no compound gives no tree. -/
def treeOfCompound : CompoundValueNode → Option KjNode
  | .vector items => some (kjTreeFromCompoundValue env.toDateEnv false (.vector items))
  | .object members => some (kjTreeFromCompoundValue env.toDateEnv false (.object members))
  | _ => none

def compoundValueDiffers (v : ApiVersion) (newValue : CompoundValueNode)
    (oldValueAsBson oldArrayValue : BsonValue) (isArray : Bool) : Option Bool :=
  if v ≠ .ngsiLd then some true
  else match treeOfCompound env newValue with
    | none => some true
    | some newValueTree => do
      let oldValueTree := if isArray then mongoCppLegacyDataToKjTree oldArrayValue true
        else mongoCppLegacyDataToKjTree oldValueAsBson false
      if env.kjFastRenderSize oldValueTree ≤ 0 ∨ env.kjFastRenderSize newValueTree ≤ 0 then
        some true
      else
        let newValueTree ← kjSort newValueTree
        let oldValueTree ← kjSort oldValueTree
        some (env.kjFastRender oldValueTree != env.kjFastRender newValueTree)

mutual
def jsonOfCompound : CompoundValueNode → KjNode
  | .string s => .string s
  | .number x => .float x
  | .boolean b => .bool b
  | .null => .null
  | .vector items => .array (jsonOfCompounds items)
  | .object members => .object (jsonOfCompoundMembers members)
def jsonOfCompounds : List CompoundValueNode → List KjNode
  | [] => []
  | item :: items => jsonOfCompound item :: jsonOfCompounds items
def jsonOfCompoundMembers : List (Text × CompoundValueNode) → Members
  | [] => []
  | (name, node) :: members => (name, jsonOfCompound node) :: jsonOfCompoundMembers members
end

mutual
def jsonOfBson : BsonValue → KjNode
  | .string s => .string s
  | .bool b => .bool b
  | .double x => .float x
  | .int32 i => .int i.toInt
  | .int64 i => .int i.toInt
  | .null => .null
  | .array items => .array (jsonOfBsonItems items)
  | .object fields => .object (jsonOfBsonFields fields)
def jsonOfBsonItems : List BsonValue → List KjNode
  | [] => []
  | item :: items => jsonOfBson item :: jsonOfBsonItems items
def jsonOfBsonFields : List (Text × BsonValue) → Members
  | [] => []
  | (name, value) :: fields => (name, jsonOfBson value) :: jsonOfBsonFields fields
end

mutual
def NoLongs : BsonValue → Prop
  | .int64 _ => False
  | .array items => NoLongsItems items
  | .object fields => NoLongsFields fields
  | _ => True
def NoLongsItems : List BsonValue → Prop
  | [] => True
  | item :: items => NoLongs item ∧ NoLongsItems items
def NoLongsFields : List (Text × BsonValue) → Prop
  | [] => True
  | (_, value) :: fields => NoLongs value ∧ NoLongsFields fields
end

mutual
def asDouble : KjNode → KjNode
  | .int i => .float i
  | .array items => .array (asDoubleItems items)
  | .object members => .object (asDoubleMembers members)
  | node => node
def asDoubleItems : List KjNode → List KjNode
  | [] => []
  | item :: items => asDouble item :: asDoubleItems items
def asDoubleMembers : Members → Members
  | [] => []
  | (name, node) :: members => (name, asDouble node) :: asDoubleMembers members
end

def isCompound : CompoundValueNode → Bool
  | .vector _ => true
  | .object _ => true
  | _ => false

/-- What mergeAttrInfo passes for a stored value, which is an object or an array. -/
def storedObject : BsonValue → BsonValue
  | .object fields => .object fields
  | _ => .object []
def storedArray : BsonValue → BsonValue
  | .array items => .array items
  | _ => .array []
def storedIsArray : BsonValue → Bool
  | .array _ => true
  | _ => false
def isStoredCompound : BsonValue → Bool
  | .object _ => true
  | .array _ => true
  | _ => false

/-- The tree that a stored compound value is compared as. -/
def storedTree (old : BsonValue) : KjNode :=
  if storedIsArray old then mongoCppLegacyDataToKjTree (storedArray old) true
  else mongoCppLegacyDataToKjTree (storedObject old) false

/-- Room is asked for every tree, and the texts of the two are the same exactly if they are, a
number being its value. -/
structure Renders (env : RenderEnv) (a b : KjNode) : Prop where
  size : ∀ node, 0 < env.kjFastRenderSize node
  text : env.kjFastRender a = env.kjFastRender b ↔ asDouble a = asDouble b

def asDoubleMember (m : Text × KjNode) : Text × KjNode := (m.1, asDouble m.2)

theorem asDoubleMembers_eq (members : Members) :
    asDoubleMembers members = members.map asDoubleMember := by
  induction members with
  | nil => rfl
  | cons m members ih => rw [asDoubleMembers, ih, map_cons, asDoubleMember]

theorem asDoubleMembers_names (members : Members) :
    (asDoubleMembers members).map Prod.fst = members.map Prod.fst := by
  rw [asDoubleMembers_eq, List.map_map]
  rfl

theorem maxLoop_names (maxIx : ℕ) (maxName : Text) (ix : ℕ) (members : Members) :
    maxLoop maxIx maxName ix (members.map asDoubleMember) = maxLoop maxIx maxName ix members := by
  induction members generalizing maxIx maxName ix with
  | nil => rfl
  | cons m members ih => simp only [map_cons, asDoubleMember, maxLoop, ih]

theorem findMax_names (rest : Members) : findMax (rest.map asDoubleMember) = findMax rest := by
  cases rest with
  | nil => rfl
  | cons m rest => exact maxLoop_names 0 m.1 1 rest

theorem kjSortLoop_asDouble (fuel : ℕ) (front rest : Members) :
    kjSortLoop fuel (front.map asDoubleMember) (rest.map asDoubleMember) =
      (kjSortLoop fuel front rest).map (List.map asDoubleMember) := by
  induction fuel generalizing front rest with
  | zero => rfl
  | succ fuel ih =>
    have hmoved : (rest.map asDoubleMember)[findMax rest]?.toList =
        rest[findMax rest]?.toList.map asDoubleMember := by
      rw [List.getElem?_map, toList_map]
    simp only [kjSortLoop, findMax_names, hmoved, ← map_append, eraseIdx_map, length_map, ih]
    split
    · rw [map_some, map_append, map_append]
    · rfl

mutual
theorem kjSort_asDouble : ∀ node, kjSort (asDouble node) = (kjSort node).map asDouble
  | .null => rfl
  | .bool _ => rfl
  | .int _ => rfl
  | .float _ => rfl
  | .string _ => rfl
  | .array items => by
    rw [asDouble, kjSort, kjSort, kjSortItems_asDouble, Option.map_map, Option.map_map]
    rfl
  | .object members => by
    rw [asDouble, kjSort, kjSort, kjSortMembers_asDouble, kjSortMembers_returns,
      Option.map_some, Option.bind_eq_bind, Option.bind_some, Option.bind_some,
      asDoubleMembers_eq]
    simp only [List.map_eq_nil_iff, List.length_map]
    split
    · rfl
    · have hloop := kjSortLoop_asDouble (sortedMembers members).length [] (sortedMembers members)
      rw [List.map_nil] at hloop
      rw [hloop, Option.map_map, Option.map_map]
      congr 1
      funext r
      exact congrArg KjNode.object (asDoubleMembers_eq r).symm
theorem kjSortItems_asDouble : ∀ items,
    kjSortItems (asDoubleItems items) = (kjSortItems items).map asDoubleItems
  | [] => rfl
  | item :: items => by
    rw [asDoubleItems, kjSortItems, kjSortItems, kjSort_asDouble item,
      kjSortItems_asDouble items, kjSort_returns, kjSortItems_returns]
    rfl
theorem kjSortMembers_asDouble : ∀ members,
    kjSortMembers (asDoubleMembers members) = (kjSortMembers members).map asDoubleMembers
  | [] => rfl
  | (name, node) :: members => by
    rw [asDoubleMembers, kjSortMembers, kjSortMembers, kjSort_asDouble node,
      kjSortMembers_asDouble members, kjSort_returns, kjSortMembers_returns]
    rfl
end

theorem sorted_asDouble (node : KjNode) : sorted (asDouble node) = asDouble (sorted node) := by
  have h := kjSort_asDouble node
  rw [kjSort_returns, kjSort_returns, map_some] at h
  exact some.inj h

mutual
theorem distinctNames_asDouble : ∀ node, DistinctNames node → DistinctNames (asDouble node)
  | .null, _ => trivial
  | .bool _, _ => trivial
  | .int _, _ => trivial
  | .float _, _ => trivial
  | .string _, _ => trivial
  | .array items, h => distinctNames_asDoubleItems items h
  | .object members, h => by
    refine ⟨?_, distinctNames_asDoubleMembers members h.2⟩
    rw [asDoubleMembers_names]
    exact h.1
theorem distinctNames_asDoubleItems : ∀ items,
    DistinctNamesItems items → DistinctNamesItems (asDoubleItems items)
  | [], _ => trivial
  | item :: items, h =>
    ⟨distinctNames_asDouble item h.1, distinctNames_asDoubleItems items h.2⟩
theorem distinctNames_asDoubleMembers : ∀ members,
    DistinctNamesMembers members → DistinctNamesMembers (asDoubleMembers members)
  | [], _ => trivial
  | (_, node) :: members, h =>
    ⟨distinctNames_asDouble node h.1, distinctNames_asDoubleMembers members h.2⟩
end

theorem asDouble_eq_float_iff {x : KjNode} {q : ℚ} :
    asDouble x = .float q ↔ numberOf x = some q := by
  cases x with
  | int i =>
    rw [asDouble, numberOf, KjNode.float.injEq, some.injEq]
  | float f =>
    change KjNode.float f = .float q ↔ some f = some q
    rw [KjNode.float.injEq, some.injEq]
  | null | bool | string | array | object =>
    refine iff_of_false ?_ ?_
    · intro h
      cases h
    · intro h
      cases h

theorem reordered_float {x : KjNode} {q : ℚ} (h : Reordered x (.float q)) : x = .float q := by
  cases h
  rfl

mutual
theorem reordered_of_same : ∀ {a b : KjNode}, Same a b → Reordered (asDouble a) (asDouble b)
  | _, .null, h => by
    cases h with
    | null => exact .null
    | number _ hb => cases hb
  | _, .bool b, h => by
    cases h with
    | bool => exact .bool b
    | number _ hb => cases hb
  | _, .string s, h => by
    cases h with
    | string => exact .string s
    | number _ hb => cases hb
  | _, .int i, h => by
    cases h with
    | number ha hb =>
      rw [asDouble_eq_float_iff.mpr ha, asDouble_eq_float_iff.mpr hb]
      exact .float _
  | _, .float f, h => by
    cases h with
    | number ha hb =>
      rw [asDouble_eq_float_iff.mpr ha, asDouble_eq_float_iff.mpr hb]
      exact .float _
  | _, .array items, h => by
    cases h with
    | number _ hb => cases hb
    | array h => exact .array (reordered_of_sameItems h)
  | _, .object members, h => by
    cases h with
    | number _ hb => cases hb
    | object hperm h =>
      have hperm' := hperm.map asDoubleMember
      rw [← asDoubleMembers_eq, ← asDoubleMembers_eq] at hperm'
      exact .object hperm' (reordered_of_sameMembers h)
theorem reordered_of_sameItems : ∀ {xs ys : List KjNode},
    SameItems xs ys → ReorderedItems (asDoubleItems xs) (asDoubleItems ys)
  | _, [], h => by
    cases h
    exact .nil
  | _, _ :: _, h => by
    cases h with
    | cons hx hxs => exact .cons (reordered_of_same hx) (reordered_of_sameItems hxs)
theorem reordered_of_sameMembers : ∀ {xs ys : Members},
    SameMembers xs ys → ReorderedMembers (asDoubleMembers xs) (asDoubleMembers ys)
  | _, [], h => by
    cases h
    exact .nil
  | _, (_, _) :: _, h => by
    cases h with
    | cons hx hxs => exact .cons (reordered_of_same hx) (reordered_of_sameMembers hxs)
end

theorem perm_of_asDoubleMembers {xs : Members} {ys : Members}
    (h : (asDoubleMembers xs).Perm ys) : ∃ zs, xs.Perm zs ∧ asDoubleMembers zs = ys := by
  have hxs : List.Forall₂ (fun m n => asDoubleMember m = n) xs (asDoubleMembers xs) := by
    rw [asDoubleMembers_eq, forall₂_map_right_iff]
    exact forall₂_same.mpr fun _ _ => rfl
  obtain ⟨zs, hperm, hzs⟩ := forall₂_perm hxs h
  refine ⟨zs, hperm, ?_⟩
  rw [asDoubleMembers_eq]
  exact forall₂_eq_eq_eq ▸ forall₂_map_left_iff.mpr hzs

mutual
theorem same_of_reordered : ∀ {a b : KjNode}, Reordered (asDouble a) (asDouble b) → Same a b
  | a, .null, h => by
    cases a with
    | null => exact .null
    | _ => cases h
  | a, .bool b, h => by
    cases a with
    | bool =>
      cases h
      exact .bool b
    | _ => cases h
  | a, .string s, h => by
    cases a with
    | string =>
      cases h
      exact .string s
    | _ => cases h
  | _, .int i, h => .number (asDouble_eq_float_iff.mp (reordered_float h)) rfl
  | _, .float f, h => .number (asDouble_eq_float_iff.mp (reordered_float h)) rfl
  | a, .array items, h => by
    cases a with
    | array xs =>
      cases h with
      | array h => exact .array (same_of_reorderedItems h)
    | _ => cases h
  | a, .object members, h => by
    cases a with
    | object xs =>
      cases h with
      | object hperm h =>
        obtain ⟨zs, hzs, rfl⟩ := perm_of_asDoubleMembers hperm
        exact .object hzs (same_of_reorderedMembers h)
    | _ => cases h
theorem same_of_reorderedItems : ∀ {xs ys : List KjNode},
    ReorderedItems (asDoubleItems xs) (asDoubleItems ys) → SameItems xs ys
  | [], [], _ => .nil
  | [], _ :: _, h => by cases h
  | _ :: _, [], h => by cases h
  | _ :: _, _ :: _, h => by
    cases h with
    | cons hx hxs => exact .cons (same_of_reordered hx) (same_of_reorderedItems hxs)
theorem same_of_reorderedMembers : ∀ {xs ys : Members},
    ReorderedMembers (asDoubleMembers xs) (asDoubleMembers ys) → SameMembers xs ys
  | [], [], _ => .nil
  | [], _ :: _, h => by cases h
  | _ :: _, [], h => by cases h
  | (_, _) :: _, (_, _) :: _, h => by
    cases h with
    | cons hx hxs => exact .cons (same_of_reordered hx) (same_of_reorderedMembers hxs)
end

theorem same_of_sorted {a b : KjNode} (h : asDouble (sorted a) = asDouble (sorted b)) :
    Same a b := by
  rw [← sorted_asDouble, ← sorted_asDouble] at h
  exact same_of_reordered (reordered_of_sorted_eq h)

/-- Sorted trees are the same up to the kind of numbers when the trees are the same values. -/
theorem sorted_same_iff {a b : KjNode} (ha : DistinctNames a) :
    asDouble (sorted a) = asDouble (sorted b) ↔ Same a b := by
  refine ⟨same_of_sorted, fun h => ?_⟩
  rw [← sorted_asDouble, ← sorted_asDouble]
  exact sorted_eq (reordered_of_same h) (distinctNames_asDouble a ha)

mutual
theorem treeOfCompound_eq (env : DateEnv) : ∀ value : CompoundValueNode,
    kjTreeFromCompoundValue env false value = jsonOfCompound value
  | .string _ => rfl
  | .number _ => rfl
  | .boolean _ => rfl
  | .null => rfl
  | .vector items => by
    rw [kjTreeFromCompoundValue, treeOfCompounds_eq env items, jsonOfCompound]
  | .object members => by
    rw [kjTreeFromCompoundValue, treeOfCompoundMembers_eq env members, jsonOfCompound]
theorem treeOfCompounds_eq (env : DateEnv) : ∀ items : List CompoundValueNode,
    kjTreeFromCompoundValues env false items = jsonOfCompounds items
  | [] => rfl
  | item :: items => by
    rw [kjTreeFromCompoundValues, treeOfCompound_eq env item, treeOfCompounds_eq env items,
      jsonOfCompounds]
theorem treeOfCompoundMembers_eq (env : DateEnv) : ∀ members : List (Text × CompoundValueNode),
    kjTreeFromCompoundMembers env false members = jsonOfCompoundMembers members
  | [] => rfl
  | (_, node) :: members => by
    rw [kjTreeFromCompoundMembers, treeOfCompound_eq env node,
      treeOfCompoundMembers_eq env members, jsonOfCompoundMembers]
end

mutual
theorem bsonToKjTree_eq : ∀ value, NoLongs value → bsonToKjTree value = some (jsonOfBson value)
  | .string _, _ => rfl
  | .bool _, _ => rfl
  | .double _, _ => rfl
  | .int32 _, _ => rfl
  | .null, _ => rfl
  | .array items, h => by rw [bsonToKjTree, arrayToKjTree_eq items h, jsonOfBson]
  | .object fields, h => by rw [bsonToKjTree, objectToKjTree_eq fields h, jsonOfBson]
theorem arrayToKjTree_eq : ∀ items, NoLongsItems items →
    arrayToKjTree items = jsonOfBsonItems items
  | [], _ => rfl
  | item :: items, h => by
    rw [arrayToKjTree, bsonToKjTree_eq item h.1, arrayToKjTree_eq items h.2]
    rfl
theorem objectToKjTree_eq : ∀ fields, NoLongsFields fields →
    objectToKjTree fields = jsonOfBsonFields fields
  | [], _ => rfl
  | (_, value) :: fields, h => by
    rw [objectToKjTree, bsonToKjTree_eq value h.1, objectToKjTree_eq fields h.2]
    rfl
end

variable {value : CompoundValueNode}

theorem treeOfCompound_some {env : RenderEnv} (h : isCompound value = true) :
    treeOfCompound env value = some (jsonOfCompound value) := by
  cases value with
  | vector items | object members => rw [treeOfCompound, treeOfCompound_eq]
  | string | number | boolean | null => cases h

theorem treeOfCompound_none {env : RenderEnv} (h : isCompound value = false) :
    treeOfCompound env value = none := by
  cases value with
  | vector | object => cases h
  | string | number | boolean | null => rfl

theorem storedTree_eq {old : BsonValue} (h : isStoredCompound old = true) (hlongs : NoLongs old) :
    storedTree old = jsonOfBson old := by
  cases old with
  | object fields => exact congrArg KjNode.object (objectToKjTree_eq fields hlongs)
  | array items => exact congrArg KjNode.array (arrayToKjTree_eq items hlongs)
  | double | string | bool | null | int32 | int64 => cases h

variable {env : RenderEnv} {newValue : CompoundValueNode} {old : BsonValue}

theorem compoundValueDiffers_eq (hnew : isCompound newValue = true) :
    compoundValueDiffers env .ngsiLd newValue (storedObject old) (storedArray old)
        (storedIsArray old) =
      if env.kjFastRenderSize (storedTree old) ≤ 0 ∨
          env.kjFastRenderSize (jsonOfCompound newValue) ≤ 0 then some true
      else some (env.kjFastRender (sorted (storedTree old)) !=
        env.kjFastRender (sorted (jsonOfCompound newValue))) := by
  simp only [compoundValueDiffers, treeOfCompound_some hnew, kjSort_returns]
  exact if_neg (by decide)

theorem compoundValueDiffers_iff (hnew : isCompound newValue = true)
    (hold : isStoredCompound old = true) (hdistinct : DistinctNames (jsonOfCompound newValue))
    (hlongs : NoLongs old)
    (hrenders : Renders env (sorted (jsonOfBson old)) (sorted (jsonOfCompound newValue))) :
    compoundValueDiffers env .ngsiLd newValue (storedObject old) (storedArray old)
        (storedIsArray old) = some false ↔ Same (jsonOfCompound newValue) (jsonOfBson old) := by
  have hsizes : ¬ (env.kjFastRenderSize (jsonOfBson old) ≤ 0 ∨
      env.kjFastRenderSize (jsonOfCompound newValue) ≤ 0) := by
    rintro (h | h)
    · exact absurd (hrenders.size _) h.not_gt
    · exact absurd (hrenders.size _) h.not_gt
  rw [compoundValueDiffers_eq hnew, storedTree_eq hold hlongs, if_neg hsizes, some_inj,
    bne_eq_false_iff_eq, hrenders.text, eq_comm, sorted_same_iff hdistinct]

/-- kjSort gives a canonical form, and so a compound value of an NGSI-LD request differs exactly if
it is another value. Any other request is taken to change it. -/
theorem sorted_is_canonical (env : RenderEnv) :
    (∀ tree, ∃ result, kjSort tree = some result ∧ Reordered tree result) ∧
    (∀ a b, DistinctNames a → DistinctNames b → (kjSort a = kjSort b ↔ Reordered a b)) ∧
    ∀ v newValue old, isCompound newValue = true → isStoredCompound old = true →
      if v = .ngsiLd then
        DistinctNames (jsonOfCompound newValue) → DistinctNames (jsonOfBson old) → NoLongs old →
        Renders env (sorted (jsonOfBson old)) (sorted (jsonOfCompound newValue)) →
          (compoundValueDiffers env v newValue (storedObject old) (storedArray old)
            (storedIsArray old) = some false ↔ Same (jsonOfCompound newValue) (jsonOfBson old))
      else compoundValueDiffers env v newValue (storedObject old) (storedArray old)
        (storedIsArray old) = some true := by
  refine ⟨?_, ?_, ?_⟩
  · intro tree
    exact ⟨sorted tree, kjSort_returns tree, reordered_sorted tree⟩
  · intro a b ha _
    rw [kjSort_returns, kjSort_returns, some_inj, sorted_eq_iff ha]
  · intro v newValue old hnew hold
    split
    · rename_i hv
      subst hv
      intro hdistinct _ hlongs hrenders
      exact compoundValueDiffers_iff hnew hold hdistinct hlongs hrenders
    · rename_i hv
      exact if_pos hv

def renderFlat : KjNode → Text
  | .object members => '{' :: ",".toList.intercalate (members.map fun m =>
      '"' :: m.1 ++ "\":".toList ++ renderLeaf m.2) ++ ['}']
  | node => renderLeaf node
where
  renderLeaf : KjNode → Text
  | .string s => '"' :: s ++ ['"']
  | .bool b => (toString b).toList
  | .null => "null".toList
  | _ => []

def flatEnv : RenderEnv where
  core := []
  context := []
  defaultUrl := "https://uri.etsi.org/ngsi-ld/default-context/".toList
  parse8601Time := fun _ => none
  valueAsInteger := fun _ => 0
  integerAsDouble := fun i => i
  requestTime := 0
  strftime := fun _ => []
  kjFastRender := renderFlat
  kjFastRenderSize := fun node => (renderFlat node).length + 1

def openDoor : CompoundValueNode :=
  .object [("open".toList, .boolean true), ("locked".toList, .null)]

def storedDoor : BsonValue := .object [("locked".toList, .null), ("open".toList, .bool true)]

theorem same_door : Same (jsonOfCompound openDoor) (jsonOfBson storedDoor) :=
  .object (List.Perm.swap _ _ []) (SameMembers.refl _)

theorem door_sorted : sorted (jsonOfBson storedDoor) = sorted (jsonOfCompound openDoor) := by
  rw [sorted_eq_iff (by simp [storedDoor, jsonOfBson, jsonOfBsonFields, DistinctNames,
    DistinctNamesMembers])]
  exact .object (List.Perm.swap _ _ []) (.cons (.bool true) (.cons .null .nil))

theorem door_renders :
    Renders flatEnv (sorted (jsonOfBson storedDoor)) (sorted (jsonOfCompound openDoor)) := by
  refine ⟨fun node => Int.natCast_succ_pos (renderFlat node).length, ?_⟩
  rw [door_sorted]
  exact iff_of_true rfl rfl

theorem door_unchanged : compoundValueDiffers flatEnv .ngsiLd openDoor (storedObject storedDoor)
    (storedArray storedDoor) (storedIsArray storedDoor) = some false := by
  refine ((sorted_is_canonical flatEnv).2.2 .ngsiLd openDoor storedDoor rfl rfl
    ?_ ?_ ?_ door_renders).mpr same_door
  · simp [openDoor, jsonOfCompound, jsonOfCompoundMembers, DistinctNames, DistinctNamesMembers]
  · simp [storedDoor, jsonOfBson, jsonOfBsonFields, DistinctNames, DistinctNamesMembers]
  · simp [storedDoor, NoLongs, NoLongsFields]

/-- An NGSIv2 request with the stored value is taken for a change. -/
theorem door_changed_anyway : ¬ (compoundValueDiffers flatEnv .v2 openDoor
    (storedObject storedDoor) (storedArray storedDoor) (storedIsArray storedDoor) = some false ↔
      Same (jsonOfCompound openDoor) (jsonOfBson storedDoor)) := by
  intro h
  have hdiffers := h.mpr same_door
  cases hdiffers

end CompoundValueDiffers
