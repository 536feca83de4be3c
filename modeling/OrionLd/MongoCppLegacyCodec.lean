import OrionLd.KjTree

/-! The codec between JSON trees and documents of the legacy Mongo driver.
The builders append nothing for a null, and an integer as a C int. The iterators return what
was appended, and a 64-bit integer is not read. -/
namespace MongoCppLegacyCodec

open KjTree

inductive BsonValue where
  | double (x : ℚ)
  | string (s : Text)
  | object (fields : List (Text × BsonValue))
  | array (items : List BsonValue)
  | bool (b : Bool)
  | null
  | int32 (i : BitVec 32)
  | int64 (i : BitVec 64)

mutual
/-- The tests on the node type that the object and the array builder share. -/
def kjTreeToBson : KjNode → Option BsonValue
  | .array items => some (.array (kjTreeToBsonArray items))
  | .object members => some (.object (kjTreeToBsonObject members))
  | .string s => some (.string s)
  | .float f => some (.double f)
  | .int i => some (.int32 (BitVec.ofInt 32 i))
  | .bool b => some (.bool b)
  | .null => none
def kjTreeToBsonArray : List KjNode → List BsonValue
  | [] => []
  | item :: items => (kjTreeToBson item).toList ++ kjTreeToBsonArray items
def kjTreeToBsonObject : Members → List (Text × BsonValue)
  | [] => []
  | (name, node) :: members =>
    ((kjTreeToBson node).map fun v => (name, v)).toList ++ kjTreeToBsonObject members
end

mutual
/-- The tests on the BSON type that the two readers share. -/
def bsonToKjTree : BsonValue → Option KjNode
  | .string s => some (.string s)
  | .bool b => some (.bool b)
  | .double x => some (.float x)
  | .int32 i => some (.int i.toInt)
  | .null => some .null
  | .object fields => some (.object (objectToKjTree fields))
  | .array items => some (.array (arrayToKjTree items))
  | .int64 _ => none
def objectToKjTree : List (Text × BsonValue) → Members
  | [] => []
  | (name, value) :: fields =>
    ((bsonToKjTree value).map fun n => (name, n)).toList ++ objectToKjTree fields
def arrayToKjTree : List BsonValue → List KjNode
  | [] => []
  | value :: values => (bsonToKjTree value).toList ++ arrayToKjTree values
end

/-- A tree that is neither an object nor an array becomes a document with one field. -/
def mongoCppLegacyKjTreeToBsonObj (name : Text) : KjNode → BsonValue
  | .object members => .object (kjTreeToBsonObject members)
  | .array items => .array (kjTreeToBsonArray items)
  | node => .object (kjTreeToBsonObject [(name, node)])

/-- A document, or an array, whose fields are named by their positions. -/
def mongoCppLegacyDataToKjTree (data : BsonValue) (isArray : Bool) : KjNode :=
  match data, isArray with
  | .object fields, false => .object (objectToKjTree fields)
  | .object fields, true => .array (arrayToKjTree (fields.map Prod.snd))
  | .array items, true => .array (arrayToKjTree items)
  | .array items, false =>
    .object (objectToKjTree (items.zipIdx.map fun i => ((toString i.2).toList, i.1)))
  | _, _ => .null

mutual
/-- No null at any depth, and every integer fits 32 bits. -/
def Lossless : KjNode → Prop
  | .null => False
  | .int i => -2 ^ 31 ≤ i ∧ i < 2 ^ 31
  | .array items => LosslessItems items
  | .object members => LosslessMembers members
  | _ => True
def LosslessItems : List KjNode → Prop
  | [] => True
  | item :: items => Lossless item ∧ LosslessItems items
def LosslessMembers : Members → Prop
  | [] => True
  | (_, node) :: members => Lossless node ∧ LosslessMembers members
end

def isArray : KjNode → Bool
  | .array _ => true
  | _ => false

def isContainer : KjNode → Bool
  | .array _ => true
  | .object _ => true
  | _ => false

/-- What is left of a node. -/
def kept (node : KjNode) : Option KjNode := (kjTreeToBson node).bind bsonToKjTree

theorem arrayToKjTree_append (xs ys : List BsonValue) :
    arrayToKjTree (xs ++ ys) = arrayToKjTree xs ++ arrayToKjTree ys := by
  induction xs with
  | nil => rfl
  | cons x xs ih => simp [arrayToKjTree, ih]

theorem objectToKjTree_append (xs ys : List (Text × BsonValue)) :
    objectToKjTree (xs ++ ys) = objectToKjTree xs ++ objectToKjTree ys := by
  induction xs with
  | nil => rfl
  | cons x xs ih =>
    simp [objectToKjTree, ih]

theorem array_cons (item : KjNode) (items : List KjNode) :
    arrayToKjTree (kjTreeToBsonArray (item :: items)) =
      (kept item).toList ++ arrayToKjTree (kjTreeToBsonArray items) := by
  rw [kjTreeToBsonArray, arrayToKjTree_append, kept]
  cases kjTreeToBson item <;> simp [arrayToKjTree]

theorem object_cons (name : Text) (node : KjNode) (members : Members) :
    objectToKjTree (kjTreeToBsonObject ((name, node) :: members)) =
      ((kept node).map fun n => (name, n)).toList ++
        objectToKjTree (kjTreeToBsonObject members) := by
  rw [kjTreeToBsonObject, objectToKjTree_append, kept]
  cases kjTreeToBson node <;> simp [objectToKjTree]

theorem length_array_le (items : List KjNode) :
    (arrayToKjTree (kjTreeToBsonArray items)).length ≤ items.length := by
  induction items with
  | nil => simp [kjTreeToBsonArray, arrayToKjTree]
  | cons item items ih =>
    rw [array_cons, List.length_append, List.length_cons]
    have hone : (kept item).toList.length ≤ 1 := by cases kept item <;> simp
    omega

theorem length_object_le (members : Members) :
    (objectToKjTree (kjTreeToBsonObject members)).length ≤ members.length := by
  induction members with
  | nil => simp [kjTreeToBsonObject, objectToKjTree]
  | cons m members ih =>
    obtain ⟨name, node⟩ := m
    rw [object_cons, List.length_append, List.length_cons]
    have hone : ((kept node).map fun n => (name, n)).toList.length ≤ 1 := by
      cases kept node <;> simp
    omega

theorem toInt_ofInt_iff (i : ℤ) : (BitVec.ofInt 32 i).toInt = i ↔ -2 ^ 31 ≤ i ∧ i < 2 ^ 31 := by
  rw [BitVec.toInt_ofInt]
  constructor
  · intro h
    constructor
    · have := Int.le_bmod (x := i) (m := 2 ^ 32) (by decide)
      omega
    · have := Int.bmod_lt (x := i) (m := 2 ^ 32) (by decide)
      omega
  · rintro ⟨h₁, h₂⟩
    exact Int.bmod_eq_of_le (by omega) (by omega)

mutual
theorem kept_iff (node : KjNode) : kept node = some node ↔ Lossless node := by
  cases node with
  | array items => simp [kept, kjTreeToBson, bsonToKjTree, Lossless, array_kept_iff items]
  | object members => simp [kept, kjTreeToBson, bsonToKjTree, Lossless, object_kept_iff members]
  | int i =>
    rw [Lossless, ← toInt_ofInt_iff]
    simp [kept, kjTreeToBson, bsonToKjTree]
  | null => simp [kept, kjTreeToBson, Lossless]
  | bool b | float f | string s => simp [kept, kjTreeToBson, bsonToKjTree, Lossless]
theorem array_kept_iff (items : List KjNode) :
    arrayToKjTree (kjTreeToBsonArray items) = items ↔ LosslessItems items := by
  cases items with
  | nil => simp [kjTreeToBsonArray, arrayToKjTree, LosslessItems]
  | cons item items =>
    rw [array_cons, LosslessItems, ← kept_iff item, ← array_kept_iff items]
    cases hk : kept item with
    | none =>
      constructor
      · intro h
        have hlen := length_array_le items
        rw [Option.toList_none, List.nil_append] at h
        rw [h, List.length_cons] at hlen
        omega
      · rintro ⟨h, -⟩
        cases h
    | some x => simp
theorem object_kept_iff (members : Members) :
    objectToKjTree (kjTreeToBsonObject members) = members ↔ LosslessMembers members := by
  cases members with
  | nil => simp [kjTreeToBsonObject, objectToKjTree, LosslessMembers]
  | cons m members =>
    obtain ⟨name, node⟩ := m
    rw [object_cons, LosslessMembers, ← kept_iff node, ← object_kept_iff members]
    cases hk : kept node with
    | none =>
      constructor
      · intro h
        have hlen := length_object_le members
        rw [Option.map_none, Option.toList_none, List.nil_append] at h
        rw [h, List.length_cons] at hlen
        omega
      · rintro ⟨h, -⟩
        cases h
    | some x => simp
end

/-- A tree written to the database is read back as it was, or not. -/
theorem codec_lossless_iff (name : Text) (t : KjNode) :
    mongoCppLegacyDataToKjTree (mongoCppLegacyKjTreeToBsonObj name t) (isArray t) = t ↔
      isContainer t = true ∧ Lossless t := by
  cases t with
  | array items =>
    simp [mongoCppLegacyKjTreeToBsonObj, mongoCppLegacyDataToKjTree, isArray, isContainer,
      Lossless, array_kept_iff]
  | object members =>
    simp [mongoCppLegacyKjTreeToBsonObj, mongoCppLegacyDataToKjTree, isArray, isContainer,
      Lossless, object_kept_iff]
  | null => simp [mongoCppLegacyKjTreeToBsonObj, mongoCppLegacyDataToKjTree, isArray, isContainer]
  | bool b | float f | string s =>
    simp [mongoCppLegacyKjTreeToBsonObj, mongoCppLegacyDataToKjTree, isArray, isContainer]
  | int i => simp [mongoCppLegacyKjTreeToBsonObj, mongoCppLegacyDataToKjTree, isArray, isContainer]

mutual
theorem lossless_of_kept {node node' : KjNode} (h : kept node = some node') : Lossless node' := by
  cases node with
  | array items => exact Option.some.inj h ▸ lossless_array items
  | object members => exact Option.some.inj h ▸ lossless_object members
  | int i =>
    obtain rfl : KjNode.int (BitVec.ofInt 32 i).toInt = node' := Option.some.inj h
    exact (toInt_ofInt_iff _).mp (congrArg BitVec.toInt (BitVec.ofInt_toInt))
  | null => cases h
  | bool b | float f | string s => exact Option.some.inj h ▸ trivial
theorem lossless_array (items : List KjNode) :
    LosslessItems (arrayToKjTree (kjTreeToBsonArray items)) := by
  cases items with
  | nil => trivial
  | cons item items =>
    rw [array_cons]
    have hrest := lossless_array items
    cases hk : kept item with
    | none => exact hrest
    | some item' => exact ⟨lossless_of_kept hk, hrest⟩
theorem lossless_object (members : Members) :
    LosslessMembers (objectToKjTree (kjTreeToBsonObject members)) := by
  cases members with
  | nil => trivial
  | cons m members =>
    obtain ⟨name, node⟩ := m
    rw [object_cons]
    have hrest := lossless_object members
    cases hk : kept node with
    | none => exact hrest
    | some node' => exact ⟨lossless_of_kept hk, hrest⟩
end

/-- A tree that is written and read again. -/
def throughDatabase (name : Text) (t : KjNode) : KjNode :=
  mongoCppLegacyDataToKjTree (mongoCppLegacyKjTreeToBsonObj name t) (isArray t)

/-- What has become of a tree in the database is not changed by any further trip. -/
theorem codec_settles (name other : Text) (t : KjNode) :
    throughDatabase other (throughDatabase name t) = throughDatabase name t := by
  have hobject : ∀ members,
      throughDatabase other (.object (objectToKjTree (kjTreeToBsonObject members))) =
        .object (objectToKjTree (kjTreeToBsonObject members)) := fun members =>
    congrArg KjNode.object ((object_kept_iff _).mpr (lossless_object members))
  cases t with
  | array items => exact congrArg KjNode.array ((array_kept_iff _).mpr (lossless_array items))
  | object members => exact hobject members
  | null | bool b | float f | string s | int i => exact hobject [(name, _)]

def nullInArray : KjNode := .object [("a".toList, .array [.null, .bool true])]
def largeInteger : KjNode := .object [("a".toList, .int 4294967297)]

/-- A null in an array moves the items behind it, and a large integer is cut to 32 bits. -/
theorem codec_loses_null_and_integer :
    mongoCppLegacyDataToKjTree (mongoCppLegacyKjTreeToBsonObj [] nullInArray)
        (isArray nullInArray) = .object [("a".toList, .array [.bool true])] ∧
      mongoCppLegacyDataToKjTree (mongoCppLegacyKjTreeToBsonObj [] nullInArray)
        (isArray nullInArray) ≠ nullInArray ∧
      mongoCppLegacyDataToKjTree (mongoCppLegacyKjTreeToBsonObj [] largeInteger)
        (isArray largeInteger) ≠ largeInteger := by
  refine ⟨rfl, ?_, ?_⟩
  · intro h
    simp [nullInArray, mongoCppLegacyKjTreeToBsonObj, mongoCppLegacyDataToKjTree, isArray,
      kjTreeToBsonObject, kjTreeToBsonArray, kjTreeToBson, objectToKjTree, arrayToKjTree,
      bsonToKjTree] at h
  · intro h
    simp [largeInteger, mongoCppLegacyKjTreeToBsonObj, mongoCppLegacyDataToKjTree, isArray,
      kjTreeToBsonObject, kjTreeToBson, objectToKjTree, bsonToKjTree] at h

end MongoCppLegacyCodec
