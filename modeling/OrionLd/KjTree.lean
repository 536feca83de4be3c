import OrionLd.MongoQuery
import OrionLd.NearestFloat

/-! JSON trees of the broker and the value trees of mongoBackend. Members keep their order and may
repeat a name, and a lookup finds the first. Doubles are rationals. What the database holds was
written by compoundValueBson, which replaces the dots of member names. -/
namespace KjTree

open MongoQuery (Bson)
open NearestFloat (nearest binary64)

abbrev Text := List Char

instance : LawfulBEq Text := inferInstance

inductive KjNode where
  | null
  | bool (b : Bool)
  | int (i : ℤ)
  | float (f : ℚ)
  | string (s : Text)
  | array (items : List KjNode)
  | object (members : List (Text × KjNode))

abbrev Members := List (Text × KjNode)

def kjLookup (node : KjNode) (name : String) : Option KjNode :=
  match node with
  | .object members => members.lookup name.toList
  | _ => none

/-- The child that kjLookup finds is unlinked. -/
def kjChildRemove (members : Members) (name : Text) : Members :=
  members.eraseP fun m => m.1 == name

def kjValueType : KjNode → String
  | .null => "Null"
  | .bool _ => "Boolean"
  | .int _ => "Int"
  | .float _ => "Float"
  | .string _ => "String"
  | .array _ => "Array"
  | .object _ => "Object"

/-- All bytes of the value are zero, as those of a container without children. -/
def isZero : KjNode → Bool
  | .null => true
  | .bool b => !b
  | .int i => i == 0
  | .float f => f == 0
  | _ => false

def dotForEq (name : Text) : Text := name.map fun c => if c = '.' then '=' else c
def eqForDot (name : Text) : Text := name.map fun c => if c = '=' then '.' else c

inductive CompoundValueNode where
  | string (s : Text)
  | number (x : ℚ)
  | boolean (b : Bool)
  | null
  | vector (items : List CompoundValueNode)
  | object (members : List (Text × CompoundValueNode))

mutual
def kjTreeToCompoundValue : KjNode → CompoundValueNode
  | .null => .null
  | .bool b => .boolean b
  | .int i => .number (nearest binary64 i)
  | .float f => .number f
  | .string s => .string s
  | .array items => .vector (kjTreeToCompoundValues items)
  | .object members => .object (kjTreeToCompoundMembers members)
def kjTreeToCompoundValues : List KjNode → List CompoundValueNode
  | [] => []
  | item :: items => kjTreeToCompoundValue item :: kjTreeToCompoundValues items
def kjTreeToCompoundMembers : Members → List (Text × CompoundValueNode)
  | [] => []
  | (name, node) :: members =>
    (name, kjTreeToCompoundValue node) :: kjTreeToCompoundMembers members
end

mutual
/-- ContextAttribute::valueBson and the two forms of compoundValueBson. -/
def compoundValueBson : CompoundValueNode → Bson
  | .string s => .str s
  | .number x => .num x
  | .boolean b => .bool b
  | .null => .null
  | .vector items => .arr (compoundValueBsonItems items)
  | .object members => .obj (compoundValueBsonMembers members)
def compoundValueBsonItems : List CompoundValueNode → List Bson
  | [] => []
  | item :: items => compoundValueBson item :: compoundValueBsonItems items
def compoundValueBsonMembers : List (Text × CompoundValueNode) → List (Text × Bson)
  | [] => []
  | (name, node) :: members =>
    (dotForEq name, compoundValueBson node) :: compoundValueBsonMembers members
end

mutual
/-- objectToKjTree and arrayToKjTree. The broker writes every number as a double. -/
def dbDataToKjTree : Bson → KjNode
  | .null => .null
  | .bool b => .bool b
  | .num x => .float x
  | .str s => .string s
  | .arr items => .array (dbItemsToKjTree items)
  | .obj fields => .object (dbFieldsToKjTree fields)
def dbItemsToKjTree : List Bson → List KjNode
  | [] => []
  | item :: items => dbDataToKjTree item :: dbItemsToKjTree items
def dbFieldsToKjTree : List (Text × Bson) → Members
  | [] => []
  | (name, value) :: fields => (name, dbDataToKjTree value) :: dbFieldsToKjTree fields
end

mutual
/-- No member name holds a dot, at any depth. -/
def Dotless : Bson → Prop
  | .arr items => DotlessItems items
  | .obj fields => DotlessFields fields
  | _ => True
def DotlessItems : List Bson → Prop
  | [] => True
  | item :: items => Dotless item ∧ DotlessItems items
def DotlessFields : List (Text × Bson) → Prop
  | [] => True
  | (name, value) :: fields => '.' ∉ name ∧ Dotless value ∧ DotlessFields fields
end

theorem toList_ne {a b : String} (h : a ≠ b) : a.toList ≠ b.toList :=
  fun hab => h (String.toList_inj.mp hab)

theorem lookup_kjChildRemove_ne {members : Members} {k name : Text} (h : k ≠ name) :
    (kjChildRemove members name).lookup k = members.lookup k := by
  unfold kjChildRemove
  induction members with
  | nil => rfl
  | cons m members ih =>
    by_cases hm : m.1 = name
    · rw [List.eraseP_cons_of_pos (by simpa using hm), List.lookup_cons, hm, beq_false_of_ne h]
    · rw [List.eraseP_cons_of_neg (by simpa using hm), List.lookup_cons, List.lookup_cons, ih]

theorem dotForEq_of_dotless {name : Text} (h : '.' ∉ name) : dotForEq name = name := by
  refine (List.map_congr_left fun c hc => ?_).trans (List.map_id name)
  have hne : c ≠ '.' := fun e => h (e ▸ hc)
  exact if_neg hne

theorem dot_notMem_dotForEq (name : Text) : '.' ∉ dotForEq name := by
  intro h
  obtain ⟨c, -, hc⟩ := List.mem_map.mp h
  by_cases e : c = '.' <;> simp [e] at hc

theorem dotForEq_eqForDot (name : Text) : dotForEq (eqForDot name) = dotForEq name := by
  unfold dotForEq eqForDot
  rw [List.map_map]
  apply List.map_congr_left
  intro c _
  by_cases e : c = '=' <;> simp [e]

theorem eqForDot_dotForEq (name : Text) : eqForDot (dotForEq name) = eqForDot name := by
  unfold dotForEq eqForDot
  rw [List.map_map]
  apply List.map_congr_left
  intro c _
  by_cases e : c = '.' <;> simp [e]

mutual
/-- A value that is read back and converted again is written as it was. -/
theorem bson_round_trip (b : Bson) (h : Dotless b) :
    compoundValueBson (kjTreeToCompoundValue (dbDataToKjTree b)) = b := by
  cases b with
  | arr items =>
    rw [Dotless] at h
    rw [dbDataToKjTree, kjTreeToCompoundValue, compoundValueBson, bson_items_round_trip items h]
  | obj fields =>
    rw [Dotless] at h
    rw [dbDataToKjTree, kjTreeToCompoundValue, compoundValueBson, bson_fields_round_trip fields h]
  | null => rfl
  | bool b => rfl
  | num x => rfl
  | str s => rfl
theorem bson_items_round_trip (items : List Bson) (h : DotlessItems items) :
    compoundValueBsonItems (kjTreeToCompoundValues (dbItemsToKjTree items)) = items := by
  cases items with
  | nil => rfl
  | cons item items =>
    rw [DotlessItems] at h
    rw [dbItemsToKjTree, kjTreeToCompoundValues, compoundValueBsonItems,
      bson_round_trip item h.1, bson_items_round_trip items h.2]
theorem bson_fields_round_trip (fields : List (Text × Bson)) (h : DotlessFields fields) :
    compoundValueBsonMembers (kjTreeToCompoundMembers (dbFieldsToKjTree fields)) = fields := by
  cases fields with
  | nil => rfl
  | cons f fields =>
    obtain ⟨name, value⟩ := f
    rw [DotlessFields] at h
    rw [dbFieldsToKjTree, kjTreeToCompoundMembers, compoundValueBsonMembers,
      bson_round_trip value h.2.1, bson_fields_round_trip fields h.2.2, dotForEq_of_dotless h.1]
end

end KjTree
