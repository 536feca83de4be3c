import Mathlib.Algebra.Order.Ring.Rat

/-! Documents and query documents of a Mongo database.
Numbers of all widths compare by value. A query document is a list of elements, repeated
names included, and holds when each element does. A comparison looks at the value its path
leads to and, where that is an array, at the items of the array as well. -/
namespace MongoQuery

abbrev Name := List Char

inductive Bson where
  | null
  | bool (b : Bool)
  | num (x : ℚ)
  | str (s : Name)
  | arr (items : List Bson)
  | obj (fields : List (Name × Bson))

mutual
def Bson.beq : Bson → Bson → Bool
  | .null, .null => true
  | .bool a, .bool b => a == b
  | .num a, .num b => a == b
  | .str a, .str b => a == b
  | .arr xs, .arr ys => Bson.beqItems xs ys
  | .obj xs, .obj ys => Bson.beqFields xs ys
  | _, _ => false
def Bson.beqItems : List Bson → List Bson → Bool
  | [], [] => true
  | x :: xs, y :: ys => x.beq y && Bson.beqItems xs ys
  | _, _ => false
def Bson.beqFields : List (Name × Bson) → List (Name × Bson) → Bool
  | [], [] => true
  | (n, x) :: xs, (m, y) :: ys => n == m && x.beq y && Bson.beqFields xs ys
  | _, _ => false
end

def Bson.lt : Bson → Bson → Bool
  | .num a, .num b => a < b
  | .str a, .str b => a < b
  | .bool a, .bool b => !a && b
  | _, _ => false

def Bson.le (a b : Bson) : Bool := a.lt b || a.beq b

def lookup (name : Name) (fields : List (Name × Bson)) : Option Bson :=
  (fields.find? fun f => f.1 == name).map Prod.snd

def itemAt (name : Name) (items : List Bson) : Option Bson :=
  if name ≠ [] ∧ name.all Char.isDigit then
    items[name.foldl (fun n c => 10 * n + (c.toNat - '0'.toNat)) 0]?
  else none

def fieldOf (name : Name) : Bson → List Bson
  | .obj fields => (lookup name fields).toList
  | _ => []

def stepInto (name : Name) : Bson → List Bson
  | .obj fields => (lookup name fields).toList
  | .arr items => (itemAt name items).toList ++ items.flatMap (fieldOf name)
  | _ => []

def follow : List Name → Bson → List Bson
  | [], v => [v]
  | name :: names, v => (stepInto name v).flatMap (follow names)

def reached (path : Name) (d : Bson) : List Bson := follow (path.splitOn '.') d

def candidates : Bson → List Bson
  | .arr items => .arr items :: items
  | v => [v]

def seen (vs : List Bson) : List Bson := vs.flatMap candidates

def Bson.type : Bson → ℚ
  | .num _ => 1
  | .str _ => 2
  | .obj _ => 3
  | .arr _ => 4
  | .bool _ => 8
  | .null => 10

variable (regex : Name → Name → Bool)

def matchesRegex (re : Name) : Bson → Bool
  | .str s => regex re s
  | _ => false

/-- An operator that does not nest. Unknown operators are refused. -/
def leafOperator (vs : List Bson) (name : Name) (arg : Bson) : Bool :=
  if name = "$exists".toList then
    match arg with
    | .bool b => !vs.isEmpty == b
    | _ => false
  else if name = "$ne".toList then !(seen vs).any arg.beq
  else if name = "$gt".toList then (seen vs).any fun v => arg.lt v
  else if name = "$gte".toList then (seen vs).any fun v => arg.le v
  else if name = "$lt".toList then (seen vs).any fun v => v.lt arg
  else if name = "$lte".toList then (seen vs).any fun v => v.le arg
  else if name = "$in".toList then
    match arg with
    | .arr items => (seen vs).any fun v => items.any fun item => item.beq v
    | _ => false
  else if name = "$nin".toList then
    match arg with
    | .arr items => !(seen vs).any fun v => items.any fun item => item.beq v
    | _ => false
  else if name = "$regex".toList then
    match arg with
    | .str re => (seen vs).any (matchesRegex regex re)
    | _ => false
  else if name = "$type".toList then
    match arg with
    | .num t => (seen vs).any fun v => v.type == t
    | _ => false
  else false

mutual
def operatorHolds (vs : List Bson) (name : Name) : Bson → Bool
  | .obj fields =>
    if name = "$not".toList then !operatorsHold vs fields
    else leafOperator regex vs name (.obj fields)
  | arg => leafOperator regex vs name arg
def operatorsHold (vs : List Bson) : List (Name × Bson) → Bool
  | [] => true
  | (name, arg) :: rest => operatorHolds vs name arg && operatorsHold vs rest
end

def isOperator (name : Name) : Bool := name.head? == some '$'

/-- An object whose first name is an operator is a condition; any other value is one that
has to be equal. -/
def fieldHolds (d : Bson) (path : Name) : Bson → Bool
  | .obj ((name, arg) :: rest) =>
    if isOperator name then operatorsHold regex (reached path d) ((name, arg) :: rest)
    else (seen (reached path d)).any (Bson.obj ((name, arg) :: rest)).beq
  | v => (seen (reached path d)).any v.beq

mutual
def elementHolds (d : Bson) (name : Name) : Bson → Bool
  | .arr items =>
    if name = "$or".toList then anyHolds d items
    else if isOperator name then false
    else fieldHolds regex d name (.arr items)
  | v => if isOperator name then false else fieldHolds regex d name v
def documentHolds (d : Bson) : Bson → Bool
  | .obj fields => allHold d fields
  | _ => false
def anyHolds (d : Bson) : List Bson → Bool
  | [] => false
  | x :: xs => documentHolds d x || anyHolds d xs
def allHold (d : Bson) : List (Name × Bson) → Bool
  | [] => true
  | (name, v) :: rest => elementHolds d name v && allHold d rest
end

theorem allHold_append (d : Bson) (p q : List (Name × Bson)) :
    allHold regex d (p ++ q) = (allHold regex d p && allHold regex d q) := by
  induction p with
  | nil => simp [allHold]
  | cons f p ih =>
    simp [allHold, ih, Bool.and_assoc]

theorem anyHolds_objects (d : Bson) (queries : List (List (Name × Bson))) :
    anyHolds regex d (queries.map .obj) = queries.any (allHold regex d) := by
  induction queries with
  | nil => simp [anyHolds]
  | cons q queries ih => simp [anyHolds, documentHolds, ih]

end MongoQuery
