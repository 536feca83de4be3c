import OrionLd.StringFilterMatch

/-! The query documents of a filter, and what they say about the stored document of an entity.
mongoFilterPopulate makes a path and a condition of every item; a condition is met by the
values that the path leads to. -/
namespace StringFilterMongo

open MongoQuery (allHold candidates isOperator operatorsHold)

open MongoQuery KjTree StringFilter StringFilterItems StringFilterMatch List

/-- The left-hand side as a C string, which lhsParse has cut. -/
def cLeft (item : FilterItem) : Text :=
  (cutAtDot (lhsDotToEqualIfInsideQuote false item.left)).1

def mongoLeft (type : StringFilterType) (item : FilterItem) : Text :=
  match type with
  | .sftMq => item.attributeName ++ ".md.".toList ++ item.metadataName
  | .sftQ => if item.op.isUnary then item.attributeName else cLeft item

def mongoKey (type : StringFilterType) (item : FilterItem) : Text :=
  let left := mongoLeft type item
  let attr := "attrs.".toList ++ item.attributeName
  if item.compoundPath ≠ [] then
    match type with
    | .sftQ => attr ++ ".value.".toList ++ item.compoundPath
    | .sftMq =>
      attr ++ ".md.".toList ++ item.metadataName ++ ".value.".toList ++ item.compoundPath
  else if left = dateCreated then "creDate".toList
  else if left = dateModified then "modDate".toList
  else if left = item.attributeName ++ ".md.".toList ++ dateCreated then attr ++ ".creDate".toList
  else if left = item.attributeName ++ ".md.".toList ++ dateModified then
    attr ++ ".modDate".toList
  else if item.metadataName ≠ [] then "attrs.".toList ++ left ++ ".value".toList
  else attr ++ ".value".toList

abbrev Condition := List (Text × Bson)

def operator (name : String) (arg : Bson) : Text × Bson := (name.toList, arg)

def equalsCondition : FilterValue → Condition
  | .numberRange a b => [operator "$gte" (.num a), operator "$lte" (.num b)]
  | .dateRange a b => [operator "$gte" (.num a), operator "$lte" (.num b)]
  | .stringRange a b => [operator "$gte" (.str a), operator "$lte" (.str b)]
  | .numberList xs => [operator "$in" (.arr (xs.map .num))]
  | .dateList xs => [operator "$in" (.arr (xs.map .num))]
  | .stringList ss => [operator "$in" (.arr (ss.map .str))]
  | .bool b => [operator "$exists" (.bool true), operator "$in" (.arr [.bool b])]
  | .null => [operator "$exists" (.bool true), operator "$type" (.num 10)]
  | .number x => [operator "$exists" (.bool true), operator "$in" (.arr [.num x])]
  | .date x => [operator "$exists" (.bool true), operator "$in" (.arr [.num x])]
  | .string s => [operator "$in" (.arr [.str s])]

def differsCondition : FilterValue → Condition
  | .numberRange a b => [operator "$exists" (.bool true),
      operator "$not" (.obj [operator "$gte" (.num a), operator "$lte" (.num b)])]
  | .dateRange a b => [operator "$exists" (.bool true),
      operator "$not" (.obj [operator "$gte" (.num a), operator "$lte" (.num b)])]
  | .stringRange a b => [operator "$exists" (.bool true),
      operator "$not" (.obj [operator "$gte" (.str a), operator "$lte" (.str b)])]
  | .numberList xs => [operator "$exists" (.bool true), operator "$nin" (.arr (xs.map .num))]
  | .dateList xs => [operator "$exists" (.bool true), operator "$nin" (.arr (xs.map .num))]
  | .stringList ss => [operator "$exists" (.bool true), operator "$nin" (.arr (ss.map .str))]
  | .bool b => [operator "$exists" (.bool true), operator "$nin" (.arr [.bool b])]
  | .null => [operator "$exists" (.bool true), operator "$not" (.obj [operator "$type" (.num 10)])]
  | .number x => [operator "$exists" (.bool true), operator "$nin" (.arr [.num x])]
  | .date x => [operator "$exists" (.bool true), operator "$nin" (.arr [.num x])]
  | .string s => [operator "$exists" (.bool true), operator "$nin" (.arr [.str s])]

/-- Only strings and numbers are ordered. -/
def orderArg : FilterValue → Bson
  | .string s => .str s
  | value => .num (numberOf value)

/-- A pattern that is no string has no condition. -/
def condition (op : StringFilterOp) (value : Option FilterValue) : Option Condition :=
  match op, value with
  | .sfopExists, _ => some [operator "$exists" (.bool true)]
  | .sfopNotExists, _ => some [operator "$exists" (.bool false)]
  | .sfopEquals, some x => some (equalsCondition x)
  | .sfopDiffers, some x => some (differsCondition x)
  | .sfopGreaterThan, some x => some [operator "$gt" (orderArg x)]
  | .sfopGreaterThanOrEqual, some x => some [operator "$gte" (orderArg x)]
  | .sfopLessThan, some x => some [operator "$lt" (orderArg x)]
  | .sfopLessThanOrEqual, some x => some [operator "$lte" (orderArg x)]
  | .sfopMatchPattern, some (.string s) => some [operator "$regex" (.str s)]
  | _, _ => none

def mongoFilters (type : StringFilterType) (items : List FilterItem) :
    List (List (Text × Bson)) :=
  items.filterMap fun item =>
    (condition item.op item.value).map fun c => [(mongoKey type item, .obj c)]

/-- An attribute of a stored entity, with the values of its metadata. Fields that no path of a
filter leads to are left out. -/
structure AttributeDoc where
  value : Bson
  md : List (Text × Bson)
  creDate : ℚ
  modDate : ℚ
  mdOnce : (md.map Prod.fst).Nodup
  mdEncoded : ∀ f ∈ md, '.' ∉ f.1

structure EntityDoc where
  attrs : List (Text × AttributeDoc)
  creDate : ℚ
  modDate : ℚ
  once : (attrs.map Prod.fst).Nodup

def AttributeDoc.fields (a : AttributeDoc) : List (Text × Bson) :=
  [("value".toList, a.value),
    ("md".toList, .obj (a.md.map fun f => (f.1, .obj [("value".toList, f.2)]))),
    ("creDate".toList, .num a.creDate), ("modDate".toList, .num a.modDate)]

def EntityDoc.toBson (d : EntityDoc) : Bson :=
  .obj [("attrs".toList, .obj (d.attrs.map fun f => (f.1, .obj f.2.fields))),
    ("creDate".toList, .num d.creDate), ("modDate".toList, .num d.modDate)]

/-- The stored document satisfies every element of mongoFilters. -/
def satisfies (regex : Text → Text → Bool) (type : StringFilterType) (items : List FilterItem)
    (d : EntityDoc) : Bool :=
  (mongoFilters type items).all fun f => MongoQuery.documentHolds regex d.toBson (.obj f)

variable {d : EntityDoc} {n m path : Text} {v : Bson}

theorem lookup_map {α : Type} (g : α → Bson) (n : Text) (fields : List (Text × α)) :
    MongoQuery.lookup n (fields.map fun f => (f.1, g f.2)) = (fields.lookup n).map g := by
  induction fields with
  | nil => rfl
  | cons f fields ih =>
    rw [map_cons, lookup_cons]
    unfold MongoQuery.lookup
    rw [List.find?_cons]
    by_cases hn : n = f.1
    · simp only [hn, beq_self_eq_true]
      rfl
    · simp only [beq_false_of_ne hn, beq_false_of_ne (Ne.symm hn)]
      exact ih

theorem flatMap_toList {α β γ : Type} (o : Option α) (g : α → β) (f : β → List γ) :
    (o.map g).toList.flatMap f = o.toList.flatMap (f ∘ g) := by
  cases o <;> rfl

theorem reached_attr (hn : '.' ∉ n) (rest : Text) :
    reached ("attrs.".toList ++ n ++ '.' :: rest) d.toBson =
      (d.attrs.lookup n).toList.flatMap fun a => follow (rest.splitOn '.') (.obj a.fields) := by
  have hsplit : ("attrs.".toList ++ n ++ '.' :: rest).splitOn '.' =
      "attrs".toList :: n :: rest.splitOn '.' := by
    rw [← splitOn_append_cons_self_of_not_mem hn]
    exact splitOn_append_cons_self_of_not_mem (by decide : '.' ∉ "attrs".toList) _
  unfold reached
  rw [hsplit]
  change follow _ (.obj _) ++ [] = _
  rw [append_nil]
  change (MongoQuery.lookup n (d.attrs.map fun f => (f.1, Bson.obj f.2.fields))).toList.flatMap _
    = _
  rw [lookup_map (fun a : AttributeDoc => Bson.obj a.fields), flatMap_toList]
  rfl

theorem reached_value (hn : '.' ∉ n) :
    reached ("attrs.".toList ++ n ++ ".value".toList) d.toBson =
      ((d.attrs.lookup n).map AttributeDoc.value).toList := by
  refine (reached_attr hn "value".toList).trans ?_
  cases d.attrs.lookup n <;> rfl

theorem reached_item (hn : '.' ∉ n) :
    reached ("attrs.".toList ++ n ++ ".value.".toList ++ path) d.toBson =
      (d.attrs.lookup n).toList.flatMap fun a => follow (path.splitOn '.') a.value := by
  have hkey : "attrs.".toList ++ n ++ ".value.".toList ++ path =
      "attrs.".toList ++ n ++ '.' :: ("value".toList ++ '.' :: path) := by
    simp
  rw [hkey, reached_attr hn, splitOn_append_cons_self_of_not_mem (by decide)]
  congr 1
  funext a
  exact append_nil _

theorem reached_md (hn : '.' ∉ n) (hm : '.' ∉ m) (rest : Text) :
    reached ("attrs.".toList ++ n ++ ".md.".toList ++ m ++ '.' :: rest) d.toBson =
      ((d.attrs.lookup n).bind fun a => a.md.lookup m).toList.flatMap fun v =>
        follow (rest.splitOn '.') (.obj [("value".toList, v)]) := by
  have hkey : "attrs.".toList ++ n ++ ".md.".toList ++ m ++ '.' :: rest =
      "attrs.".toList ++ n ++ '.' :: ("md".toList ++ '.' :: (m ++ '.' :: rest)) := by
    simp
  rw [hkey, reached_attr hn, splitOn_append_cons_self_of_not_mem (by decide),
    splitOn_append_cons_self_of_not_mem hm]
  cases d.attrs.lookup n with
  | none => rfl
  | some a =>
    rw [Option.bind_some, Option.toList_some, flatMap_singleton]
    change follow _ (.obj _) ++ [] = _
    rw [append_nil]
    change (MongoQuery.lookup m (a.md.map fun f =>
      (f.1, Bson.obj [("value".toList, f.2)]))).toList.flatMap _ = _
    rw [lookup_map (fun v : Bson => Bson.obj [("value".toList, v)]), flatMap_toList]
    rfl

theorem reached_md_value (hn : '.' ∉ n) (hm : '.' ∉ m) :
    reached ("attrs.".toList ++ n ++ ".md.".toList ++ m ++ ".value".toList) d.toBson =
      ((d.attrs.lookup n).bind fun a => a.md.lookup m).toList := by
  refine (reached_md hn hm "value".toList).trans ?_
  cases (d.attrs.lookup n).bind fun a => a.md.lookup m <;> rfl

theorem reached_md_item (hn : '.' ∉ n) (hm : '.' ∉ m) :
    reached ("attrs.".toList ++ n ++ ".md.".toList ++ m ++ ".value.".toList ++ path) d.toBson =
      ((d.attrs.lookup n).bind fun a => a.md.lookup m).toList.flatMap
        (follow (path.splitOn '.')) := by
  have hkey : "attrs.".toList ++ n ++ ".md.".toList ++ m ++ ".value.".toList ++ path =
      "attrs.".toList ++ n ++ ".md.".toList ++ m ++ '.' :: ("value".toList ++ '.' :: path) := by
    simp
  rw [hkey, reached_md hn hm, splitOn_append_cons_self_of_not_mem (by decide)]
  congr 1
  funext v
  exact append_nil _

theorem reached_creDate : reached "creDate".toList d.toBson = [.num d.creDate] := rfl

theorem reached_modDate : reached "modDate".toList d.toBson = [.num d.modDate] := rfl

theorem reached_attr_creDate (hn : '.' ∉ n) :
    reached ("attrs.".toList ++ n ++ ".creDate".toList) d.toBson =
      ((d.attrs.lookup n).map fun a => Bson.num a.creDate).toList := by
  refine (reached_attr hn "creDate".toList).trans ?_
  cases d.attrs.lookup n <;> rfl

theorem reached_attr_modDate (hn : '.' ∉ n) :
    reached ("attrs.".toList ++ n ++ ".modDate".toList) d.toBson =
      ((d.attrs.lookup n).map fun a => Bson.num a.modDate).toList := by
  refine (reached_attr hn "modDate".toList).trans ?_
  cases d.attrs.lookup n <;> rfl

variable {regex : Text → Text → Bool} {type : StringFilterType} {item : FilterItem} {b : Bson}
  {vs : List Bson} {op : StringFilterOp} {value : Option FilterValue}

def conditionHolds (regex : Text → Text → Bool) (op : StringFilterOp)
    (value : Option FilterValue) (vs : List Bson) : Bool :=
  match condition op value with
  | none => true
  | some c => MongoQuery.operatorsHold regex vs c

theorem condition_head {c : Condition} (h : condition op value = some c) :
    ∃ f rest, c = f :: rest ∧ isOperator f.1 = true := by
  cases op with
  | sfopExists | sfopNotExists =>
    cases h
    exact ⟨_, _, rfl, rfl⟩
  | sfopMatchPattern =>
    cases value with
    | none => cases h
    | some x =>
      cases x with
      | string s =>
        cases h
        exact ⟨_, _, rfl, rfl⟩
      | _ => cases h
  | _ =>
    cases value with
    | none => cases h
    | some x =>
      cases h
      cases x <;> exact ⟨_, _, rfl, rfl⟩

theorem mongoKey_plain : isOperator (mongoKey type item) = false := by
  unfold mongoKey
  dsimp only
  split_ifs
  · cases type <;> rfl
  all_goals rfl

theorem filter_holds {c : Condition} (h : condition op value = some c) (d : EntityDoc) :
    MongoQuery.documentHolds regex d.toBson (.obj [(mongoKey type item, .obj c)]) =
      operatorsHold regex (reached (mongoKey type item) d.toBson) c := by
  obtain ⟨f, rest, rfl, hop⟩ := condition_head h
  have hplain : isOperator (mongoKey type item) = false := mongoKey_plain
  unfold MongoQuery.documentHolds allHold allHold MongoQuery.elementHolds
    MongoQuery.fieldHolds
  simp [hplain, hop]

theorem satisfies_eq (items : List FilterItem) (d : EntityDoc) :
    satisfies regex type items d = items.all fun item =>
      conditionHolds regex item.op item.value (reached (mongoKey type item) d.toBson) := by
  unfold satisfies mongoFilters
  induction items with
  | nil => rfl
  | cons item items ih =>
    rw [all_cons, ← ih, filterMap_cons]
    unfold conditionHolds
    cases hc : condition item.op item.value with
    | none => rfl
    | some c =>
      rw [Option.map_some, all_cons, filter_holds hc]

theorem seen_single : seen [b] = candidates b := List.flatMap_singleton _ _

def bsonEquals (value : FilterValue) (b : Bson) : Bool :=
  match value with
  | .numberRange x y => (Bson.num x).le b && b.le (.num y)
  | .dateRange x y => (Bson.num x).le b && b.le (.num y)
  | .stringRange x y => (Bson.str x).le b && b.le (.str y)
  | .numberList xs => xs.any fun x => (Bson.num x).beq b
  | .dateList xs => xs.any fun x => (Bson.num x).beq b
  | .stringList ss => ss.any fun s => (Bson.str s).beq b
  | .bool x => (Bson.bool x).beq b
  | .null => b.type == 10
  | .number x => (Bson.num x).beq b
  | .date x => (Bson.num x).beq b
  | .string s => (Bson.str s).beq b

/-- What equality says of the values that are looked at; the ends of a range may be met by
different ones. -/
def seenEquals (value : FilterValue) (vs : List Bson) : Bool :=
  match value with
  | .numberRange x y => (vs.any fun b => (Bson.num x).le b) && vs.any fun b => b.le (.num y)
  | .dateRange x y => (vs.any fun b => (Bson.num x).le b) && vs.any fun b => b.le (.num y)
  | .stringRange x y => (vs.any fun b => (Bson.str x).le b) && vs.any fun b => b.le (.str y)
  | value => vs.any fun b => bsonEquals value b

/-- What an item says of the values that are looked at. -/
def seenHolds (regex : Text → Text → Bool) (op : StringFilterOp) (value : Option FilterValue)
    (vs : List Bson) : Bool :=
  match op, value with
  | .sfopExists, _ => true
  | .sfopNotExists, _ => false
  | .sfopEquals, some x => seenEquals x vs
  | .sfopDiffers, some x => !seenEquals x vs
  | .sfopGreaterThan, some x => vs.any fun b => (orderArg x).lt b
  | .sfopGreaterThanOrEqual, some x => vs.any fun b => (orderArg x).le b
  | .sfopLessThan, some x => vs.any fun b => b.lt (orderArg x)
  | .sfopLessThanOrEqual, some x => vs.any fun b => b.le (orderArg x)
  | .sfopMatchPattern, some x => vs.any (MongoQuery.matchesRegex regex (stringOf x))
  | _, none => false

theorem seenEquals_single (x : FilterValue) : seenEquals x [b] = bsonEquals x b := by
  cases x <;> simp [seenEquals, bsonEquals]

theorem leaf_holds (name : String) (arg : Bson) (rest : Condition)
    (h : name.toList ≠ "$not".toList) :
    operatorsHold regex vs (operator name arg :: rest) =
      (MongoQuery.leafOperator regex vs name.toList arg &&
        operatorsHold regex vs rest) := by
  unfold operator
  rw [operatorsHold]
  congr 1
  cases arg <;> simp only [MongoQuery.operatorHolds, if_neg h]

theorem not_holds (fields rest : Condition) :
    operatorsHold regex vs (operator "$not" (.obj fields) :: rest) =
      (!operatorsHold regex vs fields && operatorsHold regex vs rest) := by
  unfold operator
  rw [operatorsHold, MongoQuery.operatorHolds, if_pos rfl]

theorem holds_nil : operatorsHold regex vs [] = true := by
  rw [operatorsHold]

theorem exists_holds (x : Bool) (rest : Condition) :
    operatorsHold regex vs (operator "$exists" (.bool x) :: rest) =
      ((!vs.isEmpty == x) && operatorsHold regex vs rest) :=
  leaf_holds _ _ _ (by decide)

theorem gt_holds (arg : Bson) (rest : Condition) :
    operatorsHold regex vs (operator "$gt" arg :: rest) =
      (((seen vs).any fun v => arg.lt v) && operatorsHold regex vs rest) :=
  leaf_holds _ _ _ (by decide)

theorem gte_holds (arg : Bson) (rest : Condition) :
    operatorsHold regex vs (operator "$gte" arg :: rest) =
      (((seen vs).any fun v => arg.le v) && operatorsHold regex vs rest) :=
  leaf_holds _ _ _ (by decide)

theorem lt_holds (arg : Bson) (rest : Condition) :
    operatorsHold regex vs (operator "$lt" arg :: rest) =
      (((seen vs).any fun v => v.lt arg) && operatorsHold regex vs rest) :=
  leaf_holds _ _ _ (by decide)

theorem lte_holds (arg : Bson) (rest : Condition) :
    operatorsHold regex vs (operator "$lte" arg :: rest) =
      (((seen vs).any fun v => v.le arg) && operatorsHold regex vs rest) :=
  leaf_holds _ _ _ (by decide)

theorem in_holds (items : List Bson) (rest : Condition) :
    operatorsHold regex vs (operator "$in" (.arr items) :: rest) =
      (((seen vs).any fun v => items.any fun item => item.beq v) &&
        operatorsHold regex vs rest) :=
  leaf_holds _ _ _ (by decide)

theorem nin_holds (items : List Bson) (rest : Condition) :
    operatorsHold regex vs (operator "$nin" (.arr items) :: rest) =
      ((!(seen vs).any fun v => items.any fun item => item.beq v) &&
        operatorsHold regex vs rest) :=
  leaf_holds _ _ _ (by decide)

theorem regex_holds (re : Text) (rest : Condition) :
    operatorsHold regex vs (operator "$regex" (.str re) :: rest) =
      ((seen vs).any (MongoQuery.matchesRegex regex re) &&
        operatorsHold regex vs rest) :=
  leaf_holds _ _ _ (by decide)

theorem type_holds (t : ℚ) (rest : Condition) :
    operatorsHold regex vs (operator "$type" (.num t) :: rest) =
      (((seen vs).any fun v => v.type == t) && operatorsHold regex vs rest) :=
  leaf_holds _ _ _ (by decide)

theorem equals_value (x : FilterValue) :
    operatorsHold regex [b] (equalsCondition x) =
      seenEquals x (candidates b) := by
  cases x <;>
    simp [equalsCondition, seenEquals, bsonEquals, exists_holds, gte_holds, lte_holds, in_holds,
      type_holds, seen_single, holds_nil, Function.comp_def]

theorem differs_value (x : FilterValue) :
    operatorsHold regex [b] (differsCondition x) =
      !seenEquals x (candidates b) := by
  cases x <;>
    simp [differsCondition, seenEquals, bsonEquals, not_holds, exists_holds, gte_holds, lte_holds,
      nin_holds, type_holds, seen_single, holds_nil, Function.comp_def]

theorem condition_value (hv : OpTakes op value) : conditionHolds regex op value [b] =
    seenHolds regex op value (candidates b) := by
  cases op with
  | sfopExists => exact exists_holds true []
  | sfopNotExists => exact exists_holds false []
  | sfopMatchPattern =>
    cases value with
    | none => exact absurd hv id
    | some x =>
      cases x with
      | string s =>
        refine (regex_holds s []).trans ?_
        rw [seen_single, holds_nil, Bool.and_true]
        rfl
      | _ => exact absurd hv id
  | sfopEquals =>
    cases value with
    | none => exact absurd hv id
    | some x => exact equals_value x
  | sfopDiffers =>
    cases value with
    | none => exact absurd hv id
    | some x => exact differs_value x
  | _ =>
    cases value with
    | none => exact absurd hv id
    | some x =>
      simp [conditionHolds, condition, seenHolds, gt_holds, gte_holds, lt_holds, lte_holds,
        seen_single, holds_nil]

theorem condition_none (hv : OpTakes op value) :
    conditionHolds regex op value [] = (op == .sfopNotExists) := by
  have hseen : seen [] = [] := rfl
  cases op with
  | sfopExists => exact exists_holds true []
  | sfopNotExists => exact exists_holds false []
  | sfopMatchPattern =>
    cases value with
    | none => exact absurd hv id
    | some x =>
      cases x with
      | string s => exact regex_holds s []
      | _ => exact absurd hv id
  | sfopEquals =>
    cases value with
    | none => exact absurd hv id
    | some x =>
      cases x <;>
        simp [conditionHolds, condition, equalsCondition, exists_holds, gte_holds, in_holds, hseen]
  | sfopDiffers =>
    cases value with
    | none => exact absurd hv id
    | some x =>
      cases x <;> simp [conditionHolds, condition, differsCondition, exists_holds]
  | _ =>
    cases value with
    | none => exact absurd hv id
    | some x =>
      simp [conditionHolds, condition, gt_holds, gte_holds, lt_holds, lte_holds, hseen]

end StringFilterMongo
