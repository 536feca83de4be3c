import OrionLd.QTreeToBsonObj

/-! The second back end for q trees, qTreeToBson, compared with qTreeToBsonObj. It writes into its
tree: a '!=' node is turned into '==' and wrapped in a $not, which Mongo does not know on the level
of a query. The bounds of an ordering and the items of a list are narrowed to integers of a fixed
width. -/
namespace QTreeToBson

open QFilterLex QFilterParse QFilterGrammar QFilterSentence MongoQuery QTreeToBsonObj

inductive BsonResult (α : Type) where
  | done (a : α)
  | failed (e : QError)
  | fault

def BsonResult.map {α β : Type} (f : α → β) : BsonResult α → BsonResult β
  | .done a => .done (f a)
  | .failed e => .failed e
  | .fault => .fault

/-- The conversion of a double to int64_t; out of range the language leaves it open, and
the processor gives the smallest value. -/
def toInt64 (x : ℚ) : ℤ :=
  let n := x.num.tdiv x.den
  if -2 ^ 63 ≤ n ∧ n < 2 ^ 63 then n else -2 ^ 63

def toInt32 (n : ℤ) : ℤ := n.bmod (2 ^ 32)

def orderBound (node : QNode) : Option Bson :=
  match node.type, node.value with
  | .qStringValue, .s text => some (.str text)
  | .qIntegerValue, .i n => some (.num n)
  | .qFloatValue, .f x => some (.num (toInt64 x))
  | _, _ => none

def listItem (node : QNode) : Option Bson :=
  match node.type, node.value with
  | .qIntegerValue, .i n => some (.num (toInt32 n))
  | _, _ => plainScalar node

def invalidAfter (what : String) (right : QNode) : BsonResult Elements :=
  .failed ⟨"ngsi-ld query language: invalid token after " ++ what, qNodeType right.type⟩

def orderResult (op what : String) (name : Name) (right : QNode) : BsonResult Elements :=
  match orderBound right with
  | some v => .done [(name, condition op v)]
  | none => invalidAfter what right

def eqResult (name : Name) (right : QNode) : BsonResult Elements :=
  match scalarOf right with
  | some v => .done [(name, v)]
  | none =>
    if right.type = .qRange then
      match limitFields "$gte" "$lte" right with
      | some ([], _) => .done []
      | some (lower, upper) => .done [(name, .obj (lower ++ upper))]
      | none => .fault
    else if right.type = .qComma then
      .done [(name, condition "$in" (.arr (right.children.filterMap listItem)))]
    else invalidAfter "EQ" right

def onSides (children : List QNode) (f : Name → QNode → BsonResult Elements) :
    BsonResult Elements :=
  match children with
  | left :: right :: _ =>
    match nameOf left with
    | some name => f name right
    | none => .fault
  | _ => .fault

def onName (children : List QNode) (f : Name → Elements) : BsonResult Elements :=
  match children.head?.bind nameOf with
  | some name => .done (f name)
  | none => .fault

def leafResult (type : QNodeType) (children : List QNode) : BsonResult Elements :=
  match type with
  | .qGT => onSides children (orderResult "$gt" "GT")
  | .qGE => onSides children (orderResult "$gte" "GT")
  | .qLT => onSides children (orderResult "$lt" "LT")
  | .qLE => onSides children (orderResult "$lte" "LT")
  | .qEQ => onSides children eqResult
  | .qExists => onName children fun name => [(name, condition "$exists" (.bool true))]
  | .qNotExists => onName children fun name => [(name, condition "$exists" (.bool false))]
  | .qMatch => onSides children fun name right =>
    match nameOf right with
    | some re => .done [(name, condition "$regex" (.str re))]
    | none => .fault
  | .qNoMatch => onSides children fun name right =>
    match nameOf right with
    | some re => .done [(name, condition "$not" (condition "$regex" (.str re)))]
    | none => .fault
  | _ => .fault

mutual
/-- The tree as the function leaves it, and what it appends. -/
def qTreeToBson : QNode → QNode × BsonResult Elements
  | .mk type value children =>
    match type with
    | .qOr => (.mk .qOr value (orDocuments children).1,
      (orDocuments children).2.map fun qs => [("$or".toList, .arr (qs.map .obj))])
    | .qAnd => (.mk .qAnd value (andDocuments children).1, (andDocuments children).2)
    | .qNE => (.mk .qEQ value children,
      (leafResult .qEQ children).map fun q => [("$not".toList, .obj q)])
    | _ => (.mk type value children, leafResult type children)
def orDocuments : List QNode → List QNode × BsonResult (List Elements)
  | [] => ([], .done [])
  | node :: nodes =>
    match qTreeToBson node with
    | (node, .done q) =>
      (node :: (orDocuments nodes).1, (orDocuments nodes).2.map fun qs => q :: qs)
    | (node, .failed e) => (node :: nodes, .failed e)
    | (node, .fault) => (node :: nodes, .fault)
def andDocuments : List QNode → List QNode × BsonResult Elements
  | [] => ([], .done [])
  | node :: nodes =>
    match qTreeToBson node with
    | (node, .done q) =>
      (node :: (andDocuments nodes).1, (andDocuments nodes).2.map fun qs => q ++ qs)
    | (node, .failed e) => (node :: nodes, .failed e)
    | (node, .fault) => (node :: nodes, .fault)
end

/-- The float bounds and the list items that survive the narrowing. -/
def Narrowed (node : QNode) : Prop :=
  match node.type, node.value with
  | .qFloatValue, .f x => (toInt64 x : ℚ) = x
  | _, _ => True

def SmallItem (node : QNode) : Prop :=
  match node.type, node.value with
  | .qIntegerValue, .i n => toInt32 n = n
  | _, _ => True

/-- The operands that both functions have the same case for. -/
def Shared (type : QNodeType) (right : Option QNode) : Prop :=
  match type, right with
  | .qExists, _ => True
  | .qNotExists, _ => True
  | .qEQ, some r => (scalarOf r).isSome ∨ (∃ a b, PlainRange r a b) ∨
      r.type = .qComma ∧ ∀ item ∈ r.children, SmallItem item
  | .qGT, some r => (plainScalar r).isSome ∧ Narrowed r
  | .qGE, some r => (plainScalar r).isSome ∧ Narrowed r
  | .qLT, some r => (plainScalar r).isSome ∧ Narrowed r
  | .qLE, some r => (plainScalar r).isSome ∧ Narrowed r
  | .qMatch, some r => (nameOf r).isSome
  | _, _ => False

def SharedLeaf (type : QNodeType) (children : List QNode) : Prop :=
  ∃ left rest, children = left :: rest ∧ (nameOf left).isSome ∧ Shared type rest.head?

mutual
def SharedTree : QNode → Prop
  | .mk type _ children =>
    match type with
    | .qOr => SharedTrees children
    | .qAnd => SharedTrees children
    | _ => SharedLeaf type children
def SharedTrees : List QNode → Prop
  | [] => True
  | node :: nodes => SharedTree node ∧ SharedTrees nodes
end

variable {r : QNode}

theorem orderBound_eq {v : Bson} (hv : plainScalar r = some v) (hn : Narrowed r) :
    orderBound r = some v := by
  unfold plainScalar at hv
  unfold orderBound
  split at hv
  · rename_i n ht hval
    simp only [ht, hval]
    exact hv
  · rename_i x ht hval
    simp only [Narrowed, ht, hval] at hn
    simp only [ht, hval, hn]
    exact hv
  · rename_i text ht hval
    simp only [ht, hval]
    exact hv
  · cases hv

theorem listItem_eq (h : SmallItem r) : listItem r = plainScalar r := by
  unfold listItem
  split
  · rename_i n ht hval
    simp only [SmallItem, ht, hval] at h
    simp only [plainScalar, ht, hval, h]
  · rfl

theorem listItems_eq (h : ∀ item ∈ r.children, SmallItem item) :
    r.children.filterMap listItem = listItems r :=
  List.filterMap_congr fun item hitem => listItem_eq (h item hitem)

theorem eq_agrees (name : Name) {right : QNode} (h : Shared .qEQ (some right)) :
    ∃ q, eqElements name right = some q ∧ eqResult name right = .done q := by
  rcases h with hv | ⟨a, b, hr⟩ | ⟨ht, hitems⟩
  · obtain ⟨v, hv⟩ := Option.isSome_iff_exists.mp hv
    exact ⟨[(name, v)], by simp [eqElements, hv], by simp [eqResult, hv]⟩
  · refine ⟨[(name, .obj [("$gte".toList, a), ("$lte".toList, b)])], ?_, ?_⟩
    · simp only [eqElements, range_not_scalar hr.isRange, hr.isRange, if_true,
        limitFields_range hr, Option.map_some]
      rfl
    · simp only [eqResult, range_not_scalar hr.isRange, hr.isRange, if_true, limitFields_range hr]
      rfl
  · refine ⟨[(name, condition "$in" (.arr (listItems right)))], ?_, ?_⟩
    · simp [eqElements, list_not_scalar ht, ht]
    · simp [eqResult, list_not_scalar ht, ht, listItems_eq hitems]

theorem order_agrees {op what : String} {name : Name} {right : QNode}
    (hv : (plainScalar right).isSome) (hn : Narrowed right) :
    orderResult op what name right = .done (orderElements op name right) := by
  obtain ⟨v, hv⟩ := Option.isSome_iff_exists.mp hv
  simp only [orderResult, orderBound_eq hv hn, orderElements, plain_scalar hv]

theorem leaf_agrees {type : QNodeType} {children : List QNode} (h : SharedLeaf type children) :
    ∃ q, leafElements type children = some q ∧ leafResult type children = .done q := by
  obtain ⟨left, rest, rfl, hleft, hshared⟩ := h
  obtain ⟨name, hname⟩ := Option.isSome_iff_exists.mp hleft
  cases type with
  | qExists =>
    exact ⟨[(name, condition "$exists" (.bool true))], by simp [leafElements, hname],
      by simp [leafResult, onName, hname]⟩
  | qNotExists =>
    refine ⟨[(name, condition "$exists" (.bool false))], ?_, by simp [leafResult, onName, hname]⟩
    simp only [leafElements, List.head?_cons, Option.bind_some, hname, Option.map_some]
    rfl
  | qMatch =>
    rcases rest with _ | ⟨right, rest⟩
    · exact hshared.elim
    obtain ⟨re, hre⟩ := Option.isSome_iff_exists.mp hshared
    exact ⟨[(name, condition "$regex" (.str re))], by simp only [leafElements, hname, hre],
      by simp only [leafResult, onSides, hname, hre]⟩
  | qEQ =>
    rcases rest with _ | ⟨right, rest⟩
    · exact hshared.elim
    · obtain ⟨q, h1, h2⟩ := eq_agrees name hshared
      exact ⟨q, by simp [leafElements, hname, h1], by simp [leafResult, onSides, hname, h2]⟩
  | qGT =>
    rcases rest with _ | ⟨right, rest⟩
    · exact hshared.elim
    · exact ⟨orderElements "$gt" name right, by simp [leafElements, hname, orderOp],
        by simp [leafResult, onSides, hname, order_agrees hshared.1 hshared.2]⟩
  | qGE =>
    rcases rest with _ | ⟨right, rest⟩
    · exact hshared.elim
    · exact ⟨orderElements "$gte" name right, by simp [leafElements, hname, orderOp],
        by simp [leafResult, onSides, hname, order_agrees hshared.1 hshared.2]⟩
  | qLT =>
    rcases rest with _ | ⟨right, rest⟩
    · exact hshared.elim
    · exact ⟨orderElements "$lt" name right, by simp [leafElements, hname, orderOp],
        by simp [leafResult, onSides, hname, order_agrees hshared.1 hshared.2]⟩
  | qLE =>
    rcases rest with _ | ⟨right, rest⟩
    · exact hshared.elim
    · exact ⟨orderElements "$lte" name right, by simp [leafElements, hname, orderOp],
        by simp [leafResult, onSides, hname, order_agrees hshared.1 hshared.2]⟩
  | _ => exact hshared.elim

mutual
theorem tree_agrees (t : QNode) (h : SharedTree t) :
    ∃ q, qTreeToBsonObj t = some q ∧ qTreeToBson t = (t, .done q) := by
  obtain ⟨type, value, children⟩ := t
  by_cases hor : type = .qOr
  · subst hor
    obtain ⟨qs, h1, h2, -, -⟩ := trees_agree children h
    exact ⟨[("$or".toList, .arr (qs.map .obj))], by simp [qTreeToBsonObj, h1],
      by simp [qTreeToBson, h2, BsonResult.map]⟩
  · by_cases hand : type = .qAnd
    · subst hand
      obtain ⟨qs, -, -, h1, h2⟩ := trees_agree children h
      exact ⟨qs.flatten, by simpa [qTreeToBsonObj] using h1, by simp [qTreeToBson, h2]⟩
    have hleaf : SharedLeaf type children := by
      cases type <;> first | exact h | exact absurd rfl hor | exact absurd rfl hand
    have hne : type ≠ .qNE := by
      rintro rfl
      obtain ⟨left, rest, -, -, hs⟩ := hleaf
      exact hs
    obtain ⟨q, h1, h2⟩ := leaf_agrees hleaf
    refine ⟨q, ?_, ?_⟩
    · rw [← h1]
      cases type <;> first | rfl | exact absurd rfl hor | exact absurd rfl hand
    · rw [← h2]
      cases type <;>
        first | rfl | exact absurd rfl hor | exact absurd rfl hand | exact absurd rfl hne
theorem trees_agree (ts : List QNode) (h : SharedTrees ts) :
    ∃ qs : List Elements, orItems ts = some qs ∧ orDocuments ts = (ts, .done qs) ∧
      andElements ts = some qs.flatten ∧ andDocuments ts = (ts, .done qs.flatten) := by
  cases ts with
  | nil => exact ⟨[], by simp [orItems], by simp [orDocuments], by simp [andElements],
      by simp [andDocuments]⟩
  | cons t ts =>
    obtain ⟨ht, hts⟩ := h
    obtain ⟨q, hq, hq'⟩ := tree_agrees t ht
    obtain ⟨qs, h1, h2, h3, h4⟩ := trees_agree ts hts
    refine ⟨q :: qs, ?_, ?_, ?_, ?_⟩
    · simp [orItems, hq, h1]
    · simp [orDocuments, hq', h2, BsonResult.map]
    · simp [andElements, hq, h3]
    · simp [andDocuments, hq', h4, BsonResult.map]
end

/-- On trees of shared operands both back ends succeed, leave the tree as it is and select
the same documents. -/
theorem back_ends_agree (t : QNode) (h : SharedTree t) :
    ∃ q q', qTreeToBsonObj t = some q ∧ qTreeToBson t = (t, .done q') ∧
      ∀ regex d, allHold regex d q = allHold regex d q' := by
  obtain ⟨q, h1, h2⟩ := tree_agrees t h
  exact ⟨q, q, h1, h2, fun _ _ => rfl⟩

theorem back_ends_agree_compared_then_bare :
    ∃ q q', qTreeToBsonObj (comparedThenBare.tree sampleNames) = some q ∧
      qTreeToBson (comparedThenBare.tree sampleNames) =
        (comparedThenBare.tree sampleNames, .done q') ∧
      ∀ regex d, allHold regex d q = allHold regex d q' := by
  refine back_ends_agree _ ⟨?_, ?_, trivial⟩
  · exact ⟨_, _, rfl, rfl, .inl rfl⟩
  · exact ⟨_, _, rfl, rfl, trivial⟩

def BsonResult.selects (regex : Name → Name → Bool) (d : Bson) :
    BsonResult Elements → Option Bool
  | .done q => some (allHold regex d q)
  | _ => none

def selections (o : Operand) (v : Bson) : Option Bool × Option Bool :=
  ((qTreeToBsonObj (o.tree sampleNames)).map (allHold sampleRegex (sampleEntity v)),
    (qTreeToBson (o.tree sampleNames)).2.selects sampleRegex (sampleEntity v))

/-- An inequality, which is rewritten and refused, a float bound, an item beyond 32 bits, a
negated match and the ordering of a boolean. -/
theorem back_ends_differ :
    (qFilter sampleLex sampleNames "A!=1".toList =
        .done ((Operand.compare "A".toList .ne (.value (.int 1))).tree sampleNames) ∧
      (qTreeToBson ((Operand.compare "A".toList .ne (.value (.int 1))).tree sampleNames)).1 =
        (Operand.compare "A".toList .eq (.value (.int 1))).tree sampleNames ∧
      selections (.compare "A".toList .ne (.value (.int 1))) (.num 2) =
        (some true, some false)) ∧
    (qFilter { sampleLex with strtod := fun _ => 3 / 2 } sampleNames "A>1.5".toList =
        .done ((Operand.compare "A".toList .gt (.value (.float (3 / 2)))).tree sampleNames) ∧
      selections (.compare "A".toList .gt (.value (.float (3 / 2)))) (.num (5 / 4)) =
        (some false, some true)) ∧
    (qFilter sampleLex sampleNames "A==4294967297,2".toList = .done ((Operand.compare "A".toList .eq
          (.list (.int 4294967297) (.int 2) [])).tree sampleNames) ∧
      selections (.compare "A".toList .eq (.list (.int 4294967297) (.int 2) [])) (.num 1) =
        (some false, some true)) ∧
    (qFilter sampleLex sampleNames "A!~=RE(x)".toList =
        .done ((Operand.regexp "A".toList .doesNot "x".toList).tree sampleNames) ∧
      selections (.regexp "A".toList .doesNot "x".toList) (.str "x".toList) =
        (some true, some false)) ∧
    (qFilter sampleLex sampleNames "A>true".toList =
        .done ((Operand.compare "A".toList .gt (.value .yes)).tree sampleNames) ∧
      selections (.compare "A".toList .gt (.value .yes)) (.bool true) = (some false, none)) := by
  refine ⟨⟨?_, ?_, ?_⟩, ⟨?_, ?_⟩, ⟨?_, ?_⟩, ⟨?_, ?_⟩, ⟨?_, ?_⟩⟩ <;> decide +kernel

end QTreeToBson
