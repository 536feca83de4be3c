import OrionLd.QFilterSentence
import OrionLd.MongoQuery
import Mathlib.Data.Char
import Mathlib.Data.List.Lex

/-! The Mongo filter that qTreeToBsonObj builds from a q tree, and the meaning of the tree. The
builder is a list of elements, in the order of the append calls. The meaning is that of NGSI-LD: a
value, a list and a range are equal to what they contain, and a variable unequal or not matched has
to exist. -/
namespace QTreeToBsonObj

open QFilterLex QFilterParse QFilterGrammar QFilterSentence MongoQuery

abbrev Elements := List (Name × Bson)

/-- The value union read as a string; nothing where it holds no pointer to one. -/
def nameOf (node : QNode) : Option Name :=
  match node.value with
  | .v path => path
  | .s text => some text
  | .re text => some text
  | _ => none

def plainScalar (node : QNode) : Option Bson :=
  match node.type, node.value with
  | .qIntegerValue, .i n => some (.num n)
  | .qFloatValue, .f x => some (.num x)
  | .qStringValue, .s text => some (.str text)
  | _, _ => none

def scalarOf (node : QNode) : Option Bson :=
  match node.type with
  | .qTrueValue => some (.bool true)
  | .qFalseValue => some (.bool false)
  | _ => plainScalar node

def condition (op : String) (arg : Bson) : Bson := .obj [(op.toList, arg)]

/-- The two limits of a range under the two operators; limits of other types than the three plain
ones leave the objects empty. -/
def limitFields (lowerOp upperOp : String) (range : QNode) : Option (Elements × Elements) :=
  match range.children with
  | lower :: upper :: _ =>
    match plainScalar lower, plainScalar upper with
    | some a, some b => some ([(lowerOp.toList, a)], [(upperOp.toList, b)])
    | none, none => some ([], [])
    | _, _ => none
  | _ => none

def listItems (comma : QNode) : List Bson := comma.children.filterMap plainScalar

def eqElements (name : Name) (right : QNode) : Option Elements :=
  match scalarOf right with
  | some v => some [(name, v)]
  | none =>
    if right.type = .qRange then
      (limitFields "$gte" "$lte" right).map fun l => [(name, .obj (l.1 ++ l.2))]
    else if right.type = .qComma then
      some [(name, condition "$in" (.arr (listItems right)))]
    else some []

/-- Mongo's $ne also selects documents without the field, hence the $exists. -/
def neElements (name : Name) (right : QNode) : Option Elements :=
  let existsElement : Name × Bson := (name, condition "$exists" (.bool true))
  match scalarOf right with
  | some v => some [existsElement, (name, condition "$ne" v)]
  | none =>
    if right.type = .qRange then
      (limitFields "$lt" "$gt" right).map fun l =>
        [existsElement, ("$or".toList, .arr [.obj [(name, .obj l.1)], .obj [(name, .obj l.2)]])]
    else if right.type = .qComma then
      some [existsElement, (name, condition "$nin" (.arr (listItems right)))]
    else some [existsElement, (name, .obj [])]

def orderOp : QNodeType → String
  | .qGT => "$gt"
  | .qGE => "$gte"
  | .qLT => "$lt"
  | _ => "$lte"

def orderElements (op : String) (name : Name) (right : QNode) : Elements :=
  match scalarOf right with
  | some v => [(name, condition op v)]
  | none => [(name, .obj [])]

/-- Neither AND nor OR. The case of the negated match is inside the branch of '!=', where the type
cannot be that of a match. -/
def leafElements (type : QNodeType) (children : List QNode) : Option Elements :=
  match type with
  | .qExists | .qNotExists =>
    (children.head?.bind nameOf).map fun name =>
      [(name, condition "$exists" (.bool (type == .qExists)))]
  | .qMatch =>
    match children with
    | left :: right :: _ =>
      match nameOf left, nameOf right with
      | some name, some re => some [(name, condition "$regex" (.str re))]
      | _, _ => none
    | _ => none
  | .qEQ =>
    match children with
    | left :: right :: _ => (nameOf left).bind fun name => eqElements name right
    | _ => none
  | .qNE =>
    match children with
    | left :: right :: _ => (nameOf left).bind fun name => neElements name right
    | _ => none
  | .qGT | .qGE | .qLT | .qLE =>
    match children with
    | left :: right :: _ => (nameOf left).map fun name => orderElements (orderOp type) name right
    | _ => none
  | _ => some []

mutual
/-- The elements appended for a tree; none where a NULL pointer is followed. -/
def qTreeToBsonObj : QNode → Option Elements
  | .mk type _ children =>
    match type with
    | .qOr => (orItems children).map fun items => [("$or".toList, .arr (items.map .obj))]
    | .qAnd => andElements children
    | _ => leafElements type children
def orItems : List QNode → Option (List Elements)
  | [] => some []
  | node :: nodes => (qTreeToBsonObj node).bind fun q => (orItems nodes).map fun qs => q :: qs
def andElements : List QNode → Option Elements
  | [] => some []
  | node :: nodes =>
    (qTreeToBsonObj node).bind fun q => (andElements nodes).map fun qs => q ++ qs
end

def equals (right : QNode) (v : Bson) : Bool :=
  if right.type = .qRange then
    match right.children with
    | lower :: upper :: _ =>
      (scalarOf lower).any fun a => (scalarOf upper).any fun b => a.le v && v.le b
    | _ => false
  else if right.type = .qComma then
    right.children.any fun item => (scalarOf item).any fun a => a.beq v
  else (scalarOf right).any fun a => a.beq v

variable (regex : Name → Name → Bool)

def relates (type : QNodeType) (vs : List Bson) (right : Option QNode) : Bool :=
  match type, right with
  | .qExists, _ => !vs.isEmpty
  | .qNotExists, _ => vs.isEmpty
  | .qEQ, some r => (seen vs).any (equals r)
  | .qNE, some r => !vs.isEmpty && !(seen vs).any (equals r)
  | .qGT, some r => (scalarOf r).any fun a => (seen vs).any fun v => a.lt v
  | .qGE, some r => (scalarOf r).any fun a => (seen vs).any fun v => a.le v
  | .qLT, some r => (scalarOf r).any fun a => (seen vs).any fun v => v.lt a
  | .qLE, some r => (scalarOf r).any fun a => (seen vs).any fun v => v.le a
  | .qMatch, some r => (nameOf r).any fun re => (seen vs).any (matchesRegex regex re)
  | .qNoMatch, some r =>
    !vs.isEmpty && !(nameOf r).any fun re => (seen vs).any (matchesRegex regex re)
  | _, _ => false

def leafReads (d : Bson) (type : QNodeType) (children : List QNode) : Bool :=
  (children.head?.bind nameOf).any fun path =>
    relates regex type (reached path d) children.tail.head?

mutual
def reads (d : Bson) : QNode → Bool
  | .mk type _ children =>
    match type with
    | .qOr => readsAny d children
    | .qAnd => readsAll d children
    | _ => leafReads regex d type children
def readsAny (d : Bson) : List QNode → Bool
  | [] => false
  | node :: nodes => reads d node || readsAny d nodes
def readsAll (d : Bson) : List QNode → Bool
  | [] => true
  | node :: nodes => reads d node && readsAll d nodes
end

def SameKind : Bson → Bson → Prop
  | .num _, .num _ => True
  | .str _, .str _ => True
  | _, _ => False

structure PlainRange (r : QNode) (a b : Bson) : Prop where
  isRange : r.type = .qRange
  limits : ∃ lower upper, r.children = [lower, upper] ∧
    plainScalar lower = some a ∧ plainScalar upper = some b

def PlainList (r : QNode) : Prop :=
  r.type = .qComma ∧ ∀ item ∈ r.children, (plainScalar item).isSome

/-- The right-hand sides that the branch of the operator has a case for. A range is a pair
of conditions, which only say the same about one single value; its negation is a pair of
orderings, which only hold of values of the type of the limits. -/
def Covered (type : QNodeType) (vs : List Bson) (right : Option QNode) : Prop :=
  match type, right with
  | .qExists, _ => True
  | .qNotExists, _ => True
  | .qEQ, some r => (scalarOf r).isSome ∨ PlainList r ∨
      ∃ a b, PlainRange r a b ∧ (seen vs).length ≤ 1
  | .qNE, some r => (scalarOf r).isSome ∨ PlainList r ∨
      ∃ a b, PlainRange r a b ∧ (seen vs).length ≤ 1 ∧
        ∀ v ∈ seen vs, SameKind a v ∧ SameKind b v
  | .qGT, some r => (scalarOf r).isSome
  | .qGE, some r => (scalarOf r).isSome
  | .qLT, some r => (scalarOf r).isSome
  | .qLE, some r => (scalarOf r).isSome
  | .qMatch, some r => (nameOf r).isSome
  | _, _ => False

def CoveredLeaf (d : Bson) (type : QNodeType) (children : List QNode) : Prop :=
  ∃ path rest, children = qNode .qVariable (.v (some path)) :: rest ∧
    isOperator path = false ∧ Covered type (reached path d) rest.head?

mutual
def CoveredTree (d : Bson) : QNode → Prop
  | .mk type _ children =>
    match type with
    | .qOr => children ≠ [] ∧ CoveredTrees d children
    | .qAnd => CoveredTrees d children
    | _ => CoveredLeaf d type children
def CoveredTrees (d : Bson) : List QNode → Prop
  | [] => True
  | node :: nodes => CoveredTree d node ∧ CoveredTrees d nodes
end

variable {d : Bson} {name : Name} {vs : List Bson}

theorem operatorHolds_leaf {op : Name} (h : op ≠ "$not".toList) (arg : Bson) :
    operatorHolds regex vs op arg = leafOperator regex vs op arg := by
  cases arg <;> simp only [operatorHolds, if_neg h]

theorem condition_holds (hn : isOperator name = false) {op : String}
    (hop : isOperator op.toList = true) (hnot : op.toList ≠ "$not".toList) (arg : Bson) :
    elementHolds regex d name (condition op arg) =
      leafOperator regex (reached name d) op.toList arg := by
  simp only [elementHolds, condition, hn, Bool.false_eq_true, if_false, fieldHolds, hop, if_true,
    operatorsHold, operatorHolds_leaf regex hnot, Bool.and_true]

theorem exists_holds (vs : List Bson) (b : Bool) :
    leafOperator regex vs "$exists".toList (.bool b) = (!vs.isEmpty == b) := rfl

variable {r right : QNode} {a v : Bson}

theorem scalar_holds (hn : isOperator name = false) (hv : scalarOf r = some v) :
    elementHolds regex d name v = (seen (reached name d)).any v.beq := by
  cases v with
  | arr items | obj fields =>
    unfold scalarOf plainScalar at hv
    split at hv
    · cases hv
    · cases hv
    · split at hv <;> cases hv
  | _ => simp [elementHolds, hn, fieldHolds]

theorem plain_scalar {node : QNode} (h : plainScalar node = some a) : scalarOf node = some a := by
  unfold scalarOf
  split
  · rename_i ht
    simp [plainScalar, ht] at h
  · rename_i ht
    simp [plainScalar, ht] at h
  · exact h

theorem scalar_type (h : scalarOf r = some v) : r.type ≠ .qRange ∧ r.type ≠ .qComma := by
  constructor
  · intro ht
    simp [scalarOf, plainScalar, ht] at h
  · intro ht
    simp [scalarOf, plainScalar, ht] at h

theorem equals_scalar (h : scalarOf r = some v) (c : Bson) : equals r c = v.beq c := by
  obtain ⟨h1, h2⟩ := scalar_type h
  simp [equals, h1, h2, h]

theorem equals_list (h : PlainList r) (c : Bson) :
    equals r c = (listItems r).any fun item => item.beq c := by
  obtain ⟨ht, hitems⟩ := h
  have hne : ¬ (QNodeType.qComma = .qRange) := by simp
  simp only [equals, ht, hne, if_false, if_true, listItems]
  generalize r.children = items at hitems
  induction items with
  | nil => rfl
  | cons item items ih =>
    obtain ⟨a, ha⟩ := Option.isSome_iff_exists.mp (hitems item List.mem_cons_self)
    rw [List.any_cons, ih fun x hx => hitems x (List.mem_cons_of_mem item hx),
      List.filterMap_cons_some ha, List.any_cons, plain_scalar ha]
    rfl

theorem equals_range {b : Bson} (h : PlainRange r a b) (c : Bson) :
    equals r c = (a.le c && c.le b) := by
  obtain ⟨lower, upper, hc, ha, hb⟩ := h.limits
  simp [equals, h.isRange, hc, plain_scalar ha, plain_scalar hb]

theorem limitFields_range {b : Bson} (h : PlainRange r a b) (lowerOp upperOp : String) :
    limitFields lowerOp upperOp r = some ([(lowerOp.toList, a)], [(upperOp.toList, b)]) := by
  obtain ⟨lower, upper, hc, ha, hb⟩ := h.limits
  simp [limitFields, hc, ha, hb]

theorem range_not_scalar (h : r.type = .qRange) : scalarOf r = none := by
  simp [scalarOf, plainScalar, h]

theorem list_not_scalar (h : r.type = .qComma) : scalarOf r = none := by
  simp [scalarOf, plainScalar, h]

theorem any_and_single {p q : Bson → Bool} {cs : List Bson} (h : cs.length ≤ 1) :
    (cs.any p && cs.any q) = cs.any fun c => p c && q c := by
  rcases cs with _ | ⟨c, _ | ⟨c', cs⟩⟩
  · rfl
  · simp
  · simp at h

theorem eq_holds (hn : isOperator name = false)
    (hcov : Covered .qEQ (reached name d) (some right)) :
    ∃ q, eqElements name right = some q ∧
      allHold regex d q = (seen (reached name d)).any (equals right) := by
  rcases hcov with hv | hl | ⟨a, b, hr, hone⟩
  · obtain ⟨v, hv⟩ := Option.isSome_iff_exists.mp hv
    refine ⟨[(name, v)], by simp [eqElements, hv], ?_⟩
    have heq : equals right = v.beq := funext (equals_scalar hv)
    simp [allHold, scalar_holds regex hn hv, heq]
  · refine ⟨[(name, condition "$in" (.arr (listItems right)))], ?_, ?_⟩
    · simp [eqElements, list_not_scalar hl.1, hl.1]
    · have heq : equals right = fun c => (listItems right).any fun item => item.beq c :=
        funext (equals_list hl)
      rw [heq]
      simp only [allHold, Bool.and_true]
      exact condition_holds regex hn rfl (by decide) _
  · refine ⟨[(name, .obj [("$gte".toList, a), ("$lte".toList, b)])], ?_, ?_⟩
    · simp only [eqElements, range_not_scalar hr.isRange, hr.isRange, if_true,
        limitFields_range hr, Option.map_some]
      rfl
    · have heq : equals right = fun c => a.le c && c.le b := funext (equals_range hr)
      have hgte : leafOperator regex (reached name d) "$gte".toList a =
          (seen (reached name d)).any fun v => a.le v := rfl
      have hlte : leafOperator regex (reached name d) "$lte".toList b =
          (seen (reached name d)).any fun v => v.le b := rfl
      have hop : isOperator "$gte".toList = true := rfl
      rw [heq, ← any_and_single hone]
      simp only [allHold, elementHolds, hn, Bool.false_eq_true, if_false, fieldHolds, hop, if_true,
        operatorsHold, Bool.and_true]
      rw [operatorHolds_leaf regex (by decide), operatorHolds_leaf regex (by decide), hgte, hlte]

theorem decide_le {α : Type} [LinearOrder α] (x y : α) :
    (decide (x < y) || x == y) = !decide (y < x) := by
  rcases lt_trichotomy x y with h | h | h
  · simp [h, not_lt_of_gt h]
  · simp [h]
  · simp [h, not_lt_of_gt h, ne_of_gt h]

theorem le_eq_not_lt {c : Bson} (h : SameKind a c) : a.le c = !c.lt a := by
  cases a with
  | num x =>
    cases c with
    | num y => exact decide_le x y
    | _ => exact h.elim
  | str s =>
    cases c with
    | str t =>
      have h := decide_le s t
      simp only [Bson.le, Bson.lt, Bson.beq]
      convert h
    | _ => exact h.elim
  | _ => exact h.elim

theorem SameKind.symm {c : Bson} (h : SameKind a c) : SameKind c a := by
  cases a <;> cases c <;> exact h

theorem seen_ne_nil (vs : List Bson) : seen (v :: vs) ≠ [] := by
  cases v <;> simp [seen, candidates]

theorem ne_holds (hn : isOperator name = false)
    (hcov : Covered .qNE (reached name d) (some right)) :
    ∃ q, neElements name right = some q ∧ allHold regex d q =
      (!(reached name d).isEmpty && !(seen (reached name d)).any (equals right)) := by
  have hexists : elementHolds regex d name (condition "$exists" (.bool true)) =
      !(reached name d).isEmpty := by
    rw [condition_holds regex hn rfl (by decide), exists_holds, beq_true]
  rcases hcov with hv | hl | ⟨a, b, hr, hone, hkind⟩
  · obtain ⟨v, hv⟩ := Option.isSome_iff_exists.mp hv
    refine ⟨[(name, condition "$exists" (.bool true)), (name, condition "$ne" v)],
      by simp only [neElements, hv], ?_⟩
    have heq : equals right = v.beq := funext (equals_scalar hv)
    rw [heq]
    simp only [allHold, hexists, Bool.and_true]
    rw [condition_holds regex hn rfl (by decide)]
    rfl
  · refine ⟨[(name, condition "$exists" (.bool true)),
      (name, condition "$nin" (.arr (listItems right)))],
      by simp only [neElements, list_not_scalar hl.1, hl.1, reduceCtorEq, if_false, if_true], ?_⟩
    have heq : equals right = fun c => (listItems right).any fun item => item.beq c :=
      funext (equals_list hl)
    rw [heq]
    simp only [allHold, hexists, Bool.and_true]
    rw [condition_holds regex hn rfl (by decide)]
    rfl
  · refine ⟨[(name, condition "$exists" (.bool true)), ("$or".toList,
      .arr [.obj [(name, .obj [("$lt".toList, a)])], .obj [(name, .obj [("$gt".toList, b)])]])],
      by simp only [neElements, range_not_scalar hr.isRange, hr.isRange, if_true,
        limitFields_range hr, Option.map_some], ?_⟩
    have heq : equals right = fun c => a.le c && c.le b := funext (equals_range hr)
    have hlower : elementHolds regex d name (.obj [("$lt".toList, a)]) =
        (seen (reached name d)).any fun v => v.lt a :=
      condition_holds regex hn rfl (by decide) a
    have hupper : elementHolds regex d name (.obj [("$gt".toList, b)]) =
        (seen (reached name d)).any fun v => b.lt v :=
      condition_holds regex hn rfl (by decide) b
    rw [heq]
    simp only [allHold, hexists, elementHolds, if_true, anyHolds, documentHolds, Bool.and_true,
      Bool.or_false]
    simp only [elementHolds] at hlower hupper
    rw [hlower, hupper]
    cases hvs : reached name d with
    | nil => rfl
    | cons v vs =>
      rw [hvs] at hone hkind
      obtain ⟨c, hc⟩ : ∃ c, seen (v :: vs) = [c] := by
        have hpos := List.length_pos_iff.mpr (seen_ne_nil (v := v) vs)
        exact List.length_eq_one_iff.mp (by omega)
      rw [hc] at hkind ⊢
      obtain ⟨ha, hb⟩ := hkind c List.mem_cons_self
      have h1 := le_eq_not_lt ha
      have h2 := le_eq_not_lt hb.symm
      simp [h1, h2]

theorem order_holds (hn : isOperator name = false) {type : QNodeType}
    (ht : type = .qGT ∨ type = .qGE ∨ type = .qLT ∨ type = .qLE) (hv : (scalarOf right).isSome) :
    allHold regex d (orderElements (orderOp type) name right) =
      relates regex type (reached name d) (some right) := by
  obtain ⟨v, hv⟩ := Option.isSome_iff_exists.mp hv
  have hlist : orderElements (orderOp type) name right = [(name, condition (orderOp type) v)] := by
    simp only [orderElements, hv]
  rw [hlist]
  simp only [allHold, Bool.and_true]
  rcases ht with rfl | rfl | rfl | rfl
  · rw [condition_holds regex hn rfl (by decide)]
    simp only [relates, hv]
    rfl
  · rw [condition_holds regex hn rfl (by decide)]
    simp only [relates, hv]
    rfl
  · rw [condition_holds regex hn rfl (by decide)]
    simp only [relates, hv]
    rfl
  rw [condition_holds regex hn rfl (by decide)]
  simp only [relates, hv]
  rfl

theorem leaf_holds {type : QNodeType} {children : List QNode}
    (h : CoveredLeaf d type children) :
    ∃ q, leafElements type children = some q ∧
      allHold regex d q = leafReads regex d type children := by
  obtain ⟨path, rest, rfl, hn, hcov⟩ := h
  have hname : nameOf (qNode .qVariable (.v (some path))) = some path := rfl
  have hreads : leafReads regex d type (qNode .qVariable (.v (some path)) :: rest) =
      relates regex type (reached path d) rest.head? := by
    simp [leafReads, hname]
  rw [hreads]
  cases type with
  | qExists =>
    refine ⟨[(path, condition "$exists" (.bool true))], rfl, ?_⟩
    simp only [allHold, Bool.and_true]
    rw [condition_holds regex hn rfl (by decide), exists_holds, beq_true]
    rfl
  | qNotExists =>
    refine ⟨[(path, condition "$exists" (.bool false))], rfl, ?_⟩
    simp only [allHold, Bool.and_true]
    rw [condition_holds regex hn rfl (by decide), exists_holds, beq_false, Bool.not_not]
    rfl
  | qMatch =>
    rcases rest with _ | ⟨right, rest⟩
    · exact hcov.elim
    obtain ⟨re, hre⟩ := Option.isSome_iff_exists.mp hcov
    refine ⟨[(path, condition "$regex" (.str re))], by simp only [leafElements, hname, hre], ?_⟩
    simp only [allHold, Bool.and_true]
    rw [condition_holds regex hn rfl (by decide)]
    simp only [relates, List.head?_cons, hre]
    rfl
  | qEQ =>
    rcases rest with _ | ⟨right, rest⟩
    · exact hcov.elim
    · exact eq_holds regex hn hcov
  | qNE =>
    rcases rest with _ | ⟨right, rest⟩
    · exact hcov.elim
    · exact ne_holds regex hn hcov
  | qGT | qGE | qLT | qLE =>
    rcases rest with _ | ⟨right, rest⟩
    · exact hcov.elim
    · exact ⟨_, rfl, order_holds regex hn (by simp) hcov⟩
  | _ => exact hcov.elim

theorem or_element (d : Bson) (qs : List Elements) :
    allHold regex d [("$or".toList, .arr (qs.map .obj))] = qs.any (allHold regex d) := by
  simp [allHold, elementHolds, anyHolds_objects]

mutual
/-- The Mongo filter selects the documents that satisfy the tree. -/
theorem tree_holds (d : Bson) (t : QNode) (h : CoveredTree d t) :
    ∃ q, qTreeToBsonObj t = some q ∧ allHold regex d q = reads regex d t := by
  obtain ⟨type, value, children⟩ := t
  by_cases hor : type = .qOr
  · subst hor
    obtain ⟨-, hall⟩ := h
    obtain ⟨qs, hqs, hany, -⟩ := trees_hold d children hall
    refine ⟨[("$or".toList, .arr (qs.map .obj))], by simp [qTreeToBsonObj, hqs], ?_⟩
    rw [or_element, hany]
    simp [reads]
  · by_cases hand : type = .qAnd
    · subst hand
      obtain ⟨qs, -, -, hand, hall⟩ := trees_hold d children h
      exact ⟨_, by simpa [qTreeToBsonObj] using hand, by simpa [reads] using hall⟩
    have hleaf : CoveredLeaf d type children := by
      cases type <;> first | exact h | exact absurd rfl hor | exact absurd rfl hand
    obtain ⟨q, hq, hholds⟩ := leaf_holds regex hleaf
    refine ⟨q, ?_, ?_⟩
    · rw [← hq]
      cases type <;> first | rfl | exact absurd rfl hor | exact absurd rfl hand
    · rw [hholds]
      cases type <;> first | rfl | exact absurd rfl hor | exact absurd rfl hand
theorem trees_hold (d : Bson) (ts : List QNode) (h : CoveredTrees d ts) :
    ∃ qs : List Elements, orItems ts = some qs ∧
      qs.any (allHold regex d) = readsAny regex d ts ∧
      andElements ts = some qs.flatten ∧ allHold regex d qs.flatten = readsAll regex d ts := by
  cases ts with
  | nil => exact ⟨[], by simp [orItems], by simp [readsAny], by simp [andElements],
      by simp [allHold, readsAll]⟩
  | cons t ts =>
    obtain ⟨ht, hts⟩ := h
    obtain ⟨q, hq, hholds⟩ := tree_holds d t ht
    obtain ⟨qs, hor, hany, hand, hall⟩ := trees_hold d ts hts
    refine ⟨q :: qs, ?_, ?_, ?_, ?_⟩
    · simp [orItems, hq, hor]
    · simp [readsAny, hholds, hany]
    · simp [andElements, hq, hand]
    · simp [readsAll, allHold_append, hholds, hall]
end

/-- For a tree with a case for each of its operands, and a document whose values its ranges
can be applied to, the Mongo filter and the tree say the same about the document. -/
theorem filter_means_tree (regex : Name → Name → Bool) (d : Bson) (t : QNode)
    (h : CoveredTree d t) :
    ∃ q, qTreeToBsonObj t = some q ∧ (allHold regex d q = true ↔ reads regex d t = true) := by
  obtain ⟨q, hq, hholds⟩ := tree_holds regex d t h
  exact ⟨q, hq, by rw [hholds]⟩

def sampleEntity (v : Bson) : Bson :=
  .obj [("attrs".toList, .obj [(dbName (defaultUrl ++ "A".toList), .obj [("value".toList, v)])])]

def sampleRegex (re text : Name) : Bool := re == text

theorem filter_means_tree_compared_then_bare :
    ∃ q, qTreeToBsonObj (comparedThenBare.tree sampleNames) = some q ∧
      (allHold sampleRegex (sampleEntity (.num 1)) q = true ↔
        reads sampleRegex (sampleEntity (.num 1)) (comparedThenBare.tree sampleNames) = true) := by
  refine filter_means_tree sampleRegex _ _ ⟨?_, ?_, trivial⟩
  · exact ⟨_, _, rfl, by decide +kernel, Or.inl rfl⟩
  · exact ⟨_, _, rfl, by decide +kernel, trivial⟩

def verdicts (o : Operand) (v : Bson) : Option Bool × Bool :=
  ((qTreeToBsonObj (o.tree sampleNames)).map (allHold sampleRegex (sampleEntity v)),
    reads sampleRegex (sampleEntity v) (o.tree sampleNames))

/-- The filters of a negated match, of a list of booleans, of an ordering with a range, of
an inequality with a range for a value of another type, and of a range for an array. -/
theorem filter_differs_from_tree :
    (qFilter sampleLex sampleNames "A!~=RE(x)".toList =
        .done ((Operand.regexp "A".toList .doesNot "x".toList).tree sampleNames) ∧
      verdicts (.regexp "A".toList .doesNot "x".toList) (.str "x".toList) = (some true, false)) ∧
    (qFilter sampleLex sampleNames "A==true,true".toList =
        .done ((Operand.compare "A".toList .eq (.list .yes .yes [])).tree sampleNames) ∧
      verdicts (.compare "A".toList .eq (.list .yes .yes [])) (.bool true) =
        (some false, true)) ∧
    (qFilter sampleLex sampleNames "A>1..2".toList =
        .done ((Operand.compare "A".toList .gt (.range (.int 1) (.int 2))).tree sampleNames) ∧
      verdicts (.compare "A".toList .gt (.range (.int 1) (.int 2))) (.obj []) =
        (some true, false)) ∧
    (qFilter sampleLex sampleNames "A!=1..2".toList =
        .done ((Operand.compare "A".toList .ne (.range (.int 1) (.int 2))).tree sampleNames) ∧
      verdicts (.compare "A".toList .ne (.range (.int 1) (.int 2))) (.str "x".toList) =
        (some false, true)) ∧
    (qFilter sampleLex sampleNames "A==4..5".toList =
        .done ((Operand.compare "A".toList .eq (.range (.int 4) (.int 5))).tree sampleNames) ∧
      verdicts (.compare "A".toList .eq (.range (.int 4) (.int 5))) (.arr [.num 1, .num 9]) =
        (some true, false)) := by
  refine ⟨⟨?_, ?_⟩, ⟨?_, ?_⟩, ⟨?_, ?_⟩, ⟨?_, ?_⟩, ⟨?_, ?_⟩⟩ <;> decide +kernel

variable (names : NameEnv) (d : Bson)

mutual
/-- What a filter says of a document: that all operands of a level hold, or one of them. -/
def holds : Operand → Bool
  | .group .and first rest => holds first && holdAll rest
  | .group .or first rest => holds first || oneHolds rest
  | leaf => reads regex d (leaf.tree names)
def holdAll : List Operand → Bool
  | [] => true
  | o :: os => holds o && holdAll os
def oneHolds : List Operand → Bool
  | [] => false
  | o :: os => holds o || oneHolds os
end

theorem reads_level (sep : Separator) (node : QNode) (nodes : List QNode) :
    reads regex d (levelTree sep node nodes) = match sep with
      | .and => reads regex d node && readsAll regex d nodes
      | .or => reads regex d node || readsAny regex d nodes := by
  unfold levelTree
  split
  · rename_i hnil
    subst hnil
    cases sep <;> simp [readsAll, readsAny]
  · cases sep <;> rfl

mutual
theorem reads_operand (o : Operand) : reads regex d (o.tree names) = holds regex names d o := by
  cases o with
  | group sep first rest =>
    obtain ⟨hall, hone⟩ := reads_operands rest
    rw [Operand.tree, reads_level, reads_operand first, hall, hone]
    cases sep <;> rfl
  | negated path | bare path | compare path op rhs | regexp path op re => rfl
theorem reads_operands (os : List Operand) :
    readsAll regex d (treeList names os) = holdAll regex names d os ∧
      readsAny regex d (treeList names os) = oneHolds regex names d os := by
  cases os with
  | nil => exact ⟨rfl, rfl⟩
  | cons o os =>
    obtain ⟨hall, hone⟩ := reads_operands os
    rw [treeList, readsAll, readsAny, reads_operand o, hall, hone]
    exact ⟨rfl, rfl⟩
end

/-- From the text to the documents: the filter that the database gets selects those of which the
text holds. -/
theorem text_selects {lex : LexEnv} {s : Text} {tokens : List QNode} {e : Expr}
    (hlex : qLex lex s = .done tokens) (he : Derives e tokens) (hnarrow : e.EveryLevel Narrow)
    (hreadable : e.EveryLevel Readable) (hpool : e.nodeDemand ≤ qNodeSize)
    (hcovered : CoveredTree d (e.tree names)) : ∃ t q, qFilter lex names s = .done t ∧
      qTreeToBsonObj t = some q ∧
        allHold regex d q = holds regex names d (.group e.sep e.first e.rest) := by
  obtain ⟨u, hu, hp⟩ := qParse_run names e hnarrow tokens.length
  obtain ⟨q, hq, hholds⟩ := tree_holds regex d (e.tree names) hcovered
  have htokens := derives_tokens hlex he
  have hroom : ¬ qNodeSize < u := by
    have hd : e.nodeDemand = e.tokens.length + levelAlloc e.first e.rest := rfl
    rw [htokens] at hu
    omega
  refine ⟨e.tree names, q, ?_, hq, ?_⟩
  · rw [← (levelOutcome_tree_iff names e).mpr hreadable]
    rw [htokens] at hp
    simp only [qFilter, hlex, htokens, hp, hroom, if_false]
  · rw [hholds, ← reads_operand]
    rfl

theorem text_selects_compared_then_bare :
    ∃ t q, qFilter sampleLex sampleNames "A==1;B".toList = .done t ∧ qTreeToBsonObj t = some q ∧
      allHold sampleRegex (sampleEntity (.num 1)) q = holds sampleRegex sampleNames
        (sampleEntity (.num 1)) (.group .and comparedThenBare.first comparedThenBare.rest) := by
  have hlex : qLex sampleLex "A==1;B".toList = .done comparedThenBare.tokens := by decide
  have hspelt : Derives comparedThenBare comparedThenBare.tokens := rfl
  refine text_selects sampleRegex sampleNames _ hlex hspelt ⟨?_, trivial, trivial, trivial⟩
    ⟨⟨?_, ?_⟩, trivial, trivial, trivial⟩ (by decide) ⟨?_, ?_, trivial⟩
  · simp [Narrow, comparedThenBare, qNodeVSize]
  · simp [BareLast, comparedThenBare, Operand.IsBare]
  · simp [Homogeneous, comparedThenBare, Operand.SameTypes, Rhs.SameTypes]
  · exact ⟨_, _, rfl, by decide +kernel, Or.inl rfl⟩
  · exact ⟨_, _, rfl, by decide +kernel, trivial⟩

end QTreeToBsonObj
