import OrionLd.QFilterParse

/-! The q grammar as syntax trees, and what qParse does to their token lists.
The tree of an expression is the abstract reading: one child per operand, in order.
The yield of an operand is what the loop of qParse leaves in qNodeV for it. -/
namespace QFilterGrammar

open QFilterLex QFilterParse List

inductive Literal where
  | int (n : ℤ)
  | float (x : ℚ)
  | str (text : Text)
  | yes
  | no
  deriving DecidableEq, Repr

def Literal.node : Literal → QNode
  | .int n => qNode .qIntegerValue (.i n)
  | .float x => qNode .qFloatValue (.f x)
  | .str text => qNode .qStringValue (.s text)
  | .yes => qNode .qTrueValue .unset
  | .no => qNode .qFalseValue .unset

inductive Rhs where
  | value (a : Literal)
  | range (lower upper : Literal)
  | list (first second : Literal) (rest : List Literal)
  deriving DecidableEq, Repr

def Rhs.tokens : Rhs → List QNode
  | .value a => [a.node]
  | .range lower upper => [lower.node, qNode .qRange .unset, upper.node]
  | .list first second rest =>
    first.node :: (second :: rest).flatMap fun a => [qNode .qComma .unset, a.node]

def Rhs.tree : Rhs → QNode
  | .value a => a.node
  | .range lower upper => .mk .qRange .unset [lower.node, upper.node]
  | .list first second rest => .mk .qComma .unset ((first :: second :: rest).map Literal.node)

/-- The limits of a range, or the items of a list, are of one type. -/
def Rhs.SameTypes : Rhs → Prop
  | .value _ => True
  | .range lower upper => lower.node.type = upper.node.type
  | .list first second rest => ∀ a ∈ second :: rest, a.node.type = first.node.type

instance (r : Rhs) : Decidable r.SameTypes :=
  match r with
  | .value _ => isTrue trivial
  | .range _ _ => inferInstanceAs (Decidable (_ = _))
  | .list first second rest =>
    inferInstanceAs (Decidable (∀ a ∈ second :: rest, a.node.type = first.node.type))

def Rhs.alloc : Rhs → ℕ
  | .value _ => 0
  | .range _ _ => 2
  | .list _ _ rest => rest.length + 2

inductive CompareOp where
  | eq
  | ne
  | ge
  | gt
  | le
  | lt
  deriving DecidableEq, Repr

def CompareOp.type : CompareOp → QNodeType
  | .eq => .qEQ
  | .ne => .qNE
  | .ge => .qGE
  | .gt => .qGT
  | .le => .qLE
  | .lt => .qLT

inductive MatchOp where
  | does
  | doesNot
  deriving DecidableEq, Repr

def MatchOp.type : MatchOp → QNodeType
  | .does => .qMatch
  | .doesNot => .qNoMatch

inductive Separator where
  | and
  | or
  deriving DecidableEq, Repr

def Separator.type : Separator → QNodeType
  | .and => .qAnd
  | .or => .qOr

def Separator.node (sep : Separator) : QNode := qNode sep.type .unset

inductive Operand where
  | group (sep : Separator) (first : Operand) (rest : List Operand)
  | negated (path : Text)
  | bare (path : Text)
  | compare (path : Text) (op : CompareOp) (rhs : Rhs)
  | regexp (path : Text) (op : MatchOp) (re : Text)

structure Expr where
  sep : Separator
  first : Operand
  rest : List Operand

def variableNode (path : Text) : QNode := qNode .qVariable (.v (some path))

mutual
def Operand.tokens (level : ℤ) : Operand → List QNode
  | .group sep first rest =>
    qNode .qOpen (.level level) ::
      (first.tokens (level + 1) ++ moreTokens (level + 1) sep rest ++
        [qNode .qClose (.level level)])
  | .negated path => [qNode .qNotExists .unset, variableNode path]
  | .bare path => [variableNode path]
  | .compare path op rhs => variableNode path :: qNode op.type .unset :: rhs.tokens
  | .regexp path op re =>
    [variableNode path, qNode op.type .unset, qNode .qRegexpValue (.re re)]
def moreTokens (level : ℤ) (sep : Separator) : List Operand → List QNode
  | [] => []
  | o :: os => sep.node :: (o.tokens level ++ moreTokens level sep os)
end

def levelTokens (level : ℤ) (sep : Separator) (first : Operand) (rest : List Operand) :
    List QNode :=
  first.tokens level ++ moreTokens level sep rest

def Expr.tokens (e : Expr) : List QNode := levelTokens 0 e.sep e.first e.rest

def levelTree (sep : Separator) (first : QNode) (rest : List QNode) : QNode :=
  if rest = [] then first else .mk sep.type .unset (first :: rest)

mutual
def Operand.tree (env : NameEnv) : Operand → QNode
  | .group sep first rest => levelTree sep (first.tree env) (treeList env rest)
  | .negated path => .mk .qNotExists .unset [fixVariable env (variableNode path)]
  | .bare path => .mk .qExists .unset [fixVariable env (variableNode path)]
  | .compare path op rhs =>
    .mk op.type .unset [fixVariable env (variableNode path), rhs.tree]
  | .regexp path op re =>
    .mk op.type .unset [fixVariable env (variableNode path), qNode .qRegexpValue (.re re)]
def treeList (env : NameEnv) : List Operand → List QNode
  | [] => []
  | o :: os => o.tree env :: treeList env os
end

def Expr.tree (env : NameEnv) (e : Expr) : QNode :=
  levelTree e.sep (e.first.tree env) (treeList env e.rest)

def levelCost (rest : List Operand) : ℕ := if rest = [] then 0 else rest.length + 1

mutual
def Operand.alloc : Operand → ℕ
  | .group _ first rest => first.alloc + allocList rest + levelCost rest
  | .negated _ => 1
  | .bare _ => 2
  | .compare _ _ rhs => rhs.alloc + 2
  | .regexp _ _ _ => 2
def allocList : List Operand → ℕ
  | [] => 0
  | o :: os => o.alloc + allocList os
end

def levelAlloc (first : Operand) (rest : List Operand) : ℕ :=
  first.alloc + allocList rest + levelCost rest

/-- Pool nodes for the tokens and the tree of the whole filter. -/
def Expr.nodeDemand (e : Expr) : ℕ := e.tokens.length + levelAlloc e.first e.rest

mutual
/-- The property of the operands of a level holds at every level of the operand. -/
def Operand.EveryLevel (P : List Operand → Prop) : Operand → Prop
  | .group _ first rest => P (first :: rest) ∧ first.EveryLevel P ∧ everyLevelList P rest
  | _ => True
def everyLevelList (P : List Operand → Prop) : List Operand → Prop
  | [] => True
  | o :: os => o.EveryLevel P ∧ everyLevelList P os
end

def Expr.EveryLevel (P : List Operand → Prop) (e : Expr) : Prop :=
  P (e.first :: e.rest) ∧ e.first.EveryLevel P ∧ everyLevelList P e.rest

def Operand.IsBare : Operand → Prop
  | .bare _ => True
  | _ => False

def Operand.SameTypes : Operand → Prop
  | .compare _ _ rhs => rhs.SameTypes
  | _ => True

def Narrow (operands : List Operand) : Prop := operands.length ≤ qNodeVSize

/-- A bare variable is only found as the last operand. -/
def BareLast (operands : List Operand) : Prop := ∀ o ∈ operands.dropLast, ¬ o.IsBare

def Homogeneous (operands : List Operand) : Prop := ∀ o ∈ operands, o.SameTypes

def Readable (operands : List Operand) : Prop := BareLast operands ∧ Homogeneous operands

/-- What the loop leaves of an operand: pointers stored in qNodeV, or the end of it all. -/
abbrev Yield := Except (Outcome QNode) (List (Option QNode))

def Yield.append : Yield → Yield → Yield
  | .error o, _ => .error o
  | .ok _, .error o => .error o
  | .ok xs, .ok ys => .ok (xs ++ ys)

def closeLevel (op : Option QNode) : Yield → Outcome QNode
  | .error o => o
  | .ok xs => (finishLevel ⟨xs, op, none, none⟩ 0).1

def levelOp (sep : Separator) (rest : List Operand) : Option QNode :=
  if rest.isEmpty then none else some sep.node

def mixedError : Rhs → QError
  | .value a => mixedTypes "range" a.node.type
  | .range _ upper => mixedTypes "range" upper.node.type
  | .list first second rest =>
    mixedTypes "comma-list" (((second :: rest).find? fun a =>
      a.node.type ≠ first.node.type).getD first).node.type

def subYield : Outcome QNode → Yield
  | .fault f => .error (.fault f)
  | result => .ok [nodeOf result]

mutual
def Operand.yield (env : NameEnv) (last : Bool) : Operand → Yield
  | .group sep first rest =>
    subYield (closeLevel (levelOp sep rest)
      (Yield.append (first.yield env rest.isEmpty) (yieldList env rest)))
  | .negated path => .ok [some ((Operand.negated path).tree env)]
  | .bare path => .ok (if last then [some ((Operand.bare path).tree env)] else [])
  | .compare path op rhs =>
    if rhs.SameTypes then .ok [some ((Operand.compare path op rhs).tree env)]
    else .error (.failed (mixedError rhs))
  | .regexp path op re => .ok [some ((Operand.regexp path op re).tree env)]
def yieldList (env : NameEnv) : List Operand → Yield
  | [] => .ok []
  | o :: os => Yield.append (o.yield env os.isEmpty) (yieldList env os)
end

def levelOutcome (env : NameEnv) (sep : Separator) (first : Operand) (rest : List Operand) :
    Outcome QNode :=
  closeLevel (levelOp sep rest) (Yield.append (first.yield env rest.isEmpty) (yieldList env rest))

/-- What may follow an operand on its level: nothing, or a separator. -/
def Ends (ts : List QNode) : Prop :=
  ts = [] ∨ ∃ t rest, ts = t :: rest ∧ tokenKind t.type = .separator

theorem Literal.kind (a : Literal) : tokenKind a.node.type = .value := by
  cases a <;> rfl

theorem CompareOp.kind (op : CompareOp) : tokenKind op.type = .operator := by
  cases op <;> rfl

theorem MatchOp.kind (op : MatchOp) : tokenKind op.type = .operator := by
  cases op <;> rfl

theorem Separator.kind (sep : Separator) : tokenKind sep.node.type = .separator := by
  cases sep <;> rfl

variable {t value : QNode} {ts : List QNode} {type : QNodeType} {r : Rhs} {env : NameEnv}
variable {lv : Level} {used : ℕ} {path : Text} {level : ℤ} {xs : List (Option QNode)} {last : Bool}
variable {o : Operand} {os : List Operand} {sep : Separator} {out : Outcome QNode}

theorem separator_type (h : tokenKind t.type = .separator) :
    t.type ≠ .qRange ∧ t.type ≠ .qComma := by
  constructor <;> intro ht <;> simp [ht, tokenKind] at h

theorem rightSide_alone (h : Ends ts) (used : ℕ) :
    rightSide value ts used = .node value ts used := by
  rcases h with rfl | ⟨t, rest, rfl, ht⟩
  · rfl
  · simp [rightSide, separator_type ht]

theorem commaList_stops {comma : QNode} (h : Ends ts) (used : ℕ) :
    commaList comma type value ts used = .node (qNodeAppend comma value) ts (used + 1) := by
  rcases h with rfl | ⟨t, rest, rfl, ht⟩
  · rfl
  · cases rest <;> simp [commaList, separator_type ht]

def commaTokens (items : List Literal) : List QNode :=
  items.flatMap fun a => [qNode .qComma .unset, a.node]

theorem commaList_same {items : List Literal} (h : Ends ts) (hs : ∀ a ∈ items, a.node.type = type)
    (comma value : QNode) (used : ℕ) : commaList comma type value (commaTokens items ++ ts) used =
      .node (.mk comma.type comma.value (comma.children ++ value :: items.map Literal.node)) ts
        (used + items.length + 1) := by
  induction items generalizing comma value used with
  | nil => exact commaList_stops h used
  | cons a items ih =>
    have ha := hs a (mem_cons_self)
    have hrest := ih (fun b hb => hs b (mem_cons_of_mem a hb))
      (qNodeAppend comma value) a.node (used + 1)
    simp only [commaTokens, flatMap_cons, cons_append, nil_append] at hrest ⊢
    simp only [commaList, qNode_type, ha, if_true, hrest]
    simp [qNodeAppend, Nat.add_comm, Nat.add_left_comm]

theorem commaList_mixed {items : List Literal} {a : Literal}
    (hf : items.find? (fun a => a.node.type ≠ type) = some a) (comma value : QNode)
    (ts : List QNode) (used : ℕ) : ∃ u, u ≤ used + items.length ∧
      commaList comma type value (commaTokens items ++ ts) used =
        .failed (mixedTypes "comma-list" a.node.type) u := by
  induction items generalizing comma value used with
  | nil => cases hf
  | cons b items ih =>
    simp only [commaTokens, flatMap_cons, cons_append, nil_append]
    by_cases hb : b.node.type = type
    · rw [List.find?_cons_of_neg (by simpa using hb)] at hf
      obtain ⟨u, hu, hc⟩ := ih hf (qNodeAppend comma value) b.node (used + 1)
      refine ⟨u, by simp only [length_cons]; omega, ?_⟩
      simp only [commaList, qNode_type, hb, if_true]
      exact hc
    · rw [List.find?_cons_of_pos (by simpa using hb)] at hf
      cases hf
      exact ⟨used, by omega, by simp [commaList, hb]⟩

def Rhs.head : Rhs → Literal
  | .value a => a
  | .range lower _ => lower
  | .list first _ _ => first

def Rhs.tail : Rhs → List QNode
  | .value _ => []
  | .range _ upper => [qNode .qRange .unset, upper.node]
  | .list _ second rest => commaTokens (second :: rest)

theorem Rhs.tokens_eq (r : Rhs) : r.tokens = r.head.node :: r.tail := by
  cases r <;> rfl

theorem rightSide_same (h : Ends ts) (hs : r.SameTypes) (used : ℕ) :
    rightSide r.head.node (r.tail ++ ts) used = .node r.tree ts (used + r.alloc) := by
  cases r with
  | value a => exact rightSide_alone h used
  | range lower upper =>
    have hs : lower.node.type = upper.node.type := hs
    simp [rightSide, Rhs.head, Rhs.tail, Rhs.tree, Rhs.alloc, hs, qNodeAppend, qNode]
  | list first second rest =>
    have hc := commaList_same h hs (qNode .qComma .unset) first.node used
    simp only [Rhs.head, Rhs.tail, Rhs.tree, Rhs.alloc]
    simp only [commaTokens, flatMap_cons, cons_append, nil_append] at hc ⊢
    simp only [rightSide, qNode_type, reduceCtorEq, if_false, if_true, hc]
    simp [qNode, Nat.add_assoc]

theorem rightSide_mixed (hs : ¬ r.SameTypes) (ts : List QNode) (used : ℕ) :
    ∃ u, u ≤ used + r.alloc ∧
      rightSide r.head.node (r.tail ++ ts) used = .failed (mixedError r) u := by
  cases r with
  | value a => exact absurd trivial hs
  | range lower upper =>
    have hs : ¬ lower.node.type = upper.node.type := hs
    exact ⟨used, by omega, by simp [rightSide, Rhs.head, Rhs.tail, mixedError, hs]⟩
  | list first second rest =>
    have hs : ¬ ∀ a ∈ second :: rest, a.node.type = first.node.type := hs
    obtain ⟨a, ha⟩ : ∃ a, (second :: rest).find? (fun a => a.node.type ≠ first.node.type) =
        some a := by
      rw [← Option.isSome_iff_exists, List.find?_isSome]
      push Not at hs
      obtain ⟨a, ha, hne⟩ := hs
      exact ⟨a, ha, by simpa using hne⟩
    obtain ⟨u, hu, hc⟩ := commaList_mixed ha (qNode .qComma .unset) first.node ts used
    refine ⟨u, by simpa [Rhs.alloc, Nat.add_assoc] using Nat.le_succ_of_le hu, ?_⟩
    simp only [mixedError, ha, Rhs.head, Rhs.tail, Option.getD_some]
    simp only [commaTokens, flatMap_cons, cons_append, nil_append] at hc ⊢
    simp only [rightSide, qNode_type, reduceCtorEq, if_false, if_true, hc]

/-- The parser gets from an operand to the tokens behind it, with its yield stored, or it ends
there. -/
def Simulates (env : NameEnv) (lv : Level) (tokens ts : List QNode) (y : Yield) (cost : ℕ) :
    Prop :=
  ∀ used, match y with
    | .error o => ∃ u, u ≤ used + cost ∧ parse env lv (tokens ++ ts) used = (o, u)
    | .ok xs => ∃ u lv', u ≤ used + cost ∧ lv'.qNodeV = lv.qNodeV ++ xs ∧
        lv'.opNodeP = lv.opNodeP ∧ (ts ≠ [] → lv'.compOpP = none) ∧
        parse env lv (tokens ++ ts) used = parse env lv' ts u

theorem parse_operator (h : tokenKind t.type = .operator) :
    parse env lv (t :: ts) used = parse env { lv with compOpP := some t } ts used :=
  parse_go (by simp [nextToken, h])

theorem parse_left (hc : lv.compOpP = none) (hts : ts ≠ []) :
    parse env lv (variableNode path :: ts) used =
      parse env { lv with leftP := some (fixVariable env (variableNode path)) } ts used :=
  parse_go (by simp [nextToken, variableNode, tokenKind, hts, operandToken, hc])

theorem ends_isEmpty (h : ts.isEmpty = false) : ts ≠ [] := by
  rintro rfl
  cases h

theorem bare_run (env : NameEnv) (path : Text) (hc : lv.compOpP = none)
    (hroom : lv.qNodeV.length < qNodeVSize) :
    Simulates env lv [variableNode path] ts ((Operand.bare path).yield env ts.isEmpty) 2 := by
  intro used
  cases hts : ts.isEmpty with
  | true =>
    obtain rfl := isEmpty_iff.mp hts
    refine ⟨used + 2, { lv with
      qNodeV := lv.qNodeV ++ [some ((Operand.bare path).tree env)]
      compOpP := some (qNode .qExists .unset) }, le_rfl, rfl, rfl, fun h => absurd rfl h, ?_⟩
    refine parse_go ?_
    simp [nextToken, variableNode, tokenKind, lastVariable, hc, storeThen, storeNode, hroom,
      Operand.tree, qNodeAppend, qNode]
  | false =>
    refine ⟨used, { lv with leftP := some (fixVariable env (variableNode path)) }, by omega,
      by simp, rfl, fun _ => hc, ?_⟩
    exact parse_left hc (ends_isEmpty hts)

theorem negated_run (env : NameEnv) (path : Text) (hroom : lv.qNodeV.length < qNodeVSize)
    (he : Ends ts) : Simulates env lv [qNode .qNotExists .unset, variableNode path] ts
      ((Operand.negated path).yield env ts.isEmpty) 1 := by
  intro used
  have hop : parse env lv ([qNode .qNotExists .unset, variableNode path] ++ ts) used =
      parse env { lv with compOpP := some (qNode .qNotExists .unset) }
        (variableNode path :: ts) used := parse_operator rfl
  cases hts : ts.isEmpty with
  | true =>
    obtain rfl := isEmpty_iff.mp hts
    refine ⟨used + 1, { lv with
      qNodeV := lv.qNodeV ++ [some ((Operand.negated path).tree env)]
      compOpP := some (qNode .qNotExists .unset) }, le_rfl, rfl, rfl, fun h => absurd rfl h, ?_⟩
    rw [hop]
    refine parse_go ?_
    simp [nextToken, variableNode, tokenKind, lastVariable, storeThen, storeNode, hroom,
      Operand.tree, qNodeAppend, qNode]
  | false =>
    refine ⟨used + 1, { lv with
      qNodeV := lv.qNodeV ++ [some ((Operand.negated path).tree env)]
      compOpP := none, leftP := none }, le_rfl, rfl, rfl, fun _ => rfl, ?_⟩
    rw [hop]
    refine parse_go ?_
    simp [nextToken, variableNode, tokenKind, ends_isEmpty hts, operandToken,
      rightSide_alone he, withLeft, storeThen, storeNode, hroom, Operand.tree, qNodeAppend, qNode]

theorem parse_comparison (hc : lv.compOpP = none) (hop : tokenKind type = .operator) :
    parse env lv (variableNode path :: qNode type .unset :: value :: ts) used =
      parse env { lv with
        compOpP := some (qNode type .unset)
        leftP := some (fixVariable env (variableNode path)) } (value :: ts) used := by
  have hk : tokenKind (qNode type .unset).type = .operator := hop
  rw [parse_left hc (by simp), parse_operator hk]

theorem comparison_stores {right : QNode} {more : List QNode} {u : ℕ} (hc : lv.compOpP = none)
    (hroom : lv.qNodeV.length < qNodeVSize) (hop : tokenKind type = .operator)
    (hne : type ≠ .qNotExists) (hval : tokenKind value.type = .value)
    (hr : rightSide value more used = .node right ts u) :
    parse env lv (variableNode path :: qNode type .unset :: value :: more) used =
      parse env { lv with
        qNodeV := lv.qNodeV ++
          [some (.mk type .unset [fixVariable env (variableNode path), right])]
        compOpP := none
        leftP := none } ts (u + 2) := by
  rw [parse_comparison hc hop]
  refine parse_go ?_
  simp [nextToken, hval, operandToken, hr, withLeft, hne, storeThen, storeNode, hroom,
    qNodeAppend, qNode]

theorem CompareOp.ne_notExists (op : CompareOp) : op.type ≠ .qNotExists := by
  cases op <;> simp [CompareOp.type]

theorem MatchOp.ne_notExists (op : MatchOp) : op.type ≠ .qNotExists := by
  cases op <;> simp [MatchOp.type]

theorem compare_run (env : NameEnv) (path : Text) (op : CompareOp) (rhs : Rhs)
    (hc : lv.compOpP = none) (hroom : lv.qNodeV.length < qNodeVSize) (he : Ends ts) :
    Simulates env lv (variableNode path :: qNode op.type .unset :: rhs.tokens) ts
      ((Operand.compare path op rhs).yield env ts.isEmpty) (rhs.alloc + 2) := by
  intro used
  rw [Rhs.tokens_eq]
  simp only [cons_append]
  by_cases hs : rhs.SameTypes
  · simp only [Operand.yield, if_pos hs]
    refine ⟨used + rhs.alloc + 2, _, by omega, ?_, ?_, ?_,
      comparison_stores hc hroom op.kind op.ne_notExists rhs.head.kind (rightSide_same he hs used)⟩
    · rfl
    · rfl
    · exact fun _ => rfl
  · obtain ⟨u, hu, hr⟩ := rightSide_mixed hs ts used
    simp only [Operand.yield, if_neg hs]
    refine ⟨u, by omega, ?_⟩
    rw [parse_comparison hc op.kind]
    exact parse_halt (by simp [nextToken, rhs.head.kind, operandToken, hr])

theorem regexp_run (env : NameEnv) (path : Text) (op : MatchOp) (re : Text) (hc : lv.compOpP = none)
    (hroom : lv.qNodeV.length < qNodeVSize) (he : Ends ts) :
    Simulates env lv [variableNode path, qNode op.type .unset, qNode .qRegexpValue (.re re)] ts
      ((Operand.regexp path op re).yield env ts.isEmpty) 2 := by
  intro used
  refine ⟨used + 2, _, le_rfl, ?_, ?_, ?_,
    comparison_stores hc hroom op.kind op.ne_notExists rfl (rightSide_alone he used)⟩
  · rfl
  · rfl
  · exact fun _ => rfl

theorem splitClose_append {level : QNodeValue} {body : List QNode} {close : QNode}
    (hb : ∀ t ∈ body, t.type = .qClose → t.value ≠ level) (hc : close.type = .qClose)
    (hl : close.value = level) : splitClose level (body ++ close :: ts) = some (body, ts) := by
  induction body with
  | nil => simp [splitClose, hc, hl]
  | cons t body ih =>
    have hn : ¬ (t.type = .qClose ∧ t.value = level) := fun h => hb t mem_cons_self h.1 h.2
    have hi := ih fun x hx => hb x (mem_cons_of_mem t hx)
    simp [splitClose, hn, hi]

theorem Literal.not_close (a : Literal) : a.node.type ≠ .qClose := by
  cases a <;> simp [Literal.node]

theorem Rhs.not_close (h : t ∈ r.tokens) : t.type ≠ .qClose := by
  cases r with
  | value a =>
    simp only [Rhs.tokens, mem_singleton] at h
    exact h ▸ a.not_close
  | range lower upper =>
    simp only [Rhs.tokens, mem_cons, not_mem_nil, or_false] at h
    rcases h with rfl | rfl | rfl
    · exact lower.not_close
    · simp
    · exact upper.not_close
  | list first second rest =>
    simp only [Rhs.tokens, mem_cons, mem_flatMap, not_mem_nil, or_false] at h
    rcases h with rfl | ⟨a, -, rfl | rfl⟩
    · exact first.not_close
    · simp
    · exact a.not_close

mutual
theorem Operand.close_level (level : ℤ) (o : Operand) {t : QNode} (h : t ∈ o.tokens level)
    (hc : t.type = .qClose) : ∃ n, level ≤ n ∧ t.value = .level n := by
  cases o with
  | group sep first rest =>
    simp only [Operand.tokens, mem_cons, mem_append, not_mem_nil, or_false] at h
    rcases h with rfl | (h | h) | rfl
    · cases hc
    · obtain ⟨n, hn, ht⟩ := Operand.close_level (level + 1) first h hc
      exact ⟨n, by omega, ht⟩
    · obtain ⟨n, hn, ht⟩ := more_close_level (level + 1) sep rest h hc
      exact ⟨n, by omega, ht⟩
    · exact ⟨level, Int.le_refl level, rfl⟩
  | negated path =>
    simp only [Operand.tokens, mem_cons, not_mem_nil, or_false] at h
    rcases h with rfl | rfl <;> cases hc
  | bare path =>
    simp only [Operand.tokens, mem_cons, not_mem_nil, or_false] at h
    subst h
    cases hc
  | compare path op rhs =>
    simp only [Operand.tokens, mem_cons] at h
    rcases h with rfl | rfl | h
    · cases hc
    · cases op <;> cases hc
    · exact absurd hc (Rhs.not_close h)
  | regexp path op re =>
    simp only [Operand.tokens, mem_cons, not_mem_nil, or_false] at h
    rcases h with rfl | rfl | rfl
    · cases hc
    · cases op <;> cases hc
    · cases hc
theorem more_close_level (level : ℤ) (sep : Separator) (os : List Operand) {t : QNode}
    (h : t ∈ moreTokens level sep os) (hc : t.type = .qClose) :
    ∃ n, level ≤ n ∧ t.value = .level n := by
  cases os with
  | nil => simp [moreTokens] at h
  | cons o os =>
    simp only [moreTokens, mem_cons, mem_append] at h
    rcases h with rfl | h | h
    · cases sep <;> cases hc
    · exact Operand.close_level level o h hc
    · exact more_close_level level sep os h hc
end

theorem appendAll_outcome (op : QNode) (xs : List (Option QNode)) (used : ℕ) :
    ∃ u, u ≤ used + xs.length ∧ appendAll op xs used = ((appendAll op xs 0).1, u) := by
  have shift : ∀ xs op a b, (appendAll op xs a).1 = (appendAll op xs b).1 := by
    intro xs
    induction xs with
    | nil => intro op a b; rfl
    | cons x xs ih =>
      intro op a b
      cases x with
      | none => rfl
      | some n => exact ih _ _ _
  have cost : ∀ xs op a, (appendAll op xs a).2 ≤ a + xs.length := by
    intro xs
    induction xs with
    | nil => intro op a; exact le_rfl
    | cons x xs ih =>
      intro op a
      cases x with
      | none => exact Nat.le_add_right _ _
      | some n =>
        have h := ih (qNodeAppend op n) (a + 1)
        simp only [appendAll, length_cons]
        omega
  exact ⟨_, cost xs op used, Prod.ext (shift xs op used 0) rfl⟩

theorem finishLevel_outcome (lv : Level) (used : ℕ) :
    ∃ u, u ≤ used + (if lv.opNodeP = none then 0 else lv.qNodeV.length) ∧
      finishLevel lv used = ((finishLevel ⟨lv.qNodeV, lv.opNodeP, none, none⟩ 0).1, u) := by
  obtain ⟨xs, op, c, l⟩ := lv
  cases op with
  | some op =>
    obtain ⟨u, hu, h⟩ := appendAll_outcome op xs used
    exact ⟨u, by simpa using hu, h⟩
  | none =>
    refine ⟨used, by simp, ?_⟩
    rcases xs with _ | ⟨_ | n, xs⟩ <;> rfl

theorem Yield.append_ok {y z : Yield} (h : y.append z = .ok xs) :
    ∃ ys zs, y = .ok ys ∧ z = .ok zs ∧ xs = ys ++ zs := by
  cases y with
  | error o => cases h
  | ok ys =>
    cases z with
    | error o => cases h
    | ok zs => cases h; exact ⟨ys, zs, rfl, rfl, rfl⟩

variable {r : Outcome QNode}

theorem subYield_length (h : subYield r = .ok xs) : xs = [nodeOf r] := by
  cases r <;> cases h <;> rfl

theorem Operand.yield_length (h : o.yield env last = .ok xs) : xs.length ≤ 1 := by
  cases o with
  | group sep first rest =>
    rw [subYield_length h]
    rfl
  | negated path => cases h; exact le_rfl
  | bare path =>
    cases h
    cases last <;> simp
  | compare path op rhs =>
    rw [Operand.yield] at h
    split_ifs at h
    cases h
    exact le_rfl
  | regexp path op re => cases h; exact le_rfl

theorem yieldList_length (h : yieldList env os = .ok xs) : xs.length ≤ os.length := by
  induction os generalizing xs with
  | nil => cases h; exact le_rfl
  | cons o os ih =>
    obtain ⟨ys, zs, hy, hz, rfl⟩ := Yield.append_ok h
    have h1 := Operand.yield_length hy
    have h2 := ih hz
    simp only [length_append, length_cons]
    omega

/-- The operands behind the first one, up to the end of the level. -/
def Finishes (env : NameEnv) (sep : Separator) (lv : Level) (tokens : List QNode)
    (os : List Operand) : Prop :=
  ∀ used, ∃ u, u ≤ used + allocList os +
      (if os = [] ∧ lv.opNodeP = none then 0 else lv.qNodeV.length + os.length) ∧
    parse env lv tokens used =
      (closeLevel (if os = [] then lv.opNodeP else some sep.node)
        (Yield.append (.ok lv.qNodeV) (yieldList env os)), u)

theorem finishes_nil (env : NameEnv) (sep : Separator) (lv : Level) :
    Finishes env sep lv [] [] := by
  intro used
  obtain ⟨u, hu, h⟩ := finishLevel_outcome lv used
  refine ⟨u, by simpa [allocList] using hu, ?_⟩
  rw [parse_nil, h]
  simp [closeLevel, yieldList, Yield.append]

theorem separator_run (hop : lv.opNodeP = none ∨ lv.opNodeP = some sep.node) :
    parse env lv (sep.node :: ts) used =
      parse env { lv with opNodeP := some sep.node } ts used := by
  obtain ⟨xs, op, c, l⟩ := lv
  refine parse_go ?_
  rcases hop with rfl | rfl <;> simp [nextToken, sep.kind, separatorToken]

theorem finishes_cons {tokens : List QNode}
    (ho : Simulates env lv tokens ts (o.yield env os.isEmpty) o.alloc) (hts : ts = [] → os = [])
    (hrest : ∀ lv' : Level, lv'.qNodeV.length ≤ lv.qNodeV.length + 1 →
    lv'.opNodeP = lv.opNodeP → (os ≠ [] → lv'.compOpP = none) →
    Finishes env sep lv' ts os) (used : ℕ) : ∃ u, u ≤ used + o.alloc + allocList os +
        (if os = [] ∧ lv.opNodeP = none then 0 else lv.qNodeV.length + 1 + os.length) ∧
      parse env lv (tokens ++ ts) used =
        (closeLevel (if os = [] then lv.opNodeP else some sep.node)
          (Yield.append (.ok lv.qNodeV) (Yield.append (o.yield env os.isEmpty)
            (yieldList env os))), u) := by
  have h := ho used
  cases hy : o.yield env os.isEmpty with
  | error out =>
    rw [hy] at h
    obtain ⟨u, hu, hp⟩ := h
    exact ⟨u, by omega, by rw [hp]; rfl⟩
  | ok xs =>
    rw [hy] at h
    obtain ⟨u, lv', hu, hv, hop, hcomp, hp⟩ := h
    have hlen := Operand.yield_length hy
    have hv' : lv'.qNodeV.length ≤ lv.qNodeV.length + 1 := by
      rw [hv, length_append]; omega
    obtain ⟨u', hu', hp'⟩ := hrest lv' hv' hop (fun h => hcomp fun hn => h (hts hn)) u
    refine ⟨u', ?_, ?_⟩
    · rw [hop] at hu'
      split_ifs at hu' ⊢ <;> omega
    · rw [hp, hp', hop, hv]
      cases yieldList env os with
      | error out => rfl
      | ok ys => simp [Yield.append]

theorem moreTokens_ends (level : ℤ) (sep : Separator) (os : List Operand) :
    Ends (moreTokens level sep os) := by
  cases os with
  | nil => exact .inl rfl
  | cons o os => exact .inr ⟨_, _, rfl, sep.kind⟩

theorem moreTokens_isEmpty (level : ℤ) (sep : Separator) (os : List Operand) :
    (moreTokens level sep os).isEmpty = os.isEmpty := by
  cases os <;> rfl

theorem moreTokens_nil (h : moreTokens level sep os = []) : os = [] := by
  cases os with
  | nil => rfl
  | cons o os => cases h

theorem level_run {first : Operand} {rest : List Operand}
    (hfirst : Simulates env levelStart (first.tokens level) (moreTokens level sep rest)
    (first.yield env rest.isEmpty) first.alloc)
    (hrest : ∀ lv : Level, lv.qNodeV.length ≤ 1 → lv.opNodeP = none →
    (rest ≠ [] → lv.compOpP = none) → Finishes env sep lv (moreTokens level sep rest) rest)
    (used : ℕ) : ∃ u, u ≤ used + levelAlloc first rest ∧
      parse env levelStart (levelTokens level sep first rest) used =
        (levelOutcome env sep first rest, u) := by
  obtain ⟨u, hu, hp⟩ := finishes_cons hfirst moreTokens_nil
    (fun lv hv hop hc => hrest lv (by simpa [levelStart] using hv) hop hc) used
  refine ⟨u, ?_, ?_⟩
  · simp only [levelStart, and_true, length_nil] at hu
    simp only [levelAlloc, levelCost]
    split_ifs at hu ⊢ <;> omega
  · rw [levelTokens, hp, levelOutcome, levelOp]
    have hstart : ∀ y : Yield, Yield.append (.ok []) y = y := by
      intro y
      cases y <;> rfl
    cases rest <;> simp [levelStart, hstart]

theorem group_run {first : Operand} {rest : List Operand}
    (hlevel : ∀ used, ∃ u, u ≤ used + levelAlloc first rest ∧
    parse env levelStart (levelTokens (level + 1) sep first rest) used =
    (levelOutcome env sep first rest, u)) (hc : lv.compOpP = none)
    (hroom : lv.qNodeV.length < qNodeVSize) :
    Simulates env lv ((Operand.group sep first rest).tokens level) ts
      ((Operand.group sep first rest).yield env last) (levelAlloc first rest) := by
  intro used
  have hbody : ∀ t ∈ levelTokens (level + 1) sep first rest, t.type = .qClose →
      t.value ≠ .level level := by
    intro t ht hclose he
    have hn : ∃ n, level + 1 ≤ n ∧ t.value = .level n := by
      rcases mem_append.mp ht with ht | ht
      · exact Operand.close_level _ first ht hclose
      · exact more_close_level _ sep rest ht hclose
    obtain ⟨n, hn, hv⟩ := hn
    rw [hv] at he
    cases he
    omega
  have hsplit : splitClose (.level level) (levelTokens (level + 1) sep first rest ++
      qNode .qClose (.level level) :: ts) =
      some (levelTokens (level + 1) sep first rest, ts) := splitClose_append hbody rfl rfl
  have htokens : (Operand.group sep first rest).tokens level ++ ts =
      qNode .qOpen (.level level) :: (levelTokens (level + 1) sep first rest ++
        qNode .qClose (.level level) :: ts) := by
    simp [Operand.tokens, levelTokens]
  have hnext : nextToken env lv (qNode .qOpen (.level level))
      (levelTokens (level + 1) sep first rest ++ qNode .qClose (.level level) :: ts) used =
      .descend (levelTokens (level + 1) sep first rest) ts := by
    simp only [nextToken, qNode_type, tokenKind]
    simp only [qNode, QNode.value_mk] at hsplit ⊢
    rw [hsplit]
  obtain ⟨u, hu, hsub⟩ := hlevel used
  have hrun := parse_descend hnext
  rw [hsub, ← htokens] at hrun
  have hy : (Operand.group sep first rest).yield env last =
      subYield (levelOutcome env sep first rest) := by rw [Operand.yield, levelOutcome]
  rw [hy]
  cases hout : levelOutcome env sep first rest with
  | fault f =>
    rw [hout] at hrun
    exact ⟨u, hu, hrun⟩
  | done n =>
    rw [hout] at hrun
    refine ⟨u, { lv with qNodeV := lv.qNodeV ++ [some n] }, hu, rfl, rfl, fun _ => hc, ?_⟩
    simpa [storeNode, hroom, nodeOf] using hrun
  | failed e =>
    rw [hout] at hrun
    refine ⟨u, { lv with qNodeV := lv.qNodeV ++ [none] }, hu, rfl, rfl, fun _ => hc, ?_⟩
    simpa [storeNode, hroom, nodeOf] using hrun

mutual
theorem operand_run (env : NameEnv) (level : ℤ) (o : Operand) (hn : o.EveryLevel Narrow)
    (lv : Level) {ts : List QNode} (hc : lv.compOpP = none)
    (hroom : lv.qNodeV.length < qNodeVSize) (he : Ends ts) :
    Simulates env lv (o.tokens level) ts (o.yield env ts.isEmpty) o.alloc := by
  cases o with
  | group sep first rest =>
    obtain ⟨hlen, hf, hr⟩ := hn
    have hlen : rest.length + 1 ≤ qNodeVSize := hlen
    refine group_run (fun used => level_run ?_ ?_ used) hc hroom
    · have h := operand_run env (level + 1) first hf levelStart rfl (by decide)
        (moreTokens_ends (level + 1) sep rest)
      rwa [moreTokens_isEmpty] at h
    · intro lv hv hop hcomp
      exact operands_run env (level + 1) sep rest hr hcomp (by omega) (.inl hop)
  | negated path => exact negated_run env path hroom he
  | bare path => exact bare_run env path hc hroom
  | compare path op rhs => exact compare_run env path op rhs hc hroom he
  | regexp path op re => exact regexp_run env path op re hc hroom he
theorem operands_run (env : NameEnv) (level : ℤ) (sep : Separator) (os : List Operand)
    (hn : everyLevelList Narrow os) {lv : Level} (hc : os ≠ [] → lv.compOpP = none)
    (hroom : lv.qNodeV.length + os.length ≤ qNodeVSize)
    (hop : lv.opNodeP = none ∨ lv.opNodeP = some sep.node) :
    Finishes env sep lv (moreTokens level sep os) os := by
  cases os with
  | nil => exact finishes_nil env sep lv
  | cons o os =>
    intro used
    obtain ⟨ho, hos⟩ := hn
    simp only [length_cons] at hroom
    have hrun := operand_run env level o ho { lv with opNodeP := some sep.node }
      (hc (by simp)) (by simp only; omega) (moreTokens_ends level sep os)
    rw [moreTokens_isEmpty] at hrun
    obtain ⟨u, hu, hp⟩ := finishes_cons hrun moreTokens_nil
      (fun lv' hv hop' hc' => operands_run env level sep os hos hc'
        (by simp only at hv; omega) (.inr hop')) used
    refine ⟨u, ?_, ?_⟩
    · simp only [reduceCtorEq, and_false, if_false] at hu
      simp only [allocList, reduceCtorEq, false_and, if_false, length_cons]
      omega
    · rw [moreTokens, separator_run hop, hp, yieldList]
      cases os <;> rfl
end

/-- One level of qParse on the tokens of an expression, operand by operand. -/
theorem expr_run (env : NameEnv) (level : ℤ) (e : Expr) (hn : e.EveryLevel Narrow) (used : ℕ) :
    ∃ u, u ≤ used + levelAlloc e.first e.rest ∧
      parse env levelStart (levelTokens level e.sep e.first e.rest) used =
        (levelOutcome env e.sep e.first e.rest, u) := by
  obtain ⟨hlen, hf, hr⟩ := hn
  have hlen : e.rest.length + 1 ≤ qNodeVSize := hlen
  refine level_run ?_ ?_ used
  · have h := operand_run env level e.first hf levelStart rfl (by decide)
      (moreTokens_ends level e.sep e.rest)
    rwa [moreTokens_isEmpty] at h
  · intro lv hv hop hcomp
    exact operands_run env level e.sep e.rest hr hcomp (by omega) (.inl hop)

theorem qParse_run (env : NameEnv) (e : Expr) (hn : e.EveryLevel Narrow) (used : ℕ) :
    ∃ u, u ≤ used + levelAlloc e.first e.rest ∧
      qParse env e.tokens used = (levelOutcome env e.sep e.first e.rest, u) :=
  expr_run env 0 e hn used

theorem appendAll_done {op n : QNode} (h : (appendAll op xs used).1 = .done n) :
    ∃ ns, xs = ns.map some ∧ n = .mk op.type op.value (op.children ++ ns) := by
  induction xs generalizing op used with
  | nil =>
    obtain ⟨t, v, cs⟩ := op
    cases h
    exact ⟨[], rfl, by simp⟩
  | cons x xs ih =>
    cases x with
    | none => cases h
    | some m =>
      obtain ⟨ns, rfl, rfl⟩ := ih h
      exact ⟨m :: ns, rfl, by simp [qNodeAppend]⟩

theorem appendAll_some (op : QNode) (ns : List QNode) (used : ℕ) :
    (appendAll op (ns.map some) used).1 = .done (.mk op.type op.value (op.children ++ ns)) := by
  induction ns generalizing op used with
  | nil => obtain ⟨t, v, cs⟩ := op; simp [appendAll]
  | cons n ns ih => simp [appendAll, ih, qNodeAppend]

theorem subYield_error (h : subYield r = .error out) (n : QNode) : out ≠ .done n := by
  cases r with
  | fault f => cases h; simp
  | done m => cases h
  | failed e => cases h

theorem Operand.yield_error (h : o.yield env last = .error out) (n : QNode) : out ≠ .done n := by
  cases o with
  | group sep first rest =>
    exact subYield_error h n
  | compare path op rhs =>
    rw [Operand.yield] at h
    split_ifs at h
    cases h
    simp
  | _ => cases h

theorem yieldList_error (h : yieldList env os = .error out) (n : QNode) : out ≠ .done n := by
  induction os with
  | nil => cases h
  | cons o os ih =>
    rw [yieldList] at h
    cases hy : o.yield env os.isEmpty with
    | error out' =>
      rw [hy] at h
      cases h
      exact Operand.yield_error hy n
    | ok xs =>
      rw [hy] at h
      cases hz : yieldList env os with
      | error out' =>
        rw [hz] at h
        cases h
        exact ih hz
      | ok ys => rw [hz] at h; cases h

theorem treeList_length (env : NameEnv) (os : List Operand) :
    (treeList env os).length = os.length := by
  induction os with
  | nil => rfl
  | cons o os ih => simp [treeList, ih]

theorem level_done_iff (env : NameEnv) (sep : Separator) (first : Operand)
    (rest : List Operand) :
    levelOutcome env sep first rest =
        .done (levelTree sep (first.tree env) (treeList env rest)) ↔
      first.yield env rest.isEmpty = .ok [some (first.tree env)] ∧
        yieldList env rest = .ok ((treeList env rest).map some) := by
  constructor
  · intro h
    rw [levelOutcome] at h
    cases hy : first.yield env rest.isEmpty with
    | error out =>
      rw [hy] at h
      exact absurd h (Operand.yield_error hy _)
    | ok xs =>
      rw [hy] at h
      have hx := Operand.yield_length hy
      cases hz : yieldList env rest with
      | error out =>
        rw [hz] at h
        exact absurd h (yieldList_error hz _)
      | ok ys =>
        rw [hz] at h
        have hy' := yieldList_length hz
        cases rest with
        | nil =>
          obtain rfl := length_eq_zero_iff.mp (by simpa using hy')
          rcases xs with _ | ⟨_ | n, _ | ⟨m, xs⟩⟩
          · cases h
          · cases h
          · simp at hx
          · simp [closeLevel, Yield.append, levelOp, finishLevel, treeList, levelTree] at h
            simp [h, treeList]
          · simp at hx
        | cons o os =>
          obtain ⟨ns, hns, hn⟩ := appendAll_done h
          have hlen := treeList_length env (o :: os)
          simp only [levelTree, treeList, reduceCtorEq, if_false] at hn
          obtain ⟨-, -, rfl⟩ := hn
          have hone : xs.length = 1 := by
            have := congrArg List.length hns
            simp only [length_append, length_map, length_cons] at this hlen hy'
            simp only [treeList, length_cons] at hlen
            omega
          obtain ⟨x, rfl⟩ := length_eq_one_iff.mp hone
          simp only [singleton_append, map_cons, cons.injEq] at hns
          simp [hns, treeList]
  · rintro ⟨hy, hz⟩
    rw [levelOutcome, hy, hz]
    cases rest with
    | nil => simp [Yield.append, closeLevel, levelOp, finishLevel, treeList, levelTree]
    | cons o os =>
      have h := appendAll_some sep.node (first.tree env :: treeList env (o :: os)) 0
      simp only [Yield.append, closeLevel, levelOp, finishLevel, isEmpty_cons]
      simpa [Separator.node, qNode, levelTree, treeList] using h

theorem subYield_done_iff {n : QNode} : subYield r = .ok [some n] ↔ r = .done n := by
  cases r <;> simp [subYield, nodeOf]

def Operand.Kept (last : Bool) (o : Operand) : Prop :=
  (o.IsBare → last = true) ∧ o.SameTypes ∧ o.EveryLevel Readable

theorem readable_cons (first : Operand) (rest : List Operand) :
    (Readable (first :: rest) ∧ first.EveryLevel Readable ∧ everyLevelList Readable rest) ↔
      first.Kept rest.isEmpty ∧ Readable rest ∧ everyLevelList Readable rest := by
  cases rest with
  | nil =>
    simp [Readable, BareLast, Homogeneous, Operand.Kept, everyLevelList]
  | cons o os =>
    simp only [Readable, BareLast, Homogeneous, Operand.Kept, dropLast_cons_cons,
      forall_mem_cons, isEmpty_cons, Bool.false_eq_true]
    tauto

mutual
theorem Operand.yield_tree_iff (env : NameEnv) (last : Bool) (o : Operand) :
    o.yield env last = .ok [some (o.tree env)] ↔ o.Kept last := by
  cases o with
  | group sep first rest =>
    rw [Operand.yield, ← levelOutcome, subYield_done_iff, Operand.tree, level_done_iff,
      Operand.yield_tree_iff env rest.isEmpty first, yieldList_trees_iff env rest,
      ← readable_cons]
    simp [Operand.Kept, Operand.IsBare, Operand.SameTypes, Operand.EveryLevel]
  | negated path | regexp path op re =>
    simp [Operand.yield, Operand.Kept, Operand.IsBare, Operand.SameTypes, Operand.EveryLevel]
  | bare path =>
    cases last <;>
      simp [Operand.yield, Operand.Kept, Operand.IsBare, Operand.SameTypes, Operand.EveryLevel]
  | compare path op rhs =>
    by_cases hs : rhs.SameTypes <;>
      simp [Operand.yield, Operand.Kept, Operand.IsBare, Operand.SameTypes, Operand.EveryLevel, hs]
theorem yieldList_trees_iff (env : NameEnv) (os : List Operand) :
    yieldList env os = .ok ((treeList env os).map some) ↔
      Readable os ∧ everyLevelList Readable os := by
  cases os with
  | nil => simp [yieldList, treeList, Readable, BareLast, Homogeneous, everyLevelList]
  | cons o os =>
    have hiff : Readable (o :: os) ∧ everyLevelList Readable (o :: os) ↔
        o.Kept os.isEmpty ∧ Readable os ∧ everyLevelList Readable os := by
      rw [← readable_cons, everyLevelList]
    rw [hiff, ← Operand.yield_tree_iff env os.isEmpty o, ← yieldList_trees_iff env os]
    rw [yieldList, treeList, map_cons]
    constructor
    · intro h
      obtain ⟨xs, ys, hx, hy, he⟩ := Yield.append_ok h
      have h1 := Operand.yield_length hx
      have h2 := yieldList_length hy
      have h3 := treeList_length env os
      have hone : xs.length = 1 := by
        have := congrArg List.length he
        simp only [length_append, length_map, length_cons] at this
        omega
      obtain ⟨x, rfl⟩ := length_eq_one_iff.mp hone
      simp only [singleton_append, cons.injEq] at he
      rw [hx, hy, ← he.1, he.2]
      exact ⟨rfl, rfl⟩
    · rintro ⟨hx, hy⟩
      rw [hx, hy]
      rfl
end

theorem levelOutcome_tree_iff (env : NameEnv) (e : Expr) :
    levelOutcome env e.sep e.first e.rest = .done (e.tree env) ↔ e.EveryLevel Readable := by
  rw [Expr.tree, level_done_iff, Operand.yield_tree_iff, yieldList_trees_iff, ← readable_cons]
  rfl

end QFilterGrammar
