import OrionLd.QFilterLevels

/-! When the q filter front end stays within its memory.
A level of parentheses is read in turns, as far as an error on it lets qParse come: what stands
behind the error is not read. -/
namespace QFilterSafety

open QFilterLex QFilterParse QFilterGrammar QFilterSentence QFilterLevels List

/-- One turn on a level, with the nodes it takes from the pool. An operator that ends the level
counts as a left side: nothing comes of it. -/
inductive Turn where
  | group (body : List Turn)
  | separator
  | left
  | comparison (nodes : ℕ)
  | operand (nodes : ℕ)
  | broken
  | refused (nodes : ℕ)

/-- A right-hand side from behind its first literal. -/
inductive RightTurn where
  | whole (nodes : ℕ) (rest : List Lexeme)
  | broken
  | refused (nodes : ℕ)

def listTurn (type : QNodeType) : ℕ → List Lexeme → RightTurn
  | nodes, .comma :: l :: rest =>
    if Lexeme.type l = type then listTurn type (nodes + 1) rest else .refused nodes
  | _, [.comma] => .broken
  | nodes, rest => .whole (nodes + 1) rest

def rightTurn (a : Literal) : List Lexeme → RightTurn
  | .range :: l :: rest => if a.node.type = Lexeme.type l then .whole 2 rest else .refused 0
  | [.range] => .broken
  | .comma :: rest => listTurn a.node.type 0 (.comma :: rest)
  | rest => .whole 0 rest

def RightTurn.turns (behind : List Lexeme → List Turn) : RightTurn → List Turn
  | .whole nodes rest => .comparison (nodes + 2) :: behind rest
  | .broken => [.broken]
  | .refused nodes => [.refused nodes]

/-- The rest of a level behind a separator, if there has been one. -/
def turns : ℕ → Option Separator → List Lexeme → List Turn
  | 0, _, _ => []
  | _ + 1, _, [] => []
  | fuel + 1, sep, .opening :: after =>
    match splitGroup 0 after with
    | none => [.refused 0]
    | some (body, rest) => .group (turns fuel none body) :: turns fuel sep rest
  | fuel + 1, sep, .separator s :: rest =>
    if sep.getD s = s then .separator :: turns fuel (some s) rest else [.refused 0]
  | fuel + 1, sep, .negation :: .named _ :: rest => .operand 1 :: turns fuel sep rest
  | _ + 1, _, [.named _] => [.operand 2]
  | fuel + 1, sep, .compare _ :: .literal a :: rest => (rightTurn a rest).turns (turns fuel sep)
  | fuel + 1, sep, .matching _ :: .regexp _ :: rest => .comparison 2 :: turns fuel sep rest
  | _ + 1, _, .closing :: _ | _ + 1, _, .comma :: _ | _ + 1, _, .range :: _ => [.refused 0]
  | fuel + 1, sep, _ :: rest => .left :: turns fuel sep rest

@[simp] theorem turns_nil (fuel : ℕ) (sep : Option Separator) : turns fuel sep [] = [] := by
  cases fuel <;> rfl

def readLevel (ls : List Lexeme) : List Turn := turns (ls.length + 1) none ls

@[simp] def Turn.isSeparator : Turn → Bool
  | .separator => true
  | _ => false

@[simp] def Turn.isRefused : Turn → Bool
  | .refused _ => true
  | _ => false

@[simp] def Turn.isOperand : Turn → Bool
  | .group _ => true
  | .comparison _ => true
  | .operand _ => true
  | _ => false

mutual
@[simp] def Turn.isTree : Turn → Bool
  | .group body => !body.any Turn.isRefused &&
    (body.any Turn.isSeparator || (operands body).head? = some true)
  | _ => true
/-- The operands of a level: false for a group that is refused. -/
def operands : List Turn → List Bool
  | [] => []
  | t :: ts => if t.isOperand then t.isTree :: operands ts else operands ts
end

/-- Read to its end, with an operator or with a first operand that is a tree. -/
def accepted (ts : List Turn) : Bool :=
  !ts.any Turn.isRefused && (ts.any Turn.isSeparator || (operands ts).head? = some true)

/-- The operator of a level takes its operands, if there is one. -/
def joined (ts : List Turn) : Bool := ts.any Turn.isSeparator && !ts.any Turn.isRefused

def joinNodes (ts : List Turn) : ℕ := if joined ts then (operands ts).length else 0

mutual
@[simp] def Turn.nodes : Turn → ℕ
  | .group body => nodes body + joinNodes body
  | .comparison n => n
  | .operand n => n
  | .refused n => n
  | _ => 0
def nodes : List Turn → ℕ
  | [] => 0
  | t :: ts => t.nodes + nodes ts
end

def noNull (ts : List Turn) : Bool := !joined ts || !(operands ts).contains false

mutual
@[simp] def Turn.harmless : Turn → Bool
  | .group body => fits false qNodeVSize body && noNull body
  | .broken => false
  | _ => true
/-- With a left side or without one, and with this many of the ten pointers free: a comparison finds
its left side, and every operand a pointer. -/
def fits : Bool → ℕ → List Turn → Bool
  | _, _, [] => true
  | left, room, t :: ts => t.harmless && match t with
    | .group _ => decide (0 < room) && fits left (room - 1) ts
    | .separator => fits left room ts
    | .left => fits true room ts
    | .comparison _ => left && decide (0 < room) && fits false (room - 1) ts
    | .operand _ => decide (0 < room) && fits false (room - 1) ts
    | .broken => true
    | .refused _ => true
end

def harmless (ts : List Turn) : Bool := fits false qNodeVSize ts && noNull ts

/-- Read from the left, a level ends with a fault, is refused at an error, or comes to its end with
its operands and their operator. -/
def Follows (run : Outcome QNode × ℕ) (lv : Level) (used : ℕ) (ts : List Turn) : Prop :=
  if fits lv.leftP.isSome (qNodeVSize - lv.qNodeV.length) ts then
    if ts.any Turn.isRefused then ∃ e, run = (.failed e, used + nodes ts)
    else ∃ lv' : Level, run = finishLevel lv' (used + nodes ts) ∧
      lv'.opNodeP.isSome = (lv.opNodeP.isSome || ts.any Turn.isSeparator) ∧
      lv'.qNodeV.map Option.isSome = lv.qNodeV.map Option.isSome ++ operands ts
  else ∃ f u, run = (.fault f, u)

variable {env : NameEnv} {lv : Level} {ls rest all : List Lexeme} {l : Lexeme} {n : ℤ}
variable {used fuel k : ℕ} {run : Outcome QNode × ℕ} {ts body : List Turn}

theorem Follows.nil : Follows (finishLevel lv used) lv used [] := by
  simp only [Follows, fits, if_true, any_nil, Bool.false_eq_true, if_false, nodes, operands]
  exact ⟨lv, rfl, by simp, by simp⟩

theorem Follows.left {x : QNode} (h : Follows run { lv with leftP := some x } used ts) :
    Follows run lv used (.left :: ts) := by
  simpa [Follows, fits, nodes, operands] using h

theorem Follows.separator {op : QNode} (h : Follows run { lv with opNodeP := some op } used ts) :
    Follows run lv used (.separator :: ts) := by
  simpa [Follows, fits, nodes, operands] using h

theorem Follows.refused (e : QError) : Follows (.failed e, used + k) lv used [.refused k] := by
  simp [Follows, fits, nodes]

theorem Follows.broken (f : Fault) (u : ℕ) : Follows (.fault f, u) lv used [.broken] := by
  simp [Follows, fits]

theorem Follows.dangling {x : QNode} :
    Follows (finishLevel { lv with compOpP := some x } used) lv used [.left] := by
  simp [Follows, fits, nodes, operands]
  exact ⟨_, rfl, rfl, rfl⟩

/-- A turn that stores an operand, if nothing is wrong with it and there is a pointer left. -/
theorem Follows.stored {t : Turn} (lv₁ : Level) (node : Option QNode) (ok : Bool)
    (hfits : ∀ room, fits lv.leftP.isSome room (t :: ts) =
      (ok && decide (0 < room) && fits lv₁.leftP.isSome (room - 1) ts))
    (hnodes : nodes (t :: ts) = k + nodes ts)
    (hoperands : operands (t :: ts) = node.isSome :: operands ts)
    (hsep : t.isSeparator = false) (href : t.isRefused = false)
    (hv : lv₁.qNodeV = lv.qNodeV ++ [node]) (hop : lv₁.opNodeP = lv.opNodeP)
    (hfault : ¬ (ok = true ∧ lv.qNodeV.length < qNodeVSize) → ∃ f u, run = (.fault f, u))
    (h : ok = true → lv.qNodeV.length < qNodeVSize → Follows run lv₁ (used + k) ts) :
    Follows run lv used (t :: ts) := by
  by_cases hstore : ok = true ∧ lv.qNodeV.length < qNodeVSize
  · obtain ⟨hok, hroom⟩ := hstore
    have h := h hok hroom
    have hpos : 0 < qNodeVSize - lv.qNodeV.length := Nat.sub_pos_of_lt hroom
    unfold Follows at h ⊢
    rw [hv, hop, length_append, length_singleton, ← Nat.sub_sub] at h
    rw [hfits, hnodes, hoperands, any_cons, any_cons, hsep, href, hok, decide_eq_true hpos,
      ← Nat.add_assoc]
    simpa using h
  · have hnone : fits lv.leftP.isSome (qNodeVSize - lv.qNodeV.length) (t :: ts) = false := by
      rw [hfits]
      by_contra hfit
      simp only [Bool.not_eq_false, Bool.and_eq_true, decide_eq_true_eq] at hfit
      exact hstore ⟨hfit.1.1, Nat.lt_of_sub_pos hfit.1.2⟩
    rw [Follows, hnone]
    exact hfault hstore

theorem appendAll_stored (op : QNode) (xs : List (Option QNode)) (used : ℕ) :
    if (xs.map Option.isSome).contains false then ∃ f u, appendAll op xs used = (.fault f, u)
    else ∃ node, appendAll op xs used = (.done node, used + xs.length) := by
  induction xs generalizing op used with
  | nil => exact ⟨op, rfl⟩
  | cons x xs ih =>
    cases x with
    | none => exact ⟨_, _, rfl⟩
    | some n =>
      have h := ih (qNodeAppend op n) (used + 1)
      rw [Nat.add_assoc, Nat.add_comm 1] at h
      exact h

/-- How the run on a whole level ends. -/
theorem Follows.outcome (h : Follows run levelStart used ts) :
    if harmless ts then
      if accepted ts then ∃ node, run = (.done node, used + nodes ts + joinNodes ts)
      else ∃ e, run = (.failed e, used + nodes ts + joinNodes ts)
    else ∃ f u, run = (.fault f, u) := by
  unfold Follows at h
  have hstart : fits levelStart.leftP.isSome (qNodeVSize - levelStart.qNodeV.length) ts =
      fits false qNodeVSize ts := rfl
  rw [hstart] at h
  unfold harmless noNull joinNodes accepted joined
  cases hfits : fits false qNodeVSize ts with
  | false => simpa [hfits] using h
  | true =>
    cases href : ts.any Turn.isRefused with
    | true => simpa [hfits, href] using h
    | false =>
      rw [hfits, href] at h
      obtain ⟨lv', rfl, hop, hv⟩ := h
      have hv : lv'.qNodeV.map Option.isSome = operands ts := hv
      have hop : lv'.opNodeP.isSome = ts.any Turn.isSeparator := hop
      rw [← hv, ← hop, length_map]
      unfold finishLevel
      cases lv'.opNodeP with
      | some op =>
        have happend := appendAll_stored op lv'.qNodeV (used + nodes ts)
        cases hnull : (lv'.qNodeV.map Option.isSome).contains false with
        | true =>
          rw [hnull] at happend
          simpa using happend
        | false =>
          rw [hnull] at happend
          simpa using happend
      | none => rcases lv'.qNodeV with _ | ⟨_ | node, xs⟩ <;> simp

variable {path : Text} {sep : Separator}

theorem parse_value (hk : tokenKind (Lexeme.type l) = .value) (hl : ¬ Lexeme.IsParen l)
    (hc : lv.compOpP = none) : parse env lv (nodesFrom n (l :: rest)) used =
      parse env { lv with leftP := some (l.node n) } (nodesFrom n rest) used := by
  rw [nodesFrom, levelAfter_of_not_paren hl]
  exact parse_go (by simp [nextToken, hk, operandToken, hc])

theorem nodesFrom_ne_nil : nodesFrom n (l :: rest) ≠ [] := by
  simp [nodesFrom]

theorem parse_named (hc : lv.compOpP = none) :
    parse env lv (nodesFrom n (.named path :: l :: rest)) used =
      parse env { lv with leftP := some (fixVariable env (variableNode path)) }
        (nodesFrom n (l :: rest)) used :=
  parse_left hc nodesFrom_ne_nil

theorem parse_named_last (hc : lv.compOpP = none) :
    parse env lv (nodesFrom n [.named path]) used =
      if lv.qNodeV.length < qNodeVSize then finishLevel { lv with
        qNodeV := lv.qNodeV ++ [some ((Operand.bare path).tree env)]
        compOpP := some (qNode .qExists .unset) } (used + 2)
      else (.fault .qNodeVOverflow, used + 2) := by
  have hnext : nextToken env lv (variableNode path) [] used =
      lastVariable lv (fixVariable env (variableNode path)) used := rfl
  by_cases hroom : lv.qNodeV.length < qNodeVSize
  · have hgo : nextToken env lv (variableNode path) [] used = .go { lv with
          qNodeV := lv.qNodeV ++ [some ((Operand.bare path).tree env)]
          compOpP := some (qNode .qExists .unset) } [] (used + 2) := by
      rw [hnext]
      simp [lastVariable, hc, storeThen, storeNode, hroom, Operand.tree, qNodeAppend, qNode]
    rw [if_pos hroom]
    exact parse_go hgo
  · rw [if_neg hroom]
    refine parse_halt (hnext.trans ?_)
    simp [lastVariable, hc, storeThen, storeNode, hroom]

/-- An operator that is the last token of its level is forgotten. -/
theorem parse_dangling (hk : tokenKind (Lexeme.type l) = .operator) :
    parse env lv (nodesFrom n [l]) used =
      finishLevel { lv with compOpP := some (l.node n) } used := by
  have hk : tokenKind (l.node n).type = .operator := by rwa [node_type]
  exact parse_operator hk

theorem rightSide_ending {value : QNode} (hl : l = .closing ∨ ∃ sep, l = .separator sep) :
    rightSide value (nodesFrom n (l :: rest)) used =
      .node value (nodesFrom n (l :: rest)) used := by
  rcases hl with rfl | ⟨sep, rfl⟩
  · simp [nodesFrom, rightSide, Lexeme.node]
  · cases sep <;> simp [nodesFrom, rightSide, Lexeme.node, Separator.node, Separator.type]

/-- The variable of a '!', whether it ends the level or not. -/
theorem parse_negated
    (hrest : ∀ l more, rest = l :: more → l = .closing ∨ ∃ sep, l = .separator sep) :
    ∃ lv' : Level, lv'.qNodeV = lv.qNodeV ++ [some ((Operand.negated path).tree env)] ∧
      lv'.opNodeP = lv.opNodeP ∧ (rest ≠ [] → lv'.compOpP = none ∧ lv'.leftP = none) ∧
      parse env lv (nodesFrom n (.negation :: .named path :: rest)) used =
        if lv.qNodeV.length < qNodeVSize then parse env lv' (nodesFrom n rest) (used + 1)
        else (.fault .qNodeVOverflow, used + 1) := by
  have hop : parse env lv (nodesFrom n (.negation :: .named path :: rest)) used =
      parse env { lv with compOpP := some (qNode .qNotExists .unset) }
        (variableNode path :: nodesFrom n rest) used := parse_operator rfl
  rw [hop]
  cases rest with
  | nil =>
    refine ⟨{ lv with
      qNodeV := lv.qNodeV ++ [some ((Operand.negated path).tree env)]
      compOpP := some (qNode .qNotExists .unset) }, rfl, rfl, fun h => absurd rfl h, ?_⟩
    have hnext : nextToken env { lv with compOpP := some (qNode .qNotExists .unset) }
        (variableNode path) (nodesFrom n []) used = storeThen { lv with
          compOpP := some (qNode .qNotExists .unset) }
            (some ((Operand.negated path).tree env)) (nodesFrom n []) (used + 1) := rfl
    by_cases hroom : lv.qNodeV.length < qNodeVSize
    · rw [if_pos hroom]
      exact parse_go (hnext.trans (by simp [storeThen, storeNode, hroom]))
    · rw [if_neg hroom]
      exact parse_halt (hnext.trans (by simp [storeThen, storeNode, hroom]))
  | cons l more =>
    refine ⟨{ lv with
      qNodeV := lv.qNodeV ++ [some ((Operand.negated path).tree env)]
      compOpP := none
      leftP := none }, rfl, rfl, fun _ => ⟨rfl, rfl⟩, ?_⟩
    have hnext : nextToken env { lv with compOpP := some (qNode .qNotExists .unset) }
        (variableNode path) (nodesFrom n (l :: more)) used = storeThen { lv with
          compOpP := none
          leftP := none } (some ((Operand.negated path).tree env)) (nodesFrom n (l :: more))
            (used + 1) := by
      simp [nextToken, variableNode, tokenKind, nodesFrom_ne_nil, operandToken,
        rightSide_ending (hrest l more rfl), withLeft, Operand.tree, qNodeAppend, qNode]
    by_cases hroom : lv.qNodeV.length < qNodeVSize
    · rw [if_pos hroom]
      exact parse_go (hnext.trans (by simp [storeThen, storeNode, hroom]))
    · rw [if_neg hroom]
      exact parse_halt (hnext.trans (by simp [storeThen, storeNode, hroom]))

theorem parse_operation {op : Lexeme} (hop : tokenKind (Lexeme.type op) = .operator)
    (hp : ¬ Lexeme.IsParen op) (hl : tokenKind (Lexeme.type l) = .value) (hlp : ¬ Lexeme.IsParen l)
    (hne : Lexeme.type op ≠ .qNotExists) :
    parse env lv (nodesFrom n (op :: l :: rest)) used =
      match rightSide (l.node n) (nodesFrom n rest) used, lv.leftP with
      | .failed e u, _ => (.failed e, u)
      | .pastLastToken u, _ => (.fault .pastLastToken, u)
      | .node _ _ u, none => (.fault .nullNode, u)
      | .node right ts u, some left =>
        if lv.qNodeV.length < qNodeVSize then
          parse env { lv with
            qNodeV := lv.qNodeV ++ [some (qNodeAppend (qNodeAppend (op.node n) left) right)]
            compOpP := none
            leftP := none } ts (u + 2)
        else (.fault .qNodeVOverflow, u + 2) := by
  have hk : tokenKind (op.node n).type = .operator := by rwa [node_type]
  obtain ⟨xs, opNodeP, compOpP, leftP⟩ := lv
  rw [nodesFrom, levelAfter_of_not_paren hp, parse_operator hk, nodesFrom,
    levelAfter_of_not_paren hlp]
  have hnext : nextToken env ⟨xs, opNodeP, some (op.node n), leftP⟩ (l.node n)
      (nodesFrom n rest) used = operandToken ⟨xs, opNodeP, some (op.node n), leftP⟩ (l.node n)
      (nodesFrom n rest) used := by simp [nextToken, hl]
  cases hr : rightSide (l.node n) (nodesFrom n rest) used with
  | failed e u | pastLastToken u => exact parse_halt (by simp [hnext, operandToken, hr])
  | node right ts u =>
    cases leftP with
    | none => exact parse_halt (by simp [hnext, operandToken, hr, withLeft, hne])
    | some left =>
      by_cases hroom : xs.length < qNodeVSize
      · simp only [if_pos hroom]
        refine parse_go ?_
        rw [hnext]
        simp [operandToken, hr, withLeft, hne, storeThen, storeNode, hroom]
      · simp only [if_neg hroom]
        refine parse_halt ?_
        rw [hnext]
        simp [operandToken, hr, withLeft, hne, storeThen, storeNode, hroom]

theorem parse_separator_mixed {op : QNode} (hop : lv.opNodeP = some op)
    (ht : sep.node.type ≠ op.type) : parse env lv (nodesFrom n (.separator sep :: rest)) used =
      (.failed ⟨"ngsi-ld query language: mixed AND/OR operators",
        "please use parenthesis to avoid confusions"⟩, used) := by
  have hnext : nextToken env lv sep.node (nodesFrom n rest) used =
      .halt (.failed ⟨"ngsi-ld query language: mixed AND/OR operators",
        "please use parenthesis to avoid confusions"⟩) used := by
    simp only [nextToken, sep.kind, separatorToken, hop, if_neg ht]
  exact parse_halt hnext

theorem parse_misplaced (hk : tokenKind (Lexeme.type l) = .unsupported) :
    parse env lv (nodesFrom n (l :: rest)) used =
      (.failed ⟨"parse error: unsupported node type", qNodeType (Lexeme.type l)⟩, used) := by
  exact parse_halt (by simp [nextToken, hk])

theorem nextToken_opening (after : List Lexeme) :
    nextToken env lv (Lexeme.node n .opening) (nodesFrom (n + 1) after) used =
      match splitGroup 0 after with
      | none => .halt (.failed ⟨"mismatching parenthesis", "no matching ')'"⟩) used
      | some (body, rest) => .descend (nodesFrom (n + 1) body) (nodesFrom n rest) := by
  have h := splitClose_nodes n 0 after
  have hn : n + 1 + ((0 : ℕ) : ℤ) = n + 1 := by omega
  rw [hn] at h
  simp only [nextToken, Lexeme.node, qNode, QNode.type_mk, QNode.value_mk, tokenKind, h]
  cases splitGroup 0 after <;> rfl

/-- The side of a comparison is what its lexemes tell. -/
def SideEnds (n : ℤ) (ls : List Lexeme) (used : ℕ) (side : RightSide) : RightTurn → Prop
  | .whole k rest => rest <:+ ls ∧ ∃ right, side = .node right (nodesFrom n rest) (used + k)
  | .broken => ∃ u, side = .pastLastToken u
  | .refused k => ∃ e, side = .failed e (used + k)

theorem SideEnds.behind {side : RightSide} {turn : RightTurn} (h : SideEnds n ls used side turn)
    (hs : ls <:+ rest) : SideEnds n rest used side turn := by
  cases turn with
  | whole k more => exact ⟨h.1.trans hs, h.2⟩
  | broken => exact h
  | refused k => exact h

theorem commaList_turn {type : QNodeType} {c : Literal} (ht : type = c.node.type) (k : ℕ)
    (ls : List Lexeme) (comma value : QNode) : SideEnds n ls used
      (commaList comma type value (nodesFrom n ls) (used + k)) (listTurn type k ls) := by
  fun_induction listTurn type k ls generalizing comma value with
  | case1 k l rest hl ih =>
    obtain ⟨b, rfl⟩ := literal_of_type (hl.trans ht)
    have hnext : commaList comma type value (nodesFrom n (.comma :: .literal b :: rest))
        (used + k) =
        commaList (qNodeAppend comma value) type b.node (nodesFrom n rest) (used + (k + 1)) := by
      have hb : b.node.type = type := hl
      simp only [nodesFrom, commaList, Lexeme.node, qNode_type, if_true, hb]
      rfl
    rw [hnext]
    exact (ih _ _).behind ⟨[.comma, .literal b], rfl⟩
  | case2 k l rest hl =>
    have hcomma : Lexeme.type .comma = .qComma := rfl
    refine ⟨mixedTypes "comma-list" (Lexeme.type l), ?_⟩
    simp [nodesFrom, commaList, hcomma, hl]
  | case3 k => exact ⟨used + k, rfl⟩
  | case4 k rest hmore hlast =>
    refine ⟨suffix_rfl, qNodeAppend comma value, ?_⟩
    rcases rest with _ | ⟨l, _ | ⟨m, rest⟩⟩
    · rfl
    · have hl : Lexeme.type l ≠ .qComma := by
        intro hl
        exact hlast (by rw [comma_of_type hl])
      simp [nodesFrom, commaList, hl, Nat.add_assoc]
    · have hl : Lexeme.type l ≠ .qComma := by
        intro hl
        exact hmore m rest (by rw [comma_of_type hl])
      simp [nodesFrom, commaList, hl, Nat.add_assoc]

theorem rightSide_turn (a : Literal) (ls : List Lexeme) :
    SideEnds n ls used (rightSide a.node (nodesFrom n ls) used) (rightTurn a ls) := by
  unfold rightTurn
  split
  · rename_i l rest
    split
    · rename_i hl
      obtain ⟨b, rfl⟩ := literal_of_type hl.symm
      have hb : a.node.type = b.node.type := hl
      refine ⟨⟨[.range, .literal b], rfl⟩, qNodeAppend (qNodeAppend (qNode .qRange .unset) a.node)
        b.node, ?_⟩
      simp [nodesFrom, rightSide, Lexeme.node, hb, Lexeme.levelAfter]
    · rename_i hl
      have hrange : Lexeme.type .range = .qRange := rfl
      refine ⟨mixedTypes "range" (Lexeme.type l), ?_⟩
      simp [nodesFrom, rightSide, hrange, hl]
  · exact ⟨used, rfl⟩
  · rename_i rest
    have hlist := @commaList_turn n used _ a rfl 0 (.comma :: rest) (Lexeme.node n .comma) a.node
    exact hlist
  · rename_i hmore hlast hcomma
    refine ⟨suffix_rfl, a.node, ?_⟩
    cases ls with
    | nil => rfl
    | cons l rest =>
      have hrange : Lexeme.type l ≠ .qRange := by
        intro hl
        obtain rfl := range_of_type hl
        cases rest with
        | nil => exact hlast rfl
        | cons m rest => exact hmore m rest rfl
      have hlist : Lexeme.type l ≠ .qComma := by
        intro hl
        exact hcomma rest (by rw [comma_of_type hl])
      simp [nodesFrom, rightSide, hrange, hlist]

theorem parse_group_fault {t : QNode} {group behind ts : List QNode} {f : Fault} {u : ℕ}
    (hnext : nextToken env lv t ts used = .descend group behind)
    (hsub : parse env levelStart group used = (.fault f, u)) :
    parse env lv (t :: ts) used = (.fault f, u) := by
  rw [parse_descend hnext, hsub]

theorem parse_group {t : QNode} {group behind ts : List QNode} {result : Outcome QNode} {u : ℕ}
    (hnext : nextToken env lv t ts used = .descend group behind)
    (hsub : parse env levelStart group used = (result, u)) (hfault : ∀ f, result ≠ .fault f) :
    parse env lv (t :: ts) used =
      if lv.qNodeV.length < qNodeVSize then
        parse env { lv with qNodeV := lv.qNodeV ++ [nodeOf result] } behind u
      else (.fault .qNodeVOverflow, u) := by
  rw [parse_descend hnext, hsub]
  cases result with
  | fault f => exact absurd rfl (hfault f)
  | done node | failed e =>
    dsimp only
    unfold storeNode
    by_cases hroom : lv.qNodeV.length < qNodeVSize
    · rw [if_pos hroom, if_pos hroom]
    · rw [if_neg hroom, if_neg hroom]

/-- The lexemes behind the head of the loop, with what has been read before. -/
structure Rest (all rest : List Lexeme) (sep : Option Separator) (lv : Level) : Prop where
  inside : rest <:+: all
  idle : lv.compOpP = none
  op : lv.opNodeP = sep.map Separator.node

def Followed (env : NameEnv) (all : List Lexeme) (fuel : ℕ) : Prop :=
  ∀ {rest : List Lexeme} {lv : Level} {n : ℤ} {used : ℕ} {sep : Option Separator},
    rest.length < fuel → Rest all rest sep lv →
      Follows (parse env lv (nodesFrom n rest) used) lv used (turns fuel sep rest)

variable {sep : Option Separator} {s : Separator}

theorem Rest.behind {more : List Lexeme} {lv' : Level} (h : Rest all rest sep lv)
    (hs : more <:+ rest) (hidle : lv'.compOpP = none) (hop : lv'.opNodeP = lv.opNodeP) :
    Rest all more sep lv' :=
  ⟨hs.isInfix.trans h.inside, hidle, hop.trans h.op⟩

section

variable (ih : Followed env all fuel)
include ih

theorem left_follows {x : QNode} (h : Rest all (l :: rest) sep lv) (hf : rest.length < fuel)
    (hparse : parse env lv (nodesFrom n (l :: rest)) used =
      parse env { lv with leftP := some x } (nodesFrom n rest) used) :
    Follows (parse env lv (nodesFrom n (l :: rest)) used) lv used
      (.left :: turns fuel sep rest) := by
  rw [hparse]
  exact Follows.left (ih hf (h.behind (suffix_cons l rest) h.idle rfl))

theorem separator_follows (h : Rest all (.separator s :: rest) sep lv) (hf : rest.length < fuel) :
    Follows (parse env lv (nodesFrom n (.separator s :: rest)) used) lv used
      (turns (fuel + 1) sep (.separator s :: rest)) := by
  rw [turns]
  have hgo : ∀ lv' : Level, lv' = { lv with opNodeP := some s.node } →
      parse env lv (nodesFrom n (.separator s :: rest)) used =
        parse env lv' (nodesFrom n rest) used →
      Follows (parse env lv (nodesFrom n (.separator s :: rest)) used) lv used
        (.separator :: turns fuel (some s) rest) := by
    rintro lv' rfl hparse
    rw [hparse]
    exact Follows.separator (ih hf ⟨(suffix_cons _ _).isInfix.trans h.inside, h.idle, rfl⟩)
  cases sep with
  | none =>
    rw [Option.getD_none, if_pos rfl]
    exact hgo _ rfl (separator_run (.inl h.op))
  | some s' =>
    have hop : lv.opNodeP = some s'.node := h.op
    rw [Option.getD_some]
    by_cases hs : s' = s
    · subst hs
      rw [if_pos rfl]
      exact hgo _ rfl (separator_run (.inr hop))
    · have htype : s.node.type ≠ s'.node.type := by
        cases s <;> cases s' <;> first | exact absurd rfl hs | exact nofun
      rw [if_neg hs, parse_separator_mixed hop htype]
      exact Follows.refused (k := 0) _

omit ih in
theorem dangling_follows (hk : tokenKind (Lexeme.type l) = .operator)
    (hturn : turns (fuel + 1) sep [l] = .left :: turns fuel sep []) :
    Follows (parse env lv (nodesFrom n [l]) used) lv used (turns (fuel + 1) sep [l]) := by
  rw [parse_dangling hk, hturn, turns_nil]
  exact Follows.dangling

theorem negation_follows (hC : Checked all) (h : Rest all (.negation :: rest) sep lv)
    (hf : rest.length < fuel) :
    Follows (parse env lv (nodesFrom n (.negation :: rest)) used) lv used
      (turns (fuel + 1) sep (.negation :: rest)) := by
  rcases rest with _ | ⟨v, rest⟩
  · exact dangling_follows rfl rfl
  obtain ⟨path, rfl⟩ := after_negation hC h.inside
  have hend : ∀ l more, rest = l :: more → l = .closing ∨ ∃ sep, l = .separator sep := by
    rintro l more rfl
    exact after_negated hC h.inside
  obtain ⟨lv', hv, hop, hidle, hparse⟩ := @parse_negated env lv rest n used path hend
  rw [hparse, turns]
  refine Follows.stored lv' _ true ?_ (by rw [nodes]) (by simp [operands]) rfl rfl hv hop ?_ ?_
  · intro room
    rcases rest with _ | ⟨l, rest⟩
    · simp [fits]
    · simp [fits, (hidle nofun).2]
  · intro hfull
    rw [if_neg fun hroom => hfull ⟨rfl, hroom⟩]
    exact ⟨_, _, rfl⟩
  · intro _ hroom
    rw [if_pos hroom]
    rcases rest with _ | ⟨l, rest⟩
    · rw [turns_nil]
      exact Follows.nil
    · exact ih (Nat.lt_of_succ_lt hf) (h.behind ⟨[.negation, .named path], rfl⟩ (hidle nofun).1 hop)

/-- A comparison once its right-hand side has been read. -/
theorem operation_follows {op : Lexeme} {turn : RightTurn} (h : Rest all (op :: l :: rest) sep lv)
    (hop : tokenKind (Lexeme.type op) = .operator) (hp : ¬ Lexeme.IsParen op)
    (hl : tokenKind (Lexeme.type l) = .value) (hlp : ¬ Lexeme.IsParen l)
    (hne : Lexeme.type op ≠ .qNotExists) (hf : rest.length < fuel)
    (hside : SideEnds n rest used (rightSide (l.node n) (nodesFrom n rest) used) turn) :
    Follows (parse env lv (nodesFrom n (op :: l :: rest)) used) lv used
      (turn.turns (turns fuel sep)) := by
  rw [parse_operation hop hp hl hlp hne]
  cases turn with
  | broken =>
    obtain ⟨u, hu⟩ := hside
    rw [hu]
    exact Follows.broken _ _
  | refused k =>
    obtain ⟨e, he⟩ := hside
    rw [he]
    exact Follows.refused e
  | whole k more =>
    obtain ⟨hsuffix, right, hright⟩ := hside
    rw [hright, RightTurn.turns]
    cases hleft : lv.leftP with
    | none => simp [Follows, fits, hleft]
    | some left =>
      refine Follows.stored { lv with
        qNodeV := lv.qNodeV ++ [some (qNodeAppend (qNodeAppend (op.node n) left) right)]
        compOpP := none
        leftP := none } _ true ?_ (by rw [nodes]) (by simp [operands]) rfl rfl rfl rfl ?_ ?_
      · intro room
        simp [fits, hleft]
      · intro hfull
        dsimp only
        rw [if_neg fun hroom => hfull ⟨rfl, hroom⟩]
        exact ⟨_, _, rfl⟩
      · intro _ hroom
        dsimp only
        rw [if_pos hroom, Nat.add_assoc]
        have hlen : more.length < fuel := Nat.lt_of_le_of_lt hsuffix.length_le hf
        exact ih hlen (h.behind (hsuffix.trans ⟨[op, l], rfl⟩) rfl rfl)

theorem compare_follows {op : CompareOp} (hC : Checked all)
    (h : Rest all (.compare op :: rest) sep lv) (hf : rest.length < fuel) :
    Follows (parse env lv (nodesFrom n (.compare op :: rest)) used) lv used
      (turns (fuel + 1) sep (.compare op :: rest)) := by
  rcases rest with _ | ⟨v, rest⟩
  · exact dangling_follows op.kind rfl
  obtain ⟨a, rfl⟩ := after_compare hC h.inside
  rw [turns]
  exact operation_follows ih h op.kind (by simp [Lexeme.IsParen]) a.kind (by simp [Lexeme.IsParen])
    op.ne_notExists (Nat.lt_of_succ_lt hf) (rightSide_turn a rest)

theorem matching_follows {op : MatchOp} (hC : Checked all)
    (h : Rest all (.matching op :: rest) sep lv) (hf : rest.length < fuel) :
    Follows (parse env lv (nodesFrom n (.matching op :: rest)) used) lv used
      (turns (fuel + 1) sep (.matching op :: rest)) := by
  rcases rest with _ | ⟨v, rest⟩
  · exact dangling_follows op.kind rfl
  obtain ⟨re, rfl⟩ := after_matching hC h.inside
  have halone : rightSide (Lexeme.node n (.regexp re)) (nodesFrom n rest) used =
      .node (Lexeme.node n (.regexp re)) (nodesFrom n rest) used := by
    rcases rest with _ | ⟨l, rest⟩
    · rfl
    · exact rightSide_ending (after_regexp hC ((suffix_cons _ _).isInfix.trans h.inside))
  have hside : SideEnds n rest used (rightSide (Lexeme.node n (.regexp re)) (nodesFrom n rest) used)
      (.whole 0 rest) := ⟨suffix_rfl, _, halone⟩
  exact operation_follows ih h op.kind (by simp [Lexeme.IsParen]) rfl (by simp [Lexeme.IsParen])
    op.ne_notExists (Nat.lt_of_succ_lt hf) hside

theorem opening_follows (h : Rest all (.opening :: rest) sep lv) (hf : rest.length < fuel) :
    Follows (parse env lv (nodesFrom n (.opening :: rest)) used) lv used
      (turns (fuel + 1) sep (.opening :: rest)) := by
  have hnext : nextToken env lv (Lexeme.node n .opening) (nodesFrom (n + 1) rest) used = _ :=
    nextToken_opening rest
  rw [turns]
  cases hs : splitGroup 0 rest with
  | none =>
    rw [hs] at hnext
    rw [nodesFrom, Lexeme.levelAfter, parse_halt hnext]
    exact Follows.refused (k := 0) _
  | some p =>
    obtain ⟨body, behind⟩ := p
    rw [hs] at hnext
    have hrest := splitGroup_eq hs
    have hinside : body <:+: all := by
      refine List.IsInfix.trans ⟨[.opening], .closing :: behind, ?_⟩ h.inside
      rw [hrest]
      simp
    have hlen : rest.length = body.length + behind.length + 1 := by
      rw [hrest, length_append, length_cons]
      omega
    have hbody := (@ih body levelStart (n + 1) used none (by omega) ⟨hinside, rfl, rfl⟩).outcome
    generalize hsub : parse env levelStart (nodesFrom (n + 1) body) used = run at hbody
    obtain ⟨result, u⟩ := run
    change Follows (parse env lv (Lexeme.node n .opening :: nodesFrom (n + 1) rest) used) lv used
      (.group (turns fuel none body) :: turns fuel sep behind)
    generalize turns fuel none body = inner at hbody
    by_cases hharmless : harmless inner = true
    · rw [if_pos hharmless] at hbody
      obtain ⟨hnode, hu, hfault⟩ : (nodeOf result).isSome = accepted inner ∧
          u = used + (nodes inner + joinNodes inner) ∧ ∀ f, result ≠ .fault f := by
        split_ifs at hbody with haccepted
        · obtain ⟨node, hbody⟩ := hbody
          cases hbody
          exact ⟨haccepted.symm, Nat.add_assoc _ _ _, nofun⟩
        · obtain ⟨e, hbody⟩ := hbody
          cases hbody
          exact ⟨((Bool.not_eq_true _).mp haccepted).symm, Nat.add_assoc _ _ _, nofun⟩
      rw [parse_group hnext hsub hfault]
      refine Follows.stored (k := nodes inner + joinNodes inner)
        { lv with qNodeV := lv.qNodeV ++ [nodeOf result] } (nodeOf result) true ?_
        (by simp [nodes]) ?_ rfl rfl rfl rfl ?_ ?_
      · intro room
        have hgroup : (Turn.group inner).harmless = true := hharmless
        rw [fits, hgroup, Bool.true_and, Bool.true_and]
      · have hgroup : (Turn.group inner).isTree = accepted inner := rfl
        rw [operands, hnode, hgroup]
        rfl
      · intro hfull
        exact ⟨_, _, if_neg fun hroom => hfull ⟨rfl, hroom⟩⟩
      · intro _ hroom
        rw [if_pos hroom, hu]
        refine ih (by omega) (h.behind ⟨.opening :: body ++ [.closing], ?_⟩ h.idle rfl)
        rw [hrest]
        simp
    · rw [if_neg hharmless] at hbody
      obtain ⟨f, u', hbody⟩ := hbody
      cases hbody
      rw [parse_group_fault hnext hsub]
      have hfits : ∀ left room, fits left room (.group inner :: turns fuel sep behind) = false := by
        intro left room
        have hgroup : (Turn.group inner).harmless = false := (Bool.not_eq_true _).mp hharmless
        rw [fits, hgroup, Bool.false_and]
      simp [Follows, hfits]

theorem lexeme_follows (hC : Checked all) (h : Rest all (l :: rest) sep lv)
    (hf : rest.length < fuel) : Follows (parse env lv (nodesFrom n (l :: rest)) used) lv used
      (turns (fuel + 1) sep (l :: rest)) := by
  cases l with
  | opening => exact opening_follows ih h hf
  | separator s => exact separator_follows ih h hf
  | negation => exact negation_follows ih hC h hf
  | compare op => exact compare_follows ih hC h hf
  | matching op => exact matching_follows ih hC h hf
  | literal a => exact left_follows ih h hf (parse_value a.kind (by simp [Lexeme.IsParen]) h.idle)
  | regexp re => exact left_follows ih h hf (parse_value rfl (by simp [Lexeme.IsParen]) h.idle)
  | named path =>
    cases rest with
    | nil =>
      rw [parse_named_last h.idle]
      change Follows _ lv used [.operand 2]
      refine Follows.stored (k := 2) { lv with
        qNodeV := lv.qNodeV ++ [some ((Operand.bare path).tree env)]
        compOpP := some (qNode .qExists .unset) } (some ((Operand.bare path).tree env)) true ?_
        (by simp [nodes]) (by simp [operands]) rfl rfl rfl rfl ?_ ?_
      · simp [fits]
      · intro hfull
        exact ⟨_, _, if_neg fun hroom => hfull ⟨rfl, hroom⟩⟩
      · intro _ hroom
        rw [if_pos hroom]
        exact Follows.nil
    | cons m rest => exact left_follows ih h hf (parse_named h.idle)
  | closing | comma | range =>
    rw [parse_misplaced rfl]
    exact Follows.refused (k := 0) _

end

theorem level_follows (hC : Checked all) (fuel : ℕ) : Followed env all fuel := by
  induction fuel with
  | zero => exact fun hf => absurd hf (Nat.not_lt_zero _)
  | succ fuel ih =>
    intro rest lv n used sep hf h
    cases rest with
    | nil => exact Follows.nil
    | cons l rest => exact lexeme_follows ih hC h (Nat.lt_of_succ_lt_succ hf)

/-- Every level fits, and the tokens and the nodes built from them are in the pool. -/
structure Harmless (ls : List Lexeme) : Prop where
  fits : harmless (readLevel ls) = true
  pool : ls.length + nodes (readLevel ls) + joinNodes (readLevel ls) ≤ qNodeSize

instance (ls : List Lexeme) : Decidable (Harmless ls) :=
  decidable_of_iff (_ ∧ _) ⟨fun h => ⟨h.1, h.2⟩, fun h => ⟨h.fits, h.pool⟩⟩

/-- The string has a token, not too many of them, and they are harmless if the check passes them. -/
structure HarmlessText (lex : LexEnv) (s : Text) : Prop where
  size : (lexLoop lex .plain (lexStart lex) s).1.tokens.length ≤ qNodeSize
  token : (lexLoop lex .plain (lexStart lex) s).2 = none →
    (lexLoop lex .plain (lexStart lex) s).1.tokens ≠ []
  harmless : ∀ tokens, qLex lex s = .done tokens → Harmless (tokens.filterMap readLexeme)

variable {lex : LexEnv} {names : NameEnv} {str : Text}

theorem qLex_no_fault_iff : (∀ f, qLex lex str ≠ .fault f) ↔
    (lexLoop lex .plain (lexStart lex) str).1.tokens.length ≤ qNodeSize ∧
      ((lexLoop lex .plain (lexStart lex) str).2 = none →
        (lexLoop lex .plain (lexStart lex) str).1.tokens ≠ []) := by
  unfold qLex
  generalize lexLoop lex .plain (lexStart lex) str = run
  obtain ⟨st, e⟩ := run
  by_cases hsize : qNodeSize < st.tokens.length
  · cases e <;> simp [hsize, Nat.not_le.mpr hsize]
  cases e with
  | some e => simp [hsize, Nat.le_of_not_lt hsize]
  | none =>
    by_cases hempty : st.tokens = []
    · simp [hempty]
    · cases hcheck : qLexCheck st.tokens <;>
        simp [hempty, hsize, hcheck, Nat.le_of_not_lt hsize]

theorem filterMap_nodesFrom (level : ℤ) (ls : List Lexeme) :
    (nodesFrom level ls).filterMap readLexeme = ls := by
  induction ls generalizing level with
  | nil => rfl
  | cons l ls ih => rw [nodesFrom, filterMap_cons_some (readLexeme_node level l), ih]

/-- The front end on tokens that pass the check: a fault, unless they are harmless, and a tree
exactly if their level is accepted. -/
theorem qFilter_ends (hlex : qLex lex str = .done (nodesFrom 0 ls)) :
    if Harmless ls then
      if accepted (readLevel ls) then ∃ tree, qFilter lex names str = .done tree
      else ∃ e, qFilter lex names str = .failed e
    else ∃ f, qFilter lex names str = .fault f := by
  obtain ⟨ls', hls, -, hcheck, -⟩ := qLex_done hlex
  have hC : Checked ls := (qLexCheck_checked hcheck).1
  have hends := (@level_follows names ls hC (ls.length + 1) ls levelStart 0 ls.length none
    (Nat.lt_succ_self _) ⟨infix_rfl, rfl, rfl⟩).outcome
  change (if harmless (readLevel ls) then if accepted (readLevel ls) then _ else _ else _) at hends
  have hfilter : qFilter lex names str = if qNodeSize < (parse names levelStart (nodesFrom 0 ls)
      ls.length).2 then .fault .poolExhausted
      else (parse names levelStart (nodesFrom 0 ls) ls.length).1 := by
    unfold qFilter
    rw [hlex]
    dsimp only
    rw [nodesFrom_length, qParse_eq]
  rw [hfilter]
  generalize parse names levelStart (nodesFrom 0 ls) ls.length = run at hends
  by_cases hfits : harmless (readLevel ls) = true
  · rw [if_pos hfits] at hends
    by_cases hpool : ls.length + nodes (readLevel ls) + joinNodes (readLevel ls) ≤ qNodeSize
    · rw [if_pos ⟨hfits, hpool⟩]
      by_cases haccepted : accepted (readLevel ls) = true
      · rw [if_pos haccepted] at hends ⊢
        obtain ⟨tree, rfl⟩ := hends
        exact ⟨tree, if_neg (Nat.not_lt.mpr hpool)⟩
      · rw [if_neg haccepted] at hends ⊢
        obtain ⟨e, rfl⟩ := hends
        exact ⟨e, if_neg (Nat.not_lt.mpr hpool)⟩
    · rw [if_neg fun h => hpool h.pool]
      split_ifs at hends
      all_goals
        obtain ⟨x, rfl⟩ := hends
        exact ⟨_, if_pos (Nat.lt_of_not_le hpool)⟩
  · rw [if_neg hfits] at hends
    rw [if_neg fun h => hfits h.fits]
    obtain ⟨f, u, rfl⟩ := hends
    split
    · exact ⟨_, rfl⟩
    · exact ⟨f, rfl⟩

/-- The front end ends with a tree or an error exactly on the harmless strings. -/
theorem qFilter_total_iff : ((∃ tree, qFilter lex names str = .done tree) ∨
    ∃ e, qFilter lex names str = .failed e) ↔ HarmlessText lex str := by
  have hnofault := @qLex_no_fault_iff lex str
  cases hlex : qLex lex str with
  | fault f =>
    have hfilter : qFilter lex names str = .fault f := by simp [qFilter, hlex]
    constructor
    · rintro (⟨tree, h⟩ | ⟨e, h⟩)
      · cases hfilter.symm.trans h
      · cases hfilter.symm.trans h
    · intro h
      exact absurd hlex (hnofault.mpr ⟨h.size, h.token⟩ f)
  | failed e =>
    refine iff_of_true (.inr ⟨e, by simp [qFilter, hlex]⟩) ?_
    obtain ⟨hsize, htoken⟩ := hnofault.mp (by rw [hlex]; rintro f ⟨⟩)
    exact ⟨hsize, htoken, by rw [hlex]; rintro tokens ⟨⟩⟩
  | done tokens =>
    obtain ⟨hsize, htoken⟩ := hnofault.mp (by rw [hlex]; rintro f ⟨⟩)
    obtain ⟨ls, rfl, -⟩ := qLex_done hlex
    have hends := @qFilter_ends _ _ names _ hlex
    by_cases hharmless : Harmless ls
    · rw [if_pos hharmless] at hends
      refine iff_of_true ?_ ⟨hsize, htoken, ?_⟩
      · split_ifs at hends
        · exact .inl hends
        · exact .inr hends
      · intro tokens hdone
        cases hlex.symm.trans hdone
        rw [filterMap_nodesFrom]
        exact hharmless
    · rw [if_neg hharmless] at hends
      obtain ⟨f, hf⟩ := hends
      refine iff_of_false ?_ ?_
      · rintro (⟨tree, h⟩ | ⟨e, h⟩)
        · cases hf.symm.trans h
        · cases hf.symm.trans h
      · intro h
        have hH := h.harmless _ hlex
        rw [filterMap_nodesFrom] at hH
        exact hharmless hH

/-- Refused as mixed before the range that breaks off is reached. -/
example : Harmless [.named "A".toList, .separator .and, .named "B".toList, .separator .or,
    .named "C".toList, .compare .eq, .literal (.int 1), .range] := by decide

/-- Where the front end leaves its memory: a blank string, a right-hand side that breaks
off, a comparison without a left side, a group that is refused beside another operand,
eleven operands on a level, and more tokens than the pool has nodes. -/
theorem qFilter_faults :
    qFilter sampleLex sampleNames " ".toList = .fault .uninitialisedList ∧
    qFilter sampleLex sampleNames "A==1..".toList = .fault .pastLastToken ∧
    qFilter sampleLex sampleNames "A==1,".toList = .fault .pastLastToken ∧
    qFilter sampleLex sampleNames "A==1==2".toList = .fault .nullNode ∧
    qFilter sampleLex sampleNames "(A;B|C);D".toList = .fault .nullNode ∧
    qFilter sampleLex sampleNames ("A==1".toList ++
      (List.replicate 10 ";A==1".toList).flatten) = .fault .qNodeVOverflow ∧
    qFilter sampleLex sampleNames (List.replicate 101 '(') = .fault .poolExhausted := by
  refine ⟨by decide, by decide, by decide, by decide, by decide, by decide,
    by decide +kernel⟩

end QFilterSafety
