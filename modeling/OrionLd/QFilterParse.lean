import OrionLd.QFilterLex

/-! Syntactic analysis of a q filter: varFix and qParse.
qParse walks one parenthesis level with four working variables and calls itself for
each sub-expression. A NULL result of the recursive call is stored like any other. -/
namespace QFilterParse

open QFilterLex List

/-- Term expansion under the @context of the request. -/
structure NameEnv where
  attributeExpand : Text → Text
  subAttributeExpand : Text → Text

/-- Position of the n-th occurrence, counted from 0. -/
def nthIndexOf (c : Char) : ℕ → Text → Option ℕ
  | _, [] => none
  | n, d :: ds =>
    if d = c then
      match n with
      | 0 => some 0
      | n + 1 => (nthIndexOf c n ds).map (· + 1)
    else (nthIndexOf c n ds).map (· + 1)

def dotsToEquals (name : Text) : Text := name.map fun c => if c = '.' then '=' else c

/-- strncpy into the 512-byte name buffers, then '.' turned into '='. -/
def dbName (longName : Text) : Text := dotsToEquals (longName.take 511)

/-- snprintf into the 1100-byte path buffer, of which the last byte is not used. -/
def fullPath (parts : List Text) : Text := parts.flatten.take 1098

def mdDbName (env : NameEnv) (md : Text) : Text :=
  if md = "observedAt".toList then md else dbName (env.subAttributeExpand md)

/-- The brackets of the whole path are counted before their balance is judged, and the first
repeated one ends the scan. -/
def bracketError (path : Text) : Option String :=
  match nthIndexOf '[' 1 path, nthIndexOf ']' 1 path with
  | some a, some b =>
    some (if a < b then "More than one start brackets found"
      else "More than one end brackets found")
  | some _, none => some "More than one start brackets found"
  | none, some _ => some "More than one end brackets found"
  | none, none =>
    match nthIndexOf '[' 0 path, nthIndexOf ']' 0 path with
    | some _, none => some "missing end bracket"
    | none, some _ => some "end bracket but no start bracket"
    | some start, some _ =>
      match nthIndexOf '.' 0 path with
      | some dot => if dot < start then some "found a dot before a start bracket" else none
      | none => none
    | none, none => none

/-- The C string between two positions, the bytes at the NULled positions ending it. -/
def bracketRest (path : Text) (start close : ℕ) : Text :=
  if start < close then (path.drop (start + 1)).take (close - start - 1)
  else path.drop (start + 1)

def varFix (env : NameEnv) (path : Text) : Except String Text :=
  match bracketError path with
  | some details => .error details
  | none =>
    match nthIndexOf '[' 0 path, nthIndexOf ']' 0 path, nthIndexOf '.' 0 path,
        nthIndexOf '.' 1 path with
    | none, _, none, _ =>
      .ok (fullPath ["attrs.".toList, dbName (env.attributeExpand path), ".value".toList])
    | some start, some close, _, _ =>
      .ok (fullPath ["attrs.".toList,
        dbName (env.attributeExpand (path.take (min start close))),
        ".value.".toList, bracketRest path start close])
    | none, _, some dot, none =>
      .ok (fullPath ["attrs.".toList, dbName (env.attributeExpand (path.take dot)),
        ".md.".toList, mdDbName env (path.drop (dot + 1)), ".value".toList])
    | none, _, some dot, some dot2 =>
      .ok (fullPath ["attrs.".toList, dbName (env.attributeExpand (path.take dot)),
        ".md.".toList, mdDbName env ((path.drop (dot + 1)).take (dot2 - dot - 1)),
        ".value.".toList, path.drop (dot2 + 1)])
    | some _, none, _, _ => .error "invalid RHS in Q-filter"

/-- The result of varFix is stored unchecked: NULL for a refused path. -/
def fixVariable (env : NameEnv) : QNode → QNode
  | .mk type (.v (some path)) children => .mk type (.v (varFix env path).toOption) children
  | node => node

/-- The clone of the child costs one node of the pool. -/
def qNodeAppend (container child : QNode) : QNode :=
  .mk container.type container.value (container.children ++ [child])

structure Level where
  qNodeV : List (Option QNode)
  opNodeP : Option QNode
  compOpP : Option QNode
  leftP : Option QNode

def levelStart : Level := ⟨[], none, none, none⟩

def qNodeVSize : ℕ := 10

/-- The matching ')' is the first one of the level of the '('. -/
def splitClose (level : QNodeValue) : List QNode → Option (List QNode × List QNode)
  | [] => none
  | t :: ts =>
    if t.type = .qClose ∧ t.value = level then some ([], ts)
    else (splitClose level ts).map fun p => (t :: p.1, p.2)

/-- The right-hand side that starts at a value: a range, a comma-list or the value, the tokens
behind it and the number of nodes appended. -/
inductive RightSide where
  | node (right : QNode) (rest : List QNode) (used : ℕ)
  | failed (e : QError) (used : ℕ)
  | pastLastToken (used : ℕ)

def mixedTypes (what : String) (type : QNodeType) : QError :=
  ⟨"ngsi-ld query language: mixed types in " ++ what, qNodeType type⟩

def commaList (comma : QNode) (type : QNodeType) : QNode → List QNode → ℕ → RightSide
  | value, [], used => .node (qNodeAppend comma value) [] (used + 1)
  | value, [c], used =>
    if c.type = .qComma then .pastLastToken used
    else .node (qNodeAppend comma value) [c] (used + 1)
  | value, c :: next :: ts, used =>
    if c.type = .qComma then
      if next.type = type then commaList (qNodeAppend comma value) type next ts (used + 1)
      else .failed (mixedTypes "comma-list" next.type) used
    else .node (qNodeAppend comma value) (c :: next :: ts) (used + 1)

def rightSide (value : QNode) (ts : List QNode) (used : ℕ) : RightSide :=
  match ts with
  | [] => .node value [] used
  | op :: rest =>
    if op.type = .qRange then
      match rest with
      | [] => .pastLastToken used
      | upper :: rest =>
        if value.type = upper.type then
          .node (qNodeAppend (qNodeAppend op value) upper) rest (used + 2)
        else .failed (mixedTypes "range" upper.type) used
    else if op.type = .qComma then commaList op value.type value (op :: rest) used
    else .node value (op :: rest) used

/-- Children are appended in order; a NULL child is dereferenced. -/
def appendAll (op : QNode) : List (Option QNode) → ℕ → Outcome QNode × ℕ
  | [], used => (.done op, used)
  | none :: _, used => (.fault .nullNode, used)
  | some n :: ns, used => appendAll (qNodeAppend op n) ns (used + 1)

def finishLevel (lv : Level) (used : ℕ) : Outcome QNode × ℕ :=
  match lv.opNodeP with
  | some op => appendAll op lv.qNodeV used
  | none =>
    match lv.qNodeV with
    | some n :: _ => (.done n, used)
    | _ => (.failed ⟨"Parse Error in Q-Expression", "Unfinished statement?"⟩, used)

/-- The comparison operator with its left side, unless the operator is '!'. -/
def withLeft (op : QNode) (leftP : Option QNode) (used : ℕ) : Option (QNode × ℕ) :=
  if op.type = .qNotExists then some (op, used)
  else leftP.map fun left => (qNodeAppend op left, used + 1)

inductive TokenKind where
  | opening
  | named
  | value
  | separator
  | operator
  | unsupported
  deriving DecidableEq, Repr

/-- The cases of the switch over the token type. -/
def tokenKind : QNodeType → TokenKind
  | .qOpen => .opening
  | .qVariable => .named
  | .qStringValue | .qIntegerValue | .qFloatValue | .qTrueValue | .qFalseValue
  | .qRegexpValue => .value
  | .qOr | .qAnd => .separator
  | .qEQ | .qNE | .qGE | .qGT | .qLE | .qLT | .qMatch | .qNoMatch | .qNotExists => .operator
  | .qVoid | .qClose | .qExists | .qComma | .qRange => .unsupported

/-- What the loop does with one token: stop, go on, or parse a sub-expression first. -/
inductive Next where
  | halt (outcome : Outcome QNode) (used : ℕ)
  | go (lv : Level) (rest : List QNode) (used : ℕ)
  | descend (body rest : List QNode)

/-- Stores at the next index of the ten pointers, or beyond them. -/
def storeNode (lv : Level) (node : Option QNode) : Option Level :=
  if lv.qNodeV.length < qNodeVSize then some { lv with qNodeV := lv.qNodeV ++ [node] } else none

def storeThen (lv : Level) (node : Option QNode) (rest : List QNode) (used : ℕ) : Next :=
  match storeNode lv node with
  | none => .halt (.fault .qNodeVOverflow) used
  | some lv => .go lv rest used

/-- A value is the left-hand side until an operator has been seen. -/
def operandToken (lv : Level) (value : QNode) (ts : List QNode) (used : ℕ) : Next :=
  match lv.compOpP with
  | none => .go { lv with leftP := some value } ts used
  | some op =>
    match rightSide value ts used with
    | .failed e used => .halt (.failed e) used
    | .pastLastToken used => .halt (.fault .pastLastToken) used
    | .node right rest used =>
      match withLeft op lv.leftP used with
      | none => .halt (.fault .nullNode) used
      | some (op, used) =>
        storeThen { lv with compOpP := none, leftP := none } (some (qNodeAppend op right))
          rest (used + 1)

/-- The last variable of a level is an operand by itself, or that of a '!'. -/
def lastVariable (lv : Level) (node : QNode) (used : ℕ) : Next :=
  match lv.compOpP with
  | none =>
    storeThen { lv with compOpP := some (qNode .qExists .unset) }
      (some (qNodeAppend (qNode .qExists .unset) node)) [] (used + 2)
  | some op => storeThen lv (some (qNodeAppend op node)) [] (used + 1)

def separatorToken (lv : Level) (t : QNode) (ts : List QNode) (used : ℕ) : Next :=
  match lv.opNodeP with
  | none => .go { lv with opNodeP := some t } ts used
  | some op =>
    if t.type = op.type then .go lv ts used
    else .halt (.failed ⟨"ngsi-ld query language: mixed AND/OR operators",
      "please use parenthesis to avoid confusions"⟩) used

def nextToken (env : NameEnv) (lv : Level) (t : QNode) (ts : List QNode) (used : ℕ) : Next :=
  match tokenKind t.type with
  | .opening =>
    match splitClose t.value ts with
    | none => .halt (.failed ⟨"mismatching parenthesis", "no matching ')'"⟩) used
    | some (body, rest) => .descend body rest
  | .named =>
    if ts = [] then lastVariable lv (fixVariable env t) used
    else operandToken lv (fixVariable env t) ts used
  | .value => operandToken lv t ts used
  | .separator => separatorToken lv t ts used
  | .operator => .go { lv with compOpP := some t } ts used
  | .unsupported =>
    .halt (.failed ⟨"parse error: unsupported node type", qNodeType t.type⟩) used

def nodeOf : Outcome QNode → Option QNode
  | .done n => some n
  | _ => none

/-- One level of qParse: the tokens left, the nodes used so far, and fuel for the
recursion, of which one unit per token is enough. -/
def parseLevel (env : NameEnv) : ℕ → Level → List QNode → ℕ → Outcome QNode × ℕ
  | 0, _, _, used => (.fault .outOfFuel, used)
  | _ + 1, lv, [], used => finishLevel lv used
  | fuel + 1, lv, t :: ts, used =>
    match nextToken env lv t ts used with
    | .halt outcome used => (outcome, used)
    | .go lv rest used => parseLevel env fuel lv rest used
    | .descend body rest =>
      match parseLevel env fuel levelStart body used with
      | (.fault f, used) => (.fault f, used)
      | (result, used) =>
        match storeNode lv (nodeOf result) with
        | none => (.fault .qNodeVOverflow, used)
        | some lv => parseLevel env fuel lv rest used

def qParse (env : NameEnv) (qLexList : List QNode) (used : ℕ) : Outcome QNode × ℕ :=
  parseLevel env (qLexList.length + 1) levelStart qLexList used

/-- qLex and then qParse, as orionldGetEntities and pcheckQ call them. Each token takes one node of
the pool, and the parser goes on from there. -/
def qFilter (lex : LexEnv) (names : NameEnv) (s : Text) : Outcome QNode :=
  match qLex lex s with
  | .fault f => .fault f
  | .failed e => .failed e
  | .done tokens =>
    match qParse names tokens tokens.length with
    | (outcome, used) => if qNodeSize < used then .fault .poolExhausted else outcome

variable {body rest ts : List QNode} {t value : QNode} {used used' : ℕ} {lv lv' : Level}
variable {env : NameEnv}

theorem splitClose_eq {level : QNodeValue} (h : splitClose level ts = some (body, rest)) :
    ∃ close, close.type = .qClose ∧ close.value = level ∧ ts = body ++ close :: rest := by
  induction ts generalizing body with
  | nil => cases h
  | cons t ts ih =>
    unfold splitClose at h
    split at h
    · next hc =>
      cases h
      exact ⟨t, hc.1, hc.2, rfl⟩
    obtain ⟨p, hp, he⟩ := Option.map_eq_some_iff.mp h
    cases he
    obtain ⟨close, ht, hl, rfl⟩ := ih hp
    exact ⟨close, ht, hl, rfl⟩

theorem commaList_suffix {comma : QNode} {type : QNodeType} {right : QNode}
    (h : commaList comma type value ts used = .node right rest used') : rest <:+ ts := by
  fun_induction commaList comma type value ts used with
  | case1 | case3 | case6 => cases h; exact suffix_rfl
  | case2 => cases h
  | case4 comma value c next ts used hc ht ih =>
    exact (ih h).trans ((suffix_cons next ts).trans (suffix_cons c _))
  | case5 => cases h

theorem rightSide_suffix {right : QNode} (h : rightSide value ts used = .node right rest used') :
    rest <:+ ts := by
  unfold rightSide at h
  split at h
  · cases h; exact suffix_rfl
  rename_i op ops
  split_ifs at h with hr hc
  · split at h
    · cases h
    rename_i upper more
    split_ifs at h
    cases h
    exact (suffix_cons upper _).trans (suffix_cons op _)
  · exact commaList_suffix h
  · cases h; exact suffix_rfl

theorem storeThen_go {node : Option QNode} (h : storeThen lv node ts used = .go lv' rest used') :
    rest = ts ∧ used' = used ∧ lv' = { lv with qNodeV := lv.qNodeV ++ [node] } ∧
      lv.qNodeV.length < qNodeVSize := by
  unfold storeThen storeNode at h
  split_ifs at h with hl
  cases h
  exact ⟨rfl, rfl, rfl, hl⟩

theorem storeThen_ne_descend {node : Option QNode} :
    storeThen lv node ts used ≠ .descend body rest := by
  unfold storeThen
  split <;> simp

theorem operandToken_ne_descend : operandToken lv value ts used ≠ .descend body rest := by
  unfold operandToken
  split
  · simp
  split
  · simp
  · simp
  split
  · simp
  · exact storeThen_ne_descend

theorem operandToken_suffix (h : operandToken lv value ts used = .go lv' rest used') :
    rest <:+ ts := by
  unfold operandToken at h
  split at h
  · cases h; exact suffix_rfl
  split at h
  · cases h
  · cases h
  rename_i right more used2 hr
  split at h
  · cases h
  · obtain ⟨rfl, -⟩ := storeThen_go h
    exact rightSide_suffix hr

theorem nextToken_go_length (h : nextToken env lv t ts used = .go lv' rest used') :
    rest.length ≤ ts.length := by
  unfold nextToken at h
  split at h
  · split at h <;> cases h
  · split_ifs at h with hts
    · unfold lastVariable at h
      split at h <;> obtain ⟨rfl, -⟩ := storeThen_go h <;> simp
    · exact (operandToken_suffix h).length_le
  · exact (operandToken_suffix h).length_le
  · unfold separatorToken at h
    split at h
    · cases h; exact le_rfl
    · split_ifs at h
      cases h; exact le_rfl
  · cases h; exact le_rfl
  · cases h

theorem nextToken_descend (h : nextToken env lv t ts used = .descend body rest) :
    t.type = .qOpen ∧ splitClose t.value ts = some (body, rest) := by
  unfold nextToken at h
  split at h
  · rename_i hk
    split at h
    · cases h
    rename_i hs
    cases h
    refine ⟨?_, hs⟩
    revert hk
    cases t.type <;> simp [tokenKind]
  · split_ifs at h
    · unfold lastVariable at h
      split at h <;> exact absurd h storeThen_ne_descend
    · exact absurd h operandToken_ne_descend
  · exact absurd h operandToken_ne_descend
  · unfold separatorToken at h
    split at h
    · cases h
    · split_ifs at h
  · cases h
  · cases h

theorem descend_length {level : QNodeValue} (h : splitClose level ts = some (body, rest)) :
    body.length < ts.length ∧ rest.length < ts.length := by
  obtain ⟨close, -, -, rfl⟩ := splitClose_eq h
  simp only [length_append, length_cons]
  omega

/-- Fuel beyond the number of tokens changes nothing. -/
theorem parseLevel_fuel (env : NameEnv) {f g : ℕ} (hf : ts.length < f) (hg : ts.length < g) :
    parseLevel env f lv ts used = parseLevel env g lv ts used := by
  induction f generalizing g lv ts used with
  | zero => omega
  | succ f ih =>
    obtain ⟨g, rfl⟩ : ∃ k, g = k + 1 := ⟨g - 1, by omega⟩
    cases ts with
    | nil => rfl
    | cons t ts =>
      simp only [length_cons] at hf hg
      unfold parseLevel
      cases hn : nextToken env lv t ts used with
      | halt o u => rfl
      | go lv' rest u =>
        have hl := nextToken_go_length hn
        exact ih (by omega) (by omega)
      | descend body rest =>
        obtain ⟨hb, hr⟩ := descend_length (nextToken_descend hn).2
        have hsub : parseLevel env f levelStart body used =
            parseLevel env g levelStart body used := ih (by omega) (by omega)
        simp only [hsub]
        split
        · rfl
        split
        · rfl
        · exact ih (by omega) (by omega)

/-- The parser of one level, without fuel. -/
def parse (env : NameEnv) (lv : Level) (ts : List QNode) (used : ℕ) : Outcome QNode × ℕ :=
  parseLevel env (ts.length + 1) lv ts used

theorem qParse_eq (env : NameEnv) (ts : List QNode) (used : ℕ) :
    qParse env ts used = parse env levelStart ts used := rfl

@[simp] theorem parse_nil (env : NameEnv) (lv : Level) (used : ℕ) :
    parse env lv [] used = finishLevel lv used := rfl

theorem parse_halt {u : ℕ} {o : Outcome QNode} (h : nextToken env lv t ts used = .halt o u) :
    parse env lv (t :: ts) used = (o, u) := by
  simp [parse, parseLevel, h]

theorem parse_go {u : ℕ} (h : nextToken env lv t ts used = .go lv' rest u) :
    parse env lv (t :: ts) used = parse env lv' rest u := by
  have hl := nextToken_go_length h
  rw [parse, length_cons, parseLevel, h]
  exact parseLevel_fuel env (by omega) (by omega)

theorem parse_descend (h : nextToken env lv t ts used = .descend body rest) :
    parse env lv (t :: ts) used =
      match parse env levelStart body used with
      | (.fault f, u) => (.fault f, u)
      | (result, u) =>
        match storeNode lv (nodeOf result) with
        | none => (.fault .qNodeVOverflow, u)
        | some lv => parse env lv rest u := by
  obtain ⟨hb, hr⟩ := descend_length (nextToken_descend h).2
  have hsub : parseLevel env (ts.length + 1) levelStart body used =
      parse env levelStart body used := parseLevel_fuel env (by omega) (by omega)
  rw [parse, length_cons, parseLevel, h]
  simp only [hsub]
  split
  · rfl
  split
  · rfl
  · exact parseLevel_fuel env (by omega) (by omega)

end QFilterParse
