import Mathlib.Data.List.DropRight
import Mathlib.Data.Rat.Defs

/-! Lexical analysis of an NGSI-LD q filter: QNode, qLex and qLexCheck. A C string is the list of
its bytes before the NUL. Tokens are QNodes without children. The node pool is counted, and judged
when a pass has ended: a pass that asks for more than QNODE_SIZE nodes is the one that meets a
refused allocation. -/
namespace QFilterLex

abbrev Text := List Char

inductive QNodeType where
  | qVoid
  | qOpen
  | qClose
  | qAnd
  | qOr
  | qExists
  | qNotExists
  | qEQ
  | qNE
  | qGE
  | qGT
  | qLE
  | qLT
  | qMatch
  | qNoMatch
  | qComma
  | qRange
  | qVariable
  | qFloatValue
  | qIntegerValue
  | qStringValue
  | qTrueValue
  | qFalseValue
  | qRegexpValue
  deriving DecidableEq, Repr

/-- The union member in use. Operators start with the zeroed union of the pool, and a refused path
leaves NULL in a variable. -/
inductive QNodeValue where
  | unset
  | v (path : Option Text)
  | f (x : ℚ)
  | i (n : ℤ)
  | s (text : Text)
  | re (text : Text)
  | level (n : ℤ)
  deriving DecidableEq, Repr

inductive QNode where
  | mk (type : QNodeType) (value : QNodeValue) (children : List QNode)

def QNode.type : QNode → QNodeType
  | .mk type _ _ => type
def QNode.value : QNode → QNodeValue
  | .mk _ value _ => value
def QNode.children : QNode → List QNode
  | .mk _ _ children => children

@[simp] theorem QNode.type_mk (t v cs) : (QNode.mk t v cs).type = t := rfl
@[simp] theorem QNode.value_mk (t v cs) : (QNode.mk t v cs).value = v := rfl
@[simp] theorem QNode.children_mk (t v cs) : (QNode.mk t v cs).children = cs := rfl

mutual
def QNode.decEq : (a b : QNode) → Decidable (a = b)
  | .mk t v cs, .mk t' v' cs' =>
    if h : t = t' ∧ v = v' then
      match QNode.decEqList cs cs' with
      | isTrue hc => isTrue (by rw [h.1, h.2, hc])
      | isFalse hc => isFalse (by intro he; cases he; exact hc rfl)
    else isFalse (by intro he; cases he; exact h ⟨rfl, rfl⟩)
def QNode.decEqList : (a b : List QNode) → Decidable (a = b)
  | [], [] => isTrue rfl
  | [], _ :: _ => isFalse (by simp)
  | _ :: _, [] => isFalse (by simp)
  | a :: as, b :: bs =>
    match QNode.decEq a b with
    | isTrue h =>
      match QNode.decEqList as bs with
      | isTrue hs => isTrue (by rw [h, hs])
      | isFalse hs => isFalse (by intro he; cases he; exact hs rfl)
    | isFalse h => isFalse (by intro he; cases he; exact h rfl)
end

instance : DecidableEq QNode := QNode.decEq

def qNodeSize : ℕ := 100

def qNode (type : QNodeType) (value : QNodeValue) : QNode := .mk type value []

@[simp] theorem qNode_type (t v) : (qNode t v).type = t := rfl

def qNodeType : QNodeType → String
  | .qVoid => "Void"
  | .qOpen => "Open"
  | .qClose => "Close"
  | .qAnd => "AND"
  | .qOr => "OR"
  | .qExists => "Exists"
  | .qNotExists => "NotExists"
  | .qEQ => "EQ"
  | .qNE => "NE"
  | .qGE => "GE"
  | .qGT => "GT"
  | .qLE => "LE"
  | .qLT => "LT"
  | .qMatch => "Match"
  | .qNoMatch => "NoMatch"
  | .qComma => "Comma"
  | .qRange => "Range"
  | .qVariable => "Variable"
  | .qFloatValue => "FloatValue"
  | .qIntegerValue => "IntegerValue"
  | .qStringValue => "StringValue"
  | .qRegexpValue => "RegexpValue"
  | .qTrueValue => "TRUE"
  | .qFalseValue => "FALSE"

structure QError where
  title : String
  details : String
  deriving DecidableEq, Repr

/-- What a run does that the C code gives no meaning to, or does not report. -/
inductive Fault where
  | uninitialisedList
  | nullNode
  | pastLastToken
  | poolExhausted
  | qNodeVOverflow
  | outOfFuel
  deriving DecidableEq, Repr

inductive Outcome (α : Type) where
  | done (a : α)
  | failed (e : QError)
  | fault (f : Fault)
  deriving DecidableEq, Repr

/-- Library functions, and the bytes in front of the string, which the test for a timestamp reads
when the first term is shorter than "modifiedAt". -/
structure LexEnv where
  parse8601Time : Text → Option ℤ
  strtoul : Text → ℤ
  strtod : Text → ℚ
  bytesBefore : Text

/-- The scanner between two characters. The term is the C string at stringStart, which ends at the
first byte set to NUL. -/
structure LexState where
  tokens : List QNode
  level : ℤ
  lastTermIsTimestamp : Bool
  before : Text
  term : Text
  cut : Bool
  deriving DecidableEq

def LexState.keep (st : LexState) (c : Char) : LexState :=
  if st.cut then st else { st with term := st.term ++ [c] }

def LexState.push (st : LexState) (node : QNode) : LexState :=
  { st with tokens := st.tokens ++ [node] }

def isDigit (c : Char) : Bool := '0' ≤ c && c ≤ '9'

/-- Characters counted neither as digits nor as one of the marks of a date and time. -/
def isOther (c : Char) : Bool :=
  !(isDigit c || c == '.' || c == ' ' || c == '-' || c == ':' || c == 'T' || c == 'Z')

/-- The type of a term that is neither a regular expression nor a boolean; the flag
says that it might be a DateTime. -/
def termType (term : Text) : QNodeType × Bool :=
  if term.any isOther then (.qVariable, false)
  else if term.contains '-' then (.qIntegerValue, true)
  else if term.count '.' = 0 then (.qIntegerValue, false)
  else if term.count '.' = 1 then (.qFloatValue, false)
  else (.qVariable, false)

def termNode (env : LexEnv) (term : Text) : QNode :=
  if "RE(".toList.isPrefixOf term then qNode .qRegexpValue (.re (term.drop 3))
  else if term = "true".toList then qNode .qTrueValue .unset
  else if term = "false".toList then qNode .qFalseValue .unset
  else
    match termType term with
    | (.qIntegerValue, dateTime) =>
      let parsed := if dateTime then env.parse8601Time term else none
      qNode .qIntegerValue (.i (parsed.getD (env.strtoul term)))
    | (.qFloatValue, _) => qNode .qFloatValue (.f (env.strtod term))
    | _ => qNode .qVariable (.v (some term))

def trimTerm (term : Text) : Text := (term.dropWhile (· == ' ')).rdropWhile (· == ' ')

/-- The comparison starts 9 or 10 bytes before the end of the term, wherever that is. -/
def isTimestampName (st : LexState) : Bool :=
  let text := st.before ++ st.term.takeWhile (· == ' ') ++ trimTerm st.term
  ["createdAt", "modifiedAt", "observedAt"].any fun name => name.toList.isSuffixOf text

def qTermPush (env : LexEnv) (st : LexState) : LexState :=
  let st := { st with lastTermIsTimestamp := isTimestampName st }
  if trimTerm st.term = [] then st else st.push (termNode env (trimTerm st.term))

def qOpPush (st : LexState) (type : QNodeType) : LexState :=
  let st := { st with before := [], term := [], cut := false }
  if type = .qOpen then
    { st.push (qNode .qOpen (.level st.level)) with level := st.level + 1 }
  else if type = .qClose then
    { st.push (qNode .qClose (.level (st.level - 1))) with level := st.level - 1 }
  else st.push (qNode type .unset)

/-- The length test is made on an unsigned difference that wraps for an empty string. -/
def quotedDate (env : LexEnv) (content rest : Text) : Option ℤ :=
  if (content.length = 0 ∨ 5 < content.length) ∧
      (content ++ '\x00' :: rest)[4]? = some '-' then env.parse8601Time content
  else none

def qQuotedPush (env : LexEnv) (st : LexState) (content rest : Text) : LexState :=
  match quotedDate env content rest with
  | some dateTime =>
    if st.lastTermIsTimestamp then st.push (qNode .qIntegerValue (.i dateTime))
    else st.push (qNode .qStringValue (.s content))
  | none => st.push (qNode .qStringValue (.s content))

def opAt (c : Char) (cs : Text) : Option (QNodeType × ℕ) :=
  if c = '<' ∨ c = '>' then
    if cs.head? = some '=' then some (if c = '<' then .qLE else .qGE, 2)
    else some (if c = '<' then .qLT else .qGT, 1)
  else if c = '=' ∧ cs.head? = some '=' then some (.qEQ, 2)
  else if c = '|' then some (.qOr, 1)
  else if c = ',' then some (.qComma, 1)
  else if c = '.' ∧ cs.head? = some '.' then some (.qRange, 2)
  else if c = '~' ∧ cs.head? = some '=' then some (.qMatch, 2)
  else if c = '!' then
    if cs.head? = some '=' then some (.qNE, 2)
    else if cs.take 2 = ['~', '='] then some (.qNoMatch, 3)
    else some (.qNotExists, 1)
  else if c = ';' then some (.qAnd, 1)
  else if c = '(' then some (.qOpen, 1)
  else if c = ')' then some (.qClose, 1)
  else none

/-- Between tokens, inside an operator of several characters, inside the letters RE(, inside a
regular expression or inside a quoted string. -/
inductive LexMode where
  | plain
  | inOperator (left : ℕ)
  | regexpHead (left : ℕ)
  | inRegexp (depth : ℕ) (prev : Char)
  | inString (content : Text)
  deriving DecidableEq, Repr

def afterOperator : ℕ → LexMode
  | 0 => .plain
  | n + 1 => .inOperator n

def afterRegexpHead : ℕ → LexMode
  | 0 => .inRegexp 1 '\x00'
  | n + 1 => .regexpHead n

/-- Escaped parentheses do not count. -/
def regexpDepth (depth : ℕ) (prev c : Char) : ℕ :=
  if prev = '\\' then depth
  else if c = ')' then depth - 1
  else if c = '(' then depth + 1
  else depth

def lexLoop (env : LexEnv) : LexMode → LexState → Text → LexState × Option QError
  | .plain, st, [] => (qTermPush env st, none)
  | .plain, st, c :: cs =>
    match opAt c cs with
    | some (type, width) =>
      lexLoop env (afterOperator (width - 1)) (qOpPush (qTermPush env st) type) cs
    | none =>
      if c = '"' then lexLoop env (.inString []) { st with cut := true } cs
      else if c = 'R' ∧ cs.take 2 = ['E', '('] then lexLoop env (.regexpHead 1) (st.keep c) cs
      else lexLoop env .plain (st.keep c) cs
  | .inOperator _, st, [] => (st, none)
  | .inOperator n, st, _ :: cs => lexLoop env (afterOperator n) st cs
  | .regexpHead _, st, [] => (st, none)
  | .regexpHead n, st, c :: cs => lexLoop env (afterRegexpHead n) (st.keep c) cs
  | .inRegexp _ _, st, [] => (st, some ⟨"ngsi-ld query language: non-terminated regexp", ""⟩)
  | .inRegexp depth prev, st, c :: cs =>
    if regexpDepth depth prev c = 0 then lexLoop env .plain { st with cut := true } cs
    else lexLoop env (.inRegexp (regexpDepth depth prev c) c) (st.keep c) cs
  | .inString _, st, [] => (st, some ⟨"ngsi-ld query language: non-terminated string", ""⟩)
  | .inString content, st, c :: cs =>
    if c = '"' then lexLoop env .plain (qQuotedPush env st content cs) cs
    else lexLoop env (.inString (content ++ [c])) st cs

def startTokens : List QNodeType := [.qOpen, .qVariable, .qNotExists]
def endTokens : List QNodeType := [.qClose, .qAnd, .qOr]
def valueTokens : List QNodeType :=
  [.qFloatValue, .qIntegerValue, .qStringValue, .qTrueValue, .qFalseValue]

/-- The tokens accepted after a token and the title of the error for any other one;
variables, values and '..' have no rule. -/
def successorRule : QNodeType → Option (List QNodeType × String)
  | .qOpen => some (startTokens, "ngsi-ld query language: invalid invalid token after '('")
  | .qClose => some (endTokens, "ngsi-ld query language: invalid invalid token after ')'")
  | .qAnd => some (startTokens, "ngsi-ld query language: invalid invalid token after ';'")
  | .qOr => some (startTokens, "ngsi-ld query language: invalid invalid token after '|'")
  | .qNotExists => some ([.qVariable],
    "ngsi-ld query language: invalid token - after unary operator '!' must come a variable")
  | .qEQ | .qNE | .qGE | .qGT | .qLE | .qLT => some (valueTokens,
    "ngsi-ld query language: after non-regexp comparison operator must come a non-regexp Value")
  | .qMatch | .qNoMatch => some ([.qRegexpValue],
    "ngsi-ld query language: after match operator must come a RegExp")
  | .qComma => some (valueTokens,
    "ngsi-ld query language: after comma operator must come a Value")
  | .qRegexpValue => some (endTokens, "ngsi-ld query language: invalid token after regex")
  | _ => none

def checkSuccessor (type next : QNodeType) : Option QError :=
  match successorRule type with
  | none => none
  | some (allowed, title) => if next ∈ allowed then none else some ⟨title, qNodeType next⟩

/-- Only ')', ';' and '|' may come after a negated variable. -/
def checkNegated (type : QNodeType) : Option QNode → Option QError
  | none => none
  | some nn =>
    if type = .qNotExists ∧ nn.type ∉ endTokens then
      some ⟨"ngsi-ld query language: invalid token after 'negated variable'", qNodeType nn.type⟩
    else none

def checkLast (level : ℤ) (type : QNodeType) : Option QError :=
  if type = .qClose then
    if level ≠ 1 then
      some ⟨"ngsi-ld query language: mismatched parenthesis",
        if 1 < level then "Excess of START Tokens '('" else "Excess of END Tokens ')'"⟩
    else none
  else if type = .qOpen then
    some ⟨"ngsi-ld query language: mismatched parenthesis", "expression can't end in a '('"⟩
  else if level ≠ 0 then
    some ⟨"ngsi-ld query language: mismatched parenthesis",
      if 1 < level then "Excess of START Tokens '('" else "Excess of END Tokens ')'"⟩
  else none

def levelAfter (level : ℤ) (type : QNodeType) : ℤ :=
  if type = .qOpen then level + 1 else if type = .qClose then level - 1 else level

def checkFrom (level : ℤ) : List QNode → Option QError
  | [] => none
  | [last] => checkLast level last.type
  | a :: b :: rest =>
    ((checkSuccessor a.type b.type).or (checkNegated a.type rest.head?)).or
      (checkFrom (levelAfter level a.type) (b :: rest))

def qLexCheck : List QNode → Option QError
  | [] => none
  | first :: rest =>
    if first.type ∈ startTokens then checkFrom 0 (first :: rest)
    else some ⟨"ngsi-ld query language: invalid start token", qNodeType first.type⟩

def lexStart (env : LexEnv) : LexState := ⟨[], 0, false, env.bytesBefore, [], false⟩

/-- The head of the token list is a field of an uninitialised local node, which the check reads with
no token pushed. -/
def qLex (env : LexEnv) (s : Text) : Outcome (List QNode) :=
  match lexLoop env .plain (lexStart env) s with
  | (st, some e) => if qNodeSize < st.tokens.length then .fault .poolExhausted else .failed e
  | (st, none) =>
    if qNodeSize < st.tokens.length then .fault .poolExhausted
    else if st.tokens = [] then .fault .uninitialisedList
    else
      match qLexCheck st.tokens with
      | some e => .failed e
      | none => .done st.tokens

end QFilterLex
