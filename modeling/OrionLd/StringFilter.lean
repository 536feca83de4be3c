import Mathlib.Data.List.DropRight
import Mathlib.Data.Rat.Floor
import OrionLd.OrionldContextItem

/-! The q of a subscription: StringFilter::parse, StringFilter::render and the text that
kjTreeToSubscription stores. A character stands for a byte of a C string, and doubles are
rationals. Texts are parsed as NGSI-LD, where ':' is no operator. -/
namespace StringFilter

open KjTree OrionldContextItem

structure Env extends Contexts where
  str2double : Text → Option ℚ
  /-- None where the function returns -1. -/
  parse8601Time : Text → Option ℚ
  regcomp : Text → Bool
  kFloatTrim : Text → Text

inductive StringFilterOp where
  | sfopExists
  | sfopNotExists
  | sfopEquals
  | sfopDiffers
  | sfopGreaterThan
  | sfopGreaterThanOrEqual
  | sfopLessThan
  | sfopLessThanOrEqual
  | sfopMatchPattern
  deriving DecidableEq, Repr

def StringFilterOp.opName : StringFilterOp → String
  | .sfopExists => "Exists"
  | .sfopNotExists => "NotExists"
  | .sfopEquals => "Equals"
  | .sfopDiffers => "Differs"
  | .sfopGreaterThan => "GreaterThan"
  | .sfopGreaterThanOrEqual => "GreaterThanOrEqual"
  | .sfopLessThan => "LessThan"
  | .sfopLessThanOrEqual => "LessThanOrEqual"
  | .sfopMatchPattern => "MatchPattern"

def StringFilterOp.isUnary (op : StringFilterOp) : Bool :=
  op == .sfopExists || op == .sfopNotExists

/-- The value of an item with its StringFilterValueType. -/
inductive FilterValue where
  | string (s : Text)
  | bool (b : Bool)
  | number (x : ℚ)
  | null
  | date (x : ℚ)
  | numberRange (rangeFrom rangeTo : ℚ)
  | dateRange (rangeFrom rangeTo : ℚ)
  | stringRange (rangeFrom rangeTo : Text)
  | numberList (xs : List ℚ)
  | dateList (xs : List ℚ)
  | stringList (ss : List Text)
  deriving DecidableEq

def FilterValue.valueTypeName : FilterValue → String
  | .string _ => "String"
  | .bool _ => "Bool"
  | .number _ => "Number"
  | .null => "Null"
  | .date _ => "Date"
  | .numberRange _ _ => "NumberRange"
  | .dateRange _ _ => "DateRange"
  | .stringRange _ _ => "StringRange"
  | .numberList _ => "NumberList"
  | .dateList _ => "DateList"
  | .stringList _ => "StringList"

structure StringFilterItem where
  attributeName : Text
  compoundPath : Text
  op : StringFilterOp
  value : Option FilterValue
  deriving DecidableEq

def isWs (c : Char) : Bool := c == ' ' || c == '\t' || c == '\n'

def wsStrip (s : Text) : Text := (s.dropWhile isWs).rdropWhile isWs

/-- With skipLastComponentIfEmpty not set. -/
def stringSplit (s : Text) (delimiter : Char) : List Text :=
  let s := s.dropWhile (· = delimiter)
  if s = [] then [] else s.splitOn delimiter

def commonForbidden (c : Char) : Bool := "<>\"'=;()".toList.contains c

def forbiddenChars (s : Text) (exceptions : String) : Bool :=
  s.any fun c => !exceptions.toList.contains c && commonForbidden c

/-- A quote after the first character needs a dot next to it, or the end of the text. -/
def forbiddenQuotes : Text → Bool
  | p :: c :: cs =>
    (c == '\'' && p != '.' && cs.head?.any (· != '.')) || forbiddenQuotes (c :: cs)
  | _ => false

def hasDouble (c : Char) : Text → Bool
  | a :: b :: cs => (a == c && b == c) || hasDouble c (b :: cs)
  | _ => false

/-- What stands before and after the first two characters of this kind in a row. -/
def splitAtDouble (c : Char) : Text → Text × Text
  | a :: b :: cs =>
    if a == c && b == c then ([], cs)
    else
      let (before, after) := splitAtDouble c (b :: cs)
      (a :: before, after)
  | cs => (cs, [])

def strtok (c : Char) (s : Text) : List Text := (s.splitOn c).filter (· ≠ [])

variable (env : Env)

def valueGet (op : StringFilterOp) (s : Text) : Except String FilterValue :=
  let checked (s : Text) : Except String FilterValue :=
    if op ≠ .sfopMatchPattern ∧ forbiddenChars s "=" then
      .error "forbidden characters in String Filter"
    else .ok (.string s)
  match s with
  | '\'' :: s =>
    if s ≠ [] ∧ s.getLast? ≠ some '\'' then .error "non-terminated forced string"
    else if '\'' ∈ s.dropLast then .error "quote in forced string"
    else checked s.dropLast
  | s =>
    match env.str2double s with
    | some x => .ok (.number x)
    | none =>
      match env.parse8601Time s with
      | some x => .ok (.date x)
      | none =>
        if s = "true".toList then .ok (.bool true)
        else if s = "false".toList then .ok (.bool false)
        else if s = "null".toList then .ok .null
        else checked s

def isOrderable : FilterValue → Bool
  | .number _ => true
  | .date _ => true
  | .string _ => true
  | _ => false

def valueParse (op : StringFilterOp) (s : Text) : Except String FilterValue := do
  let value ← valueGet env op s
  if op = .sfopEquals ∨ op = .sfopDiffers then .ok value
  else if isOrderable value then .ok value
  else .error ("values of type /" ++ value.valueTypeName ++ "/ not supported for operator /" ++
    op.opName ++ "/")

def rangeParse (op : StringFilterOp) (s : Text) : Except String FilterValue :=
  if op ≠ .sfopEquals ∧ op ≠ .sfopDiffers then
    .error "ranges only valid for equal and not equal ops"
  else do
    let (fromString, toString) := splitAtDouble '.' s
    let fromString := wsStrip fromString
    let toString := wsStrip toString
    if fromString = [] ∨ toString = [] then .error "empty item in range"
    else do
      let rangeFrom ← valueGet env op fromString
      if !isOrderable rangeFrom then .error "invalid data type for /range-from/"
      else do
        let rangeTo ← valueGet env op toString
        if !isOrderable rangeTo then .error "invalid data type for /range-to/"
        else match rangeFrom, rangeTo with
          | .number x, .number y => .ok (.numberRange x y)
          | .string x, .string y => .ok (.stringRange x y)
          | .date x, .date y => .ok (.dateRange x y)
          | _, _ => .error "invalid range: types mixed"

/-- Pieces of a list: commas inside quotes do not count. -/
def listPieces (inString : Bool) (piece : Text) : Text → List Text
  | [] => [piece.reverse]
  | c :: cs =>
    let inString := if c == '\'' then !inString else inString
    if c == ',' && !inString then piece.reverse :: listPieces inString [] cs
    else listPieces inString (c :: piece) cs

def listItemAdd (op : StringFilterOp) (list : Option FilterValue) (piece : Text) :
    Except String FilterValue :=
  let s := wsStrip piece
  if s = [] then .error "empty item in list"
  else do
    let value ← valueGet env op s
    match list, value with
    | none, .string x => .ok (.stringList [x])
    | none, .date x => .ok (.dateList [x])
    | none, .number x => .ok (.numberList [x])
    | some (.stringList xs), .string x => .ok (.stringList (xs ++ [x]))
    | some (.dateList xs), .date x => .ok (.dateList (xs ++ [x]))
    | some (.numberList xs), .number x => .ok (.numberList (xs ++ [x]))
    | _, _ => .error "invalid JSON value type in list"

def listItemsAdd (op : StringFilterOp) (list : FilterValue) : List Text → Except String FilterValue
  | [] => .ok list
  | piece :: pieces => do
    let list ← listItemAdd env op (some list) piece
    listItemsAdd op list pieces

def listParse (op : StringFilterOp) (s : Text) : Except String FilterValue :=
  if op ≠ .sfopEquals ∧ op ≠ .sfopDiffers then
    .error "lists only valid for equal and not equal ops"
  else
    match listPieces false [] (wsStrip s) with
    | [] => .error "empty item in list"
    | piece :: pieces => do
      let list ← listItemAdd env op none piece
      listItemsAdd env op list pieces

def opAt : Text → Option (StringFilterOp × Text)
  | '=' :: '=' :: rhs => some (.sfopEquals, rhs)
  | '~' :: '=' :: rhs => some (.sfopMatchPattern, rhs)
  | '!' :: '=' :: rhs => some (.sfopDiffers, rhs)
  | '>' :: '=' :: rhs => some (.sfopGreaterThanOrEqual, rhs)
  | '<' :: '=' :: rhs => some (.sfopLessThanOrEqual, rhs)
  | '<' :: rhs => some (.sfopLessThan, rhs)
  | '>' :: rhs => some (.sfopGreaterThan, rhs)
  | _ => none

section

variable (opAt : Text → Option (StringFilterOp × Text))

/-- The loop of opFind. No operator is looked for inside quotes. -/
def opSearch (insideQuotes : Bool) : Text → Option (StringFilterOp × Text × Text)
  | [] => none
  | c :: cs =>
    if c = '\'' then (opSearch (!insideQuotes) cs).map fun r => (r.1, c :: r.2.1, r.2.2)
    else match (if insideQuotes then none else opAt (c :: cs)) with
      | some (op, rhs) => some (op, [], rhs)
      | none => (opSearch insideQuotes cs).map fun r => (r.1, c :: r.2.1, r.2.2)

/-- The operator, the left-hand side and the right-hand side, which for a unary operator is
the left-hand side. -/
def opFind (expression : Text) : StringFilterOp × Text × Text :=
  match expression with
  | '!' :: lhs => (.sfopNotExists, lhs, lhs)
  | _ => (opSearch opAt false expression).getD (.sfopExists, expression, expression)

end

/-- Inside quotes a dot becomes '='; the quotes are removed. -/
def lhsDotToEqualIfInsideQuote (insideQuotes : Bool) : Text → Text
  | [] => []
  | c :: cs =>
    if c = '\'' then lhsDotToEqualIfInsideQuote (!insideQuotes) cs
    else (if insideQuotes && c == '.' then '=' else c) ::
      lhsDotToEqualIfInsideQuote insideQuotes cs

def lhsParse (left : Text) : Text × Text :=
  let s := lhsDotToEqualIfInsideQuote false left
  (s.takeWhile (· ≠ '.'), (s.dropWhile (· ≠ '.')).tail)

def rhsParse (op : StringFilterOp) (rhs : Text) : Except String (Option FilterValue) :=
  if op.isUnary then
    -- The right-hand side is the left-hand side, in which '=' has become '.'.
    if forbiddenQuotes (eqForDot rhs) then .error "forbidden characters in String Filter"
    else .ok none
  else if op = .sfopMatchPattern then
    if forbiddenChars rhs "" then .error "forbidden characters in String Filter"
    else if !env.regcomp rhs then
      .error ("error compiling filter regex: '" ++ String.ofList rhs ++ "'")
    else .ok (some (.string rhs))
  else if hasDouble '.' rhs then (rangeParse env op rhs).map some
  else if ',' ∈ rhs then (listParse env op rhs).map some
  else (valueParse env op rhs).map some

def longAttributeName (name : Text) : Text :=
  dotForEq (orionldAttributeExpand env.toContexts name).1

def StringFilterItem.parse (qItem : Text) : Except String StringFilterItem :=
  let s := wsStrip qItem
  if s = [] then .error "empty q-item"
  else
    let (op, lhs, rhs) := opFind opAt s
    let lhs := wsStrip lhs
    let rhs := wsStrip rhs
    if lhs = [] ∧ !op.isUnary then .error "empty left-hand-side in q-item"
    else if forbiddenChars (eqForDot lhs) "'" then
      .error "invalid character found in URI param /q/"
    else if rhs = [] then .error "empty right-hand-side in q-item"
    else do
      let (name, path) := lhsParse (eqForDot lhs)
      let value ← rhsParse env op rhs
      .ok ⟨longAttributeName env name, path, op, value⟩

def parseItems : List Text → Except String (List StringFilterItem)
  | [] => .ok []
  | token :: tokens => do
    let s := wsStrip token
    if s = [] then .error "empty q-item (only whitespace)"
    else do
      let item ← StringFilterItem.parse env s
      let items ← parseItems tokens
      .ok (item :: items)

def withoutLastSemicolon (q : Text) : Text := if q.getLast? = some ';' then q.dropLast else q

/-- wsStrip removes trailing blanks in place, unless there is nothing else. -/
def strippedInPlace (str : Text) : Text :=
  if wsStrip str = [] then str else str.rdropWhile isWs

/-- For a filter of type SftQ, mongoFilterPopulate always succeeds. -/
def parse (q : Text) : Except String (List StringFilterItem) :=
  if q = [] ∨ q = [';'] then .error "empty q"
  else if hasDouble ';' q then .error "empty q-item"
  else
    let str := withoutLastSemicolon q
    if (wsStrip str).getLast? = some ';' then .error "empty q-item"
    else parseItems env (strtok ';' (strippedInPlace str))

def roundHalfEven (x : ℚ) : ℕ :=
  let n := ⌊x⌋₊
  let rest := x - n
  if rest < 1 / 2 then n
  else if 1 / 2 < rest then n + 1
  else if n % 2 = 0 then n
  else n + 1

def printfF (x : ℚ) : Text :=
  let n := roundHalfEven (|x| * 1000000)
  let decimals := Nat.toDigits 10 (n % 1000000)
  (if x < 0 then ['-'] else []) ++ Nat.toDigits 10 (n / 1000000) ++
    '.' :: (List.replicate (6 - decimals.length) '0' ++ decimals)

def valueBufSize : ℕ := 256

/-- The text in valueBuf. None is a buffer without a terminating zero, as strncpy leaves it for a
string that is too long. -/
def valueAsString : FilterValue → Option Text
  | .string s => if s.length < valueBufSize then some s else none
  | .bool _ => some "true".toList
  | .number x => some (env.kFloatTrim ((printfF x).take (valueBufSize - 1)))
  | .null => some "null".toList
  | .date x => some ((printfF x).take (valueBufSize - 1))
  | .numberRange _ _ => some "Ranges not implemented".toList
  | .dateRange _ _ => some "Ranges not implemented".toList
  | .stringRange _ _ => some "Ranges not implemented".toList
  | .numberList _ => some "Lists not implemented".toList
  | .dateList _ => some "Lists not implemented".toList
  | .stringList _ => some "Lists not implemented".toList

inductive RenderError where
  /-- The function returns -1, and StringFilter::render false. -/
  | noRoom
  | writeOutside
  | valueNotTerminated
  deriving DecidableEq, Repr

def opLength : StringFilterOp → ℕ
  | .sfopExists => 0
  | .sfopNotExists => 1
  | .sfopGreaterThan => 1
  | .sfopLessThan => 1
  | _ => 2

def itemText (op : StringFilterOp) (name value : Text) : Text :=
  match op with
  | .sfopExists => name
  | .sfopNotExists => '!' :: name
  | .sfopEquals => name ++ "==".toList ++ value
  | .sfopDiffers => name ++ "!=".toList ++ value
  | .sfopGreaterThanOrEqual => name ++ ">=".toList ++ value
  | .sfopLessThanOrEqual => name ++ "<=".toList ++ value
  | .sfopMatchPattern => name ++ "=".toList ++ value
  | .sfopGreaterThan => name ++ ">".toList ++ value
  | .sfopLessThan => name ++ "<".toList ++ value

def nul : Char := '\x00'

/-- Memory of fixed size. A write that does not fit in it is one outside of the buffer. -/
def writeAt (buf : List Char) (offset : ℕ) (cs : List Char) : Except RenderError (List Char) :=
  if offset + cs.length ≤ buf.length then
    .ok (buf.take offset ++ cs ++ buf.drop (offset + cs.length))
  else .error .writeOutside

def snprintf (buf : List Char) (offset size : ℕ) (text : Text) : Except RenderError (List Char) :=
  writeAt buf offset (text.take (size - 1) ++ [nul])

def valueText (item : StringFilterItem) : Option Text :=
  match item.value with
  | some v => if item.op.isUnary then some [] else valueAsString env v
  | none => some []

/-- StringFilterItem::render at an offset into the buffer, with the buffer and needChars. -/
def StringFilterItem.render (item : StringFilterItem) (buf : List Char) (offset bufLen : ℕ) :
    Except RenderError (List Char × ℕ) :=
  if bufLen ≤ item.attributeName.length then .error .noRoom
  else match valueText env item with
    | none => .error .valueNotTerminated
    | some value =>
      let needChars := item.attributeName.length + opLength item.op + value.length
      if bufLen ≤ needChars then .error .noRoom
      else do
        let buf ← snprintf buf offset bufLen (itemText item.op item.attributeName value)
        .ok (buf, needChars)

/-- The loop over the items, of which the first has been rendered. bufP is the address of
buf[charsUsed]. -/
def renderRest (bufLen : ℕ) : List StringFilterItem → List Char → ℕ →
    Except RenderError (List Char)
  | [], buf, _ => .ok buf
  | item :: items, buf, charsUsed => do
    let buf ← writeAt buf charsUsed [';', nul]
    let (buf, chars) ← item.render env buf (charsUsed + 1) (bufLen - (charsUsed + 1))
    let buf ← writeAt buf (charsUsed + 1 + chars) [nul]
    renderRest bufLen items buf (charsUsed + 1 + chars)

def render (items : List StringFilterItem) (buf : List Char) (bufLen : ℕ) :
    Except RenderError (List Char) :=
  match items with
  | [] => .ok buf
  | item :: items => do
    let (buf, chars) ← item.render env buf 0 bufLen
    let buf ← writeAt buf chars [nul]
    renderRest env bufLen items buf chars

def cString (buf : List Char) : Text := buf.takeWhile (· ≠ nul)

end StringFilter
