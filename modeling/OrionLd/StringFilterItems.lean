import OrionLd.MongoLocation
import OrionLd.StringFilterRoundTrip

/-! The items of a filter of either type and any API version. With a metadata filter the
left-hand side has one more component, only NGSI-LD expands the names of attributes, and only
the others have ':' as an operator. -/
namespace StringFilterItems

open KjTree OrionldContextItem StringFilter StringFilterRoundTrip Fallible Except
open MongoLocation (ApiVersion)

inductive StringFilterType where
  | sftQ
  | sftMq
  deriving DecidableEq, Repr

/-- The left-hand side is kept as it was before it was taken apart. -/
structure FilterItem where
  left : Text
  attributeName : Text
  metadataName : Text
  compoundPath : Text
  op : StringFilterOp
  value : Option FilterValue
  deriving DecidableEq

/-- A colon is no operator before '=', nor in "://". -/
def opAt (v : ApiVersion) : Text → Option (StringFilterOp × Text)
  | ':' :: rhs =>
    if v = .ngsiLd ∨ rhs.head? = some '=' ∨ rhs.head? = some '/' ∨ rhs.tail.head? = some '/' then
      none
    else some (.sfopEquals, rhs)
  | s => StringFilter.opAt s

def cutAtDot (s : Text) : Text × Text := (s.takeWhile (· ≠ '.'), (s.dropWhile (· ≠ '.')).tail)

/-- The names of the attribute and of the metadata, and the compound path. -/
def lhsParse (type : StringFilterType) (left : Text) : Text × Text × Text :=
  let (attributeName, rest) := cutAtDot (lhsDotToEqualIfInsideQuote false left)
  match type with
  | .sftQ => (attributeName, [], rest)
  | .sftMq => (attributeName, cutAtDot rest)

variable (env : Env)

def storedName (v : ApiVersion) (attributeName : Text) : Text :=
  if v = .ngsiLd then longAttributeName env attributeName else attributeName

def FilterItem.parse (v : ApiVersion) (type : StringFilterType) (qItem : Text) :
    Except String FilterItem :=
  let s := wsStrip qItem
  if s = [] then .error "empty q-item"
  else
    let (op, lhs, rhs) := opFind (opAt v) s
    let lhs := wsStrip lhs
    let rhs := wsStrip rhs
    if lhs = [] ∧ !op.isUnary then .error "empty left-hand-side in q-item"
    else if forbiddenChars (eqForDot lhs) "'" then
      .error (if type = .sftQ then "invalid character found in URI param /q/"
        else "invalid character found in URI param /mq/")
    else if rhs = [] then .error "empty right-hand-side in q-item"
    else do
      let (attributeName, metadataName, compoundPath) := lhsParse type (eqForDot lhs)
      let value ← rhsParse env op rhs
      if type = .sftMq ∧ op.isUnary ∧ metadataName = [] then
        .error "no metadata in right-hand-side of q-item"
      else .ok ⟨eqForDot lhs, storedName env v attributeName, metadataName, compoundPath, op, value⟩

def parseItems (v : ApiVersion) (type : StringFilterType) :
    List Text → Except String (List FilterItem)
  | [] => .ok []
  | token :: tokens => do
    let s := wsStrip token
    if s = [] then .error "empty q-item (only whitespace)"
    else do
      let item ← FilterItem.parse env v type s
      let items ← parseItems v type tokens
      .ok (item :: items)

/-- Where mongoFilterPopulate fails. -/
def populateCheck (type : StringFilterType) (items : List FilterItem) : Except String Unit :=
  if type = .sftQ then .ok ()
  else match items.find? fun item => item.attributeName == [] || item.metadataName == [] with
    | none => .ok ()
    | some item => .error (if item.attributeName = [] then
        "no attribute name - not valid for metadata filters"
      else "no metadata name - not valid for metadata filters")

def parse (v : ApiVersion) (type : StringFilterType) (q : Text) :
    Except String (List FilterItem) :=
  if q = [] ∨ q = [';'] then .error "empty q"
  else if hasDouble ';' q then .error "empty q-item"
  else
    let str := withoutLastSemicolon q
    if (wsStrip str).getLast? = some ';' then .error "empty q-item"
    else do
      let items ← parseItems env v type (strtok ';' (strippedInPlace str))
      populateCheck type items
      .ok items

variable {env : Env} {v : ApiVersion} {type : StringFilterType} {item : FilterItem}

def OpTakes (op : StringFilterOp) (value : Option FilterValue) : Prop :=
  match op, value with
  | .sfopExists, value => value = none
  | .sfopNotExists, value => value = none
  | .sfopMatchPattern, some (.string _) => True
  | .sfopEquals, some _ => True
  | .sfopDiffers, some _ => True
  | .sfopGreaterThan, some x => isOrderable x = true
  | .sfopGreaterThanOrEqual, some x => isOrderable x = true
  | .sfopLessThan, some x => isOrderable x = true
  | .sfopLessThanOrEqual, some x => isOrderable x = true
  | _, _ => False

theorem dot_notMem_cut (s : Text) : '.' ∉ (cutAtDot s).1 := by
  intro h
  simpa using List.mem_takeWhile_imp h

variable {op : StringFilterOp} {rhs : Text}

theorem rangeParse_op {x : FilterValue} (h : rangeParse env op rhs = .ok x) :
    op = .sfopEquals ∨ op = .sfopDiffers := by
  unfold rangeParse at h
  split at h
  · cases h
  · rename_i hop
    exact or_iff_not_and_not.mpr hop

theorem listParse_op {x : FilterValue} (h : listParse env op rhs = .ok x) :
    op = .sfopEquals ∨ op = .sfopDiffers := by
  unfold listParse at h
  split at h
  · cases h
  · rename_i hop
    exact or_iff_not_and_not.mpr hop

theorem opTakes_of_equals (x : FilterValue) (h : op = .sfopEquals ∨ op = .sfopDiffers) :
    OpTakes op (some x) := by
  rcases h with rfl | rfl
  · exact trivial
  · exact trivial

theorem rhsParse_takes {x : Option FilterValue} (h : rhsParse env op rhs = .ok x) :
    OpTakes op x := by
  unfold rhsParse at h
  split at h
  · rename_i hunary
    split at h
    · cases h
    · cases h
      cases op <;> first | rfl | cases hunary
  · rename_i hbinary
    split at h
    · rename_i hop
      rw [hop]
      split at h
      · cases h
      split at h
      · cases h
      · cases h
        exact trivial
    · rename_i hop
      split at h
      · obtain ⟨w, hw, rfl⟩ := map_ok h
        exact opTakes_of_equals w (rangeParse_op hw)
      split at h
      · obtain ⟨w, hw, rfl⟩ := map_ok h
        exact opTakes_of_equals w (listParse_op hw)
      obtain ⟨w, hw, rfl⟩ := map_ok h
      rcases (valueParse_ok hw).2 with heq | hord
      · exact opTakes_of_equals w heq
      cases op with
      | sfopExists | sfopNotExists => exact absurd rfl hbinary
      | sfopMatchPattern => exact absurd rfl hop
      | sfopEquals => exact trivial
      | sfopDiffers => exact trivial
      | _ => exact hord

theorem dot_notMem_storedName {name : Text} (h : '.' ∉ name) : '.' ∉ storedName env v name := by
  unfold storedName
  split
  · exact dot_notMem_dotForEq _
  · exact h

theorem lhsParse_dots (type : StringFilterType) (left : Text) : '.' ∉ (lhsParse type left).1 ∧
    '.' ∉ (lhsParse type left).2.1 ∧ (type = .sftQ → (lhsParse type left).2.1 = []) := by
  cases type with
  | sftQ => exact ⟨dot_notMem_cut _, List.not_mem_nil, fun _ => rfl⟩
  | sftMq => exact ⟨dot_notMem_cut _, dot_notMem_cut _, nofun⟩

structure ParsedItem (type : StringFilterType) (item : FilterItem) : Prop where
  value : OpTakes item.op item.value
  name : '.' ∉ item.attributeName
  metadata : '.' ∉ item.metadataName
  noMetadata : type = .sftQ → item.metadataName = []
  path : item.compoundPath = (lhsParse type item.left).2.2

theorem parsedItem_of_parse {s : Text} (h : FilterItem.parse env v type s = .ok item) :
    ParsedItem type item := by
  unfold FilterItem.parse at h
  dsimp only at h
  split at h
  · cases h
  split at h
  · cases h
  split at h
  · cases h
  split at h
  · cases h
  obtain ⟨value, hvalue, h⟩ := bind_ok h
  split at h
  · cases h
  cases h
  obtain ⟨hname, hmetadata, hnone⟩ :=
    lhsParse_dots type (eqForDot (wsStrip (opFind (opAt v) (wsStrip s)).2.1))
  exact ⟨rhsParse_takes hvalue, dot_notMem_storedName hname, hmetadata, hnone, rfl⟩

variable {items : List FilterItem}

theorem parsedItem_of_parseItems {tokens : List Text}
    (h : parseItems env v type tokens = .ok items) :
    ∀ item ∈ items, ParsedItem type item := by
  induction tokens generalizing items with
  | nil =>
    cases h
    exact nofun
  | cons token tokens ih =>
    unfold parseItems at h
    dsimp only at h
    split at h
    · cases h
    obtain ⟨first, hfirst, h⟩ := bind_ok h
    obtain ⟨rest, hrest, h⟩ := bind_ok h
    cases h
    exact List.forall_mem_cons.mpr ⟨parsedItem_of_parse hfirst, ih hrest⟩

structure Accepted (type : StringFilterType) (item : FilterItem) : Prop
    extends ParsedItem type item where
  given : type = .sftMq → item.attributeName ≠ [] ∧ item.metadataName ≠ []

theorem accepted_of_parse {q : Text} (h : parse env v type q = .ok items) :
    ∀ item ∈ items, Accepted type item := by
  unfold parse at h
  split at h
  · cases h
  split at h
  · cases h
  dsimp only at h
  split at h
  · cases h
  obtain ⟨parsed, hparsed, h⟩ := bind_ok h
  obtain ⟨_, hcheck, h⟩ := bind_ok h
  cases h
  intro item hitem
  refine ⟨parsedItem_of_parseItems hparsed item hitem, fun hmq => ?_⟩
  unfold populateCheck at hcheck
  rw [if_neg (hmq ▸ StringFilterType.noConfusion)] at hcheck
  split at hcheck
  · rename_i hnone
    have hgiven := List.find?_eq_none.mp hnone item hitem
    simpa [not_or] using hgiven
  · cases hcheck

end StringFilterItems
