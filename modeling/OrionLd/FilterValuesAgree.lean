import OrionLd.AttributeNames
import OrionLd.Delimited
import OrionLd.StringFilterMongo

/-! A stored value in both evaluators of a filter: the members that are read from it, and the
condition of a query. -/
namespace FilterValuesAgree

open MongoQuery (Bson follow itemAt)
open KjTree (Text eqForDot dotForEq_eqForDot dotForEq_of_dotless)
open MongoLocation (ValueType)
open StringFilter StringFilterItems StringFilterMatch StringFilterMongo List Bool

def readMembers (rest : Members) : Bson → Members
  | .str s => { rest with valueType := .string, stringValue := s, compoundValueP := none }
  | .num x => { rest with valueType := .number, numberValue := x, compoundValueP := none }
  | .bool b => { rest with valueType := .boolean, boolValue := b, compoundValueP := none }
  | .null => { rest with valueType := .null, compoundValueP := none }
  | .obj fields => { rest with valueType := .object, compoundValueP := some (.obj fields) }
  | .arr items => { rest with valueType := .object, compoundValueP := some (.arr items) }

def HasValue (m : Members) : Bson → Prop
  | .str s => m.valueType = .string ∧ m.stringValue = s
  | .num x => m.valueType = .number ∧ m.numberValue = x
  | .bool b => m.valueType = .boolean ∧ m.boolValue = b
  | .null => m.valueType = .null
  | .obj _ => m.valueType = .object
  | .arr _ => m.valueType = .object ∨ m.valueType = .vector

theorem hasValue_read (rest : Members) (b : Bson) : HasValue (readMembers rest b) b := by
  cases b with
  | str s => exact ⟨rfl, rfl⟩
  | num x => exact ⟨rfl, rfl⟩
  | bool b => exact ⟨rfl, rfl⟩
  | null => rfl
  | obj fields => rfl
  | arr items => exact .inl rfl

theorem hasValue_node (b : Bson) : HasValue (nodeMembers b) b := by
  cases b with
  | str s => exact ⟨rfl, rfl⟩
  | num x => exact ⟨rfl, rfl⟩
  | bool b => exact ⟨rfl, rfl⟩
  | null => rfl
  | obj fields => rfl
  | arr items => exact .inr rfl

variable {m : Members} {b : Bson} {op : StringFilterOp} {value : Option FilterValue}
  {regexec regex : Text → Text → Bool}

/-- The member that an equality looks at is the one that the kind of the value sets. -/
def sameKind : FilterValue → Bson → Bool
  | .null, _ => true
  | .bool _, .bool _ => true
  | .string _, .str _ => true
  | .stringRange _ _, .str _ => true
  | .stringList _, .str _ => true
  | .number _, .num _ => true
  | .numberRange _ _, .num _ => true
  | .numberList _, .num _ => true
  | .date _, .num _ => true
  | .dateRange _ _, .num _ => true
  | .dateList _, .num _ => true
  | _, _ => false

theorem numbers_inRange (x a c : ℚ) :
    (!(decide (x < a) || decide (c < x))) =
      ((Bson.num a).le (.num x) && (Bson.num x).le (.num c)) := by
  rw [Bool.eq_iff_iff]
  simp [Bson.le, Bson.lt, Bson.beq, le_iff_lt_or_eq]

theorem strings_inRange (x a c : Text) :
    (!(decide (x < a) || decide (c < x))) =
      ((Bson.str a).le (.str x) && (Bson.str x).le (.str c)) := by
  rw [Bool.eq_iff_iff]
  simp [Bson.le, Bson.lt, Bson.beq, le_iff_lt_or_eq]

variable {x : FilterValue}

theorem memberEquals_of_sameKind (h : HasValue m b) (hk : sameKind x b = true) :
    memberEquals x m = bsonEquals x b := by
  cases b with
  | str s =>
    obtain ⟨hkind, rfl⟩ := h
    cases x with
    | string t => exact BEq.comm
    | stringRange a c => exact strings_inRange _ _ _
    | stringList ss => exact congrArg ss.any (funext fun t => BEq.comm)
    | null => exact congrArg (· == ValueType.null) hkind
    | _ => cases hk
  | num y =>
    obtain ⟨hkind, rfl⟩ := h
    cases x with
    | number t => exact BEq.comm
    | date t => exact BEq.comm
    | numberRange a c | dateRange a c => exact numbers_inRange _ _ _
    | numberList ss | dateList ss => exact congrArg ss.any (funext fun t => BEq.comm)
    | null => exact congrArg (· == ValueType.null) hkind
    | _ => cases hk
  | bool y =>
    obtain ⟨hkind, rfl⟩ := h
    cases x with
    | bool t => exact BEq.comm
    | null => exact congrArg (· == ValueType.null) hkind
    | _ => cases hk
  | null | obj fields =>
    cases x with
    | null => exact congrArg (· == ValueType.null) h
    | _ => cases hk
  | arr items =>
    cases x with
    | null => rcases h with h | h <;> exact congrArg (· == ValueType.null) h
    | _ => cases hk

theorem bsonEquals_of_otherKind (hk : sameKind x b = false) : bsonEquals x b = false := by
  cases x <;> cases b <;>
    first
    | rfl
    | exact any_eq_false.mpr fun _ _ h => false_ne_true h
    | cases hk

def memberHolds (regexec : Text → Text → Bool) (op : StringFilterOp) (value : Option FilterValue)
    (m : Members) : Bool :=
  match op, value with
  | .sfopEquals, some x => matchEquals x m == .mrMatch
  | .sfopDiffers, some x => matchEquals x m == .mrNoMatch
  | .sfopGreaterThan, some x => matchGreaterThan x m == .mrMatch
  | .sfopLessThan, some x => matchLessThan x m == .mrMatch
  | .sfopGreaterThanOrEqual, some x => matchLessThan x m == .mrNoMatch
  | .sfopLessThanOrEqual, some x => matchGreaterThan x m == .mrNoMatch
  | .sfopMatchPattern, some x => matchPattern regexec x m == .mrMatch
  | _, _ => false

/-- Of a value of another kind the matcher claims no equality. Of an array it looks at a member not
set, the query at the items. -/
def EqualityAgrees (x : FilterValue) (m : Members) : Bson → Prop
  | .arr items => memberEquals x m = seenEquals x (.arr items :: items)
  | b => sameKind x b = true ∨ memberEquals x m = false

/-- Besides, no item of an array is compared in the query only, and a pattern means the same. -/
def KindAgrees (regexec regex : Text → Text → Bool) (op : StringFilterOp)
    (value : Option FilterValue) (m : Members) (b : Bson) : Prop :=
  match op, value, b with
  | .sfopEquals, some x, b => EqualityAgrees x m b
  | .sfopDiffers, some x, b => EqualityAgrees x m b
  | op, value, .arr items => seenHolds regex op value (.arr items :: items) = false
  | .sfopMatchPattern, some x, .str s => regexec (stringOf x) s = regex (stringOf x) s
  | _, _, _ => True

theorem equality_agrees (h : HasValue m b) :
    memberEquals x m = seenEquals x (MongoQuery.candidates b) ↔ EqualityAgrees x m b := by
  have hsingle : memberEquals x m = seenEquals x [b] ↔
      sameKind x b = true ∨ memberEquals x m = false := by
    rw [seenEquals_single]
    cases hk : sameKind x b with
    | true => exact iff_of_true (memberEquals_of_sameKind h hk) (.inl rfl)
    | false =>
      rw [bsonEquals_of_otherKind hk]
      exact (or_iff_right Bool.false_ne_true).symm
  cases b with
  | arr items => exact Iff.rfl
  | _ => exact hsingle

theorem compatibleType_eq (h : HasValue m b) (hx : isOrderable x = true) :
    compatibleType x m = sameKind x b := by
  unfold compatibleType
  cases b with
  | arr items =>
    rcases h with h | h <;> rw [h] <;> cases x <;>
      first | exact absurd hx false_ne_true | rfl
  | str s | num y | bool y => rw [h.1]; cases x <;> first | exact absurd hx false_ne_true | rfl
  | null =>
    have hkind : m.valueType = .null := h
    rw [hkind]
    cases x <;> first | exact absurd hx false_ne_true | rfl
  | obj fields =>
    have hkind : m.valueType = .object := h
    rw [hkind]
    cases x <;> first | exact absurd hx false_ne_true | rfl

theorem order_of_otherKind (hx : isOrderable x = true) (hk : sameKind x b = false) :
    (orderArg x).lt b = false ∧ (orderArg x).le b = false ∧
      b.lt (orderArg x) = false ∧ b.le (orderArg x) = false := by
  cases x <;> cases b <;>
    first
    | exact absurd hx false_ne_true
    | exact ⟨rfl, rfl, rfl, rfl⟩
    | exact absurd hk.symm false_ne_true

theorem order_of_sameKind (hx : isOrderable x = true) (hk : sameKind x b = true) :
    (∃ y, b = .num y ∧ orderArg x = .num (numberOf x)) ∨
      ∃ s, b = .str s ∧ orderArg x = .str (stringOf x) := by
  cases b with
  | num y =>
    refine .inl ⟨y, rfl, ?_⟩
    cases x <;> first | rfl | exact absurd hk false_ne_true
  | str s =>
    refine .inr ⟨s, rfl, ?_⟩
    cases x <;>
      first
      | rfl
      | exact absurd hk false_ne_true
      | exact absurd hx false_ne_true
  | _ => cases x <;> first | exact absurd hk false_ne_true | exact absurd hx false_ne_true

theorem not_lt_num (x y : ℚ) : (!decide (x < y)) = (Bson.num y).le (.num x) := by
  rw [Bool.eq_iff_iff]
  simp [Bson.le, Bson.lt, Bson.beq, le_iff_lt_or_eq]

theorem not_lt_str (s t : Text) : (!decide (s < t)) = (Bson.str t).le (.str s) := by
  rw [Bool.eq_iff_iff]
  simp [Bson.le, Bson.lt, Bson.beq, le_iff_lt_or_eq]

/-- Both comparisons, with what is asked of each when the operator stands for the opposite. -/
theorem orders_agree (h : HasValue m b) (hx : isOrderable x = true) :
    ((matchGreaterThan x m == .mrMatch) = (orderArg x).lt b ∧
      (matchGreaterThan x m == .mrNoMatch) = b.le (orderArg x)) ∧
    (matchLessThan x m == .mrMatch) = b.lt (orderArg x) ∧
      (matchLessThan x m == .mrNoMatch) = (orderArg x).le b := by
  have hcompatible : compatibleType x m = sameKind x b := compatibleType_eq h hx
  unfold matchGreaterThan matchLessThan
  rw [hcompatible]
  cases hk : sameKind x b with
  | false =>
    obtain ⟨hgt, hge, hlt, hle⟩ := order_of_otherKind hx hk
    rw [hgt, hge, hlt, hle]
    exact ⟨⟨rfl, rfl⟩, rfl, rfl⟩
  | true =>
    rcases order_of_sameKind hx hk with ⟨y, rfl, harg⟩ | ⟨s, rfl, harg⟩
    · obtain ⟨hkind, rfl⟩ := h
      rw [hkind, harg]
      exact ⟨⟨matchOf_match _, (matchOf_noMatch _).trans (not_lt_num _ _)⟩,
        matchOf_match _, (matchOf_noMatch _).trans (not_lt_num _ _)⟩
    obtain ⟨hkind, rfl⟩ := h
    rw [hkind, harg]
    exact ⟨⟨matchOf_match _, (matchOf_noMatch _).trans (not_lt_str _ _)⟩,
      matchOf_match _, (matchOf_noMatch _).trans (not_lt_str _ _)⟩

theorem pattern_agree {s : Text} (h : HasValue m b) :
    (matchPattern regexec (.string s) m == .mrMatch) = MongoQuery.matchesRegex regex s b ↔
      ∀ t, b = .str t → regexec s t = regex s t := by
  unfold matchPattern
  cases b with
  | str t =>
    obtain ⟨hkind, rfl⟩ := h
    rw [if_neg (not_not.mpr hkind), matchOf_match]
    constructor
    · intro heq t ht
      obtain rfl := Bson.str.inj ht
      exact heq
    · intro heq
      exact heq _ rfl
  | _ =>
    have hkind : m.valueType ≠ .string := by
      intro hstring
      simp [HasValue, hstring] at h
    rw [if_pos hkind]
    exact iff_of_true rfl nofun

theorem array_notHolds {items : List Bson} (h : HasValue m (.arr items)) (hv : OpTakes op (some x))
    (hop : op.isUnary = false) (hequals : op ≠ .sfopEquals) (hdiffers : op ≠ .sfopDiffers) :
    memberHolds regexec op (some x) m = false := by
  have hkind : sameKind x (.arr items) = true → isOrderable x = false := by
    intro hk
    cases x <;> first | rfl | exact absurd hk false_ne_true
  have hcompatible : isOrderable x = true → compatibleType x m = false := by
    intro hx
    rw [compatibleType_eq h hx]
    by_contra hk
    rw [hkind (Bool.eq_true_of_not_eq_false hk)] at hx
    cases hx
  cases op with
  | sfopExists => cases hop
  | sfopNotExists => cases hop
  | sfopEquals => exact absurd rfl hequals
  | sfopDiffers => exact absurd rfl hdiffers
  | sfopGreaterThan | sfopLessThanOrEqual => simp [memberHolds, matchGreaterThan, hcompatible hv]
  | sfopLessThan | sfopGreaterThanOrEqual => simp [memberHolds, matchLessThan, hcompatible hv]
  | sfopMatchPattern =>
    have hstring : m.valueType ≠ .string := by
      rcases h with h | h <;> rw [h] <;> decide
    simp [memberHolds, matchPattern, hstring]

theorem single_agrees (h : HasValue m b) (hv : OpTakes op (some x)) (hop : op.isUnary = false)
    (hequals : op ≠ .sfopEquals) (hdiffers : op ≠ .sfopDiffers) :
    memberHolds regexec op (some x) m = seenHolds regex op (some x) [b] ↔
      (op = .sfopMatchPattern → ∀ t, b = .str t →
        regexec (stringOf x) t = regex (stringOf x) t) := by
  cases op with
  | sfopExists => cases hop
  | sfopNotExists => cases hop
  | sfopEquals => exact absurd rfl hequals
  | sfopDiffers => exact absurd rfl hdiffers
  | sfopGreaterThan =>
    exact iff_of_true ((orders_agree h hv).1.1.trans (Bool.or_false _).symm) nofun
  | sfopLessThan =>
    exact iff_of_true ((orders_agree h hv).2.1.trans (Bool.or_false _).symm) nofun
  | sfopGreaterThanOrEqual =>
    exact iff_of_true ((orders_agree h hv).2.2.trans (Bool.or_false _).symm) nofun
  | sfopLessThanOrEqual =>
    exact iff_of_true ((orders_agree h hv).1.2.trans (Bool.or_false _).symm) nofun
  | sfopMatchPattern =>
    cases x with
    | string s =>
      refine Iff.trans (Eq.congr rfl (or_false _)) ?_
      exact (pattern_agree h).trans ⟨fun hsame _ => hsame, fun hsame => hsame rfl⟩
    | _ => exact absurd hv id

theorem member_agrees (h : HasValue m b) (hv : OpTakes op value) (hop : op.isUnary = false) :
    memberHolds regexec op value m = seenHolds regex op value (MongoQuery.candidates b) ↔
      KindAgrees regexec regex op value m b := by
  cases value with
  | none => cases op <;> first | exact absurd hop.symm false_ne_true | exact absurd hv id
  | some x =>
    by_cases hequals : op = .sfopEquals
    · obtain rfl := hequals
      exact Iff.trans (Eq.congr (matchOf_match _) rfl) (equality_agrees h)
    by_cases hdiffers : op = .sfopDiffers
    · obtain rfl := hdiffers
      refine Iff.trans (Eq.congr (matchOf_noMatch _) rfl) ?_
      exact not_inj_iff.trans (equality_agrees h)
    cases b with
    | arr items =>
      rw [array_notHolds h hv hop hequals hdiffers]
      cases op <;> first | exact eq_comm | exact absurd rfl hequals | exact absurd rfl hdiffers
    | _ =>
      refine (single_agrees h hv hop hequals hdiffers).trans ?_
      cases op <;>
        first
        | exact iff_of_true nofun trivial
        | exact absurd rfl hequals
        | exact absurd rfl hdiffers
        | exact iff_of_true (fun _ => nofun) trivial
        | exact ⟨fun hpattern => hpattern rfl _ rfl, fun hsame _ t ht => Bson.str.inj ht ▸ hsame⟩

variable {name path : Text} {names : List Text}

def pathNames (path : Text) : List Text := if path = [] then [] else path.splitOn '.'

def plainIndex (name : Text) : Bool :=
  !(name ≠ [] && name.all Char.isDigit) || Nat.toDigits 10 (Nat.ofDigitChars 10 name 0) == name

/-- To a field of an object with encoded names, or an item of an array where no item has a field of
the name. -/
def plainWay : List Text → Bson → Bool
  | [], _ => true
  | name :: names, .obj fields =>
    (fields.all fun f => !f.1.contains '.') &&
      (MongoQuery.lookup name fields).all (plainWay names)
  | name :: names, .arr items =>
    (items.all fun v => (MongoQuery.fieldOf name v).isEmpty) && plainIndex name &&
      (MongoQuery.itemAt name items).all (plainWay names)
  | _ :: _, _ => true

theorem eqForDot_inj {s t : Text} (hs : '.' ∉ s) (ht : '.' ∉ t) :
    eqForDot s = eqForDot t ↔ s = t := by
  constructor
  · intro h
    rw [← dotForEq_of_dotless hs, ← dotForEq_of_dotless ht, ← dotForEq_eqForDot s, h,
      dotForEq_eqForDot]
  · exact congrArg eqForDot

theorem child_eq {fields : List (Text × Bson)} (hname : '.' ∉ name)
    (hfields : ∀ f ∈ fields, '.' ∉ f.1) :
    ((childV (.obj fields)).find? fun child => child.1 == eqForDot name).map Prod.snd =
      MongoQuery.lookup name fields := by
  induction fields with
  | nil => rfl
  | cons f fields ih =>
    obtain ⟨hf, hrest⟩ := forall_mem_cons.mp hfields
    have hsame : (eqForDot f.1 == eqForDot name) = (f.1 == name) := by
      rw [Bool.eq_iff_iff, beq_iff_eq, beq_iff_eq]
      exact eqForDot_inj hf hname
    unfold MongoQuery.lookup
    change Option.map Prod.snd (((eqForDot f.1, f.2) :: childV (.obj fields)).find? _) = _
    rw [List.find?_cons, List.find?_cons, hsame]
    cases f.1 == name with
    | true => rfl
    | false => exact ih hrest

theorem toString_toList (i : ℕ) : (toString i).toList = Nat.toDigits 10 i := String.toList_ofList

theorem eqForDot_digits (h : name.all Char.isDigit = true) : eqForDot name = name := by
  rw [AttributeNames.eqForDot_eq_self_iff]
  intro hmem
  exact absurd (all_eq_true.mp h '=' hmem) (by decide)

theorem find_zipIdx (items : List Bson) (j k : ℕ) :
    (items.zipIdx j).find? (fun f => f.2 == j + k) = items[k]?.map fun v => (v, j + k) := by
  induction items generalizing j k with
  | nil => rfl
  | cons v items ih =>
    rw [zipIdx_cons, List.find?_cons]
    cases k with
    | zero => simp
    | succ k =>
      have hne : (j == j + (k + 1)) = false := by simp
      rw [hne, List.getElem?_cons_succ]
      have hrec := ih (j + 1) k
      rw [show j + 1 + k = j + (k + 1) by omega] at hrec
      exact hrec

theorem toDigits_beq {i k : ℕ} : (Nat.toDigits 10 i == Nat.toDigits 10 k) = (i == k) := by
  rw [Bool.eq_iff_iff, beq_iff_eq, beq_iff_eq]
  constructor
  · intro h
    have hi : Nat.ofDigitChars 10 (Nat.toDigits 10 i) 0 = i :=
      Nat.ofDigitChars_toDigits (by decide) (by decide)
    rw [← hi, h, Nat.ofDigitChars_toDigits (by decide) (by decide)]
  · exact congrArg _

theorem digits_of_eqForDot {i : ℕ} (h : eqForDot name = Nat.toDigits 10 i) :
    name ≠ [] ∧ name.all Char.isDigit = true := by
  constructor
  · rintro rfl
    exact Nat.toDigits_ne_nil h.symm
  · rw [all_eq_true]
    intro c hc
    have hmem : (if c = '=' then '.' else c) ∈ Nat.toDigits 10 i :=
      h ▸ mem_map_of_mem (f := fun c => if c = '=' then '.' else c) hc
    have hdigit := Nat.isDigit_of_mem_toDigits (by decide) (by decide) hmem
    split at hdigit
    · cases hdigit
    · exact hdigit

theorem item_eq {items : List Bson} (h : plainIndex name = true) :
    ((childV (.arr items)).find? fun child => child.1 == eqForDot name).map Prod.snd =
      itemAt name items := by
  have hfind : ((childV (.arr items)).find? fun child => child.1 == eqForDot name) =
      (items.zipIdx.find? fun f => Nat.toDigits 10 f.2 == eqForDot name).map fun f =>
        (Nat.toDigits 10 f.2, f.1) := by
    change ((items.zipIdx.map fun f => ((toString f.2).toList, f.1)).find? _) = _
    simp only [toString_toList, List.find?_map]
    rfl
  unfold itemAt
  by_cases hdigits : name ≠ [] ∧ name.all Char.isDigit = true
  · have hplain : Nat.toDigits 10 (Nat.ofDigitChars 10 name 0) = name := by
      simpa [plainIndex, hdigits.1, hdigits.2] using h
    rw [if_pos hdigits, hfind, eqForDot_digits hdigits.2]
    nth_rewrite 1 [← hplain]
    simp only [toDigits_beq]
    have hzip := find_zipIdx items 0 (Nat.ofDigitChars 10 name 0)
    simp only [Nat.zero_add] at hzip
    rw [hzip, Option.map_map, Option.map_map]
    exact congrFun Option.map_id _
  · rw [if_neg hdigits, hfind]
    have hnone : (items.zipIdx.find? fun f => Nat.toDigits 10 f.2 == eqForDot name) = none := by
      rw [List.find?_eq_none]
      intro f _ heq
      exact hdigits (digits_of_eqForDot (beq_iff_eq.mp heq).symm)
    rw [hnone]
    rfl
theorem follow_eq_walk (hnames : ∀ name ∈ names, '.' ∉ name)
    (h : plainWay names b = true) : follow names b = (walk names b).toList := by
  induction names generalizing b with
  | nil => rfl
  | cons name names ih =>
    obtain ⟨hname, hnames⟩ := forall_mem_cons.mp hnames
    have hstep (o : Option Bson) (ho : o.all (plainWay names) = true) :
        o.toList.flatMap (follow names) = (o.bind (walk names)).toList := by
      cases o with
      | none => rfl
      | some child => exact (flatMap_singleton _ _).trans (ih hnames ho)
    cases b with
    | obj fields =>
      obtain ⟨hfields, hrest⟩ := and_eq_true_iff.mp h
      have hchild := child_eq hname fun f hf => by simpa using all_eq_true.mp hfields f hf
      unfold walk
      rw [hchild]
      exact hstep _ hrest
    | arr items =>
      obtain ⟨hitems, hrest⟩ := and_eq_true_iff.mp h
      obtain ⟨hempty, hindex⟩ := and_eq_true_iff.mp hitems
      have hfields : items.flatMap (MongoQuery.fieldOf name) = [] := by
        rw [flatMap_eq_nil_iff]
        intro v hv
        exact isEmpty_iff.mp (all_eq_true.mp hempty v hv)
      have hinto : MongoQuery.stepInto name (.arr items) =
          (itemAt name items).toList := by
        change (itemAt name items).toList ++ items.flatMap _ = _
        rw [hfields, append_nil]
      unfold walk
      rw [item_eq hindex, MongoQuery.follow, hinto]
      exact hstep _ hrest
    | _ => rfl

theorem stringSplit_eq (h : path.head? ≠ some '.') : stringSplit path '.' = pathNames path := by
  unfold stringSplit pathNames
  cases path with
  | nil => rfl
  | cons c path =>
    have hc : c ≠ '.' := fun heq => h (congrArg some heq)
    rw [dropWhile_cons_of_neg (by simpa using hc)]

variable {item : FilterItem} {rest : Members} {c : Bson}

def itemAt (path : Text) (b : Bson) : Option Bson := walk (pathNames path) b

def valuesAt (path : Text) (b : Bson) : List Bson := follow (pathNames path) b

structure PathPlain (path : Text) (b : Bson) : Prop where
  first : path.head? ≠ some '.'
  through : plainWay (pathNames path) b = true

/-- The kinds agree where a comparison is made. -/
def ValueAgrees (regexec regex : Text → Text → Bool) (item : FilterItem) (rest : Members)
    (b : Bson) : Prop :=
  ∀ m c, membersAt item.compoundPath (readMembers rest b) = some m →
    itemAt item.compoundPath b = some c → KindAgrees regexec regex item.op item.value m c

theorem valuesAt_eq (h : PathPlain path b) : valuesAt path b = (itemAt path b).toList := by
  refine follow_eq_walk (fun name hname => ?_) h.through
  unfold pathNames at hname
  split at hname
  · cases hname
  · exact Delimited.notMem_of_mem_splitOn hname

theorem pathNames_ne_nil (h : path ≠ []) : pathNames path ≠ [] := by
  unfold pathNames
  rw [if_neg h]
  exact splitOn_ne_nil _ _

theorem compoundItem_read (h : path.head? ≠ some '.') (hpath : path ≠ []) :
    compoundItem path (readMembers rest b) = itemAt path b := by
  have hnames : pathNames path ≠ [] := pathNames_ne_nil hpath
  unfold compoundItem itemAt
  simp only [stringSplit_eq h, if_neg hnames]
  obtain ⟨name, names, hcons⟩ := exists_cons_of_ne_nil hnames
  rw [hcons]
  cases b <;> rfl

theorem membersAt_read (h : path.head? ≠ some '.') : membersAt path (readMembers rest b) =
    if path = [] then some (readMembers rest b) else (itemAt path b).map nodeMembers := by
  unfold membersAt
  by_cases hpath : path = []
  · rw [if_pos hpath, if_pos hpath]
  · rw [if_neg hpath, if_neg hpath, compoundItem_read h hpath]

theorem existsAt_read (h : path.head? ≠ some '.') :
    existsAt path (some (readMembers rest b)) = (itemAt path b).isSome := by
  unfold existsAt
  by_cases hpath : path = []
  · rw [if_pos hpath, hpath]
    rfl
  · rw [if_neg hpath]
    exact congrArg Option.isSome (compoundItem_read h hpath)

theorem opHolds_eq (hop : item.op.isUnary = false) (m : Members) : opHolds regexec item m =
    (membersAt item.compoundPath m).any (memberHolds regexec item.op item.value) := by
  obtain ⟨left, name, md, path, op, value⟩ := item
  unfold opHolds delegated
  cases membersAt path m <;> cases op <;> cases value <;>
    first | rfl | exact absurd hop.symm false_ne_true

theorem compared (h : path.head? ≠ some '.') (rest : Members) (b : Bson) :
    (membersAt path (readMembers rest b) = none ∧ itemAt path b = none) ∨
      ∃ m c, membersAt path (readMembers rest b) = some m ∧ itemAt path b = some c ∧
        HasValue m c := by
  rw [membersAt_read h]
  by_cases hpath : path = []
  · rw [if_pos hpath, hpath]
    exact .inr ⟨_, b, rfl, rfl, hasValue_read rest b⟩
  rw [if_neg hpath]
  cases itemAt path b with
  | none => exact .inl ⟨rfl, rfl⟩
  | some c => exact .inr ⟨_, c, rfl, rfl, hasValue_node c⟩

theorem binary_agrees (h : PathPlain item.compoundPath b) (hv : OpTakes item.op item.value)
    (hop : item.op.isUnary = false) :
    opHolds regexec item (readMembers rest b) =
        conditionHolds regex item.op item.value (valuesAt item.compoundPath b) ↔
      ValueAgrees regexec regex item rest b := by
  unfold ValueAgrees
  rw [opHolds_eq hop, valuesAt_eq h]
  rcases compared h.first rest b with ⟨hm, hc⟩ | ⟨m, c, hm, hc, hvalue⟩
  · rw [hm, hc]
    refine iff_of_true ?_ nofun
    change false = conditionHolds regex item.op item.value []
    rw [condition_none hv]
    cases hkind : item.op <;> first | rfl | (rw [hkind] at hop; cases hop)
  · rw [hm, hc]
    change memberHolds regexec item.op item.value m = conditionHolds regex _ _ [c] ↔ _
    rw [condition_value hv, member_agrees hvalue hv hop]
    constructor
    · rintro hkind m' c' ⟨⟩ ⟨⟩
      exact hkind
    · intro hkind
      exact hkind m c rfl rfl

theorem unary_holds (hop : op.isUnary = true) (value : Option FilterValue) (vs : List Bson) :
    conditionHolds regex op value vs = (vs.isEmpty == (op == .sfopNotExists)) := by
  cases op with
  | sfopExists =>
    refine (exists_holds true []).trans ?_
    cases vs <;> rfl
  | sfopNotExists =>
    refine (exists_holds false []).trans ?_
    cases vs <;> rfl
  | _ => cases hop

end FilterValuesAgree
