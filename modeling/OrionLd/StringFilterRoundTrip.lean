import OrionLd.StringFilterRender

/-! A rendered item is read back by StringFilterItem::parse.
The name is read back when nothing in it has a meaning for the parser, and the value when it
is the text the parser would take for a value of its type. -/
namespace StringFilterRoundTrip

open StringFilter (wsStrip)

open Fallible KjTree OrionldContextItem StringFilter StringFilterRender List Except

variable (env : Env)

def InScope (item : StringFilterItem) : Prop :=
  match item.value with
  | none => True
  | some (.string _) => True
  | some (.bool _) => True
  | some .null => True
  | some (.number x) => ∃ z : ℤ, x = z
  | some _ => False

def nameBreakers : List Char := nul :: ".='<>\";()".toList

structure PlainName (op : StringFilterOp) (name : Text) : Prop where
  nonempty : name ≠ []
  chars : ∀ c ∈ name, c ∉ nameBreakers
  first : ∀ c, name.head? = some c → isWs c = false ∧ (c = '!' → op = .sfopNotExists)
  last : ∀ c, name.getLast? = some c → isWs c = false ∧ (c = '~' ∨ c = '!' → op ≠ .sfopEquals)
  expanded : longAttributeName env name = name

def ValueSurvives (op : StringFilterOp) : FilterValue → Prop
  | .string s =>
    s ≠ [] ∧ wsStrip s = s ∧ env.str2double s = none ∧ env.parse8601Time s = none ∧
      s ∉ ["true".toList, "false".toList, "null".toList] ∧ s.length < valueBufSize ∧ nul ∉ s ∧
      (op = .sfopGreaterThan ∨ op = .sfopLessThan → s.head? ≠ some '=')
  | .bool b => b = true
  | .number x => (printfF x).length < valueBufSize
  | .null => True
  | _ => False

/-- What an item must be to be read back as it was. -/
structure ItemSurvives (item : StringFilterItem) : Prop where
  name : PlainName env item.op item.attributeName
  path : item.compoundPath = []
  op : item.op ≠ .sfopMatchPattern
  value : ∀ v, item.value = some v → ValueSurvives env item.op v

variable {s : Text} {c : Char}

theorem wsStrip_eq_self (hfirst : ∀ c, s.head? = some c → isWs c = false)
    (hlast : ∀ c, s.getLast? = some c → isWs c = false) : wsStrip s = s := by
  have hdrop : s.dropWhile isWs = s := by
    cases s with
    | nil => rfl
    | cons c cs => simp [hfirst c rfl]
  rw [wsStrip, hdrop, rdropWhile_eq_self_iff]
  intro hne
  simpa using hlast _ (List.getLast?_eq_some_getLast hne)

theorem first_of_wsStrip (h : wsStrip s = s) (hc : s.head? = some c) : isWs c = false := by
  obtain ⟨cs, rfl⟩ : ∃ cs, s = c :: cs := List.head?_eq_some_iff.mp hc
  by_contra hws
  have hlen : (wsStrip (c :: cs)).length ≤ cs.length := by
    rw [wsStrip, dropWhile_cons_of_pos (by simpa using hws)]
    exact ((List.rdropWhile_prefix _ _).length_le).trans (dropWhile_suffix _).length_le
  rw [h, length_cons] at hlen
  omega

theorem last_of_wsStrip (h : wsStrip s = s) (hc : s.getLast? = some c) : isWs c = false := by
  have hne : wsStrip s ≠ [] := by
    rw [h]
    rintro rfl
    cases hc
  have hlast := rdropWhile_last_not isWs (s.dropWhile isWs) hne
  have hs : (wsStrip s).getLast hne = c := by
    rw [← Option.some.injEq, ← List.getLast?_eq_some_getLast hne, h, hc]
  rw [← hs]
  simpa [wsStrip] using hlast

/-- No character of the name is one at which an operator can stand. -/
def OperatorFree (name : Text) : Prop :=
  ∀ c ∈ name, c ≠ '\'' ∧ c ≠ '=' ∧ c ≠ '<' ∧ c ≠ '>'

theorem opAt_eq_none {cs : Text} (hc : c ≠ '=' ∧ c ≠ '<' ∧ c ≠ '>')
    (hnext : cs.head? = some '=' → c ≠ '~' ∧ c ≠ '!') : opAt (c :: cs) = none := by
  unfold opAt
  split <;> simp_all

theorem opSearch_append {look : Text → Option (StringFilterOp × Text)} {name rest : Text}
    (h : ∀ c cs, c :: cs <:+ name → c ≠ '\'' ∧ look (c :: (cs ++ rest)) = none) :
    opSearch look false (name ++ rest) =
      (opSearch look false rest).map fun r => (r.1, name ++ r.2.1, r.2.2) := by
  induction name with
  | nil => simp
  | cons c cs ih =>
    obtain ⟨hquote, hnone⟩ := h c cs (suffix_refl _)
    rw [cons_append, opSearch, if_neg hquote]
    simp only [Bool.false_eq_true, if_false, hnone]
    rw [ih fun d ds hsuffix => h d ds (hsuffix.trans (suffix_cons c cs)), Option.map_map]
    rfl

/-- Of two characters that make an operator together, one is in the name at most. -/
theorem opAt_suffix {name rest : Text} {c : Char} {cs : Text} (hname : OperatorFree name)
    (hlast : rest.head? = some '=' → ∀ c, name.getLast? = some c → c ≠ '~' ∧ c ≠ '!')
    (hsuffix : c :: cs <:+ name) : c ≠ '\'' ∧ opAt (c :: (cs ++ rest)) = none := by
  obtain ⟨before, rfl⟩ := hsuffix
  obtain ⟨hquote, hops⟩ := hname c (by simp)
  refine ⟨hquote, opAt_eq_none hops fun h => ?_⟩
  cases cs with
  | nil => exact hlast h c List.getLast?_concat
  | cons d ds =>
    have hd : d = '=' := by simpa using h
    exact absurd hd (hname d (by simp)).2.1

def opText : StringFilterOp → Text
  | .sfopEquals => "==".toList
  | .sfopDiffers => "!=".toList
  | .sfopGreaterThanOrEqual => ">=".toList
  | .sfopLessThanOrEqual => "<=".toList
  | .sfopGreaterThan => ">".toList
  | .sfopLessThan => "<".toList
  | _ => []

theorem opSearch_opText {op : StringFilterOp} {value : Text} (hu : op.isUnary = false)
    (hm : op ≠ .sfopMatchPattern)
    (hgt : op = .sfopGreaterThan ∨ op = .sfopLessThan → value.head? ≠ some '=') :
    opSearch opAt false (opText op ++ value) = some (op, [], value) := by
  cases op with
  | sfopExists => cases hu
  | sfopNotExists => cases hu
  | sfopMatchPattern => exact absurd rfl hm
  | sfopEquals => rfl
  | sfopDiffers => rfl
  | sfopGreaterThanOrEqual => rfl
  | sfopLessThanOrEqual => rfl
  | sfopGreaterThan | sfopLessThan =>
    have hv := hgt (by simp)
    cases value with
    | nil => rfl
    | cons c cs =>
      have hc : c ≠ '=' := by simpa using hv
      simp [opText, opSearch, opAt, hc]

theorem itemText_binary {op : StringFilterOp} (hu : op.isUnary = false)
    (hm : op ≠ .sfopMatchPattern) (name value : Text) :
    itemText op name value = name ++ (opText op ++ value) := by
  cases op with
  | sfopExists => cases hu
  | sfopNotExists => cases hu
  | sfopMatchPattern => exact absurd rfl hm
  | _ => simp [itemText, opText]

variable {env : Env} {op : StringFilterOp} {name value : Text}

theorem PlainName.operatorFree (h : PlainName env op name) : OperatorFree name := by
  intro c hc
  have hb := h.chars c hc
  refine ⟨?_, ?_, ?_, ?_⟩ <;> rintro rfl <;> exact hb (by decide)

theorem PlainName.eqForDot (h : PlainName env op name) : eqForDot name = name := by
  refine (map_congr_left fun c hc => ?_).trans (map_id name)
  exact if_neg (h.operatorFree c hc).2.1

theorem PlainName.wsStrip (h : PlainName env op name) : wsStrip name = name :=
  wsStrip_eq_self (fun c hc => (h.first c hc).1) fun c hc => (h.last c hc).1

theorem PlainName.forbiddenChars (h : PlainName env op name) : forbiddenChars name "'" = false := by
  rw [StringFilter.forbiddenChars, any_eq_false]
  intro c hc hbad
  have hcommon : commonForbidden c = true := (Bool.and_eq_true_iff.mp hbad).2
  refine h.chars c hc ?_
  simp only [commonForbidden, contains_iff_mem] at hcommon
  simp only [nameBreakers]
  revert hcommon
  simp
  tauto

theorem unquoted (h : '\'' ∉ name) : lhsDotToEqualIfInsideQuote false name = name := by
  induction name with
  | nil => rfl
  | cons c cs ih =>
    have hc : c ≠ '\'' := fun e => h (e ▸ mem_cons_self)
    rw [lhsDotToEqualIfInsideQuote, if_neg hc, ih (fun hm => h (mem_cons_of_mem _ hm))]
    simp

theorem PlainName.lhsParse (h : PlainName env op name) : lhsParse name = (name, []) := by
  have hq : '\'' ∉ name := fun hc => h.chars _ hc (by decide)
  have hdot : ∀ c ∈ name, decide (c ≠ '.') = true := by
    intro c hc
    have hne : c ≠ '.' := fun e => h.chars _ (e ▸ hc) (by decide)
    simpa using hne
  rw [StringFilter.lhsParse, unquoted hq, takeWhile_eq_self_iff.mpr hdot,
    dropWhile_eq_nil_iff.mpr hdot]
  rfl

theorem forbiddenQuotes_eq_false (h : '\'' ∉ name) : forbiddenQuotes name = false := by
  induction name with
  | nil => rfl
  | cons c cs ih =>
    cases cs with
    | nil => rfl
    | cons d ds =>
      have hd : d ≠ '\'' := fun e => h (by simp [e])
      rw [forbiddenQuotes, ih (fun hm => h (mem_cons_of_mem _ hm))]
      simp [hd]

/-- The text is a token of the whole filter that is parsed to the item. -/
structure ParsesAs (env : Env) (s : Text) (item : StringFilterItem) : Prop where
  stripped : StringFilter.wsStrip s = s
  nonempty : s ≠ []
  parsed : StringFilterItem.parse env s = .ok item

theorem parse_of_opFind {rhs : Text} {v : Option FilterValue} (h : PlainName env op name)
    (hs : wsStrip s = s) (hne : s ≠ []) (hop : opFind opAt s = (op, name, rhs))
    (hrhs : wsStrip rhs = rhs) (hrne : rhs ≠ []) (hval : rhsParse env op rhs = .ok v) :
    ParsesAs env s ⟨name, [], op, v⟩ := by
  refine ⟨hs, hne, ?_⟩
  simp [StringFilterItem.parse, hs, hne, hop, h.wsStrip, h.nonempty, h.eqForDot,
    h.forbiddenChars, hrhs, hrne, h.lhsParse, hval, h.expanded]

theorem PlainName.rhsParse_unary (h : PlainName env op name) (hu : op.isUnary = true) :
    rhsParse env op name = .ok none := by
  have hq : '\'' ∉ name := fun hc => h.chars _ hc (by decide)
  rw [rhsParse, if_pos hu, h.eqForDot, forbiddenQuotes_eq_false hq]
  rfl

theorem opFind_of_first (h : s.head? ≠ some '!') :
    opFind opAt s = (opSearch opAt false s).getD (.sfopExists, s, s) := by
  unfold opFind
  split
  · simp at h
  · rfl

theorem parse_exists (h : PlainName env .sfopExists name) :
    ParsesAs env name ⟨name, [], .sfopExists, none⟩ := by
  have hfirst : name.head? ≠ some '!' := by
    intro hc
    cases (h.first _ hc).2 rfl
  have hsearch : opSearch opAt false name = none := by
    have happend : opSearch opAt false (name ++ []) = _ :=
      opSearch_append fun c cs => opAt_suffix h.operatorFree (by simp)
    simpa [opSearch] using happend
  refine parse_of_opFind h h.wsStrip h.nonempty ?_ h.wsStrip h.nonempty (h.rhsParse_unary rfl)
  rw [opFind_of_first hfirst, hsearch]
  rfl

theorem parse_notExists (h : PlainName env .sfopNotExists name) :
    ParsesAs env ('!' :: name) ⟨name, [], .sfopNotExists, none⟩ := by
  have hstrip : wsStrip ('!' :: name) = '!' :: name := by
    refine wsStrip_eq_self ?_ ?_
    · intro c hc
      cases hc
      rfl
    · intro c hc
      apply (h.last c ?_).1
      rwa [List.getLast?_cons_of_ne_nil h.nonempty] at hc
  exact parse_of_opFind h hstrip (by simp) rfl h.wsStrip h.nonempty (h.rhsParse_unary rfl)

theorem parse_binary {v : FilterValue} (h : PlainName env op name) (hu : op.isUnary = false)
    (hm : op ≠ .sfopMatchPattern) (hv : wsStrip value = value) (hne : value ≠ [])
    (hgt : op = .sfopGreaterThan ∨ op = .sfopLessThan → value.head? ≠ some '=')
    (hval : rhsParse env op value = .ok (some v)) :
    ParsesAs env (itemText op name value) ⟨name, [], op, some v⟩ := by
  rw [itemText_binary hu hm]
  obtain ⟨c, cs, rfl⟩ := exists_cons_of_ne_nil h.nonempty
  have hstrip : wsStrip (c :: cs ++ (opText op ++ value)) =
      c :: cs ++ (opText op ++ value) := by
    refine wsStrip_eq_self ?_ ?_
    · intro d hd
      exact (h.first d hd).1
    · intro d hd
      rw [← append_assoc, List.getLast?_append_of_ne_nil _ hne] at hd
      exact last_of_wsStrip hv hd
  have hfirst : (c :: cs ++ (opText op ++ value)).head? ≠ some '!' := by
    intro hc
    rw [(h.first '!' hc).2 rfl] at hu
    cases hu
  have hlast : (opText op ++ value).head? = some '=' →
      ∀ d, (c :: cs).getLast? = some d → d ≠ '~' ∧ d ≠ '!' := by
    intro heq d hd
    have hop : op = .sfopEquals := by
      cases op <;> simp [opText, StringFilterOp.isUnary] at heq hu hm ⊢
    have hno := (h.last d hd).2
    constructor <;> rintro rfl <;> exact absurd hop (hno (by simp))
  refine parse_of_opFind h hstrip (by simp) ?_ hv hne hval
  rw [opFind_of_first hfirst, opSearch_append fun c cs => opAt_suffix h.operatorFree hlast,
    opSearch_opText hu hm hgt]
  simp

variable {rhs : Text} {v : FilterValue}

def isScalar : FilterValue → Bool
  | .string _ => true
  | .bool _ => true
  | .number _ => true
  | .null => true
  | .date _ => true
  | _ => false

theorem rangeParse_ok (h : rangeParse env op rhs = .ok v) : isScalar v = false := by
  unfold rangeParse at h
  split at h
  · cases h
  simp only at h
  split at h
  · cases h
  obtain ⟨x, -, h⟩ := bind_ok h
  split at h
  · cases h
  obtain ⟨y, -, h⟩ := bind_ok h
  split at h
  · cases h
  · split at h <;> cases h <;> rfl

theorem listItemAdd_ok {list : Option FilterValue} {piece : Text}
    (h : listItemAdd env op list piece = .ok v) : isScalar v = false := by
  unfold listItemAdd at h
  simp only at h
  split at h
  · cases h
  · obtain ⟨x, -, h⟩ := bind_ok h
    split at h <;> cases h <;> rfl

theorem listItemsAdd_ok {list : FilterValue} {pieces : List Text} (hl : isScalar list = false)
    (h : listItemsAdd env op list pieces = .ok v) : isScalar v = false := by
  induction pieces generalizing list with
  | nil =>
    cases h
    exact hl
  | cons piece pieces ih =>
    obtain ⟨list', hadd, hrest⟩ := bind_ok h
    exact ih (listItemAdd_ok hadd) hrest

theorem listParse_ok (h : listParse env op rhs = .ok v) : isScalar v = false := by
  unfold listParse at h
  split at h
  · cases h
  split at h
  · cases h
  · obtain ⟨list, hadd, hrest⟩ := bind_ok h
    exact listItemsAdd_ok (listItemAdd_ok hadd) hrest

theorem rhsParse_scalar (hu : op.isUnary = false) (hm : op ≠ .sfopMatchPattern)
    (h : rhsParse env op rhs = .ok (some v)) (hv : isScalar v = true) :
    hasDouble '.' rhs = false ∧ ',' ∉ rhs ∧ valueParse env op rhs = .ok v := by
  have hu' : ¬ op.isUnary = true := by simp [hu]
  rw [rhsParse, if_neg hu', if_neg hm] at h
  split at h
  · obtain ⟨w, hw, hwv⟩ := map_ok h
    cases hwv
    simp [rangeParse_ok hw] at hv
  rename_i hdots
  split at h
  · obtain ⟨w, hw, hwv⟩ := map_ok h
    cases hwv
    simp [listParse_ok hw] at hv
  rename_i hcomma
  obtain ⟨w, hw, hwv⟩ := map_ok h
  cases hwv
  exact ⟨by simpa using hdots, hcomma, hw⟩

theorem valueParse_ok (h : valueParse env op rhs = .ok v) :
    valueGet env op rhs = .ok v ∧
      ((op = .sfopEquals ∨ op = .sfopDiffers) ∨ isOrderable v = true) := by
  obtain ⟨w, hw, h⟩ := bind_ok h
  split at h
  · rename_i hop
    cases h
    exact ⟨hw, .inl hop⟩
  split at h
  · rename_i hord
    cases h
    exact ⟨hw, .inr hord⟩
  · cases h

theorem valueParse_of_valueGet (h : valueGet env op rhs = .ok v)
    (hop : (op = .sfopEquals ∨ op = .sfopDiffers) ∨ isOrderable v = true) :
    valueParse env op rhs = .ok v := by
  rw [valueParse, h, ok_bind]
  by_cases heq : op = .sfopEquals ∨ op = .sfopDiffers
  · rw [if_pos heq]
  · rw [if_neg heq, if_pos (hop.resolve_left heq)]

theorem valueGet_unquoted (hq : rhs.head? ≠ some '\'') :
    valueGet env op rhs =
      match env.str2double rhs with
      | some x => .ok (.number x)
      | none =>
        match env.parse8601Time rhs with
        | some x => .ok (.date x)
        | none =>
          if rhs = "true".toList then .ok (.bool true)
          else if rhs = "false".toList then .ok (.bool false)
          else if rhs = "null".toList then .ok .null
          else if op ≠ .sfopMatchPattern ∧ forbiddenChars rhs "=" then
            .error "forbidden characters in String Filter"
          else .ok (.string rhs) := by
  unfold valueGet
  split
  · simp at hq
  · rfl

theorem quote_forbidden (h : forbiddenChars s "=" = false) (hc : c ∈ s) : c ≠ '\'' ∧ c ≠ ';' := by
  rw [forbiddenChars, any_eq_false] at h
  have hno := h c hc
  constructor <;> rintro rfl <;> exact hno (by decide)

theorem valueGet_ok (hm : op ≠ .sfopMatchPattern) (h : valueGet env op rhs = .ok v) :
    match v with
    | .string s => forbiddenChars s "=" = false ∧ s <:+: rhs
    | .bool b => b = true → valueGet env op "true".toList = .ok v
    | .null => valueGet env op "null".toList = .ok v
    | .number x => env.str2double rhs = some x
    | _ => True := by
  by_cases hq : rhs.head? = some '\''
  · obtain ⟨s, rfl⟩ := List.head?_eq_some_iff.mp hq
    simp only [valueGet] at h
    split at h
    · cases h
    split at h
    · cases h
    split at h
    · cases h
    rename_i hno
    cases h
    refine ⟨by simpa [hm] using hno, ?_⟩
    exact (List.dropLast_prefix s).isInfix.trans (suffix_cons _ s).isInfix
  · have h' := h
    rw [valueGet_unquoted hq] at h
    split at h
    · rename_i x hx
      cases h
      exact hx
    split at h
    · cases h
      trivial
    split at h
    · rename_i htrue
      cases h
      intro _
      rw [← htrue, h']
    · split at h
      · cases h
        intro hb
        cases hb
      split at h
      · rename_i hnull
        cases h
        show valueGet env op "null".toList = .ok .null
        rw [← hnull, h']
      · split at h
        · cases h
        rename_i hno
        cases h
        exact ⟨by simpa [hm] using hno, infix_rfl⟩

def intText (z : ℤ) : Text := (if z < 0 then ['-'] else []) ++ Nat.toDigits 10 z.natAbs

/-- With the text of a whole number: kFloatTrim takes off the decimals that are zero, and strtod
reads a double back from all its digits. -/
structure NumberTexts (env : Env) : Prop where
  trim : ∀ ds, '.' ∉ ds → env.kFloatTrim (ds ++ ".000000".toList) = ds
  read : ∀ s (z : ℤ), env.str2double s = some (z : ℚ) → env.str2double (intText z) = some (z : ℚ)

theorem roundHalfEven_natCast (n : ℕ) : roundHalfEven (n : ℚ) = n := by
  simp [roundHalfEven]

theorem printfF_intCast (z : ℤ) : printfF (z : ℚ) = intText z ++ ".000000".toList := by
  have hscaled : |(z : ℚ)| * 1000000 = ((z.natAbs * 1000000 : ℕ) : ℚ) := by
    push_cast
    simp
  have hneg : ((z : ℚ) < 0) = (z < 0) := by simp
  unfold printfF intText
  simp only [hscaled, roundHalfEven_natCast, hneg, Nat.mul_mod_left, Nat.toDigits_zero]
  rw [Nat.mul_div_cancel _ (by decide)]
  rfl

theorem mem_intText {z : ℤ} (h : c ∈ intText z) : c = '-' ∨ c.isDigit = true := by
  rcases mem_append.mp h with hsign | hdigit
  · split at hsign
    · exact .inl (mem_singleton.mp hsign)
    · cases hsign
  · exact .inr (Nat.isDigit_of_mem_toDigits (by decide) (by decide) hdigit)

theorem intText_ne_nil (z : ℤ) : intText z ≠ [] := by
  simp [intText]

structure ReadsBack (env : Env) (op : StringFilterOp) (v : FilterValue) (text : Text) : Prop where
  written : valueAsString env v = some text
  nonempty : text ≠ []
  stripped : wsStrip text = text
  read : rhsParse env op text = .ok (some v)
  whole : nul ∉ text ∧ ';' ∉ text
  first : op = .sfopGreaterThan ∨ op = .sfopLessThan → text.head? ≠ some '='

theorem hasDouble_iff : hasDouble c s = true ↔ [c, c] <:+: s := by
  induction s with
  | nil => simp [hasDouble]
  | cons a cs ih =>
    cases cs with
    | nil => simp [hasDouble, infix_cons_iff, cons_prefix_cons]
    | cons b cs =>
      have hcons : [c, c] <:+: a :: b :: cs ↔ (c = a ∧ c = b) ∨ [c, c] <:+: b :: cs := by
        rw [infix_cons_iff, cons_prefix_cons, cons_prefix_cons]
        simp
      rw [hasDouble, Bool.or_eq_true, ih, hcons, Bool.and_eq_true, beq_iff_eq, beq_iff_eq,
        eq_comm (a := a), eq_comm (a := b)]

theorem hasDouble_of_infix {t : Text} (h : s <:+: t) (ht : hasDouble c t = false) :
    hasDouble c s = false := by
  by_contra hs
  have hs' : [c, c] <:+: s := hasDouble_iff.mp (by simpa using hs)
  rw [hasDouble_iff.mpr (hs'.trans h)] at ht
  cases ht

theorem hasDouble_of_notMem (h : c ∉ s) : hasDouble c s = false := by
  by_contra hs
  have hs' : [c, c] <:+: s := hasDouble_iff.mp (by simpa using hs)
  exact h (hs'.subset (by simp))

theorem rhsParse_of_valueGet {text : Text} (hu : op.isUnary = false)
    (hm : op ≠ .sfopMatchPattern) (hdots : hasDouble '.' text = false) (hcomma : ',' ∉ text)
    (h : valueGet env op text = .ok v)
    (hop : (op = .sfopEquals ∨ op = .sfopDiffers) ∨ isOrderable v = true) :
    rhsParse env op text = .ok (some v) := by
  have hu' : ¬ op.isUnary = true := by simp [hu]
  have hdots' : ¬ hasDouble '.' text = true := by simp [hdots]
  rw [rhsParse, if_neg hu', if_neg hm, if_neg hdots', if_neg hcomma, valueParse_of_valueGet h hop]
  rfl

theorem string_reads_back (hu : op.isUnary = false) (hm : op ≠ .sfopMatchPattern)
    (hdots : hasDouble '.' rhs = false) (hcomma : ',' ∉ rhs) (hforb : forbiddenChars s "=" = false)
    (hin : s <:+: rhs) (hs : ValueSurvives env op (.string s)) :
    ReadsBack env op (.string s) s := by
  obtain ⟨hne, hstrip, hnum, hdate, hword, hlen, hnul, hfirst⟩ := hs
  have hdots' : hasDouble '.' s = false := hasDouble_of_infix hin hdots
  have hcomma' : ',' ∉ s := fun hc => hcomma (hin.subset hc)
  have hq : s.head? ≠ some '\'' := by
    intro hc
    exact (quote_forbidden hforb (mem_of_mem_head? hc)).1 rfl
  have hget : valueGet env op s = .ok (.string s) := by
    simp only [mem_cons, not_mem_nil, or_false, not_or] at hword
    obtain ⟨htrue, hfalse, hnull⟩ := hword
    rw [valueGet_unquoted hq, hnum, hdate]
    simp only [if_neg htrue, if_neg hfalse, if_neg hnull, hforb, Bool.false_eq_true, and_false,
      if_false]
  refine ⟨by rw [valueAsString, if_pos hlen], hne, hstrip,
    rhsParse_of_valueGet hu hm hdots' hcomma' hget (.inr rfl), ⟨hnul, ?_⟩, hfirst⟩
  intro hc
  exact (quote_forbidden hforb hc).2 rfl

theorem intText_chars {z : ℤ} (hc : c ∈ intText z) :
    c ∉ ".,;'=".toList ∧ isWs c = false ∧ c ≠ nul := by
  rcases mem_intText hc with rfl | hdigit
  · decide
  refine ⟨?_, ?_, ?_⟩
  · intro hmem
    simp at hmem
    rcases hmem with rfl | rfl | rfl | rfl | rfl <;> cases hdigit
  · by_contra hws
    simp only [isWs, Bool.not_eq_false, Bool.or_eq_true, beq_iff_eq] at hws
    rcases hws with (rfl | rfl) | rfl <;> cases hdigit
  · rintro rfl
    cases hdigit

theorem integer_reads_back {z : ℤ} (hnt : NumberTexts env) (hu : op.isUnary = false)
    (hm : op ≠ .sfopMatchPattern)
    (hop : (op = .sfopEquals ∨ op = .sfopDiffers) ∨ isOrderable (.number z) = true)
    (hread : env.str2double rhs = some (z : ℚ)) (hs : ValueSurvives env op (.number z)) :
    ReadsBack env op (.number z) (intText z) := by
  have hdot : '.' ∉ intText z := fun hc => (intText_chars hc).1 (by decide)
  have hwritten : valueAsString env (.number z) = some (intText z) := by
    have hshort : (printfF (z : ℚ)).take (valueBufSize - 1) = printfF (z : ℚ) :=
      take_of_length_le (Nat.le_sub_one_of_lt hs)
    rw [valueAsString, hshort, printfF_intCast, hnt.trim _ hdot]
  have hmem : ∀ c, (intText z).head? = some c → c ∈ intText z := fun c hc => mem_of_mem_head? hc
  have hget : valueGet env op (intText z) = .ok (.number z) := by
    have hq : (intText z).head? ≠ some '\'' := fun hc => (intText_chars (hmem _ hc)).1 (by decide)
    rw [valueGet_unquoted hq, hnt.read rhs z hread]
  refine ⟨hwritten, intText_ne_nil z, ?_, ?_, ⟨?_, ?_⟩, ?_⟩
  · exact wsStrip_eq_self (fun c hc => (intText_chars (hmem c hc)).2.1)
      fun c hc => (intText_chars (mem_of_mem_getLast? hc)).2.1
  · exact rhsParse_of_valueGet hu hm (hasDouble_of_notMem hdot)
      (fun hc => (intText_chars hc).1 (by decide)) hget hop
  · exact fun hc => (intText_chars hc).2.2 rfl
  · exact fun hc => (intText_chars hc).1 (by decide)
  · exact fun _ hc => (intText_chars (hmem _ hc)).1 (by decide)

theorem value_reads_back (hnt : NumberTexts env) (hu : op.isUnary = false)
    (hm : op ≠ .sfopMatchPattern) (h : rhsParse env op rhs = .ok (some v))
    (hscope : ∀ x, v = .number x → ∃ z : ℤ, x = z) (hs : ValueSurvives env op v) :
    ∃ text, ReadsBack env op v text := by
  have hscalar : isScalar v = true := by
    cases v <;> first | rfl | exact hs.elim
  obtain ⟨hdots, hcomma, hparse⟩ := rhsParse_scalar hu hm h hscalar
  obtain ⟨hget, hop⟩ := valueParse_ok hparse
  have hknown := valueGet_ok hm hget
  cases v with
  | string s => exact ⟨s, string_reads_back hu hm hdots hcomma hknown.1 hknown.2 hs⟩
  | number x =>
    obtain ⟨z, rfl⟩ := hscope x rfl
    exact ⟨intText z, integer_reads_back hnt hu hm hop hknown hs⟩
  | bool b =>
    have hb : b = true := hs
    subst hb
    exact ⟨"true".toList, rfl, by decide, by decide,
      rhsParse_of_valueGet hu hm rfl (by decide) (hknown rfl) hop, by decide,
      fun _ => by decide⟩
  | null =>
    exact ⟨"null".toList, rfl, by decide, by decide,
      rhsParse_of_valueGet hu hm rfl (by decide) hknown hop, by decide,
      fun _ => by decide⟩
  | _ => exact hs.elim

variable {item : StringFilterItem}

def HasRead (env : Env) (item : StringFilterItem) : Prop :=
  ∃ rhs, rhsParse env item.op rhs = .ok item.value

theorem hasRead_of_parse (h : StringFilterItem.parse env s = .ok item) : HasRead env item := by
  unfold StringFilterItem.parse at h
  simp only at h
  split at h
  · cases h
  split at h
  · cases h
  split at h
  · cases h
  split at h
  · cases h
  obtain ⟨v, hv, hok⟩ := bind_ok h
  cases hok
  exact ⟨_, hv⟩

theorem rhsParse_unary {v : Option FilterValue} (hu : op.isUnary = true)
    (h : rhsParse env op rhs = .ok v) : v = none := by
  rw [rhsParse, if_pos hu] at h
  split at h
  · cases h
  · exact (ok.inj h).symm

theorem rhsParse_binary {v : Option FilterValue} (hu : op.isUnary = false)
    (h : rhsParse env op rhs = .ok v) : ∃ w, v = some w := by
  have hu' : ¬ op.isUnary = true := by simp [hu]
  rw [rhsParse, if_neg hu'] at h
  split at h
  · split at h
    · cases h
    split at h
    · cases h
    · exact ⟨_, (ok.inj h).symm⟩
  · split at h
    · obtain ⟨w, -, rfl⟩ := map_ok h
      exact ⟨w, rfl⟩
    split at h
    · obtain ⟨w, -, rfl⟩ := map_ok h
      exact ⟨w, rfl⟩
    · obtain ⟨w, -, rfl⟩ := map_ok h
      exact ⟨w, rfl⟩

structure GoodLine (env : Env) (item : StringFilterItem) : Prop where
  written : valueText env item ≠ none
  parses : ParsesAs env (itemLine env item) item
  whole : nul ∉ itemLine env item ∧ ';' ∉ itemLine env item

theorem PlainName.whole (h : PlainName env op name) : nul ∉ name ∧ ';' ∉ name :=
  ⟨fun hc => h.chars _ hc (by decide), fun hc => h.chars _ hc (by decide)⟩

theorem opText_whole (op : StringFilterOp) : nul ∉ opText op ∧ ';' ∉ opText op := by
  cases op <;> decide

/-- An item that survives is rendered to a line that is parsed to the item. -/
theorem goodLine_of_survives (hnt : NumberTexts env) (hread : HasRead env item)
    (hscope : InScope item) (hs : ItemSurvives env item) : GoodLine env item := by
  obtain ⟨name, path, op, value⟩ := item
  obtain ⟨hname, hpath, hm, hvalue⟩ := hs
  obtain rfl : path = [] := hpath
  obtain ⟨rhs, hrhs⟩ := hread
  by_cases hu : op.isUnary = true
  · obtain rfl : value = none := rhsParse_unary hu hrhs
    have hline : itemLine env ⟨name, [], op, none⟩ = itemText op name [] := rfl
    cases op with
    | sfopExists => exact ⟨by simp [valueText], parse_exists hname, hname.whole⟩
    | sfopNotExists =>
      refine ⟨by simp [valueText], parse_notExists hname, ?_⟩
      simpa [hline, itemText, nul] using hname.whole
    | _ => cases hu
  · have hu' : op.isUnary = false := by simpa using hu
    obtain ⟨v, rfl⟩ : ∃ w, value = some w := rhsParse_binary hu' hrhs
    have hint : ∀ x, v = .number x → ∃ z : ℤ, x = z := by
      rintro x rfl
      exact hscope
    obtain ⟨text, ht⟩ := value_reads_back hnt hu' hm hrhs hint (hvalue v rfl)
    have hvt : valueText env ⟨name, [], op, some v⟩ = some text := by
      simp [valueText, hu', ht.written]
    have hline : itemLine env ⟨name, [], op, some v⟩ = itemText op name text := by
      simp [itemLine, hvt]
    refine ⟨by simp [hvt], ?_, ?_⟩
    · rw [hline]
      exact parse_binary hname hu' hm ht.stripped ht.nonempty ht.first ht.read
    · rw [hline, itemText_binary hu' hm]
      simp only [mem_append, not_or]
      exact ⟨⟨hname.whole.1, (opText_whole op).1, ht.whole.1⟩,
        hname.whole.2, (opText_whole op).2, ht.whole.2⟩

end StringFilterRoundTrip
