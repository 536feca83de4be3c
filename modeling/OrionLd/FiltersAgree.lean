import OrionLd.FilterValuesAgree
import OrionLd.KjTreeFromQueryContextResponse

/-! A filter of attributes selects the same entities in a subscription and in a query, item by
item, where its names lead to the same value in the stored document and in what is read of it,
and no equality is claimed of a member that the value has not set. -/
namespace FiltersAgree

open MongoQuery (Bson reached)
open MongoLocation (ApiVersion)
open KjTree (Text eqForDot)
open KjTreeFromQueryContextResponse (splitId)
open StringFilter StringFilterItems StringFilterMatch StringFilterMongo FilterValuesAgree List

/-- What the members hold that no value sets, and the attributes with the location as a metadata,
only in NGSIv1. -/
structure Reading where
  rest : Text → Members
  mdRest : Text → Text → Members
  located : Text → Bool

variable (r : Reading)

def shownName (key : Text) : Text := eqForDot (splitId key).1

def stringMetadata (key name value : Text) : Text × Members :=
  (name, readMembers (r.mdRest key name) (.str value))

def addedMetadata (key : Text) : List (Text × Members) :=
  ((splitId key).2.map (stringMetadata r key "ID".toList)).toList ++
    if r.located key then [stringMetadata r key "location".toList "WGS84".toList] else []

def readAttribute (key : Text) (a : AttributeDoc) : CerAttribute where
  name := shownName key
  members := readMembers (r.rest key) a.value
  metadataVector := addedMetadata r key ++
    (OrderedMap.assignAll a.md).map fun f => (eqForDot f.1, readMembers (r.mdRest key f.1) f.2)
  creDate := a.creDate
  modDate := a.modDate

def contextElement (d : EntityDoc) : ContextElement where
  contextAttributeVector := (OrderedMap.assignAll d.attrs).map fun f => readAttribute r f.1 f.2
  creDate := d.creDate
  modDate := d.modDate

variable {r} {d : EntityDoc} {n : Text}
variable {α : Type}

theorem find_perm {l l' : List α} {p : α → Bool} (hperm : l'.Perm l)
    (h : ∀ x ∈ l, ∀ y ∈ l, p x = true → p y = true → x = y) : l'.find? p = l.find? p := by
  cases hl : l.find? p with
  | none =>
    rw [List.find?_eq_none] at hl ⊢
    exact fun x hx => hl x (hperm.subset hx)
  | some x =>
    cases hl' : l'.find? p with
    | none =>
      have hx : x ∈ l' := hperm.symm.subset (mem_of_find?_eq_some hl)
      exact absurd (List.find?_some hl) (List.find?_eq_none.mp hl' x hx)
    | some y =>
      have hy : y ∈ l := hperm.subset (mem_of_find?_eq_some hl')
      rw [h y hy x (mem_of_find?_eq_some hl) (List.find?_some hl') (List.find?_some hl)]

theorem find_key {l : List (Text × α)} {p : Text × α → Bool} (h : ∀ f ∈ l, p f = (f.1 == n)) :
    l.find? p = (l.lookup n).map (Prod.mk n) := by
  induction l with
  | nil => rfl
  | cons f l ih =>
    obtain ⟨hf, hrest⟩ := forall_mem_cons.mp h
    rw [List.find?_cons, lookup_cons, hf, BEq.comm, ih hrest]
    cases hn : n == f.1 with
    | false => rfl
    | true =>
      obtain rfl := beq_iff_eq.mp hn
      rfl

theorem find_assigned {β : Type} {l : List (Text × α)} {g : Text × α → β} {p : β → Bool}
    (hnodup : (l.map Prod.fst).Nodup) (h : ∀ f ∈ l, p (g f) = (f.1 == n)) :
    ((OrderedMap.assignAll l).map g).find? p = (l.lookup n).map fun a => g (n, a) := by
  have hkey : l.find? (p ∘ g) = (l.lookup n).map (Prod.mk n) := find_key h
  rw [List.find?_map, find_perm (OrderedMap.assignAll_perm hnodup), hkey, Option.map_map]
  · rfl
  · intro x hx y hy hpx hpy
    apply inj_on_of_nodup_map hnodup hx hy
    rw [Function.comp_apply, h x hx, beq_iff_eq] at hpx
    rw [Function.comp_apply, h y hy, beq_iff_eq] at hpy
    rw [hpx, hpy]

/-- Of the attributes that are stored, the first one that counts as one of the name is the one of
exactly the name. -/
def Named (d : EntityDoc) (n : Text) : Prop :=
  (OrderedMap.assignAll d.attrs).find? (fun f => eqCmp (shownName f.1) n) =
    (d.attrs.lookup n).map (Prod.mk n)

theorem getAttribute_eq (h : Named d n) :
    getAttribute (contextElement r d) n = (d.attrs.lookup n).map (readAttribute r n) := by
  have hfind : getAttribute (contextElement r d) n =
      ((OrderedMap.assignAll d.attrs).find? fun f => eqCmp (shownName f.1) n).map
        fun f => readAttribute r f.1 f.2 := List.find?_map
  rw [hfind, h, Option.map_map]
  rfl

variable {sur : Surroundings} {regex : Text → Text → Bool} {e : ContextElement} {item : FilterItem}

def dateOf (d : EntityDoc) (name : Text) : ℚ :=
  if name = dateCreated then d.creDate else d.modDate

/-- What the members of a date hold besides the date. -/
def dateRest (sur : Surroundings) : Members := ⟨.number, [], 0, sur.unset, none⟩

def comparedValue (sur : Surroundings) (r : Reading) (d : EntityDoc) (item : FilterItem) :
    Option (Members × Bson) :=
  if isDateName item.left then some (dateRest sur, .num (dateOf d item.left))
  else (d.attrs.lookup item.attributeName).map fun a => (r.rest item.attributeName, a.value)

/-- One attribute alone has the name of an item, none is taken for the date of the entity, and a
path has the same steps. -/
structure Placed (sur : Surroundings) (r : Reading) (d : EntityDoc) (item : FilterItem) :
    Prop where
  named : item.op.isUnary = true ∨ isDateName item.left = false → Named d item.attributeName
  binaryDate : item.op.isUnary = false → item.compoundPath = [] →
    isDateName (cLeft item) = true → isDateName item.left = true
  path : item.op.isUnary = true → ∀ a, d.attrs.lookup item.attributeName = some a →
    PathPlain item.compoundPath a.value
  value : item.op.isUnary = false → ∀ p, comparedValue sur r d item = some p →
    PathPlain item.compoundPath p.2

/-- A date that is looked for is an attribute too, and a comparison is of kinds that agree. -/
structure ItemAgrees (sur : Surroundings) (regex : Text → Text → Bool) (r : Reading)
    (d : EntityDoc) (item : FilterItem) : Prop where
  date : item.op.isUnary = true → item.compoundPath = [] →
    isDateName item.attributeName = true → (d.attrs.lookup item.attributeName).isSome = true
  kinds : item.op.isUnary = false → ∀ p, comparedValue sur r d item = some p →
    ValueAgrees sur.regexec regex item p.1 p.2

theorem isDateName_iff {name : Text} :
    isDateName name = true ↔ name = dateCreated ∨ name = dateModified := by
  unfold isDateName
  rw [Bool.or_eq_true, beq_iff_eq, beq_iff_eq]

theorem opHolds_unary (hop : item.op.isUnary = true) (regexec : Text → Text → Bool)
    (m : Members) : opHolds regexec item m = true := by
  unfold opHolds
  cases hkind : item.op with
  | sfopExists => rfl
  | sfopNotExists => rfl
  | _ =>
    rw [hkind] at hop
    cases hop

theorem existsAt_none (path : Text) : existsAt path none = false := by
  unfold existsAt
  split <;> rfl

theorem qMatch_unary (hop : item.op.isUnary = true) :
    qMatchItem sur e item =
      unaryHolds item ((getAttribute e item.attributeName).map CerAttribute.members) := by
  unfold qMatchItem
  simp only [opHolds_unary hop]
  split_ifs with hdate hnot
  · exact Bool.and_true _
  · exact Bool.and_true _
  · have hkind : item.op = .sfopExists := by
      cases hkind : item.op with
      | sfopExists => rfl
      | sfopNotExists => exact absurd hkind hnot
      | _ =>
        rw [hkind] at hop
        cases hop
    unfold unaryHolds
    rw [hkind]
    cases getAttribute e item.attributeName with
    | none => exact (Bool.and_false _).trans (existsAt_none item.compoundPath).symm
    | some ca => exact Bool.and_true _

theorem dot_notMem_mongoLeft (h : ParsedItem .sftQ item) : '.' ∉ mongoLeft .sftQ item := by
  unfold mongoLeft
  split_ifs
  · exact h.name
  · exact dot_notMem_cut _

theorem reached_q (h : ParsedItem .sftQ item) : reached (mongoKey .sftQ item) d.toBson =
    if item.compoundPath = [] ∧ isDateName (mongoLeft .sftQ item) = true then
      [.num (dateOf d (mongoLeft .sftQ item))]
    else (d.attrs.lookup item.attributeName).toList.flatMap fun a =>
      valuesAt item.compoundPath a.value := by
  have hmd : ∀ date : Text, mongoLeft .sftQ item ≠ item.attributeName ++ ".md.".toList ++ date := by
    intro date heq
    apply dot_notMem_mongoLeft h
    rw [heq]
    simp
  unfold mongoKey valuesAt pathNames dateOf
  by_cases hpath : item.compoundPath = []
  · simp only [hpath, ne_eq, not_true_eq_false, if_false, true_and, if_true, isDateName_iff]
    by_cases hcreated : mongoLeft .sftQ item = dateCreated
    · rw [if_pos hcreated, if_pos (.inl hcreated), if_pos hcreated, reached_creDate]
    rw [if_neg hcreated]
    by_cases hmodified : mongoLeft .sftQ item = dateModified
    · rw [if_pos hmodified, if_pos (.inr hmodified), if_neg hcreated, reached_modDate]
    rw [if_neg hmodified, if_neg (not_or.mpr ⟨hcreated, hmodified⟩), if_neg (hmd _),
      if_neg (hmd _), if_neg (not_not.mpr (h.noMetadata rfl)), reached_value h.name]
    cases d.attrs.lookup item.attributeName <;> rfl
  · rw [if_pos hpath, if_neg fun hdate => hpath hdate.1, reached_item h.name]
    simp only [if_neg hpath]

theorem unaryHolds_eq (hop : item.op.isUnary = true) (m : Option Members) :
    unaryHolds item m = ((!existsAt item.compoundPath m) == (item.op == .sfopNotExists)) := by
  unfold unaryHolds
  cases hkind : item.op with
  | sfopExists | sfopNotExists => cases existsAt item.compoundPath m <;> rfl
  | _ =>
    rw [hkind] at hop
    cases hop

theorem unary_item_agrees (hp : ParsedItem .sftQ item) (h : Placed sur r d item)
    (hop : item.op.isUnary = true) :
    qMatchItem sur (contextElement r d) item =
        conditionHolds regex item.op item.value (reached (mongoKey .sftQ item) d.toBson) ↔
      (item.compoundPath = [] → isDateName item.attributeName = true →
        (d.attrs.lookup item.attributeName).isSome = true) := by
  have hleft : mongoLeft .sftQ item = item.attributeName := if_pos hop
  rw [qMatch_unary hop, getAttribute_eq (h.named (.inl hop)), unaryHolds_eq hop, unary_holds hop,
    reached_q hp, hleft]
  by_cases hdate : item.compoundPath = [] ∧ isDateName item.attributeName = true
  · rw [if_pos hdate, hdate.1]
    cases d.attrs.lookup item.attributeName with
    | none => cases item.op == .sfopNotExists <;> simp [existsAt, hdate.2]
    | some a => exact iff_of_true rfl fun _ _ => rfl
  · rw [if_neg hdate]
    refine iff_of_true ?_ fun hpath hname => absurd ⟨hpath, hname⟩ hdate
    refine congrArg (· == (item.op == .sfopNotExists)) ?_
    cases ha : d.attrs.lookup item.attributeName with
    | none => exact congrArg not (existsAt_none _)
    | some a =>
      have hplain : PathPlain item.compoundPath a.value := h.path hop a ha
      rw [Option.toList_some, flatMap_singleton, valuesAt_eq hplain]
      refine (congrArg not (existsAt_read hplain.first)).trans ?_
      cases itemAt item.compoundPath a.value <;> rfl

theorem unaryHolds_binary (hop : item.op.isUnary = false) (m : Option Members) :
    unaryHolds item m = true := by
  unfold unaryHolds
  cases hkind : item.op with
  | sfopExists | sfopNotExists =>
    rw [hkind] at hop
    cases hop
  | _ => rfl

theorem qMatch_binary (hop : item.op.isUnary = false)
    (h : isDateName item.left = false → Named d item.attributeName) :
    qMatchItem sur (contextElement r d) item = (comparedValue sur r d item).any fun p =>
      opHolds sur.regexec item (readMembers p.1 p.2) := by
  have hnot : item.op ≠ .sfopNotExists := by
    intro hkind
    rw [hkind] at hop
    cases hop
  unfold qMatchItem comparedValue
  rw [unaryHolds_binary hop, Bool.true_and, if_neg hnot]
  by_cases hdate : isDateName item.left = true
  · rw [if_pos (isDateName_iff.mp hdate), if_pos hdate]
    rfl
  · rw [if_neg (mt isDateName_iff.mpr hdate), if_neg hdate,
      getAttribute_eq (h (Bool.eq_false_iff.mpr hdate))]
    cases d.attrs.lookup item.attributeName <;> rfl

theorem cutAtDot_date {left : Text} (h : isDateName left = true) :
    cutAtDot (lhsDotToEqualIfInsideQuote false left) = (left, []) := by
  rcases isDateName_iff.mp h with rfl | rfl
  · decide
  · decide

theorem compared_agrees {compared : Option (Members × Bson)} {regexec : Text → Text → Bool}
    (hv : OpTakes item.op item.value) (hop : item.op.isUnary = false)
    (h : ∀ p, compared = some p → PathPlain item.compoundPath p.2) :
    (compared.any fun p => opHolds regexec item (readMembers p.1 p.2)) =
        conditionHolds regex item.op item.value
          (compared.toList.flatMap fun p => valuesAt item.compoundPath p.2) ↔
      ∀ p, compared = some p → ValueAgrees regexec regex item p.1 p.2 := by
  cases compared with
  | none =>
    refine iff_of_true ?_ nofun
    change false = conditionHolds regex item.op item.value []
    rw [condition_none hv]
    cases hkind : item.op <;> first | rfl | (rw [hkind] at hop; cases hop)
  | some p =>
    change opHolds regexec item (readMembers p.1 p.2) = _ ↔ _
    rw [Option.toList_some, flatMap_singleton, binary_agrees (h p rfl) hv hop]
    constructor
    · rintro hagrees p' ⟨⟩
      exact hagrees
    · intro hagrees
      exact hagrees p rfl

theorem binary_item_agrees (hp : ParsedItem .sftQ item) (h : Placed sur r d item)
    (hop : item.op.isUnary = false) :
    qMatchItem sur (contextElement r d) item =
        conditionHolds regex item.op item.value (reached (mongoKey .sftQ item) d.toBson) ↔
      ∀ p, comparedValue sur r d item = some p → ValueAgrees sur.regexec regex item p.1 p.2 := by
  have hleft : mongoLeft .sftQ item = cLeft item := if_neg (by rw [hop]; exact Bool.false_ne_true)
  have hvalues : reached (mongoKey .sftQ item) d.toBson =
      (comparedValue sur r d item).toList.flatMap fun p => valuesAt item.compoundPath p.2 := by
    rw [reached_q hp, hleft]
    unfold comparedValue
    by_cases hdate : isDateName item.left = true
    · have hcut := cutAtDot_date hdate
      have hpath : item.compoundPath = [] := hp.path.trans (congrArg Prod.snd hcut)
      have hc : cLeft item = item.left := congrArg Prod.fst hcut
      rw [hc, if_pos ⟨hpath, hdate⟩, if_pos hdate, hpath]
      rfl
    · rw [if_neg fun hboth => hdate (h.binaryDate hop hboth.1 hboth.2), if_neg hdate]
      cases d.attrs.lookup item.attributeName <;> rfl
  rw [qMatch_binary hop fun hdate => h.named (.inr hdate), hvalues]
  exact compared_agrees hp.value hop (h.value hop)

theorem item_agrees (hp : ParsedItem .sftQ item) (h : Placed sur r d item) :
    qMatchItem sur (contextElement r d) item =
        conditionHolds regex item.op item.value (reached (mongoKey .sftQ item) d.toBson) ↔
      ItemAgrees sur regex r d item := by
  cases hop : item.op.isUnary with
  | true =>
    have hbinary : item.op.isUnary ≠ false := ne_false_of_eq_true hop
    rw [unary_item_agrees hp h hop]
    exact ⟨fun hdate => ⟨fun _ => hdate, fun hf => absurd hf hbinary⟩, fun hitem => hitem.date hop⟩
  | false =>
    have hunary : item.op.isUnary ≠ true := ne_true_of_eq_false hop
    rw [binary_item_agrees hp h hop]
    exact ⟨fun hkinds => ⟨fun ht => absurd ht hunary, fun _ => hkinds⟩,
      fun hitem => hitem.kinds hop⟩

variable {env : Env} {v : ApiVersion} {q : Text} {items : List FilterItem}

/-- The items up to the first one that does not hold. -/
def lookedAt (holds : FilterItem → Bool) : List FilterItem → List FilterItem
  | [] => []
  | item :: items => item :: if holds item then lookedAt holds items else []

/-- If all items hold, all agree, and otherwise one does not hold in a subscription either. -/
structure AllAlike (holds : FilterItem → Bool) (agrees : FilterItem → Prop)
    (items : List FilterItem) : Prop where
  all : (∀ item ∈ items, holds item = true) → ∀ item ∈ items, agrees item
  some : (∃ item ∈ items, holds item = false) →
    ∃ item ∈ items, agrees item ↔ holds item = false

variable {p p' : FilterItem → Bool} {agrees agrees' : FilterItem → Prop}

theorem mem_of_lookedAt (h : item ∈ lookedAt p items) : item ∈ items := by
  induction items with
  | nil => exact h
  | cons first items ih =>
    rcases mem_cons.mp h with rfl | h
    · exact mem_cons_self
    split at h
    · exact mem_cons_of_mem first (ih h)
    · cases h

theorem AllAlike.congr (h : ∀ item ∈ items, agrees item ↔ agrees' item) :
    AllAlike p agrees items ↔ AllAlike p agrees' items := by
  have half : ∀ {agrees agrees' : FilterItem → Prop}, (∀ item ∈ items, agrees item ↔ agrees' item) →
      AllAlike p agrees items → AllAlike p agrees' items := by
    intro agrees agrees' h hall
    refine ⟨fun hp item hmem => (h item hmem).mp (hall.all hp item hmem), fun hno => ?_⟩
    obtain ⟨item, hmem, hiff⟩ := hall.some hno
    exact ⟨item, hmem, (h item hmem).symm.trans hiff⟩
  exact ⟨half h, half fun item hmem => (h item hmem).symm⟩

theorem all_agree (h : ∀ item ∈ lookedAt p' items, p item = p' item) :
    items.all p = items.all p' := by
  induction items with
  | nil => rfl
  | cons item items ih =>
    obtain ⟨hitem, hrest⟩ := forall_mem_cons.mp h
    rw [all_cons, all_cons, hitem]
    cases hp : p' item with
    | false => rfl
    | true =>
      rw [if_pos hp] at hrest
      rw [ih hrest]

theorem all_agree_iff :
    items.all p = items.all p' ↔ AllAlike p' (fun item => p item = p' item) items := by
  by_cases hall : ∀ item ∈ items, p' item = true
  · rw [all_eq_true.mpr hall, all_eq_true]
    constructor
    · intro hp
      refine ⟨fun _ item hmem => (hp item hmem).trans (hall item hmem).symm, ?_⟩
      rintro ⟨item, hmem, hno⟩
      rw [hall item hmem] at hno
      cases hno
    · intro h item hmem
      exact (h.all hall item hmem).trans (hall item hmem)
  · push Not at hall
    obtain ⟨item, hmem, hno⟩ := hall
    have hnone : items.all p' = false :=
      all_eq_false.mpr ⟨item, hmem, hno⟩
    rw [hnone, all_eq_false]
    constructor
    · rintro ⟨item', hmem', hp⟩
      refine ⟨fun hall => absurd (hall item hmem) hno, fun _ => ⟨item', hmem', ?_⟩⟩
      rw [Bool.eq_false_iff.mpr hp]
      exact eq_comm
    · intro h
      obtain ⟨item', hmem', hiff⟩ := h.some ⟨item, hmem, Bool.eq_false_iff.mpr hno⟩
      refine ⟨item', hmem', fun hp => ?_⟩
      rw [hp] at hiff
      cases hp' : p' item' with
      | true => exact Bool.noConfusion ((hiff.mp hp'.symm).symm.trans hp')
      | false => exact Bool.noConfusion ((hiff.mpr hp').trans hp')

theorem satisfies_item (regex : Text → Text → Bool) (t : StringFilterType) (item : FilterItem)
    (d : EntityDoc) : satisfies regex t [item] d =
      conditionHolds regex item.op item.value (reached (mongoKey t item) d.toBson) := by
  rw [satisfies_eq, all_cons, all_nil, Bool.and_true]

def bareEnv : Env where
  core := []
  context := []
  defaultUrl := []
  str2double := fun s =>
    if s ≠ [] ∧ s.all Char.isDigit then some (Nat.ofDigitChars 10 s 0 : ℚ) else none
  parse8601Time := fun _ => none
  regcomp := fun _ => true
  kFloatTrim := id

def bareReading : Reading where
  rest := fun _ => ⟨.notGiven, [], 0, false, none⟩
  mdRest := fun _ _ => ⟨.notGiven, [], 0, false, none⟩
  located := fun _ => false

def bareSurroundings : Surroundings := ⟨fun _ _ => true, false⟩

def plainAttribute (value : Bson) : AttributeDoc := ⟨value, [], 1, 2, List.nodup_nil, nofun⟩

def carWith (speed : Bson) : EntityDoc :=
  ⟨[("speed".toList, plainAttribute speed)], 1, 2, List.nodup_singleton _⟩

def speedItem (op : StringFilterOp) (value : FilterValue) : FilterItem :=
  ⟨"speed".toList, "speed".toList, [], [], op, some value⟩

def notTowed : FilterItem := ⟨"towed".toList, "towed".toList, [], [], .sfopNotExists, none⟩

end FiltersAgree
