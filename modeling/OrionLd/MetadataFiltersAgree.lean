import OrionLd.FiltersAgree

/-! A filter of metadata in a subscription and in a query. Without the attribute no item holds in a
subscription, so that the absence of metadata is lost there. -/
namespace MetadataFiltersAgree

open MongoQuery (Bson reached)
open MongoLocation (ApiVersion)
open KjTree (Text eqForDot)
open StringFilter StringFilterItems StringFilterMatch StringFilterMongo FilterValuesAgree
open FiltersAgree List Option

variable {r : Reading} {a : AttributeDoc} {d : EntityDoc} {key name : Text}

theorem lookupByName_eq (hname : '.' ∉ name)
    (h : ∀ m ∈ addedMetadata r key, m.1 ≠ eqForDot name) :
    lookupByName (readAttribute r key a) name =
      (a.md.lookup name).map (readMembers (r.mdRest key name)) := by
  have hadded : (addedMetadata r key).find? (fun md => md.1 == eqForDot name) = none := by
    rw [List.find?_eq_none]
    intro m hm
    rw [beq_iff_eq]
    exact h m hm
  have hstored : ((OrderedMap.assignAll a.md).map fun f =>
      (eqForDot f.1, readMembers (r.mdRest key f.1) f.2)).find? (fun md => md.1 == eqForDot name) =
      (a.md.lookup name).map fun v => (eqForDot name, readMembers (r.mdRest key name) v) := by
    refine find_assigned a.mdOnce fun f hf => ?_
    rw [Bool.eq_iff_iff, beq_iff_eq, beq_iff_eq]
    exact eqForDot_inj (a.mdEncoded f hf) hname
  unfold lookupByName readAttribute
  rw [List.find?_append, hadded, Option.none_or, hstored, Option.map_map]
  rfl

variable {sur : Surroundings} {regex : Text → Text → Bool} {e : ContextElement} {item : FilterItem}

def attributeDate (a : AttributeDoc) (name : Text) : ℚ :=
  if name = dateCreated then a.creDate else a.modDate

def storedMetadata (d : EntityDoc) (item : FilterItem) : Option Bson :=
  (d.attrs.lookup item.attributeName).bind fun a => a.md.lookup item.metadataName

/-- The stored value that mqMatch compares, and what else its members hold. -/
def comparedMetadata (sur : Surroundings) (r : Reading) (d : EntityDoc) (item : FilterItem) :
    Option (Members × Bson) :=
  (d.attrs.lookup item.attributeName).bind fun a =>
    if isDateName item.metadataName then
      some (dateRest sur, .num (attributeDate a item.metadataName))
    else (a.md.lookup item.metadataName).map fun v =>
      (r.mdRest item.attributeName item.metadataName, v)

/-- As for filters of attributes; what is added to the stored metadata has other names, and a path
into a date leads nowhere. -/
structure Placed (sur : Surroundings) (r : Reading) (d : EntityDoc) (item : FilterItem) :
    Prop where
  named : Named d item.attributeName
  added : (d.attrs.lookup item.attributeName).isSome = true →
    ∀ m ∈ addedMetadata r item.attributeName, m.1 ≠ eqForDot item.metadataName
  intoDate : item.op.isUnary = false → item.compoundPath ≠ [] →
    isDateName item.metadataName = true → ∀ v, storedMetadata d item = some v →
    valuesAt item.compoundPath v = []
  path : item.op.isUnary = true → ∀ v, storedMetadata d item = some v →
    PathPlain item.compoundPath v
  value : item.op.isUnary = false → ∀ p, comparedMetadata sur r d item = some p →
    PathPlain item.compoundPath p.2

/-- The attribute is there when absence is asked for, dates are metadata too, and the kinds compared
agree. -/
structure ItemAgrees (sur : Surroundings) (regex : Text → Text → Bool) (r : Reading)
    (d : EntityDoc) (item : FilterItem) : Prop where
  stored : item.op = .sfopNotExists → (d.attrs.lookup item.attributeName).isSome = true
  date : item.op.isUnary = true → item.compoundPath = [] →
    isDateName item.metadataName = true → (d.attrs.lookup item.attributeName).isSome = true →
    (storedMetadata d item).isSome = true
  kinds : item.op.isUnary = false → ∀ p, comparedMetadata sur r d item = some p →
    ValueAgrees sur.regexec regex item p.1 p.2

theorem mongoLeft_date (date : Text) :
    mongoLeft .sftMq item = item.attributeName ++ ".md.".toList ++ date ↔
      item.metadataName = date :=
  append_right_inj _

theorem mongoLeft_ne_date {date : Text} (h : '.' ∉ date) : mongoLeft .sftMq item ≠ date := by
  intro heq
  apply h
  rw [← heq]
  unfold mongoLeft
  simp

theorem reached_mq (h : Accepted .sftMq item) : reached (mongoKey .sftMq item) d.toBson =
    if item.compoundPath = [] ∧ isDateName item.metadataName = true then
      (d.attrs.lookup item.attributeName).toList.map fun a =>
        .num (attributeDate a item.metadataName)
    else (storedMetadata d item).toList.flatMap (valuesAt item.compoundPath) := by
  have hkey : "attrs.".toList ++ mongoLeft .sftMq item ++ ".value".toList = "attrs.".toList ++
      item.attributeName ++ ".md.".toList ++ item.metadataName ++ ".value".toList := by
    unfold mongoLeft
    simp
  unfold mongoKey storedMetadata attributeDate
  by_cases hpath : item.compoundPath = []
  · simp only [hpath, ne_eq, not_true_eq_false, if_false, true_and, isDateName_iff]
    rw [if_neg (mongoLeft_ne_date (by decide)), if_neg (mongoLeft_ne_date (by decide))]
    simp only [mongoLeft_date]
    by_cases hcreated : item.metadataName = dateCreated
    · rw [if_pos hcreated, if_pos (.inl hcreated), reached_attr_creDate h.name]
      simp only [if_pos hcreated]
      cases d.attrs.lookup item.attributeName <;> rfl
    rw [if_neg hcreated]
    by_cases hmodified : item.metadataName = dateModified
    · rw [if_pos hmodified, if_pos (.inr hmodified), reached_attr_modDate h.name]
      simp only [if_neg hcreated]
      cases d.attrs.lookup item.attributeName <;> rfl
    rw [if_neg hmodified, if_neg (not_or.mpr ⟨hcreated, hmodified⟩), if_pos (h.given rfl).2,
      hkey, reached_md_value h.name h.metadata]
    exact (flatMap_singleton' _).symm
  · rw [if_pos hpath, if_neg fun hdate => hpath hdate.1, reached_md_item h.name h.metadata]
    unfold valuesAt pathNames
    simp only [if_neg hpath]

theorem mqMatch_unary (hop : item.op.isUnary = true) :
    mqMatchItem sur e item = ((getAttribute e item.attributeName).any fun ca =>
      unaryHolds item (lookupByName ca item.metadataName)) := by
  unfold mqMatchItem
  simp only [opHolds_unary hop]
  cases getAttribute e item.attributeName with
  | none => exact Bool.and_false _
  | some ca =>
    change (unaryHolds item (lookupByName ca item.metadataName) && _) = unaryHolds item _
    split_ifs with hdate hnot
    · exact Bool.and_true _
    · exact Bool.and_true _
    · cases hmd : lookupByName ca item.metadataName with
      | none =>
        rw [unaryHolds_eq hop, existsAt_none, beq_false_of_ne hnot]
        rfl
      | some m => simp only [hmd, Bool.and_true]

theorem unary_item_agrees (hp : Accepted .sftMq item) (h : Placed sur r d item)
    (hop : item.op.isUnary = true) :
    mqMatchItem sur (contextElement r d) item =
        conditionHolds regex item.op item.value (reached (mongoKey .sftMq item) d.toBson) ↔
      (item.op = .sfopNotExists → (d.attrs.lookup item.attributeName).isSome = true) ∧
      (item.compoundPath = [] → isDateName item.metadataName = true →
        (d.attrs.lookup item.attributeName).isSome = true →
        (storedMetadata d item).isSome = true) := by
  have hadded := h.added
  have hplain := h.path hop
  rw [mqMatch_unary hop, getAttribute_eq h.named, unary_holds hop, reached_mq hp]
  unfold storedMetadata at hplain ⊢
  cases ha : d.attrs.lookup item.attributeName with
  | none =>
    -- Only the absence of metadata holds of the document.
    simp only [toList_none, map_nil, bind_none, flatMap_nil, ite_self]
    cases hkind : item.op == .sfopNotExists with
    | true => exact iff_of_false Bool.false_ne_true fun hstored =>
        Bool.false_ne_true (hstored.1 (beq_iff_eq.mp hkind))
    | false => exact iff_of_true rfl ⟨fun heq => absurd heq (beq_eq_false_iff_ne.mp hkind), nofun⟩
  | some a =>
    rw [ha] at hadded hplain
    change unaryHolds item (lookupByName (readAttribute r item.attributeName a) _) = _ ↔ _
    rw [lookupByName_eq hp.metadata (hadded rfl), unaryHolds_eq hop]
    by_cases hdate : item.compoundPath = [] ∧ isDateName item.metadataName = true
    · rw [if_pos hdate, hdate.1, bind_some]
      cases a.md.lookup item.metadataName with
      | none => cases item.op == .sfopNotExists <;> simp [existsAt, hdate.2]
      | some v => exact iff_of_true rfl ⟨fun _ => rfl, fun _ _ _ => rfl⟩
    · rw [if_neg hdate, bind_some]
      refine iff_of_true ?_ ⟨fun _ => rfl, fun hpath hname => absurd ⟨hpath, hname⟩ hdate⟩
      refine congrArg (· == (item.op == .sfopNotExists)) ?_
      cases hv : a.md.lookup item.metadataName with
      | none => exact congrArg not (existsAt_none _)
      | some v =>
        have hplain : PathPlain item.compoundPath v := hplain v hv
        rw [toList_some, flatMap_singleton, valuesAt_eq hplain]
        refine (congrArg not (existsAt_read hplain.first)).trans ?_
        cases itemAt item.compoundPath v <;> rfl

theorem mqMatch_binary (hop : item.op.isUnary = false) (hp : Accepted .sftMq item)
    (h : Placed sur r d item) :
    mqMatchItem sur (contextElement r d) item = (comparedMetadata sur r d item).any fun p =>
      opHolds sur.regexec item (readMembers p.1 p.2) := by
  have hadded := h.added
  have hnot : item.op ≠ .sfopNotExists := by
    intro hkind
    rw [hkind] at hop
    cases hop
  unfold mqMatchItem comparedMetadata
  rw [unaryHolds_binary hop, Bool.true_and, getAttribute_eq h.named]
  simp only [if_neg hnot]
  cases ha : d.attrs.lookup item.attributeName with
  | none => rfl
  | some a =>
    rw [ha] at hadded
    rw [map_some, bind_some]
    dsimp only
    rw [lookupByName_eq hp.metadata (hadded rfl)]
    by_cases hdate : isDateName item.metadataName = true
    · rw [if_pos (isDateName_iff.mp hdate), if_pos hdate]
      rfl
    · rw [if_neg (mt isDateName_iff.mpr hdate), if_neg hdate]
      cases a.md.lookup item.metadataName <;> rfl

theorem binary_item_agrees (hp : Accepted .sftMq item) (h : Placed sur r d item)
    (hop : item.op.isUnary = false) :
    mqMatchItem sur (contextElement r d) item =
        conditionHolds regex item.op item.value (reached (mongoKey .sftMq item) d.toBson) ↔
      ∀ p, comparedMetadata sur r d item = some p → ValueAgrees sur.regexec regex item p.1 p.2 := by
  have hvalues : reached (mongoKey .sftMq item) d.toBson =
      (comparedMetadata sur r d item).toList.flatMap fun p => valuesAt item.compoundPath p.2 := by
    rw [reached_mq hp]
    have hinto := h.intoDate hop
    unfold comparedMetadata
    unfold storedMetadata at hinto ⊢
    cases ha : d.attrs.lookup item.attributeName with
    | none => exact ite_self _
    | some a =>
      rw [ha] at hinto
      simp only [bind_some] at hinto ⊢
      by_cases hname : isDateName item.metadataName = true
      · rw [if_pos hname]
        by_cases hpath : item.compoundPath = []
        · rw [if_pos ⟨hpath, hname⟩, hpath]
          rfl
        -- Neither goes on from a date.
        rw [if_neg fun hboth => hpath hboth.1]
        obtain ⟨name, names, hcons⟩ := exists_cons_of_ne_nil (pathNames_ne_nil hpath)
        have hnum : ∀ x, valuesAt item.compoundPath (.num x) = [] := by
          intro x
          unfold valuesAt
          rw [hcons]
          rfl
        rw [toList_some, flatMap_singleton, hnum]
        cases hv : a.md.lookup item.metadataName with
        | none => rfl
        | some v => exact (flatMap_singleton _ _).trans (hinto hpath hname v hv)
      · rw [if_neg fun hboth => hname hboth.2, if_neg hname]
        cases a.md.lookup item.metadataName <;> rfl
  rw [mqMatch_binary hop hp h, hvalues]
  exact compared_agrees hp.value hop (h.value hop)

theorem item_agrees (hp : Accepted .sftMq item) (h : Placed sur r d item) :
    mqMatchItem sur (contextElement r d) item =
        conditionHolds regex item.op item.value (reached (mongoKey .sftMq item) d.toBson) ↔
      ItemAgrees sur regex r d item := by
  cases hop : item.op.isUnary with
  | true =>
    have hbinary : item.op.isUnary ≠ false := ne_false_of_eq_true hop
    rw [unary_item_agrees hp h hop]
    exact ⟨fun hunary => ⟨hunary.1, fun _ => hunary.2, fun hf => absurd hf hbinary⟩,
      fun hitem => ⟨hitem.stored, hitem.date hop⟩⟩
  | false =>
    have hunary : item.op.isUnary ≠ true := ne_true_of_eq_false hop
    have hnot : item.op ≠ .sfopNotExists := by
      intro hkind
      rw [hkind] at hop
      cases hop
    rw [binary_item_agrees hp h hop]
    exact ⟨fun hkinds => ⟨fun heq => absurd heq hnot, fun ht => absurd ht hunary, fun _ => hkinds⟩,
      fun hitem => hitem.kinds hop⟩

variable {env : Env} {v : ApiVersion} {q : Text} {items : List FilterItem}

def measuredCar : EntityDoc where
  attrs := [("speed".toList, { plainAttribute (.num 7) with
    md := [("accuracy".toList, .num 3)]
    mdOnce := List.nodup_singleton _
    mdEncoded := List.forall_mem_singleton.mpr (by decide) })]
  creDate := 1
  modDate := 2
  once := List.nodup_singleton _

def speedMetadata (name : String) (op : StringFilterOp) (value : Option FilterValue) : FilterItem :=
  ⟨"speed.".toList ++ name.toList, "speed".toList, name.toList, [], op, value⟩

end MetadataFiltersAgree
