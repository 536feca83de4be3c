import OrionLd.MergeAttrInfo

/-! The metadata that mergeAttrInfo makes, with their dates. Those of the request are appended, then
those stored that the request does not name, which are read into a Metadata and written again. Names
are copied into buffers of 256 bytes, and what a text that does not fit leads to is left open. -/
namespace MergedMetadata

open KjTree MongoCppLegacyCodec SameJson CompoundValueDiffers MongoLocation List Option
open EntityDocument (Fields)
open KjTreeFromQueryContextResponse (metadataOf valueOfField addCompoundNode
  compoundObjectResponse compoundVectorResponse getStringField getNumberField)
open CustomMetadata
open MergeAttrInfo (ofBson)

structure State where
  apiVersion : ApiVersion
  requestTime : ℚ

structure StoredMetadata where
  fields : List (Text × Fields)
  once : (fields.map Prod.fst).Nodup

structure Appended where
  name : Text
  type : Text
  value : Option CompoundValueNode
  createdAt : ℚ

def isSpecialSubAttribute (mdName : Text) : Bool :=
  ["createdAt", "modifiedAt", "observedAt", "datasetId", "instanceId", "unitCode"].any
    fun name => name.toList == mdName

/-- strncpy of 255 bytes into a buffer of 256, whose last byte is not set. -/
def copied (name : Text) : Option Text := if name.length < 255 then some name else none

def sysAttrs (st : State) (mdP : Appended) : Fields :=
  if st.apiVersion = .ngsiLd ∧ !isSpecialSubAttribute mdP.name then
    (if mdP.createdAt = 0 then [("createdAt".toList, .double st.requestTime)] else []) ++
      [("modifiedAt".toList, .double st.requestTime)]
  else []

def bsonmd (st : State) (mdP : Appended) : Fields :=
  sysAttrs st mdP ++
    (if mdP.type = [] then [] else [("type".toList, .string mdP.type)]) ++
      (mdP.value.map fun c => ("value".toList, ofBson (compoundValueBson c))).toList

def appendMetadata (st : State) (mdP : Appended) : Option (Text × Fields) :=
  (copied mdP.name).map fun effectiveName => (dotForEq effectiveName, bsonmd st mdP)

def requestMetadata (v : ApiVersion) (mdP : KjTreeToContextAttribute.Metadata) : Appended :=
  ⟨mdP.name, metadataType (v == .v2) mdP, some mdP.value, 0⟩

def storedMetadata (currentMd : Text) (mdItem : Fields) : Appended :=
  let md := metadataOf currentMd mdItem
  ⟨md.name, md.type, md.value, md.createdAt⟩

def notIncluded (caP : ContextAttribute) : List (Text × Fields) → Option (List Appended)
  | [] => some []
  | (currentMd, mdItem) :: mds =>
    (copied currentMd).bind fun decodedMdName => (notIncluded caP mds).map fun appended =>
      if hasMetadata (eqForDot decodedMdName) caP then appended
      else storedMetadata currentMd mdItem :: appended

def included (st : State) (v : ApiVersion) (caP : ContextAttribute) : List Appended :=
  (caP.metadataVector.filter fun mdP => !isNotCustomMetadata st.apiVersion mdP.name).map
    (requestMetadata v)

def mergeMetadata (st : State) (v : ApiVersion) (onlyValue : Bool) (attr : StoredMetadata)
    (caP : ContextAttribute) : Option (List (Text × Fields) × List Text) := do
  let stored ←
    if v ≠ .v2 ∨ onlyValue then notIncluded caP (OrderedMap.assignAll attr.fields) else some []
  let appended := included st v caP ++ stored
  let mdBuilder ← appended.mapM (appendMetadata st)
  some (mdBuilder, appended.map Appended.name)

def Unnamed (caP : ContextAttribute) (key : Text) : Prop := hasMetadata (eqForDot key) caP = false

def SameValue (value value' : BsonValue) : Prop :=
  value = value' ∨
    ∃ q, numberOf (jsonOfBson value) = some q ∧ numberOf (jsonOfBson value') = some q

structure SameMetadata (doc doc' : Fields) : Prop where
  type : getStringField doc' "type" = getStringField doc "type"
  value : Option.Rel SameValue (doc'.lookup "value".toList) (doc.lookup "value".toList)
  createdAt : getNumberField doc' "createdAt" = getNumberField doc "createdAt"
  modifiedAt : getNumberField doc' "modifiedAt" = getNumberField doc "modifiedAt"

variable (st : State) (v : ApiVersion) (attr : StoredMetadata) (caP : ContextAttribute)

structure Survive (md : List (Text × Fields)) (mdNames : List Text) : Prop where
  stored : ∀ f ∈ attr.fields, Unnamed caP f.1 → ∃ doc, (f.1, doc) ∈ md ∧ SameMetadata f.2 doc
  requested : ∀ mdP ∈ caP.metadataVector, ∃ doc, (dotForEq mdP.name, doc) ∈ md ∧
    getStringField doc "type" = metadataType (v == .v2) mdP ∧
      doc.lookup "value".toList = some (ofBson (compoundValueBson mdP.value))
  mdNames : mdNames = md.map fun f => eqForDot f.1

def MetadataSurvive (onlyValue : Bool) : Prop :=
  ∃ md mdNames, mergeMetadata st v onlyValue attr caP = some (md, mdNames) ∧
    Survive v attr caP md mdNames

mutual
def Plain : BsonValue → Prop
  | .int32 _ => False
  | .int64 _ => False
  | .array items => PlainItems items
  | .object fields => PlainFields fields
  | _ => True
def PlainItems : List BsonValue → Prop
  | [] => True
  | item :: items => Plain item ∧ PlainItems items
def PlainFields : Fields → Prop
  | [] => True
  | (name, value) :: fields => '.' ∉ name ∧ Plain value ∧ PlainFields fields
end

def Rewritable : BsonValue → Prop
  | .int32 _ => True
  | value => Plain value

structure Undated (key : Text) (doc : Fields) : Prop where
  createdAt : getNumberField doc "createdAt" = 0
  modifiedAt : getNumberField doc "modifiedAt" = 0
  untouched : st.apiVersion = .ngsiLd → isSpecialSubAttribute key = true ∨ st.requestTime = 0

structure Intact : Prop where
  requested : ∀ mdP ∈ caP.metadataVector, isNotCustomMetadata st.apiVersion mdP.name = false ∧
    '=' ∉ mdP.name ∧ mdP.name.length < 255
  keys : ∀ f ∈ attr.fields, f.1.length < 255
  names : ∀ f ∈ attr.fields, Unnamed caP f.1 → '=' ∉ f.1 ∧ '.' ∉ f.1
  values : ∀ f ∈ attr.fields, Unnamed caP f.1 →
    ∀ value ∈ f.2.lookup "value".toList, Rewritable value
  dates : ∀ f ∈ attr.fields, Unnamed caP f.1 → Undated st f.1 f.2

mutual
theorem plain_written : ∀ c : CompoundValueNode, Plain (ofBson (compoundValueBson c))
  | .string _ => trivial
  | .number _ => trivial
  | .boolean _ => trivial
  | .null => trivial
  | .vector items => plain_writtenItems items
  | .object members => plain_writtenFields members
theorem plain_writtenItems : ∀ items : List CompoundValueNode,
    PlainItems (MergeAttrInfo.ofBsonItems (compoundValueBsonItems items))
  | [] => trivial
  | item :: items => ⟨plain_written item, plain_writtenItems items⟩
theorem plain_writtenFields : ∀ members : List (Text × CompoundValueNode),
    PlainFields (MergeAttrInfo.ofBsonFields (compoundValueBsonMembers members))
  | [] => trivial
  | (name, node) :: members =>
    ⟨dot_notMem_dotForEq name, plain_written node, plain_writtenFields members⟩
end

mutual
theorem written_of_plain : ∀ value, Plain value →
    ∃ c, addCompoundNode value = some c ∧ ofBson (compoundValueBson c) = value
  | .string s, _ => ⟨.string s, rfl, rfl⟩
  | .bool b, _ => ⟨.boolean b, rfl, rfl⟩
  | .double x, _ => ⟨.number x, rfl, rfl⟩
  | .null, _ => ⟨.null, rfl, rfl⟩
  | .int32 _, h => h.elim
  | .int64 _, h => h.elim
  | .array items, h => ⟨_, rfl, congrArg BsonValue.array (written_of_plainItems items h)⟩
  | .object fields, h => ⟨_, rfl, congrArg BsonValue.object (written_of_plainFields fields h)⟩
theorem written_of_plainItems : ∀ items, PlainItems items →
    MergeAttrInfo.ofBsonItems (compoundValueBsonItems (compoundVectorResponse items)) = items
  | [], _ => rfl
  | item :: items, h => by
    obtain ⟨c, hread, hwritten⟩ := written_of_plain item h.1
    rw [compoundVectorResponse, hread, toList_some, singleton_append,
      compoundValueBsonItems, MergeAttrInfo.ofBsonItems, hwritten,
      written_of_plainItems items h.2]
theorem written_of_plainFields : ∀ fields, PlainFields fields →
    MergeAttrInfo.ofBsonFields (compoundValueBsonMembers (compoundObjectResponse fields)) = fields
  | [], _ => rfl
  | (name, value) :: fields, h => by
    obtain ⟨c, hread, hwritten⟩ := written_of_plain value h.2.1
    rw [compoundObjectResponse, hread, map_some, toList_some,
      singleton_append, compoundValueBsonMembers, MergeAttrInfo.ofBsonFields, hwritten,
      written_of_plainFields fields h.2.2, dotForEq_eqForDot, dotForEq_of_dotless h.1]
end

theorem same_of_plain {value : BsonValue} (h : Plain value) :
    ∃ c, addCompoundNode value = some c ∧ SameValue (ofBson (compoundValueBson c)) value := by
  obtain ⟨c, hread, hwritten⟩ := written_of_plain value h
  exact ⟨c, hread, .inl hwritten⟩

theorem plain_of_same {c : CompoundValueNode} {value : BsonValue}
    (hnumber : numberOf (jsonOfBson value) = none)
    (h : SameValue (ofBson (compoundValueBson c)) value) : Plain value := by
  rcases h with h | ⟨q, -, hq⟩
  · exact h ▸ plain_written c
  · rw [hnumber] at hq
    cases hq

theorem rewritten_iff (value : BsonValue) :
    (∃ c, valueOfField value = some c ∧ SameValue (ofBson (compoundValueBson c)) value) ↔
      Rewritable value := by
  cases value with
  | int32 i =>
    refine iff_of_true ⟨.number i.toInt, rfl, .inr ⟨i.toInt, rfl, rfl⟩⟩ trivial
  | int64 i =>
    refine iff_of_false ?_ id
    rintro ⟨c, hread, -⟩
    cases hread
  | double x => exact iff_of_true (same_of_plain (show Plain (.double x) from trivial)) trivial
  | string s => exact iff_of_true (same_of_plain (show Plain (.string s) from trivial)) trivial
  | bool b => exact iff_of_true (same_of_plain (show Plain (.bool b) from trivial)) trivial
  | null => exact iff_of_true (same_of_plain (show Plain (.null) from trivial)) trivial
  | array items | object fields =>
    exact ⟨fun ⟨_, _, hsame⟩ => plain_of_same rfl hsame, fun h => same_of_plain h⟩

variable {st : State} {mdP : Appended} {key : Text} {doc : Fields}

theorem sysAttrs_lookup (k : Text) (hc : k ≠ "createdAt".toList) (hm : k ≠ "modifiedAt".toList) :
    (sysAttrs st mdP).lookup k = none := by
  refine lookup_eq_none_iff.mpr fun f hf => ?_
  have hname : f.1 = "createdAt".toList ∨ f.1 = "modifiedAt".toList := by
    unfold sysAttrs at hf
    split at hf
    · rcases mem_append.mp hf with hf | hf
      · split at hf
        · exact .inl (congrArg Prod.fst (mem_singleton.mp hf))
        · cases hf
      · exact .inr (congrArg Prod.fst (mem_singleton.mp hf))
    · cases hf
  rcases hname with hname | hname
  · simpa [hname] using hc
  · simpa [hname] using hm

theorem bsonmd_type : getStringField (bsonmd st mdP) "type" = mdP.type := by
  unfold getStringField bsonmd
  rw [append_assoc, lookup_append,
    sysAttrs_lookup _ (toList_ne (by decide)) (toList_ne (by decide)), none_or]
  by_cases htype : mdP.type = []
  · rw [if_pos htype, htype]
    cases mdP.value <;> rfl
  · rw [if_neg htype]
    rfl

theorem bsonmd_value : (bsonmd st mdP).lookup "value".toList =
    mdP.value.map fun c => ofBson (compoundValueBson c) := by
  unfold bsonmd
  rw [append_assoc, lookup_append,
    sysAttrs_lookup _ (toList_ne (by decide)) (toList_ne (by decide)), none_or,
    lookup_append]
  have htype : (if mdP.type = [] then ([] : Fields)
      else [("type".toList, .string mdP.type)]).lookup "value".toList = none := by
    split <;> rfl
  rw [htype, none_or]
  cases mdP.value <;> rfl

theorem bsonmd_date (name : String) (hname : name.toList ≠ "type".toList)
    (hvalue : name.toList ≠ "value".toList) :
    getNumberField (bsonmd st mdP) name = getNumberField (sysAttrs st mdP) name := by
  have htype : ((if mdP.type = [] then ([] : Fields) else [("type".toList, .string mdP.type)]) ++
      (mdP.value.map fun c => ("value".toList, ofBson (compoundValueBson c))).toList).lookup
        name.toList = none := by
    rw [lookup_append]
    have hfirst : (if mdP.type = [] then ([] : Fields)
        else [("type".toList, .string mdP.type)]).lookup name.toList = none := by
      split
      · rfl
      · rw [lookup_cons, beq_false_of_ne hname]
        rfl
    rw [hfirst, none_or]
    cases mdP.value with
    | none => rfl
    | some c =>
      rw [map_some, toList_some, lookup_cons, beq_false_of_ne hvalue]
      rfl
  unfold getNumberField bsonmd
  rw [append_assoc, lookup_append, htype, or_none]

theorem bsonmd_createdAt : getNumberField (bsonmd st mdP) "createdAt" =
    if st.apiVersion = .ngsiLd ∧ !isSpecialSubAttribute mdP.name then
      if mdP.createdAt = 0 then st.requestTime else 0
    else 0 := by
  rw [bsonmd_date _ (toList_ne (by decide)) (toList_ne (by decide)), sysAttrs]
  split
  · split <;> rfl
  · rfl

theorem bsonmd_modifiedAt : getNumberField (bsonmd st mdP) "modifiedAt" =
    if st.apiVersion = .ngsiLd ∧ !isSpecialSubAttribute mdP.name then st.requestTime else 0 := by
  rw [bsonmd_date _ (toList_ne (by decide)) (toList_ne (by decide)), sysAttrs]
  split
  · split <;> rfl
  · rfl

theorem dates_kept_iff :
    (getNumberField (bsonmd st (storedMetadata key doc)) "createdAt" =
        getNumberField doc "createdAt" ∧
      getNumberField (bsonmd st (storedMetadata key doc)) "modifiedAt" =
        getNumberField doc "modifiedAt") ↔ Undated st key doc := by
  have hname : (storedMetadata key doc).name = key := rfl
  have hcreated : (storedMetadata key doc).createdAt = getNumberField doc "createdAt" := rfl
  rw [bsonmd_createdAt, bsonmd_modifiedAt, hname, hcreated]
  generalize hc : getNumberField doc "createdAt" = c
  generalize hm : getNumberField doc "modifiedAt" = m
  by_cases hdated : st.apiVersion = .ngsiLd ∧ !isSpecialSubAttribute key
  · rw [if_pos hdated, if_pos hdated]
    obtain ⟨hld, hspecial⟩ := hdated
    have hspecial : ¬ isSpecialSubAttribute key = true := by simpa using hspecial
    constructor
    · rintro ⟨hcreatedAt, hmodifiedAt⟩
      have hc0 : c = 0 := by
        by_contra hne
        rw [if_neg hne] at hcreatedAt
        exact hne hcreatedAt.symm
      rw [if_pos hc0] at hcreatedAt
      have htime : st.requestTime = 0 := hcreatedAt.trans hc0
      exact ⟨hc.trans hc0, hm.trans (hmodifiedAt.symm.trans htime), fun _ => .inr htime⟩
    · rintro ⟨hc0, hm0, huntouched⟩
      have htime := (huntouched hld).resolve_left hspecial
      rw [hc] at hc0
      rw [hm] at hm0
      rw [if_pos hc0, htime, hc0, hm0]
      exact ⟨rfl, rfl⟩
  · rw [if_neg hdated, if_neg hdated]
    constructor
    · rintro ⟨hc0, hm0⟩
      refine ⟨hc.trans hc0.symm, hm.trans hm0.symm, fun hld => .inl ?_⟩
      by_contra hspecial
      exact hdated ⟨hld, by simpa using hspecial⟩
    · rintro ⟨hc0, hm0, -⟩
      exact ⟨hc0.symm.trans hc, hm0.symm.trans hm⟩

theorem values_kept_iff :
    Option.Rel SameValue ((bsonmd st (storedMetadata key doc)).lookup "value".toList)
        (doc.lookup "value".toList) ↔
      ∀ value ∈ doc.lookup "value".toList, Rewritable value := by
  have hvalue : (storedMetadata key doc).value =
      (doc.lookup "value".toList).bind valueOfField := rfl
  rw [bsonmd_value, hvalue]
  cases doc.lookup "value".toList with
  | none =>
    refine iff_of_true ?_ fun _ h => nomatch h
    exact .none
  | some value =>
    rw [bind_some]
    constructor
    · intro hrel value' hvalue'
      obtain rfl : value = value' := some.inj hvalue'
      refine (rewritten_iff value).mp ?_
      cases hread : valueOfField value with
      | none =>
        rw [hread] at hrel
        cases hrel
      | some c =>
        rw [hread] at hrel
        cases hrel with
        | some hsame => exact ⟨c, rfl, hsame⟩
    · intro h
      obtain ⟨c, hread, hsame⟩ := (rewritten_iff value).mpr (h value rfl)
      rw [hread]
      exact .some hsame

theorem sameMetadata_iff : SameMetadata doc (bsonmd st (storedMetadata key doc)) ↔
    (∀ value ∈ doc.lookup "value".toList, Rewritable value) ∧ Undated st key doc := by
  constructor
  · exact fun h => ⟨values_kept_iff.mp h.value, dates_kept_iff.mp ⟨h.createdAt, h.modifiedAt⟩⟩
  · rintro ⟨hvalue, hdates⟩
    obtain ⟨hcreated, hmodified⟩ := dates_kept_iff.mpr hdates
    exact ⟨bsonmd_type, values_kept_iff.mpr hvalue, hcreated, hmodified⟩

section

variable {v : ApiVersion} {onlyValue : Bool} {attr : StoredMetadata} {caP : ContextAttribute}

def notIncludedOf (caP : ContextAttribute) (mds : List (Text × Fields)) : List Appended :=
  (mds.filter fun f => !hasMetadata (eqForDot f.1) caP).map fun f => storedMetadata f.1 f.2

def appendedOf (st : State) (v : ApiVersion) (attr : StoredMetadata) (caP : ContextAttribute) :
    List Appended :=
  included st v caP ++ notIncludedOf caP (OrderedMap.assignAll attr.fields)

variable {name : Text} {mdP : KjTreeToContextAttribute.Metadata} {f : Text × Fields} {a : Appended}

theorem copied_eq_some {name' : Text} :
    copied name = some name' ↔ name.length < 255 ∧ name' = name := by
  unfold copied
  split
  · rename_i h
    simp [h, eq_comm]
  · rename_i h
    simp [h]

variable {appended : List Appended} {md : List (Text × Fields)}

theorem notIncluded_eq_some {mds : List (Text × Fields)} : notIncluded caP mds = some appended ↔
      (∀ f ∈ mds, f.1.length < 255) ∧ appended = notIncludedOf caP mds := by
  induction mds generalizing appended with
  | nil => simp [notIncluded, notIncludedOf, eq_comm]
  | cons f mds ih =>
    obtain ⟨currentMd, mdItem⟩ := f
    rw [notIncluded, bind_eq_some_iff, forall_mem_cons]
    have hcons : notIncludedOf caP ((currentMd, mdItem) :: mds) =
        if hasMetadata (eqForDot currentMd) caP then notIncludedOf caP mds
        else storedMetadata currentMd mdItem :: notIncludedOf caP mds := by
      unfold notIncludedOf
      rw [filter_cons]
      cases hasMetadata (eqForDot currentMd) caP <;> rfl
    rw [hcons]
    constructor
    · rintro ⟨decodedMdName, hcopied, h⟩
      obtain ⟨hshort, rfl⟩ := copied_eq_some.mp hcopied
      obtain ⟨rest, hrest, rfl⟩ := map_eq_some_iff.mp h
      obtain ⟨hshorts, rfl⟩ := ih.mp hrest
      exact ⟨⟨hshort, hshorts⟩, rfl⟩
    · rintro ⟨⟨hshort, hshorts⟩, rfl⟩
      exact ⟨currentMd, copied_eq_some.mpr ⟨hshort, rfl⟩,
        map_eq_some_iff.mpr ⟨_, ih.mpr ⟨hshorts, rfl⟩, rfl⟩⟩

theorem appendMetadata_eq_some {mdP : Appended} : appendMetadata st mdP = some f ↔
      mdP.name.length < 255 ∧ f = (dotForEq mdP.name, bsonmd st mdP) := by
  unfold appendMetadata
  rw [map_eq_some_iff]
  constructor
  · rintro ⟨name, hcopied, rfl⟩
    obtain ⟨hshort, rfl⟩ := copied_eq_some.mp hcopied
    exact ⟨hshort, rfl⟩
  · rintro ⟨hshort, rfl⟩
    exact ⟨_, copied_eq_some.mpr ⟨hshort, rfl⟩, rfl⟩

theorem appendAll_eq_some :
    appended.mapM (appendMetadata st) = some md ↔ (∀ a ∈ appended, a.name.length < 255) ∧
      md = appended.map fun a => (dotForEq a.name, bsonmd st a) := by
  rw [Fallible.mapM_eq_some]
  induction appended generalizing md with
  | nil => simp [forall₂_nil_left_iff]
  | cons a appended ih =>
    rw [forall₂_cons_left_iff, forall_mem_cons, map_cons]
    constructor
    · rintro ⟨f, rest, ha, hrest, rfl⟩
      obtain ⟨hshort, rfl⟩ := appendMetadata_eq_some.mp ha
      obtain ⟨hshorts, rfl⟩ := ih.mp hrest
      exact ⟨⟨hshort, hshorts⟩, rfl⟩
    · rintro ⟨⟨hshort, hshorts⟩, rfl⟩
      exact ⟨_, _, appendMetadata_eq_some.mpr ⟨hshort, rfl⟩, ih.mpr ⟨hshorts, rfl⟩, rfl⟩

theorem mem_sorted : f ∈ OrderedMap.assignAll attr.fields ↔ f ∈ attr.fields :=
  (OrderedMap.assignAll_perm attr.once).mem_iff

theorem mergeMetadata_eq_some (hv : v ≠ .v2 ∨ onlyValue = true) {mdNames : List Text} :
    mergeMetadata st v onlyValue attr caP = some (md, mdNames) ↔
      (∀ f ∈ attr.fields, f.1.length < 255) ∧
      (∀ a ∈ appendedOf st v attr caP, a.name.length < 255) ∧
      md = (appendedOf st v attr caP).map (fun a => (dotForEq a.name, bsonmd st a)) ∧
      mdNames = (appendedOf st v attr caP).map Appended.name := by
  unfold mergeMetadata
  rw [if_pos hv]
  constructor
  · intro h
    obtain ⟨stored, hstored, h⟩ := bind_eq_some_iff.mp h
    obtain ⟨hkeys, rfl⟩ := notIncluded_eq_some.mp hstored
    obtain ⟨mdBuilder, hbuilder, h⟩ := bind_eq_some_iff.mp h
    obtain ⟨hshort, rfl⟩ := appendAll_eq_some.mp hbuilder
    cases h
    exact ⟨fun f hf => hkeys f (mem_sorted.mpr hf), hshort, rfl, rfl⟩
  · rintro ⟨hkeys, hshort, rfl, rfl⟩
    refine bind_eq_some_iff.mpr ⟨_, notIncluded_eq_some.mpr
      ⟨fun f hf => hkeys f (mem_sorted.mp hf), rfl⟩, ?_⟩
    exact bind_eq_some_iff.mpr ⟨_, appendAll_eq_some.mpr ⟨hshort, rfl⟩, rfl⟩

theorem mem_appendedOf : a ∈ appendedOf st v attr caP ↔
    (∃ mdP ∈ caP.metadataVector, isNotCustomMetadata st.apiVersion mdP.name = false ∧
      a = requestMetadata v mdP) ∨
    ∃ f ∈ attr.fields, Unnamed caP f.1 ∧ a = storedMetadata f.1 f.2 := by
  unfold appendedOf included notIncludedOf Unnamed
  simp only [List.mem_append, List.mem_map, List.mem_filter, mem_sorted, Bool.not_eq_true']
  constructor
  · rintro (⟨mdP, ⟨hmem, hcustom⟩, rfl⟩ | ⟨f, ⟨hmem, hnamed⟩, rfl⟩)
    · exact Or.inl ⟨mdP, hmem, hcustom, rfl⟩
    · exact Or.inr ⟨f, hmem, hnamed, rfl⟩
  · rintro (⟨mdP, hmem, hcustom, rfl⟩ | ⟨f, hmem, hnamed, rfl⟩)
    · exact Or.inl ⟨mdP, ⟨hmem, hcustom⟩, rfl⟩
    · exact Or.inr ⟨f, ⟨hmem, hnamed⟩, rfl⟩

theorem named_of_mem (h : mdP ∈ caP.metadataVector) :
    hasMetadata mdP.name caP = true := List.any_eq_true.mpr ⟨mdP, h, beq_self_eq_true _⟩

theorem builtin_undecoded (h : isNotCustomMetadata st.apiVersion name = true) :
    '=' ∉ name ∧ '.' ∉ name := by
  have hname : name ∈ ["ID", "dateCreated", "dateModified", "location"].map String.toList := by
    unfold isNotCustomMetadata at h
    simp only [Bool.or_eq_true, Bool.and_eq_true, beq_iff_eq] at h
    rcases h with ((rfl | rfl) | rfl) | ⟨-, rfl⟩ <;> decide
  have hnone : ∀ n ∈ ["ID", "dateCreated", "dateModified", "location"].map String.toList,
      '=' ∉ n ∧ '.' ∉ n := by decide
  exact hnone name hname

theorem eqForDot_of (h : '=' ∉ name) : eqForDot name = name :=
  (AttributeNames.eqForDot_eq_self_iff name).mpr h

theorem name_of_key (h : '=' ∉ name) (hkey : dotForEq name = key) : name = eqForDot key := by
  rw [← hkey, (AttributeNames.key_decodes_iff name).mpr h]

variable (hnames : ∀ a ∈ appendedOf st v attr caP, '=' ∉ a.name)

include hnames

theorem appended_of_key (hf : f ∈ attr.fields) (hunnamed : Unnamed caP f.1)
    (ha : a ∈ appendedOf st v attr caP) (hkey : dotForEq a.name = f.1) :
    a = storedMetadata f.1 f.2 := by
  have hown : '=' ∉ f.1 := hnames _ (mem_appendedOf.mpr (.inr ⟨f, hf, hunnamed, rfl⟩))
  have hname : a.name = f.1 := (name_of_key (hnames a ha) hkey).trans (eqForDot_of hown)
  rcases mem_appendedOf.mp ha with ⟨mdP, hmem, -, rfl⟩ | ⟨g, hg, -, rfl⟩
  · have hnamed := named_of_mem hmem
    rw [show mdP.name = f.1 from hname] at hnamed
    rw [Unnamed, eqForDot_of hown, hnamed] at hunnamed
    cases hunnamed
  · have hsame : g = f := inj_on_of_nodup_map attr.once hg hf hname
    rw [hsame]

theorem custom_of_key (hmem : mdP ∈ caP.metadataVector) (ha : a ∈ appendedOf st v attr caP)
    (hkey : dotForEq a.name = dotForEq mdP.name) :
    isNotCustomMetadata st.apiVersion mdP.name = false := by
  by_contra hbuiltin
  have hbuiltin := Bool.not_eq_false _ ▸ hbuiltin
  obtain ⟨heq, hdot⟩ := builtin_undecoded hbuiltin
  have hname : a.name = mdP.name := by
    rw [name_of_key (hnames a ha) hkey, dotForEq_of_dotless hdot, eqForDot_of heq]
  rcases mem_appendedOf.mp ha with ⟨mdP', -, hcustom, rfl⟩ | ⟨g, -, hunnamed, rfl⟩
  · rw [show mdP'.name = mdP.name from hname, hbuiltin] at hcustom
    cases hcustom
  · rw [Unnamed, show g.1 = mdP.name from hname, eqForDot_of heq, named_of_mem hmem] at hunnamed
    cases hunnamed

omit hnames

theorem names_iff : (appendedOf st v attr caP).map Appended.name =
    ((appendedOf st v attr caP).map fun a => (dotForEq a.name, bsonmd st a)).map
      (fun f => eqForDot f.1) ↔ ∀ a ∈ appendedOf st v attr caP, '=' ∉ a.name := by
  rw [List.map_map, List.map_inj_left]
  exact forall₂_congr fun a _ => eq_comm.trans (AttributeNames.key_decodes_iff a.name)

theorem intact_of_survive (hv : v ≠ .v2 ∨ onlyValue = true)
    (h : MetadataSurvive st v attr caP onlyValue) : Intact st attr caP := by
  obtain ⟨md, mdNames, hmerge, hsurvive⟩ := h
  obtain ⟨hkeys, hshort, rfl, rfl⟩ := (mergeMetadata_eq_some hv).mp hmerge
  have hnames := names_iff.mp hsurvive.mdNames
  have hstored : ∀ f ∈ attr.fields, Unnamed caP f.1 →
      '.' ∉ f.1 ∧ SameMetadata f.2 (bsonmd st (storedMetadata f.1 f.2)) := by
    intro f hf hunnamed
    obtain ⟨doc, hdoc, hsame⟩ := hsurvive.stored f hf hunnamed
    obtain ⟨a, ha, hadoc⟩ := mem_map.mp hdoc
    obtain ⟨hkey, rfl⟩ := Prod.mk.inj hadoc
    refine ⟨hkey ▸ dot_notMem_dotForEq a.name, ?_⟩
    rw [appended_of_key hnames hf hunnamed ha hkey] at hsame
    exact hsame
  refine ⟨fun mdP hmem => ?_, hkeys, fun f hf hunnamed => ⟨?_, (hstored f hf hunnamed).1⟩,
    fun f hf hunnamed => (sameMetadata_iff.mp (hstored f hf hunnamed).2).1,
    fun f hf hunnamed => (sameMetadata_iff.mp (hstored f hf hunnamed).2).2⟩
  · obtain ⟨doc, hdoc, -⟩ := hsurvive.requested mdP hmem
    obtain ⟨a, ha, hadoc⟩ := mem_map.mp hdoc
    have hcustom := custom_of_key hnames hmem ha (Prod.mk.inj hadoc).1
    have hown : requestMetadata v mdP ∈ appendedOf st v attr caP :=
      mem_appendedOf.mpr (.inl ⟨mdP, hmem, hcustom, rfl⟩)
    exact ⟨hcustom, hnames _ hown, hshort _ hown⟩
  · exact hnames _ (mem_appendedOf.mpr (.inr ⟨f, hf, hunnamed, rfl⟩))

theorem survive_of_intact (hv : v ≠ .v2 ∨ onlyValue = true) (h : Intact st attr caP) :
    MetadataSurvive st v attr caP onlyValue := by
  have happended : ∀ a ∈ appendedOf st v attr caP, '=' ∉ a.name ∧ a.name.length < 255 := by
    intro a ha
    rcases mem_appendedOf.mp ha with ⟨mdP, hmem, -, rfl⟩ | ⟨f, hf, hunnamed, rfl⟩
    · exact (h.requested mdP hmem).2
    · exact ⟨(h.names f hf hunnamed).1, h.keys f hf⟩
  refine ⟨_, _, (mergeMetadata_eq_some hv).mpr ⟨h.keys, fun a ha => (happended a ha).2, rfl, rfl⟩,
    ⟨fun f hf hunnamed => ?_, fun mdP hmem => ?_, names_iff.mpr fun a ha => (happended a ha).1⟩⟩
  · refine ⟨bsonmd st (storedMetadata f.1 f.2), mem_map.mpr ⟨storedMetadata f.1 f.2,
      mem_appendedOf.mpr (.inr ⟨f, hf, hunnamed, rfl⟩), Prod.ext ?_ rfl⟩,
      sameMetadata_iff.mpr ⟨h.values f hf hunnamed, h.dates f hf hunnamed⟩⟩
    exact dotForEq_of_dotless (h.names f hf hunnamed).2
  · exact ⟨bsonmd st (requestMetadata v mdP), mem_map.mpr ⟨requestMetadata v mdP,
      mem_appendedOf.mpr (.inl ⟨mdP, hmem, (h.requested mdP hmem).1, rfl⟩), rfl⟩,
      bsonmd_type, bsonmd_value⟩

/-- The metadata survive an update exactly under these conditions on the stored attribute and on
the request. -/
theorem metadata_survive_iff (hv : v ≠ .v2 ∨ onlyValue = true) :
    MetadataSurvive st v attr caP onlyValue ↔ Intact st attr caP :=
  ⟨intact_of_survive hv, survive_of_intact hv⟩

end

def accuracyOf (dates : Fields) : StoredMetadata where
  fields := [("accuracy".toList,
    [("type".toList, .string "Property".toList), ("value".toList, .double 5)] ++ dates)]
  once := List.nodup_singleton _

def unitRequest : ContextAttribute :=
  ⟨"speed".toList, "Property".toList, true, .number, [], 80, false, none,
    [⟨"unit".toList, "Property".toList, .string "km".toList⟩]⟩

/-- An NGSIv1 request leaves a metadata without dates as it is. -/
theorem accuracy_survives :
    MetadataSurvive ⟨.v1, 7⟩ .v1 (accuracyOf []) unitRequest false := by
  refine (metadata_survive_iff (.inl (by decide))).mpr ⟨?_, ?_, ?_, ?_, ?_⟩
  · intro mdP hmem
    obtain rfl := mem_singleton.mp hmem
    exact ⟨rfl, by decide, by decide⟩
  · intro f hf
    obtain rfl := mem_singleton.mp hf
    decide
  · intro f hf _
    obtain rfl := mem_singleton.mp hf
    exact ⟨by decide, by decide⟩
  · intro f hf _ value hvalue
    obtain rfl := mem_singleton.mp hf
    cases hvalue
    trivial
  · intro f hf _
    obtain rfl := mem_singleton.mp hf
    exact ⟨rfl, rfl, fun h => nomatch h⟩

/-- An NGSI-LD request loses the creation date of a metadata that it does not name. -/
theorem createdAt_lost :
    ¬ MetadataSurvive ⟨.ngsiLd, 7⟩ .ngsiLd (accuracyOf [("createdAt".toList, .double 3),
      ("modifiedAt".toList, .double 3)]) unitRequest false := by
  intro h
  have hdates := (intact_of_survive (.inl (by decide)) h).dates _ mem_cons_self rfl
  have hcreatedAt : (3 : ℚ) = 0 := hdates.createdAt
  norm_num at hcreatedAt

end MergedMetadata
