import OrionLd.EntityAttributes

/-! The converse for attributes: one whose members have names of their own is shown alike by
both answers only if its value and its sub-attributes are. The names tell which member of one
answer stands against which member of the other. -/
namespace EntityAttributesShown

open KjTree OrionldContextItem MongoCppLegacyCodec RegistrationDocument EntityDocument
open MongoCppLegacyEntityRetrieve KjTreeFromQueryContextResponse SameJson EntityValues
open EntityAttributes List Option

variable {env : DateEnv} {o : Options} {mayBeCompacted : Bool}

variable {value : BsonValue} {n node z : KjNode} {key : Text} {md : StoredMetadata}

theorem datedAs_scalar {name : Text} (hn : bsonToKjTree value = some n)
    (hz : listedValue env mayBeCompacted value = some z)
    (h : Same (datedAs env name n) (datedAs env name z)) (hscalar : isCompound value = false) :
    Same n z := by
  unfold datedAs at h
  cases value with
  | array items => cases hscalar
  | object fields => cases hscalar
  | int64 i => cases hn
  | double x | int32 i =>
    cases hn
    cases hz
    exact .number rfl rfl
  | _ =>
    cases hn
    cases hz
    split at h <;> exact h

variable (env) in
theorem listed_of_read (h : bsonToKjTree value = some n) (mayBeCompacted : Bool) :
    ∃ z, listedValue env mayBeCompacted value = some z := by
  cases value with
  | int64 i => cases h
  | _ => exact ⟨_, rfl⟩

theorem unwrapped_typed (hn : bsonToKjTree md.value = some n) (htype : md.type ≠ [])
    (hname : isUnwrapped (orionldContextItemAliasLookup env.toContexts (eqForDot key)) = true)
    (hfix : metadataFix env (key, .object (metadataTree md)) =
    some ((orionldContextItemAliasLookup env.toContexts (eqForDot key), node), true)) :
    ∀ ms, node ≠ .object ms := by
  have hfirst : ∃ first, firstChild (.object (metadataTree md)) = some first ∧
      ∀ ms, timestampToString env first ≠ .object ms ∧ first ≠ .object ms := by
    rw [metadataTree_eq hn, if_neg htype]
    obtain ⟨createdAt, modifiedAt, type, value⟩ := md
    cases createdAt <;> cases modifiedAt
    all_goals exact ⟨_, rfl, fun ms => ⟨nofun, nofun⟩⟩
  obtain ⟨first, hfirst, hnot⟩ := hfirst
  unfold metadataFix at hfix
  dsimp only at hfix
  rw [hfirst] at hfix
  intro ms
  split at hfix
  · have hnode := (Prod.mk.inj (Prod.mk.inj (some.inj hfix)).1).2
    exact hnode ▸ (hnot ms).1
  rename_i hobserved
  rw [if_pos ((unwrapped_iff.mp hname).resolve_left hobserved)] at hfix
  have hnode := (Prod.mk.inj (Prod.mk.inj (some.inj hfix)).1).2
  exact hnode ▸ (hnot ms).2

variable (env) (o) in
theorem retrievedMetadata_names (md : StoredMetadata) (n : KjNode) :
    ((retrievedMetadata env o md n).map Prod.fst).Sublist
      ["createdAt".toList, "modifiedAt".toList, "type".toList, valueFieldName md.type] := by
  have hdate : ∀ (name : String) (date : Option ℚ),
      ((dateMember env name date).map Prod.fst).Sublist [name.toList] := by
    intro name date
    cases date with
    | none => exact nil_sublist _
    | some x => exact List.Sublist.refl _
  unfold retrievedMetadata
  rw [map_append]
  change List.Sublist _ (["createdAt".toList, "modifiedAt".toList] ++
    ["type".toList, valueFieldName md.type])
  refine List.Sublist.append ?_ (List.Sublist.refl _)
  split
  · rw [map_append]
    exact (hdate "createdAt" _).append (hdate "modifiedAt" _)
  · exact nil_sublist _

theorem same_typed {field : Text} (hfield : field = "value".toList ∨ field = valueFieldName md.type)
    (h : Same (.object (retrievedMetadata env o md n)) (.object (("type".toList,
    .string md.type) :: orionldSysAttrs env o (md.createdAt.getD 0) (md.modifiedAt.getD 0) ++
    [(field, z)]))) : (o.sysAttrs = true → md.createdAt.isSome ∧ md.modifiedAt.isSome) ∧
      field = valueFieldName md.type ∧ Same n z := by
  rw [same_object_iff] at h
  have hvf : valueFieldName md.type = "object".toList ∨
      valueFieldName md.type = "value".toList := by
    unfold valueFieldName
    split
    · exact .inl rfl
    · exact .inr rfl
  have hnames := objectRel_names h
  have hsub := retrievedMetadata_names env o md n
  have hnodup : ((retrievedMetadata env o md n).map Prod.fst).Nodup := by
    refine hsub.nodup ?_
    rcases hvf with hvf | hvf <;> (rw [hvf]; decide)
  have hsame : field = valueFieldName md.type := by
    refine hfield.elim (fun hvalue => ?_) id
    have hfound := hnames.mem_iff.mpr (mem_map_of_mem (f := Prod.fst)
      (mem_append_right _ (mem_singleton_self (field, z))))
    rcases hvf with hvf | hvf
    · have hlisted : field ∈ _ := hsub.subset hfound
      rw [hvalue, hvf] at hlisted
      exact absurd hlisted (by decide)
    · rw [hvalue, hvf]
  refine ⟨?_, hsame, ?_⟩
  · intro hsys
    have hlength := objectRel_length h
    unfold retrievedMetadata orionldSysAttrs at hlength
    rw [hsys] at hlength
    cases hcreated : md.createdAt <;> cases hmodified : md.modifiedAt
    all_goals
      rw [hcreated, hmodified] at hlength
      simp [dateMember] at hlength ⊢
  · rw [hsame] at h
    apply objectRel_value h hnodup
    · exact mem_append_right _ (mem_cons_of_mem _ mem_cons_self)
    · exact mem_append_right _ (mem_singleton_self _)

theorem onMembers_self {change : Members → Members} (h : ∀ ms, node ≠ .object ms) :
    onMembers change node = node := by
  cases node with
  | object ms => exact absurd rfl (h ms)
  | _ => rfl

variable (env) (o) in
theorem listed_typed (key : Text) (h : md.type ≠ []) :
    (metadataNode env o (listedMetadata (key, md))).1 = metadataName env (eqForDot key) ∧
      ∃ ms, (metadataNode env o (listedMetadata (key, md))).2 = .object ms := by
  rw [listedMetadata_eq]
  unfold metadataNode
  rw [if_pos h]
  exact ⟨rfl, _, rfl⟩

theorem datedAs_compound {name : Text} {w : KjNode}
    (hw : listedValue env mayBeCompacted value = some w) (h : isCompound value = true) :
    numberOf (datedAs env name w) = none := by
  unfold datedAs
  cases value with
  | array items | object fields =>
    cases hw
    split
    · rfl
    · rfl
  | _ => cases h

variable (env) (o) in
theorem listed_name (hn : bsonToKjTree md.value = some n) :
    (metadataNode env o (listedMetadata (key, md))).1 = metadataName env (eqForDot key) ∨
      ((metadataNode env o (listedMetadata (key, md))).1 = "value".toList ∧
        numberOf (metadataNode env o (listedMetadata (key, md))).2 = none) := by
  by_cases htype : md.type = []
  · obtain ⟨w, hw⟩ := listed_of_read env hn (metadataMayBeCompacted env (eqForDot key))
    rw [metadataNode_untyped htype hw]
    cases hcompound : isCompound md.value with
    | false => exact .inl rfl
    | true =>
      exact .inr ⟨rfl, datedAs_compound hw hcompound⟩
  · exact .inl (listed_typed env o key htype).1

theorem metadata_same_alike (hagree : metadataName env (eqForDot key) =
    orionldContextItemAliasLookup env.toContexts (eqForDot key))
    (hvalue : orionldContextItemAliasLookup env.toContexts (eqForDot key) ≠ "value".toList)
    (hstamp : orionldContextItemAliasLookup env.toContexts (eqForDot key) ∉ stampNames)
    (hundated : md.type = [] → md.createdAt = none ∧ md.modifiedAt = none) (hone : OneEach md.value)
    (hn : bsonToKjTree md.value = some n) (hfix : metadataFix env (key, .object (metadataTree md)) =
    some ((orionldContextItemAliasLookup env.toContexts (eqForDot key), node), true))
    (hnode : metadataNode env o (listedMetadata (key, md)) =
    (orionldContextItemAliasLookup env.toContexts (eqForDot key), z))
    (hsame : Same (onMembers (stampsFix env o) node) z) : MetadataAlike env o key md := by
  obtain ⟨w, hw⟩ := listed_of_read env hn (metadataMayBeCompacted env (eqForDot key))
  unfold MetadataAlike
  dsimp only
  cases hname : isUnwrapped (orionldContextItemAliasLookup env.toContexts (eqForDot key)) with
  | true =>
    rw [if_pos rfl]
    by_cases htype : md.type = []
    · obtain ⟨hcreated, hmodified⟩ := hundated htype
      rw [metadataFix_unwrapped hn hname ⟨htype, hcreated, hmodified⟩] at hfix
      rw [metadataNode_untyped htype hw, hagree] at hnode
      obtain ⟨hshown, hz⟩ := Prod.mk.inj hnode
      have hscalar : isCompound md.value = false := by
        by_contra hcompound
        rw [if_pos (Bool.of_not_eq_false hcompound)] at hshown
        exact hvalue hshown.symm
      have hdated := (Prod.mk.inj (Prod.mk.inj (some.inj hfix)).1).2
      rw [← hdated, unwrapped_shown hn hscalar, ← hz] at hsame
      have hscalars := datedAs_scalar hn hw hsame hscalar
      exact ⟨sub_same_value hone ⟨n, w, hn, hw, hscalars⟩, htype, hcreated, hmodified, hscalar⟩
    · have hnot := unwrapped_typed hn htype hname hfix
      rw [onMembers_self hnot] at hsame
      obtain ⟨-, ms, hms⟩ := listed_typed env o key htype
      rw [hnode] at hms
      obtain rfl : z = .object ms := hms
      obtain ⟨ms', hms', -⟩ := same_object_right.mp hsame
      exact absurd hms' (hnot ms')
  | false =>
    rw [if_neg (by decide)]
    rw [metadataFix_wrapped hn hname] at hfix
    split at hfix
    · cases (Prod.mk.inj (some.inj hfix)).2
    rename_i htype
    have htyped := (Prod.mk.inj (Prod.mk.inj (some.inj hfix)).1).2
    rw [← htyped, typedNode_shown hn htype] at hsame
    have hobserved : metadataName env (eqForDot key) ≠ "observedAt".toList := by
      intro h
      rw [hagree] at h
      exact Bool.eq_false_iff.mp hname (unwrapped_iff.mpr (.inl h))
    rw [metadataNode_typed htype hobserved hw] at hnode
    rw [← (Prod.mk.inj hnode).2] at hsame
    obtain ⟨hdates, hfield, hvalues⟩ := same_typed (by split <;> simp) hsame
    refine ⟨sub_same_value hone ⟨n, w, hn, hw, hvalues⟩, htype, ?_, ?_⟩
    · intro hcompound hrel
      rw [if_pos hcompound, hrel] at hfield
      exact absurd hfield (by decide)
    · split
      · rename_i hsys
        exact hdates hsys
      · exact hstamp

theorem metadataFix_name {m fixed : Text × KjNode} {goesOn : Bool}
    (h : metadataFix env m = some (fixed, goesOn)) :
    fixed.1 = orionldContextItemAliasLookup env.toContexts (eqForDot m.1) := by
  unfold metadataFix at h
  dsimp only at h
  split at h
  · obtain ⟨node, -, hnode⟩ := map_eq_some_iff.mp h
    exact (congrArg Prod.fst (Prod.mk.inj hnode).1).symm
  split at h
  · obtain ⟨node, -, hnode⟩ := map_eq_some_iff.mp h
    exact (congrArg Prod.fst (Prod.mk.inj hnode).1).symm
  split at h
  · split at h <;> exact (congrArg Prod.fst (Prod.mk.inj (some.inj h)).1).symm
  · exact (congrArg Prod.fst (Prod.mk.inj (some.inj h)).1).symm

theorem metadatasFix_done {md fixed : Members} (h : metadatasFix env md = some (fixed, true)) :
    List.Forall₂ (fun m x => metadataFix env m = some (x, true)) md fixed := by
  induction md generalizing fixed with
  | nil =>
    obtain rfl := (Prod.mk.inj (some.inj h)).1
    exact .nil
  | cons m md ih =>
    obtain ⟨⟨first, goesOn⟩, hfirst, h⟩ := bind_eq_some_iff.mp h
    cases goesOn with
    | false => cases (Prod.mk.inj (some.inj h)).2
    | true =>
      obtain ⟨⟨rest, done⟩, hfix, h⟩ := bind_eq_some_iff.mp h
      cases h
      exact .cons hfirst (ih hfix)

/-- A sub-attribute has no 64-bit integer for its value, and no dates without a type. -/
structure Regular (env : DateEnv) (key : Text) (a : StoredAttribute) : Prop where
  noId : (splitId key).2 = none
  names : (["md".toList, "type".toList, "value".toList, "object".toList, "createdAt".toList,
    "modifiedAt".toList] ++ a.md.map fun m =>
      orionldContextItemAliasLookup env.toContexts (eqForDot m.1)).Nodup
  once : OneEach a.value
  read : ∀ m ∈ a.md, ∃ n, bsonToKjTree m.2.value = some n
  mdOnce : ∀ m ∈ a.md, OneEach m.2.value
  undated : ∀ m ∈ a.md, m.2.type = [] → m.2.createdAt = none ∧ m.2.modifiedAt = none

variable {a : StoredAttribute}
variable {m : Text × StoredMetadata}

theorem Regular.reserved (h : Regular env key a) (hm : m ∈ a.md) :
    orionldContextItemAliasLookup env.toContexts (eqForDot m.1) ∉ ["md".toList, "type".toList,
      "value".toList, "object".toList, "createdAt".toList, "modifiedAt".toList] := by
  intro hmem
  have hdisjoint := disjoint_of_nodup_append h.names
  exact hdisjoint hmem (mem_map.mpr ⟨m, hm, rfl⟩)

theorem Regular.same_name (h : Regular env key a) {m' : Text × StoredMetadata} (hm : m ∈ a.md)
    (hm' : m' ∈ a.md) (hname : orionldContextItemAliasLookup env.toContexts (eqForDot m.1) =
    orionldContextItemAliasLookup env.toContexts (eqForDot m'.1)) : m = m' :=
  inj_on_of_nodup_map (List.Nodup.of_append_right h.names) hm hm' hname

variable {pair : Text × KjNode} {n : Text} {fixed : Members}

theorem mem_listedMembers (h : (n, z) ∈ listedMembers env o a none pair) :
    (a.type ≠ [] ∧ n = "type".toList) ∨ (n, z) = pair ∨ n ∈ stampNames ∨
      ∃ m ∈ a.md, metadataNode env o (listedMetadata m) = (n, z) := by
  unfold listedMembers at h
  rw [toList_none, map_nil, append_nil] at h
  rcases mem_append.mp h with h | h
  · rcases mem_append.mp h with h | h
    · rcases mem_append.mp h with h | h
      · split at h
        · rename_i htype
          exact .inl ⟨htype, (Prod.mk.inj (mem_singleton.mp h)).1⟩
        · cases h
      · exact .inr (.inl (mem_singleton.mp h))
    · refine .inr (.inr (.inl ?_))
      unfold orionldSysAttrs at h
      split at h
      · rcases mem_pair.mp h with h | h <;> (rw [(Prod.mk.inj h).1]; decide)
      · cases h
  · obtain ⟨m, hm, hnode⟩ := mem_map.mp h
    exact .inr (.inr (.inr ⟨m, hm, hnode⟩))

theorem listed_of_name (hagree : NamesAgree env o key a) (hkey : o.keyValues = false)
    (hreg : Regular env key a) (h : n ∈ (listedMembers env o a none pair).map Prod.fst)
    (hpair : n ≠ pair.1) (htype : n ≠ "type".toList) (hstamp : n ∉ stampNames) :
    ∃ m ∈ a.md, ∃ z, metadataNode env o (listedMetadata m) = (n, z) ∧
      (n = orionldContextItemAliasLookup env.toContexts (eqForDot m.1) ∨
        (n = "value".toList ∧ numberOf z = none)) := by
  obtain ⟨⟨n, z⟩, hmem, rfl⟩ := mem_map.mp h
  rcases mem_listedMembers hmem with h | h | h | ⟨m, hm, hnode⟩
  · exact absurd h.2 htype
  · exact absurd (congrArg Prod.fst h) hpair
  · exact absurd h hstamp
  obtain ⟨x, hx⟩ := hreg.read m hm
  refine ⟨m, hm, z, hnode, ?_⟩
  have hname : (metadataNode env o (listedMetadata (m.1, m.2))).1 = _ ∨ _ :=
    listed_name env o hx
  rw [hagree.mdNames hkey m hm, hnode] at hname
  exact hname

theorem reserved_not_listed (hagree : NamesAgree env o key a) (hkey : o.keyValues = false)
    (hreg : Regular env key a) (h : n ∈ (listedMembers env o a none pair).map Prod.fst)
    (hpair : n ≠ pair.1) (hn : n = "md".toList ∨ n = "type".toList ∧ a.type = []) : False := by
  obtain ⟨⟨n, z⟩, hmem, rfl⟩ := mem_map.mp h
  have hvalue : n ≠ "value".toList ∧ n ∉ stampNames := by
    rcases hn with rfl | ⟨rfl, -⟩ <;> decide
  rcases mem_listedMembers hmem with ⟨htype, hname⟩ | hpair' | hstamp | ⟨m, hm, hnode⟩
  · rcases hn with rfl | ⟨-, htype'⟩
    · exact absurd hname (by decide)
    · exact htype htype'
  · exact hpair (congrArg Prod.fst hpair')
  · exact hvalue.2 hstamp
  obtain ⟨x, hx⟩ := hreg.read m hm
  have hname : (metadataNode env o (listedMetadata (m.1, m.2))).1 = _ ∨ _ :=
    listed_name env o hx
  rw [hagree.mdNames hkey m hm, hnode] at hname
  rcases hname with hname | ⟨hname, -⟩
  · refine hreg.reserved hm (hname ▸ ?_)
    dsimp only
    rcases hn with rfl | ⟨rfl, -⟩ <;> decide
  · exact hvalue.1 hname

theorem forall₂_left {α β : Type} {R : α → β → Prop} {xs : List α} {ys : List β}
    (h : List.Forall₂ R xs ys) {x : α} (hx : x ∈ xs) : ∃ y ∈ ys, R x y := by
  induction h with
  | nil => cases hx
  | cons hxy _ ih =>
    rcases mem_cons.mp hx with rfl | hx
    · exact ⟨_, mem_cons_self, hxy⟩
    · obtain ⟨y, hy, hr⟩ := ih hx
      exact ⟨y, mem_cons_of_mem _ hy, hr⟩

theorem fixed_names {md : List (Text × StoredMetadata)}
    (h : metadatasFix env (mdTree md) = some (fixed, true)) : fixed.map Prod.fst =
      md.map fun m => orionldContextItemAliasLookup env.toContexts (eqForDot m.1) := by
  have hall := metadatasFix_done h
  unfold mdTree at hall
  rw [forall₂_map_left_iff] at hall
  clear h
  induction hall with
  | nil => rfl
  | cons hm _ ih => rw [map_cons, map_cons, metadataFix_name hm, ih]

theorem subAttributes_regular (hreg : Regular env key a)
    (h : metadatasFix env (mdTree a.md) = some (fixed, true)) :
    subAttributes env o fixed = fixed.map fun m => (m.1, onMembers (stampsFix env o) m.2) := by
  have hfree : ∀ name ∈ stampNames, name ∉ fixed.map Prod.fst := by
    intro name hname hmem
    rw [fixed_names h] at hmem
    obtain ⟨m, hm, rfl⟩ := mem_map.mp hmem
    refine hreg.reserved hm ?_
    rcases mem_pair.mp hname with hname | hname <;> (rw [hname]; decide)
  unfold subAttributes
  split
  · rfl
  · rw [removeFirst_self (hfree _ (by decide)), removeFirst_self (hfree _ (by decide))]

theorem valueFieldName_cases (type : Text) :
    valueFieldName type = "object".toList ∨ valueFieldName type = "value".toList := by
  unfold valueFieldName
  split
  · exact .inl rfl
  · exact .inr rfl

structure IsFree (n : Text) : Prop where
  type : n ≠ "type".toList
  value : n ≠ "value".toList
  stamp : n ∉ stampNames
  field : ∀ type, n ≠ valueFieldName type

theorem reserved_free (h : n ∉ ["md".toList, "type".toList, "value".toList,
    "object".toList, "createdAt".toList, "modifiedAt".toList]) : IsFree n := by
  have hne : ∀ name ∈ ["md".toList, "type".toList, "value".toList, "object".toList,
      "createdAt".toList, "modifiedAt".toList], n ≠ name := by
    rintro name hname rfl
    exact h hname
  refine ⟨hne _ (by decide), hne _ (by decide), fun hstamp => ?_, fun type => ?_⟩
  · rcases mem_pair.mp hstamp with hstamp | hstamp
    · exact hne _ (by decide) hstamp
    · exact hne _ (by decide) hstamp
  · rcases valueFieldName_cases type with hfield | hfield <;> rw [hfield]
    · exact hne _ (by decide)
    · exact hne _ (by decide)

variable (o) in
theorem retrieved_nodup (hreg : Regular env key a)
    (h : metadatasFix env (mdTree a.md) = some (fixed, true)) (value : KjNode) :
    ((retrievedMembers env o a value (fixed, true)).map Prod.fst).Nodup := by
  have hnames : (retrievedMembers env o a value (fixed, true)).map Prod.fst =
      (["type".toList, valueFieldName a.type] ++
        (orionldSysAttrs env o a.creDate a.modDate).map Prod.fst) ++
      a.md.map fun m => orionldContextItemAliasLookup env.toContexts (eqForDot m.1) := by
    unfold retrievedMembers
    rw [if_pos rfl, subAttributes_regular hreg h, ← fixed_names h, ← List.append_assoc,
      List.map_append, List.map_append, List.map_map]
    rfl
  have hhead : (orionldSysAttrs env o a.creDate a.modDate).map Prod.fst = stampNames ∨
      (orionldSysAttrs env o a.creDate a.modDate).map Prod.fst = [] := by
    unfold orionldSysAttrs
    split
    · exact .inl rfl
    · exact .inr rfl
  rw [hnames, nodup_append]
  refine ⟨?_, List.Nodup.of_append_right hreg.names, ?_⟩
  · rcases valueFieldName_cases a.type with hfield | hfield <;>
      rcases hhead with hhead | hhead <;> (rw [hfield, hhead]; decide)
  · rintro n hn _ hn' rfl
    obtain ⟨m, hm, rfl⟩ := mem_map.mp hn'
    have hfree := reserved_free (hreg.reserved hm)
    rcases mem_append.mp hn with hn | hn
    · rcases mem_pair.mp hn with hn | hn
      · exact hfree.type hn
      · exact hfree.field a.type hn
    rcases hhead with hhead | hhead <;> rw [hhead] at hn
    · exact hfree.stamp hn
    · cases hn

theorem retrieved_number {compacts : Bool} {x : KjNode} (h : isNumber value = true)
    (hx : retrievedValue env o compacts value = some x) : ∃ q, numberOf x = some q := by
  cases value with
  | double y =>
    cases hx
    refine ⟨y, ?_⟩
    cases compacts <;> cases o.keyValues <;> rfl
  | int32 i =>
    cases hx
    refine ⟨i.toInt, ?_⟩
    cases compacts <;> cases o.keyValues <;> rfl
  | _ => cases h

theorem same_numberOf {x : KjNode} {q : ℚ} (h : Same x z) (hx : numberOf x = some q) :
    numberOf z = some q := by
  cases h with
  | number hx' hz => exact hz.trans (hx'.symm.trans hx)
  | _ => cases hx

/-- The members that both answers show of a regular attribute, when they are the same. -/
structure SameMembersOf (env : DateEnv) (o : Options) (key : Text) (a : StoredAttribute)
    (v w : KjNode) (fixed : Members × Bool) : Prop where
  value : retrievedValue env o (retrievedCompacts env o key a.type) a.value = some v
  listed : listedValue env (valueMayBeCompacted env.toContexts (listedName key)) a.value =
    some w
  fix : metadatasFix env (mdTree a.md) = some fixed
  same : ObjectRel Same (retrievedMembers env o a v fixed)
    (listedMembers env o a none (listedValueMember env key a w))

theorem sameMembers_of_shown (hkey : o.keyValues = false) (hreg : Regular env key a)
    (h : ShownAlike env o key a) : ∃ v w fixed, SameMembersOf env o key a v w fixed := by
  obtain ⟨x, ca, z, hfix, hca, hnode, hsame⟩ := h
  have heq := contextAttribute_eq key a
  rw [hca] at heq
  obtain ⟨value, hvalue, -⟩ := map_eq_some_iff.mp heq.symm
  obtain ⟨n, hn⟩ := read_of_value hvalue
  obtain ⟨v, hv⟩ := retrieved_of_read env o hn (retrievedCompacts env o key a.type)
  obtain ⟨w, hw⟩ :=
    listed_of_read env hn (valueMayBeCompacted env.toContexts (listedName key))
  obtain ⟨ca', ms, hca', hnode', hperm⟩ := attributeNode_eq hkey hw
  obtain rfl := some.inj (hca.symm.trans hca')
  rw [attributeFix_eq hkey hn hv] at hfix
  obtain ⟨fixed, hfixed, hx⟩ := map_eq_some_iff.mp hfix
  obtain rfl := (Prod.mk.inj hx).2
  obtain rfl := (Prod.mk.inj (hnode.symm.trans hnode')).2
  rw [hreg.noId] at hperm
  exact ⟨v, w, fixed, hv, hw, hfixed,
    objectRel_perm_right hperm.symm (same_object_iff.mp hsame)⟩

variable {v w : KjNode} {fixed : Members × Bool}

variable (env key a) in
theorem pair_name (w : KjNode) :
    (listedValueMember env key a w).1 = "observedAt".toList ∧ listedName key =
        "observedAt".toList ∧ isNumber a.value = true ∨
      listedValueMember env key a w = (valueFieldName a.type, w) := by
  unfold listedValueMember
  split
  · rename_i h
    exact .inl ⟨rfl, h⟩
  · exact .inr rfl

theorem pair_not_reserved (hn : n = "md".toList ∨ n = "type".toList) :
    n ≠ (listedValueMember env key a w).1 := by
  rcases pair_name env key a w with ⟨hname, -⟩ | hpair
  · rw [hname]
    rcases hn with rfl | rfl <;> decide
  rw [hpair]
  dsimp only
  rcases valueFieldName_cases a.type with hfield | hfield <;> rw [hfield] <;>
    rcases hn with rfl | rfl <;> decide

theorem typed_of_same (hagree : NamesAgree env o key a) (hkey : o.keyValues = false)
    (hreg : Regular env key a) (h : SameMembersOf env o key a v w fixed) : a.type ≠ [] := by
  intro htype
  have hmem : "type".toList ∈ (retrievedMembers env o a v fixed).map Prod.fst :=
    mem_cons_self
  exact reserved_not_listed hagree hkey hreg ((objectRel_names h.same).mem_iff.mp hmem)
    (pair_not_reserved (.inr rfl)) (.inr ⟨rfl, htype⟩)

theorem done_of_same (hagree : NamesAgree env o key a) (hkey : o.keyValues = false)
    (hreg : Regular env key a) (h : SameMembersOf env o key a v w fixed) : fixed.2 = true := by
  by_contra hdone
  have hmem : "md".toList ∈ (retrievedMembers env o a v fixed).map Prod.fst := by
    unfold retrievedMembers
    rw [if_neg hdone]
    exact mem_cons_of_mem _ (mem_cons_of_mem _ mem_cons_self)
  exact reserved_not_listed hagree hkey hreg ((objectRel_names h.same).mem_iff.mp hmem)
    (pair_not_reserved (.inl rfl)) (.inl rfl)

variable {md : Members}

theorem undated_value (hagree : NamesAgree env o key a) (hkey : o.keyValues = false)
    (hreg : Regular env key a) (h : SameMembersOf env o key a v w (md, true)) :
    listedName key = "observedAt".toList → isNumber a.value = false := by
  intro hobserved
  by_contra hnumber
  have hnumber := Bool.of_not_eq_false hnumber
  have hpair : (listedValueMember env key a w).1 = "observedAt".toList := by
    unfold listedValueMember
    rw [if_pos ⟨hobserved, hnumber⟩]
  have hmem : (valueFieldName a.type, v) ∈ retrievedMembers env o a v (md, true) :=
    mem_cons_of_mem _ mem_cons_self
  have hname := (objectRel_names h.same).mem_iff.mp (mem_map_of_mem (f := Prod.fst) hmem)
  have hfield : valueFieldName a.type ≠ "observedAt".toList ∧
      valueFieldName a.type ≠ "type".toList ∧ valueFieldName a.type ∉ stampNames := by
    rcases valueFieldName_cases a.type with hfield | hfield <;> rw [hfield] <;> decide
  obtain ⟨m, hm, z, hnode, hz⟩ := listed_of_name hagree hkey hreg hname (hpair ▸ hfield.1)
    hfield.2.1 hfield.2.2
  rcases hz with hz | ⟨-, hnone⟩
  · refine hreg.reserved hm (hz ▸ ?_)
    dsimp only
    rcases valueFieldName_cases a.type with hfield | hfield <;> rw [hfield] <;> decide
  have hlisted : (valueFieldName a.type, z) ∈
      listedMembers env o a none (listedValueMember env key a w) :=
    mem_append_right _ (mem_map.mpr ⟨m, hm, hnode⟩)
  have hsame := objectRel_value h.same (retrieved_nodup o hreg h.fix v) hmem hlisted
  obtain ⟨q, hq⟩ := retrieved_number hnumber h.value
  rw [same_numberOf hsame hq] at hnone
  cases hnone

theorem pair_of_same (hagree : NamesAgree env o key a) (hkey : o.keyValues = false)
    (hreg : Regular env key a) (h : SameMembersOf env o key a v w (md, true)) :
    listedValueMember env key a w = (valueFieldName a.type, w) := by
  refine if_neg fun hdated => ?_
  rw [undated_value hagree hkey hreg h hdated.1] at hdated
  cases hdated.2

theorem value_of_same (hagree : NamesAgree env o key a) (hkey : o.keyValues = false)
    (hreg : Regular env key a) (h : SameMembersOf env o key a v w (md, true)) :
    ValueAlike env o (retrievedCompacts env o key a.type)
      (valueMayBeCompacted env.toContexts (listedName key)) a.value := by
  have hsame : Same v w := by
    refine objectRel_value h.same (retrieved_nodup o hreg h.fix v)
      (mem_cons_of_mem _ mem_cons_self : (valueFieldName a.type, v) ∈ _) ?_
    rw [pair_of_same hagree hkey hreg h]
    unfold listedMembers
    simp
  exact value_same_alike hreg.once ⟨v, w, h.value, h.listed, hsame⟩

theorem metadata_of_same (hagree : NamesAgree env o key a) (hkey : o.keyValues = false)
    (hreg : Regular env key a) (h : SameMembersOf env o key a v w (md, true)) (hm : m ∈ a.md) :
    MetadataAlike env o m.1 m.2 := by
  have hfixed := metadatasFix_done h.fix
  obtain ⟨⟨name, node⟩, hx, hfix⟩ := forall₂_left hfixed
    (mem_map_of_mem (f := fun m => (m.1, KjNode.object (metadataTree m.2))) hm)
  obtain rfl : name = orionldContextItemAliasLookup env.toContexts (eqForDot m.1) :=
    metadataFix_name hfix
  have hmem : (orionldContextItemAliasLookup env.toContexts (eqForDot m.1),
      onMembers (stampsFix env o) node) ∈ retrievedMembers env o a v (md, true) := by
    unfold retrievedMembers
    rw [if_pos rfl, subAttributes_regular hreg h.fix]
    refine mem_append_right _ (mem_append_right _ ?_)
    exact mem_map_of_mem (f := fun m => (m.1, onMembers (stampsFix env o) m.2)) hx
  have hname := (objectRel_names h.same).mem_iff.mp (mem_map_of_mem (f := Prod.fst) hmem)
  have hfree := reserved_free (hreg.reserved hm)
  have hpair := pair_of_same hagree hkey hreg h
  obtain ⟨m', hm', z, hnode, hz⟩ := listed_of_name hagree hkey hreg hname
    (hpair ▸ hfree.field a.type) hfree.type hfree.stamp
  obtain rfl : m = m' := hreg.same_name hm hm' (hz.resolve_right fun hz => hfree.value hz.1)
  have hlisted : (orionldContextItemAliasLookup env.toContexts (eqForDot m.1), z) ∈
      listedMembers env o a none (listedValueMember env key a w) :=
    mem_append_right _ (mem_map.mpr ⟨m, hm, hnode⟩)
  have hsame := objectRel_value h.same (retrieved_nodup o hreg h.fix v) hmem hlisted
  obtain ⟨x, hx⟩ := hreg.read m hm
  exact metadata_same_alike (hagree.mdNames hkey m hm) hfree.value hfree.stamp
    (hreg.undated m hm) (hreg.mdOnce m hm) hx hfix hnode hsame

theorem attribute_same_alike (hagree : NamesAgree env o key a) (hone : OneEach a.value)
    (hreg : o.keyValues = false → Regular env key a) (h : ShownAlike env o key a) :
    AttributeAlike env o key a := by
  cases hkey : o.keyValues with
  | true =>
    refine ⟨value_same_alike hone ((attribute_keyValues_iff hkey).mp h), fun h => ?_⟩
    rw [hkey] at h
    cases h
  | false =>
    have hreg := hreg hkey
    obtain ⟨v, w, ⟨md, done⟩, hshown⟩ := sameMembers_of_shown hkey hreg h
    obtain rfl : done = true := done_of_same hagree hkey hreg hshown
    refine ⟨value_of_same hagree hkey hreg hshown, fun _ => ⟨hreg.noId,
      typed_of_same hagree hkey hreg hshown, undated_value hagree hkey hreg hshown,
      fun m hm => metadata_of_same hagree hkey hreg hshown hm⟩⟩

end EntityAttributesShown
