import OrionLd.EntityValues

/-! How the two answers show an attribute that is stored, and when they show it alike. Each
side is first brought into one form: the type, the value, the dates of the broker, and the
sub-attributes. -/
namespace EntityAttributes

open KjTree OrionldContextItem MongoCppLegacyCodec RegistrationDocument EntityDocument
open MongoCppLegacyEntityRetrieve KjTreeFromQueryContextResponse SameJson EntityValues List Option

variable (env : DateEnv) (o : Options)

section

def metadataTree (md : StoredMetadata) : Members := objectToKjTree (metadataDoc md)

def mdTree (md : List (Text × StoredMetadata)) : Members :=
  md.map fun m => (m.1, .object (metadataTree m.2))

def attributeTree (a : StoredAttribute) : Members := objectToKjTree (attributeDoc a)

def retrievedName (key : Text) : Text :=
  if key = "location".toList then key
  else orionldContextItemAliasLookup env.toContexts (eqForDot key)

/-- The field "object" of a relationship is not looked at. -/
def retrievedCompacts (key type : Text) : Bool :=
  key ≠ "location".toList && valueMayBeCompacted env.toContexts (eqForDot key) &&
    (o.keyValues || type ≠ "Relationship".toList)

def datedFields (creDate modDate : ℚ) : Members :=
  if o.sysAttrs then
    [("createdAt".toList, .float creDate), ("modifiedAt".toList, .float modDate)]
  else []

/-- The sub-attributes once they are members of their attribute. -/
def subAttributes (fixed : Members) : Members :=
  (if o.sysAttrs then fixed else removeFirst "modifiedAt" (removeFirst "createdAt" fixed)).map
    fun m => (m.1, onMembers (stampsFix env o) m.2)

/-- Where the loop over md has ended early, md stays a member. -/
def retrievedMembers (a : StoredAttribute) (value : KjNode) (fixed : Members × Bool) : Members :=
  [("type".toList, .string a.type), (valueFieldName a.type, value)] ++
    (if fixed.2 then orionldSysAttrs env o a.creDate a.modDate ++ subAttributes env o fixed.1
    else ("md".toList, onMembers (stampsFix env o) (.object fixed.1)) ::
      orionldSysAttrs env o a.creDate a.modDate)

variable {env} {o}

theorem mdDoc_tree (md : List (Text × StoredMetadata)) :
    objectToKjTree (mdDoc md) = mdTree md := by
  unfold mdDoc mdTree
  induction md with
  | nil => rfl
  | cons m md ih => rw [map_cons, map_cons, objectToKjTree, ih]; rfl

variable {a : StoredAttribute} {n : KjNode} {key : Text}

theorem attributeTree_eq (hv : bsonToKjTree a.value = some n) :
    attributeTree a = [("type".toList, .string a.type), ("value".toList, n)] ++
      (if a.md = [] then [] else [("md".toList, .object (mdTree a.md))]) ++
      [("mdNames".toList, .array (arrayToKjTree (a.mdNames.map .string))),
        ("creDate".toList, .float a.creDate), ("modDate".toList, .float a.modDate)] := by
  unfold attributeTree attributeDoc
  rw [objectToKjTree_append, objectToKjTree_append]
  congr 2
  · simp [objectToKjTree, bsonToKjTree, hv]
  · split
    · rfl
    · rw [← mdDoc_tree]
      rfl

variable (env) (o) in
theorem datamodel_eq (hv : bsonToKjTree a.value = some n) :
    datamodelAttributeFix env o (attributeTree a) =
      (metadatasFix env (mdTree a.md)).map fun fixed =>
        [("type".toList, .string a.type), (valueFieldName a.type, n)] ++
          if fixed.2 then datedFields o a.creDate a.modDate ++ fixed.1
          else ("md".toList, .object fixed.1) :: datedFields o a.creDate a.modDate := by
  rw [attributeTree_eq hv]
  generalize arrayToKjTree (a.mdNames.map .string) = names
  obtain ⟨type, value, md, mdNames, creDate, modDate, once⟩ := a
  obtain ⟨keyValues, sysAttrs⟩ := o
  have hfield : valueFieldName type =
      if type == "Relationship".toList then "object".toList else "value".toList := by
    unfold valueFieldName
    by_cases h : type = "Relationship".toList
    · rw [if_pos h, if_pos (beq_iff_eq.mpr h)]
    · rw [if_neg h, if_neg (fun hb => h (beq_iff_eq.mp hb))]
  rw [hfield]
  change datamodelSteps env _ (type == "Relationship".toList) _ = _
  generalize (type == "Relationship".toList) = relationship
  cases md with
  | nil => cases relationship <;> cases sysAttrs <;> rfl
  | cons m md =>
    cases relationship <;> cases sysAttrs
    all_goals
      change (metadatasFix env (mdTree (m :: md))).bind _ = _
      cases metadatasFix env (mdTree (m :: md)) with
      | none => rfl
      | some fixed =>
        obtain ⟨ms, done⟩ := fixed
        cases done <;> rfl

theorem metadataFix_object {m fixed : Text × KjNode} {goesOn : Bool} {ms : Members}
    (hm : m.2 = .object ms) (h : metadataFix env m = some (fixed, goesOn)) :
    fixed.1 = "observedAt".toList ∨ fixed.1 = "unitCode".toList ∨
      ∃ ms, fixed.2 = .object ms := by
  unfold metadataFix at h
  dsimp only at h
  split at h
  · rename_i hname
    obtain ⟨node, -, hnode⟩ := map_eq_some_iff.mp h
    obtain ⟨rfl, -⟩ := Prod.mk.inj hnode
    exact .inl hname
  · split at h
    · rename_i hname
      obtain ⟨node, -, hnode⟩ := map_eq_some_iff.mp h
      obtain ⟨rfl, -⟩ := Prod.mk.inj hnode
      exact .inr (.inl hname)
    · refine .inr (.inr ?_)
      rw [hm] at h
      split at h
      · split at h
        all_goals
          obtain ⟨rfl, -⟩ := Prod.mk.inj (some.inj h)
          exact ⟨_, rfl⟩
      · obtain ⟨rfl, -⟩ := Prod.mk.inj (some.inj h)
        exact ⟨_, rfl⟩

variable {fixed : Members × Bool}

theorem metadatasFix_object {md : Members} (hmd : ∀ m ∈ md, ∃ ms, m.2 = .object ms)
    (h : metadatasFix env md = some fixed) :
    ∀ m ∈ fixed.1, m.1 = "observedAt".toList ∨ m.1 = "unitCode".toList ∨
      ∃ ms, m.2 = .object ms := by
  induction md generalizing fixed with
  | nil =>
    cases h
    simp
  | cons m md ih =>
    obtain ⟨⟨first, goesOn⟩, hfirst, h⟩ := bind_eq_some_iff.mp h
    obtain ⟨ms, hms⟩ := hmd m mem_cons_self
    have hhead := metadataFix_object hms hfirst
    have hrest := fun m' hm' => hmd m' (mem_cons_of_mem m hm')
    cases goesOn with
    | false =>
      cases h
      intro m' hm'
      rcases mem_cons.mp hm' with rfl | hm'
      · exact hhead
      · exact .inr (.inr (hrest m' hm'))
    | true =>
      obtain ⟨⟨rest, done⟩, hfix, h⟩ := bind_eq_some_iff.mp h
      cases h
      intro m' hm'
      rcases mem_cons.mp hm' with rfl | hm'
      · exact hhead
      · exact ih hrest hfix m' hm'

theorem subAttribute_not_compacted {md : List (Text × StoredMetadata)}
    (h : metadatasFix env (mdTree md) = some fixed) {x : KjNode}
    (hx : fixed.1.lookup "value".toList = some x) : compactValue env.toContexts x = x := by
  have hmd : ∀ m ∈ mdTree md, ∃ ms, m.2 = .object ms := by
    intro m hm
    obtain ⟨m', -, rfl⟩ := mem_map.mp hm
    exact ⟨_, rfl⟩
  have hvalue : "value".toList ≠ "observedAt".toList ∧ "value".toList ≠ "unitCode".toList := by
    decide
  rcases metadatasFix_object hmd h _ (FieldList.mem_of_lookup hx) with hname | hname | ⟨ms, rfl⟩
  · exact absurd hname hvalue.1
  · exact absurd hname hvalue.2
  · rfl

theorem compactAttribute_eq {type : Text} {rest : Members} (hkey : o.keyValues = false)
    (h : ∀ x, rest.lookup "value".toList = some x → compactValue env.toContexts x = x) :
    compactAttribute env.toContexts (key, .object
        ([("type".toList, .string type), (valueFieldName type, n)] ++ rest)) =
      (retrievedName env key, .object ([("type".toList, .string type), (valueFieldName type,
        if retrievedCompacts env o key type then compactValue env.toContexts n else n)] ++
          rest)) := by
  unfold compactAttribute retrievedName retrievedCompacts
  rw [hkey]
  by_cases hloc : key = "location".toList
  · simp only [hloc]
    rfl
  have hne : (decide (key ≠ "location".toList)) = true := decide_eq_true hloc
  dsimp only
  rw [if_neg hloc, if_neg hloc, hne]
  cases valueMayBeCompacted env.toContexts (eqForDot key) with
  | false => rfl
  | true =>
    by_cases hrel : type = "Relationship".toList
    · subst hrel
      change (_, KjNode.object (_ :: (_, n) :: changeFirst "value" _ rest)) = _
      rw [changeFirst_self h]
      rfl
    · have hfield : valueFieldName type = "value".toList := if_neg hrel
      have hdecide : (decide (type ≠ "Relationship".toList)) = true := decide_eq_true hrel
      rw [hfield, hdecide]
      rfl

variable (env) in
theorem presentation_eq (fixed : Members × Bool) (hkey : o.keyValues = false) :
    presentationAttributeFix env o ([("type".toList, .string a.type),
        (valueFieldName a.type, n)] ++
          if fixed.2 then datedFields o a.creDate a.modDate ++ fixed.1
          else ("md".toList, .object fixed.1) :: datedFields o a.creDate a.modDate) =
      some (.object (retrievedMembers env o a (onMembers (stampsFix env o) n) fixed)) := by
  obtain ⟨keyValues, sysAttrs⟩ := o
  obtain rfl : keyValues = false := hkey
  obtain ⟨ms, done⟩ := fixed
  unfold retrievedMembers
  by_cases hrel : a.type = "Relationship".toList
  · have hfield : valueFieldName a.type = "object".toList := if_pos hrel
    rw [hfield]
    cases sysAttrs <;> cases done <;> rfl
  have hfield : valueFieldName a.type = "value".toList := if_neg hrel
  rw [hfield]
  cases sysAttrs <;> cases done <;> rfl

theorem attributeFix_of {name : Text} {tree attr shown : Members}
    (hmodel : datamodelPass env o tree = some attr)
    (hcompact : compactAttribute env.toContexts (key, .object attr) = (name, .object shown)) :
    attributeFix env o (key, .object tree) =
      (presentationAttributeFix env o shown).map fun node => (name, node) := by
  change Option.bind (datamodelPass env o tree) _ = _
  rw [hmodel]
  change Option.bind (presentationAttributeFix env o (childrenOf (compactAttribute env.toContexts
    (key, .object attr)).2)) (fun node => some ((compactAttribute env.toContexts
      (key, .object attr)).1, node)) = _
  rw [hcompact]
  change (presentationAttributeFix env o shown).bind _ = _
  cases presentationAttributeFix env o shown <;> rfl

theorem attributeFix_eq {value : KjNode} (hkey : o.keyValues = false)
    (hn : bsonToKjTree a.value = some n)
    (hv : retrievedValue env o (retrievedCompacts env o key a.type) a.value = some value) :
    attributeFix env o (key, .object (attributeTree a)) =
      (metadatasFix env (mdTree a.md)).map fun fixed =>
        (retrievedName env key, .object (retrievedMembers env o a value fixed)) := by
  have hvalue : onMembers (stampsFix env o) (if retrievedCompacts env o key a.type then
      compactValue env.toContexts n else n) = value := by
    unfold retrievedValue at hv
    rw [hn, hkey] at hv
    exact some.inj hv
  cases hfix : metadatasFix env (mdTree a.md) with
  | none =>
    have hmodel : datamodelPass env o (attributeTree a) = none := by
      unfold datamodelPass
      rw [hkey, if_neg (by decide), datamodel_eq env o hn, hfix]
      rfl
    unfold attributeFix
    change Option.bind (datamodelPass env o (attributeTree a)) _ = _
    rw [hmodel]
    rfl
  | some fixed =>
    have hrest : ∀ x, (if fixed.2 then datedFields o a.creDate a.modDate ++ fixed.1
        else ("md".toList, .object fixed.1) :: datedFields o a.creDate a.modDate).lookup
          "value".toList = some x → compactValue env.toContexts x = x := by
      obtain ⟨ms, done⟩ := fixed
      intro x hx
      cases done with
      | false => cases hsys : o.sysAttrs <;> (rw [datedFields, hsys] at hx; cases hx)
      | true =>
        apply subAttribute_not_compacted hfix
        cases hsys : o.sysAttrs <;> (rw [datedFields, hsys] at hx; exact hx)
    have hmodel := datamodel_eq env o hn
    rw [hfix] at hmodel
    have hpass : datamodelPass env o (attributeTree a) = _ :=
      (if_neg (by simp [hkey])).trans hmodel
    rw [attributeFix_of hpass (compactAttribute_eq hkey hrest), presentation_eq env fixed hkey,
      hvalue]
    rfl

theorem compactAttribute_keyValues {type : Text} {rest : Members} (hkey : o.keyValues = true) :
    compactAttribute env.toContexts (key, .object
        ([("type".toList, .string type), ("value".toList, n)] ++ rest)) =
      (retrievedName env key, .object ([("type".toList, .string type), ("value".toList,
        if retrievedCompacts env o key type then compactValue env.toContexts n else n)] ++
          rest)) := by
  unfold compactAttribute retrievedName retrievedCompacts
  rw [hkey]
  by_cases hloc : key = "location".toList
  · simp only [hloc]
    rfl
  have hne : (decide (key ≠ "location".toList)) = true := decide_eq_true hloc
  dsimp only
  rw [if_neg hloc, if_neg hloc, hne]
  cases valueMayBeCompacted env.toContexts (eqForDot key) <;> rfl

theorem attributeFix_keyValues {value : KjNode} (hkey : o.keyValues = true)
    (hn : bsonToKjTree a.value = some n)
    (hv : retrievedValue env o (retrievedCompacts env o key a.type) a.value = some value) :
    attributeFix env o (key, .object (attributeTree a)) =
      some (retrievedName env key, value) := by
  have hvalue : (if retrievedCompacts env o key a.type then
      compactValue env.toContexts n else n) = value := by
    unfold retrievedValue at hv
    rw [hn, hkey] at hv
    exact some.inj hv
  have hpass : datamodelPass env o (attributeTree a) = some (attributeTree a) :=
    if_pos hkey
  rw [attributeTree_eq hn, append_assoc] at hpass ⊢
  rw [attributeFix_of hpass (compactAttribute_keyValues hkey), hvalue]
  unfold presentationAttributeFix
  rw [hkey]
  rfl

end

section

def listedName (key : Text) : Text := eqForDot (splitId key).1

def listedMetadata (m : Text × StoredMetadata) : Metadata :=
  metadataOf (eqForDot m.1) (metadataDoc m.2)

def listedMembers (a : StoredAttribute) (metadataId : Option Text) (value : Text × KjNode) :
    Members :=
  (if a.type ≠ [] then [("type".toList, .string a.type)] else []) ++ [value] ++
    orionldSysAttrs env o a.creDate a.modDate ++
    (metadataId.toList.map fun id => metadataNode env o (idMetadata id)) ++
    a.md.map fun m => metadataNode env o (listedMetadata m)

variable {env} {o}

theorem contextAttribute_eq (key : Text) (a : StoredAttribute) :
    contextAttribute key (attributeDoc a) = (valueOfField a.value).map fun value => {
      name := eqForDot (splitId key).1
      type := a.type
      value := value
      creDate := a.creDate
      modDate := a.modDate
      metadataVector := ((splitId key).2.map idMetadata).toList ++
        (OrderedMap.assignAll (mdDoc a.md)).map fun md =>
          metadataOf (eqForDot md.1) (getObjectField (mdDoc a.md) md.1) } := by
  obtain ⟨type, value, md, mdNames, creDate, modDate, once⟩ := a
  cases md with
  | nil | cons m md =>
    change (valueOfField value).bind _ = _
    cases valueOfField value <;> rfl

variable {md : List (Text × StoredMetadata)}

theorem getObjectField_mdDoc (h : (md.map Prod.fst).Nodup) {m : Text × StoredMetadata}
    (hm : m ∈ md) :
    getObjectField (mdDoc md) m.1 = metadataDoc m.2 := by
  have hlookup : (mdDoc md).lookup m.1 = some (.object (metadataDoc m.2)) := by
    apply FieldList.lookup_of_mem
    · unfold mdDoc
      rw [List.map_map]
      exact h
    · exact List.mem_map_of_mem hm
  unfold getObjectField
  rw [hlookup]

theorem metadataVector_perm (h : (md.map Prod.fst).Nodup) :
    ((OrderedMap.assignAll (mdDoc md)).map fun m =>
        metadataOf (eqForDot m.1) (getObjectField (mdDoc md) m.1)).Perm
      (md.map listedMetadata) := by
  have hnames : ((mdDoc md).map Prod.fst).Nodup := by
    unfold mdDoc
    rw [List.map_map]
    exact h
  refine ((OrderedMap.assignAll_perm hnames).map _).trans (List.Perm.of_eq ?_)
  unfold mdDoc
  rw [List.map_map]
  apply List.map_congr_left
  intro m hm
  change metadataOf (eqForDot m.1) (getObjectField (mdDoc md) m.1) = _
  rw [getObjectField_mdDoc h hm]
  rfl

theorem contextAttribute_ok {a : StoredAttribute} {value : CompoundValueNode}
    (h : valueOfField a.value = some value) (key : Text) :
    ∃ ca, contextAttribute key (attributeDoc a) = some ca ∧
      ca.name = listedName key ∧ ca.type = a.type ∧ ca.creDate = a.creDate ∧
      ca.modDate = a.modDate ∧ ca.value = value ∧
      ca.metadataVector.Perm
        ((splitId key).2.toList.map idMetadata ++ a.md.map listedMetadata) := by
  have hca := contextAttribute_eq key a
  rw [h] at hca
  refine ⟨_, hca, rfl, rfl, rfl, rfl, rfl, ?_⟩
  refine List.Perm.append (List.Perm.of_eq ?_) (metadataVector_perm a.mdOnce)
  cases (splitId key).2 <;> rfl

end

section

def isCompound : BsonValue → Bool
  | .array _ => true
  | .object _ => true
  | _ => false

/-- The value of a sub-attribute, of which the tree of the document is not touched. -/
def SubValueAlike (mayBeCompacted : Bool) : BsonValue → Prop
  | .int32 _ => True
  | .int64 _ => False
  | value => Alike env mayBeCompacted value

def isUnwrapped (name : Text) : Bool :=
  name == "observedAt".toList || name == "unitCode".toList

/-- observedAt and unitCode are the first field of what is stored, in the response their value. The
others are objects with a type, the dates of the broker if asked for, and the value, in the tree
under "object" for a relationship. -/
def MetadataAlike (key : Text) (md : StoredMetadata) : Prop :=
  let name := orionldContextItemAliasLookup env.toContexts (eqForDot key)
  SubValueAlike env (metadataMayBeCompacted env (eqForDot key)) md.value ∧
    if isUnwrapped name then
      md.type = [] ∧ md.createdAt = none ∧ md.modifiedAt = none ∧ isCompound md.value = false
    else
      md.type ≠ [] ∧ (isCompound md.value = true → md.type ≠ "Relationship".toList) ∧
        if o.sysAttrs then md.createdAt.isSome ∧ md.modifiedAt.isSome
        else name ∉ stampNames

def dateMember (name : String) (date : Option ℚ) : Members :=
  (date.map fun x => (name.toList, KjNode.string (numberToDate env x))).toList

def retrievedMetadata (md : StoredMetadata) (value : KjNode) : Members :=
  (if o.sysAttrs then
    dateMember env "createdAt" md.createdAt ++ dateMember env "modifiedAt" md.modifiedAt
  else []) ++ [("type".toList, .string md.type), (valueFieldName md.type, value)]

def datedAs (name : Text) (node : KjNode) : KjNode :=
  if name = "observedAt".toList then timestampToString env node else node

variable {env} {o} {mayBeCompacted : Bool}
variable {value : BsonValue} {md : StoredMetadata} {n z : KjNode} {key name : Text}

theorem bothShow_iff_rel (hread : ∃ x, bsonToKjTree value = some x)
    (hinside : listedValue env mayBeCompacted value = shownInside env mayBeCompacted value) :
    BothShow (bsonToKjTree value) (listedValue env mayBeCompacted value) ↔
      Option.Rel Same (bsonToKjTree value) (shownInside env mayBeCompacted value) := by
  obtain ⟨x, hx⟩ := hread
  rw [hinside, hx]
  constructor
  · rintro ⟨x', z, hx', hz, hsame⟩
    rw [hx', hz]
    exact .some hsame
  · intro h
    generalize shownInside env mayBeCompacted value = shown at h ⊢
    cases h with
    | some hsame => exact ⟨_, _, rfl, rfl, hsame⟩

theorem sub_value_same (h : SubValueAlike env mayBeCompacted value) :
    BothShow (bsonToKjTree value) (listedValue env mayBeCompacted value) := by
  cases value with
  | int32 i => exact ⟨_, _, rfl, rfl, .number rfl rfl⟩
  | int64 i => exact h.elim
  | _ => exact (bothShow_iff_rel ⟨_, rfl⟩ rfl).mpr (alike_same _ h)

theorem sub_same_value (hone : OneEach value)
    (h : BothShow (bsonToKjTree value) (listedValue env mayBeCompacted value)) :
    SubValueAlike env mayBeCompacted value := by
  cases value with
  | int32 i => exact trivial
  | int64 i =>
    obtain ⟨x, -, hx, -⟩ := h
    cases hx
  | _ => exact same_alike _ hone ((bothShow_iff_rel ⟨_, rfl⟩ rfl).mp h)

theorem listedMetadata_eq (key : Text) (md : StoredMetadata) :
    listedMetadata (key, md) = ⟨eqForDot key, md.type, valueOfField md.value,
      md.createdAt.getD 0, md.modifiedAt.getD 0⟩ := by
  obtain ⟨createdAt, modifiedAt, type, value⟩ := md
  cases type <;> cases createdAt <;> cases modifiedAt <;> rfl

theorem metadataTree_eq (hn : bsonToKjTree md.value = some n) :
    metadataTree md = objectToKjTree (stampField "createdAt" md.createdAt) ++
      objectToKjTree (stampField "modifiedAt" md.modifiedAt) ++
      (if md.type = [] then [] else [("type".toList, .string md.type)]) ++
      [("value".toList, n)] := by
  unfold metadataTree metadataDoc
  rw [objectToKjTree_append, objectToKjTree_append, objectToKjTree_append]
  congr 1
  · split <;> rfl
  · simp [objectToKjTree, hn]

theorem typed_lookup (hn : bsonToKjTree md.value = some n) :
    kjLookup (.object (metadataTree md)) "type" =
      if md.type = [] then none else some (.string md.type) := by
  rw [metadataTree_eq hn]
  obtain ⟨createdAt, modifiedAt, type, value⟩ := md
  cases type <;> cases createdAt <;> cases modifiedAt <;> rfl

def typedNode (md : StoredMetadata) : KjNode :=
  if md.type = "Relationship".toList then
    onMembers (renameFirst "value" "object") (.object (metadataTree md))
  else .object (metadataTree md)

theorem typedNode_shown (hn : bsonToKjTree md.value = some n) (htype : md.type ≠ []) :
    onMembers (stampsFix env o) (typedNode md) = .object (retrievedMetadata env o md n) := by
  unfold typedNode retrievedMetadata valueFieldName
  rw [metadataTree_eq hn, if_neg htype]
  obtain ⟨keyValues, sysAttrs⟩ := o
  obtain ⟨createdAt, modifiedAt, type, value⟩ := md
  by_cases hrel : type = "Relationship".toList
  · rw [if_pos hrel, if_pos hrel]
    cases sysAttrs <;> cases createdAt <;> cases modifiedAt <;> rfl
  · rw [if_neg hrel, if_neg hrel]
    cases sysAttrs <;> cases createdAt <;> cases modifiedAt <;> rfl

theorem unwrapped_iff :
    isUnwrapped name = true ↔ name = "observedAt".toList ∨ name = "unitCode".toList := by
  unfold isUnwrapped
  rw [Bool.or_eq_true, beq_iff_eq, beq_iff_eq]

theorem metadataFix_wrapped (hn : bsonToKjTree md.value = some n)
    (hname : isUnwrapped (orionldContextItemAliasLookup env.toContexts (eqForDot key)) = false) :
    metadataFix env (key, .object (metadataTree md)) =
      if md.type = [] then some ((orionldContextItemAliasLookup env.toContexts (eqForDot key),
        .object (metadataTree md)), false)
      else some ((orionldContextItemAliasLookup env.toContexts (eqForDot key), typedNode md),
        true) := by
  obtain ⟨hobserved, hunit⟩ :=
    not_or.mp fun h => Bool.eq_false_iff.mp hname (unwrapped_iff.mpr h)
  unfold metadataFix typedNode
  rw [if_neg hobserved, if_neg hunit, typed_lookup hn]
  by_cases htype : md.type = []
  · rw [if_pos htype, if_pos htype]
  rw [if_neg htype, if_neg htype]
  dsimp only
  split <;> rfl

theorem metadataFix_unwrapped (hn : bsonToKjTree md.value = some n)
    (hname : isUnwrapped (orionldContextItemAliasLookup env.toContexts (eqForDot key)) = true)
    (hbare : md.type = [] ∧ md.createdAt = none ∧ md.modifiedAt = none) :
    metadataFix env (key, .object (metadataTree md)) =
      some ((orionldContextItemAliasLookup env.toContexts (eqForDot key),
        datedAs env (orionldContextItemAliasLookup env.toContexts (eqForDot key)) n), true) := by
  obtain ⟨htype, hcreated, hmodified⟩ := hbare
  rw [metadataTree_eq hn, htype, hcreated, hmodified]
  unfold metadataFix datedAs
  generalize orionldContextItemAliasLookup env.toContexts (eqForDot key) = name at hname ⊢
  by_cases hobserved : name = "observedAt".toList
  · rw [if_pos hobserved, if_pos hobserved]
    rfl
  have hunit := (unwrapped_iff.mp hname).resolve_left hobserved
  rw [if_neg hobserved, if_pos hunit, if_neg hobserved]
  rfl

theorem same_timestamp {x : KjNode} (h : Same x z) :
    Same (timestampToString env x) (timestampToString env z) := by
  cases h with
  | @number _ _ q hx hz =>
    have hdate : ∀ {node : KjNode}, numberOf node = some q →
        timestampToString env node = .string (numberToDate env q) := by
      intro node hnode
      cases node with
      | int i | float f => rw [← some.inj hnode]; rfl
      | _ => cases hnode
    rw [hdate hx, hdate hz]
    exact .string _
  | null => exact .null
  | bool b => exact .bool b
  | string s => exact .string s
  | array hitems => exact .array hitems
  | object hperm hmembers => exact .object hperm hmembers

theorem metadataValue_eq {md : Metadata} {field : Text} {unknown : String}
    (hvalue : md.value = valueOfField value) (hz : listedValue env mayBeCompacted value = some z)
    (hfield : name = "observedAt".toList → field = name) :
    metadataValue env md name field mayBeCompacted unknown =
      (if isCompound value then "value".toList else field, datedAs env name z) := by
  unfold metadataValue datedAs
  rw [hvalue]
  have hdated : ∀ x, (if name = "observedAt".toList then
      ("observedAt".toList, KjNode.string (numberToDate env x)) else (field, .float x)) =
      (field, if name = "observedAt".toList then
        timestampToString env (.float x) else .float x) := by
    intro x
    by_cases hname : name = "observedAt".toList
    · rw [if_pos hname, if_pos hname, hfield hname, hname]
      rfl
    · rw [if_neg hname, if_neg hname]
  cases value with
  | double x =>
    cases hz
    exact hdated x
  | int32 i =>
    cases hz
    exact hdated i.toInt
  | int64 i => cases hz
  | _ =>
    cases hz
    by_cases hname : name = "observedAt".toList
    · rw [if_pos hname]
      rfl
    · rw [if_neg hname]
      rfl

theorem metadataNode_untyped (htype : md.type = [])
    (hz : listedValue env (metadataMayBeCompacted env (eqForDot key)) md.value = some z) :
    metadataNode env o (listedMetadata (key, md)) =
      (if isCompound md.value then "value".toList else metadataName env (eqForDot key),
        datedAs env (metadataName env (eqForDot key)) z) := by
  rw [listedMetadata_eq]
  unfold metadataNode
  rw [if_neg (not_not.mpr htype)]
  exact metadataValue_eq rfl hz fun _ => rfl

theorem metadataNode_typed (htype : md.type ≠ [])
    (hname : metadataName env (eqForDot key) ≠ "observedAt".toList)
    (hz : listedValue env (metadataMayBeCompacted env (eqForDot key)) md.value = some z) :
    metadataNode env o (listedMetadata (key, md)) =
      (metadataName env (eqForDot key), .object (("type".toList, .string md.type) ::
        orionldSysAttrs env o (md.createdAt.getD 0) (md.modifiedAt.getD 0) ++
        [(if isCompound md.value then "value".toList else valueFieldName md.type, z)])) := by
  rw [listedMetadata_eq]
  unfold metadataNode
  rw [if_pos htype, metadataValue_eq rfl hz fun h => absurd h hname]
  unfold datedAs
  rw [if_neg hname]

theorem unwrapped_shown (hn : bsonToKjTree value = some n) (h : isCompound value = false)
    (change : Members → Members) : onMembers change (datedAs env name n) = datedAs env name n := by
  unfold datedAs
  cases value with
  | array items => cases h
  | object fields => cases h
  | int64 i => cases hn
  | _ =>
    cases hn
    split <;> rfl

theorem typed_same {field : Text}
    (hdates : o.sysAttrs = true → md.createdAt.isSome ∧ md.modifiedAt.isSome)
    (hfield : field = valueFieldName md.type) (h : Same n z) :
    Same (.object (retrievedMetadata env o md n)) (.object (("type".toList, .string md.type) ::
      orionldSysAttrs env o (md.createdAt.getD 0) (md.modifiedAt.getD 0) ++ [(field, z)])) := by
  rw [same_object_iff, hfield]
  have hvalue : ObjectRel Same [(valueFieldName md.type, n)] [(valueFieldName md.type, z)] :=
    objectRel_single_iff.mpr h
  have htype := objectRel_refl [("type".toList, .string md.type)]
  unfold retrievedMetadata orionldSysAttrs
  cases hsys : o.sysAttrs with
  | false =>
    have hall := objectRel_append htype hvalue
    exact hall
  | true =>
    obtain ⟨hcreated, hmodified⟩ := hdates hsys
    obtain ⟨createdAt, hcreated⟩ := isSome_iff_exists.mp hcreated
    obtain ⟨modifiedAt, hmodified⟩ := isSome_iff_exists.mp hmodified
    rw [hcreated, hmodified]
    have hdated := objectRel_refl
      [("createdAt".toList, KjNode.string (numberToDate env createdAt)),
        ("modifiedAt".toList, KjNode.string (numberToDate env modifiedAt))]
    have hall := objectRel_append (objectRel_perm_right perm_append_comm
      (objectRel_append hdated htype)) hvalue
    exact hall

theorem metadata_alike_same (hagree : metadataName env (eqForDot key) =
    orionldContextItemAliasLookup env.toContexts (eqForDot key)) (h : MetadataAlike env o key md) :
    ∃ node z, metadataFix env (key, .object (metadataTree md)) =
        some ((metadataName env (eqForDot key), node), true) ∧
      metadataNode env o (listedMetadata (key, md)) = (metadataName env (eqForDot key), z) ∧
      Same (onMembers (stampsFix env o) node) z := by
  obtain ⟨hvalue, hrest⟩ := h
  obtain ⟨n, z, hn, hz, hsame⟩ := sub_value_same hvalue
  split at hrest
  · rename_i hname
    obtain ⟨htype, hcreated, hmodified, hscalar⟩ := hrest
    have hfix := metadataFix_unwrapped hn hname ⟨htype, hcreated, hmodified⟩
    rw [← hagree] at hfix
    have hnode := metadataNode_untyped (o := o) htype hz
    rw [hscalar] at hnode
    refine ⟨_, _, hfix, hnode, ?_⟩
    rw [unwrapped_shown hn hscalar]
    unfold datedAs
    split
    · exact same_timestamp hsame
    · exact hsame
  · rename_i hname
    obtain ⟨htype, hrel, hdates⟩ := hrest
    have hfix := metadataFix_wrapped hn (Bool.eq_false_iff.mpr hname)
    rw [if_neg htype, ← hagree] at hfix
    have hobserved : metadataName env (eqForDot key) ≠ "observedAt".toList := by
      intro h
      rw [hagree] at h
      exact hname (unwrapped_iff.mpr (.inl h))
    refine ⟨_, _, hfix, metadataNode_typed htype hobserved hz, ?_⟩
    rw [typedNode_shown hn htype]
    refine typed_same ?_ ?_ hsame
    · intro hsys
      rw [if_pos hsys] at hdates
      exact hdates
    · split
      · rename_i hcompound
        exact (if_neg (hrel hcompound)).symm
      · rfl

end

section

def isNumber : BsonValue → Bool
  | .double _ => true
  | .int32 _ => true
  | _ => false

/-- Both name the attribute alike, and, where its members are shown, its sub-attributes. -/
structure NamesAgree (key : Text) (a : StoredAttribute) : Prop where
  attrName : retrievedName env key =
    orionldContextItemAliasLookup env.toContexts (listedName key)
  mdNames : o.keyValues = false → ∀ m ∈ a.md, metadataName env (eqForDot m.1) =
    orionldContextItemAliasLookup env.toContexts (eqForDot m.1)

/-- No metadata ID, a type, a value that is no number observedAt makes a date, and sub-attributes
shown alike. -/
def AttributeAlike (key : Text) (a : StoredAttribute) : Prop :=
  ValueAlike env o (retrievedCompacts env o key a.type)
    (valueMayBeCompacted env.toContexts (listedName key)) a.value ∧
  (o.keyValues = false → (splitId key).2 = none ∧ a.type ≠ [] ∧
    (listedName key = "observedAt".toList → isNumber a.value = false) ∧
    ∀ m ∈ a.md, MetadataAlike env o m.1 m.2)

def listedValueMember (key : Text) (a : StoredAttribute) (z : KjNode) : Text × KjNode :=
  if listedName key = "observedAt".toList ∧ isNumber a.value = true then
    ("observedAt".toList, timestampToString env z)
  else (valueFieldName a.type, z)

variable {env} {o}
variable {key : Text} {a : StoredAttribute}

theorem attributeValue_eq {ca : ContextAttribute} {z : KjNode} {mayBeCompacted : Bool}
    (hname : ca.name = listedName key) (htype : ca.type = a.type)
    (hvalue : valueOfField a.value = some ca.value)
    (hz : listedValue env mayBeCompacted a.value = some z) :
    attributeValue env ca mayBeCompacted = listedValueMember env key a z := by
  have hshown : kjTreeFromCompoundValue env mayBeCompacted ca.value = z := by
    unfold listedValue at hz
    rw [hvalue] at hz
    exact some.inj hz
  unfold attributeValue listedValueMember
  rw [← hshown, hname, htype]
  have hdated : ∀ x, ca.value = .number x → isNumber a.value = true →
      (if listedName key = "observedAt".toList then
        ("observedAt".toList, KjNode.string (numberToDate env x))
      else (valueFieldName a.type, .float x)) =
      if listedName key = "observedAt".toList ∧ isNumber a.value = true then
        ("observedAt".toList,
          timestampToString env (kjTreeFromCompoundValue env mayBeCompacted ca.value))
      else (valueFieldName a.type, kjTreeFromCompoundValue env mayBeCompacted ca.value) := by
    intro x hx hnumber
    rw [hx]
    by_cases h : listedName key = "observedAt".toList
    · rw [if_pos h, if_pos ⟨h, hnumber⟩]
      rfl
    · rw [if_neg h, if_neg fun h' => h h'.1]
      rfl
  cases hstored : a.value with
  | double x =>
    rw [hstored] at hvalue hdated
    rw [← some.inj hvalue] at hdated ⊢
    exact hdated x rfl rfl
  | int32 i =>
    rw [hstored] at hvalue hdated
    rw [← some.inj hvalue] at hdated ⊢
    exact hdated i.toInt rfl rfl
  | int64 i =>
    rw [hstored] at hvalue
    cases hvalue
  | _ =>
    rw [hstored] at hvalue
    rw [← some.inj hvalue, if_neg fun h => by cases h.2]

theorem attributeNode_eq {z : KjNode} (hkey : o.keyValues = false)
    (hz : listedValue env (valueMayBeCompacted env.toContexts (listedName key)) a.value =
    some z) : ∃ ca ms, contextAttribute key (attributeDoc a) = some ca ∧
      attributeNode env o ca =
        (orionldContextItemAliasLookup env.toContexts (listedName key), .object ms) ∧
      (listedMembers env o a (splitId key).2 (listedValueMember env key a z)).Perm ms := by
  obtain ⟨value, hvalue, -⟩ := Option.map_eq_some_iff.mp hz
  obtain ⟨ca, hca, hname, htype, hcre, hmod, hcaValue, hvector⟩ := contextAttribute_ok hvalue key
  have hnode : attributeNode env o ca = (orionldContextItemAliasLookup env.toContexts ca.name,
      .object ((if ca.type ≠ [] then [("type".toList, .string ca.type)] else []) ++
        [attributeValue env ca (valueMayBeCompacted env.toContexts ca.name)] ++
        orionldSysAttrs env o ca.creDate ca.modDate ++
        ca.metadataVector.map (metadataNode env o))) := by
    unfold attributeNode
    rw [hkey]
    rfl
  have hpair := attributeValue_eq hname htype (hcaValue ▸ hvalue) hz
  rw [hname, htype, hcre, hmod, hpair] at hnode
  refine ⟨ca, _, hca, hnode, ?_⟩
  unfold listedMembers
  rw [append_assoc]
  refine List.Perm.append_left _ ?_
  have hnodes := (hvector.map (metadataNode env o)).symm
  rw [List.map_append, List.map_map, List.map_map] at hnodes
  exact hnodes

theorem metadatas_alike_same {md : List (Text × StoredMetadata)}
    (hagree : ∀ m ∈ md, metadataName env (eqForDot m.1) =
      orionldContextItemAliasLookup env.toContexts (eqForDot m.1))
    (h : ∀ m ∈ md, MetadataAlike env o m.1 m.2) :
    ∃ fixed, metadatasFix env (mdTree md) = some (fixed, true) ∧
      List.Forall₂ (fun x z => x.1 = z.1 ∧ Same (onMembers (stampsFix env o) x.2) z.2) fixed
        (md.map fun m => metadataNode env o (listedMetadata m)) := by
  induction md with
  | nil => exact ⟨[], rfl, .nil⟩
  | cons m md ih =>
    obtain ⟨key, m⟩ := m
    obtain ⟨fixed, hfixed, hall⟩ := ih (fun x hx => hagree x (mem_cons_of_mem _ hx))
      fun x hx => h x (mem_cons_of_mem _ hx)
    obtain ⟨node, z, hfix, hnode, hsame⟩ :=
      metadata_alike_same (hagree _ mem_cons_self) (h _ mem_cons_self)
    refine ⟨(metadataName env (eqForDot key), node) :: fixed, ?_, ?_⟩
    · rw [mdTree, map_cons, metadatasFix, hfix]
      change Option.bind (metadatasFix env (mdTree md)) _ = _
      rw [hfixed]
      rfl
    · rw [map_cons, hnode]
      exact .cons ⟨rfl, hsame⟩ hall

theorem metadata_not_stamp {md : StoredMetadata} (hsys : o.sysAttrs = false)
    (h : MetadataAlike env o key md) :
    orionldContextItemAliasLookup env.toContexts (eqForDot key) ∉ stampNames := by
  obtain ⟨-, hrest⟩ := h
  split at hrest
  · rename_i hname
    rcases unwrapped_iff.mp hname with hname | hname <;> (rw [hname]; decide)
  obtain ⟨-, -, hdates⟩ := hrest
  rw [if_neg (by simp [hsys])] at hdates
  exact hdates

theorem removeFirst_self {name : String} {ms : Members} (h : name.toList ∉ ms.map Prod.fst) :
    removeFirst name ms = ms := by
  apply eraseP_of_forall_not
  intro m hm hname
  exact h (mem_map.mpr ⟨m, hm, by simpa using hname⟩)

theorem subAttributes_same {fixed zs : Members}
    (hstamps : o.sysAttrs = false → ∀ z ∈ zs, z.1 ∉ stampNames)
    (h : List.Forall₂ (fun x z => x.1 = z.1 ∧ Same (onMembers (stampsFix env o) x.2) z.2)
      fixed zs) :
    List.Forall₂ (fun x z => x.1 = z.1 ∧ Same x.2 z.2) (subAttributes env o fixed) zs := by
  have hnames : fixed.map Prod.fst = zs.map Prod.fst := by
    clear hstamps
    induction h with
    | nil => rfl
    | cons hxz _ ih => rw [map_cons, map_cons, hxz.1, ih]
  unfold subAttributes
  cases hsys : o.sysAttrs with
  | true =>
    exact forall₂_map_left_iff.mpr h
  | false =>
    have hfree : ∀ name ∈ stampNames, name ∉ fixed.map Prod.fst := by
      intro name hname hmem
      rw [hnames] at hmem
      obtain ⟨z, hz, rfl⟩ := mem_map.mp hmem
      exact hstamps hsys z hz hname
    rw [if_neg (by decide), removeFirst_self (hfree _ (by decide)),
      removeFirst_self (hfree _ (by decide))]
    exact forall₂_map_left_iff.mpr h

def ShownAlike (env : DateEnv) (o : Options) (key : Text) (a : StoredAttribute) : Prop :=
  ∃ x ca z, attributeFix env o (key, .object (attributeTree a)) =
      some (retrievedName env key, x) ∧
    contextAttribute key (attributeDoc a) = some ca ∧
    attributeNode env o ca = (orionldContextItemAliasLookup env.toContexts (listedName key), z) ∧
    Same x z

theorem read_of_value {value : BsonValue} {v : CompoundValueNode}
    (h : valueOfField value = some v) : ∃ n, bsonToKjTree value = some n := by
  cases value with
  | int64 i => cases h
  | _ => exact ⟨_, rfl⟩

variable (env) (o) in
theorem retrieved_of_read {value : BsonValue} {n : KjNode} (h : bsonToKjTree value = some n)
    (compacts : Bool) : ∃ x, retrievedValue env o compacts value = some x := by
  unfold retrievedValue
  rw [h]
  exact ⟨_, rfl⟩

theorem attribute_keyValues_iff (hkey : o.keyValues = true) : ShownAlike env o key a ↔ BothShow
      (retrievedValue env o (retrievedCompacts env o key a.type) a.value)
      (listedValue env (valueMayBeCompacted env.toContexts (listedName key)) a.value) := by
  have hnode : ∀ {ca : ContextAttribute} {value : CompoundValueNode},
      ca.name = listedName key → ca.value = value →
      attributeNode env o ca = (orionldContextItemAliasLookup env.toContexts (listedName key),
        kjTreeFromCompoundValue env (valueMayBeCompacted env.toContexts (listedName key))
          value) := by
    intro ca value hname hvalue
    unfold attributeNode
    rw [hkey, hname, hvalue]
    rfl
  constructor
  · rintro ⟨x, ca, z, hfix, hca, hz, hsame⟩
    have heq := contextAttribute_eq key a
    rw [hca] at heq
    obtain ⟨value, hvalue, -⟩ := map_eq_some_iff.mp heq.symm
    obtain ⟨n, hn⟩ := read_of_value hvalue
    obtain ⟨x', hx'⟩ := retrieved_of_read env o hn (retrievedCompacts env o key a.type)
    rw [attributeFix_keyValues hkey hn hx'] at hfix
    obtain ⟨ca', hca', hname, -, -, -, hcaValue, -⟩ := contextAttribute_ok hvalue key
    obtain rfl := some.inj (hca.symm.trans hca')
    have hz' := (Prod.mk.inj ((hnode hname hcaValue).symm.trans hz)).2
    refine ⟨x', z, hx', ?_, (Prod.mk.inj (some.inj hfix)).2 ▸ hsame⟩
    unfold listedValue
    rw [hvalue, ← hz']
    rfl
  · rintro ⟨x, z, hx, hz, hsame⟩
    obtain ⟨n, hn, -⟩ := map_eq_some_iff.mp hx
    obtain ⟨value, hvalue, hshown⟩ := map_eq_some_iff.mp hz
    obtain ⟨ca, hca, hname, -, -, -, hcaValue, -⟩ := contextAttribute_ok hvalue key
    refine ⟨x, ca, z, attributeFix_keyValues hkey hn hx, hca, ?_, hsame⟩
    rw [hnode hname hcaValue, hshown]

theorem attribute_alike_same (hagree : NamesAgree env o key a) (h : AttributeAlike env o key a) :
    ShownAlike env o key a := by
  obtain ⟨hvalue, hmembers⟩ := h
  cases hkey : o.keyValues with
  | true => exact (attribute_keyValues_iff hkey).mpr (value_alike_same hvalue)
  | false =>
    obtain ⟨x, z, hx, hz, hsame⟩ := value_alike_same hvalue
    obtain ⟨hid, htype, hobserved, hmd⟩ := hmembers hkey
    obtain ⟨n, hn, -⟩ := map_eq_some_iff.mp hx
    obtain ⟨fixed, hfixed, hall⟩ := metadatas_alike_same (hagree.mdNames hkey) hmd
    obtain ⟨ca, ms, hca, hnode, hperm⟩ := attributeNode_eq hkey hz
    have hfix := attributeFix_eq hkey hn hx
    rw [hfixed] at hfix
    refine ⟨_, ca, _, hfix, hca, hnode, same_object_iff.mpr (objectRel_perm_right hperm ?_)⟩
    have hpair : listedValueMember env key a z = (valueFieldName a.type, z) :=
      if_neg fun h => by rw [hobserved h.1] at h; cases h.2
    have hstamps : o.sysAttrs = false →
        ∀ z ∈ a.md.map fun m => metadataNode env o (listedMetadata m), z.1 ∉ stampNames := by
      intro hsys z hz
      obtain ⟨m, hm, rfl⟩ := mem_map.mp hz
      have hname := hagree.mdNames hkey m hm
      obtain ⟨node, z, -, hshown, -⟩ := metadata_alike_same hname (hmd m hm)
      rw [hshown, hname]
      exact metadata_not_stamp hsys (hmd m hm)
    have hsubs := objectRel_of_forall₂ (subAttributes_same hstamps hall)
    have hhead := objectRel_append (objectRel_refl [("type".toList, .string a.type)])
      (objectRel_single_iff.mpr hsame : ObjectRel Same [(valueFieldName a.type, x)]
        [(valueFieldName a.type, z)])
    have hall := objectRel_append (objectRel_append hhead
      (objectRel_refl (orionldSysAttrs env o a.creDate a.modDate))) hsubs
    unfold retrievedMembers listedMembers
    rw [hpair, hid, if_pos htype, if_pos rfl, ← append_assoc]
    rw [toList_none, map_nil, append_nil]
    exact hall

end

end EntityAttributes
