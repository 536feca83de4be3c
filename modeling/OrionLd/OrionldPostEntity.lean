import OrionLd.MongoEntity

/-! POST /ngsi-ld/v1/entities/*/attrs: orionldPostEntity and attrDatasetIdInsert. A first pass
expands the names and drops what may not be overwritten, a second converts what is left. The entries
of the response also carry the long name they were made for. Database operations succeed. -/
namespace OrionldPostEntity

open KjTree OrionldContextItem KjTreeToContextAttribute FieldList MongoEntity

structure Updated where
  attr : Text
  attributeName : Text
  deriving DecidableEq, Repr

structure NotUpdated where
  attr : Text
  attributeName : Text
  reason : Text
  deriving DecidableEq, Repr

inductive PostError where
  | response (httpStatusCode : ℕ) (title : String) (details : Text)
  | fault
  deriving DecidableEq, Repr

def badRequest (title : String) (details : Text) : PostError := .response 400 title details

variable (env : Env)

def longName (name : Text) : Text := (orionldAttributeExpand env.toContexts name).1

/-- What is left of the payload, under long names, and what may not be overwritten. -/
def firstPass (noOverwrite : Bool) (attrNames : List Text) : Members → Members × List NotUpdated
  | [] => ([], [])
  | (name, node) :: members =>
    let (left, notUpdated) := firstPass noOverwrite attrNames members
    if isTimestamp name then (left, notUpdated)
    else if noOverwrite ∧ longName env name ∈ attrNames then
      (left, ⟨longName env name, name,
        "attribute already exists and overwrite is not allowed".toList⟩ :: notUpdated)
    else ((longName env name, node) :: left, notUpdated)

def stamped (members : Members) (createdAt : KjNode) : KjNode :=
  .object (members ++ [("createdAt".toList, createdAt),
    ("modifiedAt".toList, .float env.requestTime)])

/-- The instances with the one of the given datasetId overwritten, if there is one. -/
def replaceInstance (incoming : Members) (datasetId : Text) :
    List KjNode → Except PostError (Option (List KjNode))
  | [] => .ok none
  | instP :: instances =>
    match kjLookup instP "datasetId" with
    | none => .error (.response 500
        "No datasetId in attribute instance of @datasets for attribute" [])
    | some (.string id) =>
      if id = datasetId then
        match kjLookup instP "createdAt" with
        | some createdAt => .ok (some (stamped env incoming createdAt :: instances))
        | none => .error .fault
      else do
        let replaced ← replaceInstance incoming datasetId instances
        .ok (replaced.map (instP :: ·))
    | some _ => .error .fault

def insertInstance (incoming : Members) (datasetId : Text) (slot : List KjNode) :
    Except PostError (List KjNode) := do
  match ← replaceInstance env incoming datasetId slot with
  | some slot => .ok slot
  | none => .ok (slot ++ [stamped env incoming (.float env.requestTime)])

def attrDatasetIdInsert (datasets : List (Text × List KjNode)) (attrName : Text)
    (incoming : Members) (datasetId : Text) : Except PostError (List (Text × List KjNode)) := do
  let slot ← insertInstance env incoming datasetId ((datasets.lookup (dotForEq attrName)).getD [])
  .ok (put (dotForEq attrName) slot datasets)

/-- The instances with a datasetId are moved to @datasets. -/
def takeDatasets (attrName : Text) : List KjNode → Option (List (Text × List KjNode)) →
    Except PostError (Option (List (Text × List KjNode)) × List KjNode)
  | [], datasets => .ok (datasets, [])
  | .object members :: items, datasets =>
    match members.lookup "datasetId".toList with
    | some (.string id) =>
      if pcheckUri id then do
        let d ← attrDatasetIdInsert env (datasets.getD []) attrName members id
        takeDatasets attrName items (some d)
      else .error (badRequest "Not a URI" "datasetId".toList)
    | some _ => .error (badRequest "Not a JSON String" "datasetId".toList)
    | none => do
      let (d, left) ← takeDatasets attrName items datasets
      .ok (d, .object members :: left)
  | _ :: _, _ => .error (badRequest "Not a JSON Object" "attribute instance".toList)

structure PostState where
  datasets : Option (List (Text × List KjNode))
  notOnlyDatasets : Bool
  contextAttributeVector : List ContextAttribute
  updated : List Updated
  notUpdated : List NotUpdated

def PostState.refuse (s : PostState) (name reason : Text) : PostState :=
  { s with notUpdated := s.notUpdated ++
      [⟨name, orionldContextItemAliasLookup env.toContexts name, reason⟩] }

def PostState.accept (s : PostState) (name : Text) (ca : ContextAttribute) : PostState :=
  { s with
    updated := s.updated ++ [⟨name, orionldContextItemAliasLookup env.toContexts name⟩]
    contextAttributeVector := s.contextAttributeVector ++ [ca] }

def convertInstance (reason : String → String → Text → Text) (s : PostState) (name : Text)
    (node : KjNode) : Except PostError PostState :=
  match kjTreeToContextAttribute env name node with
  | .ok ca => .ok (s.accept env name ca)
  | .error (.refused detail title details) => .ok (s.refuse env name (reason detail title details))
  | .error .fault => .error .fault

def detailOnly (detail _title : String) (_details : Text) : Text := detail.toList
def titleAndDetail (_detail title : String) (details : Text) : Text :=
  (title.toList ++ ": ".toList ++ details).take 255

def isEmptyObject : KjNode → Bool
  | .object [] => true
  | _ => false

def convertOther (s : PostState) (name : Text) (node : KjNode) :
    Except PostError (PostState × Bool) :=
  let s := { s with notOnlyDatasets := true }
  if (kjLookup node "datasetId").isSome then
    .ok (s.refuse env name "datasetId given but not an array".toList, false)
  else do
    let s ← convertInstance env titleAndDetail s name node
    .ok (s, false)

/-- With whether it has set attrP->next to NULL, as for an array that is turned into the object of
its only default instance. The last child is then taken from the first member of that instance. -/
def convertMember (s : PostState) (m : Text × KjNode) : Except PostError (PostState × Bool) :=
  match m.2 with
  | .array items => do
    let (datasets, left) ← takeDatasets env m.1 items s.datasets
    match left with
    | [] => .ok ({ s with datasets := datasets }, false)
    | [instP] =>
      if isEmptyObject instP then .error .fault
      else do
        let s ← convertInstance env detailOnly
          { s with datasets := datasets, notOnlyDatasets := true } m.1 instP
        .ok (s, true)
    | _ => .error (badRequest "more than one instance without datasetId for an attribute" m.1)
  | node => convertOther env s m.1 node

def convertMembers : Members → PostState → Except PostError PostState
  | [], s => .ok s
  | m :: members, s => do
    let (s, cut) ← convertMember env s m
    if cut then .ok s else convertMembers members s

structure PostResult where
  entity : Entity
  contextAttributeVector : List ContextAttribute
  updated : List Updated
  notUpdated : List NotUpdated
  httpStatusCode : ℕ

def statusCode (notUpdated : List NotUpdated) : ℕ := if notUpdated = [] then 204 else 207

/-- The three writes: @datasets, the deletion and the append. -/
def writeEntity (merge : MergeAttrInfo) (noOverwrite : Bool) (attrNameV : List Text)
    (s : PostState) (e : Entity) : Entity :=
  let e := match s.datasets with
    | some d => { e with datasets := some d }
    | none => e
  if s.notOnlyDatasets then
    mongoUpdateContextAppend env merge noOverwrite (dbEntityAttributesDelete e attrNameV)
      s.contextAttributeVector
  else e

def attrNameV (left : Members) : List Text := left.map fun m => dotForEq m.1

def postMembers (merge : MergeAttrInfo) (noOverwrite : Bool) (e : Entity) (members : Members) :
    Except PostError PostResult := do
  let (left, notUpdated) := firstPass env noOverwrite e.attrNames members
  if left = [] then .ok ⟨e, [], [], notUpdated, statusCode notUpdated⟩
  else do
    let s ← convertMembers env left ⟨e.datasets, false, [], [], notUpdated⟩
    .ok ⟨writeEntity env merge noOverwrite (attrNameV left) s e, s.contextAttributeVector,
      s.updated, s.notUpdated, statusCode s.notUpdated⟩

/-- With what dbEntityLookup has found. -/
def orionldPostEntity (merge : MergeAttrInfo) (noOverwrite : Bool) (dbEntity : Option Entity)
    (entityId : Text) (requestTree : KjNode) : Except PostError PostResult :=
  if !pcheckUri entityId then .error (badRequest "Entity ID must be a valid URI" entityId)
  else match requestTree with
    | .object members =>
      match dbEntity with
      | none => .error (.response 404 "Entity does not exist" entityId)
      | some e => postMembers env merge noOverwrite e members
    | node => .error (badRequest "Not a JSON Object" (kjValueType node).toList)

def hasDatasetId (node : KjNode) : Bool := (kjLookup node "datasetId").isSome

/-- No default instance: an array whose instances all have a datasetId. -/
def onlyDatasets : KjNode → Bool
  | .array items => items.all hasDatasetId
  | _ => false

def lifted : KjNode → Bool
  | .array items => (items.filter (!hasDatasetId ·)).length == 1
  | _ => false

def reached : Members → Members
  | [] => []
  | m :: members => if lifted m.2 then [m] else m :: reached members

inductive Treatment where
  | updated (ca : ContextAttribute)
  | notUpdated (reason : Text)
  | inDatasets

def ofConversion (reason : String → String → Text → Text) :
    Except ConversionError ContextAttribute → Treatment
  | .ok ca => .updated ca
  | .error (.refused detail title details) => .notUpdated (reason detail title details)
  | .error .fault => .inDatasets

/-- What the loop does with the default instance of a member, by the member alone. -/
def treatment (m : Text × KjNode) : Treatment :=
  match m.2 with
  | .array items =>
    match items.filter (!hasDatasetId ·) with
    | [instP] => ofConversion detailOnly (kjTreeToContextAttribute env m.1 instP)
    | _ => .inDatasets
  | node =>
    if hasDatasetId node then .notUpdated "datasetId given but not an array".toList
    else ofConversion titleAndDetail (kjTreeToContextAttribute env m.1 node)

def PostState.judged (s : PostState) (name : Text) : Treatment → PostState
  | .updated ca => s.accept env name ca
  | .notUpdated reason => s.refuse env name reason
  | .inDatasets => s

def PostState.treated (s : PostState) (m : Text × KjNode) : PostState :=
  ({ s with notOnlyDatasets := s.notOnlyDatasets || !onlyDatasets m.2 }).judged env m.1
    (treatment env m)

def noFault : Except ConversionError ContextAttribute → Except PostError Unit
  | .error .fault => .error .fault
  | _ => .ok ()

/-- The errors that a member causes whatever the state. -/
def acceptable (m : Text × KjNode) : Except PostError Unit :=
  match m.2 with
  | .array items =>
    match items.filter (!hasDatasetId ·) with
    | [] => .ok ()
    | [instP] =>
      if isEmptyObject instP then .error .fault
      else noFault (kjTreeToContextAttribute env m.1 instP)
    | _ => .error (badRequest "more than one instance without datasetId for an attribute" m.1)
  | node => if hasDatasetId node then .ok () else noFault (kjTreeToContextAttribute env m.1 node)

def slotAfter : List KjNode → List KjNode → Except PostError (List KjNode)
  | [], slot => .ok slot
  | .object members :: items, slot =>
    match members.lookup "datasetId".toList with
    | some (.string id) =>
      if pcheckUri id then do
        let slot ← insertInstance env members id slot
        slotAfter items slot
      else .error (badRequest "Not a URI" "datasetId".toList)
    | some _ => .error (badRequest "Not a JSON String" "datasetId".toList)
    | none => slotAfter items slot
  | _ :: _, _ => .error (badRequest "Not a JSON Object" "attribute instance".toList)

def slotOf (datasets : Option (List (Text × List KjNode))) (key : Text) : List KjNode :=
  ((datasets.getD []).lookup key).getD []

def withSlot (datasets : Option (List (Text × List KjNode))) (m : Text × KjNode)
    (slot : List KjNode) : Option (List (Text × List KjNode)) :=
  match m.2 with
  | .array items =>
    if items.any hasDatasetId then some (put (dotForEq m.1) slot (datasets.getD [])) else datasets
  | _ => datasets

def memberSlot (m : Text × KjNode) (slot : List KjNode) : Except PostError (List KjNode) :=
  match m.2 with
  | .array items => slotAfter env items slot
  | _ => .ok slot

variable {env}

theorem slotAfter_of_no_dataset {items slot slot' : List KjNode}
    (h : slotAfter env items slot = .ok slot') (hno : items.any hasDatasetId = false) :
    slot' = slot := by
  induction items with
  | nil => exact (Except.ok.inj h).symm
  | cons item items ih =>
    rw [List.any_cons, Bool.or_eq_false_iff] at hno
    cases item with
    | object members =>
      have hnone : members.lookup "datasetId".toList = none := by
        simpa [hasDatasetId, kjLookup] using hno.1
      rw [slotAfter, hnone] at h
      exact ih h hno.2
    | _ => cases h

theorem takeDatasets_eq (name : Text) (items : List KjNode)
    (datasets : Option (List (Text × List KjNode))) :
    takeDatasets env name items datasets =
      (slotAfter env items (slotOf datasets (dotForEq name))).map fun slot =>
        (withSlot datasets (name, .array items) slot, items.filter (!hasDatasetId ·)) := by
  induction items generalizing datasets with
  | nil => rfl
  | cons item items ih =>
    cases item with
    | object members =>
      have hhas : hasDatasetId (.object members) = (members.lookup "datasetId".toList).isSome := rfl
      rw [takeDatasets, slotAfter]
      split
      · rename_i id hid
        have hd : hasDatasetId (.object members) = true := by rw [hhas, hid]; rfl
        split
        · have hins : attrDatasetIdInsert env (datasets.getD []) name members id =
              (insertInstance env members id (slotOf datasets (dotForEq name))).map fun slot =>
                put (dotForEq name) slot (datasets.getD []) := by
            unfold attrDatasetIdInsert slotOf
            cases insertInstance env members id _ <;> rfl
          rw [hins]
          cases insertInstance env members id (slotOf datasets (dotForEq name)) with
          | error e => rfl
          | ok slot =>
            simp only [Except.map, bind, Except.bind]
            rw [ih]
            have hslot : slotOf (some (put (dotForEq name) slot (datasets.getD [])))
                (dotForEq name) = slot := by simp [slotOf]
            rw [hslot]
            cases hafter : slotAfter env items slot with
            | error e => rfl
            | ok slot' =>
              by_cases hany : items.any hasDatasetId = true
              · simp [Except.map, withSlot, List.any_cons, hany, hd, put_put]
              rw [Bool.not_eq_true] at hany
              have heq := slotAfter_of_no_dataset hafter hany
              simp [Except.map, withSlot, List.any_cons, hany, hd, heq]
        · rfl
      · rfl
      · rename_i hid
        have hd : hasDatasetId (.object members) = false := by rw [hhas, hid]; rfl
        rw [ih]
        cases hafter : slotAfter env items (slotOf datasets (dotForEq name)) with
        | error e => rfl
        | ok slot' => simp [Except.map, bind, Except.bind, withSlot, hd]
    | null => rfl
    | bool b => rfl
    | int i => rfl
    | float f => rfl
    | string s => rfl
    | array items => rfl

theorem convertDefault_eq (reason : String → String → Text → Text) (s : PostState) (name : Text)
    (node : KjNode) (cut : Bool) :
    ((convertInstance env reason s name node).bind fun s => .ok (s, cut)) =
      (noFault (kjTreeToContextAttribute env name node)).map fun _ =>
        (s.judged env name
          (ofConversion reason (kjTreeToContextAttribute env name node)), cut) := by
  unfold convertInstance
  cases kjTreeToContextAttribute env name node with
  | ok ca => rfl
  | error e => cases e <;> rfl

theorem convertOther_eq (s : PostState) (name : Text) (node : KjNode) :
    convertOther env s name node =
      (if hasDatasetId node then .ok () else noFault (kjTreeToContextAttribute env name node)).map
        fun _ => (({ s with notOnlyDatasets := s.notOnlyDatasets || true }).judged env name
          (if hasDatasetId node then .notUpdated "datasetId given but not an array".toList
            else ofConversion titleAndDetail (kjTreeToContextAttribute env name node)), false) := by
  rw [Bool.or_true]
  by_cases h : hasDatasetId node = true
  · simp only [convertOther, h, if_true]
    exact if_pos h
  simp only [h]
  exact (if_neg h).trans
    (convertDefault_eq titleAndDetail { s with notOnlyDatasets := true } name node false)

theorem onlyDatasets_array (items : List KjNode) :
    onlyDatasets (.array items) = (items.filter (!hasDatasetId ·)).isEmpty := by
  induction items with
  | nil => rfl
  | cons item items ih => by_cases h : hasDatasetId item = true <;> simp_all [onlyDatasets]

theorem convertMember_eq (s : PostState) (m : Text × KjNode) :
    convertMember env s m =
      (memberSlot env m (slotOf s.datasets (dotForEq m.1))).bind fun slot =>
        (acceptable env m).map fun _ =>
          (({ s with datasets := withSlot s.datasets m slot }).treated env m, lifted m.2) := by
  obtain ⟨name, node⟩ := m
  cases node with
  | array items =>
    simp only [convertMember, takeDatasets_eq, memberSlot]
    cases slotAfter env items (slotOf s.datasets (dotForEq name)) with
    | error e => rfl
    | ok slot =>
      simp only [Except.map, Except.bind, bind, acceptable, PostState.treated, treatment, lifted,
        onlyDatasets_array]
      generalize withSlot s.datasets (name, .array items) slot = datasets
      generalize items.filter (!hasDatasetId ·) = left
      rcases left with _ | ⟨x, _ | ⟨y, left⟩⟩
      · simp [PostState.judged]
      · by_cases hx : isEmptyObject x = true
        · simp [hx]
        · simpa [hx, Except.map, Except.bind] using convertDefault_eq detailOnly
            { s with datasets := datasets, notOnlyDatasets := true } name x true
      · rfl
  | null => exact convertOther_eq s name .null
  | bool b => exact convertOther_eq s name (.bool b)
  | int i => exact convertOther_eq s name (.int i)
  | float f => exact convertOther_eq s name (.float f)
  | string t => exact convertOther_eq s name (.string t)
  | object members => exact convertOther_eq s name (.object members)

variable (env : Env)

def convertedBy (m : Text × KjNode) : Option ContextAttribute :=
  match treatment env m with
  | .updated ca => some ca
  | _ => none

def updatedBy (m : Text × KjNode) : Option Updated :=
  match treatment env m with
  | .updated _ => some ⟨m.1, orionldContextItemAliasLookup env.toContexts m.1⟩
  | _ => none

def notUpdatedBy (m : Text × KjNode) : Option NotUpdated :=
  match treatment env m with
  | .notUpdated reason => some ⟨m.1, orionldContextItemAliasLookup env.toContexts m.1, reason⟩
  | _ => none

def leftBy (noOverwrite : Bool) (attrNames : List Text) (m : Text × KjNode) :
    Option (Text × KjNode) :=
  if isTimestamp m.1 ∨ noOverwrite ∧ longName env m.1 ∈ attrNames then none
  else some (longName env m.1, m.2)

def keptBy (noOverwrite : Bool) (attrNames : List Text) (m : Text × KjNode) : Option NotUpdated :=
  if isTimestamp m.1 = false ∧ noOverwrite ∧ longName env m.1 ∈ attrNames then
    some ⟨longName env m.1, m.1, "attribute already exists and overwrite is not allowed".toList⟩
  else none

variable {env} {s s' : PostState} {m : Text × KjNode} {members : Members}
variable {ca : ContextAttribute}

theorem ofConversion_updated {reason : String → String → Text → Text}
    {c : Except ConversionError ContextAttribute} (h : ofConversion reason c = .updated ca) :
    c = .ok ca := by
  cases c with
  | ok ca' => rw [Treatment.updated.inj h]
  | error e => cases e <;> cases h

theorem treatment_updated (h : treatment env m = .updated ca) :
    ∃ node, kjTreeToContextAttribute env m.1 node = .ok ca := by
  unfold treatment at h
  split at h
  · split at h
    · exact ⟨_, ofConversion_updated h⟩
    · cases h
  split at h
  · cases h
  · exact ⟨_, ofConversion_updated h⟩

theorem convertedBy_name (h : convertedBy env m = some ca) : ca.name = longName env m.1 := by
  unfold convertedBy at h
  split at h
  · rename_i ht
    obtain ⟨node, hnode⟩ := treatment_updated ht
    rw [← Option.some.inj h]
    exact kjTreeToContextAttribute_name hnode
  · cases h

theorem convertMember_ok {cut : Bool} (h : convertMember env s m = .ok (s', cut)) :
    ∃ slot, memberSlot env m (slotOf s.datasets (dotForEq m.1)) = .ok slot ∧
      acceptable env m = .ok () ∧
      s' = ({ s with datasets := withSlot s.datasets m slot }).treated env m ∧
      cut = lifted m.2 := by
  rw [convertMember_eq] at h
  cases hslot : memberSlot env m (slotOf s.datasets (dotForEq m.1)) with
  | error e => rw [hslot] at h; cases h
  | ok slot =>
    rw [hslot] at h
    cases hacc : acceptable env m with
    | error e => rw [hacc] at h; cases h
    | ok u =>
      rw [hacc] at h
      obtain ⟨hs, hcut⟩ := Prod.mk.inj (Except.ok.inj h)
      exact ⟨slot, rfl, rfl, hs.symm, hcut.symm⟩

theorem treated_lists (env : Env) (s : PostState) (m : Text × KjNode) :
    (s.treated env m).contextAttributeVector =
        s.contextAttributeVector ++ (convertedBy env m).toList ∧
      (s.treated env m).updated = s.updated ++ (updatedBy env m).toList ∧
      (s.treated env m).notUpdated = s.notUpdated ++ (notUpdatedBy env m).toList ∧
      (s.treated env m).notOnlyDatasets = (s.notOnlyDatasets || !onlyDatasets m.2) ∧
      (s.treated env m).datasets = s.datasets := by
  unfold PostState.treated convertedBy updatedBy notUpdatedBy
  cases treatment env m <;>
    simp [PostState.judged, PostState.accept, PostState.refuse]

theorem filterMap_cons_toList {α β : Type} (f : α → Option β) (a : α) (l : List α) :
    (a :: l).filterMap f = (f a).toList ++ l.filterMap f := by
  rw [List.filterMap_cons]
  cases f a <;> rfl

theorem convertMembers_lists (h : convertMembers env members s = .ok s') :
    s'.contextAttributeVector =
        s.contextAttributeVector ++ (reached members).filterMap (convertedBy env) ∧
      s'.updated = s.updated ++ (reached members).filterMap (updatedBy env) ∧
      s'.notUpdated = s.notUpdated ++ (reached members).filterMap (notUpdatedBy env) ∧
      s'.notOnlyDatasets = (s.notOnlyDatasets || (reached members).any (!onlyDatasets ·.2)) := by
  induction members generalizing s with
  | nil =>
    cases h
    simp [reached]
  | cons m members ih =>
    rw [convertMembers] at h
    cases hm : convertMember env s m with
    | error e => rw [hm] at h; cases h
    | ok p =>
      obtain ⟨s₁, cut⟩ := p
      rw [hm] at h
      obtain ⟨slot, -, -, rfl, rfl⟩ := convertMember_ok hm
      have hl := treated_lists env { s with datasets := withSlot s.datasets m slot } m
      simp only [bind, Except.bind] at h
      split at h
      · next hcut =>
        cases h
        simp [reached, hcut, hl, filterMap_cons_toList]
      · next hcut =>
        simp [reached, hcut, ih h, hl, filterMap_cons_toList, Bool.or_assoc]

theorem firstPass_eq (noOverwrite : Bool) (attrNames : List Text) (members : Members) :
    firstPass env noOverwrite attrNames members =
      (members.filterMap (leftBy env noOverwrite attrNames),
        members.filterMap (keptBy env noOverwrite attrNames)) := by
  induction members with
  | nil => rfl
  | cons m members ih =>
    rw [firstPass, ih]
    simp only [leftBy, keptBy, List.filterMap_cons]
    by_cases ht : isTimestamp m.1 = true
    · simp [ht]
    · by_cases hn : noOverwrite ∧ longName env m.1 ∈ attrNames <;> simp [ht, hn]

/-- A payload of which nothing is left goes through the same writes as any other. -/
theorem postMembers_eq (merge : MergeAttrInfo) (noOverwrite : Bool) (e : Entity)
    (members : Members) :
    postMembers env merge noOverwrite e members =
      (convertMembers env (members.filterMap (leftBy env noOverwrite e.attrNames))
        ⟨e.datasets, false, [], [], members.filterMap (keptBy env noOverwrite e.attrNames)⟩).map
        fun s => ⟨writeEntity env merge noOverwrite
            (attrNameV (members.filterMap (leftBy env noOverwrite e.attrNames))) s e,
          s.contextAttributeVector, s.updated, s.notUpdated, statusCode s.notUpdated⟩ := by
  unfold postMembers
  rw [firstPass_eq]
  simp only
  split
  · rename_i hnil
    obtain ⟨attrs, attrNames, datasets⟩ := e
    rw [hnil]
    cases datasets <;> rfl
  · cases convertMembers env _ _ <;> rfl

theorem writeEntity_fields (env : Env) (merge : MergeAttrInfo) (noOverwrite : Bool) (e : Entity)
    (s : PostState) (names : List Text) :
    let e' := if s.notOnlyDatasets then
        mongoUpdateContextAppend env merge noOverwrite (dbEntityAttributesDelete e names)
          s.contextAttributeVector
      else e
    (writeEntity env merge noOverwrite names s e).attrs = e'.attrs ∧
      (writeEntity env merge noOverwrite names s e).attrNames = e'.attrNames := by
  unfold writeEntity
  cases s.datasets <;> cases s.notOnlyDatasets <;> exact ⟨rfl, rfl⟩

def payloadMembers : KjNode → Members
  | .object members => members
  | _ => []

theorem orionldPostEntity_ok {merge : MergeAttrInfo} {noOverwrite : Bool} {e : Entity}
    {entityId : Text} {requestTree : KjNode} {r : PostResult}
    (h : orionldPostEntity env merge noOverwrite (some e) entityId requestTree = .ok r) :
    pcheckUri entityId = true ∧
      postMembers env merge noOverwrite e (payloadMembers requestTree) = .ok r := by
  unfold orionldPostEntity at h
  split at h
  · cases h
  rename_i hid
  refine ⟨by simpa using hid, ?_⟩
  cases requestTree with
  | object members => exact h
  | _ => cases h

theorem orionldPostEntity_object (merge : MergeAttrInfo) (noOverwrite : Bool) (e : Entity)
    {entityId : Text} (hid : pcheckUri entityId = true) (members : Members) :
    orionldPostEntity env merge noOverwrite (some e) entityId (.object members) =
      postMembers env merge noOverwrite e members := by
  unfold orionldPostEntity
  rw [if_neg (by simp [hid])]

def plainEnv : Env where
  core := []
  context := []
  defaultUrl := "https://uri.etsi.org/ngsi-ld/default-context/".toList
  parse8601Time := fun _ => none
  valueAsInteger := fun _ => 0
  integerAsDouble := fun _ => 0
  requestTime := 2

def storedName (shortName : String) : Text := dotForEq (plainEnv.defaultUrl ++ shortName.toList)

def storedEntity (shortNames : List String) : Entity where
  attrs := shortNames.map fun n => (storedName n, ⟨.property, .num 1, [], [], 1, 1⟩)
  attrNames := shortNames.map fun n => plainEnv.defaultUrl ++ n.toList
  datasets := none

def propertyMembers (i : ℤ) : Members :=
  [("type".toList, .string "Property".toList), ("value".toList, .int i)]

end OrionldPostEntity
