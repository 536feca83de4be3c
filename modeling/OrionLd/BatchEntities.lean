import OrionLd.KjTreeToContextAttribute
import Mathlib.Data.List.Nodup

/-! The payload of a batch operation on entities: the extraction of the entities and of their
identifiers, the errors array, the lookup in the database and the conversion of the entities for
mongoUpdateContext. -/
namespace BatchEntities

open KjTree OrionldContextItem KjTreeToContextAttribute Fallible List

inductive ErrorType where
  | badRequestData
  | internalError
  | resourceNotFound
  deriving DecidableEq, Repr

structure BatchEntityError where
  entityId : Text
  type : ErrorType
  title : Text
  detail : Option Text
  status : ℕ
  deriving DecidableEq

abbrev Errors := List BatchEntityError

def entityErrorPush (errorsArray : Errors) (error : BatchEntityError) (avoidDuplicate : Bool) :
    Errors :=
  if avoidDuplicate && errorsArray.any (fun e => e.entityId = error.entityId) then errorsArray
  else errorsArray ++ [error]

def badRequest (entityId : Text) (title : String) (detail : Option Text) : BatchEntityError :=
  ⟨entityId, .badRequestData, title.toList, detail, 400⟩

def errorIds (errorsArray : Errors) : List Text := errorsArray.map BatchEntityError.entityId

variable {errorsArray : Errors} {error : BatchEntityError} {a : Text} {e : BatchEntity}
variable {removeArray : List Text}

theorem mem_errorIds_push {avoidDuplicate : Bool} :
    a ∈ errorIds (entityErrorPush errorsArray error avoidDuplicate) ↔
      a ∈ errorIds errorsArray ∨ a = error.entityId := by
  unfold entityErrorPush errorIds
  split_ifs with h
  · obtain ⟨e, he, hid⟩ := any_eq_true.mp (Bool.and_eq_true_iff.mp h).2
    constructor
    · exact .inl
    · rintro (ha | rfl)
      · exact ha
      · exact mem_map.mpr ⟨e, he, of_decide_eq_true hid⟩
  · rw [map_append, mem_append, map_singleton, mem_singleton]

structure TypeMember where
  atType : Bool
  value : Text
  deriving DecidableEq

/-- One identifier and at most one type, under "id" or "@id" and "type" or "@type". -/
structure BatchEntity where
  id : Text
  atId : Bool
  type : Option TypeMember
  members : Members

def isIdName (name : Text) : Bool := name = "id".toList || name = "@id".toList

def isTypeName (name : Text) : Bool := name = "type".toList || name = "@type".toList

/-- An error and whether it is left out when its entity has one already. -/
abbrev Refusal := BatchEntityError × Bool

def entityIdCheck : Members → Except Refusal (Text × Bool)
  | [] => .error (badRequest "no entity::id".toList "mandatory field missing"
      (some "entity::id".toList), true)
  | (name, .string s) :: others =>
    if pcheckUri s then
      match others with
      | [] => .ok (s, name = "@id".toList)
      | _ :: _ => .error (badRequest s "Duplicated field" (some "entity::id".toList), true)
    else .error (badRequest s "Not a URI" (some s), false)
  | _ :: _ => .error (badRequest "invalid entity::id".toList "field with invalid type"
      (some "entity::id".toList), false)

def entityTypeCheck (entityId : Text) : Members → Except Refusal (Option TypeMember)
  | [] => .ok none
  | (name, node) :: others =>
    match others with
    | _ :: _ =>
      .error (badRequest entityId "Duplicated field" (some "entity::type".toList), false)
    | [] =>
      match node with
      | .string s => .ok (some ⟨name = "@type".toList, s⟩)
      | _ => .error (badRequest entityId "field with invalid type"
          (some "entity::type".toList), false)

def entityIdAndTypeGet (item : Members) : Except Refusal BatchEntity := do
  let (id, atId) ← entityIdCheck (item.filter fun m => isIdName m.1)
  let type ← entityTypeCheck id (item.filter fun m => isTypeName m.1)
  .ok ⟨id, atId, type, item.filter fun m => !isIdName m.1 && !isTypeName m.1⟩

def extract (check : Members → Except Refusal BatchEntity) :
    List Members → Errors → List BatchEntity × Errors
  | [], errorsArray => ([], errorsArray)
  | item :: entityArray, errorsArray =>
    match check item with
    | .ok e => ((e :: (extract check entityArray errorsArray).1),
        (extract check entityArray errorsArray).2)
    | .error (error, avoidDuplicate) =>
      extract check entityArray (entityErrorPush errorsArray error avoidDuplicate)

/-- entityIdPush for each entity: an identifier is taken once. -/
def idArray (tree : List BatchEntity) : List Text :=
  tree.foldl (fun ids e => if e.id ∈ ids then ids else ids ++ [e.id]) []

/-- What is read as the children of an item. Only those of an object have names to compare with. -/
def children : KjNode → Option Members
  | .object members => some members
  | .array [] => some []
  | _ => none

def accepted (check : Members → Except Refusal BatchEntity) (payload : List KjNode) :
    List BatchEntity :=
  payload.filterMap fun node => (children node).bind fun item => (check item).toOption

def entityLookupById (tree : List BatchEntity) (a : Text) : Option BatchEntity :=
  tree.find? fun e => e.id = a

/-- kjChildRemove of the entity that entityLookupById finds. -/
def removeById (tree : List BatchEntity) (a : Text) : List BatchEntity :=
  tree.eraseP fun e => e.id = a

def instances (a : Text) (tree : List BatchEntity) : List BatchEntity :=
  tree.filter fun e => e.id = a

/-- A document of the entities collection; rest stands for the attributes and their data. -/
structure EntityDoc (κ : Type) where
  id : Text
  type : Option Text
  creDate : Option ℚ
  attrNames : Option (List Text)
  rest : κ

structure DbEntity where
  id : Text
  type : Text
  creDate : ℚ
  attrNames : List Text

variable {κ : Type}

/-- A document without a type or a creation date is skipped. -/
def tinyEntity (doc : EntityDoc κ) : Option DbEntity :=
  match doc.type, doc.creDate with
  | some type, some creDate => some ⟨doc.id, type, creDate, doc.attrNames.getD []⟩
  | _, _ => none

/-- At most 1000 entities; no array at all when there is none. -/
def entityListLookupWithIdTypeCreDate (db : List (EntityDoc κ)) (entityIds : List Text) :
    Option (List DbEntity) :=
  match ((db.filter fun doc => doc.id ∈ entityIds).filterMap tinyEntity).take 1000 with
  | [] => none
  | entities => some entities

def lookupInDb (dbEntities : Option (List DbEntity)) (a : Text) : Option DbEntity :=
  (dbEntities.getD []).find? fun d => d.id = a

def hasType (dbEntities : Option (List DbEntity)) (e : BatchEntity) : Bool :=
  (lookupInDb dbEntities e.id).isSome || e.type.isSome

/-- An entity without an identifier, which the source looks for again, is no BatchEntity. -/
def typeCheckForNonExistingEntities (dbEntities : Option (List DbEntity)) :
    List BatchEntity → Errors → List Text → List BatchEntity × Errors × List Text
  | [], errorsArray, removeArray => ([], errorsArray, removeArray)
  | e :: tree, errorsArray, removeArray =>
    if hasType dbEntities e then
      let out := typeCheckForNonExistingEntities dbEntities tree errorsArray removeArray
      (e :: out.1, out.2)
    else
      typeCheckForNonExistingEntities dbEntities tree
        (entityErrorPush errorsArray (badRequest e.id "Invalid Entity"
          (some "Mandatory field entity::type is missing".toList)) false)
        (removeArray.erase e.id)

/-- Two instances under "id": kjLookup of "id" does not see an "@id". -/
def repeats (e copy : BatchEntity) : Bool := !e.atId && !copy.atId && e.id = copy.id

structure ContextProblem where
  title : Text
  detail : Text
  status : ℕ

/-- What the request has besides its payload. The context of env is orionldState.contextP. -/
structure Request where
  env : Env
  coreContext : Contexts
  ngsildContent : Bool
  linkHttpHeaderPresent : Bool
  noOverwrite : Bool
  update : Bool
  replace : Bool
  contextFromTree : KjNode → Except ContextProblem Contexts

structure Element where
  id : Text
  type : Text
  attributes : List ContextAttribute

inductive NoElement where
  | refused (error : BatchEntityError)
  | fault

variable (r : Request)

/-- The checks of kjEntityIdArrayExtract after those of the identifier and of the type. -/
def contextCheck (e : BatchEntity) : Except Refusal BatchEntity :=
  let invalid (title detail : String) : Except Refusal BatchEntity :=
    .error (badRequest e.id title (some detail.toList), false)
  match e.members.lookup "@context".toList with
  | none =>
    if r.ngsildContent then
      invalid "Invalid payload" ("Content-Type is 'application/ld+json', but no @context in " ++
        "payload data array item")
    else .ok e
  | some _ =>
    if !r.ngsildContent then
      invalid "Invalid payload" ("Content-Type is 'application/json', and an @context is " ++
        "present in the payload data array item")
    else if r.linkHttpHeaderPresent then
      invalid "Inconsistency between HTTP headers and payload data"
        "@context present both in Link header and in payload data"
    else .ok e

def idAndContextCheck (item : Members) : Except Refusal BatchEntity :=
  entityIdAndTypeGet item >>= contextCheck r

def kjEntityIdArrayExtract : List Members → Errors → List BatchEntity × Errors :=
  extract (idAndContextCheck r)

def ignoredNames : List String := ["creDate", "modDate", "createdAt", "modifiedAt"]

def kjTreeToContextElementAttributes (env : Env) (entityId : Text) :
    Members → Except NoElement (List ContextAttribute)
  | [] => .ok []
  | (name, node) :: members =>
    if ignoredNames.any fun n => n.toList = name then
      kjTreeToContextElementAttributes env entityId members
    else
      match node with
      | .object _ =>
        match kjTreeToContextAttribute env name node with
        | .ok ca =>
          (kjTreeToContextElementAttributes env entityId members).map fun cas => ca :: cas
        | .error (.refused detail _ _) => .error (.refused
            (badRequest entityId "Error treating attribute" (some detail.toList)))
        | .error .fault => .error .fault
      | _ => .error (.refused (badRequest entityId "invalid entity"
          (some "attribute must be a JSON object".toList)))

/-- The context of the conversion; of several "@context" members the last one counts. -/
def contextOfEntity (e : BatchEntity) : Except NoElement Contexts :=
  match (e.members.filter fun m => m.1 = "@context".toList).getLast? with
  | none =>
    if r.ngsildContent then .error (.refused (badRequest e.id
      ("Content-Type is 'application/ld+json', but no @context in payload data array " ++
        "item") none))
    else .ok r.env.toContexts
  | some (_, contextNode) =>
    if r.ngsildContent then
      match r.contextFromTree contextNode with
      | .ok contextP => .ok contextP
      | .error pd => .error (.refused ⟨e.id, .badRequestData, pd.title, some pd.detail,
          pd.status⟩)
    else .error (.refused (badRequest e.id
      ("Content-Type is 'application/json', and an @context is present in the payload data " ++
        "array item") none))

def internalError (entityId : Text) (title : String) (detail : Option Text) : BatchEntityError :=
  ⟨entityId, .internalError, title.toList, detail, 500⟩

def typeOfEntity (dbEntities : Option (List DbEntity)) (e : BatchEntity) :
    Except NoElement Text :=
  match e.type with
  | some t => .ok t.value
  | none =>
    match dbEntities with
    | none => .error (.refused (internalError e.id
        "No entity type given and no way to find it in the DB"
        (some "we should never get here".toList)))
    | some _ =>
      match lookupInDb dbEntities e.id with
      | some d => .ok d.type
      | none => .error (.refused (internalError e.id
          "no entity type in payload and entity not found in DB" none))

def toElement (dbEntities : Option (List DbEntity)) (e : BatchEntity) :
    Except NoElement Element := do
  let contextP ← contextOfEntity r e
  let type ← typeOfEntity dbEntities e
  let attributes ← kjTreeToContextElementAttributes { r.env with toContexts := contextP } e.id
    (e.members.filter fun m => m.1 ≠ "@context".toList)
  .ok ⟨e.id, (orionldContextItemExpand contextP type).1, attributes⟩

/-- The elements of the request and the errors; nothing when a conversion comes to a fault. -/
def kjTreeToUpdateContextRequest (dbEntities : Option (List DbEntity)) :
    List BatchEntity → Errors → Option (List Element × Errors)
  | [], errorsArray => some ([], errorsArray)
  | e :: tree, errorsArray =>
    match toElement r dbEntities e with
    | .ok el =>
      (kjTreeToUpdateContextRequest dbEntities tree errorsArray).map fun out =>
        (el :: out.1, out.2)
    | .error (.refused error) =>
      kjTreeToUpdateContextRequest dbEntities tree (entityErrorPush errorsArray error false)
    | .error .fault => none

variable {tree : List BatchEntity}

theorem mem_instances : e ∈ instances a tree ↔ e ∈ tree ∧ e.id = a := by
  unfold instances
  rw [mem_filter]
  exact and_congr_right' decide_eq_true_iff

theorem instances_eq_nil : instances a tree = [] ↔ a ∉ tree.map BatchEntity.id := by
  rw [eq_nil_iff_forall_not_mem]
  constructor
  · intro h ha
    obtain ⟨e, he, rfl⟩ := mem_map.mp ha
    exact h e (mem_instances.mpr ⟨he, rfl⟩)
  · intro h e he
    obtain ⟨hmem, hid⟩ := mem_instances.mp he
    exact h (hid ▸ mem_map_of_mem hmem)

theorem instances_cons (a : Text) (e : BatchEntity) (tree : List BatchEntity) :
    instances a (e :: tree) = if e.id = a then e :: instances a tree else instances a tree := by
  unfold instances
  rw [filter_cons]
  simp

theorem removeById_cons (b : Text) (e : BatchEntity) (tree : List BatchEntity) :
    removeById (e :: tree) b = if e.id = b then tree else e :: removeById tree b := by
  unfold removeById
  by_cases h : e.id = b <;> simp [h]

theorem instances_removeById (a b : Text) (tree : List BatchEntity) :
    instances a (removeById tree b) =
      if a = b then (instances a tree).tail else instances a tree := by
  induction tree with
  | nil => split_ifs <;> rfl
  | cons e tree ih =>
    rw [removeById_cons, instances_cons]
    by_cases he : e.id = b
    · rw [if_pos he]
      split_ifs with hab ha ha
      · rfl
      · exact absurd (he.trans hab.symm) ha
      · exact absurd (ha.symm.trans he) hab
      · rfl
    · rw [if_neg he, instances_cons, ih]
      split_ifs with ha hab hab
      · exact absurd (ha.trans hab) he
      · rfl
      · rfl
      · rfl

theorem entityLookupById_eq (a : Text) (tree : List BatchEntity) :
    entityLookupById tree a = (instances a tree).head? := by
  unfold entityLookupById instances
  rw [List.head?_filter]

theorem instances_filter (a : Text) (p : BatchEntity → Bool) (tree : List BatchEntity) :
    instances a (tree.filter p) = (instances a tree).filter p := by
  unfold instances
  rw [filter_filter, filter_filter]
  simp only [Bool.and_comm]

theorem count_ids (a : Text) (tree : List BatchEntity) :
    (tree.map BatchEntity.id).count a = (instances a tree).length := by
  rw [List.count, countP_map, countP_eq_length_filter]
  refine congrArg List.length (filter_congr fun e _ => ?_)
  exact beq_eq_decide e.id a

variable {check : Members → Except Refusal BatchEntity}

theorem extract_tree (items : List Members) (errorsArray : Errors) :
    (extract check items errorsArray).1 = items.filterMap fun m => (check m).toOption := by
  induction items generalizing errorsArray with
  | nil => rfl
  | cons item items ih =>
    rw [extract, filterMap_cons]
    cases check item with
    | ok e => exact congrArg (List.cons e) (ih errorsArray)
    | error refusal => exact ih _

variable {items : List Members} {payload : List KjNode}

theorem mem_extract_errors :
    a ∈ errorIds (extract check items errorsArray).2 ↔ a ∈ errorIds errorsArray ∨
      ∃ item ∈ items, ∃ refusal, check item = .error refusal ∧ a = refusal.1.entityId := by
  induction items generalizing errorsArray with
  | nil => simp [extract]
  | cons item items ih =>
    rw [extract]
    cases hcheck : check item with
    | ok e =>
      rw [ih]
      simp [hcheck]
    | error refusal =>
      rw [ih, mem_errorIds_push, or_assoc, exists_mem_cons_iff]
      refine or_congr_right (or_congr_left ?_)
      constructor
      · exact fun ha => ⟨refusal, hcheck, ha⟩
      · rintro ⟨refusal', heq, ha⟩
        rw [hcheck] at heq
        obtain rfl := Except.error.inj heq
        exact ha

theorem mem_idArray : a ∈ idArray tree ↔ a ∈ tree.map BatchEntity.id := by
  suffices h : ∀ ids : List Text,
      (a ∈ tree.foldl (fun ids e => if e.id ∈ ids then ids else ids ++ [e.id]) ids) ↔
        a ∈ ids ∨ a ∈ tree.map BatchEntity.id by
    simpa [idArray] using h []
  induction tree with
  | nil => intro ids; simp
  | cons e tree ih =>
    intro ids
    rw [foldl_cons, ih, map_cons, mem_cons]
    split_ifs with h
    · constructor
      · exact Or.imp_right .inr
      · rintro (ha | rfl | ha)
        · exact .inl ha
        · exact .inl h
        · exact .inr ha
    · rw [mem_append, mem_singleton, or_assoc]

theorem idArray_nodup (tree : List BatchEntity) : (idArray tree).Nodup := by
  suffices h : ∀ ids : List Text, ids.Nodup →
      (tree.foldl (fun ids e => if e.id ∈ ids then ids else ids ++ [e.id]) ids).Nodup from
    h [] nodup_nil
  induction tree with
  | nil => exact fun ids h => h
  | cons e tree ih =>
    intro ids h
    rw [foldl_cons]
    apply ih
    split_ifs with he
    · exact h
    · exact nodup_append.mpr ⟨h, nodup_singleton _, by
        rintro a ha b hb rfl
        exact he (mem_singleton.mp hb ▸ ha)⟩

theorem filterMap_children {β : Type} (h : payload.mapM children = some items)
    (f : Members → Option β) :
    items.filterMap f = payload.filterMap fun node => (children node).bind f := by
  induction payload generalizing items with
  | nil =>
    cases h
    rfl
  | cons node payload ih =>
    rw [mapM_cons] at h
    obtain ⟨item, hitem, h⟩ := Option.bind_eq_some_iff.mp h
    obtain ⟨rest, hrest, h⟩ := Option.bind_eq_some_iff.mp h
    cases h
    rw [filterMap_cons, filterMap_cons, hitem, ih hrest]
    rfl

theorem mem_accepted : e ∈ accepted check payload ↔
      ∃ node ∈ payload, ∃ item, children node = some item ∧ check item = .ok e := by
  unfold accepted
  rw [mem_filterMap]
  simp only [Option.bind_eq_some_iff]
  refine exists_congr fun node => and_congr_right fun _ => exists_congr fun item =>
    and_congr_right fun _ => ⟨ok_of_toOption, fun h => ?_⟩
  rw [h]
  rfl

def itemErrors (check : Members → Except Refusal BatchEntity) (payload : List KjNode) : Errors :=
  (extract check (payload.filterMap children) []).2

theorem extract_payload (h : payload.mapM children = some items) :
    extract check items [] = (accepted check payload, itemErrors check payload) := by
  have hitems := filterMap_children h some
  rw [filterMap_some] at hitems
  refine Prod.ext ?_ ?_
  · rw [extract_tree, filterMap_children h]
    rfl
  · unfold itemErrors
    rw [hitems]
    simp

theorem mem_itemErrors :
    a ∈ errorIds (itemErrors check payload) ↔ ∃ node ∈ payload, ∃ item, children node = some item ∧
      ∃ refusal, check item = .error refusal ∧ a = refusal.1.entityId := by
  unfold itemErrors
  rw [mem_extract_errors]
  constructor
  · rintro (h | ⟨item, hitem, hcheck⟩)
    · cases h
    · obtain ⟨node, hnode, hchildren⟩ := mem_filterMap.mp hitem
      exact ⟨node, hnode, item, hchildren, hcheck⟩
  · rintro ⟨node, hnode, item, hchildren, hcheck⟩
    exact .inr ⟨item, mem_filterMap.mpr ⟨node, hnode, hchildren⟩, hcheck⟩

variable {db : List (EntityDoc κ)} {entityIds : List Text}

theorem mem_dbEntities {d : DbEntity}
    (h : d ∈ (entityListLookupWithIdTypeCreDate db entityIds).getD []) :
    d.id ∈ entityIds ∧ ∃ doc ∈ db, doc.id = d.id ∧ doc.type = some d.type := by
  have hmem : d ∈ ((db.filter fun doc => doc.id ∈ entityIds).filterMap tinyEntity) := by
    unfold entityListLookupWithIdTypeCreDate at h
    split at h
    · cases h
    · exact mem_of_mem_take h
  obtain ⟨doc, hdoc, htiny⟩ := mem_filterMap.mp hmem
  obtain ⟨hdb, hid⟩ := mem_filter.mp hdoc
  unfold tinyEntity at htiny
  split at htiny
  · rename_i type creDate htype hcreDate
    cases htiny
    exact ⟨of_decide_eq_true hid, doc, hdb, rfl, htype⟩
  · cases htiny

variable {dbEntities : Option (List DbEntity)}

theorem lookupInDb_isSome :
    (lookupInDb dbEntities a).isSome ↔ ∃ d ∈ dbEntities.getD [], d.id = a := by
  unfold lookupInDb
  rw [List.find?_isSome]
  simp

theorem lookupInDb_spec {d : DbEntity} (h : lookupInDb dbEntities a = some d) :
    d ∈ dbEntities.getD [] ∧ d.id = a :=
  ⟨mem_of_find?_eq_some h, by simpa using List.find?_some h⟩

/-- A pass drops no identifier without an error under it. -/
structure KeepsOrReports (s s' : List BatchEntity × Errors) : Prop where
  errors : ∀ a ∈ errorIds s.2, a ∈ errorIds s'.2
  kept : ∀ a ∈ s.1.map BatchEntity.id, a ∈ s'.1.map BatchEntity.id ∨ a ∈ errorIds s'.2

theorem KeepsOrReports.refl (s : List BatchEntity × Errors) : KeepsOrReports s s :=
  ⟨fun _ ha => ha, fun _ ha => .inl ha⟩

theorem KeepsOrReports.trans {s s' s'' : List BatchEntity × Errors} (h : KeepsOrReports s s')
    (h' : KeepsOrReports s' s'') : KeepsOrReports s s'' := by
  refine ⟨fun a ha => h'.errors a (h.errors a ha), fun a ha => ?_⟩
  rcases h.kept a ha with ha | ha
  · exact h'.kept a ha
  · exact .inr (h'.errors a ha)

theorem typeCheck_tree (tree : List BatchEntity) (errorsArray : Errors)
    (removeArray : List Text) :
    (typeCheckForNonExistingEntities dbEntities tree errorsArray removeArray).1 =
      tree.filter (hasType dbEntities) := by
  induction tree generalizing errorsArray removeArray with
  | nil => rfl
  | cons e tree ih =>
    rw [typeCheckForNonExistingEntities, filter_cons]
    split_ifs
    · exact congrArg (List.cons e) (ih errorsArray removeArray)
    · exact ih _ _

theorem mem_typeCheck_errors :
    a ∈ errorIds (typeCheckForNonExistingEntities dbEntities tree errorsArray removeArray).2.1 ↔
      a ∈ errorIds errorsArray ∨ ∃ e ∈ tree, e.id = a ∧ ¬ hasType dbEntities e := by
  induction tree generalizing errorsArray removeArray with
  | nil => simp [typeCheckForNonExistingEntities]
  | cons e tree ih =>
    rw [typeCheckForNonExistingEntities, exists_mem_cons_iff]
    split_ifs with h
    · change a ∈ errorIds (typeCheckForNonExistingEntities dbEntities tree errorsArray
        removeArray).2.1 ↔ _
      rw [ih]
      simp [h]
    · rw [ih, mem_errorIds_push, or_assoc]
      refine or_congr_right (or_congr_left ?_)
      exact ⟨fun ha => ⟨ha.symm, h⟩, fun ha => ha.1.symm⟩

theorem mem_typeCheck_removeArray (ha : (lookupInDb dbEntities a).isSome) :
    a ∈ (typeCheckForNonExistingEntities dbEntities tree errorsArray removeArray).2.2 ↔
      a ∈ removeArray := by
  induction tree generalizing errorsArray removeArray with
  | nil => rfl
  | cons e tree ih =>
    rw [typeCheckForNonExistingEntities]
    split_ifs with h
    · exact ih
    · refine ih.trans (mem_erase_of_ne ?_)
      rintro rfl
      exact h (Bool.or_eq_true_iff.mpr (.inl ha))

theorem typeCheck_removeArray_sublist (tree : List BatchEntity) (errorsArray : Errors)
    (removeArray : List Text) :
    (typeCheckForNonExistingEntities dbEntities tree errorsArray removeArray).2.2.Sublist
      removeArray := by
  induction tree generalizing errorsArray removeArray with
  | nil => exact List.Sublist.refl _
  | cons e tree ih =>
    rw [typeCheckForNonExistingEntities]
    split_ifs
    · exact ih errorsArray removeArray
    · exact (ih _ _).trans erase_sublist

def payloadId (item : Members) : Option Text :=
  match item.filter fun m => isIdName m.1 with
  | (_, .string s) :: _ => some s
  | _ => none

def payloadIds (payload : List KjNode) : List Text :=
  payload.filterMap fun node => (children node).bind payloadId

/-- A check passes entities under the identifier of the item, a URI, and names the item in its
errors. -/
structure NamesItem (check : Members → Except Refusal BatchEntity) : Prop where
  passed : ∀ item e, check item = .ok e → payloadId item = some e.id ∧ pcheckUri e.id
  named : ∀ item refusal a, check item = .error refusal → payloadId item = some a →
    refusal.1.entityId = a
  unnamed : ∀ item refusal, check item = .error refusal → payloadId item = none →
    ¬ pcheckUri refusal.1.entityId

theorem entityIdCheck_ok {ids : Members} {out : Text × Bool} (h : entityIdCheck ids = .ok out) :
    ∃ name, ids = [(name, .string out.1)] ∧ pcheckUri out.1 := by
  unfold entityIdCheck at h
  split at h
  · cases h
  · rename_i name s others
    split_ifs at h with huri
    split at h
    · cases h
      exact ⟨name, rfl, huri⟩
    · cases h
  · cases h

variable {refusal : Refusal}

theorem entityTypeCheck_error {entityId : Text} {types : Members}
    (h : entityTypeCheck entityId types = .error refusal) : refusal.1.entityId = entityId := by
  unfold entityTypeCheck at h
  split at h
  · cases h
  split at h
  · rw [← Except.error.inj h]
    rfl
  split at h
  · cases h
  · rw [← Except.error.inj h]
    rfl

theorem entityIdCheck_error {ids : Members} (h : entityIdCheck ids = .error refusal) :
    (∃ name s others, ids = (name, .string s) :: others ∧ refusal.1.entityId = s) ∨
      ((∀ name s others, ids ≠ (name, .string s) :: others) ∧ ¬ pcheckUri refusal.1.entityId) := by
  unfold entityIdCheck at h
  split at h
  · refine .inr ⟨fun name s others heq => (by cases heq), ?_⟩
    rw [← Except.error.inj h]
    decide
  · rename_i name s others
    refine .inl ⟨name, s, others, rfl, ?_⟩
    split_ifs at h
    · split at h
      · cases h
      · rw [← Except.error.inj h]
        rfl
    · rw [← Except.error.inj h]
      rfl
  · rename_i hnot
    refine .inr ⟨?_, ?_⟩
    · intro name s others heq
      exact hnot name s (cons.inj heq).1
    · rw [← Except.error.inj h]
      decide

theorem entityIdAndTypeGet_names : NamesItem entityIdAndTypeGet where
  passed item e h := by
    obtain ⟨out, hid, h⟩ := bind_ok h
    obtain ⟨type, -, h⟩ := bind_ok h
    obtain ⟨name, heq, huri⟩ := entityIdCheck_ok hid
    cases h
    unfold payloadId
    rw [heq]
    exact ⟨rfl, huri⟩
  named item refusal a h ha := by
    unfold payloadId at ha
    rcases bind_error h with h | ⟨out, hid, h⟩
    · rcases entityIdCheck_error h with ⟨name, s, others, heq, hname⟩ | ⟨hnot, -⟩
      · rw [heq] at ha
        exact hname.trans (Option.some.inj ha)
      split at ha
      · rename_i heq
        exact absurd heq (hnot _ _ _)
      · cases ha
    · obtain ⟨name, heq, -⟩ := entityIdCheck_ok hid
      rw [heq] at ha
      rcases bind_error h with h | ⟨type, -, h⟩
      · exact (entityTypeCheck_error h).trans (Option.some.inj ha)
      · cases h
  unnamed item refusal h hnone := by
    unfold payloadId at hnone
    rcases bind_error h with h | ⟨out, hid, h⟩
    · rcases entityIdCheck_error h with ⟨name, s, others, heq, -⟩ | ⟨-, hmarker⟩
      · rw [heq] at hnone
        cases hnone
      · exact hmarker
    · obtain ⟨name, heq, -⟩ := entityIdCheck_ok hid
      rw [heq] at hnone
      cases hnone

theorem contextCheck_ok {r : Request} {e' : BatchEntity} (h : contextCheck r e = .ok e') :
    e' = e := by
  unfold contextCheck at h
  split at h <;> split_ifs at h <;> exact (Except.ok.inj h).symm

theorem contextCheck_error {r : Request} (h : contextCheck r e = .error refusal) :
    refusal.1.entityId = e.id := by
  unfold contextCheck at h
  split at h <;> split_ifs at h <;> rw [← Except.error.inj h] <;> rfl

theorem idAndContextCheck_names (r : Request) : NamesItem (idAndContextCheck r) where
  passed item e h := by
    obtain ⟨e', hget, h⟩ := bind_ok h
    obtain rfl := contextCheck_ok h
    exact entityIdAndTypeGet_names.passed item e hget
  named item refusal a h ha := by
    rcases bind_error h with h | ⟨e, hget, h⟩
    · exact entityIdAndTypeGet_names.named item refusal a h ha
    · rw [contextCheck_error h]
      exact Option.some.inj ((entityIdAndTypeGet_names.passed item e hget).1.symm.trans ha)
  unnamed item refusal h hnone := by
    rcases bind_error h with h | ⟨e, hget, h⟩
    · exact entityIdAndTypeGet_names.unnamed item refusal h hnone
    · rw [(entityIdAndTypeGet_names.passed item e hget).1] at hnone
      cases hnone

variable {r : Request}

def Converts (r : Request) (dbEntities : Option (List DbEntity)) (e : BatchEntity) : Prop :=
  ∃ el, toElement r dbEntities e = .ok el
variable {out : List Element × Errors}

theorem toElement_id {el : Element} (h : toElement r dbEntities e = .ok el) : el.id = e.id := by
  obtain ⟨contextP, -, h⟩ := bind_ok h
  obtain ⟨type, -, h⟩ := bind_ok h
  obtain ⟨attributes, -, h⟩ := bind_ok h
  rw [← Except.ok.inj h]

structure Converted (r : Request) (dbEntities : Option (List DbEntity))
    (tree : List BatchEntity) (errorsArray : Errors) (out : List Element × Errors) : Prop where
  elements : out.1 = tree.filterMap fun e => (toElement r dbEntities e).toOption
  errors : ∀ a, a ∈ errorIds out.2 ↔ a ∈ errorIds errorsArray ∨
    ∃ e ∈ tree, e.id = a ∧ ¬ Converts r dbEntities e

theorem contextElementAttributes_refused {env : Env} {entityId : Text} {members : Members}
    (h : kjTreeToContextElementAttributes env entityId members = .error (.refused error)) :
    error.entityId = entityId := by
  induction members with
  | nil => cases h
  | cons m members ih =>
    unfold kjTreeToContextElementAttributes at h
    split_ifs at h
    · exact ih h
    · split at h
      · split at h
        · cases hrest : kjTreeToContextElementAttributes env entityId members with
          | ok cas => rw [hrest] at h; cases h
          | error e =>
            rw [hrest] at h
            exact ih (hrest.trans (congrArg Except.error (Except.error.inj h)))
        · obtain rfl := NoElement.refused.inj (Except.error.inj h)
          rfl
        · cases h
      · obtain rfl := NoElement.refused.inj (Except.error.inj h)
        rfl

theorem toElement_refused (h : toElement r dbEntities e = .error (.refused error)) :
    error.entityId = e.id := by
  rcases bind_error h with h | ⟨contextP, -, h⟩
  · unfold contextOfEntity at h
    split at h
    · split_ifs at h
      obtain rfl := NoElement.refused.inj (Except.error.inj h)
      rfl
    split_ifs at h
    · split at h
      · cases h
      · obtain rfl := NoElement.refused.inj (Except.error.inj h)
        rfl
    · obtain rfl := NoElement.refused.inj (Except.error.inj h)
      rfl
  · rcases bind_error h with h | ⟨type, -, h⟩
    · unfold typeOfEntity at h
      split at h
      · cases h
      split at h
      · obtain rfl := NoElement.refused.inj (Except.error.inj h)
        rfl
      split at h
      · cases h
      · obtain rfl := NoElement.refused.inj (Except.error.inj h)
        rfl
    · rcases bind_error h with h | ⟨attributes, -, h⟩
      · exact contextElementAttributes_refused h
      · cases h

theorem request_converted
    (h : kjTreeToUpdateContextRequest r dbEntities tree errorsArray = some out) :
    Converted r dbEntities tree errorsArray out := by
  induction tree generalizing errorsArray out with
  | nil =>
    cases h
    exact ⟨rfl, fun a => by simp⟩
  | cons e tree ih =>
    rw [kjTreeToUpdateContextRequest] at h
    split at h
    · rename_i el hel
      obtain ⟨out', hout, rfl⟩ := Option.map_eq_some_iff.mp h
      refine ⟨?_, fun a => ?_⟩
      · rw [filterMap_cons, hel]
        exact congrArg (List.cons el) (ih hout).elements
      · rw [(ih hout).errors, exists_mem_cons_iff]
        have hconverts : Converts r dbEntities e := ⟨el, hel⟩
        simp [hconverts]
    · rename_i error herror
      refine ⟨?_, fun a => ?_⟩
      · rw [filterMap_cons, herror]
        exact (ih h).elements
      · have hnot : ¬ Converts r dbEntities e := by
          rintro ⟨el, hel⟩
          rw [herror] at hel
          cases hel
        rw [(ih h).errors, mem_errorIds_push, or_assoc, exists_mem_cons_iff,
          toElement_refused herror]
        simp [hnot, eq_comm]
    · cases h

theorem Converted.mem_elements (h : Converted r dbEntities tree errorsArray out) {el : Element} :
    el ∈ out.1 ↔ ∃ e ∈ tree, toElement r dbEntities e = .ok el := by
  rw [h.elements, mem_filterMap]
  refine exists_congr fun e => and_congr_right fun _ => ⟨ok_of_toOption, fun hel => ?_⟩
  rw [hel]
  rfl

theorem Converted.mem_ids (h : Converted r dbEntities tree errorsArray out) :
    a ∈ out.1.map Element.id ↔ ∃ e ∈ tree, e.id = a ∧ Converts r dbEntities e := by
  rw [mem_map]
  constructor
  · rintro ⟨el, hel, rfl⟩
    obtain ⟨e, he, hok⟩ := h.mem_elements.mp hel
    exact ⟨e, he, (toElement_id hok).symm, el, hok⟩
  · rintro ⟨e, he, rfl, el, hel⟩
    exact ⟨el, h.mem_elements.mpr ⟨e, he, hel⟩, toElement_id hel⟩

theorem Converted.ids_sublist (h : Converted r dbEntities tree errorsArray out) :
    (out.1.map Element.id).Sublist (tree.map BatchEntity.id) := by
  rw [h.elements]
  clear h
  induction tree with
  | nil => exact List.Sublist.refl _
  | cons e tree ih =>
    rw [filterMap_cons]
    cases hto : toElement r dbEntities e with
    | ok el =>
      change (el.id :: _).Sublist _
      rw [toElement_id hto]
      exact ih.cons_cons e.id
    | error error => exact ih.cons e.id

theorem Converted.ids_eq (h : Converted r dbEntities tree errorsArray out)
    (hall : ∀ e ∈ tree, Converts r dbEntities e) :
    out.1.map Element.id = tree.map BatchEntity.id := by
  rw [h.elements]
  clear h
  induction tree with
  | nil => rfl
  | cons e tree ih =>
    obtain ⟨el, hel⟩ := hall e mem_cons_self
    rw [filterMap_cons, hel, map_cons, ← toElement_id hel,
      ← ih fun e he => hall e (mem_cons_of_mem _ he)]
    rfl

theorem typed_of_converts (h : Converts r none e) : e.type.isSome := by
  obtain ⟨el, hel⟩ := h
  obtain ⟨contextP, -, hel⟩ := bind_ok hel
  obtain ⟨type, htype, -⟩ := bind_ok hel
  unfold typeOfEntity at htype
  split at htype
  · rename_i t ht
    rw [ht]
    rfl
  · cases htype

def defaultUrl : Text := "https://uri.etsi.org/ngsi-ld/default-context/".toList

def plainRequest : Request :=
  { env := { core := [], context := [], defaultUrl := defaultUrl,
             parse8601Time := fun _ => none, valueAsInteger := fun _ => 0,
             integerAsDouble := fun i => i, requestTime := 1 }
    coreContext := ⟨[], [], defaultUrl⟩
    ngsildContent := false
    linkHttpHeaderPresent := false
    noOverwrite := false
    update := false
    replace := false
    contextFromTree := fun _ => .error ⟨"".toList, "".toList, 400⟩ }

def bareEntity (id : String) : KjNode :=
  .object [("id".toList, .string id.toList), ("type".toList, .string "T".toList)]

def storedEntity (id : String) : EntityDoc Unit :=
  ⟨id.toList, some (defaultUrl ++ "T".toList), some 1, none, ()⟩

end BatchEntities
