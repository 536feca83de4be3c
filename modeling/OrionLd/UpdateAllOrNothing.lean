import OrionLd.NotifyCer

/-! What a request does to the database and sends: updateEntity and processContextElement with
their effects. The entities that the request is for are updated one after the other, each by a query
that has the service paths of the request. -/
namespace UpdateAllOrNothing

open KjTree FieldList MongoLocation MongoCommonUpdate CustomMetadata NotifyCer Fallible List

abbrev EntityId := Text × Text × Text

/-- It takes one document of those that it matches. -/
structure UpdateQuery where
  id : Text
  type : Text
  servicePathV : List Text
  deriving DecidableEq

inductive Effect (σ : Type) where
  | remove (e : EntityId)
  | write (query : UpdateQuery) (d : EntityDoc StoredMetadata)
  | insert (e : EntityId) (d : EntityDoc StoredMetadata)
  | notification (e : EntityId) (sub : σ) (notifyCer : List NotifyAttribute)

/-- The service paths of the request, the subscriptions that an update triggers, possibly an error,
those that are sent to, the entity that the database takes for a query, and whether it writes. -/
structure Surroundings (σ : Type) where
  servicePathV : List Text
  addTriggeredSubscriptions : EntityId → List Text → List σ × Bool
  sent : σ → List NotifyAttribute → Bool
  loopDetected : EntityId → Bool
  taken : UpdateQuery → Option EntityId
  written : EntityId → Bool

def Effect.entity {σ : Type} (sur : Surroundings σ) : Effect σ → Option EntityId
  | .remove e => some e
  | .write query _ => sur.taken query
  | .insert e _ => some e
  | .notification e _ _ => some e

variable {σ : Type} (env : Env StoredMetadata) (sur : Surroundings σ)

structure StoredEntity where
  id : EntityId
  doc : EntityDoc StoredMetadata

/-- Whether the entity is modified, with all that was made until then. -/
def processContextAttributeVector (e : StoredEntity) (r : Request) : Bool × Outputs × List σ :=
  match processAttributes env e.doc r with
  | (o, some _) => (false, o, [])
  | (o, none) =>
    if sur.loopDetected e.id then (o.update.entityModified, o, [])
    else
      let (subs, added) := sur.addTriggeredSubscriptions e.id o.modifiedAttrs
      (added && o.update.entityModified, o, subs)

def processSubscriptions (e : EntityId) (subs : List σ) (notifyCer : List NotifyAttribute) :
    List (Effect σ) :=
  (subs.filter (sur.sent · notifyCer)).map fun sub => .notification e sub notifyCer

/-- The composed update, which the database does not take when it sets a path twice. -/
def composedUpdate (d : EntityDoc StoredMetadata) (r : Request) (u : Update StoredMetadata) :
    Option (EntityDoc StoredMetadata) :=
  if r.action = .replace then some (replacedEntity d u)
  else if (u.toSet.map Prod.fst ++ u.toUnset).Nodup then some (updatedEntity d u)
  else none

def updateQuery (e : EntityId) : UpdateQuery := ⟨e.1, e.2.1, sur.servicePathV⟩

/-- Without a modification the outputs are released. -/
def updateEntity (e : StoredEntity) (r : Request) : List (Effect σ) :=
  if r.action = .delete ∧ r.contextAttributeVector = [] then
    if sur.written e.id then [.remove e.id] else []
  else match processContextAttributeVector env sur e r with
    | (false, _, _) => []
    | (true, o, subs) =>
      match composedUpdate e.doc r o.update with
      | none => []
      | some d =>
        if sur.written e.id then
          .write (updateQuery sur e.id) d :: processSubscriptions sur e.id subs o.notifyCer
        else []

abbrev Turn := StoredEntity × List ContextAttribute

def Turn.request (r : Request) (turn : Turn) : Request :=
  { r with contextAttributeVector := turn.2 }

def createdEffects (e : EntityId) (r : Request) : List (Effect σ) :=
  match createEntity env r.apiVersion r.contextAttributeVector with
  | .error _ => []
  | .ok d =>
    if sur.written e then
      let (subs, added) :=
        sur.addTriggeredSubscriptions e (r.contextAttributeVector.map ContextAttribute.name)
      .insert e d ::
        if added then
          processSubscriptions sur e subs
            (r.contextAttributeVector.map (newAttribute env (r.apiVersion == .v2) "append"))
        else []
    else []

/-- NGSIv2 does not update several entities of the same ID. -/
def admitted (r : Request) (turns : List Turn) : Bool :=
  preconditions r && !(r.apiVersion == .v2 && decide (1 < turns.length))

/-- What a request does, given the entities that the database finds for it. -/
def processContextElement (enP : EntityId) (r : Request) (turns : List Turn) : List (Effect σ) :=
  if !admitted r turns then []
  else if turns = [] then
    if r.action = .append ∨ r.action = .appendStrict then createdEffects env sur enP r else []
  else turns.flatMap fun turn => updateEntity env sur turn.1 (turn.request r)

variable {env : Env StoredMetadata} {sur : Surroundings σ} {e : StoredEntity} {r : Request}

/-- An attribute is refused after those before it have gone through. -/
def Refused (env : Env StoredMetadata) (d : EntityDoc StoredMetadata) (r : Request) : Prop :=
  ∃ before ca rest u oe,
    r.contextAttributeVector.filter (!skip d r ·) = before ++ ca :: rest ∧
      contextAttributeItems env d r (noUpdate d) before = .ok u ∧
        contextAttributeItem env d r u ca = .error oe

theorem items_refused {d : EntityDoc StoredMetadata} {before rest : List ContextAttribute}
    {ca : ContextAttribute} {u₀ u : Update StoredMetadata} {oe : OrionError}
    (hbefore : contextAttributeItems env d r u₀ before = .ok u)
    (hca : contextAttributeItem env d r u ca = .error oe) :
    contextAttributeItems env d r u₀ (before ++ ca :: rest) = .error oe := by
  induction before generalizing u₀ with
  | nil =>
    cases hbefore
    rw [nil_append, contextAttributeItems, hca]
    rfl
  | cons c before ih =>
    obtain ⟨u₁, hfirst, hbefore⟩ := bind_ok hbefore
    rw [cons_append, contextAttributeItems, hfirst]
    exact ih hbefore

theorem vector_refused (h : Refused env e.doc r) :
    (processContextAttributeVector env sur e r).1 = false := by
  obtain ⟨before, ca, rest, u, oe, hsplit, hbefore, hca⟩ := h
  have hsame : SameOutcome (processAttributes env e.doc r)
      (MongoCommonUpdate.processContextAttributeVector env e.doc r) := attributeItems_same
  unfold MongoCommonUpdate.processContextAttributeVector at hsame
  rw [hsplit, items_refused hbefore hca] at hsame
  unfold processContextAttributeVector
  obtain ⟨⟨o, refusal⟩, hp⟩ : ∃ p, processAttributes env e.doc r = p := ⟨_, rfl⟩
  rw [hp] at hsame ⊢
  cases refusal with
  | none => cases hsame
  | some oe => rfl

/-- The entity is updated: none of its attributes is refused, something changes, and the database
takes the update. -/
def GoesThrough (env : Env StoredMetadata) (sur : Surroundings σ) (e : StoredEntity)
    (r : Request) : Prop :=
  ¬ (r.action = .delete ∧ r.contextAttributeVector = []) ∧
    ∃ o subs d, processContextAttributeVector env sur e r = (true, o, subs) ∧
      composedUpdate e.doc r o.update = some d ∧ sur.written e.id = true

theorem updateEntity_of_goesThrough (h : GoesThrough env sur e r) :
    ∃ d, .write (updateQuery sur e.id) d ∈ updateEntity env sur e r := by
  obtain ⟨hremove, o, subs, d, hp, hd, hwritten⟩ := h
  refine ⟨d, ?_⟩
  unfold updateEntity
  rw [if_neg hremove, hp]
  dsimp only
  rw [hd]
  dsimp only
  rw [if_pos hwritten]
  exact mem_cons_self

/-- What is done at the turn of an entity is for it, or is its write. -/
theorem effect_cases {eff : Effect σ} (h : eff ∈ updateEntity env sur e r) :
    eff.entity sur = some e.id ∨
      GoesThrough env sur e r ∧ eff.entity sur = sur.taken (updateQuery sur e.id) := by
  unfold updateEntity at h
  split at h
  · split at h
    · obtain rfl := mem_singleton.mp h
      exact .inl rfl
    · cases h
  rename_i hremove
  split at h
  · cases h
  rename_i o subs hp
  split at h
  · cases h
  rename_i d hd
  split at h
  · rename_i hwritten
    rcases mem_cons.mp h with rfl | h
    · exact .inr ⟨⟨hremove, o, subs, d, hp, hd, hwritten⟩, rfl⟩
    · obtain ⟨sub, _, rfl⟩ := mem_map.mp h
      exact .inl rfl
  · cases h

theorem no_effect_of_refused (h : Refused env e.doc r) : updateEntity env sur e r = [] := by
  have hne : r.contextAttributeVector ≠ [] := by
    obtain ⟨before, ca, rest, u, oe, hsplit, _⟩ := h
    intro hnil
    rw [hnil] at hsplit
    exact absurd (congrArg List.length hsplit) (by simp)
  unfold updateEntity
  rw [if_neg fun hdelete => hne hdelete.2]
  have hfalse : (processContextAttributeVector env sur e r).1 = false := vector_refused h
  obtain ⟨⟨b, o, subs⟩, hp⟩ : ∃ p, processContextAttributeVector env sur e r = p := ⟨_, rfl⟩
  rw [hp] at hfalse ⊢
  rw [show b = false from hfalse]

theorem mem_effects {enP : EntityId} {turns : List Turn} (hne : turns ≠ []) {eff : Effect σ} :
    eff ∈ processContextElement env sur enP r turns ↔ admitted r turns = true ∧
      ∃ t ∈ turns, eff ∈ updateEntity env sur t.1 (t.request r) := by
  unfold processContextElement
  cases admitted r turns with
  | false => exact iff_of_false not_mem_nil nofun
  | true =>
    rw [if_neg (by decide), if_neg hne, mem_flatMap]
    exact (and_iff_right rfl).symm

def plainEnv : Env StoredMetadata :=
  metadataEnv ⟨fun _ => none, fun _ => none, false⟩ (fun _ _ => true) false false

def namedAttribute (name : String) : ContextAttribute :=
  ⟨name.toList, [], false, .notGiven, [], 0, false, none, []⟩

def deletesTwo : Request :=
  ⟨.v1, .delete, false, [namedAttribute "speed", namedAttribute "brand"]⟩

def stored (type path : String) (names : List String) : StoredEntity where
  id := ("urn:E1".toList, type.toList, path.toList)
  doc := ⟨names.map fun n => (n.toList, .attribute ⟨some "Text".toList, some (.str []), []⟩),
    names.map String.toList, none, none⟩

def parkedCar : StoredEntity := stored "Car" "/a" ["speed"]
def brandedCar : StoredEntity := stored "Car" "/b" ["speed", "brand"]
def truck : StoredEntity := stored "Truck" "/a" ["speed", "brand"]

/-- The database takes the first that is in the given service path, if any. -/
def takenOf (query : UpdateQuery) : Option EntityId :=
  [parkedCar.id, brandedCar.id, truck.id].find? fun e =>
    e.1 == query.id && e.2.1 == query.type &&
      (query.servicePathV == [[]] || query.servicePathV.contains e.2.2)

def surroundings (path : String) : Surroundings Unit :=
  ⟨[path.toList], fun _ _ => ([()], true), fun _ _ => true, fun _ => false, takenOf, fun _ => true⟩

theorem parkedCar_refused : Refused plainEnv parkedCar.doc deletesTwo := by
  refine ⟨[namedAttribute "speed"], namedAttribute "brand", [], _, attributeNotFound, rfl, rfl, ?_⟩
  have hnone : (parkedCar.doc.attrs.lookup (effectiveName (namedAttribute "brand"))).isNone := by
    decide +kernel
  change deleteContextAttributeItem _ _ _ _ = _
  unfold deleteContextAttributeItem
  rw [if_pos hnone]

def turnOf (e : StoredEntity) : Turn := (e, deletesTwo.contextAttributeVector)

end UpdateAllOrNothing
