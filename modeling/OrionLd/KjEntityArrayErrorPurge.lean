import OrionLd.BatchEntities

/-! The purge of the entities in error from what goes to the temporal database. The entity that has
been found is forgotten for the outcome of the second lookup, so what is removed is always NULL. -/
namespace KjEntityArrayErrorPurge

open BatchEntities KjTree List

def entityId (entity : KjNode) : Option Text :=
  match (kjLookup entity "id").or (kjLookup entity "@id") with
  | some (.string id) => some id
  | _ => none

def kjEntityIdLookupInEntityArray (entityArray : List KjNode) (value : Text) : Option KjNode :=
  entityArray.find? fun entity => entityId entity = some value

def kjStringValueLookupInArray (stringArray : List Text) (value : Text) : Option KjNode :=
  (stringArray.find? fun s => s = value).map .string

variable (kjChildRemove : List KjNode → Option KjNode → List KjNode)

def kjEntityArrayErrorPurge (incomingTree : List KjNode) (errorsArray : Errors)
    (successArray : List Text) : List KjNode :=
  errorsArray.foldl (fun incomingTree error =>
    match kjEntityIdLookupInEntityArray incomingTree error.entityId with
    | none => incomingTree
    | some _ =>
      match kjStringValueLookupInArray successArray error.entityId with
      | none => kjChildRemove incomingTree none
      | some _ => incomingTree) incomingTree

def Succeeded (errorsArray : Errors) (successArray : List Text) (entity : KjNode) : Prop :=
  ∀ id, entityId entity = some id → id ∈ errorIds errorsArray → id ∈ successArray

instance (errorsArray : Errors) (successArray : List Text) :
    DecidablePred (Succeeded errorsArray successArray) := fun entity =>
  match h : entityId entity with
  | none => isTrue fun _ hid => by rw [h] at hid; cases hid
  | some id => decidable_of_iff (id ∈ errorIds errorsArray → id ∈ successArray)
      ⟨fun hs _ hid => by rw [h] at hid; cases hid; exact hs, fun hs => hs id h⟩

variable {kjChildRemove : List KjNode → Option KjNode → List KjNode} {errorsArray : Errors}
  {successArray : List Text} {incomingTree : List KjNode}

/-- Nothing is removed, whatever the arrays hold. -/
theorem purge_eq (hnull : ∀ tree, kjChildRemove tree none = tree) :
    kjEntityArrayErrorPurge kjChildRemove incomingTree errorsArray successArray = incomingTree := by
  unfold kjEntityArrayErrorPurge
  induction errorsArray with
  | nil => rfl
  | cons error errorsArray ih =>
    rw [foldl_cons]
    split
    · exact ih
    · split
      · rw [hnull]
        exact ih
      · exact ih

/-- The purge is right if and only if each entity in error is in the success array as well. -/
theorem purged_iff (hnull : ∀ tree, kjChildRemove tree none = tree) :
    kjEntityArrayErrorPurge kjChildRemove incomingTree errorsArray successArray =
        incomingTree.filter (Succeeded errorsArray successArray ·) ↔
      ∀ entity ∈ incomingTree, Succeeded errorsArray successArray entity := by
  rw [purge_eq hnull, eq_comm, filter_eq_self]
  simp

/-- A child is removed by its identifier. -/
def unlink (tree : List KjNode) : Option KjNode → List KjNode
  | none => tree
  | some child => tree.eraseP fun entity => entityId entity = entityId child

def entity (id : String) : KjNode := .object [("id".toList, .string id.toList)]

/-- One of the entities is in both arrays, the other one in none. -/
theorem purged_updated :
    kjEntityArrayErrorPurge unlink [entity "urn:a", entity "urn:b"]
        [badRequest "urn:a".toList "Invalid" none] ["urn:a".toList] =
      [entity "urn:a", entity "urn:b"].filter
        (Succeeded [badRequest "urn:a".toList "Invalid" none] ["urn:a".toList] ·) :=
  (purged_iff fun _ => rfl).mpr (by decide)

theorem failed_entity_kept : ¬ ∀ incomingTree errorsArray successArray,
    kjEntityArrayErrorPurge unlink incomingTree errorsArray successArray =
      incomingTree.filter (Succeeded errorsArray successArray ·) := by
  intro h
  have hpurged := congrArg length (h [entity "urn:a"] [badRequest "urn:a".toList "Invalid" none] [])
  exact absurd hpurged (by decide)

end KjEntityArrayErrorPurge
