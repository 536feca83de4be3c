import OrionLd.CustomMetadata
import OrionLd.KjTreeFromQueryContextResponse

/-! What notifications show of an entity, and how an update is made: the attributes of a request
go through their items, each of which adds to the update of the document and to the
notification, and stays where it is when it is refused. -/
namespace NotifyCer

open MongoQuery (Bson)
open KjTree MongoLocation MongoCommonUpdate CustomMetadata
open KjTreeToContextAttribute (Metadata)
open KjTreeFromQueryContextResponse (splitId)

structure NotifyMetadata where
  name : Text
  type : Text
  value : Option Bson

/-- The dates and the previous value are left out. -/
structure NotifyAttribute where
  name : Text
  type : Text
  value : Option Bson
  actionType : String
  skip : Bool
  metadataVector : List NotifyMetadata

def storedMetadata (md : Text × MetadataDoc) : NotifyMetadata :=
  ⟨eqForDot md.1, md.2.type.getD [], md.2.value⟩

def idMetadata (metadataId : Text) : NotifyMetadata :=
  ⟨"ID".toList, "string".toList, some (.str metadataId)⟩

def storedAttribute (key : Text) (a : StoredAttribute StoredMetadata) : NotifyAttribute where
  name := eqForDot (splitId key).1
  type := a.type.getD []
  value := some (a.value.getD (.str []))
  actionType := ""
  skip := false
  metadataVector := ((splitId key).2.map idMetadata).toList ++
    (OrderedMap.assignAll a.md).map storedMetadata

def contextElementResponse (env : Env StoredMetadata) (d : EntityDoc StoredMetadata) :
    List NotifyAttribute :=
  (OrderedMap.assignAll d.attrs).map fun f => storedAttribute f.1 (f.2.asAttribute env)

def requestMetadata (useDefaultType : Bool) (md : Metadata) : NotifyMetadata :=
  ⟨md.name, metadataType useDefaultType md, some (compoundValueBson md.value)⟩

def givenValue (env : Env StoredMetadata) (ca : ContextAttribute) : Option Bson :=
  match ca.compoundValueP with
  | none => bsonAppendAttrValue env.toNumbers false [] ca
  | some c => some (compoundValueBson c)

def mergeMetadata (useDefaultType : Bool) (vector : List NotifyMetadata) (md : Metadata) :
    List NotifyMetadata :=
  match vector.findIdx? fun m => m.name == md.name with
  | none => vector ++ [requestMetadata useDefaultType md]
  | some i => vector.modify i fun m =>
      { m with
        value := some (compoundValueBson md.value)
        type := if md.type = [] then m.type else md.type }

def updatedAttribute (env : Env StoredMetadata) (useDefaultType : Bool) (actionType : String)
    (ca : ContextAttribute) (a : NotifyAttribute) : NotifyAttribute :=
  { a with
    value := if ca.valueType = .notGiven then a.value else givenValue env ca
    type := if ca.type = [] then a.type else ca.type
    actionType := actionType
    metadataVector :=
      if actionType = "update" then ca.metadataVector.map (requestMetadata false)
      else ca.metadataVector.foldl (mergeMetadata useDefaultType) a.metadataVector }

def newAttribute (env : Env StoredMetadata) (useDefaultType : Bool) (actionType : String)
    (ca : ContextAttribute) : NotifyAttribute where
  name := ca.name
  type :=
    if useDefaultType ∧ ca.typeGiven = false then
      match ca.compoundValueP with
      | some (.vector _) => (defaultType .vector).toList
      | _ => (defaultType ca.valueType).toList
    else ca.type
  value := givenValue env ca
  actionType := actionType
  skip := false
  metadataVector := ca.metadataVector.map (requestMetadata useDefaultType)

def updateAttrInNotifyCer (env : Env StoredMetadata) (useDefaultType : Bool)
    (actionType : String) (ca : ContextAttribute) : List NotifyAttribute → List NotifyAttribute
  | [] => [newAttribute env useDefaultType actionType ca]
  | a :: vector =>
    if a.name = ca.name then updatedAttribute env useDefaultType actionType ca a :: vector
    else a :: updateAttrInNotifyCer env useDefaultType actionType ca vector

def deleteAttrInNotifyCer (ca : ContextAttribute) (vector : List NotifyAttribute) :
    List NotifyAttribute :=
  vector.map fun a => if a.name = ca.name then { a with skip := true } else a

variable (env : Env StoredMetadata)

structure Outputs where
  update : Update StoredMetadata
  notifyCer : List NotifyAttribute
  modifiedAttrs : List Text

/-- The outputs stay as they are when an attribute is refused. -/
abbrev Progress := Outputs × Option OrionError

/-- Whether the attribute is an actual update, as updateAttribute says. -/
def actualUpdate (v : ApiVersion) (d : EntityDoc StoredMetadata) (ca : ContextAttribute)
    (isReplace : Bool) : Bool :=
  isReplace || (d.attrs.lookup (effectiveName ca)).any fun field =>
    (mergeAttrInfo env v (field.asAttribute env) ca).isSome

def modified (ca : ContextAttribute) (actual : Bool) (names : List Text) : List Text :=
  if actual then names ++ [ca.name] else names

def updateItem (v : ApiVersion) (d : EntityDoc StoredMetadata) (isReplace : Bool)
    (ca : ContextAttribute) (o : Outputs) : Progress :=
  match updateContextAttributeItem env v d isReplace o.update ca with
  | .error oe => ({ o with update := (updateAttribute env v d ca isReplace o.update).1 }, some oe)
  | .ok u =>
    ({ update := u
       notifyCer := updateAttrInNotifyCer env (v == .v2) "update" ca o.notifyCer
       modifiedAttrs := modified ca (actualUpdate env v d ca isReplace) o.modifiedAttrs }, none)

/-- An attribute that is left alone for noOverwrite counts as an actual update. -/
def actualAppendUpdate (v : ApiVersion) (d : EntityDoc StoredMetadata) (noOverwrite : Bool)
    (ca : ContextAttribute) : Bool :=
  if (d.attrs.lookup (effectiveName ca)).isSome then noOverwrite || actualUpdate env v d ca false
  else true

def appendItem (v : ApiVersion) (d : EntityDoc StoredMetadata) (noOverwrite : Bool)
    (ca : ContextAttribute) (o : Outputs) : Progress :=
  if !legalIdUsage d.attrs ca then (o, some cannotBeAppended)
  else
    let (u, actualAppend) := appendAttribute env v d noOverwrite ca o.update
    match appendContextAttributeItem env v d noOverwrite o.update ca with
    | .error oe => ({ o with update := u }, some oe)
    | .ok u =>
      ({ update := u
         notifyCer := updateAttrInNotifyCer env (v == .v2)
           (if actualAppend then "append" else "update") ca o.notifyCer
         modifiedAttrs :=
           modified ca (actualAppendUpdate env v d noOverwrite ca) o.modifiedAttrs }, none)

def deletedSoFar (ca : ContextAttribute) (o : Outputs) : Outputs :=
  { o with
    update := { o.update with
      toUnset := o.update.toUnset ++ [effectiveName ca]
      deleted := o.update.deleted ++ [ca.name]
      entityModified := true }
    notifyCer := deleteAttrInNotifyCer ca o.notifyCer }

/-- A deletion with a location is refused when the rest is done. -/
def deleteItem (v : ApiVersion) (d : EntityDoc StoredMetadata) (ca : ContextAttribute)
    (o : Outputs) : Progress :=
  if (d.attrs.lookup (effectiveName ca)).isNone then (o, some attributeNotFound)
  else match deleteContextAttributeItem v d o.update ca with
    | .error oe => (deletedSoFar ca o, some oe)
    | .ok u =>
      ({ deletedSoFar ca o with
          update := u
          modifiedAttrs := modified ca true o.modifiedAttrs }, none)

def attributeItem (d : EntityDoc StoredMetadata) (r : Request) (ca : ContextAttribute)
    (o : Outputs) : Progress :=
  match r.action with
  | .update => updateItem env r.apiVersion d false ca o
  | .replace => updateItem env r.apiVersion d true ca o
  | .append => appendItem env r.apiVersion d r.noOverwrite ca o
  | .appendStrict => appendItem env r.apiVersion d r.noOverwrite ca o
  | .delete => deleteItem r.apiVersion d ca o

def attributeItems (d : EntityDoc StoredMetadata) (r : Request) :
    List ContextAttribute → Outputs → Progress
  | [], o => (o, none)
  | ca :: caV, o =>
    match attributeItem env d r ca o with
    | (o, some oe) => (o, some oe)
    | (o, none) => attributeItems d r caV o

def noOutputs (d : EntityDoc StoredMetadata) : Outputs :=
  ⟨noUpdate d, contextElementResponse env d, []⟩

def processAttributes (d : EntityDoc StoredMetadata) (r : Request) : Progress :=
  attributeItems env d r (r.contextAttributeVector.filter (!skip d r ·)) (noOutputs env d)

variable {env} {d : EntityDoc StoredMetadata} {r : Request} {o o' : Outputs}
  {ca : ContextAttribute}

/-- What the item of an attribute does to the document is what it does without a notification. -/
def SameOutcome (p : Progress) (x : Except OrionError (Update StoredMetadata)) : Prop :=
  match p with
  | (_, some oe) => x = .error oe
  | (o, none) => x = .ok o.update

theorem appendItem_same : SameOutcome (appendItem env r.apiVersion d r.noOverwrite ca o)
    (appendContextAttributeItem env r.apiVersion d r.noOverwrite o.update ca) := by
  unfold appendItem
  split
  · rename_i hillegal
    unfold appendContextAttributeItem
    rw [if_pos hillegal]
    rfl
  · dsimp only
    cases appendContextAttributeItem env r.apiVersion d r.noOverwrite o.update ca <;> rfl

theorem attributeItem_same :
    SameOutcome (attributeItem env d r ca o) (contextAttributeItem env d r o.update ca) := by
  unfold attributeItem contextAttributeItem
  cases r.action with
  | update =>
    unfold updateItem
    cases updateContextAttributeItem env r.apiVersion d false o.update ca <;> rfl
  | replace =>
    unfold updateItem
    cases updateContextAttributeItem env r.apiVersion d true o.update ca <;> rfl
  | append | appendStrict =>
    exact appendItem_same
  | delete =>
    dsimp only
    unfold deleteItem
    split
    · rename_i hnone
      unfold deleteContextAttributeItem
      rw [if_pos hnone]
      rfl
    · cases deleteContextAttributeItem r.apiVersion d o.update ca <;> rfl

theorem attributeItems_same {caV : List ContextAttribute} :
    SameOutcome (attributeItems env d r caV o) (contextAttributeItems env d r o.update caV) := by
  induction caV generalizing o with
  | nil => rfl
  | cons ca caV ih =>
    have hitem : SameOutcome (attributeItem env d r ca o)
        (contextAttributeItem env d r o.update ca) := attributeItem_same
    rw [attributeItems, contextAttributeItems]
    obtain ⟨⟨o', refusal⟩, hp⟩ : ∃ p, attributeItem env d r ca o = p := ⟨_, rfl⟩
    rw [hp] at hitem ⊢
    cases refusal with
    | none =>
      rw [show contextAttributeItem env d r o.update ca = .ok o'.update from hitem]
      exact ih
    | some oe =>
      rw [show contextAttributeItem env d r o.update ca = .error oe from hitem]
      rfl

end NotifyCer
