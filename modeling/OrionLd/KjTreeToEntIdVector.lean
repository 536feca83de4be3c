import OrionLd.AttributeDatasets
import OrionLd.PcheckSubscription

/-! The entities of subscriptions and registrations in creation: kjTreeToEntIdVector. The children
of a node that is neither array nor object are read through what it has instead of a pointer, and
the members of an object that is really an array have no name. -/
namespace KjTreeToEntIdVector

open KjTree OrionldContextItem KjTreeToContextAttribute Fallible PcheckGeoQ
open AttributeDatasets (uriDetail)

def childNodes : KjNode → Except CheckError (List KjNode)
  | .array items => .ok items
  | .object members => .ok (members.map Prod.snd)
  | node => if isZero node then .ok [] else .error .fault

def childMembers : KjNode → Except CheckError Members
  | .object members => .ok members
  | .array [] => .ok []
  | node => if isZero node then .ok [] else .error .fault

theorem childMembers_ok {node : KjNode} {members : Members} (h : childMembers node = .ok members) :
    node = .object members ∨ members = [] := by
  unfold childMembers at h
  split at h
  · exact .inl (congrArg KjNode.object (Except.ok.inj h))
  · exact .inr (Except.ok.inj h).symm
  split at h
  · exact .inr (Except.ok.inj h).symm
  · cases h

structure EntID where
  id : Text
  idPattern : Text
  type : Text

structure EntityFields where
  id : Option Text
  idPattern : Option Text
  type : Option Text

def entityField (f : EntityFields) (m : Text × KjNode) : Except CheckError EntityFields :=
  if m.1 = "id".toList ∨ m.1 = "@id".toList then do
    once f.id "EntityInfo::id"
    let s ← stringCheck "EntityInfo::id" m.2
    .ok { f with id := some s }
  else if m.1 = "idPattern".toList then do
    once f.idPattern "EntityInfo::idPattern"
    let s ← stringCheck "EntityInfo::idPattern" m.2
    .ok { f with idPattern := some s }
  else if m.1 = "type".toList ∨ m.1 = "@type".toList then do
    once f.type "EntityInfo::type"
    let s ← stringCheck "EntityInfo::type" m.2
    .ok { f with type := some s }
  else .error (.response 400 "Unknown EntityInfo field" m.1)

def entIDOfFields (c : Contexts) (f : EntityFields) : Except CheckError EntID :=
  match f.id, f.idPattern, f.type with
  | none, none, none => .error (.response 400 "Empty EntityInfo object" [])
  | some _, some _, _ =>
    .error (.response 400 "Both 'id' and 'idPattern' given in EntityInfo object" [])
  | id, idPattern, type =>
    if id.any fun uri => !pcheckUri uri then
      .error (badRequest "Invalid Entity ID" (uriDetail (id.getD [])))
    else match type with
      | none => .error (badRequest "Missing field in EntityInfo object" "type")
      | some type =>
        .ok ⟨id.getD [], idPattern.getD [], (orionldContextItemExpand c type).1⟩

def kjTreeToEntID (c : Contexts) : KjNode → Except CheckError EntID
  | .object members => do
    let f ← members.foldlM entityField ⟨none, none, none⟩
    entIDOfFields c f
  | _ => .error (.response 400 "EntityInfo array member not a JSON Object" [])

def kjTreeToEntIdVector (c : Contexts) (node : KjNode) : Except CheckError (List EntID) := do
  let items ← childNodes node
  items.mapM (kjTreeToEntID c)

end KjTreeToEntIdVector
