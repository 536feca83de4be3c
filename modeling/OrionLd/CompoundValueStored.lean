import OrionLd.ContextDownloadList
import OrionLd.KjTreeFromQueryContextResponse

/-! Compound values in the database. The names of the members go through a buffer of 256 bytes and
through the exchange of dots for equal signs, undone when the value is read: the value comes back if
and only if its names fit into the buffer. -/
namespace CompoundValueStored

open List KjTree
open MongoCppLegacyCodec (BsonValue)
open KjTreeFromQueryContextResponse
open ContextDownloadList (storedName)

variable (rest : Text → Text)

mutual
/-- The tests on the type that both builders share. -/
def compoundValueBson : CompoundValueNode → BsonValue
  | .string s => .string s
  | .number x => .double x
  | .boolean b => .bool b
  | .null => .null
  | .vector items => .array (compoundValueBsonArray items)
  | .object members => .object (compoundValueBsonObject members)
def compoundValueBsonArray : List CompoundValueNode → List BsonValue
  | [] => []
  | child :: children => compoundValueBson child :: compoundValueBsonArray children
/-- Where strncpy writes no terminator, the name goes on with its rest in the memory. -/
def compoundValueBsonObject : List (Text × CompoundValueNode) → List (Text × BsonValue)
  | [] => []
  | (name, child) :: children =>
    (dotForEq (storedName (rest name) name), compoundValueBson child) ::
        compoundValueBsonObject children
end

def Survives : CompoundValueNode → Prop
  | .object members => compoundObjectResponse (compoundValueBsonObject rest members) = members
  | .vector items => compoundVectorResponse (compoundValueBsonArray rest items) = items
  | node => addCompoundNode (compoundValueBson rest node) = some node

mutual
def EveryName (P : Text → Prop) : CompoundValueNode → Prop
  | .vector items => EveryNameItems P items
  | .object members => EveryNameMembers P members
  | _ => True
def EveryNameItems (P : Text → Prop) : List CompoundValueNode → Prop
  | [] => True
  | item :: items => EveryName P item ∧ EveryNameItems P items
def EveryNameMembers (P : Text → Prop) : List (Text × CompoundValueNode) → Prop
  | [] => True
  | (name, node) :: members => (P name ∧ EveryName P node) ∧ EveryNameMembers P members
end

structure Compound where
  node : CompoundValueNode
  plain : EveryName (fun name => '=' ∉ name) node

/-- The name fits with its terminator, or the memory goes on as the name does. -/
def FitsBuffer (name : Text) : Prop := name.length < 255 ∨ eqForDot (rest name) = name.drop 255

variable {rest : Text → Text} {name : Text}

theorem eqForDot_of_plain (h : '=' ∉ name) : eqForDot name = name := by
  refine (map_congr_left ?_).trans (map_id _)
  intro c hc
  apply if_neg
  rintro rfl
  exact h hc

theorem nameRead_iff (h : '=' ∉ name) :
    eqForDot (dotForEq (storedName (rest name) name)) = name ↔ FitsBuffer rest name := by
  unfold storedName FitsBuffer
  rw [KjTree.eqForDot_dotForEq]
  split
  · rename_i hlt
    exact iff_of_true (eqForDot_of_plain h) (.inl hlt)
  rename_i hlt
  have htake : eqForDot (name.take 255) = name.take 255 :=
    eqForDot_of_plain fun hmem => h (mem_of_mem_take hmem)
  have happend : eqForDot (name.take 255 ++ rest name) =
      name.take 255 ++ eqForDot (rest name) := by
    rw [eqForDot, map_append]
    exact congrArg (· ++ _) htake
  rw [happend, or_iff_right hlt]
  constructor
  · intro heq
    exact append_cancel_left (heq.trans (take_append_drop 255 name).symm)
  · intro heq
    rw [heq, take_append_drop]

variable (rest : Text → Text)

mutual
theorem node_read : ∀ node : CompoundValueNode, EveryName (fun name => '=' ∉ name) node →
    ∃ node', addCompoundNode (compoundValueBson rest node) = some node' ∧
      (node' = node ↔ EveryName (FitsBuffer rest) node)
  | .string s, _ => ⟨_, rfl, iff_of_true rfl trivial⟩
  | .number x, _ => ⟨_, rfl, iff_of_true rfl trivial⟩
  | .boolean b, _ => ⟨_, rfl, iff_of_true rfl trivial⟩
  | .null, _ => ⟨_, rfl, iff_of_true rfl trivial⟩
  | .vector items, h => by
    refine ⟨.vector (compoundVectorResponse (compoundValueBsonArray rest items)), ?_, ?_⟩
    · rw [compoundValueBson, addCompoundNode]
    · rw [CompoundValueNode.vector.injEq, EveryName]
      exact items_read items h
  | .object members, h => by
    refine ⟨.object (compoundObjectResponse (compoundValueBsonObject rest members)), ?_, ?_⟩
    · rw [compoundValueBson, addCompoundNode]
    · rw [CompoundValueNode.object.injEq, EveryName]
      exact members_read members h
theorem items_read : ∀ items : List CompoundValueNode,
    EveryNameItems (fun name => '=' ∉ name) items →
      (compoundVectorResponse (compoundValueBsonArray rest items) = items ↔
        EveryNameItems (FitsBuffer rest) items)
  | [], _ => iff_of_true (by rw [compoundValueBsonArray, compoundVectorResponse]) trivial
  | item :: items, ⟨h, hs⟩ => by
    obtain ⟨node', hread, hsame⟩ := node_read item h
    rw [compoundValueBsonArray, compoundVectorResponse, hread, Option.toList_some,
      singleton_append, cons.injEq, EveryNameItems, hsame, items_read items hs]
theorem members_read : ∀ members : List (Text × CompoundValueNode),
    EveryNameMembers (fun name => '=' ∉ name) members →
      (compoundObjectResponse (compoundValueBsonObject rest members) = members ↔
        EveryNameMembers (FitsBuffer rest) members)
  | [], _ => iff_of_true (by rw [compoundValueBsonObject, compoundObjectResponse]) trivial
  | (name, node) :: members, ⟨⟨hname, h⟩, hs⟩ => by
    obtain ⟨node', hread, hsame⟩ := node_read node h
    rw [compoundValueBsonObject, compoundObjectResponse, hread, Option.map_some,
      Option.toList_some, singleton_append, cons.injEq, EveryNameMembers,
      members_read members hs, Prod.mk.injEq, hsame, nameRead_iff hname]
end

/-- A compound value survives its storage if and only if its names fit into the buffer. -/
theorem compound_survives_iff (c : Compound) :
    Survives rest c.node ↔ EveryName (FitsBuffer rest) c.node := by
  obtain ⟨node, hplain⟩ := c
  cases node with
  | object members => exact members_read rest members hplain
  | vector items => exact items_read rest items hplain
  | _ => exact iff_of_true rfl trivial

def longName : Compound where
  node := .object [(List.replicate 300 'x', .null)]
  plain := ⟨⟨by decide, trivial⟩, trivial⟩

theorem long_name_cut : ¬ ∀ (rest : Text → Text) (c : Compound), Survives rest c.node := by
  intro h
  have hmembers : compoundObjectResponse
    (compoundValueBsonObject (fun _ => []) [(List.replicate 300 'x',
      .null)]) = [(List.replicate 300 'x', .null)] := h (fun _ => []) longName
  exact absurd (congrArg (fun m => (m.map fun x => x.1.length)) hmembers) (by decide +kernel)

end CompoundValueStored
