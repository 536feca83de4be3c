import Mathlib.Data.List.Nodup
import OrionLd.KjTree

/-! The answer to a GET of an entity that context providers have, too: the members of every answer
are moved to the end of the response, whatever the response has already. -/
namespace ForwardedAnswers

open List
open KjTree (Text KjNode Members)

def isId (name : Text) : Bool := name = "id".toList ∨ name = "@id".toList
def isType (name : Text) : Bool := name = "type".toList ∨ name = "@type".toList
def isAttribute (name : Text) : Bool := !isId name && !isType name

def names (members : Members) : List Text := members.map (·.1)

structure Response where
  members : Members
  needEntityType : Bool

def moveMember (r : Response) (member : Text × KjNode) : Response :=
  if isId member.1 then r
  else if isType member.1 then
    if r.needEntityType then ⟨r.members ++ [member], false⟩ else r
  else ⟨r.members ++ [member], r.needEntityType⟩

def partMembers : Option KjNode → Members
  | some (.object members) => members
  | _ => []

def orionldForwardGetEntity (parts : List (Option KjNode)) (responseP : Members)
    (needEntityType : Bool) : Members :=
  (parts.foldl (fun r part => (partMembers part).foldl moveMember r)
    ⟨responseP, needEntityType⟩).members

/-- The tree made of an entity of the database. -/
structure LocalEntity where
  members : Members
  oneId : (names members).countP isId = 1
  oneType : (names members).countP isType ≤ 1

def orionldGetEntity (wildcard : Text) (found : Option LocalEntity)
    (parts : List (Option KjNode)) : Members :=
  match found with
  | none => orionldForwardGetEntity parts [("id".toList, .string wildcard)] true
  | some entity => orionldForwardGetEntity parts entity.members false

def attributeNames (members : Members) : List Text := (names members).filter isAttribute

def given (found : Option LocalEntity) (parts : List (Option KjNode)) : List Text :=
  attributeNames (found.elim [] LocalEntity.members) ++
    parts.flatMap fun part => attributeNames (partMembers part)

structure Proper (found : Option LocalEntity) (parts : List (Option KjNode)) (tree : Members) :
    Prop where
  oneId : (names tree).countP isId = 1
  oneType : (names tree).countP isType ≤ 1
  distinct : (names tree).Nodup
  complete : ∀ name ∈ given found parts, name ∈ names tree

variable {r : Response} {members : Members}

/-- What a move leaves as it was. -/
structure Moved (r r' : Response) (members : Members) : Prop where
  ids : (names r'.members).countP isId = (names r.members).countP isId
  types : (names r.members).countP isType + r.needEntityType.toNat ≤ 1 →
    (names r'.members).countP isType + r'.needEntityType.toNat ≤ 1
  attributes : attributeNames r'.members = attributeNames r.members ++ attributeNames members

theorem names_add (members : Members) (member : Text × KjNode) :
    names (members ++ [member]) = names members ++ [member.1] :=
  map_append

theorem member_moved (r : Response) (member : Text × KjNode) :
    Moved r (moveMember r member) [member] := by
  have hattribute : attributeNames [member] = if isAttribute member.1 then [member.1] else [] :=
    filter_cons
  unfold moveMember
  split
  · rename_i hid
    exact ⟨rfl, id, by simp [hattribute, isAttribute, hid]⟩
  rename_i hid
  split
  · rename_i htype
    split
    · rename_i hneed
      constructor
      · simp [names_add, hid]
      · simp [names_add, htype, hneed]
      · simp [attributeNames, names, isAttribute, htype]
    · exact ⟨rfl, id, by simp [hattribute, isAttribute, htype]⟩
  · rename_i htype
    constructor
    · simp [names_add, hid]
    · simp [names_add, htype]
    · simp [attributeNames, names]

theorem members_moved (members : Members) (r : Response) :
    Moved r (members.foldl moveMember r) members := by
  induction members generalizing r with
  | nil => exact ⟨rfl, id, (append_nil _).symm⟩
  | cons member members ih =>
    have hfirst := member_moved r member
    have hrest := ih (moveMember r member)
    refine ⟨hrest.ids.trans hfirst.ids, hrest.types ∘ hfirst.types, ?_⟩
    have hcons : attributeNames (member :: members) =
        attributeNames [member] ++ attributeNames members :=
      filter_append [member.1] (names members)
    rw [foldl_cons, hrest.attributes, hfirst.attributes, hcons, append_assoc]

theorem nodup_iff_attributes {names : List Text} (hid : names.countP isId ≤ 1)
    (htype : names.countP isType ≤ 1) : names.Nodup ↔ (names.filter isAttribute).Nodup := by
  refine ⟨List.Nodup.filter _, fun h => nodup_iff_count_le_one.mpr fun name => ?_⟩
  by_cases hattribute : isAttribute name = true
  · rw [← count_filter hattribute]
    exact nodup_iff_count_le_one.mp h name
  have hcount : ∀ p : Text → Bool, p name → names.count name ≤ names.countP p := by
    intro p hp
    apply countP_mono_left
    intro other _ heq
    rwa [beq_iff_eq.mp heq]
  rw [isAttribute, Bool.and_eq_true, not_and_or] at hattribute
  rcases hattribute with h | h
  · exact (hcount isId (by simpa using h)).trans hid
  · exact (hcount isType (by simpa using h)).trans htype

/-- The answer is a proper object if and only if no attribute is given twice. -/
theorem answer_proper_iff (wildcard : Text) (found : Option LocalEntity)
    (parts : List (Option KjNode)) :
    Proper found parts (orionldGetEntity wildcard found parts) ↔ (given found parts).Nodup := by
  have hmoved : ∀ (responseP : Members) (needEntityType : Bool), (names responseP).countP isId = 1 →
      (names responseP).countP isType + needEntityType.toNat ≤ 1 →
      attributeNames responseP = attributeNames (found.elim [] LocalEntity.members) →
      (Proper found parts (orionldForwardGetEntity parts responseP needEntityType) ↔
        (given found parts).Nodup) := by
    intro responseP needEntityType hid htype hattributes
    have h := members_moved (parts.flatMap partMembers) ⟨responseP, needEntityType⟩
    rw [foldl_flatMap] at h
    have hgiven : attributeNames (orionldForwardGetEntity parts responseP needEntityType) =
        given found parts := by
      have hparts : attributeNames (parts.flatMap partMembers) =
          parts.flatMap fun part => attributeNames (partMembers part) := by
        rw [attributeNames, names, map_flatMap, filter_flatMap]
        rfl
      rw [orionldForwardGetEntity, h.attributes, hattributes, given, hparts]
    have hone := h.ids.trans hid
    have htypes := (Nat.le_add_right _ _).trans (h.types htype)
    rw [← hgiven]
    constructor
    · intro hproper
      exact hproper.distinct.filter _
    · intro hnodup
      refine ⟨hone, htypes, (nodup_iff_attributes hone.le htypes).mpr hnodup, ?_⟩
      intro name hname
      rw [← hgiven] at hname
      exact (mem_filter.mp hname).1
  cases found with
  | none => exact hmoved _ _ rfl le_rfl rfl
  | some entity => exact hmoved _ _ entity.oneId entity.oneType rfl

def storedCar : LocalEntity where
  members := [("id".toList, .string "urn:1".toList), ("type".toList, .string "Car".toList),
    ("speed".toList, .int 1)]
  oneId := by decide
  oneType := by decide

def colorOfCar : List (Option KjNode) :=
  [none, some (.object [("id".toList, .string "urn:1".toList),
    ("type".toList, .string "Car".toList), ("color".toList, .string "red".toList)])]

theorem stored_and_forwarded : Proper (some storedCar) colorOfCar
    (orionldGetEntity "urn:1".toList (some storedCar) colorOfCar) :=
  (answer_proper_iff _ _ _).mpr (by decide)

theorem repeated_speed : ¬ ∀ wildcard found parts,
    Proper found parts (orionldGetEntity wildcard found parts) := by
  intro h
  have hproper := h "urn:1".toList none [some (.object [("speed".toList, .int 1)]),
    some (.object [("speed".toList, .int 2)])]
  exact absurd hproper.distinct (by decide)

end ForwardedAnswers
