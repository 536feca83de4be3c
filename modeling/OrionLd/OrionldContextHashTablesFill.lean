import OrionLd.ContextExpansion
import OrionLd.Fallible
import Mathlib.Algebra.GroupWithZero.Nat
import Mathlib.Data.List.Perm.Basic
import Mathlib.Data.List.Sort

/-! Loading of a key-value context. The first pass takes the value of each key as it is given, the
second one goes over the slots of the table and expands each value in its place, while prefixes are
looked up in that same table. The core context is loaded before. -/
namespace OrionldContextHashTablesFill

open KjTree (Text KjNode Members)
open OrionldContextItem (ContextItem)
open OrionldContextTree
open ContextExpansion (termOf)
open Fallible List Option

/-- An error of the request, or the read of a string from a value that has none. -/
inductive Failure where
  | refused (title detail : Text)
  | fault

def idAndType : Members → Option Text → Option Text → Except Failure (Option Text × Option Text)
  | [], id, type => .ok (id, type)
  | (name, node) :: members, id, type =>
    if name = "@id".toList then
      match node with
      | .string s => idAndType members (some s) type
      | _ => .error .fault
    else if name = "@type".toList then
      match node with
      | .string s => idAndType members id (some s)
      | _ => .error .fault
    else idAndType members id type

def contextItem (name : Text) (id type : Option Text) : Except Failure ContextItem :=
  match id with
  | none | some [] => .error (.refused "NULL value for key in context".toList name)
  | some id => .ok ⟨name, id, type⟩

def keyValue : Text × KjNode → Except Failure ContextItem
  | (name, .string s) => contextItem name (some s) none
  | (name, .object members) => do
    let (id, type) ← idAndType members none none
    contextItem name id type
  | (name, _) => .error (.refused "Invalid key-value in @context".toList name)

def contextItems (keyValueTree : Members) : Except Failure (List ContextItem) :=
  keyValueTree.mapM keyValue

/-- Without the default URL. The string of the item is cut at its colon meanwhile, and its own term
reads so. -/
def prefixExpansion (c : Contexts) (table : List ContextItem) (item : ContextItem)
    (start : Text) : Option Text :=
  match orionldContextItemLookup c c.core start with
  | some found => some found.id
  | none => (c.khash.khashItemLookup ContextItem.name table start).map fun found =>
      if found.name = item.name then start else found.id

def afterColon (str : Text) : Text := (str.dropWhile (· ≠ ':')).tail

def HasPrefix (value : Text) : Prop := ':' ∈ value ∧ isUri value = false

instance (value : Text) : Decidable (HasPrefix value) := inferInstanceAs (Decidable (_ ∧ _))

def expandedId (c : Contexts) (table : List ContextItem) (item : ContextItem) : Text :=
  if HasPrefix item.id then
    match prefixExpansion c table item (termOf item.id) with
    | some expansion => expansion ++ afterColon item.id
    | none => item.id
  else item.id

def secondPass (c : Contexts) : List ContextItem → List ContextItem → List ContextItem
  | _, [] => []
  | visited, item :: others =>
    let expanded := { item with id := expandedId c (visited ++ item :: others) item }
    expanded :: secondPass c (visited ++ [expanded]) others

/-- The order in which the slots of the table and their chains hold the items. -/
structure Placement where
  order : List ContextItem → List ContextItem
  perm : ∀ items, (order items).Perm items

def hashCode (name : Text) : ℕ :=
  (name.flatMap fun ch => (String.utf8EncodeChar ch).map UInt8.toNat).sum % 2 ^ 32

/-- Where chains keep the order of their insertion, this is the order of the items. -/
def slotOrder : Placement where
  order := List.insertionSort fun s t => hashCode s.name % 1024 ≤ hashCode t.name % 1024
  perm := List.perm_insertionSort _

structure HashTables where
  nameHashTable : List ContextItem
  valueHashTable : List ContextItem

def orionldContextHashTablesFill (c : Contexts) (placement : Placement)
    (keyValueTree : Members) : Except Failure HashTables := do
  let items ← contextItems keyValueTree
  let table := secondPass c [] (placement.order items)
  .ok ⟨table, table⟩

/-- The value of t has the term s as its prefix; the core context comes first. -/
def Uses (c : Contexts) (t s : ContextItem) : Prop :=
  HasPrefix t.id ∧ orionldContextItemLookup c c.core (termOf t.id) = none ∧
    s.name = termOf t.id

/-- The full expansion of a value under given items. A value whose prefixes come round to
itself has none. -/
inductive Expands (c : Contexts) (given : List ContextItem) : Text → Text → Prop where
  | absolute {value : Text} (h : ¬ HasPrefix value) : Expands c given value value
  | unknown {value : Text} (h : HasPrefix value)
      (hcore : orionldContextItemLookup c c.core (termOf value) = none)
      (hgiven : ∀ s ∈ given, s.name ≠ termOf value) : Expands c given value value
  | core {value : Text} {found : ContextItem} (h : HasPrefix value)
      (hcore : orionldContextItemLookup c c.core (termOf value) = some found) :
      Expands c given value (found.id ++ afterColon value)
  | term {value expansion : Text} {s : ContextItem} (h : HasPrefix value)
      (hcore : orionldContextItemLookup c c.core (termOf value) = none) (hs : s ∈ given)
      (hname : s.name = termOf value) (hexpands : Expands c given s.id expansion) :
      Expands c given value (expansion ++ afterColon value)

variable {c : Contexts} {given : List ContextItem} {value w w' : Text}
variable {t : ContextItem}
variable {s : ContextItem} {given' : List ContextItem} {keyValueTree' : Members}

theorem eq_of_name (hnames : (given.map ContextItem.name).Nodup) (hs : s ∈ given) (ht : t ∈ given)
    (h : s.name = t.name) : s = t :=
  inj_on_of_nodup_map hnames hs ht h

theorem expands_unique (hnames : (given.map ContextItem.name).Nodup)
    (h : Expands c given value w) (h' : Expands c given value w') : w = w' := by
  induction h generalizing w' with
  | absolute h =>
    cases h' with
    | absolute _ => rfl
    | unknown _ _ _ => rfl
    | core hterm _ => exact absurd hterm h
    | term hterm _ _ _ _ => exact absurd hterm h
  | unknown h hcore hgiven =>
    cases h' with
    | absolute _ => rfl
    | unknown _ _ _ => rfl
    | core _ hcore' => rw [hcore] at hcore'; cases hcore'
    | term _ _ hs hname _ => exact absurd hname (hgiven _ hs)
  | core h hcore =>
    cases h' with
    | absolute hnot => exact absurd h hnot
    | unknown _ hcore' _ | term _ hcore' _ _ _ => rw [hcore] at hcore'; cases hcore'
    | core _ hcore' =>
      rw [hcore] at hcore'
      rw [some.inj hcore']
  | term h hcore hs hname _ ih =>
    cases h' with
    | absolute hnot => exact absurd h hnot
    | unknown _ _ hgiven => exact absurd hname (hgiven _ hs)
    | core _ hcore' => rw [hcore] at hcore'; cases hcore'
    | term _ _ hs' hname' hexpands =>
      obtain rfl := eq_of_name hnames hs hs' (hname.trans hname'.symm)
      rw [ih hexpands]

theorem Expands.congr (hmem : ∀ s, s ∈ given ↔ s ∈ given') (h : Expands c given value w) :
    Expands c given' value w := by
  induction h with
  | absolute h => exact .absolute h
  | unknown h hcore hgiven => exact .unknown h hcore fun s hs => hgiven s ((hmem s).mpr hs)
  | core h hcore => exact .core h hcore
  | term h hcore hs hname _ ih => exact .term h hcore ((hmem _).mp hs) hname ih

theorem not_self (hnames : (given.map ContextItem.name).Nodup) (ht : t ∈ given)
    (huses : Uses c t t) :
    ¬ Expands c given t.id w := by
  intro h
  generalize hvalue : t.id = value at h
  induction h with
  | absolute h => exact h (hvalue ▸ huses.1)
  | unknown _ _ hgiven => exact hgiven t ht (hvalue ▸ huses.2.2)
  | core _ hcore =>
    have hnone := huses.2.1
    rw [hvalue, hcore] at hnone
    cases hnone
  | term _ _ hs hname _ ih =>
    obtain rfl := eq_of_name hnames hs ht (hname.trans (hvalue ▸ huses.2.2.symm))
    exact ih rfl

theorem expands_uses (hnames : (given.map ContextItem.name).Nodup) (hs : s ∈ given)
    (huses : Uses c t s) (h : Expands c given t.id w) :
    ∃ expansion, Expands c given s.id expansion ∧ w = expansion ++ afterColon t.id := by
  obtain ⟨hterm, hcore, hname⟩ := huses
  cases h with
  | absolute hnot => exact absurd hterm hnot
  | unknown _ _ hgiven => exact absurd hname (hgiven s hs)
  | core _ hcore' => rw [hcore] at hcore'; cases hcore'
  | term _ _ hs' hname' hexpands =>
    obtain rfl := eq_of_name hnames hs' hs (hname'.trans hname.symm)
    exact ⟨_, hexpands, rfl⟩

variable {table : List ContextItem}

theorem lookup_mem (hnames : (table.map ContextItem.name).Nodup) (hs : s ∈ table) :
    c.khash.khashItemLookup ContextItem.name table s.name = some s := by
  have hsome : (c.khash.khashItemLookup ContextItem.name table s.name).isSome := c.khash.complete hs
  obtain ⟨found, hfound⟩ := isSome_iff_exists.mp hsome
  obtain ⟨hmem, hname⟩ := c.khash.found hfound
  rw [hfound, eq_of_name hnames hmem hs hname]

theorem lookup_none {name : Text} (h : ∀ s ∈ table, s.name ≠ name) :
    c.khash.khashItemLookup ContextItem.name table name = none := by
  refine eq_none_iff_forall_not_mem.mpr fun found hfound => ?_
  obtain ⟨hmem, hname⟩ := c.khash.found (mem_def.mp hfound)
  exact h found hmem hname

def Settled (c : Contexts) (given : List ContextItem) (item found : ContextItem) : Prop :=
  found.name = item.name ∧ Expands c given item.id found.id

/-- At the turn of each item, the term that is its prefix has had its own turn, or is its own full
expansion. -/
def PrefixesFirst (c : Contexts) (given : List ContextItem) : List ContextItem → Prop
  | [] => True
  | item :: others =>
    (∀ s ∈ item :: others, Uses c item s → Expands c given s.id s.id) ∧
      PrefixesFirst c given others

variable {before visited others : List ContextItem}

theorem settled_names (h : List.Forall₂ (Settled c given) before visited) :
    visited.map ContextItem.name = before.map ContextItem.name := by
  induction h with
  | nil => rfl
  | cons hsettled _ ih => rw [map_cons, map_cons, hsettled.1, ih]

theorem settled_mem (h : List.Forall₂ (Settled c given) before visited) (hs : s ∈ before) :
    ∃ found ∈ visited, Settled c given s found := by
  induction h with
  | nil => cases hs
  | cons hsettled _ ih =>
    rcases mem_cons.mp hs with rfl | hs
    · exact ⟨_, mem_cons_self, hsettled⟩
    · obtain ⟨found, hmem, hfound⟩ := ih hs
      exact ⟨found, mem_cons_of_mem _ hmem, hfound⟩

theorem expandedId_of_none (h : HasPrefix t.id)
    (hterm : prefixExpansion c table t (termOf t.id) = none) : expandedId c table t = t.id := by
  unfold expandedId
  rw [if_pos h, hterm]

theorem expandedId_of_some (h : HasPrefix t.id) {expansion : Text}
    (hterm : prefixExpansion c table t (termOf t.id) = some expansion) :
    expandedId c table t = expansion ++ afterColon t.id := by
  unfold expandedId
  rw [if_pos h, hterm]

theorem prefixExpansion_term {found : ContextItem} (hnames : (table.map ContextItem.name).Nodup)
    (hcore : orionldContextItemLookup c c.core (termOf t.id) = none) (hfound : found ∈ table)
    (hname : found.name = termOf t.id) : prefixExpansion c table t (termOf t.id) =
      some (if found.name = t.name then termOf t.id else found.id) := by
  unfold prefixExpansion
  rw [hcore, ← hname, lookup_mem hnames hfound]
  rfl

/-- The value becomes its full expansion when the term it uses, if still to come, is its own
expansion. -/
theorem expandedId_iff (hgiven : given = before ++ t :: others)
    (hnames : (given.map ContextItem.name).Nodup)
    (hvisited : List.Forall₂ (Settled c given) before visited) :
    Expands c given t.id (expandedId c (visited ++ t :: others) t) ↔
      ∀ s ∈ t :: others, Uses c t s → Expands c given s.id s.id := by
  have ht : t ∈ given := hgiven ▸ mem_append_right _ mem_cons_self
  have htable : ((visited ++ t :: others).map ContextItem.name).Nodup := by
    rw [map_append, settled_names hvisited, ← map_append, ← hgiven]
    exact hnames
  by_cases hterm : HasPrefix t.id
  swap
  · have hid : expandedId c (visited ++ t :: others) t = t.id := if_neg hterm
    rw [hid]
    exact iff_of_true (.absolute hterm) fun s _ huses => absurd huses.1 hterm
  cases hcore : orionldContextItemLookup c c.core (termOf t.id) with
  | some found =>
    have hexpansion : prefixExpansion c (visited ++ t :: others) t (termOf t.id) =
        some found.id := by
      unfold prefixExpansion
      rw [hcore]
    rw [expandedId_of_some hterm hexpansion]
    refine iff_of_true (.core hterm hcore) fun s _ huses => ?_
    have hnone := huses.2.1
    rw [hcore] at hnone
    cases hnone
  | none =>
    by_cases hsome : ∃ s ∈ given, s.name = termOf t.id
    swap
    · have hunknown : ∀ s ∈ given, s.name ≠ termOf t.id := fun s hs hname => hsome ⟨s, hs, hname⟩
      have hexpansion : prefixExpansion c (visited ++ t :: others) t (termOf t.id) = none := by
        unfold prefixExpansion
        rw [hcore]
        refine map_eq_none_iff.mpr (lookup_none fun s hs hname => ?_)
        have hmem : s.name ∈ given.map ContextItem.name := by
          rw [hgiven, map_append, ← settled_names hvisited, ← map_append]
          exact mem_map_of_mem hs
        obtain ⟨s', hs', hname'⟩ := mem_map.mp hmem
        exact hunknown s' hs' (hname'.trans hname)
      rw [expandedId_of_none hterm hexpansion]
      refine iff_of_true (.unknown hterm hcore hunknown) fun s hs huses => ?_
      exact absurd huses.2.2 (hunknown s (hgiven ▸ mem_append_right _ hs))
    · obtain ⟨s, hs, hname⟩ := hsome
      have huses : Uses c t s := ⟨hterm, hcore, hname⟩
      rw [hgiven] at hs
      rcases mem_append.mp hs with hbefore | hothers
      -- the prefix has had its turn
      · obtain ⟨found, hfound, hfname, hexpands⟩ := settled_mem hvisited hbefore
        have hdisjoint : ∀ s' ∈ t :: others, s.name ≠ s'.name := by
          rw [hgiven, map_append] at hnames
          intro s' hs' heq
          exact disjoint_of_nodup_append hnames (mem_map_of_mem hbefore) (heq ▸ mem_map_of_mem hs')
        have hexpansion := prefixExpansion_term htable hcore (mem_append_left _ hfound)
          (hfname.trans hname)
        rw [if_neg (hfname ▸ hdisjoint t mem_cons_self)] at hexpansion
        rw [expandedId_of_some hterm hexpansion]
        refine iff_of_true (.term hterm hcore (hgiven ▸ hs) hname hexpands) ?_
        intro s' hs' huses'
        exact absurd (hname.trans huses'.2.2.symm) (hdisjoint s' hs')
      -- the prefix is still to come, or is the item itself
      · have hexpansion := prefixExpansion_term htable hcore (mem_append_right visited hothers)
          hname
        rw [expandedId_of_some hterm hexpansion]
        have hmem : ∀ s' ∈ t :: others, s' ∈ given := fun s' hs' => hgiven ▸ mem_append_right _ hs'
        by_cases hself : s.name = t.name
        · obtain rfl := eq_of_name hnames (hmem s hothers) ht hself
          refine iff_of_false (not_self hnames ht huses) fun hall => ?_
          exact not_self hnames ht huses (hall s hothers huses)
        rw [if_neg hself]
        constructor
        · intro hexpands s' hs' huses'
          obtain rfl := eq_of_name hnames (hmem s' hs') (hmem s hothers)
            (huses'.2.2.trans hname.symm)
          obtain ⟨expansion, hexpansion, heq⟩ := expands_uses hnames (hmem s' hs') huses hexpands
          rwa [← append_cancel_right heq] at hexpansion
        · intro hall
          exact .term hterm hcore (hmem s hothers) hname (hall s hothers huses)

theorem prefixesFirst_congr (hmem : ∀ s, s ∈ given ↔ s ∈ given') (others : List ContextItem) :
    PrefixesFirst c given others ↔ PrefixesFirst c given' others := by
  induction others with
  | nil => exact Iff.rfl
  | cons t others ih =>
    refine and_congr (forall₃_congr fun s _ _ => ?_) ih
    exact ⟨fun h => h.congr hmem, fun h => h.congr fun s => (hmem s).symm⟩

variable (before) in
theorem secondPass_iff (hgiven : given = before ++ others)
    (hnames : (given.map ContextItem.name).Nodup)
    (hvisited : List.Forall₂ (Settled c given) before visited) :
    List.Forall₂ (Settled c given) others (secondPass c visited others) ↔
      PrefixesFirst c given others := by
  induction others generalizing before visited with
  | nil => exact iff_of_true .nil trivial
  | cons t others ih =>
    rw [secondPass, PrefixesFirst, forall₂_cons, ← expandedId_iff hgiven hnames hvisited]
    constructor
    · rintro ⟨⟨hname, hexpands⟩, hothers⟩
      refine ⟨hexpands, (ih (before ++ [t]) ?_ ?_).mp hothers⟩
      · rw [hgiven, append_assoc]
        rfl
      · exact rel_append hvisited (.cons ⟨hname, hexpands⟩ .nil)
    · rintro ⟨hexpands, hfirst⟩
      refine ⟨⟨rfl, hexpands⟩, (ih (before ++ [t]) ?_ ?_).mpr hfirst⟩
      · rw [hgiven, append_assoc]
        rfl
      · exact rel_append hvisited (.cons ⟨rfl, hexpands⟩ .nil)

variable {keyValueTree : Members}

theorem keyValue_name {m : Text × KjNode} {item : ContextItem} (h : keyValue m = .ok item) :
    item.name = m.1 := by
  have hitem : ∀ {name : Text} {id type : Option Text},
      contextItem name id type = .ok item → item.name = name := by
    intro name id type h
    unfold contextItem at h
    split at h
    · cases h
    · cases h
    · exact congrArg ContextItem.name (Except.ok.inj h).symm
  obtain ⟨name, node⟩ := m
  cases node with
  | string s => exact hitem h
  | object members =>
    obtain ⟨x, -, h⟩ := bind_ok h
    exact hitem h
  | _ => cases h

theorem contextItems_names (h : contextItems keyValueTree = .ok given) :
    given.map ContextItem.name = keyValueTree.map Prod.fst := by
  have hall := mapM_forall₂ h
  clear h
  induction hall with
  | nil => rfl
  | cons hm _ ih => rw [map_cons, map_cons, keyValue_name hm, ih]

theorem contextItems_perm (hperm : keyValueTree'.Perm keyValueTree)
    (h : contextItems keyValueTree = .ok given) :
    ∃ given', contextItems keyValueTree' = .ok given' ∧ given'.Perm given := by
  obtain ⟨given', hall, hgiven⟩ := perm_comp_forall₂ hperm (mapM_forall₂ h)
  exact ⟨given', mapM_of_forall₂ hall, hgiven⟩

/-- Every term is found with the full expansion of its given value, and the value table has
a term of that id. -/
structure Loaded (c : Contexts) (given : List ContextItem) (tables : HashTables) : Prop where
  expanded : ∀ item ∈ given, ∃ found,
    c.khash.khashItemLookup ContextItem.name tables.nameHashTable item.name = some found ∧
      Expands c given item.id found.id
  back : ∀ item ∈ given, ∀ found,
    c.khash.khashItemLookup ContextItem.name tables.nameHashTable item.name = some found →
      ∃ term, c.khash.khashItemLookup ContextItem.id tables.valueHashTable found.id =
        some term ∧ term ∈ tables.nameHashTable ∧ term.id = found.id
variable {placement : Placement} {tables : HashTables}

theorem secondPass_names (c : Contexts) (visited others : List ContextItem) :
    (secondPass c visited others).map ContextItem.name = others.map ContextItem.name := by
  induction others generalizing visited with
  | nil => rfl
  | cons item others ih =>
    rw [secondPass, map_cons, map_cons, ih]

theorem fill_tables (hgiven : contextItems keyValueTree = .ok given)
    (h : orionldContextHashTablesFill c placement keyValueTree = .ok tables) :
    tables =
      ⟨secondPass c [] (placement.order given), secondPass c [] (placement.order given)⟩ := by
  obtain ⟨items, hitems, h⟩ := bind_ok h
  obtain rfl := Except.ok.inj (hitems.symm.trans hgiven)
  exact (Except.ok.inj h).symm

theorem settled_of_lookup {order found : List ContextItem}
    (hnames : (table.map ContextItem.name).Nodup)
    (hsame : found.map ContextItem.name = order.map ContextItem.name)
    (hsub : ∀ x ∈ found, x ∈ table) (h : ∀ item ∈ order, ∃ x,
    c.khash.khashItemLookup ContextItem.name table item.name = some x ∧
    Expands c given item.id x.id) : List.Forall₂ (Settled c given) order found := by
  induction order generalizing found with
  | nil =>
    obtain rfl := map_eq_nil_iff.mp hsame
    exact .nil
  | cons item order ih =>
    obtain ⟨x, found, rfl, hname, hrest⟩ := map_eq_cons_iff.mp hsame
    obtain ⟨y, hy, hexpands⟩ := h item mem_cons_self
    have hx := lookup_mem (c := c) hnames (hsub x mem_cons_self)
    rw [hname, hy] at hx
    cases hx
    refine .cons ⟨hname, hexpands⟩ (ih hrest (fun z hz => hsub z (mem_cons_of_mem _ hz)) ?_)
    exact fun other hother => h other (mem_cons_of_mem _ hother)

/-- One load is right exactly when each prefix is visited before its users or is its own
expansion. -/
theorem loaded_iff (hkeys : (keyValueTree.map Prod.fst).Nodup)
    (hgiven : contextItems keyValueTree = .ok given)
    (h : orionldContextHashTablesFill c placement keyValueTree = .ok tables) :
    Loaded c given tables ↔ PrefixesFirst c given (placement.order given) := by
  obtain rfl := fill_tables hgiven h
  have hperm := placement.perm given
  have hnames : (given.map ContextItem.name).Nodup := by
    rw [contextItems_names hgiven]
    exact hkeys
  have horder : ((placement.order given).map ContextItem.name).Nodup :=
    (hperm.map ContextItem.name).nodup_iff.mpr hnames
  have hmem : ∀ s, s ∈ placement.order given ↔ s ∈ given := fun s => hperm.mem_iff
  have htable : ((secondPass c [] (placement.order given)).map ContextItem.name).Nodup := by
    rw [secondPass_names]
    exact horder
  have hback : ∀ item ∈ given, ∀ found, c.khash.khashItemLookup ContextItem.name
      (secondPass c [] (placement.order given)) item.name = some found →
        ∃ term, c.khash.khashItemLookup ContextItem.id
          (secondPass c [] (placement.order given)) found.id = some term ∧
            term ∈ secondPass c [] (placement.order given) ∧ term.id = found.id := by
    intro item _ found hfound
    have hsome : (c.khash.khashItemLookup ContextItem.id
        (secondPass c [] (placement.order given)) found.id).isSome :=
      c.khash.complete (c.khash.found hfound).1
    obtain ⟨term, hterm⟩ := isSome_iff_exists.mp hsome
    exact ⟨term, hterm, (c.khash.found hterm).1, (c.khash.found hterm).2⟩
  have hpass := secondPass_iff (c := c) [] rfl horder .nil
  rw [nil_append] at hpass
  have hfirst : PrefixesFirst c (placement.order given) (placement.order given) ↔
      PrefixesFirst c given (placement.order given) := prefixesFirst_congr hmem _
  rw [← hfirst, ← hpass]
  constructor
  · intro hloaded
    refine settled_of_lookup htable (secondPass_names c [] _) (fun x hx => hx) fun item hitem => ?_
    obtain ⟨found, hfound, hexpands⟩ := hloaded.expanded item ((hmem item).mp hitem)
    exact ⟨found, hfound, hexpands.congr fun s => (hmem s).symm⟩
  · intro hsettled
    refine ⟨fun item hitem => ?_, hback⟩
    obtain ⟨found, hfound, hname, hexpands⟩ := settled_mem hsettled ((hmem item).mpr hitem)
    exact ⟨found, hname ▸ lookup_mem htable hfound, hexpands.congr hmem⟩

def idOf (c : Contexts) (tables : HashTables) (name : Text) : Option Text :=
  (c.khash.khashItemLookup ContextItem.name tables.nameHashTable name).map ContextItem.id

/-- In any order of the members and of the table, the items are loaded right, and all the same. -/
structure OrderFree (c : Contexts) (keyValueTree : Members) : Prop where
  loaded : ∀ members placement given tables, members.Perm keyValueTree →
    contextItems members = .ok given →
    orionldContextHashTablesFill c placement members = .ok tables → Loaded c given tables
  same : ∀ members placement tables members' placement' tables',
    members.Perm keyValueTree → members'.Perm keyValueTree →
    orionldContextHashTablesFill c placement members = .ok tables →
    orionldContextHashTablesFill c placement' members' = .ok tables' →
    idOf c tables = idOf c tables'

theorem idOf_same {placement' : Placement} {tables' : HashTables}
    (hnames : (given.map ContextItem.name).Nodup) (hperm : given'.Perm given)
    (hgiven : contextItems keyValueTree = .ok given)
    (hgiven' : contextItems keyValueTree' = .ok given')
    (h : orionldContextHashTablesFill c placement keyValueTree = .ok tables)
    (h' : orionldContextHashTablesFill c placement' keyValueTree' = .ok tables')
    (hloaded : Loaded c given tables) (hloaded' : Loaded c given' tables') :
    idOf c tables = idOf c tables' := by
  funext name
  unfold idOf
  by_cases hname : name ∈ given.map ContextItem.name
  · obtain ⟨item, hitem, rfl⟩ := mem_map.mp hname
    obtain ⟨found, hfound, hexpands⟩ := hloaded.expanded item hitem
    obtain ⟨found', hfound', hexpands'⟩ := hloaded'.expanded item (hperm.mem_iff.mpr hitem)
    rw [hfound, hfound', map_some, map_some]
    exact congrArg some (expands_unique hnames hexpands (hexpands'.congr fun s => hperm.mem_iff))
  · have hmissing : ∀ {placement : Placement} {members : Members} {items : List ContextItem}
        {tables : HashTables}, items.Perm given → contextItems members = .ok items →
        orionldContextHashTablesFill c placement members = .ok tables →
          c.khash.khashItemLookup ContextItem.name tables.nameHashTable name = none := by
      intro placement members items tables hitems hok hfill
      obtain rfl := fill_tables hok hfill
      refine lookup_none fun s hs heq => hname ?_
      have hmem := mem_map_of_mem (f := ContextItem.name) hs
      rw [secondPass_names, heq] at hmem
      exact (((placement.perm items).trans hitems).map ContextItem.name).mem_iff.mp hmem
    rw [hmissing (List.Perm.refl given) hgiven h, hmissing hperm hgiven' h']

def nameFirst (name : Text) : Placement where
  order items := (items.filter fun s => s.name = name) ++ items.filter fun s => !(s.name = name)
  perm items := List.filter_append_perm (fun s => decide (s.name = name)) items

theorem prefixesFirst_of_stable
    (h : ∀ t ∈ given, ∀ s ∈ given, Uses c t s → Expands c given s.id s.id)
    (hsub : ∀ s ∈ others, s ∈ given) : PrefixesFirst c given others := by
  induction others with
  | nil => exact trivial
  | cons t others ih =>
    refine ⟨fun s hs huses => h t (hsub t mem_cons_self) s (hsub s hs) huses, ih ?_⟩
    exact fun s hs => hsub s (mem_cons_of_mem t hs)

theorem orderFree_iff (hkeys : (keyValueTree.map Prod.fst).Nodup)
    (hgiven : contextItems keyValueTree = .ok given) :
    OrderFree c keyValueTree ↔
      ∀ t ∈ given, ∀ s ∈ given, Uses c t s → Expands c given s.id s.id := by
  have hnames : (given.map ContextItem.name).Nodup := by
    rw [contextItems_names hgiven]
    exact hkeys
  constructor
  · intro hfree t ht s hs huses
    have hfill : orionldContextHashTablesFill c (nameFirst t.name) keyValueTree =
        .ok ⟨secondPass c [] ((nameFirst t.name).order given),
          secondPass c [] ((nameFirst t.name).order given)⟩ := by
      unfold orionldContextHashTablesFill
      rw [hgiven]
      rfl
    have hfirst := (loaded_iff hkeys hgiven hfill).mp
      (hfree.loaded keyValueTree _ given _ (List.Perm.refl _) hgiven hfill)
    have hmem : t ∈ given.filter fun s => s.name = t.name := mem_filter.mpr ⟨ht, decide_eq_true rfl⟩
    obtain ⟨t', others, hcons⟩ := exists_cons_of_ne_nil (ne_nil_of_mem hmem)
    have ht' := mem_filter.mp (hcons ▸ mem_cons_self : t' ∈ given.filter _)
    obtain rfl := eq_of_name hnames ht'.1 ht (of_decide_eq_true ht'.2)
    have horder : (nameFirst t'.name).order given =
        t' :: (others ++ given.filter fun s => !(s.name = t'.name)) := by
      change (given.filter fun s => s.name = t'.name) ++ _ = _
      rw [hcons]
      rfl
    rw [horder] at hfirst
    refine hfirst.1 s ?_ huses
    rw [← horder]
    exact ((nameFirst t'.name).perm given).mem_iff.mpr hs
  · intro hstable
    have hloaded : ∀ members placement items tables, members.Perm keyValueTree →
        contextItems members = .ok items →
        orionldContextHashTablesFill c placement members = .ok tables →
          items.Perm given ∧ Loaded c items tables := by
      intro members placement items tables hperm hitems hfill
      obtain ⟨items', hitems', hitemsPerm⟩ := contextItems_perm hperm hgiven
      obtain rfl := Except.ok.inj (hitems.symm.trans hitems')
      refine ⟨hitemsPerm, (loaded_iff ?_ hitems hfill).mpr ?_⟩
      · exact (hperm.map Prod.fst).nodup_iff.mpr hkeys
      · refine (prefixesFirst_congr (fun s => hitemsPerm.mem_iff) _).mpr ?_
        refine prefixesFirst_of_stable hstable fun s hs => ?_
        exact ((placement.perm items).trans hitemsPerm).mem_iff.mp hs
    refine ⟨fun members placement items tables hperm hitems hfill =>
      (hloaded members placement items tables hperm hitems hfill).2, ?_⟩
    intro members placement tables members' placement' tables' hperm hperm' hfill hfill'
    obtain ⟨items, hitems, hitemsPerm⟩ := contextItems_perm hperm hgiven
    obtain ⟨items', hitems', hitemsPerm'⟩ := contextItems_perm hperm' hgiven
    have hitemsNames : (items.map ContextItem.name).Nodup :=
      (hitemsPerm.map ContextItem.name).nodup_iff.mpr hnames
    exact idOf_same hitemsNames (hitemsPerm'.trans hitemsPerm.symm) hitems hitems' hfill hfill'
      (hloaded members placement items tables hperm hitems hfill).2
      (hloaded members' placement' items' tables' hperm' hitems' hfill').2

/-- A context is loaded right in a given order exactly when each prefix is visited before the terms
that use it or is its own full expansion, and in every order exactly when all prefixes in use are.
-/
theorem context_loaded_iff (c : Contexts) (keyValueTree : Members) (given : List ContextItem)
    (hkeys : (keyValueTree.map Prod.fst).Nodup) (hgiven : contextItems keyValueTree = .ok given) :
    (∀ placement tables, orionldContextHashTablesFill c placement keyValueTree = .ok tables →
      (Loaded c given tables ↔ PrefixesFirst c given (placement.order given))) ∧
    (OrderFree c keyValueTree ↔
      ∀ t ∈ given, ∀ s ∈ given, Uses c t s → Expands c given s.id s.id) :=
  ⟨fun _ _ hfill => loaded_iff hkeys hgiven hfill, orderFree_iff hkeys hgiven⟩

def userContexts : Contexts where
  khash := firstItem
  core := vocabContext
  core_hasNull := hasNull_vocabContext
  context := .keyValues []
  defaultUrl := defaultContextUrl

def keyValues (pairs : List (String × String)) : Members :=
  pairs.map fun pair => (pair.1.toList, .string pair.2.toList)

def givenItems (pairs : List (String × String)) : List ContextItem :=
  pairs.map fun pair => ⟨pair.1.toList, pair.2.toList, none⟩

def ownPrefix : List (String × String) := [("p", "http://p.org/"), ("name", "p:name")]

theorem prefixed_name_loaded :
    (∃ tables,
      orionldContextHashTablesFill userContexts slotOrder (keyValues ownPrefix) = .ok tables ∧
        Loaded userContexts (givenItems ownPrefix) tables) ∧
      OrderFree userContexts (keyValues ownPrefix) := by
  obtain ⟨hloaded, hfree⟩ :=
    context_loaded_iff userContexts (keyValues ownPrefix) (givenItems ownPrefix) (by decide) rfl
  have hstable : ∀ t ∈ givenItems ownPrefix, ∀ s ∈ givenItems ownPrefix, Uses userContexts t s →
      Expands userContexts (givenItems ownPrefix) s.id s.id := by
    intro t ht s hs huses
    rcases mem_pair.mp hs with rfl | rfl
    · exact .absolute (by decide)
    · rcases mem_pair.mp ht with rfl | rfl <;> exact absurd huses.2.2 (by decide)
  refine ⟨⟨_, rfl, (hloaded slotOrder _ rfl).mpr ?_⟩, hfree.mpr hstable⟩
  exact prefixesFirst_of_stable hstable fun s hs => (slotOrder.perm _).mem_iff.mp hs

def chainedPrefixes : List (String × String) :=
  [("a", "b:x"), ("b", "c:y"), ("c", "http://c.org/")]

theorem chained_prefix_unexpanded : ¬ ∀ (c : Contexts) (keyValueTree : Members),
    (keyValueTree.map Prod.fst).Nodup → OrderFree c keyValueTree := by
  intro h
  have hfree := h userContexts (keyValues chainedPrefixes) (by decide)
  have hfill : orionldContextHashTablesFill userContexts slotOrder (keyValues chainedPrefixes) =
      .ok ⟨givenItems [("a", "c:yx"), ("b", "http://c.org/y"), ("c", "http://c.org/")],
        givenItems [("a", "c:yx"), ("b", "http://c.org/y"), ("c", "http://c.org/")]⟩ := by
    rfl
  have hloaded := hfree.loaded _ slotOrder (givenItems chainedPrefixes) _ (List.Perm.refl _) rfl
    hfill
  obtain ⟨found, hfound, hexpands⟩ := hloaded.expanded ⟨"a".toList, "b:x".toList, none⟩
    mem_cons_self
  cases hfound
  have hc : Expands userContexts (givenItems chainedPrefixes) "http://c.org/".toList
      "http://c.org/".toList := .absolute (by decide)
  have hb : Expands userContexts (givenItems chainedPrefixes) "c:y".toList
      "http://c.org/y".toList :=
    .term (s := ⟨"c".toList, "http://c.org/".toList, none⟩) (by decide) rfl
      (by simp [givenItems, chainedPrefixes]) rfl hc
  have ha : Expands userContexts (givenItems chainedPrefixes) "b:x".toList
      "http://c.org/yx".toList :=
    .term (s := ⟨"b".toList, "c:y".toList, none⟩) (by decide) rfl
      (by simp [givenItems, chainedPrefixes]) rfl hb
  exact absurd (expands_unique (by decide) hexpands ha) (by decide)

end OrionldContextHashTablesFill
