import OrionLd.CompoundTree
import OrionLd.CompoundValueDiffers
import OrionLd.LinkedChildren

/-! JSON trees that are made compound values and then JSON trees again. The new trees are nodes
on a heap, and a node gets the next free address. -/
namespace CompoundValueConverted

open KjTree CompoundTree LinkedChildren List Function CompoundValueDiffers
open NearestFloat (binary64 nearest)
open OrionldContextItem

/-- The default constructor. Its pointers are NULL, and nothing looks at them here. -/
def unset : Fields where
  name := "Unset".toList
  valueType := .notGiven
  stringValue := []
  numberValue := 0
  boolValue := false
  ownContainer := false
  rootUp := 0
  siblingNo := 0
  renderName := false
  path := "Unset".toList
  level := 0

mutual
/-- With the values that compoundValueNodeValueSet sets. A node has a name if its parent is an
object. -/
def kjTreeToCompoundValue (name : Option Text) (node : KjNode) : Node :=
  let fields : Fields := { unset with name := name.getD unset.name }
  match node with
  | .string s => ⟨{ fields with valueType := .string, stringValue := s }, []⟩
  | .bool b => ⟨{ fields with valueType := .boolean, boolValue := b }, []⟩
  | .float f => ⟨{ fields with valueType := .number, numberValue := f }, []⟩
  | .int i => ⟨{ fields with valueType := .number, numberValue := nearest binary64 i }, []⟩
  | .null => ⟨{ fields with valueType := .null }, []⟩
  | .object members => ⟨{ fields with valueType := .object }, membersToCompound members⟩
  | .array items => ⟨{ fields with valueType := .vector }, itemsToCompound items⟩
def itemsToCompound : List KjNode → List Node
  | [] => []
  | item :: items => kjTreeToCompoundValue none item :: itemsToCompound items
def membersToCompound : Members → List Node
  | [] => []
  | (name, node) :: members => kjTreeToCompoundValue (some name) node :: membersToCompound members
end

mutual
/-- What the fields say by their type, without those that it does not use. -/
def plainNode : Node → CompoundValueNode
  | ⟨fields, childV⟩ => match fields.valueType with
    | .string => .string fields.stringValue
    | .number => .number fields.numberValue
    | .boolean => .boolean fields.boolValue
    | .object => .object (plainMembers childV)
    | .vector => .vector (plainItems childV)
    | _ => .null
def plainItems : List Node → List CompoundValueNode
  | [] => []
  | c :: rest => plainNode c :: plainItems rest
def plainMembers : List Node → List (Text × CompoundValueNode)
  | [] => []
  | c :: rest => (c.name, plainNode c) :: plainMembers rest
end

theorem converted_name (name : Option Text) (node : KjNode) :
    (kjTreeToCompoundValue name node).name = name.getD unset.name := by
  cases node <;> rfl

mutual
/-- The two conversions agree: this one has the fields that the other one leaves out. -/
theorem plain_converted (name : Option Text) :
    ∀ node, plainNode (kjTreeToCompoundValue name node) = KjTree.kjTreeToCompoundValue node
  | .string _ | .bool _ | .float _ | .int _ | .null => rfl
  | .object members => congrArg _ (plain_members members)
  | .array items => congrArg _ (plain_items items)
theorem plain_items :
    ∀ items, plainItems (itemsToCompound items) = kjTreeToCompoundValues items
  | [] => rfl
  | item :: items => congrArg₂ _ (plain_converted none item) (plain_items items)
theorem plain_members :
    ∀ members, plainMembers (membersToCompound members) = kjTreeToCompoundMembers members
  | [] => rfl
  | (name, node) :: members => congrArg₂ (fun c rest => c :: rest)
      (Prod.ext (converted_name (some name) node) (plain_converted (some name) node))
      (plain_members members)
end

inductive Value where
  | string (s : Text)
  | float (x : ℚ)
  | boolean (b : Bool)
  | null
  | object
  | array

structure Heap where
  fresh : ℕ
  name : ℕ → Option Text
  value : ℕ → Value
  next : ℕ → Option ℕ
  container : ℕ → Container ℕ

def Heap.create (h : Heap) (name : Option Text) (value : Value) : Heap where
  fresh := h.fresh + 1
  name := Function.update h.name h.fresh name
  value := Function.update h.value h.fresh value
  next := Function.update h.next h.fresh none
  container := Function.update h.container h.fresh ⟨none, none⟩

def Heap.links (h : Heap) (containerP : ℕ) : Links ℕ := ⟨h.next, h.container containerP⟩

def Heap.kjChildAdd (h : Heap) (containerP child : ℕ) : Heap :=
  let s := (h.links containerP).add child
  { h with next := s.next, container := Function.update h.container containerP s.container }

variable (contexts : Contexts) (valueMayBeCompacted : Bool)

def nodeValue (fields : Fields) : Value :=
  match fields.valueType with
  | .string => .string (if valueMayBeCompacted then
      orionldContextItemAliasLookup contexts fields.stringValue else fields.stringValue)
  | .number => .float fields.numberValue
  | .boolean => .boolean fields.boolValue
  | .null => .null
  | .object => .object
  | .vector => .array
  | .notGiven => .string "UNKNOWN TYPE".toList

def isContainer (fields : Fields) : Bool :=
  fields.valueType = .object || fields.valueType = .vector

mutual
/-- The node that it returns is the first one that it creates. -/
def kjTreeFromCompoundValue2 (parentP : ℕ) (h : Heap) : Node → Heap
  | ⟨fields, childV⟩ =>
    let nodeP := h.fresh
    let created := h.create (some fields.name) (nodeValue contexts valueMayBeCompacted fields)
    (if isContainer fields then addChildren nodeP created childV else created).kjChildAdd
      parentP nodeP
def addChildren (nodeP : ℕ) (h : Heap) : List Node → Heap
  | [] => h
  | c :: rest =>
    addChildren nodeP ((kjTreeFromCompoundValue2 nodeP h c).kjChildAdd nodeP h.fresh) rest
end

/-- A value that is no compound needs a container. -/
def kjTreeFromCompoundValue (compoundP : Node) (containerP : Option ℕ) (h : Heap) :
    Option (Heap × ℕ) :=
  match containerP with
  | some topNodeP =>
    some (addChildren contexts valueMayBeCompacted topNodeP h compoundP.childV, topNodeP)
  | none =>
    if isContainer compoundP.fields then
      let created := h.create none
        (if compoundP.fields.valueType = .object then .object else .array)
      some (addChildren contexts valueMayBeCompacted h.fresh created compoundP.childV, h.fresh)
    else none

/-- The tree at an address, with the addresses of all nodes that the pointers lead to. -/
def Heap.read (h : Heap) : ℕ → ℕ → Option (KjNode × List ℕ)
  | 0, _ => none
  | fuel + 1, p =>
    match h.value p with
    | .string s => some (.string s, [p])
    | .float x => some (.float x, [p])
    | .boolean b => some (.bool b, [p])
    | .null => some (.null, [p])
    | .array =>
      (walk h.next fuel (h.container p).first).bind fun children =>
        (children.mapM (h.read fuel)).map fun parts =>
          (.array (parts.map Prod.fst), p :: parts.flatMap Prod.snd)
    | .object =>
      (walk h.next fuel (h.container p).first).bind fun children =>
        (children.mapM fun c => (h.name c).bind fun name =>
          (h.read fuel c).map fun r => ((name, r.1), r.2)).map fun parts =>
          (.object (parts.map Prod.fst), p :: parts.flatMap Prod.snd)

mutual
/-- Every integer is a double. -/
def Exact : KjNode → Prop
  | .int i => nearest binary64 i = i
  | .array items => ExactItems items
  | .object members => ExactMembers members
  | _ => True
def ExactItems : List KjNode → Prop
  | [] => True
  | item :: items => Exact item ∧ ExactItems items
def ExactMembers : Members → Prop
  | [] => True
  | (_, node) :: members => Exact node ∧ ExactMembers members
end

/-- The objects and arrays of numbers that are doubles. -/
structure JsonCompound where
  tree : KjNode
  compound : (∃ members, tree = .object members) ∨ ∃ items, tree = .array items
  exact : Exact tree

/-- From any heap on, the tree comes back with its integers as floats, and no node is met twice. -/
def SurvivesConversion (contexts : Contexts) (t : KjNode) : Prop :=
  ∀ h : Heap, ∃ h' top nodes,
    kjTreeFromCompoundValue contexts false (kjTreeToCompoundValue none t) none h = some (h', top) ∧
      (∃ fuel, h'.read fuel top = some (asDouble t, nodes)) ∧ nodes.Nodup

section

variable {s s' : Links ℕ} {l : List ℕ} {node a p : ℕ} {h : Heap}

theorem add_next (s : Links ℕ) (node a : ℕ) : (s.add node).next a =
    if a = node then none else if s.container.last = some a then some node else s.next a := by
  unfold Links.add
  cases s.container.last with
  | none => simp [update_apply]
  | some last =>
    by_cases ha : a = last
    · simp [update_apply, ha]
    · simp [update_apply, ha, Ne.symm ha]

theorem add_last (s : Links ℕ) (node : ℕ) : (s.add node).container.last = some node := by
  unfold Links.add
  cases s.container.last <;> rfl

theorem add_again (hlast : s.container.last = some node) (hnext : s.next node = none) :
    s.add node = s := by
  have hsame : (s.add node).next = s.next := by
    funext a
    rw [add_next]
    split
    · rename_i ha
      rw [ha, hnext]
    rename_i ha
    refine if_neg ?_
    intro heq
    exact ha (Option.some.inj (heq.symm.trans hlast))
  have hcontainer : (s.add node).container = s.container := by
    unfold Links.add
    rw [hlast]
    exact congrArg (Container.mk _) hlast.symm
  calc s.add node = ⟨(s.add node).next, (s.add node).container⟩ := rfl
    _ = s := by rw [hsame, hcontainer]

theorem kjChildAdd_again (hlast : (h.container p).last = some a) (hnext : h.next a = none) :
    h.kjChildAdd p a = h := by
  unfold Heap.kjChildAdd
  rw [add_again (s := h.links p) hlast hnext]
  unfold Heap.links
  dsimp only
  rw [update_eq_self]

theorem wellFormed_congr (h : s.WellFormed l) (hcontainer : s'.container = s.container)
    (hnext : ∀ a ∈ l, s'.next a = s.next a) : s'.WellFormed l where
  lists := by
    unfold Links.Lists
    rw [hcontainer]
    exact Segment.congr h.lists hnext
  last := by rw [hcontainer, h.last]
  nodup := h.nodup

end

section

variable {contexts : Contexts} {h h' : Heap} {lo mid hi : ℕ} {l : List Node} {c : Node}
variable {children : List ℕ}

mutual
def Shows (contexts : Contexts) (h : Heap) : Node → ℕ → ℕ → Prop
  | ⟨fields, childV⟩, lo, hi =>
    h.value lo = nodeValue contexts false fields ∧
      if isContainer fields then
        ∃ children, (h.links lo).WellFormed children ∧
          ShowsAll contexts h childV children (lo + 1) hi
      else hi = lo + 1
def ShowsAll (contexts : Contexts) (h : Heap) : List Node → List ℕ → ℕ → ℕ → Prop
  | [], children, lo, hi => children = [] ∧ lo = hi
  | c :: rest, children, lo, hi => ∃ later mid, children = lo :: later ∧
      h.name lo = some c.name ∧ Shows contexts h c lo mid ∧ ShowsAll contexts h rest later mid hi
end

mutual
theorem lt_of_shows : ∀ n : Node, ∀ {lo hi : ℕ}, Shows contexts h n lo hi → lo < hi
  | ⟨fields, childV⟩, lo, hi, hshows => by
    rw [Shows] at hshows
    obtain ⟨-, hrest⟩ := hshows
    split at hrest
    · obtain ⟨children, -, hall⟩ := hrest
      have hbounds := (bounds_of_showsAll childV hall).1
      omega
    · omega
theorem bounds_of_showsAll : ∀ l : List Node, ∀ {children : List ℕ} {lo hi : ℕ},
    ShowsAll contexts h l children lo hi →
      lo + children.length ≤ hi ∧ ∀ a ∈ children, lo ≤ a ∧ a < hi
  | [], children, lo, hi, hall => by
    rw [ShowsAll] at hall
    obtain ⟨rfl, rfl⟩ := hall
    exact ⟨le_refl lo, forall_mem_nil _⟩
  | c :: rest, children, lo, hi, hall => by
    rw [ShowsAll] at hall
    obtain ⟨later, mid, rfl, -, hc, hrest⟩ := hall
    have hlt := lt_of_shows c hc
    obtain ⟨hle, hlater⟩ := bounds_of_showsAll rest hrest
    rw [length_cons]
    refine ⟨by omega, forall_mem_cons.mpr ⟨by omega, fun a ha => ?_⟩⟩
    have hbounds := hlater a ha
    omega
end

def Same (h h' : Heap) (lo hi : ℕ) : Prop := ∀ a, lo ≤ a → a < hi →
  h'.name a = h.name a ∧ h'.value a = h.value a ∧ h'.container a = h.container a

mutual
theorem shows_frame : ∀ n : Node, ∀ {lo hi : ℕ}, Shows contexts h n lo hi → Same h h' lo hi →
    (∀ a, lo < a → a < hi → h'.next a = h.next a) → Shows contexts h' n lo hi
  | ⟨fields, childV⟩, lo, hi, hshows, hsame, hnext => by
    have hlt := lt_of_shows _ hshows
    rw [Shows] at hshows ⊢
    obtain ⟨hvalue, hrest⟩ := hshows
    obtain ⟨-, hvalue', hcontainer⟩ := hsame lo (le_refl lo) hlt
    refine ⟨hvalue'.trans hvalue, ?_⟩
    split at hrest
    · rename_i hif
      rw [if_pos hif]
      obtain ⟨children, hwf, hall⟩ := hrest
      have hbounds := (bounds_of_showsAll childV hall).2
      refine ⟨children, wellFormed_congr hwf hcontainer fun a ha => ?_, ?_⟩
      · obtain ⟨hlow, hhigh⟩ := hbounds a ha
        exact hnext a hlow hhigh
      · exact showsAll_frame childV hall (fun a hlow => hsame a (by omega))
          fun a hlow hhigh _ => hnext a hlow hhigh
    · rename_i hif
      rw [if_neg hif]
      exact hrest
theorem showsAll_frame : ∀ l : List Node, ∀ {children : List ℕ} {lo hi : ℕ},
    ShowsAll contexts h l children lo hi → Same h h' lo hi →
    (∀ a, lo ≤ a → a < hi → a ∉ children → h'.next a = h.next a) →
    ShowsAll contexts h' l children lo hi
  | [], children, lo, hi, hall, _, _ => by
    rw [ShowsAll] at hall ⊢
    exact hall
  | c :: rest, children, lo, hi, hall, hsame, hnext => by
    rw [ShowsAll] at hall ⊢
    obtain ⟨later, mid, rfl, hname, hc, hrest⟩ := hall
    have hlt := lt_of_shows c hc
    obtain ⟨hle, hlater⟩ := bounds_of_showsAll rest hrest
    refine ⟨later, mid, rfl, ?_, ?_, ?_⟩
    · rw [(hsame lo (le_refl lo) (by omega)).1, hname]
    · refine shows_frame c hc (fun a hlow hhigh => hsame a hlow (by omega)) ?_
      intro a hlow hhigh
      refine hnext a (by omega) (by omega) ?_
      intro hmem
      rcases mem_cons.mp hmem with rfl | hmem
      · omega
      · have hbounds := hlater a hmem
        omega
    · refine showsAll_frame rest hrest (fun a hlow => hsame a (by omega)) ?_
      intro a hlow hhigh hnot
      refine hnext a (by omega) hhigh (not_mem_cons_of_ne_of_not_mem (by omega) hnot)
end

theorem showsAll_concat (hall : ShowsAll contexts h l children lo mid)
    (hname : h.name mid = some c.name) (hc : Shows contexts h c mid hi) :
    ShowsAll contexts h (l ++ [c]) (children ++ [mid]) lo hi := by
  induction l generalizing children lo with
  | nil =>
    obtain ⟨rfl, rfl⟩ := hall
    exact ⟨[], hi, rfl, hname, hc, rfl, rfl⟩
  | cons d l ih =>
    obtain ⟨later, mid', rfl, hname', hd, hrest⟩ := hall
    exact ⟨later ++ [mid], mid', rfl, hname', hd, ih hrest⟩

end

section

variable {contexts : Contexts} {h h' : Heap} {parentP nodeP : ℕ} {n : Node}
variable {s s' : Links ℕ} {l done : List Node} {children : List ℕ} {node a : ℕ}

theorem add_next_other (hwf : s.WellFormed children) (hne : a ≠ node) (hnot : a ∉ children) :
    (s.add node).next a = s.next a := by
  rw [add_next, if_neg hne]
  refine if_neg ?_
  rw [hwf.last]
  intro hlast
  exact hnot (mem_of_getLast? hlast)

theorem add_container (h : s'.container = s.container) (node : ℕ) :
    (s'.add node).container = (s.add node).container := by
  unfold Links.add
  rw [h]

/-- A node and what is below it, on the heap above what was there before. -/
structure Placed (contexts : Contexts) (h : Heap) (n : Node) (h' : Heap) : Prop where
  shown : Shows contexts h' n h.fresh h'.fresh
  name : h'.name h.fresh = some n.name
  old : ∀ a < h.fresh, h'.name a = h.name a ∧ h'.value a = h.value a ∧
    h'.container a = h.container a ∧ h'.next a = h.next a

structure Added (contexts : Contexts) (h : Heap) (parentP : ℕ) (n : Node) (h' : Heap) : Prop where
  shown : Shows contexts h' n h.fresh h'.fresh
  name : h'.name h.fresh = some n.name
  old : ∀ a < h.fresh, h'.name a = h.name a ∧ h'.value a = h.value a ∧
    (a ≠ parentP → h'.container a = h.container a)
  container : h'.container parentP = ((h.links parentP).add h.fresh).container
  next : ∀ a ≤ h.fresh, h'.next a = ((h.links parentP).add h.fresh).next a

structure AllAdded (contexts : Contexts) (h : Heap) (nodeP : ℕ) (l : List Node) (h' : Heap) :
    Prop where
  shown : ∃ children, (h'.links nodeP).WellFormed children ∧
    ShowsAll contexts h' l children (nodeP + 1) h'.fresh
  root : h'.name nodeP = h.name nodeP ∧ h'.value nodeP = h.value nodeP ∧
    h'.next nodeP = h.next nodeP
  old : ∀ a < nodeP, h'.name a = h.name a ∧ h'.value a = h.value a ∧
    h'.container a = h.container a ∧ h'.next a = h.next a

theorem added_of_placed (hplaced : Placed contexts h n h') (hparent : parentP < h.fresh)
    (hlast : ∀ a, (h.container parentP).last = some a → a < h.fresh) :
    Added contexts h parentP n (h'.kjChildAdd parentP h.fresh) := by
  have hcontainer := (hplaced.old parentP hparent).2.2.1
  refine ⟨shows_frame n hplaced.shown ?_ ?_, hplaced.name, ?_, ?_, ?_⟩
  · intro a hlow _
    exact ⟨rfl, rfl, update_of_ne (by omega) _ _⟩
  · intro a hlow _
    change ((h'.links parentP).add h.fresh).next a = _
    rw [add_next, if_neg (by omega)]
    refine if_neg ?_
    intro heq
    have hlt := hlast a ((congrArg Container.last hcontainer).symm.trans heq)
    omega
  · intro a ha
    obtain ⟨hname, hvalue, hcontainer', -⟩ := hplaced.old a ha
    exact ⟨hname, hvalue, fun hne => (update_of_ne hne _ _).trans hcontainer'⟩
  · refine (update_self _ _ _).trans ?_
    exact add_container hcontainer h.fresh
  · intro a ha
    change ((h'.links parentP).add h.fresh).next a = _
    rw [add_next, add_next]
    by_cases hfresh : a = h.fresh
    · rw [if_pos hfresh, if_pos hfresh]
    rw [if_neg hfresh, if_neg hfresh]
    unfold Heap.links
    dsimp only
    rw [hcontainer, (hplaced.old a (by omega)).2.2.2]

theorem create_old (name : Option Text) (value : Value) (ha : a < h.fresh) :
    (h.create name value).name a = h.name a ∧ (h.create name value).value a = h.value a ∧
      (h.create name value).container a = h.container a ∧
        (h.create name value).next a = h.next a := by
  have hne : a ≠ h.fresh := Nat.ne_of_lt ha
  exact ⟨update_of_ne hne _ _, update_of_ne hne _ _, update_of_ne hne _ _, update_of_ne hne _ _⟩

theorem create_wellFormed (name : Option Text) (value : Value) :
    ((h.create name value).links h.fresh).WellFormed [] := by
  have hnew : (h.create name value).container h.fresh = ⟨none, none⟩ := update_self _ _ _
  exact ⟨congrArg Container.first hnew, congrArg Container.last hnew, nodup_nil⟩

theorem placed_create (fields : Fields) {created : Heap}
    (hcreated : created = h.create (some fields.name) (nodeValue contexts false fields))
    (hall : AllAdded contexts created h.fresh l (addChildren contexts false h.fresh created l)) :
    Placed contexts h ⟨fields, l⟩ (if isContainer fields then
      addChildren contexts false h.fresh created l else created) := by
  subst hcreated
  split
  · rename_i hif
    obtain ⟨hshown, hroot, hold⟩ := hall
    refine ⟨?_, hroot.1.trans (update_self _ _ _), ?_⟩
    · rw [Shows, if_pos hif]
      exact ⟨hroot.2.1.trans (update_self _ _ _), hshown⟩
    · intro a ha
      obtain ⟨hname, hvalue, hcontainer, hnext⟩ := hold a ha
      obtain ⟨hname', hvalue', hcontainer', hnext'⟩ := create_old _ _ ha
      exact ⟨hname.trans hname', hvalue.trans hvalue', hcontainer.trans hcontainer',
        hnext.trans hnext'⟩
  · rename_i hif
    refine ⟨?_, update_self _ _ _, fun a ha => create_old _ _ ha⟩
    rw [Shows, if_neg hif]
    exact ⟨update_self _ _ _, rfl⟩

/-- One round of the loop. The second addition of the child changes nothing. -/
theorem added_again (hadded : Added contexts h nodeP n h') : h'.kjChildAdd nodeP h.fresh = h' := by
  refine kjChildAdd_again ?_ ?_
  · rw [hadded.container, add_last]
  · rw [hadded.next h.fresh (le_refl _), add_next, if_pos rfl]

theorem wellFormed_added (hadded : Added contexts h nodeP n h')
    (hwf : (h.links nodeP).WellFormed children) (hbounds : ∀ a ∈ children, a < h.fresh) :
    (h'.links nodeP).WellFormed (children ++ [h.fresh]) := by
  refine wellFormed_congr (hwf.add fun hmem => lt_irrefl _ (hbounds _ hmem)) hadded.container ?_
  intro a ha
  refine hadded.next a ?_
  rcases mem_append.mp ha with ha | ha
  · exact (hbounds a ha).le
  · exact (mem_singleton.mp ha).le

theorem showsAll_added (hadded : Added contexts h nodeP n h')
    (hwf : (h.links nodeP).WellFormed children)
    (hall : ShowsAll contexts h done children (nodeP + 1) h.fresh) :
    ShowsAll contexts h' (done ++ [n]) (children ++ [h.fresh]) (nodeP + 1) h'.fresh := by
  refine showsAll_concat (showsAll_frame done hall ?_ ?_) hadded.name hadded.shown
  · intro a hlow hhigh
    obtain ⟨hname, hvalue, hcontainer⟩ := hadded.old a hhigh
    exact ⟨hname, hvalue, hcontainer (by omega)⟩
  · intro a _ hhigh hnot
    rw [hadded.next a hhigh.le]
    exact add_next_other hwf (Nat.ne_of_lt hhigh) hnot

mutual
theorem from2_spec : ∀ n : Node, ∀ {h : Heap} {parentP : ℕ}, parentP < h.fresh →
    (∀ a, (h.container parentP).last = some a → a < h.fresh) →
    Added contexts h parentP n (kjTreeFromCompoundValue2 contexts false parentP h n)
  | ⟨fields, childV⟩, h, parentP, hparent, hlast => by
    rw [kjTreeFromCompoundValue2]
    refine added_of_placed (placed_create fields rfl ?_) hparent hlast
    exact @addChildren_spec childV _ _ _ [] (Nat.lt_succ_self _) (create_wellFormed _ _)
      ⟨rfl, rfl⟩
theorem addChildren_spec : ∀ l : List Node, ∀ {h : Heap} {nodeP : ℕ} {children : List ℕ}
    {done : List Node}, nodeP < h.fresh → (h.links nodeP).WellFormed children →
    ShowsAll contexts h done children (nodeP + 1) h.fresh →
    AllAdded contexts h nodeP (done ++ l) (addChildren contexts false nodeP h l)
  | [], h, nodeP, children, done, _, hwf, hall => by
    rw [addChildren, List.append_nil]
    exact ⟨⟨children, hwf, hall⟩, ⟨rfl, rfl, rfl⟩, fun _ _ => ⟨rfl, rfl, rfl, rfl⟩⟩
  | c :: rest, h, nodeP, children, done, hnode, hwf, hall => by
    have hbounds := (bounds_of_showsAll done hall).2
    have hlast : ∀ a, (h.container nodeP).last = some a → a < h.fresh := by
      intro a ha
      have hmem := mem_of_getLast? (hwf.last.symm.trans ha)
      exact (hbounds a hmem).2
    have hadded := from2_spec c hnode hlast
    have hgrown := lt_of_shows c hadded.shown
    have hrest := addChildren_spec rest (hnode.trans hgrown)
      (wellFormed_added hadded hwf fun a ha => (hbounds a ha).2) (showsAll_added hadded hwf hall)
    have hbefore : ∀ a ≤ nodeP, (kjTreeFromCompoundValue2 contexts false nodeP h c).next a =
        h.next a := by
      intro a ha
      rw [hadded.next a (by omega)]
      refine add_next_other hwf (by omega) ?_
      intro hmem
      have hlow := (hbounds a hmem).1
      omega
    rw [addChildren, added_again hadded]
    rw [append_assoc, singleton_append] at hrest
    refine ⟨hrest.shown, ?_, ?_⟩
    · obtain ⟨hname, hvalue, hnext⟩ := hrest.root
      obtain ⟨hname', hvalue', -⟩ := hadded.old nodeP hnode
      exact ⟨hname.trans hname', hvalue.trans hvalue', hnext.trans (hbefore nodeP (le_refl _))⟩
    · intro a ha
      obtain ⟨hname, hvalue, hcontainer, hnext⟩ := hrest.old a ha
      obtain ⟨hname', hvalue', hcontainer'⟩ := hadded.old a (by omega)
      exact ⟨hname.trans hname', hvalue.trans hvalue',
        hcontainer.trans (hcontainer' (Nat.ne_of_lt ha)), hnext.trans (hbefore a ha.le)⟩
end

end

section

variable {contexts : Contexts} {h : Heap} {fuel : ℕ}

mutual
def treeOf : Node → KjNode
  | ⟨fields, childV⟩ =>
    match fields.valueType with
    | .string => .string fields.stringValue
    | .number => .float fields.numberValue
    | .boolean => .bool fields.boolValue
    | .null => .null
    | .object => .object (membersOf childV)
    | .vector => .array (itemsOf childV)
    | .notGiven => .string "UNKNOWN TYPE".toList
def itemsOf : List Node → List KjNode
  | [] => []
  | c :: rest => treeOf c :: itemsOf rest
def membersOf : List Node → Members
  | [] => []
  | c :: rest => (c.name, treeOf c) :: membersOf rest
end

theorem itemsOf_eq (l : List Node) : itemsOf l = l.map treeOf := by
  induction l with
  | nil => rfl
  | cons c l ih => rw [itemsOf, ih, map_cons]

theorem membersOf_eq (l : List Node) : membersOf l = l.map fun c => (c.name, treeOf c) := by
  induction l with
  | nil => rfl
  | cons c l ih => rw [membersOf, ih, map_cons]

mutual
theorem read_shows : ∀ n : Node, ∀ {lo hi fuel : ℕ}, Shows contexts h n lo hi → hi ≤ lo + fuel →
    h.read fuel lo = some (treeOf n, List.range' lo (hi - lo))
  | ⟨fields, childV⟩, lo, hi, fuel, hshows, hfuel => by
    have hlt := lt_of_shows _ hshows
    obtain ⟨fuel, rfl⟩ : ∃ m, fuel = m + 1 := ⟨fuel - 1, by omega⟩
    have hrange : List.range' lo (hi - lo) = lo :: List.range' (lo + 1) (hi - (lo + 1)) := by
      rw [← List.range'_succ]
      congr 1
      omega
    rw [Shows] at hshows
    obtain ⟨hvalue, hrest⟩ := hshows
    rw [Heap.read, hvalue, treeOf, hrange]
    unfold isContainer at hrest
    unfold nodeValue
    cases htype : fields.valueType with
    | vector =>
      rw [htype] at hrest
      obtain ⟨children, hwf, hall⟩ := hrest
      have hlength := (bounds_of_showsAll childV hall).1
      obtain ⟨parts, hparts, htrees, hnodes⟩ := mapM_shows childV hall (h.read fuel) treeOf
        (fun c a nodes _ hread => hread) (by omega : hi ≤ lo + 1 + fuel)
      have hwalk : walk h.next fuel (h.container lo).first = some children :=
        walk_of_segment hwf.lists (by omega)
      simp only [hwalk, hparts, htrees, hnodes, Option.bind_some, Option.map_some, itemsOf_eq]
    | object =>
      rw [htype] at hrest
      obtain ⟨children, hwf, hall⟩ := hrest
      have hlength := (bounds_of_showsAll childV hall).1
      obtain ⟨parts, hparts, htrees, hnodes⟩ := mapM_shows childV hall
        (fun c => (h.name c).bind fun name => (h.read fuel c).map fun r => ((name, r.1), r.2))
        (fun c => (c.name, treeOf c)) (fun c a nodes hname hread => by rw [hname, hread]; rfl)
        (by omega : hi ≤ lo + 1 + fuel)
      have hwalk : walk h.next fuel (h.container lo).first = some children :=
        walk_of_segment hwf.lists (by omega)
      simp only [hwalk, hparts, htrees, hnodes, Option.bind_some, Option.map_some, membersOf_eq]
    | _ =>
      rw [htype] at hrest
      obtain rfl : hi = lo + 1 := hrest
      rw [Nat.sub_self]
      rfl
theorem mapM_shows {β : Type} {fuel : ℕ} : ∀ l : List Node, ∀ {children : List ℕ} {lo hi : ℕ},
    ShowsAll contexts h l children lo hi → ∀ (g : ℕ → Option (β × List ℕ)) (tree : Node → β),
    (∀ c a nodes, h.name a = some c.name → h.read fuel a = some (treeOf c, nodes) →
      g a = some (tree c, nodes)) → hi ≤ lo + fuel → ∃ parts, children.mapM g = some parts ∧
      parts.map Prod.fst = l.map tree ∧ parts.flatMap Prod.snd = List.range' lo (hi - lo)
  | [], children, lo, hi, hall, g, tree, _, _ => by
    rw [ShowsAll] at hall
    obtain ⟨rfl, rfl⟩ := hall
    exact ⟨[], rfl, rfl, by rw [Nat.sub_self]; rfl⟩
  | c :: rest, children, lo, hi, hall, g, tree, hg, hfuel => by
    rw [ShowsAll] at hall
    obtain ⟨later, mid, rfl, hname, hc, hrest⟩ := hall
    have hlt := lt_of_shows c hc
    have hle := (bounds_of_showsAll rest hrest).1
    have hhere := hg c lo _ hname (@read_shows c _ _ fuel hc (by omega))
    obtain ⟨parts, hparts, htrees, hnodes⟩ := mapM_shows rest hrest g tree hg (by omega)
    refine ⟨(tree c, List.range' lo (mid - lo)) :: parts, ?_, ?_, ?_⟩
    · rw [mapM_cons, hhere, hparts]
      rfl
    · rw [map_cons, map_cons, htrees]
    · have happend := List.range'_append_1 (s := lo) (m := mid - lo) (n := hi - mid)
      rw [show lo + (mid - lo) = mid by omega, show mid - lo + (hi - mid) = hi - lo by omega]
        at happend
      rw [flatMap_cons, hnodes, happend]
end

theorem name_toCompound (name : Option Text) (t : KjNode) :
    (kjTreeToCompoundValue name t).name = name.getD unset.name := by
  cases t <;> rfl

mutual
theorem treeOf_toCompound : ∀ (name : Option Text) (t : KjNode), Exact t →
    treeOf (kjTreeToCompoundValue name t) = asDouble t
  | _, .null, _ => rfl
  | _, .bool _, _ => rfl
  | _, .int _, hexact => congrArg KjNode.float hexact
  | _, .float _, _ => rfl
  | _, .string _, _ => rfl
  | _, .array items, hexact => congrArg KjNode.array (itemsOf_toCompound items hexact)
  | _, .object members, hexact => congrArg KjNode.object (membersOf_toCompound members hexact)
theorem itemsOf_toCompound : ∀ items : List KjNode, ExactItems items →
    itemsOf (itemsToCompound items) = asDoubleItems items
  | [], _ => rfl
  | item :: items, ⟨hitem, hitems⟩ => by
    rw [itemsToCompound, itemsOf, asDoubleItems, treeOf_toCompound none item hitem,
      itemsOf_toCompound items hitems]
theorem membersOf_toCompound : ∀ members : Members, ExactMembers members →
    membersOf (membersToCompound members) = asDoubleMembers members
  | [], _ => rfl
  | (name, node) :: members, ⟨hnode, hmembers⟩ => by
    rw [membersToCompound, membersOf, asDoubleMembers, treeOf_toCompound (some name) node hnode,
      membersOf_toCompound members hmembers, name_toCompound]
    rfl
end

theorem from_shows (n : Node) (hcontainer : isContainer n.fields = true) (h : Heap) : ∃ h',
    kjTreeFromCompoundValue contexts false n none h = some (h', h.fresh) ∧
      Shows contexts h' n h.fresh h'.fresh := by
  obtain ⟨fields, childV⟩ := n
  replace hcontainer : isContainer fields = true := hcontainer
  refine ⟨_, if_pos hcontainer, ?_⟩
  obtain ⟨hshown, ⟨-, hvalue, -⟩, -⟩ := @addChildren_spec contexts childV _ _ _ []
    (Nat.lt_succ_self _) (@create_wellFormed h none
      (if fields.valueType = .object then .object else .array)) ⟨rfl, rfl⟩
  rw [Shows, if_pos hcontainer]
  refine ⟨hvalue.trans ((update_self _ _ _).trans ?_), hshown⟩
  unfold nodeValue
  unfold isContainer at hcontainer
  cases htype : fields.valueType <;> simp_all

/-- A compound value comes back as it was, but for its integers. -/
theorem conversion_survives (contexts : Contexts) (t : JsonCompound) :
    SurvivesConversion contexts t.tree := by
  intro h
  have hcontainer : isContainer (kjTreeToCompoundValue none t.tree).fields = true := by
    rcases t.compound with ⟨members, htree⟩ | ⟨items, htree⟩
    · rw [htree]
      rfl
    · rw [htree]
      rfl
  obtain ⟨h', hfrom, hshows⟩ := @from_shows contexts _ hcontainer h
  have hread := @read_shows contexts h' _ _ _ h'.fresh hshows (Nat.le_add_left _ _)
  rw [treeOf_toCompound none t.tree t.exact] at hread
  exact ⟨h', h.fresh, _, hfrom, ⟨h'.fresh, hread⟩, nodup_range'⟩

end

/-- An object with an array, an object in the array, and a member of each kind. -/
def nested : JsonCompound where
  tree := .object [
    ("a".toList, .array [.int 1, .object [("b".toList, .null), ("c".toList, .bool true)],
      .string "x".toList]),
    ("d".toList, .float 2), ("e".toList, .array [])]
  compound := .inl ⟨_, rfl⟩
  exact := by
    have hone : nearest binary64 1 = 1 :=
      NearestFloat.nearest_intCast (by decide) (n := 1) (by decide)
    simp [Exact, ExactItems, ExactMembers, hone]

theorem nested_survives : SurvivesConversion flatEnv.toContexts nested.tree :=
  conversion_survives flatEnv.toContexts nested

end CompoundValueConverted
