import OrionLd.MongoLocation
import OrionLd.StringFilter
import OrionLd.Strtod

/-! Compound values as trees of nodes, with the fields that CompoundValueNode.cpp keeps in them. A
node is added with the root of its container as its own root, but a tree that is added as a whole
keeps its old root in the nodes below. -/
namespace CompoundTree

open KjTree List
open MongoLocation (ValueType)
open StringFilter (forbiddenChars)
open Strtod (cString)

/-- rootP is the number of levels up to its node. container is known from the tree, but for a node
that is its own. -/
structure Fields where
  name : Text
  valueType : ValueType
  stringValue : Text
  numberValue : ℚ
  boolValue : Bool
  ownContainer : Bool
  rootUp : ℕ
  siblingNo : ℕ
  renderName : Bool
  path : Text
  level : ℕ

inductive Node where
  | mk (fields : Fields) (childV : List Node)

def Node.fields : Node → Fields
  | ⟨fields, _⟩ => fields

def Node.childV : Node → List Node
  | ⟨_, childV⟩ => childV

def Node.name (n : Node) : Text := n.fields.name

inductive Scalar where
  | string (s : Text)
  | number (x : ℚ)
  | boolean (b : Bool)

def toplevel (type : ValueType) : Node :=
  ⟨⟨"toplevel".toList, type, [], 0, false, true, 0, 0, false, "/".toList, 0⟩, []⟩

/-- The constructors for the other nodes, before add sets the rest of the fields. -/
def newNode (path name : Text) (type : ValueType) (value : Scalar) : Node :=
  let fields : Fields := ⟨name, type, [], 0, false, false, 0, 0, false, path, 0⟩
  match value with
  | .string s => ⟨{ fields with stringValue := s }, []⟩
  | .number x => ⟨{ fields with numberValue := x }, []⟩
  | .boolean b => ⟨{ fields with boolValue := b }, []⟩

def Node.add (n node : Node) : Node :=
  ⟨n.fields, n.childV ++ [⟨{ node.fields with
    ownContainer := false, level := n.fields.level + 1, siblingNo := n.childV.length,
    rootUp := n.fields.rootUp + 1 }, node.childV⟩]⟩

def Node.addValue (n : Node) (type : ValueType) (name : Text) (value : Scalar) : Node :=
  let newPath :=
    if n.fields.path = "/".toList then n.fields.path ++ name else n.fields.path ++ '/' :: name
  n.add (newNode newPath name type value)

/-- What addCompoundNode writes into a toplevel node before it adds it to another one. -/
def Node.write (n : Node) (name : Text) (type : ValueType) (value : Scalar) : Node :=
  let fields := { n.fields with name := name, valueType := type }
  match value with
  | .string s => ⟨{ fields with stringValue := s }, n.childV⟩
  | .number x => ⟨{ fields with numberValue := x }, n.childV⟩
  | .boolean b => ⟨{ fields with boolValue := b }, n.childV⟩

def Node.modifyAt (f : Node → Node) : List ℕ → Node → Node
  | [], n => f n
  | ix :: address, n => ⟨n.fields, n.childV.modify ix (Node.modifyAt f address)⟩

/-- The trees that the constructor for toplevel nodes and add build. -/
inductive Built : Node → Prop where
  | toplevel (type : ValueType) : Built (toplevel type)
  | add {n : Node} (address : List ℕ) (type : ValueType) (name : Text) (value : Scalar)
    (h : Built n) : Built (n.modifyAt (fun m => m.addValue type name value) address)
  | attach {n m : Node} (address : List ℕ) (h : Built n) (h' : Built m) :
    Built (n.modifyAt (fun k => k.add m) address)
  | write {n : Node} (name : Text) (type : ValueType) (value : Scalar) (h : Built n) :
    Built (n.write name type value)

structure Compound where
  root : Node
  built : Built root

/-- What check returns, and what it writes into an error field, with the depth of the node that has
it. -/
structure Checked where
  result : Text
  error : Option (ℤ × Text)

def badItem : List Node → Option Text
  | [] => none
  | first :: rest =>
    (rest.find? fun c => c.name ≠ first.name).map fun c =>
      "bad tag-name of vector item: /".toList ++ c.name ++ "/, should be /".toList ++
        first.name ++ "/".toList

def duplicated (path : Text) : List Node → Option Text
  | [] => none
  | c :: rest =>
    if rest.any fun c' => c.name = c'.name then
      some ("duplicated tag-name: /".toList ++ c.name ++ "/ in path: ".toList ++ path)
    else duplicated path rest

def checkNode (depth : ℕ) (n : Node) : Checked :=
  let reported (error : Option Text) : Checked :=
    match error with
    | some e => ⟨e, some ((depth : ℤ) - n.fields.rootUp, e)⟩
    | none => ⟨"OK".toList, none⟩
  match n.fields.valueType with
  | .vector => reported (badItem n.childV)
  | .object => reported (duplicated n.fields.path n.childV)
  | _ =>
    if forbiddenChars (cString n.fields.stringValue) "" then
      ⟨"Invalid characters in attribute value".toList, none⟩
    else ⟨"OK".toList, none⟩

/-- The steps after a first one that went well. What the first one wrote stays. -/
def Checked.next (first second : Checked) : Checked :=
  if first.result = "OK".toList then
    ⟨second.result, second.error.or first.error⟩
  else first

mutual
def check (depth : ℕ) : Node → Checked
  | ⟨fields, childV⟩ => (checkNode depth ⟨fields, childV⟩).next (checkAll (depth + 1) childV)
def checkAll (depth : ℕ) : List Node → Checked
  | [] => ⟨"OK".toList, none⟩
  | c :: rest => (check depth c).next (checkAll depth rest)
end

def finish (root : Node) : Text :=
  match (check 0 root).error with
  | some (0, e) => e
  | _ => "OK".toList

mutual
def nodes (depth : ℕ) : Node → List (ℕ × Node)
  | ⟨fields, childV⟩ => (depth, ⟨fields, childV⟩) :: allNodes (depth + 1) childV
def allNodes (depth : ℕ) : List Node → List (ℕ × Node)
  | [] => []
  | c :: rest => nodes depth c ++ allNodes depth rest
end

/-- An object with two children of one name, or a vector whose children have not all one name. -/
def NameDefect (n : Node) : Prop :=
  n.fields.valueType = .object ∧ ¬ (n.childV.map Node.name).Nodup ∨
    n.fields.valueType = .vector ∧ ∃ c ∈ n.childV, ∃ d ∈ n.childV, c.name ≠ d.name

def IsScalar (n : Node) : Prop := n.fields.valueType ≠ .object ∧ n.fields.valueType ≠ .vector

def ValueDefect (n : Node) : Prop :=
  IsScalar n ∧ forbiddenChars n.fields.stringValue "" = true

/-- A forbidden character that is not behind a NUL character. -/
def SeenDefect (n : Node) : Prop :=
  IsScalar n ∧ forbiddenChars (cString n.fields.stringValue) "" = true

def NoDefect (root : Node) : Prop := ∀ p ∈ nodes 0 root, ¬ NameDefect p.2 ∧ ¬ ValueDefect p.2

def ReportsDefects (root : Node) : Prop := finish root = "OK".toList ↔ NoDefect root

/-- Such a node whose root pointer is the root of the tree comes before all other defects. -/
def NameDefectFirst (root : Node) : Prop :=
  ∃ before p after, nodes 0 root = before ++ p :: after ∧
    (∀ q ∈ before, ¬ NameDefect q.2 ∧ ¬ SeenDefect q.2) ∧ NameDefect p.2 ∧ p.2.fields.rootUp = p.1

variable {n root : Node} {depth : ℕ} {children : List Node} {a b c : Checked}

def Checked.ok : Checked := ⟨"OK".toList, none⟩

theorem next_of_ok (h : a.result = "OK".toList) (b : Checked) :
    a.next b = ⟨b.result, b.error.or a.error⟩ := if_pos h

theorem next_of_ne (h : a.result ≠ "OK".toList) (b : Checked) : a.next b = a := if_neg h

theorem ok_next (b : Checked) : Checked.ok.next b = b := by
  rw [next_of_ok rfl]
  exact congrArg _ Option.or_none

theorem next_assoc (a b c : Checked) : (a.next b).next c = a.next (b.next c) := by
  by_cases ha : a.result = "OK".toList
  · rw [next_of_ok ha, next_of_ok ha]
    by_cases hb : b.result = "OK".toList
    · have hboth : Checked.result ⟨b.result, b.error.or a.error⟩ = "OK".toList := hb
      rw [next_of_ok hb, next_of_ok hboth, Option.or_assoc]
    · have hboth : Checked.result ⟨b.result, b.error.or a.error⟩ ≠ "OK".toList := hb
      rw [next_of_ne hb, next_of_ne hboth]
  · rw [next_of_ne ha, next_of_ne ha, next_of_ne ha]

/-- The checks of nodes one after the other. -/
def checkNodes : List (ℕ × Node) → Checked
  | [] => .ok
  | p :: rest => (checkNode p.1 p.2).next (checkNodes rest)

theorem checkNodes_append (l m : List (ℕ × Node)) :
    checkNodes (l ++ m) = (checkNodes l).next (checkNodes m) := by
  induction l with
  | nil => exact (ok_next _).symm
  | cons p l ih => rw [cons_append, checkNodes, checkNodes, ih, next_assoc]

mutual
theorem check_nodes (depth : ℕ) : ∀ n : Node, check depth n = checkNodes (nodes depth n)
  | ⟨fields, childV⟩ => by rw [check, nodes, checkNodes, check_allNodes (depth + 1) childV]
theorem check_allNodes (depth : ℕ) : ∀ children : List Node,
    checkAll depth children = checkNodes (allNodes depth children)
  | [] => by
    rw [checkAll, allNodes]
    rfl
  | c :: rest => by
    rw [checkAll, allNodes, checkNodes_append, check_nodes depth c, check_allNodes depth rest]
end

theorem badItem_none :
    badItem children = none ↔ ∀ c ∈ children, ∀ d ∈ children, c.name = d.name := by
  cases children with
  | nil => simp [badItem]
  | cons first rest =>
    rw [badItem, Option.map_eq_none_iff, List.find?_eq_none]
    simp only [decide_eq_true_eq, not_not]
    constructor
    · intro h
      have hall : ∀ c ∈ first :: rest, c.name = first.name := forall_mem_cons.mpr ⟨rfl, h⟩
      intro c hc d hd
      rw [hall c hc, hall d hd]
    · intro h c hc
      exact h c (mem_cons_of_mem _ hc) first mem_cons_self

theorem duplicated_none (path : Text) :
    duplicated path children = none ↔ (children.map Node.name).Nodup := by
  induction children with
  | nil => simp [duplicated]
  | cons c rest ih =>
    rw [duplicated, map_cons, nodup_cons, ← ih]
    split
    · rename_i h
      simp only [any_eq_true, decide_eq_true_eq] at h
      obtain ⟨d, hd, heq⟩ := h
      refine iff_of_false (by simp) ?_
      rintro ⟨hnot, -⟩
      exact hnot (heq ▸ mem_map_of_mem hd)
    · rename_i h
      refine (and_iff_right ?_).symm
      intro hmem
      obtain ⟨d, hd, heq⟩ := mem_map.mp hmem
      exact h (any_eq_true.mpr ⟨d, hd, by simpa using heq.symm⟩)

theorem badItem_text {e : Text} (h : badItem children = some e) : e ≠ "OK".toList := by
  rintro rfl
  cases children with
  | nil => cases h
  | cons first rest =>
    obtain ⟨c, -, hc⟩ := Option.map_eq_some_iff.mp h
    have hfirst := congrArg List.head? hc
    simp at hfirst

theorem duplicated_text {path e : Text} (h : duplicated path children = some e) :
    e ≠ "OK".toList := by
  induction children with
  | nil => cases h
  | cons c rest ih =>
    rw [duplicated] at h
    split at h
    · rintro rfl
      have hfirst := congrArg List.head? (Option.some.inj h)
      simp at hfirst
    · exact ih h

/-- A defect of the names is written to the root of the node, and a forbidden character nowhere. -/
theorem checkNode_name (h : NameDefect n) : ∃ e, e ≠ "OK".toList ∧
    checkNode depth n = ⟨e, some ((depth : ℤ) - n.fields.rootUp, e)⟩ := by
  unfold checkNode
  rcases h with ⟨htype, hnames⟩ | ⟨htype, hnames⟩
  · rw [htype]
    cases hdup : duplicated n.fields.path n.childV with
    | none => exact absurd ((duplicated_none _).mp hdup) hnames
    | some e => exact ⟨e, duplicated_text hdup, rfl⟩
  · rw [htype]
    cases hbad : badItem n.childV with
    | none =>
      obtain ⟨c, hc, d, hd, hne⟩ := hnames
      exact absurd (badItem_none.mp hbad c hc d hd) hne
    | some e => exact ⟨e, badItem_text hbad, rfl⟩

theorem checkNode_value (h : SeenDefect n) :
    checkNode depth n = ⟨"Invalid characters in attribute value".toList, none⟩ := by
  obtain ⟨⟨hobject, hvector⟩, hforbidden⟩ := h
  unfold checkNode
  cases htype : n.fields.valueType with
  | object => exact absurd htype hobject
  | vector => exact absurd htype hvector
  | _ => exact if_pos hforbidden

theorem checkNode_ok (hname : ¬ NameDefect n) (hvalue : ¬ SeenDefect n) :
    checkNode depth n = .ok := by
  unfold checkNode
  cases htype : n.fields.valueType with
  | object =>
    have hnone := (duplicated_none n.fields.path).mpr
      (by_contra fun hnot => hname (.inl ⟨htype, hnot⟩))
    simp [hnone, Checked.ok]
  | vector =>
    have hnone : badItem n.childV = none := by
      refine badItem_none.mpr ?_
      intro c hc d hd
      by_contra hne
      exact hname (.inr ⟨htype, c, hc, d, hd, hne⟩)
    simp [hnone, Checked.ok]
  | _ =>
    refine if_neg ?_
    intro hforbidden
    exact hvalue ⟨⟨by rw [htype]; decide, by rw [htype]; decide⟩, hforbidden⟩

variable {p : ℕ × Node}

theorem checkNodes_first {before after : List (ℕ × Node)}
    (hbefore : ∀ q ∈ before, ¬ NameDefect q.2 ∧ ¬ SeenDefect q.2)
    (hp : NameDefect p.2 ∨ SeenDefect p.2) :
    checkNodes (before ++ p :: after) = checkNode p.1 p.2 := by
  induction before with
  | nil =>
    refine next_of_ne ?_ _
    rcases hp with hname | hvalue
    · obtain ⟨e, hne, hcheck⟩ := @checkNode_name p.2 p.1 hname
      rw [hcheck]
      exact hne
    · rw [checkNode_value hvalue]
      decide
  | cons q before ih =>
    obtain ⟨⟨hname, hvalue⟩, hbefore⟩ := forall_mem_cons.mp hbefore
    rw [cons_append, checkNodes, checkNode_ok hname hvalue, ok_next, ih hbefore]

theorem checkNodes_ok {l : List (ℕ × Node)}
    (h : ∀ q ∈ l, ¬ NameDefect q.2 ∧ ¬ SeenDefect q.2) : checkNodes l = .ok := by
  induction l with
  | nil => rfl
  | cons q l ih =>
    obtain ⟨⟨hname, hvalue⟩, hl⟩ := forall_mem_cons.mp h
    rw [checkNodes, checkNode_ok hname hvalue, ok_next, ih hl]

theorem first_defect (l : List (ℕ × Node)) :
    (∀ q ∈ l, ¬ NameDefect q.2 ∧ ¬ SeenDefect q.2) ∨ ∃ before p after, l = before ++ p :: after ∧
      (∀ q ∈ before, ¬ NameDefect q.2 ∧ ¬ SeenDefect q.2) ∧ (NameDefect p.2 ∨ SeenDefect p.2) := by
  induction l with
  | nil => exact .inl (forall_mem_nil _)
  | cons q l ih =>
    by_cases hq : NameDefect q.2 ∨ SeenDefect q.2
    · exact .inr ⟨[], q, l, rfl, forall_mem_nil _, hq⟩
    rw [not_or] at hq
    rcases ih with hall | ⟨before, p, after, rfl, hbefore, hp⟩
    · exact .inl (forall_mem_cons.mpr ⟨hq, hall⟩)
    · exact .inr ⟨q :: before, p, after, rfl, forall_mem_cons.mpr ⟨hq, hbefore⟩, hp⟩

theorem finish_of_ok (h : check 0 root = .ok) : finish root = "OK".toList := by
  unfold finish
  rw [h]
  rfl

theorem finish_of_name (h : check 0 root = checkNode p.1 p.2) (hname : NameDefect p.2) :
    finish root = "OK".toList ↔ p.2.fields.rootUp ≠ p.1 := by
  obtain ⟨e, hne, hcheck⟩ := @checkNode_name p.2 p.1 hname
  unfold finish
  rw [h, hcheck]
  split
  · rename_i heq
    obtain ⟨hdepth, rfl⟩ := Prod.mk.inj (Option.some.inj heq)
    exact iff_of_false hne (by omega)
  rename_i hother
  refine iff_of_true rfl ?_
  intro heq
  exact hother e (by rw [heq, sub_self])

theorem finish_of_value (h : check 0 root = checkNode p.1 p.2) (hvalue : SeenDefect p.2) :
    finish root = "OK".toList := by
  unfold finish
  rw [h, checkNode_value hvalue]

theorem valueDefect_of_seen (h : SeenDefect n) : ValueDefect n := by
  refine ⟨h.1, ?_⟩
  obtain ⟨c, hc, hforbidden⟩ := any_eq_true.mp h.2
  exact any_eq_true.mpr ⟨c, (List.takeWhile_prefix _).subset hc, hforbidden⟩

theorem not_ok_of_first (h : NameDefectFirst root) : finish root ≠ "OK".toList := by
  obtain ⟨before, p, after, hnodes, hbefore, hname, hroot⟩ := h
  have hcheck : check 0 root = checkNode p.1 p.2 := by
    rw [check_nodes, hnodes, checkNodes_first hbefore (.inl hname)]
  exact fun hok => (finish_of_name hcheck hname).mp hok hroot

/-- finish reports the defects of a tree that has none, or whose first one is in the names of a node
that has the root of the tree as its own. -/
theorem finish_reports_iff (t : Compound) :
    ReportsDefects t.root ↔ NoDefect t.root ∨ NameDefectFirst t.root := by
  have hseen : ∀ {p : ℕ × Node}, p ∈ nodes 0 t.root → NameDefect p.2 ∨ SeenDefect p.2 →
      ¬ NoDefect t.root := by
    rintro p hp (hname | hvalue) hno
    · exact (hno p hp).1 hname
    · exact (hno p hp).2 (valueDefect_of_seen hvalue)
  unfold ReportsDefects
  rcases first_defect (nodes 0 t.root) with hall | ⟨before, p, after, hnodes, hbefore, hp⟩
  · have hok : finish t.root = "OK".toList := by
      refine finish_of_ok ?_
      rw [check_nodes, checkNodes_ok hall]
    rw [or_iff_left fun hfirst => not_ok_of_first hfirst hok]
    exact iff_true_left hok
  · have hmem : p ∈ nodes 0 t.root := hnodes ▸ mem_append_right _ mem_cons_self
    have hcheck : check 0 t.root = checkNode p.1 p.2 := by
      rw [check_nodes, hnodes, checkNodes_first hbefore hp]
    rw [iff_false_right (hseen hmem hp), or_iff_right (hseen hmem hp)]
    rcases hp with hname | hvalue
    · rw [finish_of_name hcheck hname, not_not]
      refine ⟨fun hroot => ⟨before, p, after, hnodes, hbefore, hname, hroot⟩, ?_⟩
      intro hfirst
      by_contra hroot
      exact not_ok_of_first hfirst ((finish_of_name hcheck hname).mpr hroot)
    · refine iff_of_false (not_not.mpr (finish_of_value hcheck hvalue)) ?_
      exact fun hfirst => not_ok_of_first hfirst (finish_of_value hcheck hvalue)

def forbidden : Compound where
  root := (toplevel .object).modifyAt
    (fun m => m.addValue .string "name".toList (.string "<".toList)) []
  built := .add [] .string "name".toList (.string "<".toList) (.toplevel .object)

theorem forbidden_unreported : ¬ ∀ t : Compound, ReportsDefects t.root := by
  intro h
  have hfinish : finish forbidden.root = "OK".toList := by decide
  have hno := (h forbidden).mp hfinish
  have hmem : (1, forbidden.root.childV.head (by decide)) ∈ nodes 0 forbidden.root :=
    mem_cons_of_mem _ mem_cons_self
  exact (hno _ hmem).2 ⟨⟨by decide, by decide⟩, by decide⟩

end CompoundTree
