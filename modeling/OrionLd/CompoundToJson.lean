import OrionLd.CompoundTree
import OrionLd.DecimalText
import OrionLd.JsonText

/-! The JSON text of a compound value. The caller puts the braces or the brackets around the text
of a toplevel node. -/
namespace CompoundToJson

open KjTree CompoundTree JsonText List Option
open DecimalText (padded)
open MongoLocation (ValueType)
open NearestFloat

/-- The conversion %.9f. -/
def fixedText (x : ℚ) : Text :=
  let n := (halfEven (|x| * 10 ^ 9)).natAbs
  (if x < 0 then ['-'] else []) ++
    (Nat.toDigits 10 (n / 10 ^ 9) ++ '.' :: padded 9 (n % 10 ^ 9))

/-- The cast to a long long has no meaning out of its range. -/
def toString (f : ℚ) : Option Text :=
  let intPart := truncate f
  if intPart < -2 ^ 63 ∨ 2 ^ 63 ≤ intPart then none
  else
    let diff := |f - intPart|
    if nearest binary64 (9999999998 / 10 ^ 10) < diff then some (integerText (intPart + 1))
    else if diff < nearest binary64 (1 / 10 ^ 9) then some (integerText intPart)
    else some ((fixedText f).rdropWhile (· = '0'))

structure Container where
  valueType : ValueType
  size : ℕ

def Node.asContainer (n : Node) : Container := ⟨n.fields.valueType, n.childV.length⟩

def inContainer (container : Container) (key value : Text) : Text :=
  if container.valueType = .vector then value else quoted key ++ ':' :: value

def inBrackets (text : Text) : Text := '[' :: (text ++ [']'])

def inBraces (text : Text) : Text := '{' :: (text ++ ['}'])

def nodeJson (container : Container) (fields : Fields) (children : Option Text) : Option Text :=
  let key := if container.valueType = .vector then "item".toList else fields.name
  match fields.valueType with
  | .string => some (inContainer container key (quoted fields.stringValue))
  | .number => (toString fields.numberValue).map (inContainer container key)
  | .boolean =>
    some (inContainer container key (if fields.boolValue then "true".toList else "false".toList))
  | .null => some (inContainer container key "null".toList)
  | .notGiven =>
    some (if container.valueType = .vector then "null".toList
      else quoted key ++ ':' :: "not given".toList)
  | .vector => children.map fun out =>
    if fields.renderName then quoted fields.name ++ ':' :: inBrackets out
    else if fields.ownContainer then out
    else inContainer container fields.name (inBrackets out)
  | .object => children.map fun out =>
    if fields.renderName then
      quoted (if fields.name = "toplevel".toList then "value".toList else fields.name) ++
        ':' :: inBraces out
    else if container.valueType = .vector then inBraces out
    else if fields.rootUp ≠ 0 then quoted fields.name ++ ':' :: inBraces out
    else out

def withComma (container : Container) (comma : Bool) (fields : Fields) (out : Text) : Text :=
  if fields.siblingNo + 1 < container.size ∧ fields.ownContainer = false ∧ comma = true then
    out ++ [',']
  else out

mutual
def toJson (container : Container) (comma : Bool) : Node → Option Text
  | ⟨fields, childV⟩ =>
    (nodeJson container fields (childrenJson ⟨fields.valueType, childV.length⟩ childV)).map
      (withComma container comma fields)
def childrenJson (container : Container) : List Node → Option Text
  | [] => some []
  | c :: rest =>
    (toJson container true c).bind fun out => (childrenJson container rest).map (out ++ ·)
end

mutual
def valueOf : Node → Json
  | ⟨fields, childV⟩ =>
    match fields.valueType with
    | .string => .string fields.stringValue
    | .number => .number fields.numberValue
    | .boolean => .bool fields.boolValue
    | .vector => .array (itemValues childV)
    | .object => .object (memberValues childV)
    | .null => .null
    | .notGiven => .null
def itemValues : List Node → List Json
  | [] => []
  | c :: rest => valueOf c :: itemValues rest
def memberValues : List Node → List (Text × Json)
  | [] => []
  | c :: rest => (c.name, valueOf c) :: memberValues rest
end

inductive Everywhere (P : Node → Prop) : Node → Prop where
  | mk {fields : Fields} {childV : List Node} (here : P ⟨fields, childV⟩)
    (below : ∀ c ∈ childV, Everywhere P c) : Everywhere P ⟨fields, childV⟩

def IsJson (n : Node) : Prop :=
  match n.fields.valueType with
  | .string => n.childV = []
  | .number => n.childV = [] ∧ n.fields.numberValue.den = 1
  | .boolean => n.childV = []
  | .null => n.childV = []
  | .vector => True
  | .object => True
  | .notGiven => False

structure JsonCompound extends Compound where
  container : root.fields.valueType = .object ∨ root.fields.valueType = .vector
  json : Everywhere IsJson root

def bracketed (root : Node) (out : Text) : Text :=
  if root.fields.valueType = .object then inBraces out else inBrackets out

def RendersFaithfully (root : Node) : Prop :=
  ∀ comma, ∃ out, toJson (Node.asContainer root) comma root = some out ∧
    parse (bracketed root out) = some (valueOf root)

def Fits (n : Node) : Prop :=
  n.fields.valueType = .number → -2 ^ 63 ≤ n.fields.numberValue ∧ n.fields.numberValue < 2 ^ 63

def NeedsNoEscape (n : Node) : Prop :=
  (n.fields.valueType = .string → CleanChars n.fields.stringValue) ∧
    (n.fields.valueType = .object → ∀ c ∈ n.childV, CleanChars c.name)

structure InOrder (l : List Fields) : Prop where
  numbered : l.map Fields.siblingNo = List.range' 0 l.length
  inner : ∀ f ∈ l, f.ownContainer = false ∧ f.renderName = false ∧ f.rootUp ≠ 0

def Placed (n : Node) : Prop := InOrder (n.childV.map Node.fields)

structure IsRoot (n : Node) : Prop where
  ownContainer : n.fields.ownContainer = true
  renderName : n.fields.renderName = false
  rootUp : n.fields.rootUp = 0

variable {n m : Node} {f : Node → Node}

theorem InOrder.append {l : List Fields} (h : InOrder l) {added : Fields}
    (hnumber : added.siblingNo = l.length)
    (hinner : added.ownContainer = false ∧ added.renderName = false ∧ added.rootUp ≠ 0) :
    InOrder (l ++ [added]) where
  numbered := by
    rw [map_append, h.numbered, length_append, List.range'_append_1.symm]
    simp [hnumber]
  inner := by
    intro g hg
    rcases mem_append.mp hg with hg | hg
    · exact h.inner g hg
    · exact mem_singleton.mp hg ▸ hinner

theorem placed_add (h : Everywhere Placed n) (h' : Everywhere Placed m)
    (hname : m.fields.renderName = false) : Everywhere Placed (n.add m) := by
  cases h with
  | @mk fields childV hhere hbelow =>
    cases h' with
    | @mk fields' childV' hhere' hbelow' =>
      refine .mk ?_ ?_
      · unfold Placed Node.childV
        rw [map_append]
        exact InOrder.append hhere (length_map _).symm ⟨rfl, hname, Nat.succ_ne_zero _⟩
      · intro c hc
        rcases mem_append.mp hc with hc | hc
        · exact hbelow c hc
        · rw [mem_singleton.mp hc]
          exact .mk hhere' hbelow'

theorem map_modify {g : Node → Node} (hg : ∀ k, (g k).fields = k.fields) (l : List Node) (ix : ℕ) :
    (l.modify ix g).map Node.fields = l.map Node.fields := by
  induction l generalizing ix with
  | nil => rw [modify_nil]
  | cons c l ih =>
    cases ix with
    | zero => rw [modify_zero_cons, map_cons, map_cons, hg]
    | succ ix => rw [modify_succ_cons, map_cons, map_cons, ih]

theorem mem_modify {g : Node → Node} {l : List Node} {ix : ℕ} {c : Node}
    (h : c ∈ l.modify ix g) : c ∈ l ∨ ∃ d ∈ l, c = g d := by
  induction l generalizing ix with
  | nil => simp at h
  | cons d l ih =>
    cases ix with
    | zero =>
      rcases mem_cons.mp h with rfl | h
      · exact .inr ⟨d, mem_cons_self, rfl⟩
      · exact .inl (mem_cons_of_mem d h)
    | succ ix =>
      rcases mem_cons.mp h with rfl | h
      · exact .inl mem_cons_self
      rcases ih h with h | ⟨e, he, rfl⟩
      · exact .inl (mem_cons_of_mem d h)
      · exact .inr ⟨e, mem_cons_of_mem d he, rfl⟩

theorem fields_modifyAt (hf : ∀ k, (f k).fields = k.fields) (address : List ℕ) (n : Node) :
    (n.modifyAt f address).fields = n.fields := by
  cases address with
  | nil => exact hf n
  | cons ix address => rfl

theorem placed_modifyAt (hf : ∀ k, (f k).fields = k.fields)
    (hplaced : ∀ k, Everywhere Placed k → Everywhere Placed (f k)) (address : List ℕ)
    (h : Everywhere Placed n) : Everywhere Placed (n.modifyAt f address) := by
  induction address generalizing n with
  | nil => exact hplaced n h
  | cons ix address ih =>
    obtain ⟨hhere, hbelow⟩ := h
    refine .mk ?_ ?_
    · unfold Placed Node.childV
      rw [map_modify (fields_modifyAt hf address)]
      exact hhere
    · intro c hc
      rcases mem_modify hc with hc | ⟨d, hd, rfl⟩
      · exact hbelow c hc
      · exact ih (hbelow d hd)

theorem isRoot_of_fields (h : IsRoot n) (hf : m.fields = n.fields) : IsRoot m :=
  ⟨hf ▸ h.ownContainer, hf ▸ h.renderName, hf ▸ h.rootUp⟩

theorem placed_newNode (path name : Text) (type : ValueType) (value : Scalar) :
    Everywhere Placed (newNode path name type value) ∧
      (newNode path name type value).fields.renderName = false := by
  cases value <;> exact ⟨.mk ⟨rfl, forall_mem_nil _⟩ (forall_mem_nil _), rfl⟩

theorem placed_of_built (h : Built n) : Everywhere Placed n ∧ IsRoot n := by
  induction h with
  | toplevel type =>
    exact ⟨.mk ⟨rfl, forall_mem_nil _⟩ (forall_mem_nil _), rfl, rfl, rfl⟩
  | add address type name value h ih =>
    have hkept : ∀ k : Node, (k.addValue type name value).fields = k.fields := fun _ => rfl
    refine ⟨placed_modifyAt hkept ?_ address ih.1,
      isRoot_of_fields ih.2 (fields_modifyAt hkept _ _)⟩
    intro k hk
    obtain ⟨hnew, hname⟩ := placed_newNode _ name type value
    exact placed_add hk hnew hname
  | @attach n m address h h' ih ih' =>
    have hkept : ∀ k : Node, (k.add m).fields = k.fields := fun _ => rfl
    refine ⟨placed_modifyAt hkept ?_ address ih.1,
      isRoot_of_fields ih.2 (fields_modifyAt hkept _ _)⟩
    exact fun k hk => placed_add hk ih'.1 ih'.2.renderName
  | write name type value h ih =>
    obtain ⟨⟨hhere, hbelow⟩, hroot⟩ := ih
    cases value <;> exact ⟨.mk hhere hbelow, hroot.1, hroot.2, hroot.3⟩

variable {container : Container} {fields : Fields} {children : Option Text} {root : Node}
variable {childV rest : List Node} {P : Node → Prop} {text : Text} {x : ℚ} {k : ℕ}

theorem fields_mk : Node.fields ⟨fields, childV⟩ = fields := rfl

theorem childV_mk : Node.childV ⟨fields, childV⟩ = childV := rfl

theorem everywhere_iff : Everywhere P ⟨fields, childV⟩ ↔
    P ⟨fields, childV⟩ ∧ ∀ c ∈ childV, Everywhere P c := by
  constructor
  · rintro ⟨hhere, hbelow⟩
    exact ⟨hhere, hbelow⟩
  · rintro ⟨hhere, hbelow⟩
    exact .mk hhere hbelow

theorem toString_iff (hx : x.den = 1) : toString x = some text ↔
    (-2 ^ 63 ≤ x ∧ x < 2 ^ 63) ∧ text = integerText x.num := by
  obtain ⟨i, rfl⟩ : ∃ i : ℤ, x = i := ⟨x.num, (Rat.den_eq_one_iff x).mp hx |>.symm⟩
  have hrange : ((-2 ^ 63 : ℚ) ≤ i ∧ (i : ℚ) < 2 ^ 63) ↔ ¬ (i < -2 ^ 63 ∨ 2 ^ 63 ≤ i) := by
    rw [not_or, not_lt, not_le]
    exact_mod_cast Iff.rfl
  have hgreat : ¬ nearest binary64 (9999999998 / 10 ^ 10) < 0 := by decide +kernel
  have hless : 0 < nearest binary64 (1 / 10 ^ 9) := by decide +kernel
  unfold toString
  rw [truncate_intCast, Rat.num_intCast, hrange]
  dsimp only
  split
  · rename_i hout
    exact iff_of_false nofun (fun h => h.1 hout)
  rename_i hin
  rw [sub_self, abs_zero, if_neg hgreat, if_pos hless, some_inj, and_iff_right hin]
  exact eq_comm

def valueText (fields : Fields) (children : Option Text) : Option Text :=
  match fields.valueType with
  | .string => some (quoted fields.stringValue)
  | .number => toString fields.numberValue
  | .boolean => some (if fields.boolValue then "true".toList else "false".toList)
  | .null => some "null".toList
  | .notGiven => none
  | .vector => children.map inBrackets
  | .object => children.map inBraces

theorem inContainer_key (name : Text) :
    inContainer container (if container.valueType = .vector then "item".toList else name) =
      inContainer container name := by
  funext value
  unfold inContainer
  split
  · rfl
  · rfl

theorem nodeJson_inner (hgiven : fields.valueType ≠ .notGiven)
    (h : fields.ownContainer = false ∧ fields.renderName = false ∧ fields.rootUp ≠ 0) :
    nodeJson container fields children =
      (valueText fields children).map (inContainer container fields.name) := by
  obtain ⟨hown, hrender, hroot⟩ := h
  unfold nodeJson valueText
  dsimp only
  rw [inContainer_key]
  cases htype : fields.valueType with
  | notGiven => exact absurd htype hgiven
  | vector => simp [hown, hrender, Function.comp_def]
  | object => simp [hrender, hroot, inContainer, Function.comp_def]
  | _ => rfl

def elementsText (container : Container) (childV : List Node) : Text :=
  if container.valueType = .vector then itemsText (itemValues childV)
  else membersText (memberValues childV)

theorem elementsText_cons (c : Node) (rest : List Node) : elementsText container (c :: rest) =
    inContainer container c.name (plainText (valueOf c)) ++
      if rest = [] then [] else ',' :: elementsText container rest := by
  unfold elementsText inContainer
  cases rest with
  | nil => split <;> simp [itemValues, memberValues, itemsText, membersText]
  | cons d rest =>
    split <;> simp [itemValues, memberValues, itemsText, membersText]

theorem toJson_eq (comma : Bool) (n : Node) : toJson container comma n =
    (nodeJson container n.fields (childrenJson (Node.asContainer n) n.childV)).map
      (withComma container comma n.fields) := by
  cases n
  rfl

theorem not_notGiven (h : Everywhere IsJson n) : n.fields.valueType ≠ .notGiven := by
  intro htype
  cases h with
  | mk hhere hbelow =>
    unfold IsJson at hhere
    rw [htype] at hhere
    exact hhere

theorem withComma_inner {c : Node} (hnumber : c.fields.siblingNo = k)
    (hinner : c.fields.ownContainer = false) (hsize : container.size = k + (rest.length + 1))
    (out : Text) :
    withComma container true c.fields out = out ++ if rest = [] then [] else [','] := by
  unfold withComma
  rw [hnumber, hsize, hinner]
  cases rest with
  | nil => simp
  | cons d rest => simp

mutual
theorem valueText_iff : ∀ (n : Node) {text : Text}, Everywhere IsJson n → Everywhere Placed n →
    (valueText n.fields (childrenJson (Node.asContainer n) n.childV) = some text ↔
      Everywhere Fits n ∧ text = plainText (valueOf n))
  | ⟨fields, childV⟩, text, hjson, hplaced => by
    obtain ⟨hhere, hbelow⟩ := everywhere_iff.mp hjson
    obtain ⟨hordered, hplaced⟩ := everywhere_iff.mp hplaced
    have hnumbers : (childV.map fun c => c.fields.siblingNo) = List.range' 0 childV.length := by
      have hnumbered := hordered.numbered
      rw [List.map_map, List.length_map] at hnumbered
      exact hnumbered
    have hchildren := fun text => @childrenJson_iff childV
      (Node.asContainer ⟨fields, childV⟩) 0 text
      hbelow hplaced hnumbers
      (fun c hc => hordered.inner _ (mem_map_of_mem hc)) (Nat.zero_add _).symm
    rw [everywhere_iff]
    simp only [fields_mk, childV_mk, valueText, Fits, valueOf]
    simp only [IsJson, fields_mk, childV_mk] at hhere
    cases htype : fields.valueType with
    | string | boolean | null =>
      simp only [htype] at hhere
      simp only [hhere, plainText, some_inj]
      exact ⟨fun h => ⟨⟨nofun, forall_mem_nil _⟩, h.symm⟩, fun h => h.2.symm⟩
    | number =>
      simp only [htype] at hhere
      simp [hhere.1, toString_iff hhere.2, plainText]
    | notGiven =>
      simp only [htype] at hhere
    | vector =>
      have helements : elementsText (Node.asContainer ⟨fields, childV⟩) childV =
        itemsText (itemValues childV) := if_pos htype
      simp only [map_eq_some_iff, hchildren, helements, plainText]
      constructor
      · rintro ⟨-, ⟨h, rfl⟩, rfl⟩
        exact ⟨⟨nofun, h⟩, rfl⟩
      · rintro ⟨⟨-, h⟩, rfl⟩
        exact ⟨_, ⟨h, rfl⟩, rfl⟩
    | object =>
      have helements : elementsText (Node.asContainer ⟨fields, childV⟩) childV =
        membersText (memberValues childV) := if_neg (by simp [Node.asContainer, Node.fields, htype])
      simp only [map_eq_some_iff, hchildren, helements, plainText]
      constructor
      · rintro ⟨-, ⟨h, rfl⟩, rfl⟩
        exact ⟨⟨nofun, h⟩, rfl⟩
      · rintro ⟨⟨-, h⟩, rfl⟩
        exact ⟨_, ⟨h, rfl⟩, rfl⟩
theorem childrenJson_iff : ∀ (childV : List Node) {container : Container} {k : ℕ} {text : Text},
    (∀ c ∈ childV, Everywhere IsJson c) → (∀ c ∈ childV, Everywhere Placed c) →
    (childV.map fun c => c.fields.siblingNo) = List.range' k childV.length →
    (∀ c ∈ childV, c.fields.ownContainer = false ∧ c.fields.renderName = false ∧
      c.fields.rootUp ≠ 0) → container.size = k + childV.length →
    (childrenJson container childV = some text ↔
      (∀ c ∈ childV, Everywhere Fits c) ∧ text = elementsText container childV)
  | [], container, k, text, _, _, _, _, _ => by
    have hempty : elementsText container [] = [] := by
      unfold elementsText
      split <;> rfl
    rw [childrenJson, some_inj, hempty, and_iff_right (forall_mem_nil _)]
    exact eq_comm
  | c :: rest, container, k, text, hjson, hplaced, hnumbers, hinner, hsize => by
    obtain ⟨hjson_c, hjson⟩ := forall_mem_cons.mp hjson
    obtain ⟨hplaced_c, hplaced⟩ := forall_mem_cons.mp hplaced
    obtain ⟨hinner_c, hinner⟩ := forall_mem_cons.mp hinner
    rw [map_cons, length_cons, List.range'_succ, cons.injEq] at hnumbers
    rw [length_cons] at hsize
    have hvalue := fun text => @valueText_iff c text hjson_c hplaced_c
    have hrest := fun text => @childrenJson_iff rest container _ text hjson
      hplaced hnumbers.2 hinner (by omega)
    have hjoin : ∀ out, withComma container true c.fields out ++ elementsText container rest =
        out ++ if rest = [] then [] else ',' :: elementsText container rest := by
      intro out
      rw [withComma_inner hnumbers.1 hinner_c.1 hsize]
      split
      · rename_i hrest
        simp [hrest, elementsText, itemValues, memberValues, itemsText, membersText]
      · rw [append_assoc, singleton_append]
    rw [childrenJson, toJson_eq, nodeJson_inner (not_notGiven hjson_c) hinner_c, elementsText_cons,
      ← hjoin, forall_mem_cons]
    simp only [bind_eq_some_iff, map_eq_some_iff, hvalue, hrest]
    constructor
    · rintro ⟨-, ⟨-, ⟨-, ⟨hc, rfl⟩, rfl⟩, rfl⟩, -, ⟨hr, rfl⟩, rfl⟩
      exact ⟨⟨hc, hr⟩, rfl⟩
    · rintro ⟨⟨hc, hr⟩, rfl⟩
      exact ⟨_, ⟨_, ⟨_, ⟨hc, rfl⟩, rfl⟩, rfl⟩, _, ⟨hr, rfl⟩, rfl⟩
end

mutual
theorem clean_iff : ∀ n : Node, Everywhere IsJson n →
    (Clean (valueOf n) ↔ Everywhere NeedsNoEscape n)
  | ⟨fields, childV⟩, hjson => by
    obtain ⟨hhere, hbelow⟩ := everywhere_iff.mp hjson
    have hitems := cleanItems_iff childV hbelow
    have hmembers := cleanMembers_iff childV hbelow
    rw [everywhere_iff]
    simp only [fields_mk, childV_mk, valueOf, NeedsNoEscape]
    simp only [IsJson, fields_mk, childV_mk] at hhere
    cases htype : fields.valueType with
    | vector => simp [Clean, hitems]
    | object => simp [Clean, hmembers]
    | notGiven => simp only [htype] at hhere
    | _ =>
      simp only [htype] at hhere
      simp [Clean, hhere]
theorem cleanItems_iff : ∀ childV : List Node, (∀ c ∈ childV, Everywhere IsJson c) →
    (CleanItems (itemValues childV) ↔ ∀ c ∈ childV, Everywhere NeedsNoEscape c)
  | [], _ => iff_of_true trivial (List.forall_mem_nil _)
  | c :: rest, hjson => by
    obtain ⟨hc, hrest⟩ := List.forall_mem_cons.mp hjson
    rw [itemValues, CleanItems, clean_iff c hc, cleanItems_iff rest hrest, forall_mem_cons]
theorem cleanMembers_iff : ∀ childV : List Node, (∀ c ∈ childV, Everywhere IsJson c) →
    (CleanMembers (memberValues childV) ↔
      (∀ c ∈ childV, CleanChars c.name) ∧ ∀ c ∈ childV, Everywhere NeedsNoEscape c)
  | [], _ => iff_of_true trivial ⟨List.forall_mem_nil _, List.forall_mem_nil _⟩
  | c :: rest, hjson => by
    obtain ⟨hc, hrest⟩ := List.forall_mem_cons.mp hjson
    rw [memberValues, CleanMembers, clean_iff c hc, cleanMembers_iff rest hrest,
      forall_mem_cons, forall_mem_cons]
    tauto
end

theorem toJson_root (hroot : IsRoot root)
    (htype : root.fields.valueType = .object ∨ root.fields.valueType = .vector) (comma : Bool) :
    toJson (Node.asContainer root) comma root =
      childrenJson (Node.asContainer root) root.childV := by
  have hcomma : withComma (Node.asContainer root) comma root.fields = id := by
    funext out
    refine if_neg ?_
    rw [hroot.ownContainer]
    simp
  rw [toJson_eq, hcomma, Option.map_id, id_eq]
  unfold nodeJson
  rcases htype with htype | htype
  · simp [htype, hroot.renderName, hroot.rootUp, Node.asContainer]
  · simp [htype, hroot.renderName, hroot.ownContainer]

theorem bracketed_root (htype : root.fields.valueType = .object ∨ root.fields.valueType = .vector)
    (children : Option Text) : children.map (bracketed root) = valueText root.fields children := by
  unfold bracketed valueText
  rcases htype with htype | htype
  · simp [htype]
  · simp [htype]

/-- A compound value is rendered as JSON of the same value exactly if its numbers are in the range
of a long long and nothing in it needs an escape. -/
theorem rendered_faithfully_iff (t : JsonCompound) : RendersFaithfully t.root ↔
    Everywhere Fits t.root ∧ Everywhere NeedsNoEscape t.root := by
  obtain ⟨hplaced, hroot⟩ := placed_of_built t.built
  have htext := fun text => @valueText_iff t.root text t.json hplaced
  have hrendered : RendersFaithfully t.root ↔ ∃ text, valueText t.root.fields
      (childrenJson (Node.asContainer t.root) t.root.childV) = some text ∧
        parse text = some (valueOf t.root) := by
    unfold RendersFaithfully
    simp only [toJson_root hroot t.container, forall_const, ← bracketed_root t.container,
      map_eq_some_iff]
    constructor
    · rintro ⟨out, hout, hparse⟩
      exact ⟨_, ⟨out, hout, rfl⟩, hparse⟩
    · rintro ⟨-, ⟨out, hout, rfl⟩, hparse⟩
      exact ⟨out, hout, hparse⟩
  rw [hrendered, ← clean_iff t.root t.json, ← parse_plainText]
  constructor
  · rintro ⟨text, hvalue, hparse⟩
    obtain ⟨hfits, rfl⟩ := (htext text).mp hvalue
    exact ⟨hfits, hparse⟩
  · rintro ⟨hfits, hparse⟩
    exact ⟨_, (htext _).mpr ⟨hfits, rfl⟩, hparse⟩

def backslash : JsonCompound where
  root := (toplevel .object).modifyAt
    (fun m => m.addValue .string "a".toList (.string ['\\'])) []
  built := .add [] .string "a".toList (.string ['\\']) (.toplevel .object)
  container := .inl rfl
  json := .mk trivial (List.forall_mem_singleton.mpr (.mk rfl (List.forall_mem_nil _)))

theorem backslash_not_escaped : ¬ ∀ t : JsonCompound, RendersFaithfully t.root := by
  intro h
  obtain ⟨out, hout, hparse⟩ := h backslash true
  obtain rfl : "\"a\":\"\\\"".toList = out := some.inj hout
  cases hparse

end CompoundToJson
