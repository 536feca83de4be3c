import OrionLd.CompoundToJson
import Mathlib.Data.Char
import Mathlib.Data.List.Lex
import Mathlib.Data.List.Sort

/-! The macros of the URL, the headers and the payload of a custom notification. They are counted
in the template, but each is looked for in the text where those before it are replaced already. -/
namespace MacroSubstitute

open List
open KjTree (Text)
open MongoLocation (ValueType)
open CompoundTree (Node)
open CompoundToJson
open CompoundToJson.Node (asContainer)
open Strtod (cString)

structure ContextAttribute where
  name : Text
  valueType : ValueType
  stringValue : Text
  numberValue : ℚ
  boolValue : Bool
  compoundValueP : Option Node

structure ContextElement where
  id : Text
  type : Text
  contextAttributeVector : List ContextAttribute

-- What toString makes of a number that is not in the range of a long long.
variable (undefined : Text)

def compoundJson (root : Node) : Text :=
  (toJson (asContainer root) true root).getD undefined

def valueText (ca : ContextAttribute) : Text :=
  match ca.valueType with
  | .string => ca.stringValue
  | .number => (CompoundToJson.toString ca.numberValue).getD undefined
  | .boolean => if ca.boolValue then "true".toList else "false".toList
  | .null => "null".toList
  | .notGiven => []
  | .object | .vector =>
    match ca.compoundValueP with
    | none => []
    | some root =>
      match root.fields.valueType with
      | .vector => inBrackets (compoundJson undefined root)
      | .object => inBraces (compoundJson undefined root)
      | _ => []

def attributeValue (vec : List ContextAttribute) (attrName : Text) : Text :=
  match vec.find? (·.name = attrName) with
  | none => []
  | some ca => valueText undefined ca

def macroValue (ce : ContextElement) (macroName : Text) : Text :=
  if macroName = "id".toList then ce.id
  else if macroName = "type".toList then ce.type
  else attributeValue undefined ce.contextAttributeVector (cString macroName)

inductive Part where
  | text (c : Char)
  | named (macroName : Text)

/-- The searches of "${" and of "}" from left to right; what is in a macro is passed along. -/
def scan : Option Text → Text → Option (List Part)
  | none, [] => some []
  | some _, [] => none
  | none, '$' :: '{' :: text => scan (some []) text
  | none, c :: text => (scan none text).map (.text c :: ·)
  | some name, c :: text =>
    if c = '}' then (scan none text).map (.named name :: ·) else scan (some (name ++ [c])) text

def names (parts : List Part) : List Text :=
  parts.filterMap fun
    | .text _ => none
    | .named name => some name

def macroNames (parts : List Part) : List Text := (names parts).insertionSort (· ≤ ·)

def macroText (name : Text) : Text := '$' :: '{' :: (name ++ ['}'])

def find (pattern : Text) : Text → Option ℕ
  | [] => none
  | c :: text => if pattern <+: c :: text then some 0 else (find pattern text).map (· + 1)

/-- None where the macro is not found, and replace throws. -/
def replace (value : Text → Text) (text name : Text) : Option Text :=
  (find (macroText name) text).map fun ix =>
    text.take ix ++ (value name ++ text.drop (ix + (macroText name).length))

def MAX_DYN_MSG_SIZE : ℕ := 8 * 1024 * 1024

def macroSubstitute (undefined : Text) (template : Text) (ce : ContextElement) :
    Option (Bool × Text) :=
  if MAX_DYN_MSG_SIZE < template.length then some (false, [])
  else
    match scan none template with
    | none => some (false, [])
    | some parts =>
      let toReduce := ((macroNames parts).map fun name => name.length + 3).sum
      let toAdd := ((macroNames parts).map fun name => (macroValue undefined ce name).length).sum
      if MAX_DYN_MSG_SIZE < template.length + toAdd - toReduce then some (false, [])
      else ((macroNames parts).foldlM (replace (macroValue undefined ce)) template).map (true, ·)

def render (value : Text → Text) (parts : List Part) : Text :=
  parts.flatMap fun
    | .text c => [c]
    | .named name => value name

def Simultaneous (undefined template : Text) (ce : ContextElement) : Prop :=
  macroSubstitute undefined template ce = some (match scan none template with
    | none => (false, [])
    | some parts =>
      let text := render (macroValue undefined ce) parts
      if MAX_DYN_MSG_SIZE < text.length then (false, []) else (true, text))

def before (name : Text) : List Part → List Part
  | [] => []
  | .named name' :: parts => if name' = name then [] else .named name' :: before name parts
  | part :: parts => part :: before name parts

def substitute (value : Text → Text) (name : Text) : List Part → List Part
  | [] => []
  | .named name' :: parts =>
    if name' = name then (value name).map .text ++ parts
    else .named name' :: substitute value name parts
  | part :: parts => part :: substitute value name parts

/-- With those before it in the order replaced, the text of each macro stands nowhere before its
first macro. -/
def EachFound (value : Text → Text) : List Part → List Text → Prop
  | _, [] => True
  | parts, name :: rest =>
    find (macroText name) (render macroText parts) =
        some (render macroText (before name parts)).length ∧
      EachFound value (substitute value name parts) rest

variable {value : Text → Text} {parts : List Part} {name : Text}

theorem render_append (parts more : List Part) :
    render value (parts ++ more) = render value parts ++ render value more :=
  flatMap_append

theorem render_text (text : Text) : render value (text.map .text) = text := by
  unfold render
  rw [flatMap_map, flatMap_singleton']

theorem names_text (text : Text) : names (text.map .text) = [] := by
  unfold names
  rw [filterMap_map]
  exact filterMap_eq_nil_iff.mpr fun _ _ => rfl

theorem render_scan {text : Text} {inside : Option Text} (h : scan inside text = some parts) :
    render macroText parts = inside.elim text fun name => '$' :: '{' :: (name ++ text) := by
  fun_induction scan inside text generalizing parts with
  | case1 => cases h; rfl
  | case2 => cases h
  | case3 text ih => exact ih h
  | case4 c text hplain ih =>
    obtain ⟨parts, hparts, rfl⟩ := Option.map_eq_some_iff.mp h
    exact congrArg (c :: ·) (ih hparts)
  | case5 name text ih =>
    obtain ⟨parts, hparts, rfl⟩ := Option.map_eq_some_iff.mp h
    change macroText name ++ render macroText parts = _
    rw [ih hparts]
    simp [macroText]
  | case6 name c text hc ih =>
    rw [ih h]
    simp

theorem names_append (parts more : List Part) : names (parts ++ more) = names parts ++ names more :=
  filterMap_append

theorem parts_split (value : Text → Text) (h : name ∈ names parts) :
    ∃ behind, parts = before name parts ++ .named name :: behind ∧
      substitute value name parts = before name parts ++ ((value name).map .text ++ behind) := by
  fun_induction before name parts with
  | case1 => cases h
  | case2 parts => exact ⟨parts, rfl, if_pos rfl⟩
  | case3 name' parts hne ih =>
    have hmem : name ∈ names parts := (mem_cons.mp h).resolve_left (Ne.symm hne)
    obtain ⟨behind, hparts, hsubstitute⟩ := ih hmem
    refine ⟨behind, congrArg (_ :: ·) hparts, ?_⟩
    rw [substitute, if_neg hne, hsubstitute]
    rfl
  | case4 part parts hne ih =>
    cases part with
    | named name' => exact absurd rfl (hne name')
    | text c =>
      obtain ⟨behind, hparts, hsubstitute⟩ := ih h
      exact ⟨behind, congrArg (_ :: ·) hparts, congrArg (_ :: ·) hsubstitute⟩

variable (value) in
theorem render_substitute (h : name ∈ names parts) :
    render value (substitute value name parts) = render value parts := by
  obtain ⟨behind, hparts, hsubstitute⟩ := parts_split value h
  conv_rhs => rw [hparts]
  rw [hsubstitute, render_append, render_append, render_append, render_text]
  rfl

variable (value) in
theorem names_substitute (h : name ∈ names parts) :
    (names parts).Perm (name :: names (substitute value name parts)) := by
  obtain ⟨behind, hparts, hsubstitute⟩ := parts_split value h
  have hnames : names parts = names (before name parts) ++ name :: names behind := by
    conv_lhs => rw [hparts]
    exact names_append _ _
  rw [hnames, hsubstitute, names_append, names_append, names_text, nil_append]
  exact perm_middle

theorem replace_found (h : name ∈ names parts) (hfind : find (macroText name)
    (render macroText parts) = some (render macroText (before name parts)).length) :
    replace value (render macroText parts) name =
      some (render macroText (substitute value name parts)) := by
  obtain ⟨behind, hparts, hsubstitute⟩ := parts_split value h
  have htext : render macroText parts = render macroText (before name parts) ++
      (macroText name ++ render macroText behind) := by
    conv_lhs => rw [hparts]
    exact render_append _ _
  rw [replace, hfind, hsubstitute, render_append, render_append, render_text, htext]
  simp [drop_append]

theorem names_eq_nil (h : names parts = []) : render value parts = render macroText parts := by
  apply flatMap_congr
  intro part hpart
  cases part with
  | text c => rfl
  | named name =>
    have hnone := filterMap_eq_nil_iff.mp h _ hpart
    cases hnone

theorem all_replaced {todo : List Text} (hperm : todo.Perm (names parts))
    (h : EachFound value parts todo) :
    todo.foldlM (replace value) (render macroText parts) = some (render value parts) := by
  induction todo generalizing parts with
  | nil => exact congrArg some (names_eq_nil hperm.nil_eq.symm).symm
  | cons name todo ih =>
    have hmem : name ∈ names parts := hperm.subset mem_cons_self
    have hrest : todo.Perm (names (substitute value name parts)) :=
      List.Perm.cons_inv (hperm.trans (names_substitute value hmem))
    rw [foldlM_cons, replace_found hmem h.1, Option.bind_eq_bind, Option.bind_some,
      ih hrest h.2, render_substitute value hmem]

/-- What the sums of the size check are for. -/
theorem length_render : (render macroText parts).length +
      ((names parts).map fun name => (value name).length).sum =
    (render value parts).length + ((names parts).map fun name => name.length + 3).sum := by
  induction parts with
  | nil => rfl
  | cons part parts ih =>
    cases part with
    | text c =>
      change (render macroText parts).length + 1 +
          ((names parts).map fun name => (value name).length).sum =
        (render value parts).length + 1 + ((names parts).map fun name => name.length + 3).sum
      omega
    | named name =>
      change (macroText name ++ render macroText parts).length + ((value name).length +
          ((names parts).map fun name => (value name).length).sum) =
        (value name ++ render value parts).length + (name.length + 3 +
          ((names parts).map fun name => name.length + 3).sum)
      have hmacro : (macroText name).length = name.length + 3 := by simp [macroText]
      rw [length_append, length_append, hmacro]
      omega

/-- The substitution is simultaneous if every search finds the macro that it is for. -/
theorem substitution_simultaneous (undefined : Text) {template : Text} (ce : ContextElement)
    (hsize : template.length ≤ MAX_DYN_MSG_SIZE)
    (h : ∀ parts ∈ scan none template,
      (render (macroValue undefined ce) parts).length ≤ MAX_DYN_MSG_SIZE →
        EachFound (macroValue undefined ce) parts (macroNames parts)) :
    Simultaneous undefined template ce := by
  unfold Simultaneous macroSubstitute
  rw [if_neg (not_lt.mpr hsize)]
  cases hscan : scan none template with
  | none => rfl
  | some parts =>
    have hrender : render macroText parts = template := render_scan hscan
    have hperm : (macroNames parts).Perm (names parts) := perm_insertionSort _ _
    have hlength := @length_render (macroValue undefined ce) parts
    rw [hrender] at hlength
    simp only [(hperm.map _).sum_eq]
    by_cases hlarge : MAX_DYN_MSG_SIZE < (render (macroValue undefined ce) parts).length
    · rw [if_pos hlarge, if_pos (by omega)]
    have hreplaced := all_replaced hperm (h parts hscan (not_lt.mp hlarge))
    rw [hrender] at hreplaced
    rw [if_neg hlarge, if_neg (by omega), hreplaced]
    rfl

def stringAttribute (name value : String) : ContextAttribute :=
  ⟨name.toList, .string, value.toList, 0, false, none⟩

def entity (attributes : List ContextAttribute) : ContextElement := ⟨"E".toList, [], attributes⟩

/-- The text of a macro in the value of b comes behind the replacing of a. -/
theorem speed_simultaneous :
    Simultaneous [] "${a}, ${b}, ${b}".toList
      (entity [stringAttribute "a" "8", stringAttribute "b" "${a}"]) := by
  apply substitution_simultaneous
  · decide
  · rintro parts ⟨⟩ -
    exact ⟨rfl, rfl, rfl, trivial⟩

/-- The macro in the value of a is replaced, and not that of the template. -/
theorem macro_in_value_replaced : ¬ ∀ undefined template ce,
    template.length ≤ MAX_DYN_MSG_SIZE → Simultaneous undefined template ce := by
  intro h
  have hsimultaneous := h [] "${a}${b}".toList
    (entity [stringAttribute "a" "${b}", stringAttribute "b" "x"]) (by decide)
  unfold Simultaneous at hsimultaneous
  exact absurd hsimultaneous (by decide +kernel)

end MacroSubstitute
