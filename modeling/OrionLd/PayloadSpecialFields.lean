import OrionLd.KjTreeToContextAttribute
import OrionLd.LinkedChildren

/-! payloadParseAndExtractSpecialFields: @context and, for services that prefetch them, the entity's
id and type are taken out of the request tree. An object is a list of nodes linked by pointers, as
the parser leaves it, and the local kjNodeDecouple repairs only next pointers. -/
namespace PayloadSpecialFields

open KjTree
open KjTreeToContextAttribute (validInUri)
open LinkedChildren List Function

inductive Special where
  | payloadContextNode
  | payloadIdNode
  | payloadTypeNode
  deriving DecidableEq

structure ProblemDetails where
  title : String
  detail : String
  deriving DecidableEq

/-- Which special field a name is. Only services that prefetch them look for id and type. -/
def specialOf (idAndType : Bool) (name : Text) : Option Special :=
  if name == "@context".toList then some .payloadContextNode
  else if idAndType && (name == "id".toList || name == "@id".toList) then some .payloadIdNode
  else if idAndType && (name == "type".toList || name == "@type".toList) then
    some .payloadTypeNode
  else none

def duplicated : Special → ProblemDetails
  | .payloadContextNode => ⟨"Duplicated field", "@context"⟩
  | .payloadIdNode => ⟨"Duplicated field", "Entity:id"⟩
  | .payloadTypeNode => ⟨"Duplicated field", "Entity:type"⟩

/-- A name without colon is a short name if it need not be a URI. -/
def pcheckUri (uri : Text) (strict : Bool) : Bool :=
  if uri = [] then false
  else if uri.contains ':' then uri.all validInUri
  else !strict && !uri.contains ' '

def uriField (field name : String) (strict : Bool) : KjNode → Except ProblemDetails Unit
  | .string s => if pcheckUri s strict then .ok () else .error ⟨"Not a URI", name⟩
  | _ => .error ⟨"Not a JSON String", field⟩

def checkField : Special → KjNode → Except ProblemDetails Unit
  | .payloadContextNode, _ => .ok ()
  | .payloadIdNode, value => uriField "entity id" "id" true value
  | .payloadTypeNode, value => uriField "entity type" "type" false value

def isContextType : KjNode → Bool
  | .string _ => true
  | .array _ => true
  | .object _ => true
  | _ => false

/-- The request tree and the special fields found. Nodes are numbered. -/
structure State where
  links : Links ℕ
  special : Special → Option ℕ

abbrev Nodes := ℕ → Text × KjNode

/-- The loop of the services without prefetch takes the removed node as predecessor as well. -/
def extract (idAndType : Bool) (nodes : Nodes) :
    ℕ → State → Option ℕ → Option ℕ → Except ProblemDetails State
  | _, st, _, none => .ok st
  | 0, _, _, some _ => .error ⟨"endless tree", ""⟩
  | fuel + 1, st, prev, some attrNodeP =>
    match specialOf idAndType (nodes attrNodeP).1 with
    | none => extract idAndType nodes fuel st (some attrNodeP) (st.links.next attrNodeP)
    | some field =>
      if (st.special field).isSome then .error (duplicated field)
      else match checkField field (nodes attrNodeP).2 with
        | .error problem => .error problem
        | .ok _ =>
          extract idAndType nodes fuel
            ⟨st.links.decouple attrNodeP prev,
              Function.update st.special field (some attrNodeP)⟩
            (if idAndType then prev else some attrNodeP) (st.links.next attrNodeP)

/-- The parser's tree of so many children: one after the other, the last one at the end. -/
def parsed (children : ℕ) : Links ℕ where
  next i := if i + 1 < children then some (i + 1) else none
  container :=
    ⟨if children = 0 then none else some 0,
      if children = 0 then none else some (children - 1)⟩

def nodesOf (members : Members) : Nodes := fun i => members.getD i ([], .null)

def checkContext (nodes : Nodes) (st : State) : Except ProblemDetails State :=
  match st.special .payloadContextNode with
  | none => .ok st
  | some n =>
    if isContextType (nodes n).2 then .ok st
    else .error ⟨"Not a JSON Array nor Object nor a String", "@context"⟩

def extractSpecialFields (idAndType : Bool) (members : Members) :
    Except ProblemDetails State :=
  let links := parsed members.length
  match extract idAndType (nodesOf members) members.length ⟨links, fun _ => none⟩ none
      links.container.first with
  | .error problem => .error problem
  | .ok st => checkContext (nodesOf members) st

/-- The items of an array have no names and are all left in the tree. -/
def payloadParseAndExtractSpecialFields (idAndType : Bool) :
    KjNode → Except ProblemDetails State
  | .object members =>
    if members.isEmpty then .error ⟨"Invalid Payload Body", "Empty Object"⟩
    else extractSpecialFields idAndType members
  | .array items =>
    if items.isEmpty then .error ⟨"Invalid Payload Body", "Empty Array"⟩
    else .ok ⟨parsed items.length, fun _ => none⟩
  | _ => .error ⟨"Invalid Payload",
      "The payload data must be either a JSON Array or a JSON Object"⟩

/-! The loop, from any node on. -/

variable {idAndType : Bool} {nodes : Nodes} {fuel : ℕ} {st : State} {prev cur : Option ℕ}
  {done rest : List ℕ} {n : ℕ}

/-- The predecessor is right as long as a further field can still be taken out. -/
structure Walk (idAndType : Bool) (st : State) (prev cur : Option ℕ) (done rest : List ℕ) :
    Prop where
  reached : Segment st.links.next st.links.container.first done cur
  ahead : Segment st.links.next cur rest none
  nodup : (done ++ rest).Nodup
  behind : idAndType = true ∨ st.special .payloadContextNode = none → prev = done.getLast?

def isSpecial (idAndType : Bool) (name : Text) : Bool := (specialOf idAndType name).isSome

/-- What the loop has done when it is through. -/
structure Extracted (idAndType : Bool) (nodes : Nodes) (st : State) (done rest : List ℕ)
    (st' : State) : Prop where
  lists : st'.links.Lists (done ++ rest.filter fun n => !isSpecial idAndType (nodes n).1)
  last : st'.links.container.last = st.links.container.last
  special : ∀ field n, st'.special field = some n ↔ st.special field = some n ∨
    n ∈ rest ∧ specialOf idAndType (nodes n).1 = some field

/-- No special field twice, and each as it is to be. -/
structure Acceptable (idAndType : Bool) (nodes : Nodes) (special : Special → Option ℕ)
    (rest : List ℕ) : Prop where
  fields : ∀ n ∈ rest, ∀ field, specialOf idAndType (nodes n).1 = some field →
    special field = none ∧ checkField field (nodes n).2 = .ok ()
  once : rest.Pairwise fun a b => ∀ field, specialOf idAndType (nodes a).1 = some field →
    specialOf idAndType (nodes b).1 ≠ some field

variable {field : Special}

theorem specialOf_false {name : Text} (h : specialOf false name = some field) :
    field = .payloadContextNode := by
  unfold specialOf at h
  split at h
  · exact (Option.some.inj h).symm
  · simp at h

theorem Walk.keep (h : Walk idAndType st prev (some n) done (n :: rest)) :
    Walk idAndType st (some n) (st.links.next n) (done ++ [n]) rest where
  reached := segment_concat.mpr ⟨h.reached, rfl⟩
  ahead := h.ahead.2
  nodup := by simpa using h.nodup
  behind _ := List.getLast?_concat.symm

theorem Walk.remove (h : Walk idAndType st prev (some n) done (n :: rest))
    (hf : specialOf idAndType (nodes n).1 = some field) (hs : st.special field = none) :
    Walk idAndType ⟨st.links.decouple n prev, Function.update st.special field (some n)⟩
      (if idAndType then prev else some n) (st.links.next n) done rest := by
  have apart : (done ++ rest).Nodup := h.nodup.sublist ((sublist_cons_self n rest).append_left done)
  have right : prev = done.getLast? := by
    apply h.behind
    rcases idAndType with _ | _
    · rw [specialOf_false hf] at hs
      exact .inr hs
    · exact .inl rfl
  obtain ⟨before, after⟩ := Links.decouple_lists h.reached h.ahead.2 apart
  rw [← right] at before after
  refine ⟨before, after, apart, ?_⟩
  rcases idAndType with _ | _
  · rw [specialOf_false hf]
    simp
  · exact fun _ => right

variable {special : Special → Option ℕ}

theorem acceptable_skip (hf : specialOf idAndType (nodes n).1 = none) :
    Acceptable idAndType nodes special (n :: rest) ↔ Acceptable idAndType nodes special rest := by
  constructor
  · intro h
    exact ⟨fun m hm => h.fields m (mem_cons_of_mem _ hm), (pairwise_cons.mp h.once).2⟩
  · intro h
    refine ⟨fun m hm field ho => ?_, pairwise_cons.mpr ⟨fun m _ field ho => ?_, h.once⟩⟩
    · rcases mem_cons.mp hm with rfl | hm
      · rw [hf] at ho
        cases ho
      · exact h.fields m hm field ho
    · rw [hf] at ho
      cases ho

theorem acceptable_take (hf : specialOf idAndType (nodes n).1 = some field) :
    Acceptable idAndType nodes special (n :: rest) ↔
      (special field = none ∧ checkField field (nodes n).2 = .ok ()) ∧
        Acceptable idAndType nodes (Function.update special field (some n)) rest := by
  constructor
  · intro h
    obtain ⟨apart, once⟩ := pairwise_cons.mp h.once
    refine ⟨h.fields n mem_cons_self field hf, ⟨fun m hm other ho => ?_, once⟩⟩
    have hne : other ≠ field := fun e => apart m hm field hf (e ▸ ho)
    rw [update_of_ne hne]
    exact h.fields m (mem_cons_of_mem _ hm) other ho
  · rintro ⟨⟨free, checked⟩, h⟩
    have other_field : ∀ m ∈ rest, ∀ other, specialOf idAndType (nodes m).1 = some other →
        other ≠ field := by
      rintro m hm other ho rfl
      simpa using (h.fields m hm other ho).1
    refine ⟨fun m hm other ho => ?_, pairwise_cons.mpr ⟨fun m hm other ho => ?_, h.once⟩⟩
    · rcases mem_cons.mp hm with rfl | hm
      · obtain rfl : field = other := Option.some.inj (hf.symm.trans ho)
        exact ⟨free, checked⟩
      have hne := other_field m hm other ho
      have fields := h.fields m hm other ho
      rwa [update_of_ne hne] at fields
    · obtain rfl : field = other := Option.some.inj (hf.symm.trans ho)
      exact fun hm' => other_field m hm field hm' rfl

theorem extract_ok (walk : Walk idAndType st prev cur done rest) (hr : rest.length ≤ fuel)
    (h : Acceptable idAndType nodes st.special rest) :
    ∃ st', extract idAndType nodes fuel st prev cur = .ok st' ∧
      Extracted idAndType nodes st done rest st' := by
  induction rest generalizing fuel st prev cur done with
  | nil =>
    obtain rfl : cur = none := walk.ahead
    refine ⟨st, by rcases fuel with _ | fuel <;> rfl, ⟨?_, rfl, by simp⟩⟩
    rw [filter_nil, append_nil]
    exact walk.reached
  | cons n rest ih =>
    obtain ⟨rfl, -⟩ := walk.ahead
    rcases fuel with _ | fuel
    · simp at hr
    replace hr : rest.length ≤ fuel := Nat.le_of_succ_le_succ hr
    rcases hf : specialOf idAndType (nodes n).1 with _ | field
    · obtain ⟨st', he, lists, last, special⟩ := ih walk.keep hr ((acceptable_skip hf).mp h)
      refine ⟨st', by rw [extract, hf]; exact he, ?_, last, fun field m => ?_⟩
      · simpa [isSpecial, hf] using lists
      · rw [special, mem_cons]
        have notThis : m = n → specialOf idAndType (nodes m).1 ≠ some field := by
          rintro rfl
          simp [hf]
        tauto
    · obtain ⟨⟨free, checked⟩, hrest⟩ := (acceptable_take hf).mp h
      obtain ⟨st', he, lists, last, special⟩ := ih (walk.remove hf free) hr hrest
      refine ⟨st', ?_, ?_, ?_, fun other m => ?_⟩
      · rw [extract, hf]
        simp only [free, checked]
        exact he
      · simpa [isSpecial, hf] using lists
      · rw [last]
        exact Links.decouple_last prev
      · rw [special, mem_cons]
        by_cases ho : other = field
        · subst ho
          have apart : ∀ m ∈ rest, specialOf idAndType (nodes m).1 ≠ some other :=
            fun m hm hm' => by simpa using (hrest.fields m hm other hm').1
          have own : m = n → specialOf idAndType (nodes m).1 = some other := by
            rintro rfl
            exact hf
          have same : some n = some m ↔ m = n := by simp [eq_comm]
          simp only [update_self, free, same]
          tauto
        · have notThis : m = n → specialOf idAndType (nodes m).1 ≠ some other := by
            rintro rfl hm
            exact ho (Option.some.inj (hm.symm.trans hf))
          simp only [update_of_ne ho]
          tauto

theorem extract_refused (walk : Walk idAndType st prev cur done rest)
    (h : ¬ Acceptable idAndType nodes st.special rest) (st' : State) :
    extract idAndType nodes fuel st prev cur ≠ .ok st' := by
  induction rest generalizing fuel st prev cur done with
  | nil => exact absurd ⟨by simp, List.Pairwise.nil⟩ h
  | cons n rest ih =>
    obtain ⟨rfl, -⟩ := walk.ahead
    rcases fuel with _ | fuel
    · simp [extract]
    rcases hf : specialOf idAndType (nodes n).1 with _ | field
    · rw [extract, hf]
      exact ih walk.keep ((acceptable_skip hf).not.mp h)
    rw [extract, hf]
    rw [acceptable_take hf] at h
    rcases hs : st.special field with _ | m
    · rcases hc : checkField field (nodes n).2 with problem | u
      · simp [hs, hc]
      · simp only [hs, hc, Option.isSome_none, Bool.false_eq_true, if_false]
        exact ih (walk.remove hf hs) fun hrest => h ⟨⟨hs, hc⟩, hrest⟩
    · simp [hs]

/-! The whole function, on the members of an object. -/

variable {members : Members}

theorem segment_range (children : ℕ) : ∀ k m, m + k = children →
    Segment (parsed children).next (if m < children then some m else none)
      (List.range' m k) none := by
  intro k
  induction k with
  | zero =>
    intro m hm
    rw [if_neg (by omega)]
    rfl
  | succ k ih =>
    intro m hm
    rw [if_pos (by omega), List.range'_succ]
    exact ⟨rfl, ih (m + 1) (by omega)⟩

theorem parsed_wellFormed (children : ℕ) :
    (parsed children).WellFormed (List.range children) where
  lists := by
    have h := segment_range children children 0 (Nat.zero_add _)
    rw [← range_eq_range'] at h
    rcases children with _ | k
    · exact h
    · exact h
  last := by
    rcases children with _ | k
    · rfl
    · rw [range_succ, List.getLast?_concat]
      rfl
  nodup := nodup_range

theorem map_nodesOf (members : Members) :
    (List.range members.length).map (nodesOf members) = members := by
  apply ext_getElem
  · simp
  · intro i h₁ h₂
    simp [nodesOf, h₂]

def remaining (idAndType : Bool) (members : Members) : Members :=
  members.filter fun f => !isSpecial idAndType f.1

def AcceptedField (f : Text × KjNode) (field : Special) : Prop :=
  checkField field f.2 = .ok () ∧ (field = .payloadContextNode → isContextType f.2 = true)

structure AcceptedPayload (idAndType : Bool) (members : Members) : Prop where
  nonempty : members ≠ []
  fields : ∀ f ∈ members, ∀ field, specialOf idAndType f.1 = some field →
    AcceptedField f field
  once : members.Pairwise fun f g => ∀ field, specialOf idAndType f.1 = some field →
    specialOf idAndType g.1 ≠ some field

theorem AcceptedPayload.perm {members' : Members} (h : AcceptedPayload idAndType members)
    (hp : members'.Perm members) : AcceptedPayload idAndType members' where
  nonempty hn := h.nonempty (List.nil_perm.mp (hn ▸ hp))
  fields f hf := h.fields f (hp.subset hf)
  once := by
    apply (hp.pairwise_iff _).mpr h.once
    intro f g hfg field hg hf
    exact hfg field hf hg

theorem acceptable_iff :
    Acceptable idAndType (nodesOf members) (fun _ => none) (List.range members.length) ↔
      (∀ f ∈ members, ∀ field, specialOf idAndType f.1 = some field →
        checkField field f.2 = .ok ()) ∧
      members.Pairwise fun f g => ∀ field, specialOf idAndType f.1 = some field →
        specialOf idAndType g.1 ≠ some field := by
  have pairs := pairwise_map (f := nodesOf members) (l := List.range members.length)
    (R := fun f g => ∀ field, specialOf idAndType f.1 = some field →
      specialOf idAndType g.1 ≠ some field)
  have all := forall_mem_map (f := nodesOf members) (l := List.range members.length)
    (P := fun f => ∀ field, specialOf idAndType f.1 = some field → checkField field f.2 = .ok ())
  rw [map_nodesOf] at pairs all
  rw [pairs, all]
  constructor
  · exact fun h => ⟨fun n hn field hf => (h.fields n hn field hf).2, h.once⟩
  · exact fun h => ⟨fun n hn field hf => ⟨rfl, h.1 n hn field hf⟩, h.2⟩

def remainingNodes (idAndType : Bool) (members : Members) : List ℕ :=
  (List.range members.length).filter fun n => !isSpecial idAndType (nodesOf members n).1

theorem map_remainingNodes :
    (remainingNodes idAndType members).map (nodesOf members) = remaining idAndType members := by
  have h := filter_map (f := nodesOf members) (l := List.range members.length)
    (p := fun f => !isSpecial idAndType f.1)
  rw [map_nodesOf] at h
  exact h.symm

theorem checkContext_ok {st' : State} : checkContext nodes st = .ok st' ↔
    st' = st ∧ ∀ n, st.special .payloadContextNode = some n → isContextType (nodes n).2 = true := by
  unfold checkContext
  rcases hs : st.special .payloadContextNode with _ | n
  · constructor
    · exact fun h => ⟨(Except.ok.inj h).symm, fun n hn => by cases hn⟩
    · exact fun h => congrArg Except.ok h.1.symm
  dsimp only
  rcases hc : isContextType (nodes n).2 with _ | _
  · simp [hc]
  constructor
  · intro h
    refine ⟨(Except.ok.inj h).symm, fun m hm => ?_⟩
    rw [← Option.some.inj hm, hc]
  · exact fun h => congrArg Except.ok h.1.symm

theorem walk_start (idAndType : Bool) (children : ℕ) :
    Walk idAndType ⟨parsed children, fun _ => none⟩ none (parsed children).container.first []
      (List.range children) where
  reached := rfl
  ahead := (parsed_wellFormed children).lists
  nodup := (parsed_wellFormed children).nodup
  behind _ := rfl

theorem nodesOf_mem (h : n ∈ List.range members.length) : nodesOf members n ∈ members := by
  have hm : nodesOf members n ∈ (List.range members.length).map (nodesOf members) :=
    mem_map_of_mem h
  rwa [map_nodesOf] at hm

theorem object_ok (h : AcceptedPayload idAndType members) :
    ∃ st, payloadParseAndExtractSpecialFields idAndType (.object members) = .ok st ∧
      st.links.Lists (remainingNodes idAndType members) ∧
      st.links.container.last = (List.range members.length).getLast? := by
  have acceptable := acceptable_iff.mpr ⟨fun f hf field hs => (h.fields f hf field hs).1, h.once⟩
  obtain ⟨st, he, lists, last, special⟩ :=
    extract_ok (walk_start idAndType members.length) (by rw [length_range]) acceptable
  refine ⟨st, ?_, lists, last.trans (parsed_wellFormed members.length).last⟩
  have checked : checkContext (nodesOf members) st = .ok st := by
    refine checkContext_ok.mpr ⟨rfl, fun n hn => ?_⟩
    obtain ⟨hm, hf⟩ := ((special _ n).mp hn).resolve_left (by simp)
    exact (h.fields _ (nodesOf_mem hm) _ hf).2 rfl
  have nonempty : ¬ members.isEmpty = true := by simpa using h.nonempty
  rw [payloadParseAndExtractSpecialFields, if_neg nonempty, extractSpecialFields, he]
  exact checked

theorem object_refused (h : ¬ AcceptedPayload idAndType members) (st : State) :
    payloadParseAndExtractSpecialFields idAndType (.object members) ≠ .ok st := by
  intro ho
  rw [payloadParseAndExtractSpecialFields] at ho
  split at ho
  · cases ho
  rename_i nonempty
  rw [extractSpecialFields] at ho
  by_cases ha : Acceptable idAndType (nodesOf members) (fun _ => none) (List.range members.length)
  · obtain ⟨st', he, -, -, special⟩ :=
      extract_ok (walk_start idAndType members.length) (by rw [length_range]) ha
    rw [he] at ho
    obtain ⟨rfl, context⟩ := checkContext_ok.mp ho
    obtain ⟨fields, once⟩ := acceptable_iff.mp ha
    refine h ⟨by simpa using nonempty, fun f hf field hs => ⟨fields f hf field hs, ?_⟩, once⟩
    rintro rfl
    rw [← map_nodesOf members] at hf
    obtain ⟨n, hn, rfl⟩ := mem_map.mp hf
    exact context n ((special _ n).mpr (.inr ⟨hn, hs⟩))
  · rcases he : extract idAndType (nodesOf members) members.length
        ⟨parsed members.length, fun _ => none⟩ none
        (parsed members.length).container.first with problem | st'
    · rw [he] at ho
      cases ho
    · exact extract_refused (walk_start idAndType members.length) ha st' he

theorem success_iff : (∃ st,
    payloadParseAndExtractSpecialFields idAndType (.object members) = .ok st) ↔
      AcceptedPayload idAndType members := by
  constructor
  · rintro ⟨st, hs⟩
    by_contra h
    exact object_refused h st hs
  · intro h
    obtain ⟨st, hs, -⟩ := object_ok h
    exact ⟨st, hs⟩

/-- The remaining members in order, the last of them as last child, so that every node added later
is a member. -/
structure Sound (idAndType : Bool) (members : Members) (st : State) : Prop where
  tree : ∃ nodes, nodes.map (nodesOf members) = remaining idAndType members ∧
    st.links.Lists nodes ∧ st.links.container.last = nodes.getLast? ∧
    ∀ added, (nodes ++ added).Nodup → (added.foldl Links.add st.links).Lists (nodes ++ added)
  order : ∀ members', members'.Perm members → ∃ st' nodes',
    payloadParseAndExtractSpecialFields idAndType (.object members') = .ok st' ∧
    st'.links.Lists nodes' ∧ nodes'.map (nodesOf members') = remaining idAndType members' ∧
    (remaining idAndType members').Perm (remaining idAndType members)

theorem filter_getLast? {α : Type*} {p : α → Bool} {l : List α} :
    (l.filter p).getLast? = l.getLast? ↔ ∀ a ∈ l.getLast?, p a = true := by
  rcases l.eq_nil_or_concat with rfl | ⟨l, b, rfl⟩
  · simp
  rw [concat_eq_append, List.getLast?_concat, filter_append]
  rcases hb : p b with _ | _
  · constructor
    · intro h
      have hm : b ∈ l.filter p ++ [b].filter p := mem_of_getLast? h
      simp [hb] at hm
    · intro h
      exact absurd (h b rfl) (by simp [hb])
  · simp [hb]

theorem lastNode_remains :
    (remainingNodes idAndType members).getLast? = (List.range members.length).getLast? ↔
      ∀ f ∈ members.getLast?, isSpecial idAndType f.1 = false := by
  have last := List.getLast?_map (f := nodesOf members) (l := List.range members.length)
  rw [map_nodesOf] at last
  rw [remainingNodes, filter_getLast?, last]
  rcases (List.range members.length).getLast? with _ | n
  · simp
  · simp

theorem Sound.last_remains (sound : Sound idAndType members st)
    (hs : payloadParseAndExtractSpecialFields idAndType (.object members) = .ok st) :
    ∀ f ∈ members.getLast?, isSpecial idAndType f.1 = false := by
  obtain ⟨st', hs', lists, last⟩ := object_ok (success_iff.mp ⟨st, hs⟩)
  obtain rfl := Except.ok.inj (hs.symm.trans hs')
  obtain ⟨nodes, -, lists', last', -⟩ := sound.tree
  obtain rfl := lists.unique lists'
  exact lastNode_remains.mp (last'.symm.trans last)

theorem request_tree_sound_iff (idAndType : Bool) (members : Members) :
    (∀ st, payloadParseAndExtractSpecialFields idAndType (.object members) = .ok st →
      Sound idAndType members st) ↔
    (AcceptedPayload idAndType members →
      ∀ f ∈ members.getLast?, isSpecial idAndType f.1 = false) := by
  constructor
  · intro sound accepted
    obtain ⟨st, hs⟩ := success_iff.mpr accepted
    exact (sound st hs).last_remains hs
  · intro h st hs
    have accepted : AcceptedPayload idAndType members := success_iff.mp ⟨st, hs⟩
    obtain ⟨st', hs', lists, last⟩ := object_ok accepted
    obtain rfl := Except.ok.inj (hs.symm.trans hs')
    have wellFormed : st.links.WellFormed (remainingNodes idAndType members) :=
      ⟨lists, last.trans (lastNode_remains.mpr (h accepted)).symm, nodup_range.filter _⟩
    refine ⟨⟨_, map_remainingNodes, lists, wellFormed.last, fun added ha => ?_⟩, ?_⟩
    · exact (wellFormed.addAll ha).lists
    · intro members' hp
      obtain ⟨st', hs', lists', -⟩ := object_ok (accepted.perm hp)
      exact ⟨st', _, hs', lists', map_remainingNodes, hp.filter _⟩

def contextLast : Members := [("P".toList, .int 1), ("@context".toList, .string "c".toList)]

theorem contextLast_accepted : AcceptedPayload false contextLast where
  nonempty := by decide
  fields f hf field hs := by
    have plain : specialOf false "P".toList = none := by decide +kernel
    rcases mem_cons.mp hf with rfl | hf
    · rw [plain] at hs
      cases hs
    obtain rfl := mem_singleton.mp hf
    obtain rfl := specialOf_false hs
    exact ⟨rfl, fun _ => rfl⟩
  once := by
    have plain : specialOf false "P".toList = none := by decide +kernel
    refine pairwise_cons.mpr ⟨fun g _ field hs => ?_, pairwise_singleton _ _⟩
    cases hs

theorem added_after_context_lost : ¬ ∀ idAndType members st,
    payloadParseAndExtractSpecialFields idAndType (.object members) = .ok st →
      Sound idAndType members st := by
  intro h
  obtain ⟨st, hs⟩ := success_iff.mpr contextLast_accepted
  have remains := (h false contextLast st hs).last_remains hs
  exact absurd (remains _ rfl) (by decide +kernel)

end PayloadSpecialFields
