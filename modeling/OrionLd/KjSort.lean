import OrionLd.SameJson
import Mathlib.Data.List.Lex
import Mathlib.Data.Char

/-! kjSort: the members of an object are put in the reverse order of their names, except for the
greatest name, which stays last. -/
namespace KjSort

open KjTree SameJson List Option

/-- strcmp compares bytes, which compare as the characters that they encode. -/
def strcmpPositive (a b : Text) : Bool := decide (b < a)

def maxLoop (maxIx : ℕ) (maxName : Text) : ℕ → Members → ℕ
  | _, [] => maxIx
  | ix, (name, _) :: members =>
    if strcmpPositive maxName name then maxLoop ix name (ix + 1) members
    else maxLoop maxIx maxName (ix + 1) members

def findMax : Members → ℕ
  | [] => 0
  | (name, _) :: members => maxLoop 0 name 1 members

/-- The members before startP and from it on. Where maxP is startP itself, the rest begins at the
next one. -/
def kjSortLoop : ℕ → Members → Members → Option Members
  | 0, _, _ => none
  | fuel + 1, front, rest =>
    let maxIx := findMax rest
    let front := rest[maxIx]?.toList ++ front
    let rest := rest.eraseIdx maxIx
    if rest.length ≤ 1 then some (front ++ rest) else kjSortLoop fuel front rest

mutual
def kjSort : KjNode → Option KjNode
  | .object members => do
    let sorted ← kjSortMembers members
    if sorted = [] then some (.object []) else
      (kjSortLoop sorted.length [] sorted).map KjNode.object
  | .array items => (kjSortItems items).map KjNode.array
  | node => some node
def kjSortItems : List KjNode → Option (List KjNode)
  | [] => some []
  | item :: items => do
    let item ← kjSort item
    let items ← kjSortItems items
    some (item :: items)
def kjSortMembers : Members → Option Members
  | [] => some []
  | (name, node) :: members => do
    let node ← kjSort node
    let members ← kjSortMembers members
    some ((name, node) :: members)
end

mutual
/-- Equal up to the order of the members of each object. -/
inductive Reordered : KjNode → KjNode → Prop
  | null : Reordered .null .null
  | bool (b : Bool) : Reordered (.bool b) (.bool b)
  | int (i : ℤ) : Reordered (.int i) (.int i)
  | float (f : ℚ) : Reordered (.float f) (.float f)
  | string (s : Text) : Reordered (.string s) (.string s)
  | array {xs ys : List KjNode} : ReorderedItems xs ys → Reordered (.array xs) (.array ys)
  | object {xs ys zs : Members} : xs.Perm ys → ReorderedMembers ys zs →
      Reordered (.object xs) (.object zs)
inductive ReorderedItems : List KjNode → List KjNode → Prop
  | nil : ReorderedItems [] []
  | cons {x y : KjNode} {xs ys : List KjNode} : Reordered x y → ReorderedItems xs ys →
      ReorderedItems (x :: xs) (y :: ys)
inductive ReorderedMembers : Members → Members → Prop
  | nil : ReorderedMembers [] []
  | cons {n : Text} {x y : KjNode} {xs ys : Members} : Reordered x y →
      ReorderedMembers xs ys → ReorderedMembers ((n, x) :: xs) ((n, y) :: ys)
end

mutual
def DistinctNames : KjNode → Prop
  | .array items => DistinctNamesItems items
  | .object members => (members.map Prod.fst).Nodup ∧ DistinctNamesMembers members
  | _ => True
def DistinctNamesItems : List KjNode → Prop
  | [] => True
  | item :: items => DistinctNames item ∧ DistinctNamesItems items
def DistinctNamesMembers : Members → Prop
  | [] => True
  | (_, node) :: members => DistinctNames node ∧ DistinctNamesMembers members
end

variable {front rest members members' r : Members} {fuel : ℕ}

/-- The loop ends with the first of the smallest names. -/
theorem maxLoop_least {passed : Members} {maxIx : ℕ} {maxName : Text}
    (hmax : (passed[maxIx]?).map Prod.fst = some maxName)
    (hleast : ∀ m ∈ passed, maxName ≤ m.1) (members : Members) :
    ∃ least, (passed ++ members)[maxLoop maxIx maxName passed.length members]? = some least ∧
      ∀ m ∈ passed ++ members, least.1 ≤ m.1 := by
  induction members generalizing passed maxIx maxName with
  | nil =>
    obtain ⟨least, hleastIx, rfl⟩ := map_eq_some_iff.mp hmax
    rw [append_nil]
    exact ⟨least, hleastIx, hleast⟩
  | cons m members ih =>
    obtain ⟨name, node⟩ := m
    rw [append_cons, maxLoop]
    have hlength : passed.length + 1 = (passed ++ [(name, node)]).length := by simp
    rw [hlength]
    split
    · rename_i hless
      have hname : name < maxName := of_decide_eq_true hless
      apply ih
      · rw [List.getElem?_concat_length]
        rfl
      · intro m hm
        rcases mem_append.mp hm with hm | hm
        · exact hname.le.trans (hleast m hm)
        · rw [mem_singleton.mp hm]
    · rename_i hless
      have hname : maxName ≤ name := not_lt.mp fun hlt => hless (decide_eq_true hlt)
      apply ih
      · obtain ⟨least, hleastIx, hfst⟩ := map_eq_some_iff.mp hmax
        rw [List.getElem?_append_left (List.getElem?_eq_some_iff.mp hleastIx).1, hleastIx,
          map_some, hfst]
      · intro m hm
        rcases mem_append.mp hm with hm | hm
        · exact hleast m hm
        · rw [mem_singleton.mp hm]
          exact hname

theorem findMax_least (h : rest ≠ []) :
    ∃ least, rest[findMax rest]? = some least ∧ ∀ m ∈ rest, least.1 ≤ m.1 := by
  cases rest with
  | nil => exact absurd rfl h
  | cons startP after =>
    obtain ⟨name, node⟩ := startP
    have hself : ([(name, node)] : Members)[0]?.map Prod.fst = some name := rfl
    refine maxLoop_least hself ?_ after
    intro m hm
    rw [mem_singleton.mp hm]

theorem round_cases (h : rest ≠ []) : ∃ least, rest[findMax rest]? = some least ∧
    (least :: rest.eraseIdx (findMax rest)).Perm rest ∧
      (rest.eraseIdx (findMax rest)).length + 1 = rest.length ∧ ∀ m ∈ rest, least.1 ≤ m.1 := by
  obtain ⟨least, hix, hleast⟩ := findMax_least h
  obtain ⟨hlt, hget⟩ := List.getElem?_eq_some_iff.mp hix
  refine ⟨least, hix, ?_, ?_, hleast⟩
  · rw [← hget]
    exact getElem_cons_eraseIdx_perm hlt
  · rw [length_eraseIdx_add_one hlt]

variable (front) in
theorem kjSortLoop_returns (hfuel : rest.length ≤ fuel) (h : rest ≠ []) :
    ∃ r, kjSortLoop fuel front rest = some r ∧ r.Perm (front ++ rest) := by
  induction fuel generalizing front rest with
  | zero => exact absurd (eq_nil_of_length_eq_zero (Nat.le_zero.mp hfuel)) h
  | succ fuel ih =>
    obtain ⟨least, hix, hperm, hlength, -⟩ := round_cases h
    have hmoved : (least :: front ++ rest.eraseIdx (findMax rest)).Perm (front ++ rest) :=
      (perm_middle.symm.trans (hperm.append_left front))
    simp only [kjSortLoop, hix, toList_some, singleton_append]
    split
    · exact ⟨_, rfl, hmoved⟩
    rename_i hmore
    have hne : rest.eraseIdx (findMax rest) ≠ [] := by
      intro hnil
      simp [hnil] at hmore
    obtain ⟨r, hr, hrperm⟩ := ih (least :: front) (by omega) hne
    exact ⟨r, hr, hrperm.trans hmoved⟩

/-- The greatest name last, and the others before it from the greater to the smaller. -/
def Arranged (members : Members) : Prop :=
  ∃ front last, members = front ++ [last] ∧
    (last :: front).Pairwise fun m n => n.1 < m.1

/-- What is in front descends, and is below what is left. -/
structure Selected (front rest : Members) : Prop where
  descends : front.Pairwise fun m n => n.1 < m.1
  below : ∀ m ∈ front, ∀ n ∈ rest, m.1 < n.1
  nodup : (rest.map Prod.fst).Nodup

theorem Selected.round (h : Selected front rest) {least : Text × KjNode} {left : Members}
    (hperm : (least :: left).Perm rest) (hleast : ∀ m ∈ rest, least.1 ≤ m.1) :
    Selected (least :: front) left := by
  have hmem : ∀ m, m ∈ least :: left → m ∈ rest := fun m hm => hperm.mem_iff.mp hm
  have hnodup : ((least :: left).map Prod.fst).Nodup := (hperm.map Prod.fst).nodup_iff.mpr h.nodup
  obtain ⟨hfresh, hleft⟩ := nodup_cons.mp hnodup
  constructor
  · refine pairwise_cons.mpr ⟨?_, h.descends⟩
    intro m hm
    exact h.below m hm least (hmem least mem_cons_self)
  · intro m hm n hn
    rcases mem_cons.mp hm with rfl | hm
    · refine lt_of_le_of_ne (hleast n (hmem n (mem_cons_of_mem _ hn))) fun he => hfresh ?_
      rw [he]
      exact mem_map_of_mem hn
    · exact h.below m hm n (hmem n (mem_cons_of_mem _ hn))
  · exact hleft

theorem Selected.arranged {last : Text × KjNode} (h : Selected front [last]) :
    Arranged (front ++ [last]) := by
  refine ⟨front, last, rfl, pairwise_cons.mpr ⟨?_, h.descends⟩⟩
  intro m hm
  exact h.below m hm last (mem_singleton_self last)

theorem kjSortLoop_arranged (h : Selected front rest) (htwo : 2 ≤ rest.length)
    (hr : kjSortLoop fuel front rest = some r) : Arranged r := by
  induction fuel generalizing front rest with
  | zero => cases hr
  | succ fuel ih =>
    have hne : rest ≠ [] := ne_nil_of_length_pos (by omega)
    obtain ⟨least, hix, hperm, hlength, hleast⟩ := round_cases hne
    have hround := h.round hperm hleast
    simp only [kjSortLoop, hix, toList_some, singleton_append] at hr
    split at hr
    · rename_i hone
      obtain ⟨last, hlast⟩ := length_eq_one_iff.mp (by omega :
        (rest.eraseIdx (findMax rest)).length = 1)
      rw [hlast] at hr hround
      rw [← some.inj hr]
      exact hround.arranged
    · exact ih hround (by omega) hr

theorem sortedChildren_arranged (h : (members.map Prod.fst).Nodup) (hne : members ≠ [])
    (hr : kjSortLoop members.length [] members = some r) : Arranged r := by
  rcases Nat.lt_or_ge members.length 2 with hshort | htwo
  · have hpos := length_pos_iff.mpr hne
    obtain ⟨m, rfl⟩ := length_eq_one_iff.mp (by omega : members.length = 1)
    obtain ⟨r', hr', hperm⟩ := kjSortLoop_returns [] (le_refl [m].length) hne
    rw [hr] at hr'
    rw [some.inj hr', perm_singleton.mp hperm]
    exact ⟨[], m, rfl, pairwise_singleton _ m⟩
  · exact kjSortLoop_arranged ⟨.nil, by simp, h⟩ htwo hr

theorem arranged_unique (hperm : members.Perm members') (h : Arranged members)
    (h' : Arranged members') : members = members' := by
  obtain ⟨front, last, rfl, hdescends⟩ := h
  obtain ⟨front', last', rfl, hdescends'⟩ := h'
  have hcons : (last :: front).Perm (last' :: front') :=
    (perm_append_singleton last front).symm.trans (hperm.trans (perm_append_singleton last' front'))
  have heq := hcons.eq_of_pairwise (fun m n _ _ hmn hnm => absurd hmn hnm.asymm)
    hdescends hdescends'
  cases heq
  rfl

def sorted (node : KjNode) : KjNode := (kjSort node).getD node

def sortedMembers (members : Members) : Members := members.map fun m => (m.1, sorted m.2)

mutual
theorem kjSort_returns : ∀ node, kjSort node = some (sorted node)
  | .null => rfl
  | .bool _ => rfl
  | .int _ => rfl
  | .float _ => rfl
  | .string _ => rfl
  | .array items => by
    rw [sorted, kjSort, kjSortItems_returns items]
    rfl
  | .object members => by
    have hreturns : ∃ node, kjSort (.object members) = some node := by
      rw [kjSort, kjSortMembers_returns members, bind_eq_bind, bind_some]
      split
      · exact ⟨_, rfl⟩
      rename_i hne
      obtain ⟨r, hr, -⟩ := kjSortLoop_returns [] le_rfl hne
      exact ⟨.object r, by rw [hr, map_some]⟩
    obtain ⟨node, hnode⟩ := hreturns
    rw [sorted, hnode, getD_some]
theorem kjSortItems_returns : ∀ items, kjSortItems items = some (items.map sorted)
  | [] => rfl
  | item :: items => by
    rw [kjSortItems, kjSort_returns item, kjSortItems_returns items]
    rfl
theorem kjSortMembers_returns : ∀ members, kjSortMembers members = some (sortedMembers members)
  | [] => rfl
  | (name, node) :: members => by
    rw [kjSortMembers, kjSort_returns node, kjSortMembers_returns members]
    rfl
end

theorem sorted_array (items : List KjNode) : sorted (.array items) = .array (items.map sorted) := by
  rw [sorted, kjSort, kjSortItems_returns]
  rfl

theorem sortedMembers_names (members : Members) :
    (sortedMembers members).map Prod.fst = members.map Prod.fst := by
  rw [sortedMembers, List.map_map]
  rfl

theorem sorted_object (members : Members) : ∃ r, sorted (.object members) = .object r ∧
    r.Perm (sortedMembers members) ∧
      ((members.map Prod.fst).Nodup → r = [] ∧ members = [] ∨ Arranged r) := by
  cases hmembers : members with
  | nil => exact ⟨[], rfl, .nil, fun _ => .inl ⟨rfl, rfl⟩⟩
  | cons m rest =>
    rw [← hmembers]
    have hne : sortedMembers members ≠ [] := by
      rw [sortedMembers, hmembers]
      exact cons_ne_nil _ _
    obtain ⟨r, hr, hperm⟩ := kjSortLoop_returns [] le_rfl hne
    refine ⟨r, ?_, hperm, ?_⟩
    · rw [sorted, kjSort, kjSortMembers_returns, bind_eq_bind, bind_some,
        if_neg hne, hr, map_some, getD_some]
    · intro hnodup
      rw [← sortedMembers_names] at hnodup
      exact .inr (sortedChildren_arranged hnodup hne hr)

def MemberRel (R : KjNode → KjNode → Prop) (m n : Text × KjNode) : Prop := m.1 = n.1 ∧ R m.2 n.2

theorem reorderedMembers_iff {xs ys : Members} :
    ReorderedMembers xs ys ↔ List.Forall₂ (MemberRel Reordered) xs ys := by
  constructor
  · intro h
    induction xs generalizing ys with
    | nil =>
      cases h
      exact .nil
    | cons x xs ih =>
      cases h with
      | cons hx hxs => exact .cons ⟨rfl, hx⟩ (ih hxs)
  · intro h
    induction h with
    | nil => exact .nil
    | @cons x y _ _ hx _ ih =>
      obtain ⟨n, x⟩ := x
      obtain ⟨rfl, hx⟩ := hx
      exact .cons hx ih

theorem reordered_object_iff {xs zs : Members} : Reordered (.object xs) (.object zs) ↔
    ∃ ys, xs.Perm ys ∧ List.Forall₂ (MemberRel Reordered) ys zs := by
  constructor
  · intro h
    cases h with
    | object hperm h => exact ⟨_, hperm, reorderedMembers_iff.mp h⟩
  · rintro ⟨ys, hperm, h⟩
    exact .object hperm (reorderedMembers_iff.mpr h)

theorem forall₂_perm {α β : Type*} {R : α → β → Prop} {xs : List α} {ys zs : List β}
    (h : List.Forall₂ R xs ys) (hperm : ys.Perm zs) : ∃ ws, xs.Perm ws ∧ List.Forall₂ R ws zs := by
  obtain ⟨ws, hflip, hws⟩ := perm_comp_forall₂ hperm.symm h.flip
  exact ⟨ws, hws.symm, hflip.flip⟩

mutual
theorem reordered_sorted : ∀ node, Reordered node (sorted node)
  | .null => .null
  | .bool b => .bool b
  | .int i => .int i
  | .float f => .float f
  | .string s => .string s
  | .array items => by
    rw [sorted_array]
    exact .array (reordered_sortedItems items)
  | .object members => by
    obtain ⟨r, hr, hperm, -⟩ := sorted_object members
    rw [hr]
    have hmembers := reorderedMembers_iff.mp (reordered_sortedMembers members)
    obtain ⟨ys, hys, hall⟩ := forall₂_perm hmembers hperm.symm
    exact reordered_object_iff.mpr ⟨ys, hys, hall⟩
theorem reordered_sortedItems : ∀ items, ReorderedItems items (items.map sorted)
  | [] => .nil
  | item :: items => .cons (reordered_sorted item) (reordered_sortedItems items)
theorem reordered_sortedMembers : ∀ members, ReorderedMembers members (sortedMembers members)
  | [] => .nil
  | (_, node) :: members => .cons (reordered_sorted node) (reordered_sortedMembers members)
end

mutual
theorem reordered_join : ∀ {a b c : KjNode}, Reordered a c → Reordered b c → Reordered a b
  | _, _, .null, h, h' => by cases h; cases h'; exact .null
  | _, _, .bool _, h, h' => by cases h; cases h'; exact .bool _
  | _, _, .int _, h, h' => by cases h; cases h'; exact .int _
  | _, _, .float _, h, h' => by cases h; cases h'; exact .float _
  | _, _, .string _, h, h' => by cases h; cases h'; exact .string _
  | _, _, .array items, h, h' => by
    cases h with
    | array h =>
    cases h' with
    | array h' => exact .array (reordered_joinItems h h')
  | _, _, .object members, h, h' => by
    cases h with
    | @object xs ys _ hperm h =>
    cases h' with
    | @object xs' ys' _ hperm' h' =>
    have hjoined := reorderedMembers_iff.mp (reordered_joinMembers h h')
    obtain ⟨ws, hws, hall⟩ := forall₂_perm hjoined hperm'.symm
    exact reordered_object_iff.mpr ⟨ws, hperm.trans hws, hall⟩
theorem reordered_joinItems : ∀ {xs ys zs : List KjNode},
    ReorderedItems xs zs → ReorderedItems ys zs → ReorderedItems xs ys
  | _, _, [], h, h' => by cases h; cases h'; exact .nil
  | _, _, _ :: _, h, h' => by
    cases h with
    | cons hx hxs =>
    cases h' with
    | cons hy hys => exact .cons (reordered_join hx hy) (reordered_joinItems hxs hys)
theorem reordered_joinMembers : ∀ {xs ys zs : Members},
    ReorderedMembers xs zs → ReorderedMembers ys zs → ReorderedMembers xs ys
  | _, _, [], h, h' => by cases h; cases h'; exact .nil
  | _, _, (_, _) :: _, h, h' => by
    cases h with
    | cons hx hxs =>
    cases h' with
    | cons hy hys => exact .cons (reordered_join hx hy) (reordered_joinMembers hxs hys)
end

theorem distinctNamesMembers_iff :
    DistinctNamesMembers members ↔ ∀ m ∈ members, DistinctNames m.2 := by
  induction members with
  | nil => simp [DistinctNamesMembers]
  | cons m members ih => simp [DistinctNamesMembers, ih]

theorem memberRel_names {R : KjNode → KjNode → Prop} {xs ys : Members}
    (h : List.Forall₂ (MemberRel R) xs ys) : xs.map Prod.fst = ys.map Prod.fst := by
  induction h with
  | nil => rfl
  | cons hm _ ih => rw [map_cons, map_cons, hm.1, ih]

mutual
theorem sorted_eq : ∀ {a b : KjNode}, Reordered a b → DistinctNames a → sorted a = sorted b
  | _, .null, h, _ => by cases h; rfl
  | _, .bool _, h, _ => by cases h; rfl
  | _, .int _, h, _ => by cases h; rfl
  | _, .float _, h, _ => by cases h; rfl
  | _, .string _, h, _ => by cases h; rfl
  | _, .array items, h, hdistinct => by
    cases h with
    | array h =>
    rw [sorted_array, sorted_array, sorted_eqItems h hdistinct]
  | _, .object members, h, hdistinct => by
    cases h with
    | @object xs ys _ hperm h =>
    have hdistinct' : DistinctNamesMembers ys :=
      distinctNamesMembers_iff.mpr fun m hm =>
        distinctNamesMembers_iff.mp hdistinct.2 m (hperm.mem_iff.mpr hm)
    have hmembers : sortedMembers ys = sortedMembers members := sorted_eqMembers h hdistinct'
    have hnodup : (members.map Prod.fst).Nodup := by
      rw [← memberRel_names (reorderedMembers_iff.mp h)]
      exact (hperm.map Prod.fst).nodup_iff.mp hdistinct.1
    obtain ⟨r, hr, hrperm, harranged⟩ := sorted_object xs
    obtain ⟨r', hr', hrperm', harranged'⟩ := sorted_object members
    have hsame : r.Perm r' := hrperm.trans
      ((hperm.map _).trans ((List.Perm.of_eq hmembers).trans hrperm'.symm))
    rw [hr, hr']
    rcases harranged hdistinct.1 with ⟨rfl, -⟩ | harranged
    · rw [nil_perm.mp hsame]
    rcases harranged' hnodup with ⟨rfl, -⟩ | harranged'
    · rw [perm_nil.mp hsame]
    · rw [arranged_unique hsame harranged harranged']
theorem sorted_eqItems : ∀ {xs ys : List KjNode},
    ReorderedItems xs ys → DistinctNamesItems xs → xs.map sorted = ys.map sorted
  | _, [], h, _ => by cases h; rfl
  | _, _ :: _, h, hdistinct => by
    cases h with
    | cons hx hxs =>
    rw [List.map_cons, List.map_cons, sorted_eq hx hdistinct.1, sorted_eqItems hxs hdistinct.2]
theorem sorted_eqMembers : ∀ {xs ys : Members},
    ReorderedMembers xs ys → DistinctNamesMembers xs → sortedMembers xs = sortedMembers ys
  | _, [], h, _ => by cases h; rfl
  | _, (_, _) :: _, h, hdistinct => by
    cases h with
    | cons hx hxs =>
    have hrest := sorted_eqMembers hxs hdistinct.2
    rw [sortedMembers] at hrest
    rw [sortedMembers, map_cons, hrest, sorted_eq hx hdistinct.1]
    rfl
end

theorem reordered_of_sorted_eq {a b : KjNode} (h : sorted a = sorted b) : Reordered a b := by
  have hb := reordered_sorted b
  rw [← h] at hb
  exact reordered_join (reordered_sorted a) hb

/-- Trees with different names in each object are sorted into the same tree exactly when they
are equal up to the order of the members. -/
theorem sorted_eq_iff {a b : KjNode} (ha : DistinctNames a) : sorted a = sorted b ↔ Reordered a b :=
  ⟨reordered_of_sorted_eq, fun h => sorted_eq h ha⟩

end KjSort
