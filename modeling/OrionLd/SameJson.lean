import OrionLd.MongoCppLegacyCodec
import Mathlib.Algebra.Order.BigOperators.Group.List
import Mathlib.Data.List.Nodup
import Mathlib.Tactic.Linarith

/-! Equality of JSON trees as values: the members of an object have no order, and an integer and a
double are the same number. -/
namespace SameJson

open KjTree MongoCppLegacyCodec List Option

def numberOf : KjNode → Option ℚ
  | .int i => some i
  | .float f => some f
  | _ => none

mutual
inductive Same : KjNode → KjNode → Prop
  | null : Same .null .null
  | bool (b : Bool) : Same (.bool b) (.bool b)
  | string (s : Text) : Same (.string s) (.string s)
  | number {x y : KjNode} {q : ℚ} : numberOf x = some q → numberOf y = some q → Same x y
  | array {xs ys : List KjNode} : SameItems xs ys → Same (.array xs) (.array ys)
  | object {xs ys zs : Members} : xs.Perm ys → SameMembers ys zs →
      Same (.object xs) (.object zs)
inductive SameItems : List KjNode → List KjNode → Prop
  | nil : SameItems [] []
  | cons {x y : KjNode} {xs ys : List KjNode} : Same x y → SameItems xs ys →
      SameItems (x :: xs) (y :: ys)
/-- Members with the same names one after the other. -/
inductive SameMembers : Members → Members → Prop
  | nil : SameMembers [] []
  | cons {n : Text} {x y : KjNode} {xs ys : Members} : Same x y → SameMembers xs ys →
      SameMembers ((n, x) :: xs) ((n, y) :: ys)
end

mutual
theorem Same.refl : ∀ node : KjNode, Same node node
  | .null => .null
  | .bool b => .bool b
  | .string s => .string s
  | .int _ => .number rfl rfl
  | .float _ => .number rfl rfl
  | .array items => .array (SameItems.refl items)
  | .object members => .object (List.Perm.refl members) (SameMembers.refl members)
theorem SameItems.refl : ∀ items : List KjNode, SameItems items items
  | [] => .nil
  | item :: items => .cons (Same.refl item) (SameItems.refl items)
theorem SameMembers.refl : ∀ members : Members, SameMembers members members
  | [] => .nil
  | (_, node) :: members => .cons (Same.refl node) (SameMembers.refl members)
end

variable {s : Text} {node x : KjNode} {xs zs : Members} {ys : List KjNode}
variable {R : KjNode → KjNode → Prop}

theorem same_string_left : Same (.string s) node ↔ node = .string s := by
  constructor
  · intro h
    cases h with
    | string => rfl
    | number hs => cases hs
  · rintro rfl
    exact .string s

theorem same_string_right : Same node (.string s) ↔ node = .string s := by
  constructor
  · intro h
    cases h with
    | string => rfl
    | number _ hs => cases hs
  · rintro rfl
    exact .string s

theorem sameItems_iff {xs : List KjNode} : SameItems xs ys ↔ List.Forall₂ Same xs ys := by
  induction xs generalizing ys with
  | nil =>
    constructor
    · intro h
      cases h
      exact .nil
    · intro h
      cases h
      exact .nil
  | cons x xs ih =>
    constructor
    · intro h
      cases h with
      | cons hx hxs => exact .cons hx (ih.mp hxs)
    · intro h
      cases h with
      | cons hx hxs => exact .cons hx (ih.mpr hxs)

theorem same_array_right :
    Same node (.array ys) ↔ ∃ xs, node = .array xs ∧ List.Forall₂ Same xs ys := by
  constructor
  · intro h
    cases h with
    | number _ hs => cases hs
    | array h => exact ⟨_, rfl, sameItems_iff.mp h⟩
  · rintro ⟨xs, rfl, h⟩
    exact .array (sameItems_iff.mpr h)

/-- The members of two objects, one for one up to their order. -/
def ObjectRel (R : KjNode → KjNode → Prop) (xs zs : Members) : Prop :=
  ∃ ys, xs.Perm ys ∧ List.Forall₂ (fun y z => y.1 = z.1 ∧ R y.2 z.2) ys zs

theorem sameMembers_iff :
    SameMembers xs zs ↔ List.Forall₂ (fun y z => y.1 = z.1 ∧ Same y.2 z.2) xs zs := by
  induction xs generalizing zs with
  | nil =>
    constructor
    · intro h
      cases h
      exact .nil
    · intro h
      cases h
      exact .nil
  | cons x xs ih =>
    constructor
    · intro h
      cases h with
      | cons hx hxs => exact .cons ⟨rfl, hx⟩ (ih.mp hxs)
    · intro h
      obtain ⟨n, x⟩ := x
      cases h with
      | @cons _ z _ zs hx hxs =>
        obtain ⟨rfl, hx⟩ := hx
        exact .cons hx (ih.mpr hxs)

theorem same_object_right :
    Same node (.object zs) ↔ ∃ xs, node = .object xs ∧ ObjectRel Same xs zs := by
  constructor
  · intro h
    cases h with
    | number _ hs => cases hs
    | object hperm h => exact ⟨_, rfl, _, hperm, sameMembers_iff.mp h⟩
  · rintro ⟨xs, rfl, ys, hperm, h⟩
    exact .object hperm (sameMembers_iff.mpr h)

theorem value_of_nodup {n : Text} {y : KjNode} (h : (xs.map Prod.fst).Nodup) (hx : (n, x) ∈ xs)
    (hy : (n, y) ∈ xs) : x = y := by
  have hsame := inj_on_of_nodup_map h hx hy rfl
  exact (Prod.mk.inj hsame).2

/-- Where no name is there twice, each member has its like, and there are no others. -/
theorem objectRel_iff (hxs : (xs.map Prod.fst).Nodup) (hzs : (zs.map Prod.fst).Nodup) :
    ObjectRel R xs zs ↔
      (∀ m ∈ xs, ∃ z, (m.1, z) ∈ zs ∧ R m.2 z) ∧ ∀ m ∈ zs, m.1 ∈ xs.map Prod.fst := by
  constructor
  · rintro ⟨ys, hperm, hall⟩
    have hboth : (∀ m ∈ ys, ∃ z, (m.1, z) ∈ zs ∧ R m.2 z) ∧ ys.map Prod.fst = zs.map Prod.fst := by
      clear hperm hzs
      induction hall with
      | nil => simp
      | @cons y z ys zs hyz _ ih =>
        obtain ⟨hname, hr⟩ := hyz
        refine ⟨?_, by simp [hname, ih.2]⟩
        rintro m (_ | ⟨_, hm⟩)
        · exact ⟨z.2, by simp [hname], hr⟩
        · obtain ⟨w, hw, hr'⟩ := ih.1 m hm
          exact ⟨w, mem_cons_of_mem _ hw, hr'⟩
    refine ⟨fun m hm => hboth.1 m (hperm.mem_iff.mp hm), ?_⟩
    intro m hm
    rw [(hperm.map Prod.fst).mem_iff, hboth.2]
    exact mem_map_of_mem hm
  · induction zs generalizing xs with
    | nil =>
      rintro ⟨hall, -⟩
      have hnil : xs = [] := by
        apply eq_nil_iff_forall_not_mem.mpr
        intro m hm
        obtain ⟨z, hz, -⟩ := hall m hm
        cases hz
      exact ⟨[], by rw [hnil], .nil⟩
    | cons w zs ih =>
      rintro ⟨hall, hnames⟩
      obtain ⟨n, w⟩ := w
      obtain ⟨hn, hzs'⟩ := nodup_cons.mp hzs
      obtain ⟨⟨n', x⟩, hx, rfl⟩ := mem_map.mp (hnames (n, w) mem_cons_self)
      obtain ⟨as, bs, rfl⟩ := append_of_mem hx
      have hmiddle : (as ++ (n', x) :: bs).Perm ((n', x) :: (as ++ bs)) := perm_middle
      have hnodup := ((hmiddle.map Prod.fst).nodup_iff).mp hxs
      obtain ⟨hfresh, hrest⟩ := nodup_cons.mp hnodup
      have hxw : R x w := by
        obtain ⟨z, hz, hr⟩ := hall (n', x) hx
        rcases mem_cons.mp hz with hz | hz
        · rw [← (Prod.mk.inj hz).2]
          exact hr
        · exact absurd (mem_map_of_mem hz) hn
      have hstep : (∀ m ∈ as ++ bs, ∃ z, (m.1, z) ∈ zs ∧ R m.2 z) ∧
          ∀ m ∈ zs, m.1 ∈ (as ++ bs).map Prod.fst := by
        constructor
        · intro m hm
          obtain ⟨z, hz, hr⟩ := hall m (hmiddle.mem_iff.mpr (mem_cons_of_mem _ hm))
          rcases mem_cons.mp hz with hz | hz
          · have hname : m.1 = n' := (Prod.mk.inj hz).1
            have hmem : m.1 ∈ (as ++ bs).map Prod.fst := mem_map_of_mem hm
            exact absurd (hname ▸ hmem) hfresh
          · exact ⟨z, hz, hr⟩
        · intro m hm
          have hmem := (hmiddle.map Prod.fst).mem_iff.mp (hnames m (mem_cons_of_mem _ hm))
          rcases mem_cons.mp hmem with hname | hmem
          · have hmem' : m.1 ∈ zs.map Prod.fst := mem_map_of_mem hm
            exact absurd (hname ▸ hmem') hn
          · exact hmem
      obtain ⟨ys, hperm, hrel⟩ := ih hrest hzs' hstep
      exact ⟨(n', x) :: ys, hmiddle.trans (hperm.cons _), .cons ⟨rfl, hxw⟩ hrel⟩

theorem same_string_iff {t : Text} : Same (.string s) (.string t) ↔ s = t := by
  rw [same_string_left]
  constructor
  · intro h
    exact (KjNode.string.inj h).symm
  · rintro rfl
    rfl

theorem objectRel_length (h : ObjectRel R xs zs) : xs.length = zs.length := by
  obtain ⟨ys, hperm, hall⟩ := h
  rw [hperm.length_eq, hall.length_eq]

theorem objectRel_names (h : ObjectRel R xs zs) : (xs.map Prod.fst).Perm (zs.map Prod.fst) := by
  obtain ⟨ys, hperm, hall⟩ := h
  have hnames : ys.map Prod.fst = zs.map Prod.fst := by
    clear hperm
    induction hall with
    | nil => rfl
    | cons hyz _ ih => simp [hyz.1, ih]
  exact hnames ▸ hperm.map Prod.fst

theorem objectRel_single_iff {a : Text} {x' : KjNode} :
    ObjectRel R [(a, x)] [(a, x')] ↔ R x x' := by
  constructor
  · rintro ⟨ys, hperm, hall⟩
    obtain rfl := perm_singleton.mp hperm.symm
    exact (forall₂_cons.mp hall).1.2
  · intro h
    exact ⟨[(a, x)], List.Perm.refl _, .cons ⟨rfl, h⟩ .nil⟩

theorem objectRel_perm {ys : Members} (h : xs.Perm ys) : ObjectRel R xs zs ↔ ObjectRel R ys zs := by
  constructor
  · rintro ⟨as, hperm, hall⟩
    exact ⟨as, h.symm.trans hperm, hall⟩
  · rintro ⟨as, hperm, hall⟩
    exact ⟨as, h.trans hperm, hall⟩

theorem objectRel_perm_right {ws : Members} (h : zs.Perm ws) (hrel : ObjectRel R xs zs) :
    ObjectRel R xs ws := by
  obtain ⟨ys, hperm, hall⟩ := hrel
  obtain ⟨us, hus, hperm'⟩ := perm_comp_forall₂ h.symm hall.flip
  exact ⟨us, hperm.trans hperm'.symm, hus.flip⟩

theorem objectRel_of_forall₂ (h : List.Forall₂ (fun x z => x.1 = z.1 ∧ R x.2 z.2) xs zs) :
    ObjectRel R xs zs :=
  ⟨xs, List.Perm.refl _, h⟩

theorem objectRel_append {xs' zs' : Members} (h : ObjectRel R xs zs) (h' : ObjectRel R xs' zs') :
    ObjectRel R (xs ++ xs') (zs ++ zs') := by
  obtain ⟨ys, hperm, hall⟩ := h
  obtain ⟨ys', hperm', hall'⟩ := h'
  exact ⟨ys ++ ys', hperm.append hperm', rel_append hall hall'⟩

theorem objectRel_refl (xs : Members) : ObjectRel Same xs xs :=
  objectRel_of_forall₂ (forall₂_same.mpr fun x _ => ⟨rfl, Same.refl x.2⟩)

theorem same_object_iff : Same (.object xs) (.object zs) ↔ ObjectRel Same xs zs := by
  rw [same_object_right]
  constructor
  · rintro ⟨ys, hys, h⟩
    obtain rfl := KjNode.object.inj hys
    exact h
  · exact fun h => ⟨xs, rfl, h⟩

theorem same_array_iff {xs : List KjNode} :
    Same (.array xs) (.array ys) ↔ List.Forall₂ Same xs ys := by
  rw [same_array_right]
  constructor
  · rintro ⟨zs, hzs, h⟩
    obtain rfl := KjNode.array.inj hzs
    exact h
  · exact fun h => ⟨xs, rfl, h⟩

theorem objectRel_value {n : Text} {z : KjNode} (h : ObjectRel R xs zs)
    (hxs : (xs.map Prod.fst).Nodup) (hx : (n, x) ∈ xs) (hz : (n, z) ∈ zs) : R x z := by
  have hzs : (zs.map Prod.fst).Nodup := (objectRel_names h).nodup_iff.mp hxs
  obtain ⟨z', hz', hr⟩ := ((objectRel_iff hxs hzs).mp h).1 _ hx
  rwa [value_of_nodup hzs hz hz']

/-- Every node counts, and a number by how far it is from -1/2. -/
def numberWeight (q : ℚ) : ℚ := 1 + |2 * q + 1|

mutual
def weight : KjNode → ℚ
  | .int i => numberWeight i
  | .float f => numberWeight f
  | .array items => 1 + itemsWeight items
  | .object members => 1 + membersWeight members
  | _ => 1
def itemsWeight : List KjNode → ℚ
  | [] => 0
  | item :: items => weight item + itemsWeight items
def membersWeight : Members → ℚ
  | [] => 0
  | (_, node) :: members => weight node + membersWeight members
end

theorem membersWeight_eq (members : Members) :
    membersWeight members = (members.map fun m => weight m.2).sum := by
  induction members with
  | nil => simp [membersWeight]
  | cons m members ih =>
    simp [membersWeight, ih]

theorem weight_of_number {q : ℚ} (h : numberOf node = some q) : weight node = numberWeight q := by
  cases node with
  | int i | float f =>
    cases h
    simp [weight]
  | _ => cases h

mutual
theorem Same.weight_eq : ∀ {x y : KjNode}, Same x y → weight x = weight y
  | _, _, .null => rfl
  | _, _, .bool _ => rfl
  | _, _, .string _ => rfl
  | _, _, .number hx hy => by rw [weight_of_number hx, weight_of_number hy]
  | _, _, .array h => by rw [weight, weight, h.weight_eq]
  | _, _, .object hperm h => by
    rw [weight, weight, ← h.weight_eq, membersWeight_eq, membersWeight_eq]
    rw [(hperm.map fun m => weight m.2).sum_eq]
theorem SameItems.weight_eq : ∀ {xs ys : List KjNode}, SameItems xs ys →
    itemsWeight xs = itemsWeight ys
  | _, _, .nil => rfl
  | _, _, .cons hx hxs => by rw [itemsWeight, itemsWeight, hx.weight_eq, hxs.weight_eq]
theorem SameMembers.weight_eq : ∀ {xs ys : Members}, SameMembers xs ys →
    membersWeight xs = membersWeight ys
  | _, _, .nil => rfl
  | _, _, .cons hx hxs => by rw [membersWeight, membersWeight, hx.weight_eq, hxs.weight_eq]
end

mutual
theorem weight_pos : ∀ node : KjNode, 0 < weight node
  | .null => by simp [weight]
  | .bool _ => by simp [weight]
  | .string _ => by simp [weight]
  | .int i => by
    have := abs_nonneg (2 * (i : ℚ) + 1)
    simp only [weight, numberWeight]
    linarith
  | .float f => by
    have := abs_nonneg (2 * f + 1)
    simp only [weight, numberWeight]
    linarith
  | .array items => by
    have := itemsWeight_nonneg items
    simp only [weight]
    linarith
  | .object members => by
    have := membersWeight_nonneg members
    simp only [weight]
    linarith
theorem itemsWeight_nonneg : ∀ items : List KjNode, 0 ≤ itemsWeight items
  | [] => by simp [itemsWeight]
  | item :: items => by
    have h₁ := weight_pos item
    have h₂ := itemsWeight_nonneg items
    simp only [itemsWeight]
    linarith
theorem membersWeight_nonneg : ∀ members : Members, 0 ≤ membersWeight members
  | [] => by simp [membersWeight]
  | (_, node) :: members => by
    have h₁ := weight_pos node
    have h₂ := membersWeight_nonneg members
    simp only [membersWeight]
    linarith
end

theorem cut_weight (i : ℤ) :
    numberWeight ((BitVec.ofInt 32 i).toInt : ℚ) ≤ numberWeight i ∧
      (numberWeight ((BitVec.ofInt 32 i).toInt : ℚ) = numberWeight i →
        -2 ^ 31 ≤ i ∧ i < 2 ^ 31) := by
  have hlow := Int.le_bmod (x := i) (m := 2 ^ 32) (by decide)
  have hhigh := Int.bmod_lt (x := i) (m := 2 ^ 32) (by decide)
  rw [BitVec.toInt_ofInt]
  by_cases hi : -2 ^ 31 ≤ i ∧ i < 2 ^ 31
  · rw [Int.bmod_eq_of_le (by omega) (by omega)]
    exact ⟨le_refl _, fun _ => hi⟩
  generalize i.bmod (2 ^ 32) = j at hlow hhigh
  have hless : |2 * j + 1| < |2 * i + 1| := by
    rcases abs_cases (2 * j + 1) with ⟨h₁, s₁⟩ | ⟨h₁, s₁⟩ <;>
      rcases abs_cases (2 * i + 1) with ⟨h₂, s₂⟩ | ⟨h₂, s₂⟩ <;> rw [h₁, h₂] <;> omega
  have hrat : numberWeight (j : ℚ) < numberWeight i := by
    have hcast : ((|2 * j + 1| : ℤ) : ℚ) < ((|2 * i + 1| : ℤ) : ℚ) := Int.cast_lt.mpr hless
    push_cast at hcast
    unfold numberWeight
    linarith
  exact ⟨le_of_lt hrat, fun h => absurd h (ne_of_lt hrat)⟩

mutual
theorem kept_weight (node : KjNode) : ∀ left, kept node = some left →
    weight left ≤ weight node ∧ (weight left = weight node → Lossless node) := by
  intro left h
  cases node with
  | null => cases h
  | bool b | string s | float f =>
    cases h
    exact ⟨le_refl _, fun _ => trivial⟩
  | int i =>
    cases h
    exact cut_weight i
  | array items =>
    cases h
    obtain ⟨hle, heq⟩ := items_kept_weight items
    simp only [weight, Lossless]
    exact ⟨by linarith, fun h => heq (by linarith)⟩
  | object members =>
    cases h
    obtain ⟨hle, heq⟩ := members_kept_weight members
    simp only [weight, Lossless]
    exact ⟨by linarith, fun h => heq (by linarith)⟩
theorem items_kept_weight (items : List KjNode) :
    itemsWeight (arrayToKjTree (kjTreeToBsonArray items)) ≤ itemsWeight items ∧
      (itemsWeight (arrayToKjTree (kjTreeToBsonArray items)) = itemsWeight items →
        LosslessItems items) := by
  cases items with
  | nil => exact ⟨le_refl _, fun _ => trivial⟩
  | cons item items =>
    obtain ⟨hle, heq⟩ := items_kept_weight items
    rw [array_cons]
    cases hk : kept item with
    | none =>
      have hpos := weight_pos item
      simp only [toList_none, nil_append, itemsWeight]
      exact ⟨by linarith, fun h => absurd h (by linarith)⟩
    | some left =>
      obtain ⟨hle', heq'⟩ := kept_weight item left hk
      simp only [toList_some, cons_append, nil_append, itemsWeight]
      exact ⟨by linarith, fun h => ⟨heq' (by linarith), heq (by linarith)⟩⟩
theorem members_kept_weight (members : Members) :
    membersWeight (objectToKjTree (kjTreeToBsonObject members)) ≤ membersWeight members ∧
      (membersWeight (objectToKjTree (kjTreeToBsonObject members)) = membersWeight members →
        LosslessMembers members) := by
  cases members with
  | nil => exact ⟨le_refl _, fun _ => trivial⟩
  | cons m members =>
    obtain ⟨name, node⟩ := m
    obtain ⟨hle, heq⟩ := members_kept_weight members
    rw [object_cons]
    cases hk : kept node with
    | none =>
      have hpos := weight_pos node
      simp only [map_none, toList_none, nil_append, membersWeight]
      exact ⟨by linarith, fun h => absurd h (by linarith)⟩
    | some left =>
      obtain ⟨hle', heq'⟩ := kept_weight node left hk
      simp only [map_some, toList_some, cons_append, nil_append, membersWeight]
      exact ⟨by linarith, fun h => ⟨heq' (by linarith), heq (by linarith)⟩⟩
end

/-- The codec gives the same value back if and only if it loses nothing. -/
theorem kept_same_iff (node : KjNode) :
    (∃ left, kept node = some left ∧ Same node left) ↔ Lossless node := by
  constructor
  · rintro ⟨left, hk, hsame⟩
    exact (kept_weight node left hk).2 hsame.weight_eq.symm
  · intro h
    exact ⟨node, (kept_iff node).mpr h, Same.refl node⟩

end SameJson
