import Mathlib.Algebra.BigOperators.Group.List.Basic
import Mathlib.Order.Lattice
import Mathlib.Data.List.Induction
import Mathlib.Data.List.Nodup

/-! A map that is kept in the order of its keys, over arbitrary keys and values.
An assignment takes the place of an earlier one for its key, so that of a list of pairs the
last of each key is left. -/
namespace OrderedMap

open List

variable {κ ν : Type*} [LinearOrder κ]

def assign (k : κ) (v : ν) : List (κ × ν) → List (κ × ν)
  | [] => [(k, v)]
  | e :: es =>
    if k < e.1 then (k, v) :: e :: es
    else if e.1 < k then e :: assign k v es
    else (k, v) :: es

def adjust (k : κ) (init : ν) (f : ν → ν) : List (κ × ν) → List (κ × ν)
  | [] => [(k, f init)]
  | e :: es =>
    if k < e.1 then (k, f init) :: e :: es
    else if e.1 < k then e :: adjust k init f es
    else (k, f e.2) :: es

def assignAll (pairs : List (κ × ν)) : List (κ × ν) :=
  pairs.foldl (fun es p => assign p.1 p.2 es) []

def Sorted (es : List (κ × ν)) : Prop := es.Pairwise fun e e' => e.1 < e'.1

variable {k k' : κ} {v v' : ν} {es pairs : List (κ × ν)}
variable {e : κ × ν}

theorem mem_of_mem_adjust {init : ν} {f : ν → ν} (h : e ∈ adjust k init f es) :
    (∃ v, e = (k, f v) ∧ (v = init ∨ (k, v) ∈ es)) ∨ e ∈ es := by
  induction es with
  | nil => exact .inl ⟨init, mem_singleton.mp h, .inl rfl⟩
  | cons e' es ih =>
    unfold adjust at h
    split at h
    · exact (mem_cons.mp h).imp_left fun he => ⟨init, he, .inl rfl⟩
    rename_i hle
    split at h
    · rcases mem_cons.mp h with rfl | h
      · exact .inr mem_cons_self
      · exact (ih h).imp (fun ⟨v, he, hv⟩ => ⟨v, he, hv.imp_right (mem_cons_of_mem _)⟩)
          (mem_cons_of_mem _)
    · rename_i hge
      obtain rfl : k = e'.1 := le_antisymm (not_lt.mp hge) (not_lt.mp hle)
      exact (mem_cons.mp h).imp (fun he => ⟨e'.2, he, .inr mem_cons_self⟩) (mem_cons_of_mem _)

theorem sorted_adjust {init : ν} {f : ν → ν} (h : Sorted es) : Sorted (adjust k init f es) := by
  induction es with
  | nil => exact pairwise_singleton _ _
  | cons e es ih =>
    obtain ⟨hfirst, hrest⟩ := pairwise_cons.mp h
    unfold adjust
    split
    · rename_i hlt
      refine pairwise_cons.mpr ⟨?_, h⟩
      intro e' he'
      rcases mem_cons.mp he' with rfl | he'
      · exact hlt
      · exact lt_trans hlt (hfirst e' he')
    · rename_i hle
      split
      · rename_i hlt
        refine pairwise_cons.mpr ⟨?_, ih hrest⟩
        intro e' he'
        rcases mem_of_mem_adjust he' with ⟨v, rfl, -⟩ | he'
        · exact hlt
        · exact hfirst e' he'
      · rename_i hge
        obtain rfl : k = e.1 := le_antisymm (not_lt.mp hge) (not_lt.mp hle)
        exact pairwise_cons.mpr ⟨hfirst, hrest⟩

theorem assign_eq : assign k v es = adjust k v (fun _ => v) es := by
  induction es with
  | nil => rfl
  | cons e es ih => rw [assign, adjust, ih]

theorem mem_of_mem_assign (h : e ∈ assign k v es) : e = (k, v) ∨ e ∈ es := by
  rw [assign_eq] at h
  exact (mem_of_mem_adjust h).imp_left fun ⟨_, he, _⟩ => he

theorem assigned_mem : (k, v) ∈ assign k v es := by
  induction es with
  | nil => exact mem_singleton_self _
  | cons e es ih =>
    unfold assign
    split
    · exact mem_cons_self
    split
    · exact mem_cons_of_mem _ ih
    · exact mem_cons_self

theorem mem_assign_of_ne (h : e ∈ es) (hne : e.1 ≠ k) : e ∈ assign k v es := by
  induction es with
  | nil => cases h
  | cons e' es ih =>
    unfold assign
    split
    · exact mem_cons_of_mem _ h
    rename_i hle
    split
    · rcases mem_cons.mp h with rfl | h
      · exact mem_cons_self
      · exact mem_cons_of_mem _ (ih h)
    rename_i hge
    rcases mem_cons.mp h with rfl | h
    · exact absurd (le_antisymm (not_lt.mp hle) (not_lt.mp hge)) hne
    · exact mem_cons_of_mem _ h

theorem value_unique (h : Sorted es) (hv : (k, v) ∈ es) (hv' : (k, v') ∈ es) : v = v' := by
  induction es with
  | nil => cases hv
  | cons e es ih =>
    obtain ⟨hfirst, hrest⟩ := pairwise_cons.mp h
    rcases mem_cons.mp hv with rfl | hv
    · rcases mem_cons.mp hv' with hv' | hv'
      · exact (Prod.mk.inj hv').2.symm
      · exact absurd (hfirst _ hv') (lt_irrefl _)
    rcases mem_cons.mp hv' with hv' | hv'
    · have hlt := hfirst _ hv
      rw [← hv'] at hlt
      exact absurd hlt (lt_irrefl _)
    · exact ih hrest hv hv'

theorem assignAll_append (p : κ × ν) :
    assignAll (pairs ++ [p]) = assign p.1 p.2 (assignAll pairs) := by
  simp [assignAll]

theorem sorted_assignAll (pairs : List (κ × ν)) : Sorted (assignAll pairs) := by
  induction pairs using List.reverseRecOn with
  | nil => exact List.Pairwise.nil
  | append_singleton pairs p ih =>
    rw [assignAll_append]
    rw [assign_eq]
    exact sorted_adjust ih

theorem mem_of_mem_assignAll (h : e ∈ assignAll pairs) : e ∈ pairs := by
  induction pairs using List.reverseRecOn with
  | nil => exact h
  | append_singleton pairs p ih =>
    rw [assignAll_append] at h
    rcases mem_of_mem_assign h with rfl | h
    · exact mem_append_right _ (mem_singleton_self _)
    · exact mem_append_left _ (ih h)

theorem key_assigned (h : (k, v) ∈ pairs) : ∃ v', (k, v') ∈ assignAll pairs := by
  induction pairs using List.reverseRecOn with
  | nil => cases h
  | append_singleton pairs p ih =>
    rw [assignAll_append]
    by_cases hk : k = p.1
    · exact ⟨p.2, by rw [hk]; exact assigned_mem⟩
    rcases mem_append.mp h with h | h
    · obtain ⟨v', hv'⟩ := ih h
      exact ⟨v', mem_assign_of_ne hv' hk⟩
    · exact absurd (congrArg Prod.fst (mem_singleton.mp h)) hk

/-- The map has all the pairs if and only if no key has two values among them. -/
theorem all_assigned_iff :
    (∀ e, e ∈ assignAll pairs ↔ e ∈ pairs) ↔
      ∀ k v v', (k, v) ∈ pairs → (k, v') ∈ pairs → v = v' := by
  constructor
  · intro h k v v' hv hv'
    exact value_unique (sorted_assignAll pairs) ((h _).mpr hv) ((h _).mpr hv')
  · rintro h ⟨k, v⟩
    refine ⟨mem_of_mem_assignAll, ?_⟩
    intro hv
    obtain ⟨v', hv'⟩ := key_assigned hv
    rwa [h k v v' hv (mem_of_mem_assignAll hv')]

theorem assignAll_perm (h : (pairs.map Prod.fst).Nodup) : (assignAll pairs).Perm pairs := by
  have hnodup : (assignAll pairs).Nodup :=
    (sorted_assignAll pairs).imp fun hlt he => absurd (he ▸ hlt) (lt_irrefl _)
  rw [perm_ext_iff_of_nodup hnodup (List.Nodup.of_map Prod.fst h)]
  apply all_assigned_iff.mpr
  intro k v v' hv hv'
  have hsame := inj_on_of_nodup_map h hv hv' rfl
  exact (Prod.mk.inj hsame).2

section

theorem nodup_keys (h : Sorted es) : (es.map Prod.fst).Nodup :=
  pairwise_map.mpr (h.imp ne_of_lt)

variable {init : ν} {f : ν → ν} {M : Type*} [AddCommMonoid M] {g : κ → ν → M} {d : M}

def sumOver (g : κ → ν → M) (es : List (κ × ν)) : M := (es.map fun e => g e.1 e.2).sum

omit [LinearOrder κ] in
theorem sumOver_cons : sumOver g (e :: es) = g e.1 e.2 + sumOver g es := rfl

omit [LinearOrder κ] in
theorem sumOver_ite (c : Prop) [Decidable c] :
    sumOver (fun k v => if c then g k v else 0) es = if c then sumOver g es else 0 := by
  split
  · rfl
  · exact sum_eq_zero (forall_mem_map.mpr fun _ _ => rfl)

theorem sumOver_adjust (hinit : g k init = 0) (hf : ∀ v, g k (f v) = g k v + d) :
    sumOver g (adjust k init f es) = sumOver g es + d := by
  induction es with
  | nil =>
    change g k (f init) + 0 = 0 + d
    rw [hf, hinit, add_zero]
  | cons e es ih =>
    unfold adjust
    split
    · rw [sumOver_cons, hf, hinit, zero_add, add_comm]
    rename_i hle
    split
    · rw [sumOver_cons, sumOver_cons, ih, add_assoc]
    rename_i hge
    obtain rfl : k = e.1 := le_antisymm (not_lt.mp hge) (not_lt.mp hle)
    rw [sumOver_cons, sumOver_cons, hf, add_assoc, add_assoc, add_comm d]

theorem sumOver_key [BEq κ] [LawfulBEq κ] (h : Sorted es) (k : κ) [∀ k', Decidable (k' = k)]
    (w : ν → M) : sumOver (fun k' v => if k' = k then w v else 0) es = (es.lookup k).elim 0 w := by
  induction es with
  | nil => rfl
  | cons e es ih =>
    obtain ⟨hfirst, hrest⟩ := pairwise_cons.mp h
    rw [sumOver_cons, lookup_cons]
    by_cases hk : e.1 = k
    · have hnone : es.lookup k = none := by
        rw [lookup_eq_none_iff]
        intro e' he'
        exact bne_iff_ne.mpr fun heq => (hfirst e' he').ne (hk.trans heq)
      rw [if_pos hk, ih hrest, hnone, beq_iff_eq.mpr hk.symm]
      exact add_zero _
    · rw [if_neg hk, ih hrest, zero_add, beq_eq_false_iff_ne.mpr (Ne.symm hk)]

end

end OrderedMap
