import Mathlib.Data.List.Perm.Subperm
import OrionLd.FieldList

/-! Singly linked lists in a heap of nodes, over arbitrary addresses and items. A segment is what is
passed on the way from one pointer to another. -/
namespace LinkedChain

open FieldList List

variable {ι α : Type*} [DecidableEq ι]

structure Node (ι α : Type*) where
  item : α
  next : Option ι

abbrev Heap (ι α : Type*) := List (ι × Node ι α)

/-- From p the nodes of the list are passed, and then q is reached. -/
def Segment (heap : Heap ι α) : Option ι → List (ι × α) → Option ι → Prop
  | p, [], q => p = q
  | p, m :: ms, q =>
    p = some m.1 ∧ ∃ next, heap.lookup m.1 = some ⟨m.2, next⟩ ∧ Segment heap next ms q

variable {heap heap' : Heap ι α} {p q : Option ι} {a : ι} {x : α} {ms ms' : List (ι × α)}

@[simp] theorem segment_nil : Segment heap p [] q ↔ p = q := Iff.rfl

theorem segment_append : Segment heap p (ms ++ ms') q ↔
    ∃ r, Segment heap p ms r ∧ Segment heap r ms' q := by
  induction ms generalizing p with
  | nil => simp
  | cons m ms ih =>
    constructor
    · rintro ⟨hp, next, hnext, hrest⟩
      obtain ⟨r, hr, hrest⟩ := ih.mp hrest
      exact ⟨r, ⟨hp, next, hnext, hr⟩, hrest⟩
    · rintro ⟨r, ⟨hp, next, hnext, hr⟩, hrest⟩
      exact ⟨hp, next, hnext, ih.mpr ⟨r, hr, hrest⟩⟩

theorem Segment.congr (h : Segment heap p ms q)
    (hsame : ∀ m ∈ ms, heap'.lookup m.1 = heap.lookup m.1) : Segment heap' p ms q := by
  induction ms generalizing p with
  | nil => exact h
  | cons m ms ih =>
    obtain ⟨hp, next, hnext, hrest⟩ := h
    refine ⟨hp, next, (hsame m mem_cons_self).trans hnext, ih hrest ?_⟩
    intro m' hm'
    exact hsame m' (mem_cons_of_mem _ hm')

theorem Segment.put (h : Segment heap p ms q) (node : Node ι α) (ha : a ∉ ms.map Prod.fst) :
    Segment (put a node heap) p ms q := by
  refine h.congr fun m hm => lookup_put_of_ne ?_
  rintro rfl
  exact ha (mem_map_of_mem hm)

theorem Segment.remove (h : Segment heap p ms q) (ha : a ∉ ms.map Prod.fst) :
    Segment (remove [a] heap) p ms q := by
  refine h.congr fun m hm => lookup_remove_of_notMem ?_
  intro hmem
  rw [mem_singleton] at hmem
  exact ha (hmem ▸ mem_map_of_mem hm)

theorem Segment.link (h : Segment heap p ms (some a)) (ha : a ∉ ms.map Prod.fst) :
    Segment (FieldList.put a ⟨x, q⟩ heap) p (ms ++ [(a, x)]) q :=
  segment_append.mpr ⟨some a, h.put _ ha, rfl, q, lookup_put_self, rfl⟩

theorem Segment.allocated (h : Segment heap p ms q) {m : ι × α} (hm : m ∈ ms) :
    ∃ next, heap.lookup m.1 = some ⟨m.2, next⟩ := by
  induction ms generalizing p with
  | nil => cases hm
  | cons m' ms ih =>
    obtain ⟨-, next, hnext, hrest⟩ := h
    rcases mem_cons.mp hm with rfl | hm
    · exact ⟨next, hnext⟩
    · exact ih hrest hm

theorem Segment.fresh (h : Segment heap p ms q) (ha : heap.lookup a = none) :
    a ∉ ms.map Prod.fst := by
  intro hmem
  obtain ⟨m, hm, rfl⟩ := mem_map.mp hmem
  obtain ⟨next, hnext⟩ := h.allocated hm
  rw [ha] at hnext
  cases hnext

theorem Segment.length_le (h : Segment heap p ms q) (hnodup : (ms.map Prod.fst).Nodup) :
    ms.length ≤ heap.length := by
  have hkeys : (ms.map Prod.fst).length ≤ (heap.map Prod.fst).length := by
    refine (subperm_of_subset hnodup fun b hb => ?_).length_le
    obtain ⟨m, hm, rfl⟩ := mem_map.mp hb
    obtain ⟨next, hnext⟩ := h.allocated hm
    exact mem_map_of_mem (mem_of_lookup hnext)
  rwa [length_map, length_map] at hkeys

end LinkedChain
