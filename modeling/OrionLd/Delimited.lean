import Mathlib.Data.List.Basic

/-! Lists that are split at a delimiter, and put together again with it. -/
namespace Delimited

open List

variable {α : Type} {d : α} {x s : List α} {xs : List (List α)}

def join (d : α) (x : List α) (xs : List (List α)) : List α := x ++ xs.flatMap (d :: ·)

theorem join_cons (d : α) (x y : List α) (ys : List (List α)) :
    join d x (y :: ys) = x ++ d :: join d y ys := by
  simp [join]

theorem join_nil (d : α) (x : List α) : join d x [] = x := List.append_nil x

theorem cons_join (c d : α) (x : List α) (xs : List (List α)) :
    c :: join d x xs = join d (c :: x) xs := rfl

theorem mem_join {c : α} (hc : c ≠ d) : c ∈ join d x xs ↔ ∃ t ∈ x :: xs, c ∈ t := by
  simp [join, hc]

theorem append_unique {a b t : List α} (ha : d ∉ a) (hb : d ∉ b) (hs : ∀ c ∈ s.head?, c = d)
    (ht : ∀ c ∈ t.head?, c = d) (h : a ++ s = b ++ t) : a = b := by
  induction a generalizing b with
  | nil =>
    cases b with
    | nil => rfl
    | cons c b =>
      rw [nil_append] at h
      obtain rfl := hs c (by rw [h]; rfl)
      exact absurd mem_cons_self hb
  | cons c a ih =>
    cases b with
    | nil =>
      rw [nil_append] at h
      obtain rfl := ht c (by rw [← h]; rfl)
      exact absurd mem_cons_self ha
    | cons e b =>
      obtain ⟨rfl, hrest⟩ := cons.inj h
      rw [ih (not_mem_of_not_mem_cons ha) (not_mem_of_not_mem_cons hb) hrest]

variable [BEq α] [LawfulBEq α]

theorem splitOn_join (h : ∀ t ∈ x :: xs, d ∉ t) : (join d x xs).splitOn d = x :: xs := by
  induction xs generalizing x with
  | nil => rw [join_nil, splitOn_eq_singleton (h x mem_cons_self)]
  | cons y ys ih =>
    obtain ⟨hx, hys⟩ := forall_mem_cons.mp h
    rw [join_cons, splitOn_append_cons_self_of_not_mem hx, ih hys]

/-- The parts of a list are those without the delimiter that it is put together from. -/
theorem splitOn_iff : s.splitOn d = x :: xs ↔ (∀ t ∈ x :: xs, d ∉ t) ∧ s = join d x xs := by
  constructor
  · intro h
    induction s generalizing x xs with
    | nil =>
      obtain ⟨rfl, rfl⟩ : [] = x ∧ [] = xs := by simpa using h
      exact ⟨by simp, rfl⟩
    | cons c s ih =>
      rw [splitOn_cons_eq_if_modifyHead] at h
      cases hsplit : s.splitOn d with
      | nil => exact absurd hsplit (splitOn_ne_nil _ _)
      | cons y ys =>
        obtain ⟨hparts, rfl⟩ := ih hsplit
        rw [hsplit] at h
        split at h
        · rename_i hc
          obtain rfl := beq_iff_eq.mp hc
          cases h
          refine ⟨forall_mem_cons.mpr ⟨not_mem_nil, hparts⟩, ?_⟩
          rw [join_cons, nil_append]
        · rename_i hc
          cases h
          obtain ⟨hy, hys⟩ := forall_mem_cons.mp hparts
          refine ⟨forall_mem_cons.mpr ⟨?_, hys⟩, rfl⟩
          rw [mem_cons, not_or]
          exact ⟨fun heq => hc (beq_iff_eq.mpr heq.symm), hy⟩
  · rintro ⟨hparts, rfl⟩
    exact splitOn_join hparts

theorem notMem_of_mem_splitOn (h : x ∈ s.splitOn d) : d ∉ x := by
  cases hsplit : s.splitOn d with
  | nil => exact absurd hsplit (splitOn_ne_nil _ _)
  | cons y ys => exact (splitOn_iff.mp hsplit).1 x (hsplit ▸ h)

end Delimited
