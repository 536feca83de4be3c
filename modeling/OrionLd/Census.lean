import Mathlib.Algebra.Order.BigOperators.Group.Finset

/-! What all threads amount to together, over arbitrary threads and places. A place has a weight,
and but for finitely many of them the threads are at places of no weight. -/
namespace Census

variable {τ π : Type*} {w : π → ℕ} {pc : τ → π} {a a' b b' : ℕ} {t : τ} {p : π}

/-- With what the threads amount to, a makes b. -/
def Accounts (w : π → ℕ) (pc : τ → π) (a b : ℕ) : Prop :=
  ∃ ts : Finset τ, (∀ t ∉ ts, w (pc t) = 0) ∧ a + ∑ t ∈ ts, w (pc t) = b

theorem accounts_self (h : ∀ t, w (pc t) = 0) : Accounts w pc a a :=
  ⟨∅, fun t _ => h t, rfl⟩

theorem Accounts.eq (h : Accounts w pc a b) (hzero : ∀ t, w (pc t) = 0) : a = b := by
  obtain ⟨ts, -, rfl⟩ := h
  rw [Finset.sum_eq_zero fun t _ => hzero t, Nat.add_zero]

theorem Accounts.exists_of_ne (h : Accounts w pc a b) (hne : a ≠ b) : ∃ t, w (pc t) ≠ 0 := by
  by_contra hnone
  push Not at hnone
  exact hne (h.eq hnone)

variable [DecidableEq τ]

/-- One thread may go to another place, and the others stay where they are. -/
theorem Accounts.split (h : Accounts w pc a b) (t : τ) : ∃ m, b = a + w (pc t) + m ∧
    (∀ u, u ≠ t → w (pc u) ≤ m) ∧
      ∀ a' p, Accounts w (Function.update pc t p) a' (a' + w p + m) := by
  obtain ⟨ts, hout, hsum⟩ := h
  have hall : ∑ u ∈ insert t ts, w (pc u) = ∑ u ∈ ts, w (pc u) :=
    (Finset.sum_subset (Finset.subset_insert t ts) fun u _ hu => hout u hu).symm
  refine ⟨∑ u ∈ (insert t ts).erase t, w (pc u), ?_, ?_, ?_⟩
  · rw [add_assoc, Finset.add_sum_erase _ (fun u => w (pc u)) (Finset.mem_insert_self t ts), hall,
      hsum]
  · intro u hne
    by_cases hu : u ∈ ts
    · apply Finset.single_le_sum_of_canonicallyOrdered (f := fun u => w (pc u))
      exact Finset.mem_erase.mpr ⟨hne, Finset.mem_insert_of_mem hu⟩
    · rw [hout u hu]
      exact Nat.zero_le _
  · intro a' p
    refine ⟨insert t ts, ?_, ?_⟩
    · intro u hu
      rw [Finset.mem_insert, not_or] at hu
      rw [Function.update_of_ne hu.1]
      exact hout u hu.2
    · rw [add_assoc, ← Finset.add_sum_erase _ _ (Finset.mem_insert_self t ts),
        Function.update_self]
      refine congrArg (fun m => a' + (w p + m)) (Finset.sum_congr rfl ?_)
      intro u hu
      rw [Function.update_of_ne (Finset.ne_of_mem_erase hu)]

theorem Accounts.le (h : Accounts w pc a b) (t : τ) : a + w (pc t) ≤ b := by
  obtain ⟨m, rfl, -⟩ := h.split t
  exact Nat.le_add_right _ _

theorem Accounts.move (h : Accounts w pc a b) (hb : a' + w p + b = a + w (pc t) + b') :
    Accounts w (Function.update pc t p) a' b' := by
  obtain ⟨m, rfl, -, hmove⟩ := h.split t
  obtain rfl : b' = a' + w p + m := by omega
  exact hmove a' p

end Census
