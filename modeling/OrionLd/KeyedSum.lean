import Mathlib.Algebra.Group.Int.Defs
import Mathlib.Data.List.Nodup

/-! What the rows of a list amount to under one key. Where the keys are unique, the amount is
that of one row. -/
namespace KeyedSum

open List

variable {α κ : Type*} [DecidableEq κ] {key : α → κ} {f : α → ℤ} {k : κ} {rows : List α}

def amountAt (key : α → κ) (f : α → ℤ) (k : κ) : List α → ℤ
  | [] => 0
  | a :: rows => (if key a = k then f a else 0) + amountAt key f k rows

theorem amountAt_nil : amountAt key f k [] = 0 := rfl

theorem amountAt_cons (a : α) : amountAt key f k (a :: rows) =
    (if key a = k then f a else 0) + amountAt key f k rows := rfl

theorem amountAt_append {more : List α} :
    amountAt key f k (rows ++ more) = amountAt key f k rows + amountAt key f k more := by
  induction rows with
  | nil => rw [nil_append, amountAt_nil, zero_add]
  | cons a rows ih => rw [cons_append, amountAt_cons, amountAt_cons, ih, add_assoc]

theorem amountAt_eq_zero (h : ∀ a ∈ rows, key a = k → f a = 0) : amountAt key f k rows = 0 := by
  induction rows with
  | nil => rfl
  | cons a rows ih =>
    rw [amountAt_cons, ih fun b hb => h b (mem_cons_of_mem _ hb), add_zero]
    split_ifs with hkey
    · exact h a mem_cons_self hkey
    · rfl

theorem amountAt_of_mem {a : α} (honce : (rows.map key).Nodup) (ha : a ∈ rows) :
    amountAt key f (key a) rows = f a := by
  induction rows with
  | nil => cases ha
  | cons b rows ih =>
    rw [map_cons, nodup_cons] at honce
    rw [amountAt_cons]
    rcases mem_cons.mp ha with rfl | ha
    · rw [if_pos rfl, amountAt_eq_zero, add_zero]
      intro c hc hkey
      exact absurd (hkey ▸ mem_map_of_mem hc) honce.1
    rw [if_neg, zero_add, ih honce.2 ha]
    intro hkey
    exact honce.1 (hkey ▸ mem_map_of_mem ha)

theorem amountAt_map {g : α → α} (hkey : ∀ a, key (g a) = key a)
    (hsame : ∀ a ∈ rows, key a = k → f (g a) = f a) :
    amountAt key f k (rows.map g) = amountAt key f k rows := by
  induction rows with
  | nil => rfl
  | cons a rows ih =>
    rw [map_cons, amountAt_cons, amountAt_cons, hkey, ih fun b hb => hsame b (mem_cons_of_mem _ hb)]
    split_ifs with h
    · rw [hsame a mem_cons_self h]
    · rfl

theorem amountAt_map_add {g : α → α} {a : α} {n : ℤ} (honce : (rows.map key).Nodup)
    (hkey : ∀ b, key (g b) = key b) (ha : a ∈ rows) (hk : key a = k) (hadd : f (g a) = f a + n) :
    amountAt key f k (rows.map g) = amountAt key f k rows + n := by
  have honce' : ((rows.map g).map key).Nodup := by
    rw [map_map, show key ∘ g = key from funext hkey]
    exact honce
  subst hk
  rw [amountAt_of_mem honce ha, ← hadd, ← hkey a]
  exact amountAt_of_mem honce' (mem_map_of_mem ha)

end KeyedSum
