import Mathlib.Data.List.Forall2

/-! Computations that end with a result or an error.
A result of a sequence is taken apart into the results of its steps. -/
namespace Fallible

open List

variable {ε α β : Type}

@[simp] theorem ok_bind (a : α) (f : α → Except ε β) : (Except.ok a >>= f) = f a := rfl

variable {x : Except ε α} {f : α → Except ε β} {items : List α}

theorem bind_ok {b : β} (h : x >>= f = .ok b) : ∃ a, x = .ok a ∧ f a = .ok b := by
  cases x with
  | error e => cases h
  | ok a => exact ⟨a, rfl, h⟩

theorem ite_ok {p : Prop} [Decidable p] {y : Except ε α} {a : α}
    (h : (if p then x else y) = .ok a) : p ∧ x = .ok a ∨ ¬ p ∧ y = .ok a := by
  split at h
  · exact .inl ⟨‹p›, h⟩
  · exact .inr ⟨‹¬ p›, h⟩

theorem map_ok {f : α → β} {b : β} (h : x.map f = .ok b) : ∃ a, x = .ok a ∧ f a = b := by
  cases x with
  | error e => cases h
  | ok a => exact ⟨a, rfl, Except.ok.inj h⟩

theorem bind_error {e : ε} (h : x >>= f = .error e) :
    x = .error e ∨ ∃ a, x = .ok a ∧ f a = .error e := by
  cases x with
  | error e' => exact .inl (congrArg Except.error (Except.error.inj h))
  | ok a => exact .inr ⟨a, rfl, h⟩

theorem exists_ok (h : x.toBool = true) : ∃ a, x = .ok a := by
  cases x with
  | error e => cases h
  | ok a => exact ⟨a, rfl⟩

theorem ok_of_toOption {a : α} (h : x.toOption = some a) : x = .ok a := by
  cases x with
  | error e => cases h
  | ok b => exact congrArg Except.ok (Option.some.inj h)

variable {step : β → α → Except ε β} {xs : List α}

theorem foldlM_collects {content : β → List α}
    (h : ∀ b, ∀ a ∈ items, ∀ b', step b a = .ok b' → (content b').Perm (content b ++ [a])) :
    ∀ b b', items.foldlM step b = .ok b' → (content b').Perm (content b ++ items) := by
  induction items with
  | nil =>
    intro b b' hfold
    cases hfold
    rw [append_nil]
  | cons a items ih =>
    intro b b' hfold
    obtain ⟨b₁, hb₁, hfold⟩ := bind_ok hfold
    have hrest := ih (fun b a' ha' => h b a' (mem_cons_of_mem _ ha')) b₁ b' hfold
    have hfirst := h b a mem_cons_self b₁ hb₁
    refine hrest.trans ?_
    simpa using hfirst.append_right items

theorem foldlM_invariant {P : β → List α → Prop}
    (h : ∀ b pre a b', P b pre → step b a = .ok b' → P b' (pre ++ [a])) (items : List α) :
    ∀ b pre b', P b pre → items.foldlM step b = .ok b' → P b' (pre ++ items) := by
  induction items with
  | nil =>
    intro b pre b' hb hfold
    cases hfold
    rwa [append_nil]
  | cons a items ih =>
    intro b pre b' hb hfold
    obtain ⟨b₁, hb₁, hfold⟩ := bind_ok hfold
    have hrest := ih b₁ (pre ++ [a]) b' (h b pre a b₁ hb hb₁) hfold
    rwa [append_assoc] at hrest

theorem mapM_forall₂ : ∀ {results : List β}, items.mapM f = .ok results →
      List.Forall₂ (fun a b => f a = .ok b) items results := by
  induction items with
  | nil =>
    intro results h
    cases h
    exact .nil
  | cons a items ih =>
    intro results h
    rw [mapM_cons] at h
    obtain ⟨b, hb, h⟩ := bind_ok h
    obtain ⟨bs, hbs, h⟩ := bind_ok h
    cases h
    exact .cons hb (ih hbs)

theorem mapM_of_forall₂ {results : List β}
    (h : List.Forall₂ (fun a b => f a = .ok b) items results) :
    items.mapM f = .ok results := by
  induction h with
  | nil => rfl
  | cons hb _ ih =>
    rw [mapM_cons, hb, ok_bind, ih]
    rfl

variable {f : α → Option β}

theorem mapM_eq_some {ys : List β} :
    xs.mapM f = some ys ↔ List.Forall₂ (fun x y => f x = some y) xs ys := by
  induction xs generalizing ys with
  | nil =>
    rw [forall₂_nil_left_iff]
    exact Option.some_inj.trans eq_comm
  | cons x xs ih =>
    rw [mapM_cons]
    constructor
    · intro h
      obtain ⟨y, hy, h⟩ := Option.bind_eq_some_iff.mp h
      obtain ⟨rest, hrest, h⟩ := Option.bind_eq_some_iff.mp h
      cases h
      exact .cons hy (ih.mp hrest)
    · intro h
      cases h with
      | cons hy hrest =>
        rw [hy, ih.mpr hrest]
        rfl

theorem exists_mapM {R : α → β → Prop} (h : ∀ x ∈ xs, ∃ y, f x = some y ∧ R x y) :
    ∃ ys, xs.mapM f = some ys ∧ List.Forall₂ R xs ys := by
  induction xs with
  | nil => exact ⟨[], rfl, .nil⟩
  | cons x xs ih =>
    obtain ⟨⟨y, hy, hR⟩, hxs⟩ := forall_mem_cons.mp h
    obtain ⟨ys, hys, hall⟩ := ih hxs
    refine ⟨y :: ys, ?_, .cons hR hall⟩
    rw [mapM_cons, hy, hys]
    rfl

theorem exists_related {R : α → β → Prop} {ys : List β} (h : List.Forall₂ R xs ys) {x : α}
    (hx : x ∈ xs) : ∃ y, R x y := by
  induction h with
  | nil => cases hx
  | cons hR _ ih =>
    rcases mem_cons.mp hx with rfl | hx
    · exact ⟨_, hR⟩
    · exact ih hx

theorem foldlM_perm {step : β → α → Option β} {l l' : List α} (h : l.Perm l')
    (hcomm : ∀ b x y, (step b x).bind (step · y) = (step b y).bind (step · x)) (b : β) :
    l.foldlM step b = l'.foldlM step b := by
  induction h generalizing b with
  | nil => rfl
  | cons a _ ih =>
    exact bind_congr ih
  | swap a a' l =>
    simp only [foldlM_cons]
    rw [← bind_assoc, ← bind_assoc]
    exact congrArg (· >>= fun b => l.foldlM step b) (hcomm b a' a)
  | trans _ _ ih ih' => exact (ih b).trans (ih' b)

end Fallible
