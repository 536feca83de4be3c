import Mathlib.Data.List.Nodup

/-! Fields of a document as an association list, over arbitrary keys and values. Setting a field
keeps its place, or adds it at the end. -/
namespace FieldList

open List

variable {κ ν : Type*} [BEq κ]

def put (k : κ) (v : ν) : List (κ × ν) → List (κ × ν)
  | [] => [(k, v)]
  | f :: fields => if f.1 == k then (k, v) :: fields else f :: put k v fields

def putAll (settings fields : List (κ × ν)) : List (κ × ν) :=
  settings.foldl (fun fields f => put f.1 f.2 fields) fields

def remove (ks : List κ) (fields : List (κ × ν)) : List (κ × ν) :=
  fields.filter fun f => !ks.contains f.1

variable [LawfulBEq κ] {k k' : κ} {v v' : ν} {fields settings : List (κ × ν)} {ks : List κ}

@[simp] theorem lookup_put_self : (put k v fields).lookup k = some v := by
  induction fields with
  | nil => simp [put]
  | cons f fields ih =>
    obtain ⟨a, x⟩ := f
    by_cases h : a = k
    · simp [put, h]
    · have hk : (k == a) = false := by simpa using Ne.symm h
      simp [put, h, List.lookup_cons, hk, ih]

theorem lookup_put_of_ne (h : k' ≠ k) : (put k v fields).lookup k' = fields.lookup k' := by
  have hk : (k' == k) = false := by simpa using h
  induction fields with
  | nil => simp [put, h]
  | cons f fields ih =>
    obtain ⟨a, x⟩ := f
    by_cases hf : a = k
    · simp [put, hf, lookup_cons, hk]
    · simp [put, hf, lookup_cons, ih]

theorem put_put : put k v' (put k v fields) = put k v' fields := by
  induction fields with
  | nil => simp [put]
  | cons f fields ih =>
    by_cases h : f.1 = k <;> simp [put, h, ih]

omit [LawfulBEq κ] in
theorem mem_put {f : κ × ν} (h : f ∈ put k v fields) : f = (k, v) ∨ f ∈ fields := by
  induction fields with
  | nil => exact .inl (mem_singleton.mp h)
  | cons g fields ih =>
    by_cases hg : (g.1 == k) = true
    · rw [put, if_pos hg] at h
      rcases mem_cons.mp h with h | h
      · exact .inl h
      · exact .inr (mem_cons_of_mem _ h)
    · rw [put, if_neg hg] at h
      rcases mem_cons.mp h with h | h
      · exact .inr (h ▸ mem_cons_self)
      · exact (ih h).imp_right (mem_cons_of_mem _)

omit [LawfulBEq κ] in
theorem mem_putAll {f : κ × ν} (h : f ∈ putAll settings fields) : f ∈ settings ∨ f ∈ fields := by
  induction settings generalizing fields with
  | nil => exact .inr h
  | cons g settings ih =>
    rcases ih h with h | h
    · exact .inl (mem_cons_of_mem _ h)
    rcases mem_put h with rfl | h
    · exact .inl mem_cons_self
    · exact .inr h

theorem nodup_put (h : (fields.map Prod.fst).Nodup) : ((put k v fields).map Prod.fst).Nodup := by
  induction fields with
  | nil => simp [put]
  | cons f fields ih =>
    obtain ⟨hhead, htail⟩ := nodup_cons.mp h
    by_cases hf : f.1 = k
    · rw [put, if_pos (by simpa using hf), map_cons, ← hf]
      exact nodup_cons.mpr ⟨hhead, htail⟩
    rw [put, if_neg (by simpa using hf), map_cons]
    refine nodup_cons.mpr ⟨?_, ih htail⟩
    intro hmem
    obtain ⟨g, hg, hname⟩ := mem_map.mp hmem
    rcases mem_put hg with rfl | hg
    · exact hf hname.symm
    · exact hhead (hname ▸ mem_map.mpr ⟨g, hg, rfl⟩)

theorem nodup_putAll (h : (fields.map Prod.fst).Nodup) :
    ((putAll settings fields).map Prod.fst).Nodup := by
  induction settings generalizing fields with
  | nil => exact h
  | cons f settings ih => exact ih (nodup_put h)

variable {a : κ}

theorem mem_keys_put : a ∈ (put k v fields).map Prod.fst ↔ a = k ∨ a ∈ fields.map Prod.fst := by
  induction fields with
  | nil => simp [put]
  | cons f fields ih =>
    by_cases hf : f.1 = k
    · rw [put, if_pos (by simpa using hf), map_cons, map_cons, mem_cons,
        mem_cons, hf, ← or_assoc, or_self]
    · rw [put, if_neg (by simpa using hf), map_cons, map_cons, mem_cons,
        mem_cons, ih, or_left_comm]

theorem mem_keys_putAll : a ∈ (putAll settings fields).map Prod.fst ↔
    a ∈ settings.map Prod.fst ∨ a ∈ fields.map Prod.fst := by
  induction settings generalizing fields with
  | nil => simp [putAll]
  | cons f settings ih =>
    rw [show putAll (f :: settings) fields = putAll settings (put f.1 f.2 fields) from rfl, ih,
      mem_keys_put, map_cons, mem_cons, ← or_assoc, or_comm (a := a ∈ _) (b := a = f.1)]

theorem mem_keys_remove :
    a ∈ (remove ks fields).map Prod.fst ↔ a ∈ fields.map Prod.fst ∧ a ∉ ks := by
  constructor
  · intro h
    obtain ⟨f, hf, rfl⟩ := mem_map.mp h
    obtain ⟨hmem, hks⟩ := mem_filter.mp hf
    exact ⟨mem_map_of_mem hmem, by simpa using hks⟩
  · rintro ⟨h, hks⟩
    obtain ⟨f, hf, rfl⟩ := mem_map.mp h
    exact mem_map_of_mem (mem_filter.mpr ⟨hf, by simpa using hks⟩)

theorem length_put : (put k v fields).length =
    if (fields.lookup k).isSome then fields.length else fields.length + 1 := by
  induction fields with
  | nil => simp [put]
  | cons f fields ih =>
    obtain ⟨a, x⟩ := f
    by_cases h : a = k
    · simp [put, h]
    have hk : (k == a) = false := by simpa using Ne.symm h
    simp only [put, beq_iff_eq, h, if_false, length_cons, ih, lookup_cons, hk]
    split
    · rfl
    · rfl

omit [LawfulBEq κ] in
theorem nodup_remove (h : (fields.map Prod.fst).Nodup) : ((remove ks fields).map Prod.fst).Nodup :=
  (List.Sublist.map Prod.fst filter_sublist).nodup h

theorem mem_of_lookup (h : fields.lookup k = some v) : (k, v) ∈ fields := by
  obtain ⟨l₁, l₂, hl, -⟩ := lookup_eq_some_iff.mp h
  rw [hl]
  exact mem_append_right l₁ mem_cons_self

theorem lookup_of_mem (hn : (fields.map Prod.fst).Nodup) (h : (k, v) ∈ fields) :
    fields.lookup k = some v := by
  induction fields with
  | nil => cases h
  | cons f fields ih =>
    obtain ⟨hhead, htail⟩ := nodup_cons.mp hn
    rw [lookup_cons]
    rcases mem_cons.mp h with rfl | h
    · rw [beq_self_eq_true]
    have hne : k ≠ f.1 := fun hk => hhead (hk ▸ mem_map.mpr ⟨(k, v), h, rfl⟩)
    rw [beq_false_of_ne hne]
    exact ih htail h

theorem lookup_putAll_of_notMem (h : k ∉ settings.map Prod.fst) :
    (putAll settings fields).lookup k = fields.lookup k := by
  induction settings generalizing fields with
  | nil => rfl
  | cons f settings ih =>
    simp only [map_cons, mem_cons, not_or] at h
    exact (ih h.2).trans (lookup_put_of_ne h.1)

theorem lookup_putAll_of_mem (hn : (settings.map Prod.fst).Nodup) (h : (k, v) ∈ settings) :
    (putAll settings fields).lookup k = some v := by
  induction settings generalizing fields with
  | nil => simp at h
  | cons f settings ih =>
    rw [map_cons, nodup_cons] at hn
    rcases mem_cons.mp h with rfl | h
    · exact (lookup_putAll_of_notMem hn.1).trans lookup_put_self
    · exact ih hn.2 h

theorem lookup_putAll (hn : (settings.map Prod.fst).Nodup) :
    (putAll settings fields).lookup k = (settings.lookup k).or (fields.lookup k) := by
  cases h : settings.lookup k with
  | some v => exact lookup_putAll_of_mem hn (mem_of_lookup h)
  | none =>
    refine lookup_putAll_of_notMem fun hmem => ?_
    obtain ⟨f, hf, rfl⟩ := mem_map.mp hmem
    rw [lookup_of_mem hn (v := f.2) hf] at h
    cases h

theorem length_remove (hn : (fields.map Prod.fst).Nodup) (h : fields.lookup k = some v) :
    (remove [k] fields).length + 1 = fields.length := by
  induction fields with
  | nil => simp at h
  | cons f fields ih =>
    obtain ⟨a, x⟩ := f
    obtain ⟨hhead, htail⟩ := nodup_cons.mp hn
    by_cases ha : a = k
    · have other : remove [k] fields = fields := by
        apply filter_eq_self.mpr
        intro g hg
        have hne : g.1 ≠ k := fun e => hhead (ha ▸ e ▸ mem_map.mpr ⟨g, hg, rfl⟩)
        simpa using hne
      rw [show remove [k] ((a, x) :: fields) = remove [k] fields by simp [remove, ha], other,
        length_cons]
    · have hk : (k == a) = false := by simpa using Ne.symm ha
      rw [lookup_cons, hk] at h
      rw [show remove [k] ((a, x) :: fields) = (a, x) :: remove [k] fields by simp [remove, ha],
        length_cons, ih htail h, length_cons]

theorem lookup_remove_of_mem (h : k ∈ ks) : (remove ks fields).lookup k = none := by
  rw [lookup_eq_none_iff]
  intro f hf
  have hks : f.1 ∉ ks := by simpa using (mem_filter.mp hf).2
  have hne : k ≠ f.1 := fun e => hks (e ▸ h)
  simpa using hne

theorem lookup_remove_of_notMem (h : k ∉ ks) : (remove ks fields).lookup k = fields.lookup k := by
  unfold remove
  induction fields with
  | nil => rfl
  | cons f fields ih =>
    obtain ⟨a, x⟩ := f
    by_cases hf : a ∈ ks
    · have hne : k ≠ a := fun e => h (e ▸ hf)
      have hk : (k == a) = false := by simpa using hne
      simp only [filter_cons, lookup_cons, hk]
      simpa [hf] using ih
    · have hkeep : (!ks.contains a) = true := by simpa using hf
      simp only [filter_cons, hkeep, if_true, lookup_cons, ih]

theorem remove_congr {ks' : List κ} (h : ∀ k, k ∈ ks ↔ k ∈ ks') (fields : List (κ × ν)) :
    remove ks fields = remove ks' fields := by
  apply filter_congr
  intro f _
  by_cases hf : f.1 ∈ ks
  · have hf' := (h f.1).mp hf
    simp [hf, hf']
  · have hf' : f.1 ∉ ks' := fun hm => hf ((h f.1).mpr hm)
    simp [hf, hf']

theorem lookup_putAll_perm {settings' fields' : List (κ × ν)} (h : settings.Perm settings')
    (hn : (settings.map Prod.fst).Nodup) (hf : ∀ k, fields.lookup k = fields'.lookup k) :
    (putAll settings fields).lookup k = (putAll settings' fields').lookup k := by
  by_cases hk : k ∈ settings.map Prod.fst
  · obtain ⟨f, hm, rfl⟩ := mem_map.mp hk
    rw [lookup_putAll_of_mem hn (v := f.2) hm,
      lookup_putAll_of_mem ((h.map Prod.fst).nodup_iff.mp hn) (v := f.2) (h.mem_iff.mp hm)]
  · have hk' : k ∉ settings'.map Prod.fst := fun hm => hk ((h.map Prod.fst).mem_iff.mpr hm)
    rw [lookup_putAll_of_notMem hk, lookup_putAll_of_notMem hk', hf]

end FieldList
