import OrionLd.OrionldContextCache

/-! The context cache slot by slot. The loops over the cache pass the slots below the first free
index: a lookup answers with the first of them that answers, and an insertion fills one that is
free, unless every slot is taken. -/
namespace ContextCacheSlots

open OrionldContextCache List Option

def Holds (s : ContextCache) (ix : ℕ) (p : ContextRef) : Prop :=
  ix < s.slotIx ∧ s.array[ix]? = some (some p)

variable {mem : Memory} {s : ContextCache} {ix : ℕ} {p q : ContextRef} {name : String}

theorem holds_iff : Holds s ix p ↔ (s.array.take s.slotIx)[ix]? = some (some p) := by
  rw [List.getElem?_take]
  constructor
  · rintro ⟨hix, hp⟩
    rw [if_pos hix]
    exact hp
  · intro h
    split at h
    · next hix =>
      exact ⟨hix, h⟩
    · cases h

theorem Holds.unique (hp : Holds s ix p) (hq : Holds s ix q) : p = q :=
  some.inj (some.inj (hp.2.symm.trans hq.2))

theorem findSome?_first {α β : Type*} {f : α → Option β} {b : β} (l : List α) :
    l.findSome? f = some b ↔ ∃ (i : ℕ) (a : α), l[i]? = some a ∧ f a = some b ∧
      ∀ j < i, ∀ a', l[j]? = some a' → f a' = none := by
  rw [List.findSome?_eq_some_iff]
  constructor
  · rintro ⟨before, a, after, rfl, ha, hbefore⟩
    refine ⟨before.length, a, by simp, ha, ?_⟩
    intro j hj a' ha'
    rw [List.getElem?_append_left hj] at ha'
    exact hbefore a' (mem_of_getElem? ha')
  · rintro ⟨i, a, hi, ha, hfirst⟩
    obtain ⟨hlt, hget⟩ := List.getElem?_eq_some_iff.mp hi
    refine ⟨l.take i, a, l.drop (i + 1), ?_, ha, ?_⟩
    · rw [← hget, getElem_cons_drop, take_append_drop]
    · intro a' ha'
      obtain ⟨j, hj⟩ := mem_iff_getElem?.mp ha'
      have hji : j < i := by
        have hlen := (List.getElem?_eq_some_iff.mp hj).1
        rw [length_take] at hlen
        omega
      rw [List.getElem?_take_of_lt hji] at hj
      exact hfirst j hji a' hj

theorem find_some_iff : findContext mem s name = some p ↔ ∃ ix, Holds s ix p ∧
    answersTo (mem p) name = true ∧ ∀ j < ix, ∀ q, Holds s j q →
      answersTo (mem q) name = false := by
  unfold findContext
  rw [findSome?_first]
  constructor
  · rintro ⟨ix, slot, hslot, hanswer, hfirst⟩
    obtain ⟨rfl, hp⟩ := filter_eq_some_iff.mp hanswer
    refine ⟨ix, holds_iff.mpr hslot, hp, ?_⟩
    intro j hj q hq
    have hnone := filter_eq_none_iff.mp (hfirst j hj (some q) (holds_iff.mp hq)) q rfl
    exact Bool.eq_false_iff.mpr hnone
  · rintro ⟨ix, hp, hanswer, hfirst⟩
    refine ⟨ix, some p, holds_iff.mp hp, filter_eq_some_iff.mpr ⟨rfl, hanswer⟩, ?_⟩
    intro j hj slot hslot
    apply filter_eq_none_iff.mpr
    rintro q rfl
    exact Bool.eq_false_iff.mp (hfirst j hj q (holds_iff.mpr hslot))

theorem answers_url (c : OrionldContext) : answersTo c c.url = true := by
  rw [answersTo, beq_self_eq_true, Bool.true_or]

variable {service : ServiceRoutine}

theorem slot_free (hroom : ¬ Full s) : ¬ Holds s (chooseSlot s).1 q := by
  rintro ⟨hlt, hq⟩
  unfold chooseSlot at hlt hq
  split at hlt
  · rename_i hs
    rw [if_pos hs] at hq
    obtain ⟨hole, hhole, -, hnone⟩ := hole_spec hs hroom
    rw [hhole, getD_some, hnone] at hq
    cases hq
  · exact lt_irrefl _ hlt

theorem holds_store {slotIx : ℕ} (hlt : ix < s.slots) :
    Holds (store { s with slotIx := slotIx } ix p) j q ↔
      j < slotIx ∧ (if ix = j then p = q else s.array[j]? = some (some q)) := by
  change j < slotIx ∧ (s.array.set ix (some p))[j]? = some (some q) ↔ _
  rw [List.getElem?_set, s.size, if_pos hlt]
  split
  · rw [some_inj, some_inj]
  · rfl

theorem holds_insert (hkept : droppedInline (mem p) service = false) (hroom : ¬ Full s) :
    Holds (orionldContextCacheInsert mem service s (some p)) j q ↔
      (j = (chooseSlot s).1 ∧ q = p) ∨ Holds s j q := by
  have hfree := @slot_free s q hroom
  by_cases hs : s.slots ≤ s.slotIx
  · obtain ⟨hole, hhole, hlt, -⟩ := hole_spec hs hroom
    have hslot : (chooseSlot s).1 = hole := by
      unfold chooseSlot
      rw [if_pos hs, hhole, getD_some]
    rw [hslot] at hfree ⊢
    rw [insert_hole hkept hs hhole hlt, holds_store hlt]
    by_cases hj : hole = j
    · subst hj
      rw [if_pos rfl, and_iff_right (hlt.trans_le hs), eq_comm]
      exact ⟨fun h => .inl ⟨rfl, h⟩, fun h => (h.resolve_right hfree).2⟩
    · rw [if_neg hj]
      exact ⟨.inr, fun h => h.resolve_left fun h => hj h.1.symm⟩
  · have hslot : (chooseSlot s).1 = s.slotIx := by
      unfold chooseSlot
      rw [if_neg hs]
    rw [hslot] at hfree ⊢
    rw [insert_append hkept (Nat.lt_of_not_le hs), holds_store (Nat.lt_of_not_le hs)]
    by_cases hj : s.slotIx = j
    · subst hj
      rw [if_pos rfl, and_iff_right (Nat.lt_succ_self _), eq_comm]
      exact ⟨fun h => .inl ⟨rfl, h⟩, fun h => (h.resolve_right hfree).2⟩
    rw [if_neg hj]
    constructor
    · rintro ⟨hlt, hq⟩
      exact .inr ⟨by omega, hq⟩
    · rintro (⟨rfl, -⟩ | ⟨hlt, hq⟩)
      · exact absurd rfl hj
      · exact ⟨by omega, hq⟩

theorem holds_grown (hkept : droppedInline (mem p) service = false) (hfull : Full s) :
    Holds (orionldContextCacheInsert mem service s (some p)) j q ↔ Holds s j q := by
  rw [insert_grow hkept hfull]
  unfold Holds store reallocate
  apply and_congr_right
  intro hj
  rw [List.getElem?_set_ne (Nat.ne_of_gt hj), List.getElem?_append]
  split
  · rfl
  rename_i hlen
  rw [List.getElem?_eq_none (Nat.le_of_not_lt hlen), List.getElem?_replicate]
  split <;> simp

theorem holds_delete (id : String) : Holds (orionldContextCacheDelete mem s id).cache ix q ↔
      Holds s ix q ∧ deletedBy (mem q) id = false := by
  unfold Holds orionldContextCacheDelete
  dsimp only
  rw [and_assoc]
  apply and_congr_right
  intro hix
  have hget : ((s.array.take s.slotIx).map (releaseSlot mem id) ++ s.array.drop s.slotIx)[ix]? =
      s.array[ix]?.map (releaseSlot mem id) := by
    rw [List.getElem?_append, length_map, length_take, List.getElem?_map,
      List.getElem?_take_of_lt hix]
    split
    · rfl
    have hlen : s.array.length ≤ ix := by omega
    rw [drop_of_length_le (hlen.trans hix.le), List.getElem?_eq_none hlen]
    rfl
  rw [hget, map_eq_some_iff]
  constructor
  · rintro ⟨slot, hslot, hq⟩
    obtain ⟨rfl, hkeep⟩ := filter_eq_some_iff.mp hq
    rw [Bool.not_eq_true'] at hkeep
    exact ⟨hslot, hkeep⟩
  · rintro ⟨hslot, hkeep⟩
    refine ⟨some q, hslot, filter_eq_some_iff.mpr ⟨rfl, ?_⟩⟩
    rw [hkeep]
    rfl

end ContextCacheSlots
