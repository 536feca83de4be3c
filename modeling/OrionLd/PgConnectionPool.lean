import OrionLd.StepSystem
import Mathlib.Data.Finset.Card

/-! The threads of a pool of postgres connections: pgConnectionGet and pgConnectionRelease.
The counting semaphore is given back as soon as a slot has been taken, so that it never makes
anyone wait for a slot: a thread that finds all of them busy gets no connection. -/
namespace PgConnectionPool

open StepSystem Option Function

section

structure PgConnection where
  busy : Bool
  connected : Bool
  uses : ℕ
  deriving DecidableEq, Repr

abbrev ConnectionV := List (Option PgConnection)

def ready (slot : Option PgConnection) : Bool := slot.any fun c => !c.busy && c.connected

def unused (slot : Option PgConnection) : Bool := slot.all fun c => !c.busy

def markBusy (slot : Option PgConnection) : Option PgConnection :=
  some (match slot with
    | some c => { c with busy := true }
    | none => ⟨true, false, 0⟩)

/-- The two searches of the slots, and whether calloc finds memory if it is needed. -/
def search (v : ConnectionV) (allocated : Bool) : Option ℕ :=
  (v.findIdx? ready).or
    ((v.findIdx? unused).filter fun ix => allocated || (v[ix]?.bind id).isSome)

/-- Between the semaphores: the slot that is found is marked as busy. -/
def takeSlot (v : ConnectionV) (allocated : Bool) : ConnectionV × Option ℕ :=
  match search v allocated with
  | some ix => (v.modify ix markBusy, some ix)
  | none => (v, none)

/-- Where a thread is in pgConnectionGet, or what it has got from it. -/
inductive Pc where
  | outside
  | queued
  | inPool
  | taken (result : Option ℕ)
  | poolPosted (result : Option ℕ)
  | connecting (ix : ℕ)
  | holding (ix : ℕ)
  | refused
  deriving DecidableEq, Repr

variable {τ : Type}

structure Pool (τ : Type) where
  queueSem : ℕ
  poolSem : ℕ
  connectionV : ConnectionV
  pc : τ → Pc

def pgConnectionPoolCreate (poolSize : ℕ) : Pool τ where
  queueSem := poolSize
  poolSem := 1
  connectionV := List.replicate poolSize none
  pc := fun _ => .outside

variable [DecidableEq τ]

def goTo (s : Pool τ) (t : τ) (pc : Pc) : Pool τ := { s with pc := Function.update s.pc t pc }

/-- The thread that moves, and whether it would get memory. -/
abbrev Event (τ : Type) := τ × Bool

/-- Connecting succeeds, and a thread that has released its connection, or got none, calls again. -/
def step (s : Pool τ) (e : Event τ) : Pool τ :=
  let t := e.1
  match s.pc t with
  | .queued => if s.poolSem = 0 then s else goTo { s with poolSem := s.poolSem - 1 } t .inPool
  | .inPool =>
    let (v, result) := takeSlot s.connectionV e.2
    goTo { s with connectionV := v } t (.taken result)
  | .taken result => goTo { s with poolSem := s.poolSem + 1 } t (.poolPosted result)
  | .poolPosted result => goTo { s with queueSem := s.queueSem + 1 } t (match result with
    | none => .refused
    | some ix => .connecting ix)
  | .connecting ix => goTo { s with
      connectionV := s.connectionV.modify ix
        (Option.map fun c => { c with connected := true, uses := c.uses + 1 }) } t (.holding ix)
  | .holding ix => goTo { s with
      connectionV := s.connectionV.modify ix
        (Option.map fun c => { c with busy := false }) } t .outside
  | .outside | .refused =>
    if s.queueSem = 0 then s else goTo { s with queueSem := s.queueSem - 1 } t .queued

end

variable {τ : Type}

/-- No connection is held by two threads, and no more threads hold one than there are slots. -/
structure Exclusive (poolSize : ℕ) (s : Pool τ) : Prop where
  apart : ∀ t u ix, s.pc t = .holding ix → s.pc u = .holding ix → t = u
  atMost : ∀ ts : Finset τ, (∀ t ∈ ts, ∃ ix, s.pc t = .holding ix) → ts.card ≤ poolSize

def Pc.served : Pc → Bool
  | .taken result | .poolPosted result => result.isSome
  | .refused => false
  | .outside | .queued | .inPool | .connecting _ | .holding _ => true

def Served (s : Pool τ) : Prop := ∀ t, (s.pc t).served = true

/-- A slot is not busy, and there is memory when the first such slot is empty. -/
def SlotFree (s : Pool τ) (e : Event τ) : Prop :=
  s.pc e.1 = .inPool → s.connectionV.any ready = true ∨
    s.connectionV.any unused = true ∧ (s.connectionV.find? unused = some none → e.2 = true)

variable {v : ConnectionV} {allocated : Bool} {ix : ℕ}

theorem unused_of_ready {slot : Option PgConnection} (h : ready slot = true) :
    unused slot = true := by
  cases slot with
  | none => cases h
  | some c => exact (Bool.and_eq_true_iff.mp h).1

theorem search_unused (h : search v allocated = some ix) :
    ∃ slot, v[ix]? = some slot ∧ unused slot = true := by
  rcases or_eq_some_iff.mp h with h | ⟨-, h⟩
  · obtain ⟨hlt, hready, -⟩ := List.findIdx?_eq_some_iff_getElem.mp h
    exact ⟨v[ix], List.getElem?_eq_getElem hlt, unused_of_ready hready⟩
  obtain ⟨h, -⟩ := filter_eq_some_iff.mp h
  obtain ⟨hlt, hunused, -⟩ := List.findIdx?_eq_some_iff_getElem.mp h
  exact ⟨v[ix], List.getElem?_eq_getElem hlt, hunused⟩

theorem search_isSome_iff : (search v allocated).isSome = true ↔ v.any ready = true ∨
    v.any unused = true ∧ (v.find? unused = some none → allocated = true) := by
  unfold search
  rw [isSome_or, Bool.or_eq_true_iff, List.findIdx?_isSome]
  refine or_congr_right ?_
  rw [List.find?_eq_bind_findIdx?_getElem?]
  cases hfirst : v.findIdx? unused with
  | none =>
    have hnone : v.any unused = false := by
      rw [← List.findIdx?_isSome, hfirst]
      rfl
    simp [hnone]
  | some ix =>
    obtain ⟨hlt, hunused, -⟩ := List.findIdx?_eq_some_iff_getElem.mp hfirst
    have hany : v.any unused = true := by
      rw [← List.findIdx?_isSome, hfirst]
      rfl
    rw [hany, filter_some, bind_some, List.getElem?_eq_getElem hlt]
    cases v[ix] <;> cases allocated <;> simp

section

def Pc.slot : Pc → Option ℕ
  | .taken result | .poolPosted result => result
  | .connecting ix | .holding ix => some ix
  | .outside | .queued | .inPool | .refused => none

/-- Every thread with a slot has it marked as busy, and no other thread has the same. -/
structure Kept (poolSize : ℕ) (v : ConnectionV) (pc : τ → Pc) : Prop where
  length : v.length = poolSize
  busy : ∀ t ix, (pc t).slot = some ix → ∃ c, v[ix]? = some (some c) ∧ c.busy = true
  apart : ∀ t u ix, (pc t).slot = some ix → (pc u).slot = some ix → t = u

variable {poolSize : ℕ} {pc : τ → Pc} {t u : τ} {p : Pc}

theorem Kept.connect (k : Kept poolSize v pc) {f : PgConnection → PgConnection}
    (hf : ∀ c, (f c).busy = c.busy) : Kept poolSize (v.modify ix (Option.map f)) pc where
  length := by rw [List.length_modify, k.length]
  busy u jx h := by
    obtain ⟨c, hc, hbusy⟩ := k.busy u jx h
    rcases eq_or_ne ix jx with rfl | hne
    · rw [List.getElem?_modify_eq, hc]
      exact ⟨f c, rfl, (hf c).trans hbusy⟩
    · rw [List.getElem?_modify_ne _ _ hne]
      exact ⟨c, hc, hbusy⟩
  apart := k.apart

variable [DecidableEq τ]

theorem slot_of_update (hslot : p.slot = none ∨ p.slot = (pc t).slot)
    (h : (Function.update pc t p u).slot = some ix) : (pc u).slot = some ix := by
  rcases eq_or_ne u t with rfl | hne
  · rw [update_self] at h
    rcases hslot with hnone | hsame
    · rw [hnone] at h
      cases h
    · exact hsame ▸ h
  · rwa [update_of_ne hne] at h

theorem Kept.move (k : Kept poolSize v pc) (hslot : p.slot = none ∨ p.slot = (pc t).slot) :
    Kept poolSize v (Function.update pc t p) where
  length := k.length
  busy u ix h := k.busy u ix (slot_of_update hslot h)
  apart u w ix hu hw := k.apart u w ix (slot_of_update hslot hu) (slot_of_update hslot hw)

theorem Kept.take (k : Kept poolSize v pc) {slot : Option PgConnection}
    (hslot : v[ix]? = some slot) (hfree : unused slot = true) (hp : p.slot = some ix) :
    Kept poolSize (v.modify ix markBusy) (Function.update pc t p) := by
  have hnobody : ∀ u, (pc u).slot ≠ some ix := by
    intro u hu
    obtain ⟨c, hc, hbusy⟩ := k.busy u ix hu
    rw [hslot] at hc
    cases some.inj hc
    rw [unused, all_some, hbusy] at hfree
    cases hfree
  have hold : ∀ u jx, (Function.update pc t p u).slot = some jx →
      u = t ∧ jx = ix ∨ u ≠ t ∧ jx ≠ ix ∧ (pc u).slot = some jx := by
    intro u jx h
    rcases eq_or_ne u t with rfl | hne
    · rw [update_self, hp] at h
      exact .inl ⟨rfl, (some.inj h).symm⟩
    · rw [update_of_ne hne] at h
      exact .inr ⟨hne, fun e => hnobody u (e ▸ h), h⟩
  constructor
  · rw [List.length_modify, k.length]
  · intro u jx h
    rcases hold u jx h with ⟨-, rfl⟩ | ⟨-, hne, h⟩
    · rw [List.getElem?_modify_eq, hslot]
      cases slot <;> exact ⟨_, rfl, rfl⟩
    · rw [List.getElem?_modify_ne _ _ hne.symm]
      exact k.busy u jx h
  · intro u w jx hu hw
    rcases hold u jx hu with ⟨rfl, rfl⟩ | ⟨-, hne, hu⟩ <;>
      rcases hold w jx hw with ⟨rfl, he⟩ | ⟨-, hne', hw⟩
    · rfl
    · exact absurd rfl hne'
    · exact absurd he hne
    · exact k.apart u w jx hu hw

theorem Kept.release (k : Kept poolSize v pc) {f : Option PgConnection → Option PgConnection}
    (hix : (pc t).slot = some ix) (hp : p.slot = none) :
    Kept poolSize (v.modify ix f) (Function.update pc t p) := by
  have moved : Kept poolSize v (Function.update pc t p) := k.move (.inl hp)
  constructor
  · rw [List.length_modify, k.length]
  · intro u jx h
    have hne : ix ≠ jx := by
      rintro rfl
      have hut : u = t := k.apart u t ix (slot_of_update (.inl hp) h) hix
      rw [hut, update_self, hp] at h
      cases h
    rw [List.getElem?_modify_ne _ _ hne]
    exact moved.busy u jx h
  · exact moved.apart

end

section

variable {poolSize : ℕ} {s : Pool τ}

theorem created_kept (poolSize : ℕ) :
    Kept poolSize (pgConnectionPoolCreate (τ := τ) poolSize).connectionV
      (pgConnectionPoolCreate (τ := τ) poolSize).pc where
  length := List.length_replicate
  busy _ _ h := by cases h
  apart _ _ _ h := by cases h

theorem Kept.exclusive (k : Kept poolSize s.connectionV s.pc) : Exclusive poolSize s where
  apart t u ix ht hu := k.apart t u ix (ht ▸ rfl) (hu ▸ rfl)
  atMost ts hts := by
    have hslot : ∀ t ∈ ts, ∃ ix, (s.pc t).slot = some ix := by
      intro t ht
      obtain ⟨ix, hix⟩ := hts t ht
      exact ⟨ix, hix ▸ rfl⟩
    have hinto : ∀ t ∈ ts, (s.pc t).slot.getD 0 ∈ Finset.range poolSize := by
      intro t ht
      obtain ⟨ix, hix⟩ := hslot t ht
      obtain ⟨c, hc, -⟩ := k.busy t ix hix
      rw [hix, Finset.mem_range, ← k.length]
      exact (List.getElem?_eq_some_iff.mp hc).1
    have hinj : Set.InjOn (fun t => (s.pc t).slot.getD 0) ts := by
      intro t ht u hu he
      obtain ⟨ix, hix⟩ := hslot t ht
      obtain ⟨jx, hjx⟩ := hslot u hu
      simp only [hix, hjx, getD_some] at he
      exact k.apart t u ix hix (he ▸ hjx)
    exact (Finset.card_le_card_of_injOn _ hinto hinj).trans_eq (Finset.card_range poolSize)

variable [DecidableEq τ]

theorem step_kept (k : Kept poolSize s.connectionV s.pc) (e : Event τ) :
    Kept poolSize (step s e).connectionV (step s e).pc := by
  obtain ⟨t, allocated⟩ := e
  cases hpc : s.pc t with
  | outside | refused | queued =>
    simp only [step, hpc]
    split
    · exact k
    · exact k.move (.inl rfl)
  | inPool =>
    simp only [step, hpc, takeSlot]
    cases hfound : search s.connectionV allocated with
    | none => exact k.move (.inl rfl)
    | some ix =>
      obtain ⟨slot, hslot, hfree⟩ := search_unused hfound
      exact k.take hslot hfree rfl
  | taken result =>
    simp only [step, hpc]
    exact k.move (.inr (hpc ▸ rfl))
  | poolPosted result =>
    simp only [step, hpc]
    cases result with
    | none => exact k.move (.inl rfl)
    | some ix => exact k.move (.inr (hpc ▸ rfl))
  | connecting ix =>
    have hsame : (Pc.holding ix).slot = (s.pc t).slot := by rw [hpc]; rfl
    simp only [step, hpc]
    refine Kept.move ?_ (.inr hsame)
    exact k.connect fun _ => rfl
  | holding ix =>
    simp only [step, hpc]
    exact k.release (hpc ▸ rfl) rfl

@[simp]
theorem goTo_pc (s : Pool τ) (t : τ) (p : Pc) : (goTo s t p).pc = Function.update s.pc t p :=
  rfl

theorem served_goTo {t : τ} {p : Pc} (hserved : Served s) {s' : Pool τ} (hs : s'.pc = s.pc) :
    Served (goTo s' t p) ↔ p.served = true := by
  constructor
  · intro h
    have ht := h t
    rwa [goTo_pc, update_self] at ht
  · intro hp u
    rcases eq_or_ne u t with rfl | hne
    · rwa [goTo_pc, update_self]
    · rw [goTo_pc, update_of_ne hne, hs]
      exact hserved u

theorem step_served (hserved : Served s) (e : Event τ) : Served (step s e) ↔ SlotFree s e := by
  obtain ⟨t, allocated⟩ := e
  have hthread : (s.pc t).served = true := hserved t
  cases hpc : s.pc t with
  | inPool =>
    simp only [step, hpc, SlotFree, true_imp_iff, takeSlot]
    rw [← search_isSome_iff]
    cases hfound : search s.connectionV allocated with
    | none | some ix => exact served_goTo hserved rfl
  | outside | queued =>
    refine iff_of_true ?_ (fun h => by cases hpc.symm.trans h)
    simp only [step, hpc]
    split
    · exact hserved
    · exact (served_goTo hserved rfl).mpr rfl
  | taken result | poolPosted result =>
    refine iff_of_true ?_ (fun h => by cases hpc.symm.trans h)
    rw [hpc] at hthread
    simp only [step, hpc]
    cases result with
    | none => cases hthread
    | some ix => exact (served_goTo hserved rfl).mpr rfl
  | connecting ix | holding ix =>
    refine iff_of_true ?_ (fun h => by cases hpc.symm.trans h)
    simp only [step, hpc]
    exact (served_goTo hserved rfl).mpr rfl
  | refused =>
    rw [hpc] at hthread
    cases hthread

end

section

variable [DecidableEq τ]

/-- Connections are never shared, but every caller gets one exactly as long as every search finds a
free slot. -/
theorem exclusive_and_served_iff (poolSize : ℕ) (events : List (Event τ)) :
    Throughout step (Exclusive poolSize) (pgConnectionPoolCreate poolSize) events ∧
      (Throughout step Served (pgConnectionPoolCreate poolSize) events ↔
        Guarded step SlotFree (pgConnectionPoolCreate poolSize) events) := by
  constructor
  · refine Throughout.mono (fun _ (k : Kept poolSize _ _) => k.exclusive) ?_
    exact throughout_of_guarded (created_kept poolSize) (fun s e k _ => step_kept k e) guarded_true
  · refine throughout_iff_guarded (fun _ => rfl) (fun _ h => h) ?_ ?_ guarded_true
    · intro s e hserved _ hfree
      exact (step_served hserved e).mpr hfree
    · intro s e hserved _ hnot hnext
      exact hnot ((step_served hserved e).mp hnext)

theorem second_thread_refused :
    ¬ Throughout step Served (pgConnectionPoolCreate 1)
      ((List.replicate 6 ((0 : ℕ), true)) ++ List.replicate 3 (1, true)) := by
  intro h
  have hlast := h.last 1
  revert hlast
  decide

end

end PgConnectionPool
