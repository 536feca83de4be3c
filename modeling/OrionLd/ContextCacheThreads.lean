import OrionLd.OrionldContextCache
import Mathlib.Data.List.ReduceOption

/-! Threads that insert into the context cache, each a context of its own. The slot index is read
before the semaphore is taken: a thread that was overtaken in between writes over a slot another
thread has filled. Every inserted context keeps its slot when no thread is overtaken and none finds
every slot taken. -/
namespace ContextCacheThreads

open OrionldContextCache StepSystem List Option Function

def insertSection (s : ContextCache) (slotNo : ℕ) (p : ContextRef) : ContextCache :=
  let (slotNo, slotIx) := if s.slots ≤ slotNo then ((findHole s.array).getD slotNo, s.slotIx)
    else (slotNo, s.slotIx + 1)
  let s := { s with slotIx := slotIx }
  if s.slots ≤ slotNo then store (reallocate s) s.slotIx p else store s slotNo p

variable {s : ContextCache} {slotNo ix : ℕ} {p : ContextRef}

theorem section_append (h : slotNo < s.slots) :
    insertSection s slotNo p = store { s with slotIx := s.slotIx + 1 } slotNo p := by
  unfold insertSection
  rw [if_neg (Nat.not_le.mpr h)]
  dsimp only
  rw [if_neg (Nat.not_le.mpr h)]

theorem section_hole (h : s.slots ≤ slotNo) (hix : findHole s.array = some ix)
    (hlt : ix < s.slots) : insertSection s slotNo p = store s ix p := by
  unfold insertSection
  rw [if_pos h, hix]
  dsimp only [getD_some]
  rw [if_neg (Nat.not_le.mpr hlt)]

theorem section_grow (h : s.slots ≤ slotNo) (hix : findHole s.array = none) :
    insertSection s slotNo p = store (reallocate s) s.slotIx p := by
  unfold insertSection
  rw [if_pos h, hix]
  dsimp only [getD_none]
  rw [if_pos h]

section

variable {τ : Type*}

inductive Next where
  | read
  | take (slotNo : ℕ)
  | done
  deriving DecidableEq

structure State (τ : Type*) where
  cache : ContextCache
  next : τ → Next
  inserted : List ContextRef

/-- The contexts in the cache count as inserted. -/
def start (cache : ContextCache) : State τ := ⟨cache, fun _ => .read, cache.array.reduceOption⟩

structure Calls (τ : Type*) where
  mem : Memory
  service : τ → ServiceRoutine
  contextP : τ → Option ContextRef

/-- The context of the thread, unless it is NULL or an inline context that is not kept. -/
def Calls.kept (calls : Calls τ) (t : τ) : Option ContextRef :=
  (calls.contextP t).filter fun p => !droppedInline (calls.mem p) (calls.service t)

variable [DecidableEq τ]

def step (calls : Calls τ) (s : State τ) (t : τ) : State τ :=
  match s.next t with
  | .read => { s with next := Function.update s.next t (.take s.cache.slotIx) }
  | .take slotNo => match calls.kept t with
    | none => { s with next := Function.update s.next t .done }
    | some p => {
        cache := insertSection s.cache slotNo p
        next := Function.update s.next t .done
        inserted := p :: s.inserted }
  | .done => s

/-- Each inserted context is in a slot below the index, and a slot has one context. -/
def Placed (s : State τ) : Prop :=
  ∀ p ∈ s.inserted, ∃ ix < s.cache.slotIx, s.cache.array[ix]? = some (some p)

/-- A thread that takes the semaphore has not been overtaken and finds a free slot. -/
def Current (calls : Calls τ) (s : State τ) (t : τ) : Prop :=
  ∀ slotNo, s.next t = .take slotNo → (calls.kept t).isSome = true →
    slotNo = s.cache.slotIx ∧ ¬ Full s.cache

/-- A cache as one thread leaves it: no context twice, and none beyond the index. -/
structure Settled (cache : ContextCache) : Prop where
  slotIx_le : cache.slotIx ≤ cache.slots
  below : ∀ (ix : ℕ) (p : ContextRef), cache.array[ix]? = some (some p) → ix < cache.slotIx
  unique : ∀ (i j : ℕ) (p : ContextRef), cache.array[i]? = some (some p) →
    cache.array[j]? = some (some p) → i = j

/-- No two threads have the same context, and none has one that is in the cache. -/
structure Own (calls : Calls τ) (cache : ContextCache) : Prop where
  apart : ∀ (t u : τ) (p : ContextRef), calls.kept t = some p → calls.kept u = some p → t = u
  outside : ∀ (t : τ) (p : ContextRef), calls.kept t = some p → some p ∉ cache.array

/-- Since a thread has read the index, the slots from there on have been filled. -/
structure Kept (calls : Calls τ) (s : State τ) : Prop where
  slotIx_le : s.cache.slotIx ≤ s.cache.slots
  placed : Placed s
  unique : ∀ (i j : ℕ) (p : ContextRef), s.cache.array[i]? = some (some p) →
    s.cache.array[j]? = some (some p) → i = j
  stored : ∀ (i : ℕ) (p : ContextRef), s.cache.array[i]? = some (some p) → p ∈ s.inserted
  waiting : ∀ (t : τ) (slotNo : ℕ), s.next t = .take slotNo → slotNo ≤ s.cache.slotIx ∧
    ∀ k, slotNo ≤ k → k < s.cache.slotIx → ∃ p, s.cache.array[k]? = some (some p)
  fresh : ∀ (t : τ) (p : ContextRef), calls.kept t = some p → s.next t ≠ .done →
    p ∉ s.inserted

variable {calls : Calls τ} {s : State τ}

omit [DecidableEq τ] in
theorem start_kept {cache : ContextCache} (h : Settled cache) (hown : Own calls cache) :
    Kept calls (start cache) where
  slotIx_le := h.slotIx_le
  placed p hp := by
    obtain ⟨ix, hix⟩ := List.getElem?_of_mem (reduceOption_mem_iff.mp hp)
    exact ⟨ix, h.below ix p hix, hix⟩
  unique := h.unique
  stored i p hi := reduceOption_mem_iff.mpr (mem_of_getElem? hi)
  waiting t slotNo ht := by cases ht
  fresh t p hp _ hmem := hown.outside t p hp (reduceOption_mem_iff.mp hmem)

theorem store_getElem? {c : ContextCache} (hix : ix < c.slots) (p : ContextRef) (k : ℕ) :
    (store c ix p).array[k]? = if ix = k then some (some p) else c.array[k]? := by
  have hsize := c.size
  unfold store
  rw [List.getElem?_set]
  split
  · rw [if_pos (by omega)]
  · rfl

theorem reallocate_getElem? {c : ContextCache} {k : ℕ}
    (h : (reallocate c).array[k]? = some (some p)) : c.array[k]? = some (some p) := by
  unfold reallocate at h
  by_cases hk : k < c.array.length
  · rwa [List.getElem?_append_left hk] at h
  rw [List.getElem?_append_right (by omega), List.getElem?_replicate] at h
  split at h
  · cases h
  · cases h

variable {t : τ}

theorem kept_store {cache : ContextCache} (h : Kept calls s)
    (hown : ∀ u, calls.kept u = some p → u = t) (hp : p ∉ s.inserted)
    (hcache : cache.array = s.cache.array) (hle : cache.slotIx ≤ cache.slots)
    (hfree : ∀ q, s.cache.array[ix]? ≠ some (some q)) (hix : ix < cache.slots)
    (hbelow : ix < cache.slotIx) (hgrows : s.cache.slotIx ≤ cache.slotIx)
    (hnew : ∀ k, s.cache.slotIx ≤ k → k < cache.slotIx → k = ix) :
    Kept calls ⟨store cache ix p, Function.update s.next t .done, p :: s.inserted⟩ := by
  have hget := store_getElem? (c := cache) hix p
  rw [hcache] at hget
  have hold : ∀ (k : ℕ) (q : ContextRef), s.cache.array[k]? = some (some q) →
      (store cache ix p).array[k]? = some (some q) := by
    intro k q hk
    rw [hget, if_neg]
    · exact hk
    · rintro rfl
      exact hfree q hk
  refine ⟨hle, ?_, ?_, ?_, ?_, ?_⟩
  · intro q hq
    rcases mem_cons.mp hq with rfl | hq
    · exact ⟨ix, hbelow, by rw [hget, if_pos rfl]⟩
    · obtain ⟨k, hk, hslot⟩ := h.placed q hq
      exact ⟨k, Nat.lt_of_lt_of_le hk hgrows, hold k q hslot⟩
  · intro i j q hi hj
    rw [hget] at hi hj
    by_cases hii : ix = i <;> by_cases hjj : ix = j
    · omega
    · rw [if_pos hii] at hi
      rw [if_neg hjj] at hj
      obtain rfl := some.inj (some.inj hi)
      exact absurd (h.stored j _ hj) hp
    · rw [if_neg hii] at hi
      rw [if_pos hjj] at hj
      obtain rfl := some.inj (some.inj hj)
      exact absurd (h.stored i _ hi) hp
    · rw [if_neg hii] at hi
      rw [if_neg hjj] at hj
      exact h.unique i j q hi hj
  · intro i q hi
    rw [hget] at hi
    split at hi
    · obtain rfl := some.inj (some.inj hi)
      exact mem_cons_self
    · exact mem_cons_of_mem p (h.stored i q hi)
  · intro u slotNo hu
    change Function.update s.next t .done u = .take slotNo at hu
    by_cases hut : u = t
    · subst hut
      rw [update_self] at hu
      cases hu
    rw [update_of_ne hut] at hu
    obtain ⟨hle', hfilled⟩ := h.waiting u slotNo hu
    refine ⟨hle'.trans hgrows, fun k hk hk' => ?_⟩
    by_cases hsk : k < s.cache.slotIx
    · obtain ⟨q, hq⟩ := hfilled k hk hsk
      exact ⟨q, hold k q hq⟩
    · obtain rfl := hnew k (by omega) hk'
      exact ⟨p, by rw [hget, if_pos rfl]⟩
  · intro u q hq hu hmem
    change Function.update s.next t .done u ≠ .done at hu
    by_cases hut : u = t
    · subst hut
      exact hu (update_self _ _ _)
    rw [update_of_ne hut] at hu
    rcases mem_cons.mp hmem with rfl | hmem
    · exact hut (hown u hq)
    · exact h.fresh u q hq hu hmem

theorem kept_next {n : Next} (h : Kept calls s) (hne : s.next t ≠ .done)
    (hn : ∀ slotNo, n = .take slotNo → slotNo = s.cache.slotIx) :
    Kept calls { s with next := Function.update s.next t n } where
  slotIx_le := h.slotIx_le
  placed := h.placed
  unique := h.unique
  stored := h.stored
  waiting u slotNo hu := by
    change Function.update s.next t n u = .take slotNo at hu
    by_cases hut : u = t
    · subst hut
      rw [update_self] at hu
      obtain rfl := hn slotNo hu
      exact ⟨le_rfl, fun k hk hk' => absurd hk' (Nat.not_lt.mpr hk)⟩
    · rw [update_of_ne hut] at hu
      exact h.waiting u slotNo hu
  fresh u q hq hu := by
    change Function.update s.next t n u ≠ .done at hu
    by_cases hut : u = t
    · subst hut
      exact h.fresh u q hq hne
    · rw [update_of_ne hut] at hu
      exact h.fresh u q hq hu

theorem step_kept (hown : ∀ (t u : τ) p, calls.kept t = some p → calls.kept u = some p → t = u)
    (h : Kept calls s) (ht : Current calls s t) : Kept calls (step calls s t) := by
  unfold step
  cases hnext : s.next t with
  | done => exact h
  | read => exact kept_next h (by simp [hnext]) fun slotNo hslot => (Next.take.inj hslot).symm
  | take slotNo =>
    cases hkept : calls.kept t with
    | none => exact kept_next h (by simp [hnext]) nofun
    | some p =>
      obtain ⟨rfl, hroom⟩ := ht slotNo hnext (by rw [hkept]; rfl)
      have hp := h.fresh t p hkept (by simp [hnext])
      have happart := fun u hu => hown u t p hu hkept
      dsimp only
      by_cases hs : s.cache.slotIx < s.cache.slots
      · rw [section_append hs]
        refine kept_store h happart hp rfl hs ?_ hs (Nat.lt_succ_self _) (Nat.le_succ _) ?_
        · intro q hq
          obtain ⟨k, hk, hslot⟩ := h.placed q (h.stored _ q hq)
          exact absurd (h.unique _ _ q hq hslot) (by omega)
        · intro k hk hk'
          have hsucc : k < s.cache.slotIx + 1 := hk'
          omega
      · have hge : s.cache.slots ≤ s.cache.slotIx := by omega
        obtain ⟨ix, hix, hlt, hnone⟩ := hole_spec hge hroom
        rw [section_hole hge hix hlt]
        refine kept_store h happart hp rfl h.slotIx_le ?_ hlt (by omega) le_rfl ?_
        · intro q hq
          rw [hnone] at hq
          cases hq
        · intro k hk hk'
          omega

/-- The thread that was overtaken writes over a context, and the one that makes the array
grow leaves its context at the index. -/
theorem step_loses (h : Kept calls s) (ht : ¬ Current calls s t) : ¬ Placed (step calls s t) := by
  intro hplaced
  simp only [Current, Classical.not_forall] at ht
  obtain ⟨slotNo, hnext, hkept, hlost⟩ := ht
  obtain ⟨p, hkept⟩ := isSome_iff_exists.mp hkept
  obtain ⟨hle, hfilled⟩ := h.waiting t slotNo hnext
  have hp := h.fresh t p hkept (by simp [hnext])
  have hslotIx := h.slotIx_le
  have hstep : step calls s t = ⟨insertSection s.cache slotNo p,
      Function.update s.next t .done, p :: s.inserted⟩ := by
    unfold step
    rw [hnext, hkept]
  rw [hstep] at hplaced
  by_cases hcurrent : slotNo = s.cache.slotIx
  · subst hcurrent
    obtain ⟨hge, hnone⟩ := not_not.mp fun hroom => hlost ⟨rfl, hroom⟩
    have hhole : findHole s.cache.array = none := by
      rw [findHole, List.findIdx?_eq_none_iff]
      intro x hx
      cases x with
      | none => exact absurd hx hnone
      | some q => rfl
    obtain ⟨k, hk, hslot⟩ := hplaced p mem_cons_self
    rw [section_grow hge hhole] at hk hslot
    have hlt : s.cache.slotIx < (reallocate s.cache).slots := by
      change s.cache.slotIx < s.cache.slots + slotsToAdd
      unfold slotsToAdd
      omega
    have hk' : k < s.cache.slotIx := hk
    rw [store_getElem? hlt, if_neg (by omega)] at hslot
    exact hp (h.stored k p (reallocate_getElem? hslot))
  · obtain ⟨q, hq⟩ := hfilled slotNo le_rfl (by omega)
    obtain ⟨k, hk, hslot⟩ := hplaced q (mem_cons_of_mem p (h.stored slotNo q hq))
    have hroom : slotNo < s.cache.slots := by omega
    rw [section_append hroom, store_getElem? (c := { s.cache with
      slotIx := s.cache.slotIx + 1 }) hroom] at hslot
    split at hslot
    · obtain rfl := some.inj (some.inj hslot)
      exact hp (h.stored slotNo p hq)
    · rename_i hne
      exact hne (h.unique slotNo k q hq hslot)

/-- All inserted contexts keep slots of their own if and only if every thread takes the semaphore
before another one has stored after its read, and finds a free slot. -/
theorem contexts_placed_iff_current (calls : Calls τ) (cache : ContextCache)
    (threads : List τ) (hsettled : Settled cache) (hown : Own calls cache) :
    Throughout (step calls) Placed (start cache) threads ↔
      Guarded (step calls) (Current calls) (start cache) threads :=
  throughout_iff_guarded (start_kept hsettled hown) (fun _ h => h.placed)
    (fun _ _ h _ ht => step_kept hown.apart h ht) (fun _ _ h _ ht => step_loses h ht)
    guarded_true

end

def twoCalls : Calls Bool where
  mem := numberedContexts
  service := fun _ => .otherRoutine
  contextP := fun t => some (if t then 1 else 0)

theorem empty_settled (slots : ℕ) : Settled (emptyCache slots) where
  slotIx_le := Nat.zero_le slots
  below ix p h := by
    unfold emptyCache at h
    rw [List.getElem?_replicate] at h
    split at h <;> cases h
  unique i j p h := by
    unfold emptyCache at h
    rw [List.getElem?_replicate] at h
    split at h <;> cases h

theorem twoCalls_own : Own twoCalls (emptyCache 2) where
  apart t u p ht hu := by
    have hp : some p = some (if t then 1 else 0) := ht.symm
    have hq : some p = some (if u then 1 else 0) := hu.symm
    cases t <;> cases u
    · rfl
    · cases hp.symm.trans hq
    · cases hp.symm.trans hq
    · rfl
  outside t p _ h := by
    cases eq_of_mem_replicate h

theorem one_after_the_other_placed :
    Throughout (step twoCalls) Placed (start (emptyCache 2)) [false, false, true, true] := by
  refine (contexts_placed_iff_current twoCalls _ _ (empty_settled 2) twoCalls_own).mpr ?_
  refine ⟨nofun, ?_, nofun, ?_, trivial⟩
  · rintro slotNo hnext -
    obtain rfl := Next.take.inj hnext
    decide +kernel
  · rintro slotNo hnext -
    obtain rfl := Next.take.inj hnext
    decide +kernel

/-- Both threads read the index before one of them stores. -/
theorem overtaken_thread_overwrites :
    ¬ ∀ (calls : Calls Bool) (cache : ContextCache) (threads : List Bool), Settled cache →
      Own calls cache → (∀ t, (run (step calls) (start cache) threads).next t = .done) →
      Placed (run (step calls) (start cache) threads) := by
  intro h
  have hplaced := h twoCalls (emptyCache 2) [false, true, false, true] (empty_settled 2)
    twoCalls_own (by decide +kernel)
  obtain ⟨ix, hix, hslot⟩ := hplaced 0 (by decide +kernel)
  have hempty : ∀ ix < (run (step twoCalls) (start (emptyCache 2))
      [false, true, false, true]).cache.slotIx,
      (run (step twoCalls) (start (emptyCache 2)) [false, true, false, true]).cache.array[ix]? ≠
        some (some 0) := by decide +kernel
  exact hempty ix hix hslot

end ContextCacheThreads
