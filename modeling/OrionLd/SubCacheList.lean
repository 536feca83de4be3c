import Mathlib.Data.Int.Notation
import OrionLd.LinkedChain
import OrionLd.StepSystem

/-! The list of the subscription cache, with its nodes in a heap. A read through a null pointer and
a loop that goes round give none. The abstract cache is the list of subscriptions inserted and not
removed, in the order of their insertion. -/
namespace SubCacheList

open StepSystem FieldList LinkedChain List Option

abbrev Address := ℕ

variable {α : Type}

structure SubCache (α : Type) where
  heap : Heap Address α
  head : Option Address
  tail : Option Address
  noOfInserts : ℕ
  noOfRemoves : ℕ

def subCacheInit : SubCache α := ⟨[], none, none, 0, 0⟩

def subCacheItemInsert (s : SubCache α) (cSubP : Address) (item : α) : Option (SubCache α) :=
  let s := { s with
    heap := put cSubP ⟨item, none⟩ s.heap
    noOfInserts := s.noOfInserts + 1 }
  if s.head = none ∧ s.tail = none then some { s with head := some cSubP, tail := some cSubP }
  else do
    let tail ← s.tail
    let last ← s.heap.lookup tail
    some { s with
      heap := put tail { last with next := some cSubP } s.heap
      tail := some cSubP }

/-- The three ifs for the first, the last and a middle item, and then the node is deleted. -/
def removeFound (s : SubCache α) (cSubP : Address) (prev : Option Address) :
    Option (SubCache α × ℤ) := do
  let node ← s.heap.lookup cSubP
  let heap ← match prev with
    | none => some s.heap
    | some b => do
      let before ← s.heap.lookup b
      some (put b { before with next := node.next } s.heap)
  some ({ s with
    heap := remove [cSubP] heap
    head := if s.head = some cSubP then node.next else s.head
    tail := if s.tail = some cSubP then prev else s.tail
    noOfRemoves := s.noOfRemoves + 1 }, 0)

def removeLoop (s : SubCache α) (cSubP : Address) :
    ℕ → Option Address → Option Address → Option (SubCache α × ℤ)
  | _, _, none => some (s, -1)
  | 0, _, some _ => none
  | fuel + 1, prev, some current =>
    if current = cSubP then removeFound s cSubP prev
    else do
      let node ← s.heap.lookup current
      removeLoop s cSubP fuel (some current) node.next

def subCacheItemRemove (s : SubCache α) (cSubP : Address) : Option (SubCache α × ℤ) :=
  removeLoop s cSubP s.heap.length none s.head

/-- Each node is deleted after its next has been read. -/
def destroyLoop : ℕ → Heap Address α → Address → Option (Heap Address α)
  | 0, _, _ => none
  | fuel + 1, heap, cSubP => do
    let node ← heap.lookup cSubP
    match node.next with
    | none => some (remove [cSubP] heap)
    | some next => destroyLoop fuel (remove [cSubP] heap) next

def subCacheDestroy (s : SubCache α) : Option (SubCache α) :=
  match s.head with
  | none => some s
  | some first => do
    let heap ← destroyLoop s.heap.length s.heap first
    some { s with heap := heap, head := none, tail := none }

inductive Call (α : Type) where
  | insert (cSubP : Address) (item : α)
  | remove (cSubP : Address)
  | destroy

def next (s : SubCache α) : Call α → Option (SubCache α)
  | .insert cSubP item => subCacheItemInsert s cSubP item
  | .remove cSubP => (subCacheItemRemove s cSubP).map Prod.fst
  | .destroy => subCacheDestroy s

abbrev Members (α : Type) := List (Address × α)

def nextMembers (members : Members α) : Call α → Members α
  | .insert cSubP item => members ++ [(cSubP, item)]
  | .remove cSubP => members.filter fun m => m.1 ≠ cSubP
  | .destroy => []

structure History (α : Type) where
  cache : SubCache α
  members : Members α

def start : Option (History α) := some ⟨subCacheInit, []⟩

def record : Option (History α) → Call α → Option (History α)
  | none, _ => none
  | some h, call => (next h.cache call).map fun s => ⟨s, nextMembers h.members call⟩

/-- An item is inserted in memory that is not in use, as new gives it. -/
def Allocates : Option (History α) → Call α → Prop
  | some h, .insert cSubP _ => h.cache.heap.lookup cSubP = none
  | _, _ => True

instance (h : Option (History α)) (call : Call α) : Decidable (Allocates h call) :=
  match h, call with
  | some h, .insert cSubP _ => decidable_of_iff ((h.cache.heap.lookup cSubP).isNone = true)
      Option.isNone_iff_eq_none
  | none, .insert _ _ => isTrue trivial
  | none, .remove _ => isTrue trivial
  | some _, .remove _ => isTrue trivial
  | none, .destroy => isTrue trivial
  | some _, .destroy => isTrue trivial

/-- The nodes from the head on are the members in their order, and the tail is the last. -/
structure WellFormed (s : SubCache α) (members : Members α) : Prop where
  ends : s.head = none ↔ s.tail = none
  passed : Segment s.heap s.head members none
  last : ∀ a, s.tail = some a → ∃ item, members.getLast? = some (a, item) ∧
    s.heap.lookup a = some ⟨item, none⟩

def ListWellFormed : Option (History α) → Prop
  | none => False
  | some h => WellFormed h.cache h.members

variable {s : SubCache α} {members : Members α} {a : Address} {item : α}

structure Chained (s : SubCache α) (members : Members α) : Prop where
  chain : Segment s.heap s.head members none
  tail : s.tail = members.getLast?.map Prod.fst
  nodup : (members.map Prod.fst).Nodup

theorem chain_concat {heap : Heap Address α} {p : Option Address}
    (h : Segment heap p (members ++ [(a, item)]) none) :
    Segment heap p members (some a) ∧ heap.lookup a = some ⟨item, none⟩ := by
  obtain ⟨r, hinit, hr, next, hnext, hend⟩ := segment_append.mp h
  subst hend
  rw [hr] at hinit
  exact ⟨hinit, hnext⟩

theorem Chained.wellFormed (h : Chained s members) : WellFormed s members := by
  rcases eq_nil_or_concat members with rfl | ⟨init, ⟨t, y⟩, rfl⟩
  · have hhead : s.head = none := h.chain
    refine ⟨iff_of_true hhead h.tail, h.chain, ?_⟩
    intro a ha
    rw [h.tail] at ha
    cases ha
  · rw [concat_eq_append] at h ⊢
    have htail := h.tail
    rw [List.getLast?_concat, map_some] at htail
    obtain ⟨hinit, hlast⟩ := chain_concat h.chain
    refine ⟨iff_of_false ?_ ?_, h.chain, ?_⟩
    · cases init with
      | nil =>
        rw [segment_nil] at hinit
        simp [hinit]
      | cons m init => simp [hinit.1]
    · simp [htail]
    · intro a ha
      obtain rfl : t = a := some.inj (htail.symm.trans ha)
      exact ⟨y, List.getLast?_concat, hlast⟩

theorem insert_chained (item : α) (h : Chained s members) (ha : s.heap.lookup a = none) :
    ∃ s', subCacheItemInsert s a item = some s' ∧ Chained s' (members ++ [(a, item)]) := by
  have hfresh := h.chain.fresh ha
  have hnodup : ((members ++ [(a, item)]).map Prod.fst).Nodup := by
    rw [map_append]
    exact nodup_append.mpr ⟨h.nodup, nodup_singleton a, by
      intro b hb c hc
      rw [map_singleton, mem_singleton] at hc
      subst hc
      rintro rfl
      exact hfresh hb⟩
  rcases eq_nil_or_concat members with rfl | ⟨init, ⟨t, y⟩, rfl⟩
  · have hhead : s.head = none := h.chain
    have htail : s.tail = none := h.tail
    unfold subCacheItemInsert
    rw [if_pos ⟨hhead, htail⟩]
    exact ⟨_, rfl, ⟨rfl, none, lookup_put_self, rfl⟩, rfl, hnodup⟩
  · rw [concat_eq_append] at h hfresh hnodup ⊢
    have htail := h.tail
    rw [List.getLast?_concat, map_some] at htail
    obtain ⟨hinit, hlast⟩ := chain_concat h.chain
    rw [map_append, mem_append, not_or] at hfresh
    have hne : t ≠ a := fun e => hfresh.2 (by simp [e])
    have htinit : t ∉ init.map Prod.fst := by
      have hboth := h.nodup
      rw [map_append] at hboth
      exact fun hm => (nodup_append.mp hboth).2.2 t hm t (by simp) rfl
    have hlast' : (put a ⟨item, none⟩ s.heap).lookup t = some ⟨y, none⟩ :=
      (lookup_put_of_ne hne).trans hlast
    unfold subCacheItemInsert
    rw [if_neg (fun hnone => by simp [htail] at hnone), htail, bind_eq_bind,
      bind_some, hlast', bind_eq_bind, bind_some]
    refine ⟨_, rfl, ?_, ?_, hnodup⟩
    · have hlinked := (hinit.put ⟨item, none⟩ hfresh.1).link (x := y) (q := some a) htinit
      refine segment_append.mpr ⟨some a, hlinked, rfl, none, ?_, rfl⟩
      exact (lookup_put_of_ne hne.symm).trans lookup_put_self
    · rw [List.getLast?_concat]
      rfl

theorem removeFound_chained {pre post : Members α}
    (h : Chained s (pre ++ (a, item) :: post)) :
    ∃ s', removeFound s a (pre.getLast?.map Prod.fst) = some (s', 0) ∧
      Chained s' (pre ++ post) := by
  obtain ⟨hchain, htail, hnodup⟩ := h
  have hnodup' : ((pre ++ post).map Prod.fst).Nodup := by
    refine hnodup.sublist (List.Sublist.map _ ?_)
    exact List.Sublist.append_left (sublist_cons_self _ _) _
  rw [map_append, map_cons, nodup_append] at hnodup
  obtain ⟨hpre, hrest, hdisjoint⟩ := hnodup
  have hapost := (nodup_cons.mp hrest).1
  have hapre : a ∉ pre.map Prod.fst := fun hm => hdisjoint a hm a mem_cons_self rfl
  obtain ⟨r, hinit, rfl, next, hnext, hpost⟩ := segment_append.mp hchain
  have htail' : (if s.tail = some a then pre.getLast?.map Prod.fst else s.tail) =
      (pre ++ post).getLast?.map Prod.fst := by
    rcases eq_nil_or_concat post with rfl | ⟨init, ⟨t, y⟩, rfl⟩
    · rw [List.getLast?_concat, map_some] at htail
      rw [if_pos htail, append_nil]
    have hta : t ≠ a := by
      rintro rfl
      exact hapost (by simp)
    rw [concat_eq_append, ← cons_append, ← append_assoc, List.getLast?_concat, map_some] at htail
    rw [concat_eq_append, ← append_assoc, List.getLast?_concat, map_some, htail,
      if_neg (fun e => hta (some.inj e))]
  unfold removeFound
  rw [hnext, bind_eq_bind, bind_some]
  rcases eq_nil_or_concat pre with rfl | ⟨init, ⟨b, z⟩, rfl⟩
  · have hhead : s.head = some a := hinit
    refine ⟨_, rfl, ?_, htail', hnodup'⟩
    rw [if_pos hhead]
    exact hpost.remove hapost
  · rw [concat_eq_append] at *
    have hfirst : s.head ≠ some a := by
      intro hhead
      cases init with
      | nil =>
        have hfirst : b = a := some.inj (hinit.1.symm.trans hhead)
        exact hapre (by simp [hfirst])
      | cons m init =>
        have hfirst : m.1 = a := some.inj (hinit.1.symm.trans hhead)
        exact hapre (by simp [hfirst])
    obtain ⟨r', hbefore, rfl, nextb, hb, hlink⟩ := segment_append.mp hinit
    have hbinit : b ∉ init.map Prod.fst := by
      rw [map_append] at hpre
      exact fun hm => (nodup_append.mp hpre).2.2 b hm b (by simp) rfl
    have hbpost : b ∉ post.map Prod.fst := fun hm =>
      hdisjoint b (by simp) b (mem_cons_of_mem _ hm) rfl
    rw [List.getLast?_concat, map_some]
    dsimp only
    rw [hb, bind_eq_bind, bind_some, bind_some]
    refine ⟨_, rfl, ?_, ?_, hnodup'⟩
    · dsimp only
      rw [if_neg hfirst]
      have hlinked : Segment (put b ⟨z, next⟩ s.heap) s.head (init ++ [(b, z)]) next :=
        hbefore.link hbinit
      exact segment_append.mpr ⟨next, hlinked.remove hapre, (hpost.put _ hbpost).remove hapost⟩
    · rw [List.getLast?_concat, map_some] at htail'
      exact htail'

theorem removeLoop_eq (pre : Members α) {post : Members α} {current : Option Address} {fuel : ℕ}
    (hpost : Segment s.heap current post none) (hfuel : post.length ≤ fuel) :
    (a ∉ post.map Prod.fst →
      removeLoop s a fuel (pre.getLast?.map Prod.fst) current = some (s, -1)) ∧
    ∀ mid item rest, post = mid ++ (a, item) :: rest → a ∉ mid.map Prod.fst →
      removeLoop s a fuel (pre.getLast?.map Prod.fst) current =
        removeFound s a ((pre ++ mid).getLast?.map Prod.fst) := by
  induction post generalizing pre current fuel with
  | nil =>
    subst hpost
    refine ⟨fun _ => by rw [removeLoop], ?_⟩
    intro mid item rest hsplit
    cases mid <;> cases hsplit
  | cons m post ih =>
    obtain ⟨rfl, next, hnext, hrest⟩ := hpost
    obtain ⟨fuel, rfl⟩ : ∃ n, fuel = n + 1 := ⟨fuel - 1, by simp at hfuel; omega⟩
    have hfuel' : post.length ≤ fuel := by simpa using hfuel
    have hprev : ((pre ++ [m]).getLast?.map Prod.fst : Option Address) = some m.1 := by
      rw [List.getLast?_concat, map_some]
    have hstep (hne : m.1 ≠ a) : removeLoop s a (fuel + 1) (pre.getLast?.map Prod.fst) (some m.1) =
        removeLoop s a fuel ((pre ++ [m]).getLast?.map Prod.fst) next := by
      rw [removeLoop, if_neg hne, hnext, bind_eq_bind, bind_some, hprev]
    constructor
    · intro ha
      rw [map_cons, mem_cons, not_or] at ha
      rw [hstep (Ne.symm ha.1)]
      exact (ih (pre ++ [m]) hrest hfuel').1 ha.2
    · intro mid item rest hsplit hmid
      cases mid with
      | nil =>
        cases hsplit
        rw [removeLoop, if_pos rfl, append_nil]
      | cons m' mid =>
        cases hsplit
        rw [map_cons, mem_cons, not_or] at hmid
        rw [hstep (Ne.symm hmid.1), (ih (pre ++ [m]) hrest hfuel').2 mid item rest rfl hmid.2,
          append_assoc]
        rfl

theorem filter_of_absent (h : a ∉ members.map Prod.fst) :
    (members.filter fun m => m.1 ≠ a) = members := by
  refine filter_eq_self.mpr fun m hm => decide_eq_true ?_
  rintro rfl
  exact h (mem_map_of_mem hm)

theorem remove_chained (h : Chained s members) (a : Address) :
    ∃ s' result, subCacheItemRemove s a = some (s', result) ∧
      Chained s' (members.filter fun m => m.1 ≠ a) ∧
      (result = 0 ↔ a ∈ members.map Prod.fst) := by
  have hlength := h.chain.length_le h.nodup
  by_cases ha : a ∈ members.map Prod.fst
  · obtain ⟨⟨_, item⟩, hm, rfl⟩ := mem_map.mp ha
    obtain ⟨pre, post, rfl⟩ := append_of_mem hm
    rename_i a
    have hnodup := h.nodup
    rw [map_append, map_cons, nodup_append, nodup_cons] at hnodup
    have hpre : a ∉ pre.map Prod.fst := fun hmem => hnodup.2.2 a hmem a mem_cons_self rfl
    obtain ⟨s', hs', hchained⟩ := removeFound_chained h
    have hfilter : ((pre ++ (a, item) :: post).filter fun m => m.1 ≠ a) = pre ++ post := by
      rw [filter_append, filter_of_absent hpre, filter_cons_of_neg (by simp),
        filter_of_absent hnodup.2.1.1]
    refine ⟨s', 0, ?_, ?_, iff_of_true rfl ha⟩
    · exact ((removeLoop_eq [] h.chain hlength).2 pre item post rfl hpre).trans hs'
    · rw [hfilter]
      exact hchained
  · refine ⟨s, -1, ?_, ?_, iff_of_false (by decide) ha⟩
    · cases members with
      | nil =>
        have hhead : s.head = none := h.chain
        rw [subCacheItemRemove, hhead, removeLoop]
      | cons m members =>
        exact (removeLoop_eq [] h.chain hlength).1 ha
    · rw [filter_of_absent ha]
      exact h

theorem destroyLoop_ok {heap : Heap Address α} {first : Address} {fuel : ℕ}
    (h : Segment heap (some first) members none) (hnodup : (members.map Prod.fst).Nodup)
    (hfuel : members.length ≤ fuel) : ∃ heap', destroyLoop fuel heap first = some heap' := by
  induction members generalizing heap first fuel with
  | nil => cases h
  | cons m members ih =>
    obtain ⟨hfirst, next, hnext, hrest⟩ := h
    cases hfirst
    obtain ⟨fuel, rfl⟩ : ∃ n, fuel = n + 1 := ⟨fuel - 1, by simp at hfuel; omega⟩
    rw [map_cons, nodup_cons] at hnodup
    rw [destroyLoop, hnext, bind_eq_bind, bind_some]
    cases next with
    | none => exact ⟨_, rfl⟩
    | some next => exact ih (hrest.remove hnodup.1) hnodup.2 (by simpa using hfuel)

theorem destroy_chained (h : Chained s members) :
    ∃ s', subCacheDestroy s = some s' ∧ Chained s' [] := by
  unfold subCacheDestroy
  cases hhead : s.head with
  | none =>
    have hempty : members = [] := by
      cases members with
      | nil => rfl
      | cons m members =>
        have hfirst := h.chain.1
        rw [hhead] at hfirst
        cases hfirst
    subst hempty
    exact ⟨s, rfl, h⟩
  | some first =>
    have hchain := h.chain
    rw [hhead] at hchain
    obtain ⟨heap', hheap⟩ := destroyLoop_ok hchain h.nodup (h.chain.length_le h.nodup)
    dsimp only
    rw [hheap]
    exact ⟨_, rfl, rfl, rfl, nodup_nil⟩

def HistoryChained : Option (History α) → Prop
  | none => False
  | some h => Chained h.cache h.members

theorem record_chained (h : Option (History α)) (call : Call α) (hh : HistoryChained h)
    (hcall : Allocates h call) : HistoryChained (record h call) := by
  cases h with
  | none => exact hh
  | some h =>
    have hchained : Chained h.cache h.members := hh
    cases call with
    | insert cSubP item =>
      obtain ⟨s', hs', hnext⟩ := insert_chained item hchained hcall
      rw [record, next, hs', map_some]
      exact hnext
    | remove cSubP =>
      obtain ⟨s', result, hs', hnext, -⟩ := remove_chained hchained cSubP
      rw [record, next, hs', map_some, map_some]
      exact hnext
    | destroy =>
      obtain ⟨s', hs', hnext⟩ := destroy_chained hchained
      rw [record, next, hs', map_some]
      exact hnext

/-- Whatever is inserted, removed and destroyed, no loop goes round, no null pointer is read
through, and the list is what was inserted and not removed. -/
theorem list_well_formed (calls : List (Call α))
    (h : Guarded record Allocates (start : Option (History α)) calls) :
    Throughout record ListWellFormed (start : Option (History α)) calls := by
  have hstart : HistoryChained (start : Option (History α)) := ⟨rfl, rfl, nodup_nil⟩
  refine (throughout_of_guarded hstart record_chained h).mono ?_
  intro h hh
  cases h with
  | none => exact hh
  | some h => exact Chained.wellFormed hh

theorem removed_and_inserted : Throughout record ListWellFormed (start : Option (History ℕ))
    [.insert 1 10, .insert 2 20, .remove 2, .insert 3 30, .remove 1, .remove 3, .insert 1 40] :=
  list_well_formed _ (by decide)

end SubCacheList
