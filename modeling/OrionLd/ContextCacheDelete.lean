import Mathlib.Data.List.ReduceOption
import OrionLd.OrionldContextCache

/-! A cached context that is deleted by its id or by its url. The items of an array note the id
of the array as their parent, so that a deletion by the url passes them over. -/
namespace ContextCacheDelete

open OrionldContextCache List Bool

variable (mem : Memory) (s : ContextCache)

def Cached (p : ContextRef) : Prop := some p ∈ s.array.take s.slotIx

instance (p : ContextRef) : Decidable (Cached s p) := inferInstanceAs (Decidable (_ ∈ _))

def isChild (c : OrionldContext) (id : String) : Bool :=
  c.origin != .downloaded && c.parent == some id

/-- The slots when the context at p, with its id, is gone with its children. -/
def withoutFamily (p : ContextRef) (id : String) : List (Option ContextRef) :=
  (s.array.take s.slotIx).map (fun slot => slot.filter fun q => q != p && !isChild (mem q) id) ++
    s.array.drop s.slotIx

/-- Either name leaves the cache without the context and its children, and nothing else. -/
def DeletedAlike (p : ContextRef) (id : String) : Prop :=
  (orionldContextCacheDelete mem s id).cache =
      (orionldContextCacheDelete mem s (mem p).url).cache ∧
    ∀ name ∈ [id, (mem p).url], (orionldContextCacheDelete mem s name).found = true ∧
      (orionldContextCacheDelete mem s name).cache.array = withoutFamily mem s p id

/-- No context but its children goes by its names or notes its url as the parent, and its children
all do. -/
structure NamesItsFamily (p : ContextRef) (id : String) : Prop where
  others : ∀ q, Cached s q → q ≠ p → isChild (mem q) id = false →
    answersTo (mem q) id = false ∧ answersTo (mem q) (mem p).url = false ∧
      isChild (mem q) (mem p).url = false
  children : ∀ q, Cached s q → q ≠ p → isChild (mem q) id = true →
    answersTo (mem q) (mem p).url = true ∨ isChild (mem q) (mem p).url = true

variable {mem : Memory} {s : ContextCache} {p : ContextRef} {id name : String}

theorem deletedBy_eq (c : OrionldContext) (name : String) :
    deletedBy c name = (answersTo c name || isChild c name) := by
  unfold deletedBy answersTo isChild
  rw [Bool.or_comm (c.id == some name)]

theorem answers_id (hid : (mem p).id = some id) : answersTo (mem p) id = true := by
  rw [answersTo, hid, beq_self_eq_true, Bool.or_true]

theorem answers_url : answersTo (mem p) (mem p).url = true := by
  rw [answersTo, beq_self_eq_true, Bool.true_or]

theorem found_of_answers (hp : Cached s p) (hname : answersTo (mem p) name = true) :
    (orionldContextCacheDelete mem s name).found = true :=
  any_eq_true.mpr ⟨p, reduceOption_mem_iff.mpr hp, hname⟩

theorem array_eq_iff : (orionldContextCacheDelete mem s name).cache.array =
    withoutFamily mem s p id ↔
      ∀ q, Cached s q → deletedBy (mem q) name = (q == p || isChild (mem q) id) := by
  have hfilters (q : ContextRef) : releaseSlot mem name (some q) =
      (some q).filter (fun q => q != p && !isChild (mem q) id) ↔
        deletedBy (mem q) name = (q == p || isChild (mem q) id) := by
    unfold releaseSlot
    rw [Option.filter_some, Option.filter_some, bne]
    cases deletedBy (mem q) name <;> cases q == p <;> cases isChild (mem q) id <;> simp
  change (s.array.take s.slotIx).map (releaseSlot mem name) ++ s.array.drop s.slotIx =
    withoutFamily mem s p id ↔ _
  rw [withoutFamily, append_cancel_right_eq, map_inj_left]
  constructor
  · intro h q hq
    exact (hfilters q).mp (h (some q) hq)
  · intro h slot hslot
    cases slot with
    | none => rfl
    | some q => exact (hfilters q).mpr (h q hslot)

theorem cache_eq {name' : String} (h : (orionldContextCacheDelete mem s name).cache.array =
    (orionldContextCacheDelete mem s name').cache.array) :
    (orionldContextCacheDelete mem s name).cache =
      (orionldContextCacheDelete mem s name').cache := by
  unfold orionldContextCacheDelete at h ⊢
  dsimp only at h ⊢
  simp only [h]

/-- A context is deleted alike by its id and by its url exactly when no other one goes by its names
and its children are found by the url as well. -/
theorem delete_alike_iff {mem : Memory} {s : ContextCache} {p : ContextRef} {id : String}
    (hp : Cached s p) (hid : (mem p).id = some id) :
    DeletedAlike mem s p id ↔ NamesItsFamily mem s p id := by
  constructor
  · rintro ⟨-, h⟩
    have hById := array_eq_iff.mp (h id (by simp)).2
    have hByUrl := array_eq_iff.mp (h (mem p).url (by simp)).2
    constructor
    · intro q hq hne hchild
      have hId := hById q hq
      have hUrl := hByUrl q hq
      rw [deletedBy_eq, hchild, beq_false_of_ne hne, Bool.or_false, Bool.or_false] at hId
      rw [deletedBy_eq, hchild, beq_false_of_ne hne, Bool.or_false, Bool.or_eq_false_iff] at hUrl
      exact ⟨hId, hUrl.1, hUrl.2⟩
    · intro q hq hne hchild
      have hUrl := hByUrl q hq
      rw [deletedBy_eq, hchild, Bool.or_true, Bool.or_eq_true_iff] at hUrl
      exact hUrl
  · intro h
    have harrays : ∀ name ∈ [id, (mem p).url],
        (orionldContextCacheDelete mem s name).cache.array = withoutFamily mem s p id := by
      intro name hname
      refine array_eq_iff.mpr fun q hq => ?_
      rw [deletedBy_eq]
      by_cases hqp : q = p
      · subst hqp
        rw [beq_self_eq_true, Bool.true_or]
        rcases List.mem_pair.mp hname with rfl | rfl
        · rw [answers_id hid, Bool.true_or]
        · rw [answers_url, Bool.true_or]
      · rw [beq_false_of_ne hqp, Bool.false_or]
        cases hchild : isChild (mem q) id with
        | false =>
          obtain ⟨hId, hUrl, hParent⟩ := h.others q hq hqp hchild
          rcases List.mem_pair.mp hname with rfl | rfl
          · rw [hId, hchild, Bool.false_or]
          · rw [hUrl, hParent, Bool.false_or]
        | true =>
          rcases List.mem_pair.mp hname with rfl | rfl
          · rw [hchild, Bool.or_true]
          · exact Bool.or_eq_true_iff.mpr (h.children q hq hqp hchild)
    refine ⟨cache_eq ?_, fun name hname => ⟨found_of_answers hp ?_, harrays name hname⟩⟩
    · rw [harrays id (by simp), harrays (mem p).url (by simp)]
    · rcases mem_pair.mp hname with rfl | rfl
      · exact answers_id hid
      · exact answers_url

def arrayMemory : Memory := fun
  | 0 => ⟨some "a", "http://host/a", none, .userCreated⟩
  | 1 => ⟨some "b", "http://host/b", some "a", .userCreated⟩
  | _ => ⟨some "c", "http://host/c", none, .userCreated⟩

def arrayCache (array : List (Option ContextRef)) : ContextCache where
  array := array
  slots := array.length
  slotIx := array.length
  usedAt := fun _ => 0
  lookups := fun _ => 0
  size := rfl

theorem lone_context_deleted_alike :
    DeletedAlike arrayMemory (arrayCache [some 2, some 0]) 0 "a" := by
  refine (delete_alike_iff (by decide) rfl).mpr ⟨?_, ?_⟩
  · intro q hq hne hchild
    obtain rfl : q = 2 := by
      rcases mem_pair.mp hq with h | h
      · exact Option.some.inj h
      · exact absurd (Option.some.inj h) hne
    decide
  · intro q hq hne hchild
    obtain rfl : q = 2 := by
      rcases mem_pair.mp hq with h | h
      · exact Option.some.inj h
      · exact absurd (Option.some.inj h) hne
    cases hchild

/-- The url leaves the item of the array behind. -/
theorem item_left_behind : ∃ mem s p id, Cached s p ∧ (mem p).id = some id ∧
    ¬ DeletedAlike mem s p id := by
  refine ⟨arrayMemory, arrayCache [some 1, some 0], 0, "a", by decide, rfl, ?_⟩
  rintro ⟨-, h⟩
  exact absurd (h "http://host/a" (by decide)).2 (by decide)

end ContextCacheDelete
