import OrionLd.KjTree
import Mathlib.Data.Fintype.EquivFin

/-! The filter for the entity selectors of a query. The flag is never reset: what selects everything
is left out in front of the first other selector only, and a pattern sets the flag without leaving a
condition behind. -/
namespace EntityInfoArrayFilter

open List
open KjTree (Text)

structure EntityInfo where
  id : Option Text
  idPattern : Option Text
  type : Option Text

def entityInfo (entity : List (Text × Text)) : EntityInfo :=
  entity.foldl (fun info (name, value) =>
    if name = "id".toList ∨ name = "@id".toList then { info with id := value }
    else if name = "idPattern".toList then { info with idPattern := value }
    else if name = "type".toList ∨ name = "@type".toList then { info with type := value }
    else info) ⟨none, none, none⟩

def EntityInfo.touches (info : EntityInfo) : Prop :=
  info.id ≠ none ∨ info.type ≠ none ∨ ∃ idPattern ∈ info.idPattern, idPattern ≠ ".*".toList

instance : DecidablePred EntityInfo.touches := fun _ => inferInstanceAs (Decidable (_ ∨ _ ∨ _))

def EntityInfo.ePart (info : EntityInfo) : List (Text × Text) :=
  (info.id.map ("_id.id".toList, ·)).toList ++ (info.type.map ("_id.type".toList, ·)).toList

def appendPart : Bool × List (List (Text × Text)) → List (Text × Text) →
    Bool × List (List (Text × Text))
  | (touched, eArray), entity =>
    let info := entityInfo entity
    let touched := touched || info.touches
    (touched, if touched then eArray ++ [info.ePart] else eArray)

def entityInfoArrayFilter (entities : List (List (Text × Text))) :
    Option (List (List (Text × Text))) :=
  let (touched, eArray) := entities.foldl appendPart (false, [])
  if touched then some eArray else none

structure Entity where
  id : Text
  type : Text

def Entity.satisfies (e : Entity) (condition : Text × Text) : Prop :=
  condition.1 = "_id.id".toList ∧ e.id = condition.2 ∨
    condition.1 = "_id.type".toList ∧ e.type = condition.2

def Selected (filter : Option (List (List (Text × Text)))) (e : Entity) : Prop :=
  ∀ eArray ∈ filter, ∃ ePart ∈ eArray, ∀ condition ∈ ePart, e.satisfies condition

def EntityInfo.Names (info : EntityInfo) (e : Entity) : Prop :=
  (∀ id ∈ info.id, e.id = id) ∧ ∀ type ∈ info.type, e.type = type

variable (regexMatch : Text → Text → Prop)

def EntityInfo.Selects (info : EntityInfo) (e : Entity) : Prop :=
  info.Names e ∧ ∀ idPattern ∈ info.idPattern, regexMatch idPattern e.id

/-- In any order the selectors select what matches one of them. -/
def Exact (entities : List (List (Text × Text))) : Prop :=
  ∀ entities', entities' ~ entities → ∀ e,
    Selected (entityInfoArrayFilter entities') e ↔
      ∃ entity ∈ entities, (entityInfo entity).Selects regexMatch e

/-- A selector for everything is the only kind, or comes with one that has only a pattern. Without
one, the entities that a pattern rejects match another selector. -/
def Harmless (entities : List (List (Text × Text))) : Prop :=
  (∃ entity ∈ entities, ¬ (entityInfo entity).touches) ∧
      ((∀ entity ∈ entities, ¬ (entityInfo entity).touches) ∨
        ∃ entity ∈ entities, (entityInfo entity).touches ∧ (entityInfo entity).ePart = []) ∨
    (∀ entity ∈ entities, (entityInfo entity).touches) ∧
      ∀ entity ∈ entities, ∀ e, (entityInfo entity).Names e →
        ∃ other ∈ entities, (entityInfo other).Selects regexMatch e

variable {entities : List (List (Text × Text))} {e : Entity} {info : EntityInfo}

theorem ePart_iff : (∀ condition ∈ info.ePart, e.satisfies condition) ↔ info.Names e := by
  obtain ⟨id, idPattern, type⟩ := info
  cases id <;> cases type <;> simp [EntityInfo.ePart, EntityInfo.Names, Entity.satisfies]

theorem foldl_touched {eArray : List (List (Text × Text))} :
    entities.foldl appendPart (true, eArray) =
      (true, eArray ++ entities.map fun entity => (entityInfo entity).ePart) := by
  induction entities generalizing eArray with
  | nil => simp
  | cons entity entities ih => simp [appendPart, ih]

theorem foldl_untouched : entities.foldl appendPart (false, []) =
    (decide (∃ entity ∈ entities, (entityInfo entity).touches),
      (entities.dropWhile fun entity => ¬ (entityInfo entity).touches).map
        fun entity => (entityInfo entity).ePart) := by
  induction entities with
  | nil => simp
  | cons entity entities ih =>
    rw [foldl_cons, appendPart]
    by_cases h : (entityInfo entity).touches
    · simp [h, foldl_touched]
    · simp [h, ih]

theorem selected_iff : Selected (entityInfoArrayFilter entities) e ↔
    ((∃ entity ∈ entities, (entityInfo entity).touches) →
      ∃ entity ∈ entities.dropWhile fun entity => ¬ (entityInfo entity).touches,
        (entityInfo entity).Names e) := by
  unfold Selected entityInfoArrayFilter
  rw [foldl_untouched]
  by_cases h : ∃ entity ∈ entities, (entityInfo entity).touches <;> simp [h, ← ePart_iff]

/-- There are always other identifiers and other types. -/
theorem fresh_entity (entities : List (List (Text × Text))) :
    ∃ e, ∀ entity ∈ entities, (entityInfo entity).Names e → (entityInfo entity).ePart = [] := by
  obtain ⟨id, hid⟩ := Infinite.exists_notMem_finset
    (entities.filterMap fun entity => (entityInfo entity).id).toFinset
  obtain ⟨type, htype⟩ := Infinite.exists_notMem_finset
    (entities.filterMap fun entity => (entityInfo entity).type).toFinset
  rw [mem_toFinset, mem_filterMap] at hid htype
  refine ⟨⟨id, type⟩, fun entity hentity hnames => ?_⟩
  have hnoId : (entityInfo entity).id = none := by
    refine Option.eq_none_iff_forall_ne_some.mpr fun id' heq => hid ⟨entity, hentity, ?_⟩
    rw [heq, ← hnames.1 id' heq]
  have hnoType : (entityInfo entity).type = none := by
    refine Option.eq_none_iff_forall_ne_some.mpr fun type' heq => htype ⟨entity, hentity, ?_⟩
    rw [heq, ← hnames.2 type' heq]
  rw [EntityInfo.ePart, hnoId, hnoType]
  rfl

variable {regexMatch : Text → Text → Prop}

theorem untouched_selects (hany : ∀ id, regexMatch ".*".toList id) (h : ¬ info.touches) :
    info.Selects regexMatch e := by
  unfold EntityInfo.touches at h
  push Not at h
  obtain ⟨hid, htype, hpattern⟩ := h
  refine ⟨⟨by simp [hid], by simp [htype]⟩, fun idPattern hmem => ?_⟩
  rw [hpattern idPattern hmem]
  exact hany e.id

theorem mem_dropWhile {entity : List (Text × Text)} (h : entity ∈ entities)
    (htouches : (entityInfo entity).touches) :
    entity ∈ entities.dropWhile fun entity => ¬ (entityInfo entity).touches := by
  rw [←
    takeWhile_append_dropWhile (p := fun entity => ¬ (entityInfo entity).touches) (l := entities),
    mem_append] at h
  rcases h with h | h
  · have hall := all_eq_true.mp all_takeWhile entity h
    exact absurd htouches (of_decide_eq_true hall)
  · exact h

/-- The filter is the meaning of the selectors in every order if and only if they are harmless. -/
theorem exact_iff (hany : ∀ id, regexMatch ".*".toList id) (hne : entities ≠ []) :
    Exact regexMatch entities ↔ Harmless regexMatch entities := by
  constructor
  · intro h
    by_cases hall : ∀ entity ∈ entities, (entityInfo entity).touches
    · refine .inr ⟨hall, fun entity hentity e hnames => (h entities .rfl e).mp ?_⟩
      rw [selected_iff]
      intro _
      exact ⟨entity, mem_dropWhile hentity (hall entity hentity), hnames⟩
    · push Not at hall
      obtain ⟨everything, hmem, huntouched⟩ := hall
      refine .inl ⟨⟨everything, hmem, huntouched⟩, ?_⟩
      by_contra hother
      push Not at hother
      obtain ⟨⟨entity, hentity, htouches⟩, hparts⟩ := hother
      -- what selects everything goes first, and is left out
      obtain ⟨e, hfresh⟩ := fresh_entity entities
      have hselected := (h _
        (filter_append_perm (fun entity => ¬ (entityInfo entity).touches) entities)
        e).mpr ⟨everything, hmem, untouched_selects hany huntouched⟩
      rw [selected_iff] at hselected
      obtain ⟨other, hother, hnames⟩ := hselected ⟨entity, by simp [hentity, htouches], htouches⟩
      rw [dropWhile_append_of_pos fun _ h => (mem_filter.mp h).2] at hother
      obtain ⟨hmem, htouches⟩ := mem_filter.mp (dropWhile_subset _ hother)
      exact hparts other hmem (by simpa using htouches) (hfresh other hmem hnames)
  · rintro (⟨⟨entity, hentity, huntouched⟩, hrest⟩ | ⟨hall, hother⟩) entities' hperm e
    · refine iff_of_true ?_ ⟨entity, hentity, untouched_selects hany huntouched⟩
      rw [selected_iff]
      rintro ⟨other, hother, htouches⟩
      rcases hrest with huntouched | ⟨pattern, hpattern, htouches, hpart⟩
      · exact absurd htouches (huntouched other (hperm.mem_iff.mp hother))
      · refine ⟨pattern, mem_dropWhile (hperm.mem_iff.mpr hpattern) htouches, ?_⟩
        rw [← ePart_iff, hpart]
        exact nofun
    · rw [selected_iff]
      constructor
      · intro h
        obtain ⟨first, hfirst⟩ := exists_mem_of_ne_nil _ hne
        obtain ⟨entity, hmem, hnames⟩ := h ⟨first, hperm.mem_iff.mpr hfirst, hall first hfirst⟩
        exact hother entity (hperm.mem_iff.mp (dropWhile_subset _ hmem)) e hnames
      · rintro ⟨entity, hentity, hselects⟩ _
        exact ⟨entity, mem_dropWhile (hperm.mem_iff.mpr hentity) (hall entity hentity), hselects.1⟩

/-- The regular expressions without special characters, and the one that matches everything. -/
def Literal (idPattern id : Text) : Prop := idPattern = ".*".toList ∨ idPattern = id

/-- What the pattern of the first selector rejects matches the second one. -/
theorem pattern_exact :
    Exact Literal [[("type".toList, "T".toList), ("idPattern".toList, "urn:b".toList)],
      [("type".toList, "T".toList)]] := by
  refine (exact_iff (fun _ => .inl rfl) (cons_ne_nil _ _)).mpr (.inr ⟨by decide, ?_⟩)
  intro entity hentity e hnames
  refine ⟨[("type".toList, "T".toList)], by decide, ⟨nofun, fun type htype => ?_⟩, nofun⟩
  rcases mem_pair.mp hentity with rfl | rfl <;> exact hnames.2 type htype

/-- A selector with a pattern alone selects every entity. -/
theorem pattern_dropped : ¬ ∀ entities, entities ≠ [] → Exact Literal entities := by
  intro h
  have hexact := h [[("idPattern".toList, "urn:b".toList)]] (cons_ne_nil _ _) _ .rfl
    ⟨"urn:a".toList, "T".toList⟩
  have hselected := hexact.mp (selected_iff.mpr fun _ => ⟨_, mem_cons_self, nofun, nofun⟩)
  obtain ⟨entity, hentity, -, hpattern⟩ := hselected
  cases mem_singleton.mp hentity
  rcases hpattern _ rfl with heq | heq <;> exact absurd heq (by decide)

end EntityInfoArrayFilter
