import OrionLd.LocationRuns

/-! Requests that only append. Which attributes exist is found by their names as they are given,
while the keys of the stored attributes have = for every dot. -/
namespace AppendStrict

open List Option
open KjTree FieldList MongoLocation MongoCommonUpdate LocationUpdates LocationRuns Fallible

variable {μ : Type}

def appendStrict (r : Request) : Request := { r with action := .appendStrict }

def alreadyExisting (d : EntityDoc μ) (r : Request) : List Text :=
  (r.contextAttributeVector.filter (skip d (appendStrict r) ·)).map ContextAttribute.name

/-- An attribute of this name is stored, with or without a metadata ID. -/
def Present (d : EntityDoc μ) (name : Text) : Prop := howManyAttrs d.attrs (fieldName name) ≠ 0

/-- Stored attributes stay as they are, and a given one that was there is in the list. -/
structure Protects (env : Env μ) (d : EntityDoc μ) (r : Request) : Prop where
  kept : ∀ d', updateEntity env d (appendStrict r) = some d' →
    ∀ key a, d.attrs.lookup key = some a → d'.attrs.lookup key = some a
  removed : updateEntity env d (appendStrict r) ≠ none
  reported : ∀ ca ∈ r.contextAttributeVector, Present d ca.name → ca.name ∈ alreadyExisting d r

variable {env : Env μ} {d : EntityDoc μ} {r : Request} {ca : ContextAttribute}

theorem mem_alreadyExisting (hca : ca ∈ r.contextAttributeVector) :
    ca.name ∈ alreadyExisting d r ↔ howManyAttrs d.attrs ca.name ≠ 0 := by
  have hskip : ∀ ca' : ContextAttribute, skip d (appendStrict r) ca' = true ↔
      howManyAttrs d.attrs ca'.name ≠ 0 := by
    intro ca'
    rw [skip, Bool.and_eq_true, bne_iff_ne]
    exact and_iff_right rfl
  constructor
  · intro h
    obtain ⟨ca', hca', hname⟩ := mem_map.mp h
    rw [← hname]
    exact (hskip ca').mp (mem_filter.mp hca').2
  · intro h
    exact mem_map_of_mem (mem_filter.mpr ⟨hca, (hskip ca).mpr h⟩)

theorem present_of_stored {key : Text} (hkey : key = effectiveName ca)
    (h : (d.attrs.lookup key).isSome) : Present d ca.name := by
  obtain ⟨field, hfield⟩ := isSome_iff_exists.mp h
  have hmem := mem_of_lookup hfield
  unfold Present howManyAttrs
  rw [Ne, length_eq_zero_iff, filter_eq_nil_iff]
  intro hnone
  refine hnone _ hmem ?_
  rw [hkey]
  unfold effectiveName
  split
  · simp
  · rw [append_assoc]
    simp

theorem appendItem_writesOnly {v : ApiVersion} {noOverwrite : Bool} {u u' : Update μ}
    (h : appendContextAttributeItem env v d noOverwrite u ca = .ok u') :
    ∀ k ∈ keys u', k ∈ keys u ∨ k = effectiveName ca := by
  unfold appendContextAttributeItem at h
  split at h
  · cases h
  obtain ⟨loc, _, h⟩ := bind_ok h
  obtain ⟨date, _, h⟩ := bind_ok h
  cases h
  exact appendAttribute_writesOnly.names

variable {caV : List ContextAttribute}

theorem appendItems_names {u u' : Update μ}
    (h : contextAttributeItems env d (appendStrict r) u caV = .ok u') :
    ∀ k ∈ keys u', k ∈ keys u ∨ ∃ ca ∈ caV, k = effectiveName ca := by
  induction caV generalizing u with
  | nil =>
    cases h
    exact fun k hk => .inl hk
  | cons ca caV ih =>
    obtain ⟨u₁, hfirst, hrest⟩ := bind_ok h
    intro k hk
    rcases ih hrest k hk with hk | ⟨ca', hca', hk⟩
    · rcases appendItem_writesOnly hfirst k hk with hk | hk
      · exact .inl hk
      · exact .inr ⟨ca, mem_cons_self, hk⟩
    · exact .inr ⟨ca', mem_cons_of_mem _ hca', hk⟩

theorem appendStrict_not_delete : ¬ ((appendStrict r).action = .delete ∧ caV = []) := by
  rintro ⟨hdelete, -⟩
  cases hdelete

theorem appendStrict_not_replace : ¬ (appendStrict r).action = .replace := by
  intro hreplace
  cases hreplace

theorem kept_of_reported
    (h : ∀ ca ∈ r.contextAttributeVector, Present d ca.name → howManyAttrs d.attrs ca.name ≠ 0)
    {d' : EntityDoc μ} (hd' : updateEntity env d (appendStrict r) = some d') {key : Text}
    {a : AttrsField μ} (hkey : d.attrs.lookup key = some a) : d'.attrs.lookup key = some a := by
  unfold updateEntity at hd'
  rw [if_neg appendStrict_not_delete] at hd'
  cases hu : processContextAttributeVector env d (appendStrict r) with
  | error e =>
    rw [hu] at hd'
    cases hd'
    exact hkey
  | ok u =>
    rw [hu] at hd'
    dsimp only at hd'
    rw [if_neg appendStrict_not_replace] at hd'
    split_ifs at hd' with _ hnodup
    · cases hd'
      exact hkey
    · cases hd'
      rw [lookup_updatedEntity hnodup, after_untouched ?_]
      · exact hkey
      · intro hmem
        rcases appendItems_names hu key hmem with hmem | ⟨ca, hca, heq⟩
        · exact absurd hmem not_mem_nil
        obtain ⟨hca, hskip⟩ := mem_filter.mp hca
        have hpresent : Present d ca.name := present_of_stored heq (isSome_of_eq_some hkey)
        have hcounted := h ca hca hpresent
        rw [Bool.not_eq_true', skip, Bool.and_eq_false_iff] at hskip
        rcases hskip with hskip | hskip
        · cases hskip
        · exact hcounted (by simpa using hskip)
    · cases hd'
      exact hkey

theorem append_not_removed : updateEntity env d (appendStrict r) ≠ none := by
  unfold updateEntity
  rw [if_neg appendStrict_not_delete]
  split
  · exact some_ne_none _
  · split_ifs <;> exact some_ne_none _

/-- A request that only appends leaves what is stored alone and reports it, exactly when no
attribute that is there is given by a name with a dot, or by one that the buffer has no room for. -/
theorem append_strict_protects_iff (env : Env μ) (d : EntityDoc μ) (r : Request) :
    Protects env d r ↔ ∀ ca ∈ r.contextAttributeVector, Present d ca.name →
      '.' ∉ ca.name ∧ ca.name.length ≤ 511 ∨ howManyAttrs d.attrs ca.name ≠ 0 := by
  constructor
  · intro h ca hca hpresent
    exact .inr ((mem_alreadyExisting hca).mp (h.reported ca hca hpresent))
  · intro h
    have hcounted : ∀ ca ∈ r.contextAttributeVector, Present d ca.name →
        howManyAttrs d.attrs ca.name ≠ 0 := by
      intro ca hca hpresent
      rcases h ca hca hpresent with ⟨hdot, hlength⟩ | hcounted
      · unfold Present at hpresent
        rwa [fieldName_eq hlength, dotForEq_of_dotless hdot] at hpresent
      · exact hcounted
    refine ⟨fun d' hd' key a hkey => kept_of_reported hcounted hd' hkey, append_not_removed, ?_⟩
    intro ca hca hpresent
    exact (mem_alreadyExisting hca).mpr (hcounted ca hca hpresent)

def longSpeed (x : ℚ) : ContextAttribute :=
  { speed with name := "http://a.org/speed".toList, numberValue := x }

def stored : EntityDoc Unit :=
  ⟨[("http://a=org/speed".toList, .attribute ⟨some "Number".toList, some (.num 80), ()⟩)],
    ["http://a.org/speed".toList], none, none⟩

def hasValue (x : ℚ) (f : AttrsField Unit) : Bool :=
  match (f.asAttribute someEnv).value with
  | some (.num y) => x == y
  | _ => false

theorem long_name_overwritten : ¬ ∀ (d : EntityDoc Unit) (r : Request), Protects someEnv d r := by
  intro h
  have hnew : (updateEntity someEnv stored (appendStrict (v2 .appendStrict [longSpeed 90]))).any
      (fun d => (d.attrs.lookup "http://a=org/speed".toList).any (hasValue 90)) = true := by
    decide +kernel
  obtain ⟨d', hd', hvalue⟩ := (any_eq_true _ _).mp hnew
  have hstored : stored.attrs.lookup "http://a=org/speed".toList =
      some (.attribute ⟨some "Number".toList, some (.num 80), ()⟩) := by
    rw [stored, lookup_cons_self]
  rw [(h stored (v2 .appendStrict [longSpeed 90])).kept d' hd' _ _ hstored] at hvalue
  exact absurd hvalue (by decide +kernel)

end AppendStrict
