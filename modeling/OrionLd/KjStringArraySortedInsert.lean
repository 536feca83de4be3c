import OrionLd.KjTree
import OrionLd.LinkedChildren

/-! Insertion into an array of strings that is kept sorted. The scan goes on to the end of the
children, and remembers the last one that belongs before the new item. -/
namespace KjStringArraySortedInsert

open LinkedChildren List Function
open KjTree (Text)

variable {ν : Type}

section

abbrev strcmp : Text → Text → Ordering := compare

inductive Place (ν : Type) where
  | present
  | behind (prev : Option ν)

/-- The loop over the children. It runs out of fuel when it does not come to an end. -/
def scan (value : ν → Text) (next : ν → Option ν) (newItemP : ν) :
    ℕ → Option ν → Option ν → Option (Place ν)
  | _, prev, none => some (.behind prev)
  | 0, _, some _ => none
  | fuel + 1, prev, some itemP =>
    match strcmp (value itemP) (value newItemP) with
    | .lt => scan value next newItemP fuel (some itemP) (next itemP)
    | .eq => some .present
    | .gt => scan value next newItemP fuel prev (next itemP)

variable [DecidableEq ν]

def insertBehind (array : Links ν) (newItemP : ν) : Option ν → Links ν
  | some prev =>
    match array.next prev with
    | none => ⟨update (update array.next prev (some newItemP)) newItemP none,
        { array.container with last := some newItemP }⟩
    | some next =>
      { array with next := update (update array.next newItemP (some next)) prev (some newItemP) }
  | none => ⟨update array.next newItemP array.container.first,
      ⟨some newItemP, array.container.last.or (some newItemP)⟩⟩

def kjStringArraySortedInsert (value : ν → Text) (fuel : ℕ) (array : Links ν) (newItemP : ν) :
    Option (Links ν) :=
  (scan value array.next newItemP fuel none array.container.first).map fun
    | .present => array
    | .behind prev => insertBehind array newItemP prev

end

variable {value : ν → Text} {next : ν → Option ν} {newItemP : ν} {fuel : ℕ} {p prev : Option ν}
  {l below above : List ν}

theorem scan_present (h : Segment next p l none) (hfuel : l.length ≤ fuel)
    (hl : ∃ itemP ∈ l, value itemP = value newItemP) :
    scan value next newItemP fuel prev p = some .present := by
  induction l generalizing p fuel prev with
  | nil =>
    obtain ⟨_, hmem, -⟩ := hl
    cases hmem
  | cons a l ih =>
    obtain ⟨rfl, h⟩ := h
    obtain _ | fuel := fuel
    · cases hfuel
    rw [length_cons, Nat.add_le_add_iff_right] at hfuel
    unfold scan
    by_cases ha : value a = value newItemP
    · rw [ha, show strcmp (value newItemP) (value newItemP) = .eq from Std.ReflOrd.compare_self]
    have hrest : ∃ itemP ∈ l, value itemP = value newItemP := by
      simpa [ha] using hl
    split
    · exact ih h hfuel hrest
    · rfl
    · exact ih h hfuel hrest

theorem scan_above (h : Segment next p above none) (hfuel : above.length ≤ fuel)
    (habove : ∀ itemP ∈ above, strcmp (value itemP) (value newItemP) = .gt) :
    scan value next newItemP fuel prev p = some (.behind prev) := by
  induction above generalizing p fuel with
  | nil =>
    cases h
    unfold scan
    rfl
  | cons a above ih =>
    obtain ⟨rfl, h⟩ := h
    obtain _ | fuel := fuel
    · cases hfuel
    obtain ⟨ha, habove⟩ := forall_mem_cons.mp habove
    rw [scan, ha]
    exact ih h (Nat.le_of_succ_le_succ hfuel) habove

theorem scan_behind (h : Segment next p (below ++ above) none)
    (hfuel : (below ++ above).length ≤ fuel)
    (hbelow : ∀ itemP ∈ below, strcmp (value itemP) (value newItemP) = .lt)
    (habove : ∀ itemP ∈ above, strcmp (value itemP) (value newItemP) = .gt) :
    scan value next newItemP fuel prev p = some (.behind (below.getLast?.or prev)) := by
  induction below generalizing p fuel prev with
  | nil => exact scan_above h hfuel habove
  | cons a below ih =>
    obtain ⟨rfl, h⟩ := h
    obtain _ | fuel := fuel
    · cases hfuel
    obtain ⟨ha, hbelow⟩ := forall_mem_cons.mp hbelow
    rw [scan, ha]
    dsimp only
    rw [ih h (Nat.le_of_succ_le_succ hfuel) hbelow]
    cases below with
    | nil => rfl
    | cons b below =>
      rw [getLast?_cons_cons, getLast?_cons]
      rfl

theorem split_children {s : Text} (hl : l.Pairwise fun a b => strcmp (value a) (value b) = .lt)
    (hs : ∀ a ∈ l, value a ≠ s) :
    ∃ below above, l = below ++ above ∧ (∀ a ∈ below, strcmp (value a) s = .lt) ∧
      ∀ a ∈ above, strcmp (value a) s = .gt := by
  induction hl with
  | nil => exact ⟨[], [], rfl, nofun, nofun⟩
  | @cons a l hfirst _ ih =>
    obtain ⟨ha, hs⟩ := forall_mem_cons.mp hs
    cases hcmp : strcmp (value a) s with
    | lt =>
      obtain ⟨below, above, rfl, hbelow, habove⟩ := ih hs
      exact ⟨a :: below, above, rfl, forall_mem_cons.mpr ⟨hcmp, hbelow⟩, habove⟩
    | eq => exact absurd (Std.LawfulEqOrd.eq_of_compare hcmp) ha
    | gt =>
      refine ⟨[], a :: l, rfl, nofun, forall_mem_cons.mpr ⟨hcmp, fun b hb => ?_⟩⟩
      have hlt := Std.TransCmp.lt_trans (Std.OrientedCmp.lt_of_gt hcmp) (hfirst b hb)
      exact Std.OrientedCmp.gt_of_lt hlt

variable [DecidableEq ν] {array : Links ν} {prev : ν}

theorem insertBehind_some (hne : prev ≠ newItemP) : insertBehind array newItemP (some prev) =
    ⟨update (update array.next newItemP (array.next prev)) prev (some newItemP),
      { array.container with
        last := if array.next prev = none then some newItemP else array.container.last }⟩ := by
  unfold insertBehind
  dsimp only
  split
  · next hnext => rw [if_pos hnext, hnext, update_comm hne]
  · next hnext => rw [if_neg (by rw [hnext]; nofun), hnext]

/-- Behind the right place the new item is led to and leads on. -/
theorem insertBehind_wellFormed (h : array.WellFormed (below ++ above))
    (hnew : newItemP ∉ below ++ above) :
    (insertBehind array newItemP below.getLast?).WellFormed (below ++ newItemP :: above) := by
  have hnodup : (below ++ newItemP :: above).Nodup :=
    nodup_middle.mpr (nodup_cons.mpr ⟨hnew, h.nodup⟩)
  obtain ⟨hbelow, habove⟩ := not_or.mp (mt mem_append.mpr hnew)
  obtain ⟨q, hled, hrest⟩ := segment_append.mp h.lists
  have hrest : Segment (update array.next newItemP q) (some newItemP) (newItemP :: above) none := by
    refine ⟨rfl, ?_⟩
    rw [update_self]
    exact hrest.congr fun b hb => update_of_ne (ne_of_mem_of_not_mem hb habove) ..
  have hlast := h.last
  rcases below.eq_nil_or_concat with rfl | ⟨below, prev, rfl⟩
  · cases hled
    refine ⟨hrest, ?_, hnodup⟩
    rw [getLast?_nil, insertBehind, hlast]
    cases above with
    | nil => rfl
    | cons b above => rw [nil_append, nil_append, getLast?_cons_cons, getLast?_cons, Option.some_or]
  rw [concat_eq_append] at *
  obtain ⟨hnodup', -, hapart⟩ := nodup_append.mp hnodup
  have hmem : prev ∈ below ++ [prev] := mem_append_right _ mem_cons_self
  obtain rfl : array.next prev = q := (segment_concat.mp hled).2
  rw [getLast?_concat, insertBehind_some (ne_of_mem_of_not_mem hmem hbelow)]
  refine ⟨segment_append.mpr ⟨some newItemP, ?_, ?_⟩, ?_, hnodup⟩
  · refine (hled.congr fun b hb => ?_).redirect hnodup'
    exact update_of_ne (ne_of_mem_of_not_mem hb hbelow) ..
  · exact hrest.congr fun b hb => update_of_ne (hapart prev hmem b hb).symm ..
  · have hnext : array.next prev = above.head? := by
      rw [append_assoc] at h
      exact h.next_eq
    dsimp only
    rw [hlast, hnext]
    cases above <;> simp [getLast?_append]

structure Sorted (value : ν → Text) (array : Links ν) (children inserted : List ν) : Prop where
  wellFormed : array.WellFormed children
  ascending : children.Pairwise fun a b => strcmp (value a) (value b) = .lt
  drawn : children ⊆ inserted
  complete : ∀ a ∈ inserted, ∃ b ∈ children, value b = value a

theorem insert_sorted {children inserted : List ν} (h : Sorted value array children inserted)
    (hfuel : inserted.length ≤ fuel) (hnew : newItemP ∉ inserted) :
    ∃ array' children', kjStringArraySortedInsert value fuel array newItemP = some array' ∧
      Sorted value array' children' (inserted ++ [newItemP]) := by
  have hlength : children.length ≤ fuel :=
    (h.wellFormed.nodup.subperm h.drawn).length_le.trans hfuel
  unfold kjStringArraySortedInsert
  by_cases hpresent : ∃ itemP ∈ children, value itemP = value newItemP
  · refine ⟨array, children, ?_, h.wellFormed, h.ascending, ?_, ?_⟩
    · rw [scan_present h.wellFormed.lists hlength hpresent, Option.map_some]
    · exact fun a ha => mem_append_left _ (h.drawn ha)
    · exact forall_mem_append.mpr ⟨h.complete, forall_mem_singleton.mpr hpresent⟩
  · push Not at hpresent
    obtain ⟨below, above, rfl, hbelow, habove⟩ := split_children h.ascending hpresent
    refine ⟨_, below ++ newItemP :: above, ?_, insertBehind_wellFormed h.wellFormed
      fun hmem => hnew (h.drawn hmem), ?_, ?_, ?_⟩
    · rw [scan_behind h.wellFormed.lists hlength hbelow habove, Option.or_none, Option.map_some]
    · obtain ⟨hfirst, hsecond, hacross⟩ := pairwise_append.mp h.ascending
      refine pairwise_append.mpr ⟨hfirst, pairwise_cons.mpr ⟨fun b hb => ?_, hsecond⟩, ?_⟩
      · exact Std.OrientedCmp.lt_of_gt (habove b hb)
      · exact fun a ha => forall_mem_cons.mpr ⟨hbelow a ha, hacross a ha⟩
    · intro a ha
      rw [mem_append, mem_singleton]
      rcases mem_cons.mp (perm_middle.mem_iff.mp ha) with rfl | ha
      · exact .inr rfl
      · exact .inl (h.drawn ha)
    · refine forall_mem_append.mpr
        ⟨fun a ha => ?_, forall_mem_singleton.mpr ⟨newItemP, by simp, rfl⟩⟩
      obtain ⟨b, hb, heq⟩ := h.complete a ha
      exact ⟨b, perm_middle.mem_iff.mpr (mem_cons_of_mem _ hb), heq⟩

theorem insertAll_sorted {children inserted newItems : List ν}
    (h : Sorted value array children inserted) (hnew : (inserted ++ newItems).Nodup)
    (hfuel : (inserted ++ newItems).length ≤ fuel) :
    ∃ array' children', newItems.foldlM (kjStringArraySortedInsert value fuel) array = some array' ∧
      Sorted value array' children' (inserted ++ newItems) := by
  induction newItems generalizing array children inserted with
  | nil => exact ⟨array, children, rfl, by rwa [append_nil]⟩
  | cons newItemP newItems ih =>
    have hapart := (nodup_append.mp hnew).2.2
    have hfresh : newItemP ∉ inserted :=
      fun hmem => hapart newItemP hmem newItemP mem_cons_self rfl
    rw [append_cons] at hnew hfuel ⊢
    obtain ⟨array₁, children₁, hstep, h₁⟩ :=
      insert_sorted h ((by simp : inserted.length ≤ _).trans hfuel) hfresh
    rw [foldlM_cons, hstep]
    exact ih h₁ hnew hfuel

/-- The node of a string is the place that it has in the sequence. -/
def valueOf (strings : List Text) (ix : ℕ) : Text := strings.getD ix []

def insertStrings (strings : List Text) (next : ℕ → Option ℕ) : Option (Links ℕ) :=
  (range strings.length).foldlM (kjStringArraySortedInsert (valueOf strings) strings.length)
    ⟨next, ⟨none, none⟩⟩

/-- The inserted strings are in the array, each once and in ascending order, and the last pointer
is the one to the last child. -/
theorem array_stays_sorted (strings : List Text) (next : ℕ → Option ℕ) :
    ∃ array children, insertStrings strings next = some array ∧ array.Lists children ∧
      array.container.last = children.getLast? ∧
      (children.map (valueOf strings)).Pairwise (fun s t => strcmp s t = .lt) ∧
      ∀ s, s ∈ children.map (valueOf strings) ↔ s ∈ strings := by
  have hempty : Sorted (valueOf strings) ⟨next, ⟨none, none⟩⟩ [] [] :=
    ⟨⟨rfl, rfl, nodup_nil⟩, .nil, nofun, nofun⟩
  obtain ⟨array, children, hrun, h⟩ := insertAll_sorted hempty nodup_range length_range.le
  refine ⟨array, children, hrun, h.wellFormed.lists, h.wellFormed.last,
    pairwise_map.mpr h.ascending, ?_⟩
  intro s
  rw [mem_map]
  constructor
  · rintro ⟨a, ha, rfl⟩
    have hlt : a < strings.length := mem_range.mp (h.drawn ha)
    have hmem := getElem_mem hlt
    rwa [getElem_eq_getD []] at hmem
  · intro hs
    obtain ⟨ix, hlt, rfl⟩ := getElem_of_mem hs
    obtain ⟨a, ha, heq⟩ := h.complete ix (mem_range.mpr hlt)
    exact ⟨a, ha, heq.trans (getElem_eq_getD []).symm⟩

end KjStringArraySortedInsert
