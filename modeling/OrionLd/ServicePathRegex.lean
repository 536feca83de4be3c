import OrionLd.Delimited
import OrionLd.LineRegex
import OrionLd.StringFilter
import OrionLd.SubCache

/-! Service paths of updates against those of subscriptions, in the cache and in the database. The
database is asked for the subscriptions whose service path matches a regular expression, which has
one alternative for each component of the path of the update. -/
namespace ServicePathRegex

open KjTree LineRegex SubCache List
open StringFilter (stringSplit)

def escapedPath (spathV : List Text) : Text := spathV.flatMap ("\\/".toList ++ ·)

def servicePathSubscriptionRegex (servicePath : Text) : Text :=
  let spathV := if servicePath ≠ [] then stringSplit servicePath '/' else []
  if spathV = [] then "^$|^\\/#$|^\\/$".toList
  else
    "^$|^\\/#$".toList ++
      (List.range spathV.length).flatMap (fun ix =>
        "|^".toList ++ escapedPath (spathV.take (ix + 1)) ++ "\\/#$".toList) ++
      "|^".toList ++ escapedPath spathV ++ "$".toList

variable {s x : Text} {xs : List Text} {d : Char}

theorem stringSplit_cons : stringSplit s d = x :: xs ↔
    x ≠ [] ∧ (∀ t ∈ x :: xs, d ∉ t) ∧ ∃ k, s = List.replicate k d ++ Delimited.join d x xs := by
  have hdrop : ∀ s : Text, ∃ k, s = List.replicate k d ++ s.dropWhile (· = d) := by
    intro s
    refine ⟨(s.takeWhile (· = d)).length, ?_⟩
    have hall : s.takeWhile (· = d) = List.replicate (s.takeWhile (· = d)).length d := by
      refine eq_replicate_iff.mpr ⟨rfl, ?_⟩
      intro c hc
      simpa using mem_takeWhile_imp hc
    rw [← hall, takeWhile_append_dropWhile]
  unfold stringSplit
  constructor
  · intro h
    dsimp only at h
    split at h
    · cases h
    rename_i hne
    obtain ⟨hparts, hjoin⟩ := Delimited.splitOn_iff.mp h
    obtain ⟨k, hk⟩ := hdrop s
    refine ⟨?_, hparts, k, hjoin ▸ hk⟩
    rintro rfl
    -- the first part is not empty, since it does not begin with the delimiter
    cases xs with
    | nil => exact hne hjoin
    | cons y ys =>
      have hhead := List.head?_dropWhile_not (· = d) s
      rw [hjoin, Delimited.join_cons] at hhead
      simp at hhead
  · rintro ⟨hne, hparts, k, rfl⟩
    obtain ⟨c, x, rfl⟩ := exists_cons_of_ne_nil hne
    have hc : c ≠ d := fun heq => hparts _ mem_cons_self (heq ▸ mem_cons_self)
    have hstart : (List.replicate k d ++ Delimited.join d (c :: x) xs).dropWhile (· = d) =
        Delimited.join d (c :: x) xs := by
      rw [dropWhile_append_of_pos (by simp), ← Delimited.cons_join]
      exact dropWhile_cons_of_neg (by simpa using hc)
    rw [hstart]
    exact (if_neg (by simp [Delimited.join])).trans (Delimited.splitOn_join hparts)

theorem stringSplit_nil : stringSplit s d = [] ↔ ∃ k, s = List.replicate k d := by
  unfold stringSplit
  dsimp only
  constructor
  · intro h
    split at h
    · rename_i hnil
      refine ⟨s.length, eq_replicate_iff.mpr ⟨rfl, ?_⟩⟩
      intro c hc
      simpa using dropWhile_eq_nil_iff.mp hnil c hc
    · exact absurd h (splitOn_ne_nil _ _)
  · rintro ⟨k, rfl⟩
    exact if_pos (dropWhile_eq_nil_iff.mpr (by simp))

/-- Letters, digits and underscores. -/
def Component (w : Text) : Prop := w ≠ [] ∧ ∀ c ∈ w, c.isAlphanum ∨ c = '_'

def pathText (components : List Text) : Text := components.flatMap ('/' :: ·)

/-- The service path of an update, with its components. -/
inductive UpdatePath : Text → List Text → Prop where
  | empty : UpdatePath [] []
  | root : UpdatePath "/".toList []
  | path (components : List Text) (hne : components ≠ [])
      (h : ∀ w ∈ components, Component w) : UpdatePath (pathText components) components

/-- The service path of a subscription, with its components, and whether it is followed by the
wildcard. -/
inductive SubscriptionPath : Text → List Text → Bool → Prop where
  | root : SubscriptionPath "/".toList [] false
  | rootBelow : SubscriptionPath "/#".toList [] true
  | path (components : List Text) (hne : components ≠ [])
      (h : ∀ w ∈ components, Component w) : SubscriptionPath (pathText components) components false
  | pathBelow (components : List Text) (hne : components ≠ [])
      (h : ∀ w ∈ components, Component w) :
      SubscriptionPath (pathText components ++ "/#".toList) components true

theorem Component.plain {w : Text} (h : Component w) :
    ∀ c ∈ w, c ∉ "/#\n|^$\\.*+?()[]{}".toList := by
  intro c hc hmem
  have hspecial : ("/#\n|^$\\.*+?()[]{}".toList.all fun c =>
      !(c.isAlphanum || c == '_')) = true := by
    decide
  have hnot := all_eq_true.mp hspecial c hmem
  rcases h.2 c hc with hplain | rfl
  · rw [hplain] at hnot
    cases hnot
  · cases hnot

def body (components : List Text) : Text := components.flatMap (· ++ ['/'])

theorem slash_body (components : List Text) :
    '/' :: body components = pathText components ++ ['/'] := by
  induction components with
  | nil => rfl
  | cons w components ih =>
    rw [body, flatMap_cons, ← body, pathText, flatMap_cons, ← pathText,
      append_assoc, singleton_append, ih]
    simp

theorem prefix_separated {c d y : Text} (hc : '/' ∉ c) (hd : '/' ∉ d) :
    c ++ '/' :: x <+: d ++ '/' :: y ↔ c = d ∧ x <+: y := by
  induction c generalizing d with
  | nil =>
    cases d with
    | nil => simp
    | cons b d =>
      refine iff_of_false (fun h => ?_) (by simp)
      exact hd (by rw [(cons_prefix_cons.mp h).1]; exact mem_cons_self)
  | cons a c ih =>
    cases d with
    | nil =>
      refine iff_of_false (fun h => ?_) (by simp)
      exact hc (by rw [← (cons_prefix_cons.mp h).1]; exact mem_cons_self)
    | cons b d =>
      rw [cons_append, cons_append, cons_prefix_cons,
        ih (fun h => hc (mem_cons_of_mem _ h)) (fun h => hd (mem_cons_of_mem _ h)),
        cons.injEq, and_assoc]

variable {cs ds : List Text}

theorem body_prefix (hcs : ∀ w ∈ cs, Component w) (hds : ∀ w ∈ ds, Component w) :
    body cs <+: body ds ↔ cs <+: ds := by
  induction cs generalizing ds with
  | nil => simp [body]
  | cons c cs ih =>
    obtain ⟨hc, hcs⟩ := forall_mem_cons.mp hcs
    have hbody (w : Text) (ws : List Text) : body (w :: ws) = w ++ '/' :: body ws := by
      simp [body]
    cases ds with
    | nil => simp [body]
    | cons d ds =>
      obtain ⟨hd, hds⟩ := forall_mem_cons.mp hds
      rw [hbody, hbody, prefix_separated (fun h => hc.plain _ h (by decide))
        (fun h => hd.plain _ h (by decide)), ih hcs hds, cons_prefix_cons]

theorem pathText_prefix_iff (hcs : ∀ w ∈ cs, Component w) (hds : ∀ w ∈ ds, Component w) :
    pathText cs ++ ['/'] <+: pathText ds ++ ['/'] ↔ cs <+: ds := by
  rw [← slash_body, ← slash_body, cons_prefix_cons, body_prefix hcs hds]
  exact and_iff_right rfl

theorem pathText_inj (hcs : ∀ w ∈ cs, Component w) (hds : ∀ w ∈ ds, Component w) :
    pathText cs = pathText ds ↔ cs = ds := by
  constructor
  · intro h
    have hle := (pathText_prefix_iff hcs hds).mp (by rw [h])
    have hge := (pathText_prefix_iff hds hcs).mp (by rw [h])
    exact hle.eq_of_length (le_antisymm hle.length_le hge.length_le)
  · exact congrArg pathText

variable {pc sc : List Text} {P S : Text} {below : Bool}

theorem pathText_plain (h : ∀ w ∈ cs, Component w) {c : Char} (hc : c ∈ pathText cs) :
    c = '/' ∨ c ∉ "/#\n|^$\\.*+?()[]{}".toList := by
  obtain ⟨w, hw, hmem⟩ := mem_flatMap.mp hc
  rcases mem_cons.mp hmem with rfl | hmem
  · exact .inl rfl
  · exact .inr ((h w hw).plain c hmem)

theorem hash_notMem (h : ∀ w ∈ cs, Component w) : '#' ∉ pathText cs := by
  intro hc
  rcases pathText_plain h hc with hslash | hplain
  · cases hslash
  · exact hplain (by decide)

theorem pathText_ne_nil (hne : cs ≠ []) : pathText cs ≠ [] := by
  cases cs with
  | nil => exact absurd rfl hne
  | cons w cs => simp [pathText]

def rootPath (components : List Text) : Text :=
  if components = [] then "/".toList else pathText components

theorem rootPath_inj (hcs : ∀ w ∈ cs, Component w) (hds : ∀ w ∈ ds, Component w) :
    rootPath cs = rootPath ds ↔ cs = ds := by
  have hroot {ds : List Text} (hds : ∀ w ∈ ds, Component w) (hne : ds ≠ []) :
      "/".toList ≠ pathText ds := by
    cases ds with
    | nil => exact absurd rfl hne
    | cons w ds =>
      have hw := (hds w mem_cons_self).1
      simp [pathText, hw]
  unfold rootPath
  by_cases hc : cs = [] <;> by_cases hd : ds = []
  · simp [hc, hd]
  · rw [if_pos hc, if_neg hd, hc]
    exact iff_of_false (hroot hds hd) fun h => hd h.symm
  · rw [if_neg hc, if_pos hd, hd]
    exact iff_of_false (fun h => hroot hcs hc h.symm) hc
  · rw [if_neg hc, if_neg hd, pathText_inj hcs hds]

theorem UpdatePath.components (h : UpdatePath P pc) : ∀ w ∈ pc, Component w := by
  cases h with
  | empty => simp
  | root => simp
  | path _ _ hall => exact hall

theorem SubscriptionPath.components (h : SubscriptionPath S sc below) : ∀ w ∈ sc, Component w := by
  cases h with
  | root => simp
  | rootBelow => simp
  | path _ _ hall => exact hall
  | pathBelow _ _ hall => exact hall

theorem SubscriptionPath.eq_text (h : SubscriptionPath S sc below) :
    S = if below then pathText sc ++ "/#".toList else rootPath sc := by
  cases h with
  | root => rfl
  | rootBelow => rfl
  | path _ hne _ => simp [rootPath, hne]
  | pathBelow _ _ _ => rfl

theorem UpdatePath.eq_text (h : UpdatePath P pc) :
    (if P = [] then "/".toList else P) = rootPath pc := by
  cases h with
  | empty => rfl
  | root => rfl
  | path _ hne _ => rw [if_neg (pathText_ne_nil hne), rootPath, if_neg hne]

theorem hash_notMem_root (h : ∀ w ∈ cs, Component w) : '#' ∉ rootPath cs := by
  unfold rootPath
  split
  · decide
  · exact hash_notMem h

theorem last_ne_hash (h : '#' ∉ s) (hne : s ≠ []) : ∃ c, s.getLast? = some c ∧ c ≠ '#' := by
  refine ⟨s.getLast hne, List.getLast?_eq_some_getLast hne, fun hc => h ?_⟩
  rw [← hc]
  exact getLast_mem hne

theorem rootPath_ne_nil (cs : List Text) : rootPath cs ≠ [] := by
  unfold rootPath
  split
  · decide
  · exact pathText_ne_nil ‹_›

theorem wildcard_match (hsc : ∀ w ∈ sc, Component w) (hpc : ∀ w ∈ pc, Component w) :
    rootPath pc = pathText sc ∨ pathText sc ++ ['/'] <+: rootPath pc ↔ sc <+: pc := by
  by_cases hpne : pc = []
  · rw [hpne, prefix_nil]
    by_cases hsne : sc = []
    · simp [hsne, rootPath, pathText]
    refine iff_of_false ?_ hsne
    rintro (h | h)
    · rw [show pathText sc = rootPath sc by rw [rootPath, if_neg hsne],
        rootPath_inj (by simp) hsc] at h
      exact hsne h.symm
    · have hlength := h.length_le
      exact pathText_ne_nil hsne (by simpa [rootPath] using hlength)
  · rw [rootPath, if_neg hpne, ← pathText_prefix_iff hsc hpc, prefix_concat_iff,
      append_left_inj, eq_comm]

theorem UpdatePath.ne_wildcard (h : UpdatePath P pc) : P ≠ "/#".toList := by
  rintro rfl
  have htext := h.eq_text
  refine hash_notMem_root h.components ?_
  rw [← htext]
  decide

theorem servicePathMatch_plain (hS : SubscriptionPath S sc false) (hP : UpdatePath P pc) :
    servicePathMatch S P = some (decide (sc = pc)) := by
  obtain rfl : S = rootPath sc := hS.eq_text
  have hPtext := hP.eq_text
  obtain ⟨c, hlast, hc⟩ := last_ne_hash (hash_notMem_root hS.components) (rootPath_ne_nil sc)
  rw [servicePathMatch, if_neg hP.ne_wildcard, if_neg fun h => rootPath_ne_nil sc h.2]
  simp only [hPtext, hlast, if_pos hc]
  refine congrArg some ?_
  rw [Bool.eq_iff_iff, beq_iff_eq, decide_eq_true_eq, eq_comm,
    rootPath_inj hS.components hP.components]

theorem servicePathMatch_wildcard (hS : SubscriptionPath S sc true) (hP : UpdatePath P pc) :
    servicePathMatch S P = some (decide (sc <+: pc)) := by
  obtain rfl : S = pathText sc ++ "/#".toList := hS.eq_text
  have hPtext := hP.eq_text
  have hlast : (pathText sc ++ "/#".toList).getLast? = some '#' := by simp
  have hlength : (pathText sc ++ "/#".toList).length = (pathText sc).length + 2 := by simp
  have hslash : (pathText sc ++ "/#".toList)[(pathText sc).length]? = some '/' := by simp
  have hshort : (pathText sc ++ "/#".toList).take (pathText sc).length = pathText sc := by simp
  have hlong : (pathText sc ++ "/#".toList).take ((pathText sc).length + 1) =
      pathText sc ++ ['/'] := by
    simp [take_append]
  rw [servicePathMatch, if_neg hP.ne_wildcard, if_neg (by simp)]
  simp only [hPtext, hlast, ne_eq, not_true_eq_false, if_false, hlength, Nat.add_sub_cancel,
    hslash, true_and, strncmp, hshort]
  rw [if_neg (by omega), show (pathText sc).length + 2 - 1 = (pathText sc).length + 1 from rfl,
    hlong]
  have hmatch := wildcard_match hS.components hP.components
  generalize rootPath pc = p at hmatch ⊢
  split
  · rename_i hwhole
    obtain ⟨hlen, htake⟩ := hwhole
    rw [take_of_length_le hlen.le, beq_iff_eq] at htake
    rw [decide_eq_true (hmatch.mp (.inl htake.symm))]
  · rename_i hwhole
    refine congrArg some ?_
    rw [Bool.eq_iff_iff, beq_iff_eq, decide_eq_true_eq, ← hmatch, prefix_iff_eq_take]
    have hne : p ≠ pathText sc := by
      rintro rfl
      exact hwhole ⟨rfl, by simp⟩
    rw [or_iff_right hne, length_append, length_singleton]

/-- A path without a wildcard matches itself, one with a wildcard all that is below it too. -/
theorem servicePathMatch_eq (hS : SubscriptionPath S sc below) (hP : UpdatePath P pc) :
    servicePathMatch S P = some (decide (sc = pc ∨ (below = true ∧ sc <+: pc))) := by
  cases below with
  | false => simpa using servicePathMatch_plain hS hP
  | true =>
    rw [servicePathMatch_wildcard hS hP]
    refine congrArg some (decide_eq_decide.mpr ?_)
    constructor
    · exact fun h => .inr ⟨rfl, h⟩
    · rintro (rfl | ⟨-, h⟩)
      · exact prefix_refl _
      · exact h

theorem stringSplit_path (hne : cs ≠ []) (h : ∀ w ∈ cs, Component w) :
    stringSplit (pathText cs) '/' = cs := by
  obtain ⟨w, ws, rfl⟩ := exists_cons_of_ne_nil hne
  refine stringSplit_cons.mpr ⟨(h w mem_cons_self).1, ?_, 1, rfl⟩
  intro v hv hc
  exact (h v hv).plain _ hc (by decide)

theorem split_update (h : UpdatePath P pc) : (if P ≠ [] then stringSplit P '/' else []) = pc := by
  cases h with
  | empty => rfl
  | root => rfl
  | path _ hne hall => rw [if_pos (pathText_ne_nil hne), stringSplit_path hne hall]

theorem Component.spells {w : Text} (h : Component w) : Spells w w := by
  refine Spells.plain fun c hc => ?_
  have hspecial : ((otherOperators ++ "|^$\\".toList).all fun c =>
      !(c.isAlphanum || c == '_')) = true := by
    decide
  have hnot : c ∉ otherOperators ++ "|^$\\".toList := by
    intro hmem
    have hplain := all_eq_true.mp hspecial c hmem
    rcases h.2 c hc with hw | rfl
    · rw [hw] at hplain
      cases hplain
    · cases hplain
  exact ⟨fun hmem => hnot (mem_append_left _ hmem), fun hmem => hnot (mem_append_right _ hmem)⟩

theorem slash_spells : Spells "\\/".toList ['/'] := Spells.escaped (by decide)

theorem escapedPath_spells (h : ∀ w ∈ cs, Component w) : Spells (escapedPath cs) (pathText cs) :=
  Spells.flatMap fun w hw => slash_spells.append (h w hw).spells

theorem wildcard_spells : Spells "\\/#".toList "/#".toList := by
  have hhash : Spells ['#'] ['#'] := by
    refine Spells.plain fun c hc => ?_
    obtain rfl := mem_singleton.mp hc
    exact ⟨by decide, by decide⟩
  exact slash_spells.append hhash

def matchedPaths (pc : List Text) : List Text :=
  if pc = [] then [[], "/#".toList, "/".toList]
  else [] :: "/#".toList ::
    ((List.range pc.length).map fun ix => pathText (pc.take (ix + 1)) ++ "/#".toList) ++
      [pathText pc]

theorem parse_servicePathRegex (h : UpdatePath P pc) :
    parse (servicePathSubscriptionRegex P) = some ((matchedPaths pc).map exactly) := by
  unfold servicePathSubscriptionRegex matchedPaths
  rw [split_update h]
  by_cases hne : pc = []
  · simp only [hne, if_true]
    rfl
  simp only [if_neg hne]
  have hspells : List.Forall₂ Spells ("\\/#".toList :: ((List.range pc.length).map fun ix =>
        escapedPath (pc.take (ix + 1)) ++ "\\/#".toList) ++ [escapedPath pc])
      ("/#".toList :: ((List.range pc.length).map fun ix =>
        pathText (pc.take (ix + 1)) ++ "/#".toList) ++ [pathText pc]) := by
    refine .cons wildcard_spells (rel_append ?_ ?_)
    · refine forall₂_map_left_iff.mpr (forall₂_map_right_iff.mpr ?_)
      refine forall₂_same.mpr fun ix _ => (escapedPath_spells ?_).append wildcard_spells
      exact fun w hw => h.components w (mem_of_mem_take hw)
    · exact .cons (escapedPath_spells h.components) .nil
  have hparse := parse_alternatives Spells.nil hspells
  refine Eq.trans (congrArg parse ?_) hparse
  simp [flatMap_append, flatMap_map]

theorem SubscriptionPath.one_line (h : SubscriptionPath S sc below) : '\n' ∉ S := by
  have hpath : '\n' ∉ pathText sc := by
    intro hc
    rcases pathText_plain h.components hc with hslash | hplain
    · cases hslash
    · exact hplain (by decide)
  rw [h.eq_text]
  cases below with
  | true =>
    intro hc
    rcases mem_append.mp hc with hc | hc
    · exact hpath hc
    · exact absurd hc (by decide)
  | false =>
    unfold rootPath
    simp only [Bool.false_eq_true, if_false]
    split
    · decide
    · exact hpath

theorem prefix_iff_take : sc <+: pc ↔ sc = [] ∨ ∃ ix < pc.length, pc.take (ix + 1) = sc := by
  constructor
  · intro h
    cases sc with
    | nil => exact .inl rfl
    | cons w sc =>
      refine .inr ⟨sc.length, ?_, ?_⟩
      · have hle := h.length_le
        rw [length_cons] at hle
        omega
      · exact (prefix_iff_eq_take.mp h).symm
  · rintro (rfl | ⟨ix, -, rfl⟩)
    · exact nil_prefix
    · exact take_prefix _ _

theorem append_wildcard_inj {t : Text} : s ++ "/#".toList = t ++ "/#".toList ↔ s = t :=
  append_left_inj _

/-- The paths that the expression is made for are the ones that the update is in. -/
theorem mem_matchedPaths (hS : SubscriptionPath S sc below) (hpc : ∀ w ∈ pc, Component w) :
    S ∈ matchedPaths pc ↔ sc = pc ∨ (below = true ∧ sc <+: pc) := by
  have htake : ∀ ix, ∀ w ∈ pc.take (ix + 1), Component w :=
    fun ix w hw => hpc w (mem_of_mem_take hw)
  rw [hS.eq_text]
  cases below with
  | true =>
    have hhash : '#' ∈ pathText sc ++ "/#".toList := by simp
    have hself {t : Text} (ht : '#' ∉ t) : pathText sc ++ "/#".toList ≠ t := by
      rintro rfl
      exact ht hhash
    have hroot : pathText sc ++ "/#".toList = "/#".toList ↔ sc = [] :=
      (append_wildcard_inj (t := [])).trans (pathText_inj hS.components (forall_mem_nil _))
    have hprefix : sc = pc ∨ (true = true ∧ sc <+: pc) ↔ sc <+: pc := by
      constructor
      · rintro (rfl | ⟨-, h⟩)
        · exact prefix_refl _
        · exact h
      · exact fun h => .inr ⟨rfl, h⟩
    rw [if_pos rfl, hprefix, prefix_iff_take]
    unfold matchedPaths
    split
    · rename_i hne
      subst hne
      simp only [mem_cons, not_mem_nil, or_false, hroot, hself not_mem_nil,
        hself (show '#' ∉ "/".toList by decide), false_or, length_nil, Nat.not_lt_zero,
        false_and, exists_false]
    · simp only [cons_append, mem_cons, mem_append, mem_map, mem_range,
        not_mem_nil, or_false, hroot, append_wildcard_inj, hself (not_mem_nil),
        hself (hash_notMem hpc), false_or]
      refine or_congr_right (exists_congr fun ix => and_congr_right fun _ => ?_)
      exact pathText_inj (htake ix) hS.components
  | false =>
    have hhash : '#' ∉ rootPath sc := hash_notMem_root hS.components
    have hself {t : Text} (ht : '#' ∈ t) : rootPath sc ≠ t := by
      rintro rfl
      exact hhash ht
    have hplain : (false = true ∧ sc <+: pc) ↔ False := by simp
    rw [if_neg (by decide), hplain, or_false, ← rootPath_inj hS.components hpc]
    unfold matchedPaths
    split
    · rename_i hne
      subst hne
      simp only [mem_cons, not_mem_nil, or_false, rootPath_ne_nil,
        hself (show '#' ∈ "/#".toList by decide), false_or]
      rfl
    · rename_i hne
      have htaken : ¬ ∃ ix < pc.length, pathText (pc.take (ix + 1)) ++ "/#".toList =
          rootPath sc := by
        rintro ⟨ix, -, h⟩
        exact hself (by simp) h.symm
      simp only [cons_append, mem_cons, mem_append, mem_map, mem_range,
        not_mem_nil, or_false, hself (show '#' ∈ "/#".toList by decide), rootPath_ne_nil,
        htaken, false_or]
      rw [show rootPath pc = pathText pc from if_neg hne]

/-- The cache and the expression select the same subscriptions for every service path of an
update: those of this path, and those with a wildcard that are above it. -/
theorem service_paths_agree {P : Text} {pc : List Text} (hP : UpdatePath P pc) {S : Text}
    {sc : List Text} {below : Bool} (hS : SubscriptionPath S sc below) :
    (servicePathMatch S P = some true ↔ Matches (servicePathSubscriptionRegex P) S) ∧
      (servicePathMatch S P = some true ↔ sc = pc ∨ (below = true ∧ sc <+: pc)) := by
  have hcache : servicePathMatch S P = some true ↔ sc = pc ∨ (below = true ∧ sc <+: pc) := by
    rw [servicePathMatch_eq hS hP, Option.some_inj, decide_eq_true_eq]
  refine ⟨?_, hcache⟩
  rw [hcache, ← mem_matchedPaths hS hP.components, Matches, parse_servicePathRegex hP]
  constructor
  · intro h
    exact ⟨_, rfl, (search_texts hS.one_line).mpr h⟩
  · rintro ⟨alts, halts, h⟩
    cases halts
    exact (search_texts hS.one_line).mp h

theorem component_a : ∀ w ∈ ["a".toList], Component w := by
  intro w hw
  obtain rfl := mem_singleton.mp hw
  exact ⟨by decide, forall_mem_singleton.mpr (.inl (by decide))⟩

theorem service_paths_agree_below :
    (servicePathMatch "/a/#".toList "/a".toList = some true ↔
        Matches (servicePathSubscriptionRegex "/a".toList) "/a/#".toList) ∧
      (servicePathMatch "/a/#".toList "/a".toList = some true ↔
        ["a".toList] = ["a".toList] ∨ (true = true ∧ ["a".toList] <+: ["a".toList])) :=
  service_paths_agree (.path ["a".toList] (by decide) component_a)
    (.pathBelow ["a".toList] (by decide) component_a)

example : servicePathMatch "/a/b/#".toList "/a/b2".toList = some false := rfl

end ServicePathRegex
