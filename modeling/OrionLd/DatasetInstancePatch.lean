import OrionLd.DatasetsRuns
import OrionLd.LinkedChildren

/-! PATCH of one dataset instance. orionldPatchAttributeWithDatasetId unlinks the members of the
instance that the fragment names and joins the two lists of siblings, which is modelled on the
pointers as well. -/
namespace DatasetInstancePatch

open KjTree KjTreeToContextAttribute FieldList Fallible OrionldContextItem
open AttributeDatasets MongoCppLegacyCodec DatasetsShape List Option OrionldPostEntities
open OrionldPatchAttribute (pcheckAttribute)

section Siblings

open LinkedChildren

variable {ν : Type} [Fintype ν] [DecidableEq ν] (name : ν → Text)

/-- The first child of the name is removed, if there is one. -/
def removeNamed (dbInstanceP : Links ν) (k : Text) : Option (Links ν) :=
  (walk dbInstanceP.next (Fintype.card ν) dbInstanceP.container.first).map fun items =>
    match items.find? fun node => name node == k with
    | some toRemove => dbInstanceP.unlink toRemove
    | none => dbInstanceP

/-- The loop over the children of inAttribute. The successor is read after the removal. -/
def removeAllNamed : ℕ → Option ν → Links ν → Option (Links ν)
  | _, none, dbInstanceP => some dbInstanceP
  | 0, some _, _ => none
  | fuel + 1, some nodeP, dbInstanceP =>
    (removeNamed name dbInstanceP (name nodeP)).bind fun dbInstanceP =>
      removeAllNamed fuel (dbInstanceP.next nodeP) dbInstanceP

/-- Both containers point into one heap. No result without a last child to lead on. -/
def concatenate (dbInstanceP : Links ν) (inAttribute : Container ν) : Option (Links ν) :=
  (removeAllNamed name (Fintype.card ν) inAttribute.first dbInstanceP).bind (·.join inAttribute)

def membersAt (node : ν → KjNode) (items : List ν) : Members :=
  items.map fun n => (name n, node n)

variable {name} {links : Links ν} {items incoming : List ν} {k : Text}

theorem removeNamed_spec (h : links.WellFormed items) :
    ∃ links', removeNamed name links k = some links' ∧
      links'.WellFormed (items.eraseP fun node => name node == k) ∧
      ∀ other ∉ items, links'.next other = links.next other := by
  unfold removeNamed
  rw [walk_of_segment h.lists h.nodup.length_le_card, map_some]
  cases hfind : items.find? fun node => name node == k with
  | none =>
    refine ⟨links, rfl, ?_, fun _ _ => rfl⟩
    rw [eraseP_of_forall_not (find?_eq_none.mp hfind)]
    exact h
  | some a =>
    obtain ⟨ha, before, after, rfl, hbefore⟩ := find?_eq_some_iff_append.mp hfind
    have hfirst : ∀ b ∈ before, ¬ (name b == k) = true := fun b hb => by simpa using hbefore b hb
    have hmem : a ∈ before ++ a :: after := mem_append_right _ mem_cons_self
    refine ⟨_, rfl, ?_, fun other ho => Links.unlink_next h hmem ho⟩
    rw [eraseP_append_right _ hfirst, eraseP_cons_of_pos (p := fun node => name node == k) ha]
    have herase := erase_append_right (a :: after) fun hmem => hfirst a hmem ha
    rw [erase_cons_head] at herase
    rw [← herase]
    exact h.unlink hmem

variable (name) in
/-- The loop comes to its end, since what it goes over is apart from what it removes. -/
theorem removeAllNamed_spec (h : links.WellFormed items) {p : Option ν} {fuel : ℕ}
    (hin : Segment links.next p incoming none) (hn : (items ++ incoming).Nodup)
    (hfuel : incoming.length ≤ fuel) :
    ∃ links', removeAllNamed name fuel p links = some links' ∧
      links'.WellFormed (incoming.foldl (fun l n => l.eraseP fun m => name m == name n) items) ∧
      ∀ other ∉ items, links'.next other = links.next other := by
  induction incoming generalizing links items p fuel with
  | nil =>
    obtain rfl : p = none := hin
    exact ⟨links, by cases fuel <;> rfl, h, fun _ _ => rfl⟩
  | cons nodeP incoming ih =>
    obtain ⟨rfl, hin⟩ := hin
    cases fuel with
    | zero => cases hfuel
    | succ fuel =>
      obtain ⟨links₁, h₁, hwf₁, hnext₁⟩ := removeNamed_spec (k := name nodeP) h
      have apart : ∀ b ∈ nodeP :: incoming, b ∉ items := fun b hb hmem =>
        (nodup_append.mp hn).2.2 b hmem b hb rfl
      have hin₁ : Segment links₁.next (links₁.next nodeP) incoming none := by
        rw [hnext₁ nodeP (apart nodeP mem_cons_self)]
        exact hin.congr fun b hb => hnext₁ b (apart b (mem_cons_of_mem _ hb))
      obtain ⟨links', h', hwf', hnext'⟩ := ih hwf₁ hin₁
        (hn.sublist (eraseP_sublist.append (sublist_cons_self nodeP incoming)))
        (Nat.le_of_succ_le_succ hfuel)
      refine ⟨links', bind_eq_some_iff.mpr ⟨links₁, h₁, h'⟩, hwf', fun other ho => ?_⟩
      rw [hnext' other fun hmem => ho (eraseP_sublist.subset hmem), hnext₁ other ho]

variable (node : ν → KjNode)

omit [Fintype ν] [DecidableEq ν] in
theorem membersAt_foldl :
    membersAt name node (incoming.foldl (fun l n => l.eraseP fun m => name m == name n) items) =
      removeIncoming (membersAt name node incoming) (membersAt name node items) := by
  induction incoming generalizing items with
  | nil => rfl
  | cons nodeP incoming ih =>
    rw [foldl_cons, ih]
    unfold removeIncoming membersAt kjChildRemove
    rw [map_cons, foldl_cons, eraseP_map]
    rfl

/-- The pointers are joined to the list that mergeInstance makes, also for a fragment that is empty,
if the instance has a member that the fragment does not name, as its datasetId. -/
theorem concatenate_lists (h : links.WellFormed items) {inAttribute : Container ν}
    (hin : Segment links.next inAttribute.first incoming none) (hn : (items ++ incoming).Nodup)
    (hleft : removeIncoming (membersAt name node incoming) (membersAt name node items) ≠ []) :
    ∃ links' joined, concatenate name links inAttribute = some links' ∧
      links'.Lists joined ∧ membersAt name node joined =
        removeIncoming (membersAt name node incoming) (membersAt name node items) ++
          membersAt name node incoming := by
  obtain ⟨hitems, hincoming, apart⟩ := nodup_append.mp hn
  obtain ⟨links₁, h₁, hwf, hnext⟩ := removeAllNamed_spec name h hin hn
    hincoming.length_le_card
  have hin₁ : Segment links₁.next inAttribute.first incoming none :=
    hin.congr fun b hb => hnext b fun hmem => apart b hmem b hb rfl
  have hsub : ∀ m : List ν,
      (m.foldl (fun l n => l.eraseP fun m => name m == name n) items).Sublist items := by
    intro m
    induction m using reverseRecOn with
    | nil => exact List.Sublist.refl _
    | append_singleton m b ih =>
      rw [foldl_append]
      exact eraseP_sublist.trans ih
  rw [← membersAt_foldl node] at hleft ⊢
  obtain ⟨links', hjoin, hlists⟩ := hwf.join (fun hnil => hleft (by rw [hnil]; rfl)) hin₁
    (hn.sublist ((hsub incoming).append (List.Sublist.refl _)))
  refine ⟨links', _, bind_eq_some_iff.mpr ⟨links₁, h₁, hjoin⟩, hlists, ?_⟩
  unfold membersAt
  rw [map_append]

end Siblings

variable (env : UnionEnv)

/-- The fragment under the names that a PATCH without datasetId gives it. -/
def expandedFragment (fragment : Members) : Members :=
  fragment.map fun m => ((orionldSubAttributeExpand env.toContexts m.1).1, m.2)

def modifiedAtName : Text := "modifiedAt".toList

def withModifiedAt (time : ℚ) : Members → Members
  | [] => [(modifiedAtName, .float time)]
  | (name, node) :: members =>
    if name = modifiedAtName then (name, .float time) :: members
    else (name, node) :: withModifiedAt time members

/-- The instance asked for: the members that the fragment does not name, then its own. -/
def patchedInstance (fragment stored : Members) : Members :=
  remove ((expandedFragment env fragment).map Prod.fst) (withModifiedAt env.requestTime stored) ++
    expandedFragment env fragment

/-- A fragment that is accepted, for an instance of an array that the codec has written. -/
structure Accepted (e : StoredEntity) (name : Text) (inAttribute : Members) (datasetId : Text)
    (before : List KjNode) (stored : Members) (after : List KjNode) : Prop where
  check : pcheckAttribute env.toEnv [] none false inAttribute = .ok ()
  found : dbDatasetGet e name datasetId = some (.array (before ++ .object stored :: after))
  instances : InstanceList (before ++ .object stored :: after)
  own : instanceId (.object stored) = some datasetId
  lossless : Lossless (.array (before ++ .object stored :: after))

def TouchesOnlyInstance (e : StoredEntity) (name : Text) (inAttribute : Members)
    (datasetId : Text) (before : List KjNode) (stored : Members) (after : List KjNode) : Prop :=
  ∃ written,
    orionldPatchAttributeWithDatasetId env e name inAttribute datasetId = .ok { e with
      datasets := some (put name (.array (before ++ .object written :: after))
        (e.datasets.getD [])) } ∧
    written = patchedInstance env (withoutFirst "datasetId" inAttribute) stored ∧
    written.lookup modifiedAtName = some (.float env.requestTime) ∧
    written.lookup datasetIdName = some (.string datasetId)

/-- The time is written over the stored one as a double, unless the fragment has its own. -/
def TimeWritten (fragment stored : Members) : Prop :=
  match fragment.lookup modifiedAtName with
  | some node => node = .float env.requestTime
  | none => ∀ node ∈ stored.lookup modifiedAtName, ∃ x, node = .float x

structure Keeps (fragment stored : Members) : Prop where
  expanded : ∀ m ∈ fragment, (orionldSubAttributeExpand env.toContexts m.1).1 = m.1
  lossless : ∀ m ∈ fragment, Lossless m.2
  removed : ∀ m ∈ fragment,
    (stored.map Prod.fst).count m.1 ≤ (fragment.map Prod.fst).count m.1
  modifiedAt : TimeWritten env fragment stored

theorem object_eq (members : Members) :
    objectToKjTree (kjTreeToBsonObject members) = throughCodec members := rfl

theorem losslessMembers_iff (members : Members) :
    LosslessMembers members ↔ ∀ m ∈ members, Lossless m.2 := by
  induction members with
  | nil => simp [LosslessMembers]
  | cons m members ih => rw [LosslessMembers, ih, forall_mem_cons]

theorem lossless_throughCodec (members : Members) : ∀ m ∈ throughCodec members, Lossless m.2 :=
  (losslessMembers_iff _).mp (lossless_object members)

theorem throughCodec_append (members others : Members) :
    throughCodec (members ++ others) = throughCodec members ++ throughCodec others := by
  induction members with
  | nil => rfl
  | cons m members ih =>
    rw [← object_eq, ← object_eq, cons_append, object_cons, object_cons, object_eq, ih,
      append_assoc]
    rfl

theorem throughCodec_of_lossless {members : Members} (h : ∀ m ∈ members, Lossless m.2) :
    throughCodec members = members :=
  (object_kept_iff members).mpr ((losslessMembers_iff members).mpr h)

variable {fragment members : Members} {ks : List Text} {k : Text}

theorem remove_kjChildRemove (h : k ∈ ks) :
    remove ks (kjChildRemove members k) = remove ks members := by
  unfold remove kjChildRemove
  induction members with
  | nil => rfl
  | cons m members ih =>
    by_cases hm : m.1 = k
    · rw [eraseP_cons_of_pos (by simpa using hm), filter_cons_of_neg (by simpa [hm])]
    · rw [eraseP_cons_of_neg (by simpa using hm), filter_cons, filter_cons, ih]

theorem remove_removeIncoming (h : ∀ m ∈ fragment, m.1 ∈ ks) :
    remove ks (removeIncoming fragment members) = remove ks members := by
  unfold removeIncoming
  induction fragment generalizing members with
  | nil => rfl
  | cons m fragment ih =>
    rw [foldl_cons, ih fun m' hm' => h m' (mem_cons_of_mem _ hm'),
      remove_kjChildRemove (h m mem_cons_self)]

theorem count_kjChildRemove_self :
    ((kjChildRemove members k).map Prod.fst).count k = (members.map Prod.fst).count k - 1 := by
  unfold kjChildRemove
  induction members with
  | nil => rfl
  | cons m members ih =>
    by_cases hm : m.1 = k
    · rw [eraseP_cons_of_pos (by simpa using hm), map_cons, hm, count_cons_self,
        Nat.add_sub_cancel]
    · rw [eraseP_cons_of_neg (by simpa using hm), map_cons, map_cons,
        count_cons_of_ne hm, count_cons_of_ne hm, ih]

theorem count_removeIncoming (fragment members : Members) (k : Text) :
    ((removeIncoming fragment members).map Prod.fst).count k =
      (members.map Prod.fst).count k - (fragment.map Prod.fst).count k := by
  unfold removeIncoming
  induction fragment generalizing members with
  | nil => rfl
  | cons m fragment ih =>
    rw [foldl_cons, ih, map_cons]
    by_cases hm : m.1 = k
    · rw [hm, count_kjChildRemove_self, count_cons_self]
      omega
    · rw [count_kjChildRemove_ne members (Ne.symm hm), count_cons_of_ne hm]

variable {m : Text × KjNode} {node : KjNode}

theorem mem_removeIncoming (h : m ∈ removeIncoming fragment members) : m ∈ members := by
  induction fragment generalizing members with
  | nil => exact h
  | cons m' fragment ih => exact mem_of_mem_eraseP (ih h)

theorem removeIncoming_eq_remove (h : ∀ m ∈ fragment,
    (members.map Prod.fst).count m.1 ≤ (fragment.map Prod.fst).count m.1) :
    removeIncoming fragment members = remove (fragment.map Prod.fst) members := by
  rw [← remove_removeIncoming fun _ hm => mem_map_of_mem (f := Prod.fst) hm]
  refine (filter_eq_self.mpr fun m hm => ?_).symm
  have hnot : m.1 ∉ fragment.map Prod.fst := by
    intro hnamed
    obtain ⟨m', hm', hname⟩ := mem_map.mp hnamed
    have hcount := count_removeIncoming fragment members m.1
    have hpos : 0 < ((removeIncoming fragment members).map Prod.fst).count m.1 :=
      count_pos_iff.mpr (mem_map_of_mem hm)
    have hle := hname ▸ h m' hm'
    omega
  simpa using hnot

theorem count_of_removed {names : List Text} (hnames : k ∈ names) {others : Members}
    (h : removeIncoming fragment members = remove names others) :
    (members.map Prod.fst).count k ≤ (fragment.map Prod.fst).count k := by
  have hcount := count_removeIncoming fragment members k
  have hnone : k ∉ (remove names others).map Prod.fst := fun hmem =>
    (mem_keys_remove.mp hmem).2 hnames
  rw [h, count_eq_zero.mpr hnone] at hcount
  omega

variable {time : ℚ}

theorem lookup_withModifiedAt :
    (withModifiedAt time members).lookup modifiedAtName = some (.float time) := by
  induction members with
  | nil => rw [withModifiedAt, lookup_cons, beq_self_eq_true]
  | cons m members ih =>
    rw [withModifiedAt]
    split
    · rename_i hname
      rw [hname, lookup_cons, beq_self_eq_true]
    · rename_i hname
      rw [lookup_cons, beq_false_of_ne (Ne.symm hname), ih]

theorem lookup_withModifiedAt_ne (h : k ≠ modifiedAtName) :
    (withModifiedAt time members).lookup k = members.lookup k := by
  induction members with
  | nil =>
    rw [withModifiedAt, lookup_cons, beq_false_of_ne h]
  | cons m members ih =>
    rw [withModifiedAt]
    split
    · rename_i hname
      rw [lookup_cons, lookup_cons, beq_false_of_ne (hname ▸ h)]
    · rw [lookup_cons, lookup_cons, ih]

theorem count_withModifiedAt_ne (time : ℚ) (h : k ≠ modifiedAtName) :
    ((withModifiedAt time members).map Prod.fst).count k = (members.map Prod.fst).count k := by
  induction members with
  | nil => rw [withModifiedAt, map_cons, count_cons_of_ne (Ne.symm h)]
  | cons m members ih =>
    rw [withModifiedAt]
    split
    · rfl
    · rw [map_cons, map_cons, count_cons, count_cons, ih]

theorem remove_withModifiedAt (h : modifiedAtName ∈ ks) :
    remove ks (withModifiedAt time members) = remove ks members := by
  unfold remove
  induction members with
  | nil => rw [withModifiedAt, filter_cons_of_neg (by simpa using h)]
  | cons m members ih =>
    rw [withModifiedAt]
    split
    · rename_i hname
      rw [filter_cons_of_neg (by simpa [hname] using h),
        filter_cons_of_neg (by simpa [hname] using h)]
    · rw [filter_cons, filter_cons, ih]

theorem mem_withModifiedAt (h : m ∈ withModifiedAt time members) :
    m ∈ members ∨ m.2 = .float time := by
  induction members with
  | nil => exact .inr (congrArg Prod.snd (mem_singleton.mp h))
  | cons m' members ih =>
    rw [withModifiedAt] at h
    split at h
    · rcases mem_cons.mp h with rfl | h
      · exact .inr rfl
      · exact .inl (mem_cons_of_mem _ h)
    rcases mem_cons.mp h with rfl | h
    · exact .inl mem_cons_self
    · exact (ih h).imp_left (mem_cons_of_mem _)

variable {env : UnionEnv}

theorem setModifiedAt_cons (name : Text) (node : KjNode) :
    setModifiedAt env ((name, node) :: members) =
      if name = modifiedAtName then
        setDouble env env.requestTime node >>= fun node => .ok ((name, node) :: members)
      else setModifiedAt env members >>= fun members => .ok ((name, node) :: members) := rfl

theorem setModifiedAt_float (h : ∀ node ∈ members.lookup modifiedAtName, ∃ x, node = .float x) :
    setModifiedAt env members = .ok (withModifiedAt env.requestTime members) := by
  induction members with
  | nil => rfl
  | cons m members ih =>
    obtain ⟨name, node⟩ := m
    rw [setModifiedAt_cons, withModifiedAt]
    by_cases hname : name = modifiedAtName
    · obtain ⟨x, rfl⟩ := h node (by rw [hname, lookup_cons, beq_self_eq_true]; rfl)
      rw [if_pos hname, if_pos hname]
      rfl
    rw [lookup_cons, beq_false_of_ne (Ne.symm hname)] at h
    rw [if_neg hname, if_neg hname, ih h]
    rfl

theorem setModifiedAt_lookup {set : Members} (h : setModifiedAt env members = .ok set)
    (hnode : members.lookup modifiedAtName = some node) :
    ∃ node', setDouble env env.requestTime node = .ok node' ∧
      set.lookup modifiedAtName = some node' := by
  induction members generalizing set with
  | nil => cases hnode
  | cons m members ih =>
    obtain ⟨name, own⟩ := m
    rw [setModifiedAt_cons] at h
    split at h
    · next hname =>
      obtain ⟨own', hown, h⟩ := bind_ok h
      cases h
      rw [hname, lookup_cons, beq_self_eq_true] at hnode ⊢
      cases hnode
      exact ⟨own', hown, rfl⟩
    · next hname =>
      obtain ⟨rest, hrest, h⟩ := bind_ok h
      cases h
      rw [lookup_cons, beq_false_of_ne (Ne.symm hname)] at hnode ⊢
      exact ih hrest hnode

theorem kept_setDouble {node' : KjNode} {x : ℚ} (hnode : Lossless node)
    (h : setDouble env x node = .ok node') :
    ∃ node'', kept node' = some node'' ∧ ∀ y, node'' = .float y → ∃ z, node = .float z := by
  cases node with
  | float f =>
    cases h
    exact ⟨_, rfl, fun _ _ => ⟨f, rfl⟩⟩
  | int i | bool b =>
    cases h
    exact ⟨_, rfl, fun _ hy => nomatch hy⟩
  | null => exact absurd hnode id
  | _ => cases h

variable {stored : Members}

theorem expandedFragment_eq
    (h : ∀ m ∈ fragment, (orionldSubAttributeExpand env.toContexts m.1).1 = m.1) :
    expandedFragment env fragment = fragment := by
  unfold expandedFragment
  induction fragment with
  | nil => rfl
  | cons m fragment ih =>
    rw [map_cons, h m mem_cons_self, ih fun m' hm' => h m' (mem_cons_of_mem _ hm')]

theorem expanded_of_eq (h : expandedFragment env fragment = fragment) :
    ∀ m ∈ fragment, (orionldSubAttributeExpand env.toContexts m.1).1 = m.1 := by
  unfold expandedFragment at h
  induction fragment with
  | nil => exact fun _ hm => nomatch hm
  | cons m fragment ih =>
    obtain ⟨hm, hrest⟩ := cons.inj h
    exact forall_mem_cons.mpr ⟨congrArg Prod.fst hm, ih hrest⟩

theorem any_modifiedAt : fragment.any (fun m => m.1 == "modifiedAt".toList) =
    (fragment.lookup modifiedAtName).isSome := by
  induction fragment with
  | nil => rfl
  | cons m fragment ih =>
    rw [any_cons, ih]
    by_cases hm : modifiedAtName = m.1
    · rw [lookup_cons, ← hm, beq_self_eq_true]
      rfl
    · rw [lookup_cons, beq_false_of_ne hm,
        beq_false_of_ne (show m.1 ≠ "modifiedAt".toList from Ne.symm hm), Bool.false_or]

theorem mergeInstance_named (h : fragment.lookup modifiedAtName = some node) :
    mergeInstance env fragment stored = .ok (removeIncoming fragment stored ++ fragment) := by
  unfold mergeInstance
  rw [any_modifiedAt, h]
  rfl

theorem mergeInstance_unnamed (h : fragment.lookup modifiedAtName = none) :
    mergeInstance env fragment stored =
      setModifiedAt env stored >>= fun set => .ok (removeIncoming fragment set ++ fragment) := by
  unfold mergeInstance
  rw [any_modifiedAt, h]
  rfl

theorem named_of_lookup (h : fragment.lookup modifiedAtName = some node) :
    modifiedAtName ∈ fragment.map Prod.fst :=
  mem_map_of_mem (f := Prod.fst) (mem_of_lookup h)

theorem ne_of_unnamed (h : fragment.lookup modifiedAtName = none) (hm : m ∈ fragment) :
    m.1 ≠ modifiedAtName := by
  intro heq
  have hne := lookup_eq_none_iff.mp h m hm
  simp [heq] at hne

theorem mergeInstance_of_keeps (h : Keeps env fragment stored) :
    mergeInstance env fragment stored = .ok (patchedInstance env fragment stored) := by
  unfold patchedInstance
  rw [expandedFragment_eq h.expanded]
  cases hmod : fragment.lookup modifiedAtName with
  | some node =>
    rw [mergeInstance_named hmod, removeIncoming_eq_remove h.removed,
      remove_withModifiedAt (named_of_lookup hmod)]
  | none =>
    have htime := h.modifiedAt
    rw [TimeWritten, hmod] at htime
    rw [mergeInstance_unnamed hmod, setModifiedAt_float htime, ok_bind,
      removeIncoming_eq_remove fun m hm => ?_]
    rw [count_withModifiedAt_ne _ (ne_of_unnamed hmod hm)]
    exact h.removed m hm

theorem patchedInstance_lossless (h : Keeps env fragment stored)
    (hstored : ∀ m ∈ stored, Lossless m.2) :
    ∀ m ∈ patchedInstance env fragment stored, Lossless m.2 := by
  unfold patchedInstance
  rw [expandedFragment_eq h.expanded]
  intro m hm
  rcases mem_append.mp hm with hm | hm
  · rcases mem_withModifiedAt (mem_of_mem_filter hm) with hm | hm
    · exact hstored m hm
    · rw [hm]
      trivial
  · exact h.lossless m hm

theorem patchedInstance_time (h : Keeps env fragment stored) :
    (patchedInstance env fragment stored).lookup modifiedAtName =
      some (.float env.requestTime) := by
  have htime := h.modifiedAt
  unfold patchedInstance
  unfold TimeWritten at htime
  rw [expandedFragment_eq h.expanded, lookup_append]
  cases hmod : fragment.lookup modifiedAtName with
  | some node =>
    rw [hmod] at htime
    rw [lookup_remove_of_mem (named_of_lookup hmod), none_or, htime]
  | none =>
    have hnot : modifiedAtName ∉ fragment.map Prod.fst := by
      intro hmem
      obtain ⟨m, hm, hname⟩ := mem_map.mp hmem
      exact ne_of_unnamed hmod hm hname
    rw [lookup_remove_of_notMem hnot, lookup_withModifiedAt, some_or]

theorem patchedInstance_datasetId (h : Keeps env fragment stored) {id : Text}
    (hid : stored.lookup datasetIdName = some (.string id))
    (hnot : datasetIdName ∉ fragment.map Prod.fst) :
    (patchedInstance env fragment stored).lookup datasetIdName = some (.string id) := by
  unfold patchedInstance
  rw [expandedFragment_eq h.expanded]
  refine lookup_append_some ?_
  have hne : datasetIdName ≠ modifiedAtName := toList_ne (by decide)
  rw [lookup_remove_of_notMem hnot, lookup_withModifiedAt_ne hne, hid]

theorem fragment_of_throughCodec {rest kept : Members}
    (h : throughCodec (rest ++ fragment) = kept ++ expandedFragment env fragment) :
    (∀ m ∈ fragment, Lossless m.2) ∧ expandedFragment env fragment = fragment ∧
      throughCodec rest = kept := by
  have hlossless : ∀ m ∈ fragment, Lossless m.2 := by
    intro m hm
    have hwritten := lossless_throughCodec (rest ++ fragment)
    rw [h] at hwritten
    exact hwritten ((orionldSubAttributeExpand env.toContexts m.1).1, m.2)
      (mem_append_right kept (mem_map.mpr ⟨m, hm, rfl⟩))
  rw [throughCodec_append, throughCodec_of_lossless hlossless] at h
  obtain ⟨hrest, hfragment⟩ := append_inj' h (by rw [expandedFragment, length_map])
  exact ⟨hlossless, hfragment.symm, hrest⟩

theorem stored_float (hstored : ∀ m ∈ stored, Lossless m.2) {set : Members}
    (hset : setModifiedAt env stored = .ok set) (hmod : fragment.lookup modifiedAtName = none)
    {x : ℚ} (h : (throughCodec (removeIncoming fragment set)).lookup modifiedAtName =
      some (.float x)) :
    ∀ node ∈ stored.lookup modifiedAtName, ∃ y, node = .float y := by
  intro node hnode
  obtain ⟨node', hdouble, hlookup⟩ := setModifiedAt_lookup hset hnode
  obtain ⟨node'', hkept, hfloat⟩ := kept_setDouble (hstored _ (mem_of_lookup hnode)) hdouble
  have hnot : modifiedAtName ∉ fragment.map Prod.fst := by
    intro hmem
    obtain ⟨m, hm, hname⟩ := mem_map.mp hmem
    exact ne_of_unnamed hmod hm hname
  have hleft : (removeIncoming fragment set).lookup modifiedAtName = some node' :=
    (lookup_removeIncoming hnot).trans hlookup
  rw [lookup_throughCodec hleft hkept] at h
  exact hfloat x (some.inj h)

theorem keeps_of_mergeInstance (hstored : ∀ m ∈ stored, Lossless m.2) {merged : Members}
    (hmerged : mergeInstance env fragment stored = .ok merged)
    (h : throughCodec merged = patchedInstance env fragment stored)
    (htime : (throughCodec merged).lookup modifiedAtName = some (.float env.requestTime)) :
    Keeps env fragment stored := by
  unfold patchedInstance at h
  cases hmod : fragment.lookup modifiedAtName with
  | some node =>
    rw [mergeInstance_named hmod] at hmerged
    cases hmerged
    obtain ⟨hlossless, hexpanded, hrest⟩ := fragment_of_throughCodec h
    rw [throughCodec_of_lossless fun m hm => hstored m (mem_removeIncoming hm)] at hrest
    rw [hexpanded] at hrest h
    refine ⟨expanded_of_eq hexpanded, hlossless, fun m hm =>
      count_of_removed (mem_map_of_mem hm) hrest, ?_⟩
    rw [h, lookup_append, lookup_remove_of_mem (named_of_lookup hmod), none_or, hmod] at htime
    rw [TimeWritten, hmod]
    exact some.inj htime
  | none =>
    rw [mergeInstance_unnamed hmod] at hmerged
    obtain ⟨set, hset, hmerged⟩ := bind_ok hmerged
    cases hmerged
    obtain ⟨hlossless, hexpanded, hrest⟩ := fragment_of_throughCodec h
    rw [throughCodec_append, lookup_append, throughCodec_of_lossless hlossless, hmod,
      or_none] at htime
    have hfloat := stored_float hstored hset hmod htime
    rw [setModifiedAt_float hfloat] at hset
    cases hset
    have hset : ∀ m ∈ withModifiedAt env.requestTime stored, Lossless m.2 := by
      intro m hm
      rcases mem_withModifiedAt hm with hm | hm
      · exact hstored m hm
      · rw [hm]
        trivial
    rw [throughCodec_of_lossless fun m hm => hset m (mem_removeIncoming hm), hexpanded] at hrest
    refine ⟨expanded_of_eq hexpanded, hlossless, fun m hm => ?_, ?_⟩
    · rw [← count_withModifiedAt_ne env.requestTime (ne_of_unnamed hmod hm)]
      exact count_of_removed (mem_map_of_mem hm) hrest
    · rw [TimeWritten, hmod]
      exact hfloat

variable {e : StoredEntity}

def DatasetsLossless (e : StoredEntity) : Prop := ∀ s ∈ e.datasets.getD [], Lossless s.2

theorem lossless_replace (h : DatasetsLossless e) {name : Text} {slot : KjNode}
    (hslot : isContainer slot = true) : DatasetsLossless (dbEntityFieldReplace e name slot) := by
  have hkept : ∃ slot', kept slot = some slot' := by
    cases slot with
    | array items => exact ⟨_, kept_array items⟩
    | object members => exact ⟨_, kept_object members⟩
    | _ => cases hslot
  obtain ⟨slot', hkept⟩ := hkept
  unfold dbEntityFieldReplace
  rw [hkept, getD_some]
  intro s hs
  rcases mem_put hs with rfl | hs
  · exact lossless_of_kept hkept
  · exact h s hs

theorem patchSlot_container {incoming : Members} {datasetId : Text} {slot slot' : KjNode}
    (h : patchSlot env incoming datasetId slot = .ok slot') : isContainer slot' = true := by
  unfold patchSlot at h
  split at h
  · obtain ⟨changed, -, h⟩ := bind_ok h
    cases changed with
    | none => cases h
    | some instances =>
      cases h
      rfl
  · unfold mergeNode at h
    split at h
    · obtain ⟨members, -, h⟩ := bind_ok h
      cases h
      rfl
    · cases h

theorem lossless_delete {old : StoredEntity} (hold : DatasetsLossless old) (h : Deleted old e) :
    DatasetsLossless e := by
  have hfield : ∀ name, DatasetsLossless (dbEntityFieldDelete old name) := by
    intro name s hs
    unfold dbEntityFieldDelete at hs
    cases hd : old.datasets with
    | none =>
      rw [hd] at hs
      cases hs
    | some d =>
      rw [hd] at hs
      exact hold s (by rw [hd]; exact mem_of_mem_filter hs)
  cases h with
  | oneInstance => exact lossless_replace hold rfl
  | slot => exact hfield _
  | all => exact hfield _
  | attrsOnly => exact hold

variable (accepts : Text → List ContextAttribute → Bool) (merge : MongoEntity.MergeAttrInfo)

def DbLossless (db : Db) : Prop := ∀ f ∈ db, DatasetsLossless f.2

theorem written_lossless {db : Db} {event : Event} {f : Text × StoredEntity} (hdb : DbLossless db)
    (h : written accepts merge db event = .ok (some f)) : DatasetsLossless f.2 := by
  have hlookup : ∀ id, DatasetsLossless ((db.lookup id).getD ⟨[], [], none⟩) := by
    intro id
    cases hid : db.lookup id with
    | none => exact fun s hs => nomatch hs
    | some old => exact hdb _ (mem_of_lookup hid)
  unfold written at h
  split at h
  · obtain ⟨created, hcreated, h⟩ := bind_ok h
    cases h
    unfold OrionldPostEntities.orionldPostEntities at hcreated
    split at hcreated
    · obtain ⟨idType, -, hcreated⟩ := bind_ok hcreated
      obtain ⟨u, -, hcreated⟩ := bind_ok hcreated
      obtain ⟨s, -, hcreated⟩ := bind_ok hcreated
      split at hcreated
      · cases hcreated
        intro slot hslot
        unfold OrionldPostEntities.createEntity at hslot
        split at hslot
        · cases hslot
        · exact lossless_throughCodec _ slot hslot
      · cases hcreated
    · cases hcreated
  · obtain ⟨e, he, h⟩ := bind_ok h
    cases h
    obtain ⟨r, -, he⟩ := bind_ok he
    cases he
    intro slot hslot
    unfold ofEntity at hslot
    cases hd : r.entity.datasets with
    | none =>
      rw [hd] at hslot
      cases hslot
    | some d =>
      rw [hd] at hslot
      exact lossless_throughCodec _ slot hslot
  · obtain ⟨e, he, h⟩ := bind_ok h
    cases e with
    | none => cases h
    | some e =>
      cases h
      obtain ⟨old, name, id, inAttribute, slot, slot', seen, rfl, -, -, hpatched, rfl⟩ :=
        patched_of_ok he
      exact lossless_replace (hlookup _) (patchSlot_container hpatched)
  · obtain ⟨e, he, h⟩ := bind_ok h
    cases h
    exact lossless_delete (hlookup _) (deleted_of_ok he)

theorem step_lossless {db : Db} {event : Event} (hdb : DbLossless db) :
    DbLossless (step accepts merge db event) := by
  unfold step
  split
  · rename_i id e hwritten
    intro f hf
    rcases mem_put hf with rfl | hf
    · exact written_lossless accepts merge hdb hwritten
    · exact hdb f hf
  · exact hdb

/-- In every run from the empty database all slots are as the codec writes them. -/
theorem datasets_stay_lossless (events : List Event) :
    StepSystem.Throughout (step accepts merge) DbLossless [] events :=
  StepSystem.throughout_of_guarded (fun _ hf => nomatch hf)
    (fun _ _ hdb _ => step_lossless accepts merge hdb) StepSystem.guarded_true

variable {name datasetId : Text} {inAttribute : Members} {before after : List KjNode}

theorem Accepted.datasetId_notMem
    (h : Accepted env e name inAttribute datasetId before stored after) :
    datasetIdName ∉ (withoutFirst "datasetId" inAttribute).map Prod.fst :=
  notMem_withoutFirst (pcheckAttribute_count h.check)

theorem Accepted.stored_lossless
    (h : Accepted env e name inAttribute datasetId before stored after) :
    (∀ i ∈ before ++ after, Lossless i) ∧ ∀ m ∈ stored, Lossless m.2 := by
  have hall : ∀ (items : List KjNode), LosslessItems items → ∀ i ∈ items, Lossless i := by
    intro items hitems
    induction items with
    | nil => exact fun _ hi => nomatch hi
    | cons item items ih => exact forall_mem_cons.mpr ⟨hitems.1, ih hitems.2⟩
  have hitems := hall _ h.lossless
  refine ⟨fun i hi => hitems i ?_, (losslessMembers_iff stored).mp (hitems (.object stored) ?_)⟩
  · rcases mem_append.mp hi with hi | hi
    · exact mem_append_left _ hi
    · exact mem_append_right _ (mem_cons_of_mem _ hi)
  · exact mem_append_right _ mem_cons_self

theorem arrayToKjTree_lossless {items : List KjNode} (h : ∀ i ∈ items, Lossless i) :
    arrayToKjTree (kjTreeToBsonArray items) = items := by
  refine (array_kept_iff items).mpr ?_
  induction items with
  | nil => trivial
  | cons item items ih =>
    exact ⟨h item mem_cons_self, ih fun i hi => h i (mem_cons_of_mem _ hi)⟩

theorem array_append (items others : List KjNode) :
    arrayToKjTree (kjTreeToBsonArray (items ++ others)) =
      arrayToKjTree (kjTreeToBsonArray items) ++ arrayToKjTree (kjTreeToBsonArray others) := by
  induction items with
  | nil => rfl
  | cons item items ih => rw [cons_append, array_cons, array_cons, ih, append_assoc]

theorem orionldPatchAttributeWithDatasetId_eq
    (h : Accepted env e name inAttribute datasetId before stored after) :
    orionldPatchAttributeWithDatasetId env e name inAttribute datasetId =
      mergeInstance env (withoutFirst "datasetId" inAttribute) stored >>= fun merged =>
        .ok { e with
          datasets := some (put name (.array (before ++ .object (throughCodec merged) :: after))
            (e.datasets.getD [])) } := by
  unfold orionldPatchAttributeWithDatasetId
  rw [h.check, h.found]
  simp only [patchSlot]
  rw [changeLast_found h.instances h.own, mergeNode]
  cases mergeInstance env (withoutFirst "datasetId" inAttribute) stored with
  | error r => rfl
  | ok merged =>
    obtain ⟨hothers, -⟩ := h.stored_lossless
    have hwritten : kept (.array (before ++ .object merged :: after)) =
        some (.array (before ++ .object (throughCodec merged) :: after)) := by
      rw [kept_array, array_append, array_cons, kept_object,
        arrayToKjTree_lossless fun i hi => hothers i (mem_append_left _ hi),
        arrayToKjTree_lossless fun i hi => hothers i (mem_append_right _ hi)]
      rfl
    change Except.ok (dbEntityFieldReplace e name (.array (before ++ .object merged :: after))) = _
    rw [dbEntityFieldReplace, hwritten]
    rfl

theorem written_eq {instances instances' : List KjNode}
    (h : ({ e with datasets := some (put name (.array instances) (e.datasets.getD [])) } :
        StoredEntity) =
      { e with datasets := some (put name (.array instances') (e.datasets.getD [])) }) :
    instances = instances' := by
  have hdatasets := congrArg (fun e => (StoredEntity.datasets e).bind (List.lookup name)) h
  simp only [bind_some, lookup_put_self] at hdatasets
  exact KjNode.array.inj (some.inj hdatasets)

theorem keeps_of_touches
    (h : Accepted env e name inAttribute datasetId before stored after)
    (htouches : TouchesOnlyInstance env e name inAttribute datasetId before stored after) :
    Keeps env (withoutFirst "datasetId" inAttribute) stored := by
  obtain ⟨-, hstored⟩ := h.stored_lossless
  obtain ⟨written, hwritten, hpatched, htime, -⟩ := htouches
  rw [orionldPatchAttributeWithDatasetId_eq h] at hwritten
  obtain ⟨merged, hmerged, hok⟩ := bind_ok hwritten
  have heq := written_eq (Except.ok.inj hok)
  obtain ⟨hobject, -⟩ := cons.inj (append_cancel_left heq)
  obtain rfl : throughCodec merged = written := KjNode.object.inj hobject
  exact keeps_of_mergeInstance hstored hmerged hpatched htime

theorem touches_of_keeps
    (h : Accepted env e name inAttribute datasetId before stored after)
    (hkeeps : Keeps env (withoutFirst "datasetId" inAttribute) stored) :
    TouchesOnlyInstance env e name inAttribute datasetId before stored after := by
  obtain ⟨-, hstored⟩ := h.stored_lossless
  refine ⟨_, ?_, rfl, patchedInstance_time hkeeps, ?_⟩
  · rw [orionldPatchAttributeWithDatasetId_eq h, mergeInstance_of_keeps hkeeps, ok_bind,
      throughCodec_of_lossless (patchedInstance_lossless hkeeps hstored)]
  · exact patchedInstance_datasetId hkeeps (kjLookup_datasetId h.own) h.datasetId_notMem

/-- Exactly under the condition the instance has the members of the fragment, expanded, the time,
and its other members, and nothing else changes. -/
theorem touches_only_instance_iff
    (h : Accepted env e name inAttribute datasetId before stored after) :
    TouchesOnlyInstance env e name inAttribute datasetId before stored after ↔
      Keeps env (withoutFirst "datasetId" inAttribute) stored :=
  ⟨keeps_of_touches h, touches_of_keeps h⟩

section

open DatasetsRuns (plainUnionEnv)

def instanceOf (datasetId : String) (value : ℤ) : Members :=
  [("type".toList, .string "Property".toList), ("value".toList, .int value),
    ("datasetId".toList, .string datasetId.toList), ("createdAt".toList, .float 1),
    ("modifiedAt".toList, .float 1)]

def speedName : Text := "urn:speed".toList

def speedEntity : StoredEntity :=
  ⟨[], [], some [(speedName, .array [.object (instanceOf "urn:D1" 1),
    .object (instanceOf "urn:D2" 2)])]⟩

theorem speed_accepted
    (hcheck : pcheckAttribute plainUnionEnv.toEnv [] none false inAttribute = .ok ()) :
    Accepted plainUnionEnv speedEntity speedName inAttribute "urn:D2".toList
      [.object (instanceOf "urn:D1" 1)] (instanceOf "urn:D2" 2) [] where
  check := hcheck
  found := rfl
  instances := ⟨by decide, by decide⟩
  own := rfl
  lossless := by simp [Lossless, LosslessItems, LosslessMembers, instanceOf]

def newSpeed : Members :=
  [("datasetId".toList, .string "urn:D2".toList), ("value".toList, .int 7)]

theorem newSpeed_touches : TouchesOnlyInstance plainUnionEnv speedEntity speedName
    newSpeed "urn:D2".toList [.object (instanceOf "urn:D1" 1)] (instanceOf "urn:D2" 2) [] := by
  refine (touches_only_instance_iff (speed_accepted rfl)).mpr ⟨?_, ?_, ?_, ?_⟩
  · decide
  · simp [withoutFirst, kjChildRemove, newSpeed, Lossless]
  · decide
  · intro node hnode
    exact ⟨1, (some.inj hnode).symm⟩

def shortNameFragment : Members :=
  [("datasetId".toList, .string "urn:D2".toList), ("accuracy".toList, .object
    [("type".toList, .string "Property".toList), ("value".toList, .int 5)])]

theorem shortName_stored :
    Accepted plainUnionEnv speedEntity speedName shortNameFragment "urn:D2".toList
        [.object (instanceOf "urn:D1" 1)] (instanceOf "urn:D2" 2) [] ∧
      ¬ TouchesOnlyInstance plainUnionEnv speedEntity speedName shortNameFragment
        "urn:D2".toList [.object (instanceOf "urn:D1" 1)] (instanceOf "urn:D2" 2) [] := by
  have haccepted : Accepted plainUnionEnv speedEntity speedName shortNameFragment
      "urn:D2".toList [.object (instanceOf "urn:D1" 1)] (instanceOf "urn:D2" 2) [] :=
    speed_accepted rfl
  refine ⟨haccepted, fun h => ?_⟩
  have hname := (keeps_of_touches haccepted h).expanded _ mem_cons_self
  exact absurd hname (by decide +kernel)

end

end DatasetInstancePatch
