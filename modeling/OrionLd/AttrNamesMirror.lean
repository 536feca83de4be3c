import Mathlib.Data.List.Dedup
import Mathlib.Data.List.Perm.Subperm
import OrionLd.LocationRuns

/-! The two lists of attributes that a document has: the keys of attrs, and attrNames. They are
kept by different operators of the updates, and a name has several keys when its attributes
have metadata IDs. -/
namespace AttrNamesMirror

open List Option
open KjTree FieldList StepSystem MongoLocation MongoCommonUpdate LocationMirror LocationUpdates
  LocationRuns Fallible

variable {μ : Type}

def IsName (n : Text) : Prop := '=' ∉ n ∧ '(' ∉ n ∧ n.length ≤ 511

instance (n : Text) : Decidable (IsName n) := inferInstanceAs (Decidable (_ ∧ _))

/-- The key is the one of the name, with or without the suffix of a metadata ID. -/
def KeyOf (n key : Text) : Prop := key = dotForEq n ∨ ∃ id, key = dotForEq n ++ "()".toList ++ id

def keysOf (d : EntityDoc μ) : List Text := d.attrs.map Prod.fst

structure Mirrors (d : EntityDoc μ) : Prop where
  once : d.attrNames.Nodup
  exact : ∀ n, n ∈ d.attrNames ↔ IsName n ∧ ∃ key ∈ keysOf d, KeyOf n key

/-- No location is given, and that of the entity, if any, is an attribute of the request and none
any more. -/
def Unlocated (d : EntityDoc μ) (r : Request) : Prop :=
  (∀ ca ∈ r.contextAttributeVector, getLocation r.apiVersion ca = []) ∧
    (locAttr (some d) = [] ∨ r.apiVersion ≠ .v1 ∧
      locAttr (some d) ∈ r.contextAttributeVector.map ContextAttribute.name)

def AllDeleted (d : EntityDoc μ) (r : Request) (n : Text) : Prop :=
  howManyAttrs d.attrs (dotForEq n) ≤ (r.contextAttributeVector.map ContextAttribute.name).count n

/-- Nothing is given twice in a replacing request, no location is put among the attributes, and none
of several attributes of a name with a dot is deleted. -/
def KeepsNames (d : EntityDoc μ) (r : Request) : Prop :=
  match r.action with
  | .update => True
  | .append => ∀ ca ∈ r.contextAttributeVector, d.attrs.lookup (effectiveName ca) = none →
      IsName ca.name
  | .appendStrict => ∀ ca ∈ r.contextAttributeVector, d.attrs.lookup (effectiveName ca) = none →
      IsName ca.name
  | .replace => (∀ ca ∈ r.contextAttributeVector, IsName ca.name) ∧
      (r.contextAttributeVector.map ContextAttribute.name).Nodup ∧ Unlocated d r
  | .delete => (∀ ca ∈ r.contextAttributeVector,
        (d.attrs.lookup (effectiveName ca)).isSome ∧ getLocation r.apiVersion ca = []) →
      ∀ ca ∈ r.contextAttributeVector,
        IsName ca.name ∧ ('.' ∈ ca.name → AllDeleted d r ca.name)

instance (d : EntityDoc μ) (r : Request) : Decidable (Unlocated d r) :=
  inferInstanceAs (Decidable (_ ∧ _))

instance (d : EntityDoc μ) (r : Request) (n : Text) : Decidable (AllDeleted d r n) :=
  inferInstanceAs (Decidable (_ ≤ _))

def decidableAppends (d : EntityDoc μ) (caV : List ContextAttribute) : Decidable
    (∀ ca ∈ caV, d.attrs.lookup (effectiveName ca) = none → IsName ca.name) :=
  decidable_of_iff (∀ ca ∈ caV, (d.attrs.lookup (effectiveName ca)).isNone → IsName ca.name)
    (by simp only [Option.isNone_iff_eq_none])

instance (d : EntityDoc μ) : (r : Request) → Decidable (KeepsNames d r)
  | ⟨_, .update, _, _⟩ => isTrue trivial
  | ⟨_, .append, _, caV⟩ => decidableAppends d caV
  | ⟨_, .appendStrict, _, caV⟩ => decidableAppends d caV
  | ⟨_, .replace, _, _⟩ => inferInstanceAs (Decidable (_ ∧ _ ∧ _))
  | ⟨_, .delete, _, _⟩ => inferInstanceAs (Decidable (_ → _))

structure Named (d : EntityDoc μ) : Prop where
  keysOnce : (keysOf d).Nodup
  once : d.attrNames.Nodup
  keyed : ∀ n ∈ d.attrNames, IsName n ∧ ∃ key ∈ keysOf d, KeyOf n key
  named : ∀ key ∈ keysOf d, ∃ n ∈ d.attrNames, KeyOf n key

variable {d : EntityDoc μ} {n m key : Text}

theorem keyOf_effectiveName {ca : ContextAttribute} (h : IsName ca.name) :
    KeyOf ca.name (effectiveName ca) := by
  unfold effectiveName KeyOf
  rw [fieldName_eq h.2.2]
  cases getMetadataId ca with
  | none => exact .inl rfl
  | some id => exact .inr ⟨_, rfl⟩

theorem takeWhile_stops {p : Char → Bool} {body rest : Text} (hall : ∀ c ∈ body, p c = true)
    (hstop : ∀ c, rest.head? = some c → p c = false) : (body ++ rest).takeWhile p = body := by
  rw [takeWhile_append_of_pos hall]
  cases rest with
  | nil => exact append_nil _
  | cons c rest => rw [takeWhile_cons_of_neg (by simp [hstop c rfl]), append_nil]

theorem notParen_iff (c : Char) : decide (c ≠ '(') = false ↔ c = '(' := by
  rw [decide_eq_false_iff_not, not_not]

theorem all_notParen (hn : '(' ∉ n) : ∀ c ∈ n, decide (c ≠ '(') = true := by
  intro c hc
  exact decide_eq_true fun heq => hn (heq ▸ hc)

theorem takeWhile_of_keyOf (hn : IsName n) (h : KeyOf n key) :
    key.takeWhile (· ≠ '(') = dotForEq n := by
  have hall := all_notParen (paren_notMem_dotForEq hn.2.1)
  rcases h with rfl | ⟨id, rfl⟩
  · conv_lhs => rw [← append_nil (dotForEq n)]
    exact takeWhile_stops hall fun c hc => nomatch hc
  rw [append_assoc]
  refine takeWhile_stops hall fun c hc => ?_
  rw [← some.inj hc]
  rfl

theorem KeyOf.unique (hn : IsName n) (hm : IsName m) (h : KeyOf n key) (h' : KeyOf m key) :
    n = m := by
  refine dotForEq_injective hn.1 hm.1 ?_
  rw [← takeWhile_of_keyOf hn h, takeWhile_of_keyOf hm h']

theorem Named.mirrors (h : Named d) : Mirrors d := by
  refine ⟨h.once, fun n => ⟨h.keyed n, ?_⟩⟩
  rintro ⟨hname, key, hkey, hof⟩
  obtain ⟨m, hm, hof'⟩ := h.named key hkey
  rwa [hof.unique hname (h.keyed m hm).1 hof']

def countsFor (attrName key : Text) : Bool :=
  attrName.isPrefixOf key &&
    (key.length == attrName.length || (key.drop attrName.length).head? == some '(')

theorem howManyAttrs_eq (attrs : List (Text × AttrsField μ)) (attrName : Text) :
    howManyAttrs attrs attrName = ((attrs.map Prod.fst).filter (countsFor attrName)).length := by
  rw [List.filter_map, List.length_map]
  rfl

theorem countsFor_iff (hn : '(' ∉ n) (key : Text) :
    countsFor n key = true ↔ key.takeWhile (· ≠ '(') = n := by
  unfold countsFor
  rw [Bool.and_eq_true, isPrefixOf_iff_prefix, Bool.or_eq_true, beq_iff_eq, beq_iff_eq]
  constructor
  · rintro ⟨⟨rest, rfl⟩, hrest⟩
    refine takeWhile_stops (all_notParen hn) fun c hc => (notParen_iff c).mpr ?_
    rcases hrest with hlen | hhead
    · rw [length_append, Nat.add_eq_left, length_eq_zero_iff] at hlen
      rw [hlen] at hc
      cases hc
    · rw [drop_left, hc] at hhead
      exact some.inj hhead
  · intro h
    have hsplit : key = n ++ key.dropWhile (· ≠ '(') := by
      rw [← h, takeWhile_append_dropWhile]
    rw [hsplit]
    refine ⟨prefix_append _ _, ?_⟩
    rw [drop_left, length_append]
    have hstop := List.head?_dropWhile_not (· ≠ '(') key
    cases hrest : key.dropWhile (· ≠ '(') with
    | nil => exact .inl rfl
    | cons c rest =>
      rw [hrest] at hstop
      refine .inr (congrArg some ?_)
      simpa using hstop

theorem counts_of_keyOf (hm : IsName m) (hof : KeyOf m key) (hn : '(' ∉ n) :
    countsFor n key = true ↔ dotForEq m = n := by
  rw [countsFor_iff hn, takeWhile_of_keyOf hm hof]

variable {env : Env μ} {v : ApiVersion} {u u' : Update μ} {ca : ContextAttribute}

theorem mem_keysOf : key ∈ keysOf d ↔ (d.attrs.lookup key).isSome := by
  rw [isSome_iff_ne_none, Ne, lookup_eq_none_iff]
  constructor
  · intro h hnone
    obtain ⟨f, hf, rfl⟩ := mem_map.mp h
    simpa using hnone f hf
  · intro h
    by_contra hkey
    refine h fun f hf => ?_
    have hne : key ≠ f.1 := fun heq => hkey (heq ▸ mem_map_of_mem hf)
    simpa using hne

/-- What an update or an append has collected: fields that are stored, or have a new name. -/
structure Adds (d : EntityDoc μ) (u : Update μ) : Prop where
  toUnset : u.toUnset = []
  deleted : u.deleted = []
  set : ∀ key ∈ u.toSet.map Prod.fst, key ∈ keysOf d ∨ ∃ n ∈ u.toPush, KeyOf n key
  push : ∀ n ∈ u.toPush, IsName n ∧ ∃ key ∈ u.toSet.map Prod.fst, KeyOf n key

theorem noUpdate_adds (d : EntityDoc μ) : Adds d (noUpdate d) :=
  ⟨rfl, rfl, nofun, nofun⟩

theorem Adds.set_stored (h : Adds d u) (hkey : key ∈ keysOf d) (a : StoredAttribute μ) (b : Bool) :
    Adds d { u with toSet := u.toSet ++ [(key, a)], entityModified := b } := by
  refine ⟨h.toUnset, h.deleted, fun k hk => ?_, fun n hn => ?_⟩
  · rw [map_append, mem_append, map_singleton, mem_singleton] at hk
    rcases hk with hk | rfl
    · exact h.set k hk
    · exact .inl hkey
  · obtain ⟨hname, k, hk, hof⟩ := h.push n hn
    refine ⟨hname, k, ?_, hof⟩
    rw [map_append]
    exact mem_append_left _ hk

theorem updateAttribute_adds (h : Adds d u) : Adds d (updateAttribute env v d ca false u).1 := by
  unfold updateAttribute
  rw [if_neg Bool.false_ne_true]
  split
  · exact h
  rename_i field hfield
  split
  · exact h.set_stored (mem_keysOf.mpr (isSome_of_eq_some hfield)) _ _
  · exact h

theorem updateItem_adds (h : Adds d u)
    (hok : updateContextAttributeItem env v d false u ca = .ok u') : Adds d u' := by
  obtain ⟨loc, _, hok⟩ := bind_ok hok
  obtain ⟨date, _, hok⟩ := bind_ok hok
  cases hok
  have hadds : Adds d (updateAttribute env v d ca false u).1 := updateAttribute_adds h
  exact ⟨hadds.toUnset, hadds.deleted, hadds.set, hadds.push⟩

theorem appendAttribute_adds {noOverwrite : Bool} (h : Adds d u)
    (hname : d.attrs.lookup (effectiveName ca) = none → IsName ca.name) :
    Adds d (appendAttribute env v d noOverwrite ca u).1 := by
  unfold appendAttribute
  split
  · split
    · exact ⟨h.toUnset, h.deleted, h.set, h.push⟩
    · exact updateAttribute_adds h
  rename_i hnone
  refine ⟨h.toUnset, h.deleted, fun k hk => ?_, fun n hn => ?_⟩
  · dsimp only at hk ⊢
    rw [map_append, mem_append, map_singleton, mem_singleton] at hk
    rcases hk with hk | rfl
    · refine (h.set k hk).imp_right ?_
      rintro ⟨n, hn, hof⟩
      exact ⟨n, mem_append_left _ hn, hof⟩
    · exact .inr ⟨ca.name, mem_append_right _ mem_cons_self,
        keyOf_effectiveName (hname (not_isSome_iff_eq_none.mp hnone))⟩
  · dsimp only at hn ⊢
    rw [map_append]
    rcases mem_append.mp hn with hn | hn
    · obtain ⟨hname, k, hk, hof⟩ := h.push n hn
      exact ⟨hname, k, mem_append_left _ hk, hof⟩
    obtain rfl := mem_singleton.mp hn
    have hlegal := hname (not_isSome_iff_eq_none.mp hnone)
    exact ⟨hlegal, effectiveName ca, mem_append_right _ mem_cons_self, keyOf_effectiveName hlegal⟩

theorem appendItem_adds {noOverwrite : Bool} (h : Adds d u)
    (hname : d.attrs.lookup (effectiveName ca) = none → IsName ca.name)
    (hok : appendContextAttributeItem env v d noOverwrite u ca = .ok u') : Adds d u' := by
  unfold appendContextAttributeItem at hok
  split at hok
  · cases hok
  obtain ⟨loc, _, hok⟩ := bind_ok hok
  obtain ⟨date, _, hok⟩ := bind_ok hok
  cases hok
  have hadds : Adds d (appendAttribute env v d noOverwrite ca u).1 := appendAttribute_adds h hname
  exact ⟨hadds.toUnset, hadds.deleted, hadds.set, hadds.push⟩

theorem updatedEntity_named_of_adds (hd : Named d) (h : Adds d u) : Named (updatedEntity d u) := by
  have hpull : toPull d u = [] := by
    unfold toPull
    rw [h.deleted]
    rfl
  have hkeys (key : Text) : key ∈ keysOf (updatedEntity d u) ↔
      key ∈ u.toSet.map Prod.fst ∨ key ∈ keysOf d := by
    unfold keysOf updatedEntity
    rw [mem_keys_remove, mem_keys_putAll, attributeFields_keys, h.toUnset]
    exact and_iff_left not_mem_nil
  have hnames (n : Text) : n ∈ (updatedEntity d u).attrNames ↔ n ∈ d.attrNames ∨ n ∈ u.toPush := by
    unfold updatedEntity
    rw [hpull]
    simp only [mem_append, mem_filter, mem_dedup, Bool.not_eq_true',
      contains_eq_mem, decide_eq_false_iff_not, not_mem_nil, not_false_eq_true, and_true]
    tauto
  refine ⟨?_, ?_, fun n hn => ?_, fun key hkey => ?_⟩
  · exact nodup_remove (nodup_putAll hd.keysOnce)
  · unfold updatedEntity
    refine List.Nodup.filter _ (nodup_append.mpr ⟨hd.once, ?_, ?_⟩)
    · exact (nodup_dedup _).filter _
    · rintro n hn m hm rfl
      have hnot := (mem_filter.mp hm).2
      rw [Bool.not_eq_true', contains_eq_mem, decide_eq_false_iff_not] at hnot
      exact hnot hn
  · rcases (hnames n).mp hn with hn | hn
    · obtain ⟨hname, key, hkey, hof⟩ := hd.keyed n hn
      exact ⟨hname, key, (hkeys key).mpr (.inr hkey), hof⟩
    · obtain ⟨hname, key, hkey, hof⟩ := h.push n hn
      exact ⟨hname, key, (hkeys key).mpr (.inl hkey), hof⟩
  · have hstored (hkey : key ∈ keysOf d) : ∃ n ∈ (updatedEntity d u).attrNames, KeyOf n key := by
      obtain ⟨n, hn, hof⟩ := hd.named key hkey
      exact ⟨n, (hnames n).mpr (.inl hn), hof⟩
    rcases (hkeys key).mp hkey with hset | hkey
    · rcases h.set key hset with hkey | ⟨n, hn, hof⟩
      · exact hstored hkey
      · exact ⟨n, (hnames n).mpr (.inr hn), hof⟩
    · exact hstored hkey

variable {seen : List ContextAttribute}

/-- What a deletion has collected of the attributes so far. -/
structure Deletes (v : ApiVersion) (d : EntityDoc μ) (seen : List ContextAttribute)
    (u : Update μ) : Prop where
  toSet : u.toSet = []
  toPush : u.toPush = []
  toUnset : u.toUnset = seen.map effectiveName
  deleted : u.deleted = seen.map ContextAttribute.name
  accepted : ∀ ca ∈ seen, (d.attrs.lookup (effectiveName ca)).isSome ∧ getLocation v ca = []

theorem deleteItem_deletes (h : Deletes v d seen u)
    (hok : deleteContextAttributeItem v d u ca = .ok u') : Deletes v d (seen ++ [ca]) u' := by
  unfold deleteContextAttributeItem at hok
  split at hok
  · cases hok
  rename_i hsome
  split at hok
  · cases hok
  rename_i hlocation
  cases hok
  refine ⟨h.toSet, h.toPush, ?_, ?_, fun c hc => ?_⟩
  · dsimp only
    rw [h.toUnset, map_append]
    rfl
  · dsimp only
    rw [h.deleted, map_append]
    rfl
  · rcases mem_append.mp hc with hc | hc
    · exact h.accepted c hc
    obtain rfl := mem_singleton.mp hc
    refine ⟨?_, not_not.mp hlocation⟩
    rwa [Bool.not_eq_true, isNone_eq_false_iff] at hsome

def ownKeys (d : EntityDoc μ) (n : Text) : List Text :=
  (keysOf d).filter (countsFor (dotForEq n))

def deletedKeys (seen : List ContextAttribute) (n : Text) : List Text :=
  (seen.filter fun ca => ca.name = n).map effectiveName

theorem length_deletedKeys (n : Text) :
    (deletedKeys seen n).length = (seen.map ContextAttribute.name).count n := by
  unfold deletedKeys
  rw [length_map, List.count, countP_map, countP_eq_length_filter]
  congr 1
  refine filter_congr fun ca _ => ?_
  exact Bool.eq_iff_iff.mpr (by simp)

theorem mem_ownKeys (hd : Named d) (hn : IsName n) :
    key ∈ ownKeys d n ↔ key ∈ keysOf d ∧ KeyOf n key := by
  unfold ownKeys
  rw [mem_filter]
  refine and_congr_right fun hkey => ?_
  obtain ⟨m, hm, hof⟩ := hd.named key hkey
  have hname := (hd.keyed m hm).1
  rw [counts_of_keyOf hname hof (paren_notMem_dotForEq hn.2.1)]
  constructor
  · intro heq
    rwa [← dotForEq_injective hname.1 hn.1 heq]
  · intro hof'
    rw [hof.unique hname hn hof']

/-- A name that is given with its dots has no key. -/
theorem howManyAttrs_dotted (hd : Named d) (hn : IsName n) (hdot : '.' ∈ n) :
    howManyAttrs d.attrs n = 0 := by
  rw [howManyAttrs_eq, length_eq_zero_iff, filter_eq_nil_iff]
  intro key hkey hcounts
  obtain ⟨m, hm, hof⟩ := hd.named key hkey
  have heq := (counts_of_keyOf (hd.keyed m hm).1 hof hn.2.1).mp hcounts
  exact dot_notMem_dotForEq m (heq ▸ hdot)

variable {r : Request}

theorem mem_toPull (hd : Named d) (h : Deletes v d seen u) (hn : IsName n)
    (hall : '.' ∈ n → (ownKeys d n).length ≤ (deletedKeys seen n).length) :
    n ∈ toPull d u ↔ n ∈ seen.map ContextAttribute.name ∧
      (ownKeys d n).length ≤ (deletedKeys seen n).length := by
  unfold toPull
  rw [mem_filter, mem_dedup, h.deleted, decide_eq_true_eq, length_deletedKeys]
  refine and_congr_right fun _ => ?_
  by_cases hdot : '.' ∈ n
  · rw [howManyAttrs_dotted hd hn hdot]
    rw [length_deletedKeys] at hall
    exact iff_of_true (Nat.zero_le _) (hall hdot)
  · unfold ownKeys keysOf
    rw [howManyAttrs_eq, dotForEq_of_dotless hdot]

theorem deletedKeys_subset (hd : Named d) (h : Deletes v d seen u) (hn : IsName n) :
    ∀ key ∈ deletedKeys seen n, key ∈ ownKeys d n ∧ key ∈ u.toUnset := by
  intro key hkey
  obtain ⟨ca, hca, rfl⟩ := mem_map.mp hkey
  obtain ⟨hca, hname⟩ := mem_filter.mp hca
  have hname : ca.name = n := of_decide_eq_true hname
  have hof : KeyOf n (effectiveName ca) := hname ▸ keyOf_effectiveName (hname.symm ▸ hn)
  refine ⟨(mem_ownKeys hd hn).mpr ⟨mem_keysOf.mpr (h.accepted ca hca).1, hof⟩, ?_⟩
  rw [h.toUnset]
  exact mem_map_of_mem hca

theorem mem_deletedKeys (h : Deletes v d seen u) (hnames : ∀ ca ∈ seen, IsName ca.name)
    (hn : IsName n) (hof : KeyOf n key) (hkey : key ∈ u.toUnset) : key ∈ deletedKeys seen n := by
  rw [h.toUnset] at hkey
  obtain ⟨ca, hca, rfl⟩ := mem_map.mp hkey
  have hname : ca.name = n :=
    (keyOf_effectiveName (hnames ca hca)).unique (hnames ca hca) hn hof
  exact mem_map_of_mem (mem_filter.mpr ⟨hca, decide_eq_true hname⟩)

theorem updatedEntity_named_of_deletes (hd : Named d) (h : Deletes v d seen u)
    (honce : u.toUnset.Nodup) (hnames : ∀ ca ∈ seen, IsName ca.name)
    (hall : ∀ ca ∈ seen, '.' ∈ ca.name →
      (ownKeys d ca.name).length ≤ (deletedKeys seen ca.name).length) :
    Named (updatedEntity d u) := by
  have hkeys (key : Text) : key ∈ keysOf (updatedEntity d u) ↔
      key ∈ keysOf d ∧ key ∉ u.toUnset := by
    unfold keysOf updatedEntity
    rw [h.toSet]
    exact mem_keys_remove
  have hnew (n : Text) : n ∈ (updatedEntity d u).attrNames ↔ n ∈ d.attrNames ∧ n ∉ toPull d u := by
    unfold updatedEntity
    rw [h.toPush]
    simp
  have hpull {n : Text} (hmem : n ∈ seen.map ContextAttribute.name) : n ∈ toPull d u ↔
      (ownKeys d n).length ≤ (deletedKeys seen n).length := by
    obtain ⟨ca, hca, rfl⟩ := mem_map.mp hmem
    rw [mem_toPull hd h (hnames ca hca) (hall ca hca), and_iff_right hmem]
  refine ⟨nodup_remove (nodup_putAll hd.keysOnce), ?_, fun n hn => ?_, fun key hkey => ?_⟩
  · unfold updatedEntity
    rw [h.toPush, dedup_nil, filter_nil, append_nil]
    exact hd.once.filter _
  · obtain ⟨hn, hnot⟩ := (hnew n).mp hn
    obtain ⟨hname, key, hkey, hof⟩ := hd.keyed n hn
    refine ⟨hname, ?_⟩
    -- a name of which nothing is left has as many deleted keys as keys
    by_contra hnone
    have hgone : ∀ k ∈ ownKeys d n, k ∈ deletedKeys seen n := by
      intro k hk
      obtain ⟨hk, hof⟩ := (mem_ownKeys hd hname).mp hk
      refine mem_deletedKeys h hnames hname hof ?_
      by_contra hleft
      exact hnone ⟨k, (hkeys k).mpr ⟨hk, hleft⟩, hof⟩
    have hmem : n ∈ seen.map ContextAttribute.name := by
      have hdel := hgone key ((mem_ownKeys hd hname).mpr ⟨hkey, hof⟩)
      obtain ⟨ca, hca, _⟩ := mem_map.mp hdel
      obtain ⟨hca, hcaName⟩ := mem_filter.mp hca
      exact of_decide_eq_true hcaName ▸ mem_map_of_mem hca
    have honceKeys : (ownKeys d n).Nodup := hd.keysOnce.filter _
    exact hnot ((hpull hmem).mpr (honceKeys.subperm hgone).length_le)
  · obtain ⟨hkey, hleft⟩ := (hkeys key).mp hkey
    obtain ⟨n, hn, hof⟩ := hd.named key hkey
    have hname := (hd.keyed n hn).1
    refine ⟨n, (hnew n).mpr ⟨hn, fun hdrop => hleft ?_⟩, hof⟩
    -- where all keys of the name are deleted, so is this one
    have hmem : n ∈ seen.map ContextAttribute.name := by
      have hdel := mem_dedup.mp (mem_of_mem_filter hdrop)
      rwa [h.deleted] at hdel
    have hsub := deletedKeys_subset hd h hname
    have honceDeleted : (deletedKeys seen n).Nodup := by
      rw [h.toUnset] at honce
      exact honce.sublist (filter_sublist.map _)
    have hperm := (honceDeleted.subperm fun k hk => (hsub k hk).1).perm_of_length_le
      ((hpull hmem).mp hdrop)
    exact (hsub key (hperm.mem_iff.mpr ((mem_ownKeys hd hname).mpr ⟨hkey, hof⟩))).2

theorem named_of_vector (hkeys : keysOf d = seen.map effectiveName)
    (hnames : d.attrNames = seen.map ContextAttribute.name)
    (honce : (seen.map ContextAttribute.name).Nodup) (hname : ∀ ca ∈ seen, IsName ca.name) :
    Named d := by
  refine ⟨?_, hnames ▸ honce, fun n hn => ?_, fun key hkey => ?_⟩
  · rw [hkeys]
    refine List.Nodup.map_on (fun a ha b hb heq => ?_) (List.Nodup.of_map _ honce)
    have hof : KeyOf a.name (effectiveName b) := heq ▸ keyOf_effectiveName (hname a ha)
    have hsame := hof.unique (hname a ha) (hname b hb) (keyOf_effectiveName (hname b hb))
    exact inj_on_of_nodup_map honce ha hb hsame
  · rw [hnames] at hn
    obtain ⟨ca, hca, rfl⟩ := mem_map.mp hn
    refine ⟨hname ca hca, effectiveName ca, ?_, keyOf_effectiveName (hname ca hca)⟩
    rw [hkeys]
    exact mem_map_of_mem hca
  · rw [hkeys] at hkey
    obtain ⟨ca, hca, rfl⟩ := mem_map.mp hkey
    refine ⟨ca.name, ?_, keyOf_effectiveName (hname ca hca)⟩
    rw [hnames]
    exact mem_map_of_mem hca

variable {caV : List ContextAttribute}

theorem createEntity_named (h : createEntity env v caV = .ok d)
    (honce : (caV.map ContextAttribute.name).Nodup) (hname : ∀ ca ∈ caV, IsName ca.name) :
    Named d := by
  obtain ⟨loc, x, -, -, rfl⟩ := createEntity_ok h
  exact named_of_vector (createdFields_names caV) rfl honce hname

/-- What a replacing request has collected, as long as no attribute is a location. -/
structure Replacing (d : EntityDoc μ) (r : Request) (seen : List ContextAttribute)
    (u : Update μ) : Prop where
  toSet : u.toSet.map Prod.fst = seen.map effectiveName
  toPush : u.toPush = seen.map ContextAttribute.name
  loc : u.loc.1 = [] ∨ u.loc.1 = locAttr (some d) ∧
    (r.apiVersion = .v1 ∨ locAttr (some d) ∉ seen.map ContextAttribute.name)

theorem replaceItem_replacing (h : Replacing d r seen u) (hgeo : getLocation r.apiVersion ca = [])
    (hok : updateContextAttributeItem env r.apiVersion d true u ca = .ok u') :
    Replacing d r (seen ++ [ca]) u' := by
  obtain ⟨loc, hloc, hok⟩ := bind_ok hok
  obtain ⟨date, _, hok⟩ := bind_ok hok
  cases hok
  refine ⟨?_, ?_, ?_⟩
  · change (u.toSet ++ [(effectiveName ca, createdAttribute env r.apiVersion ca)]).map Prod.fst = _
    rw [map_append, h.toSet, map_append]
    rfl
  · change u.toPush ++ [ca.name] = _
    rw [h.toPush, map_append]
    rfl
  · dsimp only
    cases update_locStep hloc with
    | kept _ hname =>
      refine h.loc.imp_right fun ⟨hl, hnot⟩ => ⟨hl, hnot.imp_right fun hseen hmem => ?_⟩
      rw [map_append, mem_append, map_singleton, mem_singleton] at hmem
      have hlast := hmem.resolve_left hseen
      exact hname.resolve_left id (hl.trans hlast)
    | located g _ hlocation _ =>
      obtain ⟨hv, hsame⟩ := hlocation.resolve_left (not_not.mpr hgeo)
      rw [← hsame]
      exact h.loc.imp_right fun hl => ⟨hl.1, .inl hv⟩
    | dropped hname => exact .inl rfl

variable {d' : EntityDoc μ}

theorem items_rule (P : List ContextAttribute → Update μ → Prop) (seen : List ContextAttribute)
    (hitem : ∀ seen ca u u', ca ∈ caV → P seen u →
    contextAttributeItem env d r u ca = .ok u' → P (seen ++ [ca]) u') (hstart : P seen u)
    (h : contextAttributeItems env d r u caV = .ok u') : P (seen ++ caV) u' := by
  induction caV generalizing seen u with
  | nil =>
    cases h
    rwa [append_nil]
  | cons ca caV ih =>
    obtain ⟨u₁, h₁, h⟩ := bind_ok h
    have hnext := hitem seen ca u u₁ mem_cons_self hstart h₁
    rw [append_cons]
    exact ih (seen ++ [ca]) (fun s c u u' hc => hitem s c u u' (mem_cons_of_mem _ hc)) hnext h

theorem vector_adds (hk : KeepsNames d r) (hreplace : r.action ≠ .replace)
    (hdelete : r.action ≠ .delete) (h : processContextAttributeVector env d r = .ok u) :
    Adds d u := by
  refine items_rule (fun _ u => Adds d u) [] ?_ (noUpdate_adds d) h
  intro seen ca u u' hca hadds hok
  have hmem := mem_of_mem_filter hca
  unfold contextAttributeItem at hok
  unfold KeepsNames at hk
  split at hok
  · exact updateItem_adds hadds hok
  · rename_i haction
    exact absurd haction hreplace
  · rename_i haction
    rw [haction] at hk
    exact appendItem_adds hadds (hk ca hmem) hok
  · rename_i haction
    rw [haction] at hk
    exact appendItem_adds hadds (hk ca hmem) hok
  · rename_i haction
    exact absurd haction hdelete

theorem filter_skip (h : r.action ≠ .appendStrict) :
    r.contextAttributeVector.filter (!skip d r ·) = r.contextAttributeVector := by
  rw [filter_eq_self]
  intro ca _
  unfold skip
  rw [beq_false_of_ne h]
  rfl

theorem vector_deletes (haction : r.action = .delete)
    (h : processContextAttributeVector env d r = .ok u) :
    Deletes r.apiVersion d r.contextAttributeVector u := by
  unfold processContextAttributeVector at h
  rw [filter_skip (haction ▸ ActionType.noConfusion)] at h
  refine items_rule (Deletes r.apiVersion d) [] ?_ ⟨rfl, rfl, rfl, rfl, nofun⟩ h
  intro seen ca u u' _ hdeletes hok
  unfold contextAttributeItem at hok
  rw [haction] at hok
  exact deleteItem_deletes hdeletes hok

theorem vector_replacing (haction : r.action = .replace) (hun : Unlocated d r)
    (h : processContextAttributeVector env d r = .ok u) :
    Replacing d r r.contextAttributeVector u := by
  unfold processContextAttributeVector at h
  rw [filter_skip (haction ▸ ActionType.noConfusion)] at h
  refine items_rule (Replacing d r) [] ?_ ⟨rfl, rfl, .inr ⟨rfl, .inr not_mem_nil⟩⟩ h
  intro seen ca u u' hca hreplacing hok
  unfold contextAttributeItem at hok
  rw [haction] at hok
  exact replaceItem_replacing hreplacing (hun.1 ca hca) hok

theorem Replacing.unlocated (h : Replacing d r r.contextAttributeVector u)
    (hun : Unlocated d r) : u.loc.1 = [] := by
  rcases h.loc with hnil | ⟨hl, hnot⟩
  · exact hnil
  rcases hun.2 with hnone | ⟨hv, hmem⟩
  · exact hl.trans hnone
  · exact absurd hmem (hnot.resolve_left hv)

theorem replacedEntity_named (hk : KeepsNames d r) (haction : r.action = .replace)
    (h : processContextAttributeVector env d r = .ok u) : Named (replacedEntity d u) := by
  unfold KeepsNames at hk
  rw [haction] at hk
  obtain ⟨hnames, honce, hun⟩ := hk
  have hreplacing := vector_replacing haction hun h
  refine named_of_vector ?_ hreplacing.toPush honce hnames
  unfold keysOf
  rw [replacedEntity_attrs (hreplacing.unlocated hun), attributeFields_keys, hreplacing.toSet]

theorem deletion_named (hd : Named d) (hk : KeepsNames d r) (haction : r.action = .delete)
    (h : processContextAttributeVector env d r = .ok u)
    (honce : (u.toSet.map Prod.fst ++ u.toUnset).Nodup) : Named (updatedEntity d u) := by
  have hdeletes := vector_deletes haction h
  unfold KeepsNames at hk
  rw [haction] at hk
  have hcond := hk hdeletes.accepted
  refine updatedEntity_named_of_deletes hd hdeletes (List.Nodup.of_append_right honce)
    (fun ca hca => (hcond ca hca).1) fun ca hca hdot => ?_
  have hall : AllDeleted d r ca.name := (hcond ca hca).2 hdot
  unfold AllDeleted at hall
  rw [howManyAttrs_eq, ← length_deletedKeys] at hall
  exact hall

theorem updateEntity_named (hd : Named d) (hk : KeepsNames d r) (h : d' ∈ updateEntity env d r) :
    Named d' := by
  have hsame : d' ∈ some d → Named d' := fun h => some.inj h ▸ hd
  unfold updateEntity at h
  split at h
  · cases h
  split at h
  · exact hsame h
  rename_i u hu
  split at h
  · exact hsame h
  split at h
  · rename_i haction
    cases h
    exact replacedEntity_named hk haction hu
  rename_i hreplace
  split at h
  · rename_i honce
    cases h
    by_cases hdelete : r.action = .delete
    · exact deletion_named hd hk hdelete hu honce
    · exact updatedEntity_named_of_adds hd (vector_adds hk hreplace hdelete hu)
  · exact hsame h

def updated (env : Env μ) (doc : Option (EntityDoc μ)) (r : Request) : Option (EntityDoc μ) :=
  doc.bind fun d => updateEntity env d r

def AllNamed (doc : Option (EntityDoc μ)) : Prop := ∀ d ∈ doc, Named d

def withId (name id : String) : ContextAttribute :=
  { speed with
    name := name.toList
    metadataVector := [⟨"ID".toList, "string".toList, .string id.toList⟩] }

def v1 (action : ActionType) (caV : List ContextAttribute) : Request := ⟨.v1, action, false, caV⟩

def bornWith (caV : List ContextAttribute) : EntityDoc Unit :=
  ⟨attributeFields (createdFields someEnv .v1 caV), caV.map ContextAttribute.name, none, none⟩

theorem createEntity_bornWith (hids : legalIds caV = true)
    (hloc : processLocationAtEntityCreation someEnv.toNumbers .v1 ([], []) caV = .ok ([], []))
    (hdate : processDateExpirationAtEntityCreation caV = .ok 0) :
    createEntity someEnv .v1 caV = .ok (bornWith caV) := by
  unfold createEntity
  rw [hids, if_neg (by decide), if_neg (by decide), hloc, hdate]
  rfl

/-- Both attributes of a name with a dot are deleted, after one was added. -/
def wheels : List Request :=
  [v1 .append [withId "wheel.speed" "rear"], v1 .update [speed],
    v1 .delete [withId "wheel.speed" "front", withId "wheel.speed" "rear"], v1 .replace [speed]]

def MirrorsAfter (caV : List ContextAttribute) (requests : List Request) : Prop :=
  ∀ d, createEntity someEnv .v1 caV = .ok d →
    Throughout (updated someEnv) (fun doc => ∀ d ∈ doc, Mirrors d) (some d) requests

def frontAndRear : List ContextAttribute := [withId "speed" "front", withId "speed" "rear"]

def rearComesAndGoes : List Request :=
  [v1 .append [withId "wheel.speed" "rear"], v1 .delete [withId "wheel.speed" "rear"]]

end AttrNamesMirror
