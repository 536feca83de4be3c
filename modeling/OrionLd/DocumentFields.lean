import OrionLd.OrionldPatchRegistration

/-! The fields of a document that is decoded to a tree, edited by names and encoded again.
An edit of one name leaves the members of the other names alone, and a field that is not edited
is written as it was stored when the codec keeps its value. -/
namespace DocumentFields

open KjTree MongoCppLegacyCodec OrionldPatchSubscription List Option

abbrev Document := List (Text × BsonValue)

mutual
def Storable : BsonValue → Prop
  | .null => False
  | .int64 _ => False
  | .array items => StorableItems items
  | .object fields => StorableFields fields
  | _ => True
def StorableItems : List BsonValue → Prop
  | [] => True
  | item :: items => Storable item ∧ StorableItems items
def StorableFields : Document → Prop
  | [] => True
  | (_, v) :: fields => Storable v ∧ StorableFields fields
end

/-- A value after it is decoded and encoded. -/
def written (v : BsonValue) : Option BsonValue := (bsonToKjTree v).bind kjTreeToBson

theorem array_written_cons (item : BsonValue) (items : List BsonValue) :
    kjTreeToBsonArray (arrayToKjTree (item :: items)) =
      (written item).toList ++ kjTreeToBsonArray (arrayToKjTree items) := by
  rw [arrayToKjTree, written]
  cases bsonToKjTree item with
  | none => rfl
  | some node => rfl

theorem object_written_cons (name : Text) (v : BsonValue) (fields : Document) :
    kjTreeToBsonObject (objectToKjTree ((name, v) :: fields)) =
      ((written v).map fun w => (name, w)).toList ++
        kjTreeToBsonObject (objectToKjTree fields) := by
  rw [objectToKjTree, written]
  cases bsonToKjTree v with
  | none => rfl
  | some node => rfl

theorem length_array_written_le (items : List BsonValue) :
    (kjTreeToBsonArray (arrayToKjTree items)).length ≤ items.length := by
  induction items with
  | nil => exact Nat.le_refl _
  | cons item items ih =>
    rw [array_written_cons, length_append, length_cons]
    have hone : (written item).toList.length ≤ 1 := by cases written item <;> simp
    omega

theorem length_object_written_le (fields : Document) :
    (kjTreeToBsonObject (objectToKjTree fields)).length ≤ fields.length := by
  induction fields with
  | nil => exact Nat.le_refl _
  | cons f fields ih =>
    obtain ⟨name, v⟩ := f
    rw [object_written_cons, length_append, length_cons]
    have hone : ((written v).map fun w => (name, w)).toList.length ≤ 1 := by
      cases written v <;> simp
    omega

mutual
theorem written_iff (v : BsonValue) : written v = some v ↔ Storable v := by
  cases v with
  | array items => simp [written, bsonToKjTree, kjTreeToBson, Storable, array_written_iff items]
  | object fields =>
    simp [written, bsonToKjTree, kjTreeToBson, Storable, object_written_iff fields]
  | int32 i => simp [written, bsonToKjTree, kjTreeToBson, Storable]
  | int64 i => simp [written, bsonToKjTree, Storable]
  | null | bool b | double x | string s => simp [written, bsonToKjTree, kjTreeToBson, Storable]
theorem array_written_iff (items : List BsonValue) :
    kjTreeToBsonArray (arrayToKjTree items) = items ↔ StorableItems items := by
  cases items with
  | nil => simp [kjTreeToBsonArray, arrayToKjTree, StorableItems]
  | cons item items =>
    rw [array_written_cons, StorableItems, ← written_iff item, ← array_written_iff items]
    cases hw : written item with
    | none =>
      have hlen := length_array_written_le items
      constructor
      · intro h
        rw [toList_none, nil_append] at h
        rw [h, length_cons] at hlen
        omega
      · rintro ⟨h, -⟩
        cases h
    | some w => simp
theorem object_written_iff (fields : Document) :
    kjTreeToBsonObject (objectToKjTree fields) = fields ↔ StorableFields fields := by
  cases fields with
  | nil => simp [kjTreeToBsonObject, objectToKjTree, StorableFields]
  | cons f fields =>
    obtain ⟨name, v⟩ := f
    rw [object_written_cons, StorableFields, ← written_iff v, ← object_written_iff fields]
    cases hw : written v with
    | none =>
      have hlen := length_object_written_le fields
      constructor
      · intro h
        rw [map_none, toList_none, nil_append] at h
        rw [h, length_cons] at hlen
        omega
      · rintro ⟨h, -⟩
        cases h
    | some w => simp
end

def valueOf (k : Text) (ms : Members) : Option BsonValue := (kjTreeToBsonObject ms).lookup k

theorem valueOf_cons (k : Text) (m : Text × KjNode) (ms : Members) :
    valueOf k (m :: ms) =
      if m.1 = k then (kjTreeToBson m.2).or (valueOf k ms) else valueOf k ms := by
  obtain ⟨name, node⟩ := m
  rw [valueOf, kjTreeToBsonObject]
  cases kjTreeToBson node with
  | none =>
    rw [map_none, toList_none, nil_append, none_or, ite_self]
    rfl
  | some v =>
    rw [map_some, toList_some, singleton_append, lookup_cons]
    by_cases h : name = k
    · rw [if_pos h, h, beq_self_eq_true]
      rfl
    · rw [if_neg h, beq_false_of_ne (Ne.symm h)]
      rfl

variable {k : Text} {m : Text × KjNode} {ms : Members} {node : KjNode} {v : BsonValue}

theorem valueOf_cons_ne (h : m.1 ≠ k) (ms : Members) :
    valueOf k (m :: ms) = valueOf k ms := by rw [valueOf_cons, if_neg h]

theorem valueOf_append (k : Text) (ms ms' : Members) :
    valueOf k (ms ++ ms') = (valueOf k ms).or (valueOf k ms') := by
  induction ms with
  | nil => rfl
  | cons m ms ih =>
    rw [List.cons_append, valueOf_cons, valueOf_cons, ih]
    split
    · rw [Option.or_assoc]
    · rfl

theorem valueOf_none (h : k ∉ ms.map Prod.fst) : valueOf k ms = none := by
  induction ms with
  | nil => rfl
  | cons m ms ih =>
    rw [map_cons, mem_cons, not_or] at h
    rw [valueOf_cons_ne (Ne.symm h.1), ih h.2]

def named (k : Text) (ms : Members) : Members := ms.filter fun m => m.1 == k

theorem named_cons_eq (h : m.1 = k) (ms : Members) :
    named k (m :: ms) = m :: named k ms := List.filter_cons_of_pos (by simpa using h)

theorem named_cons_ne (h : m.1 ≠ k) (ms : Members) :
    named k (m :: ms) = named k ms := List.filter_cons_of_neg (by simpa using h)

theorem valueOf_named (k : Text) (ms : Members) : valueOf k (named k ms) = valueOf k ms := by
  induction ms with
  | nil => rfl
  | cons m ms ih =>
    by_cases h : m.1 = k
    · rw [named_cons_eq h, valueOf_cons, valueOf_cons, ih]
    · rw [named_cons_ne h, valueOf_cons_ne h, ih]

theorem lookup_named (k : Text) (ms : Members) : (named k ms).lookup k = ms.lookup k := by
  induction ms with
  | nil => rfl
  | cons m ms ih =>
    by_cases h : m.1 = k
    · rw [named_cons_eq h, lookup_cons, lookup_cons, ih]
    · rw [named_cons_ne h, lookup_cons, beq_false_of_ne (Ne.symm h), ih]

theorem valueOf_congr {ms' : Members} (h : named k ms = named k ms') :
    valueOf k ms = valueOf k ms' := by rw [← valueOf_named, h, valueOf_named]

theorem lookup_congr {ms' : Members} (h : named k ms = named k ms') :
    ms.lookup k = ms'.lookup k := by rw [← lookup_named, h, lookup_named]

theorem named_append (k : Text) (ms ms' : Members) :
    named k (ms ++ ms') = named k ms ++ named k ms' := List.filter_append _ _

theorem named_addOrReplace_ne {name : Text} (h : name ≠ k) (ms : Members) (node : KjNode) :
    named k (kjChildAddOrReplace ms name node) = named k ms := by
  induction ms with
  | nil => rw [kjChildAddOrReplace, named_cons_ne h]
  | cons m ms ih =>
    rw [kjChildAddOrReplace]
    by_cases hm : m.1 = name
    · rw [if_pos hm, named_cons_ne h, named_cons_ne (hm ▸ h)]
    rw [if_neg hm]
    by_cases hk : m.1 = k
    · rw [named_cons_eq hk, named_cons_eq hk, ih]
    · rw [named_cons_ne hk, named_cons_ne hk, ih]

theorem named_remove_ne {name : Text} (h : name ≠ k) (ms : Members) :
    named k (kjChildRemove ms name) = named k ms := by
  induction ms with
  | nil => rfl
  | cons m ms ih =>
    by_cases hm : m.1 = name
    · rw [kjChildRemove, eraseP_cons_of_pos (by simpa using hm), named_cons_ne (hm ▸ h)]
    have herase : kjChildRemove (m :: ms) name = m :: kjChildRemove ms name :=
      eraseP_cons_of_neg (by simpa using hm)
    rw [herase]
    by_cases hk : m.1 = k
    · rw [named_cons_eq hk, named_cons_eq hk, ih]
    · rw [named_cons_ne hk, named_cons_ne hk, ih]

theorem named_remove (k : Text) (ms : Members) :
    named k (kjChildRemove ms k) = (named k ms).tail := by
  induction ms with
  | nil => rfl
  | cons m ms ih =>
    by_cases hm : m.1 = k
    · rw [kjChildRemove, eraseP_cons_of_pos (by simpa using hm), named_cons_eq hm,
        tail_cons]
    have herase : kjChildRemove (m :: ms) k = m :: kjChildRemove ms k :=
      eraseP_cons_of_neg (by simpa using hm)
    rw [herase, named_cons_ne hm, named_cons_ne hm, ih]

theorem named_nil_of_lookup (h : ms.lookup k = none) : named k ms = [] := by
  refine filter_eq_nil_iff.mpr fun m hm hname => ?_
  have hne := bne_iff_ne.mp (lookup_eq_none_iff.mp h m hm)
  exact hne (eq_of_beq hname).symm

theorem valueOf_addOrReplace (h : kjTreeToBson node = some v) :
    valueOf k (kjChildAddOrReplace ms k node) = some v := by
  induction ms with
  | nil => rw [kjChildAddOrReplace, valueOf_cons, if_pos rfl, h, some_or]
  | cons m ms ih =>
    rw [kjChildAddOrReplace]
    by_cases hm : m.1 = k
    · rw [if_pos hm, valueOf_cons, if_pos rfl, h, some_or]
    · rw [if_neg hm, valueOf_cons_ne hm, ih]

theorem valueOf_append_single (hms : named k ms = []) (h : kjTreeToBson node = some v) :
    valueOf k (ms ++ [(k, node)]) = some v := by
  have hnone : valueOf k ms = none := by
    rw [← valueOf_named, hms]
    rfl
  rw [valueOf_append, hnone, none_or, valueOf_cons, if_pos rfl, h, some_or]

theorem kjTreeToBson_ne (h : kjTreeToBson node = some v) : v ≠ .null ∧ ∀ i, v ≠ .int64 i := by
  cases node <;> simp [kjTreeToBson] at h <;> subst h <;> exact ⟨by simp, by simp⟩

theorem valueOf_ne (h : valueOf k ms = some v) : v ≠ .null ∧ ∀ i, v ≠ .int64 i := by
  induction ms with
  | nil => cases h
  | cons m ms ih =>
    rw [valueOf_cons] at h
    split at h
    · cases hm : kjTreeToBson m.2 with
      | none =>
        rw [hm, none_or] at h
        exact ih h
      | some w =>
        rw [hm, some_or] at h
        cases h
        exact kjTreeToBson_ne hm
    · exact ih h

theorem written_none (h : written v = none) : v = .null ∨ ∃ i, v = .int64 i := by
  cases v with
  | null => exact .inl rfl
  | int64 i => exact .inr ⟨i, rfl⟩
  | _ => cases h

theorem valueOf_decoded_iff (k : Text) (doc : Document) :
    valueOf k (objectToKjTree doc) = doc.lookup k ↔ ∀ v, doc.lookup k = some v → Storable v := by
  induction doc with
  | nil => simp [valueOf, objectToKjTree, kjTreeToBsonObject]
  | cons f doc ih =>
    obtain ⟨name, v⟩ := f
    have hcons : valueOf k (objectToKjTree ((name, v) :: doc)) =
        if name = k then (written v).or (valueOf k (objectToKjTree doc))
        else valueOf k (objectToKjTree doc) := by
      rw [objectToKjTree, written]
      cases bsonToKjTree v with
      | none =>
        rw [bind_none, none_or, ite_self]
        rfl
      | some node => exact valueOf_cons k (name, node) (objectToKjTree doc)
    rw [hcons, lookup_cons]
    by_cases hk : name = k
    · rw [if_pos hk, hk, beq_self_eq_true]
      simp only [some.injEq, forall_eq', ← written_iff]
      cases hw : written v with
      | some w => rw [some_or]
      | none =>
        constructor
        · intro h
          rcases written_none hw with rfl | ⟨i, rfl⟩
          · exact absurd rfl (valueOf_ne h).1
          · exact absurd rfl ((valueOf_ne h).2 i)
        · intro h
          cases h
    · rw [if_neg hk, beq_false_of_ne (Ne.symm hk)]
      exact ih

theorem kept_iff_storable {doc' : Document} (h : doc'.lookup k = valueOf k (objectToKjTree doc)) :
    doc'.lookup k = doc.lookup k ↔ ∀ v, doc.lookup k = some v → Storable v := by
  rw [h]
  exact valueOf_decoded_iff k doc

variable {doc : Document}

theorem mem_decoded (h : m ∈ objectToKjTree doc) :
    ∃ v, (m.1, v) ∈ doc ∧ bsonToKjTree v = some m.2 := by
  induction doc with
  | nil => cases h
  | cons f doc ih =>
    obtain ⟨name, v⟩ := f
    rcases mem_append.mp h with h | h
    · obtain ⟨node, hnode, rfl⟩ := map_eq_some_iff.mp (mem_toList.mp h)
      exact ⟨v, mem_cons_self, hnode⟩
    · obtain ⟨w, hw, hnode⟩ := ih h
      exact ⟨w, mem_cons_of_mem _ hw, hnode⟩

theorem lookup_decoded (h : doc.lookup k = some v) (hnode : bsonToKjTree v = some node) :
    (objectToKjTree doc).lookup k = some node := by
  induction doc with
  | nil => cases h
  | cons f doc ih =>
    obtain ⟨name, w⟩ := f
    rw [lookup_cons] at h
    rw [objectToKjTree]
    by_cases hk : k = name
    · rw [hk, beq_self_eq_true] at h
      cases h
      rw [hnode, map_some, toList_some, singleton_append, lookup_cons, hk, beq_self_eq_true]
    rw [beq_false_of_ne hk] at h
    cases bsonToKjTree w with
    | none => exact ih h
    | some n =>
      rw [map_some, toList_some, singleton_append, lookup_cons, beq_false_of_ne hk]
      exact ih h

theorem stored_of_lookup (hdoc : (doc.map Prod.fst).Nodup)
    (h : (objectToKjTree doc).lookup k = some node) :
    ∃ v, doc.lookup k = some v ∧ bsonToKjTree v = some node := by
  obtain ⟨l₁, l₂, hl, -⟩ := lookup_eq_some_iff.mp h
  have hmem : (k, node) ∈ objectToKjTree doc := by
    rw [hl]
    exact mem_append_right l₁ mem_cons_self
  obtain ⟨v, hv, hnode⟩ := mem_decoded hmem
  exact ⟨v, FieldList.lookup_of_mem hdoc hv, hnode⟩

theorem decoded_names (doc : Document) :
    ((objectToKjTree doc).map Prod.fst).Sublist (doc.map Prod.fst) := by
  induction doc with
  | nil => exact List.Sublist.refl _
  | cons f doc ih =>
    obtain ⟨name, v⟩ := f
    rw [objectToKjTree]
    cases bsonToKjTree v with
    | none => exact ih.cons name
    | some node => exact ih.cons_cons name

theorem named_length (h : (ms.map Prod.fst).Nodup) (k : Text) : (named k ms).tail = [] := by
  induction ms with
  | nil => rfl
  | cons m ms ih =>
    obtain ⟨hhead, htail⟩ := nodup_cons.mp h
    by_cases hk : m.1 = k
    · rw [named_cons_eq hk, tail_cons]
      refine filter_eq_nil_iff.mpr fun x hx hname => hhead ?_
      rw [hk, ← eq_of_beq hname]
      exact mem_map.mpr ⟨x, hx, rfl⟩
    · rw [named_cons_ne hk, ih htail]

theorem decoded_tail (h : (doc.map Prod.fst).Nodup) (k : Text) :
    (named k (objectToKjTree doc)).tail = [] :=
  named_length (h.sublist (decoded_names doc)) k

end DocumentFields
