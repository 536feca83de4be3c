import OrionLd.KjTreeFromQueryContextResponse
import OrionLd.MongoCppLegacyEntityRetrieve
import OrionLd.SameJson

/-! How the two answers show a value stored for an attribute or a sub-attribute. Inside a value the
tree of the document keeps every field but a 64-bit integer, while the response drops all integers,
decodes the names, and may compact the strings. -/
namespace EntityValues

open KjTree OrionldContextItem MongoCppLegacyCodec RegistrationDocument EntityDocument
open MongoCppLegacyEntityRetrieve KjTreeFromQueryContextResponse SameJson List Option

variable (env : DateEnv)

theorem forall₂_filterMap_iff {α β γ : Type} {S : β → γ → Prop} {f : α → Option β}
    {g : α → Option γ} {xs : List α} (hfg : ∀ x ∈ xs, (∃ z, g x = some z) → ∃ y, f x = some y) :
    List.Forall₂ S (xs.filterMap f) (xs.filterMap g) ↔ ∀ x ∈ xs, Option.Rel S (f x) (g x) := by
  have hlength : ∀ ys : List α, (∀ x ∈ ys, (∃ z, g x = some z) → ∃ y, f x = some y) →
      (ys.filterMap g).length ≤ (ys.filterMap f).length := by
    intro ys hys
    induction ys with
    | nil => exact Nat.le_refl _
    | cons y ys ih =>
      have hle := ih fun x hx => hys x (mem_cons_of_mem _ hx)
      rw [filterMap_cons, filterMap_cons]
      cases hg : g y with
      | none => cases f y <;> simp <;> omega
      | some z =>
        obtain ⟨w, hf⟩ := hys y mem_cons_self ⟨z, hg⟩
        rw [hf]
        simpa using hle
  induction xs with
  | nil => simp
  | cons x xs ih =>
    have hxs := fun y hy => hfg y (mem_cons_of_mem x hy)
    have hrest := ih hxs
    rw [forall_mem_cons, filterMap_cons, filterMap_cons]
    cases hg : g x with
    | some z =>
      obtain ⟨y, hf⟩ := hfg x mem_cons_self ⟨z, hg⟩
      simp [hf, hrest]
    | none =>
      cases hf : f x with
      | none => simpa [Option.Rel.none] using hrest
      | some y =>
        constructor
        · intro h
          have heq : (xs.filterMap f).length + 1 = (xs.filterMap g).length := h.length_eq
          have hle := hlength xs hxs
          omega
        · rintro ⟨h, -⟩
          cases h

section

def isRead (value : BsonValue) : Bool := (bsonToKjTree value).isSome

def isKnown (value : BsonValue) : Bool := (addCompoundNode value).isSome

/-- No compaction changes the text. -/
def Uncompacted (mayBeCompacted : Bool) (s : Text) : Prop :=
  mayBeCompacted = true → orionldContextItemAliasLookup env.toContexts s = s

mutual
/-- Inside the value no integer is read, no name has a '=', and no string is compacted. -/
def Alike (mayBeCompacted : Bool) : BsonValue → Prop
  | .int32 _ => False
  | .string s => Uncompacted env mayBeCompacted s
  | .array items => AlikeItems mayBeCompacted items
  | .object fields => AlikeFields mayBeCompacted fields
  | _ => True
def AlikeItems (mayBeCompacted : Bool) : List BsonValue → Prop
  | [] => True
  | item :: items => Alike mayBeCompacted item ∧ AlikeItems mayBeCompacted items
def AlikeFields (mayBeCompacted : Bool) : Fields → Prop
  | [] => True
  | (name, value) :: fields => (isRead value → '=' ∉ name) ∧ Alike mayBeCompacted value ∧
      AlikeFields mayBeCompacted fields
end

mutual
def OneEach : BsonValue → Prop
  | .array items => OneEachItems items
  | .object fields => (fields.map Prod.fst).Nodup ∧ OneEachFields fields
  | _ => True
def OneEachItems : List BsonValue → Prop
  | [] => True
  | item :: items => OneEach item ∧ OneEachItems items
def OneEachFields : Fields → Prop
  | [] => True
  | (_, value) :: fields => OneEach value ∧ OneEachFields fields
end

def shownInside (mayBeCompacted : Bool) (value : BsonValue) : Option KjNode :=
  (addCompoundNode value).map (kjTreeFromCompoundValue env mayBeCompacted)

def shownItems (mayBeCompacted : Bool) (items : List BsonValue) : List KjNode :=
  kjTreeFromCompoundValues env mayBeCompacted (compoundVectorResponse items)

def shownFields (mayBeCompacted : Bool) (fields : Fields) : Members :=
  kjTreeFromCompoundMembers env mayBeCompacted (compoundObjectResponse fields)

variable {env} {mayBeCompacted : Bool}

theorem shownItems_cons (item : BsonValue) (items : List BsonValue) :
    shownItems env mayBeCompacted (item :: items) =
      (shownInside env mayBeCompacted item).toList ++ shownItems env mayBeCompacted items := by
  unfold shownItems shownInside
  rw [compoundVectorResponse]
  cases addCompoundNode item <;> simp [kjTreeFromCompoundValues]

theorem shownFields_cons (name : Text) (value : BsonValue) (fields : Fields) :
    shownFields env mayBeCompacted ((name, value) :: fields) =
      ((shownInside env mayBeCompacted value).map fun n => (eqForDot name, n)).toList ++
        shownFields env mayBeCompacted fields := by
  unfold shownFields shownInside
  rw [compoundObjectResponse]
  cases addCompoundNode value <;> simp [kjTreeFromCompoundMembers]

theorem eqForDot_self {name : Text} (h : '=' ∉ name) : eqForDot name = name := by
  refine (map_congr_left fun ch hch => ?_).trans (map_id name)
  have hne : ch ≠ '=' := fun e => h (e ▸ hch)
  exact if_neg hne

mutual
theorem alike_same (value : BsonValue) (h : Alike env mayBeCompacted value) :
    Option.Rel Same (bsonToKjTree value) (shownInside env mayBeCompacted value) := by
  cases value with
  | double x => exact .some (Same.refl _)
  | bool b => exact .some (.bool b)
  | null => exact .some .null
  | int32 i => exact h.elim
  | int64 i => exact .none
  | string s =>
    rw [Alike] at h
    refine .some ?_
    rw [kjTreeFromCompoundValue, compacted]
    split
    · rename_i hmay
      rw [h hmay]
      exact .string s
    · exact .string s
  | array items =>
    rw [Alike] at h
    exact .some (.array (alikeItems_same items h))
  | object fields =>
    rw [Alike] at h
    exact .some (.object (List.Perm.refl _) (alikeFields_same fields h))
theorem alikeItems_same (items : List BsonValue) (h : AlikeItems env mayBeCompacted items) :
    SameItems (arrayToKjTree items) (shownItems env mayBeCompacted items) := by
  cases items with
  | nil => exact .nil
  | cons item items =>
    rw [AlikeItems] at h
    have hitems := alikeItems_same items h.2
    have hitem := alike_same item h.1
    rw [arrayToKjTree, shownItems_cons]
    generalize bsonToKjTree item = kept at hitem ⊢
    generalize shownInside env mayBeCompacted item = shown at hitem ⊢
    cases hitem with
    | none => exact hitems
    | some hsame => exact .cons hsame hitems
theorem alikeFields_same (fields : Fields) (h : AlikeFields env mayBeCompacted fields) :
    SameMembers (objectToKjTree fields) (shownFields env mayBeCompacted fields) := by
  cases fields with
  | nil => exact .nil
  | cons field fields =>
    obtain ⟨name, value⟩ := field
    rw [AlikeFields] at h
    have hfields := alikeFields_same fields h.2.2
    have hvalue := alike_same value h.2.1
    have hname := h.1
    unfold isRead at hname
    rw [objectToKjTree, shownFields_cons]
    generalize bsonToKjTree value = kept at hvalue hname ⊢
    generalize shownInside env mayBeCompacted value = shown at hvalue ⊢
    cases hvalue with
    | none => exact hfields
    | some hsame =>
      rw [eqForDot_self (hname rfl)]
      exact .cons hsame hfields
end

end

section

variable {env} {mayBeCompacted : Bool}
variable {fields : Fields} {n : Text} {v : BsonValue}

theorem mem_objectToKjTree {x : KjNode} :
    (n, x) ∈ objectToKjTree fields ↔ ∃ v, (n, v) ∈ fields ∧ bsonToKjTree v = some x := by
  induction fields with
  | nil => simp [objectToKjTree]
  | cons field fields ih =>
    obtain ⟨name, value⟩ := field
    rw [objectToKjTree, mem_append, ih]
    constructor
    · rintro (h | ⟨v, hv, hx⟩)
      · obtain ⟨y, hy, hn⟩ := map_eq_some_iff.mp (mem_toList.mp h)
        cases hn
        exact ⟨value, mem_cons_self, hy⟩
      · exact ⟨v, mem_cons_of_mem _ hv, hx⟩
    · rintro ⟨v, hv, hx⟩
      rcases mem_cons.mp hv with hv | hv
      · cases hv
        exact .inl (by simp [hx])
      · exact .inr ⟨v, hv, hx⟩

theorem mem_shownFields {z : KjNode} : (n, z) ∈ shownFields env mayBeCompacted fields ↔
      ∃ name v, (name, v) ∈ fields ∧ shownInside env mayBeCompacted v = some z ∧
        n = eqForDot name := by
  induction fields with
  | nil => simp [shownFields, compoundObjectResponse, kjTreeFromCompoundMembers]
  | cons field fields ih =>
    obtain ⟨name, value⟩ := field
    rw [shownFields_cons, mem_append, ih]
    constructor
    · rintro (h | ⟨name', v, hv, hz⟩)
      · obtain ⟨y, hy, hn⟩ := map_eq_some_iff.mp (mem_toList.mp h)
        cases hn
        exact ⟨name, value, mem_cons_self, hy, rfl⟩
      · exact ⟨name', v, mem_cons_of_mem _ hv, hz⟩
    · rintro ⟨name', v, hv, hz, rfl⟩
      rcases mem_cons.mp hv with hv | hv
      · cases hv
        exact .inl (by simp [hz])
      · exact .inr ⟨name', v, hv, hz, rfl⟩

theorem names_sublist (fields : Fields) :
    ((objectToKjTree fields).map Prod.fst).Sublist (fields.map Prod.fst) := by
  induction fields with
  | nil => exact List.Sublist.refl _
  | cons field fields ih =>
    obtain ⟨name, value⟩ := field
    rw [objectToKjTree]
    cases bsonToKjTree value with
    | none => exact ih.cons name
    | some n => exact ih.cons_cons name

theorem arrayToKjTree_eq (items : List BsonValue) :
    arrayToKjTree items = items.filterMap bsonToKjTree := by
  induction items with
  | nil => rfl
  | cons item items ih =>
    rw [arrayToKjTree, ih, filterMap_cons]
    cases bsonToKjTree item <;> rfl

theorem shownItems_eq (items : List BsonValue) :
    shownItems env mayBeCompacted items = items.filterMap (shownInside env mayBeCompacted) := by
  induction items with
  | nil => rfl
  | cons item items ih =>
    rw [shownItems_cons, ih, filterMap_cons]
    cases shownInside env mayBeCompacted item <;> rfl

theorem read_of_shown {value : BsonValue} {z : KjNode}
    (h : shownInside env mayBeCompacted value = some z) :
    ∃ x, bsonToKjTree value = some x := by
  cases value with
  | int64 i => cases h
  | _ => exact ⟨_, rfl⟩

theorem value_of_once {w : BsonValue} (h : (fields.map Prod.fst).Nodup) (hv : (n, v) ∈ fields)
    (hw : (n, w) ∈ fields) : v = w := by
  have hsame := inj_on_of_nodup_map h hv hw rfl
  exact (Prod.mk.inj hsame).2

/-- Where the objects are the same, a field that is read is shown, and its name has nothing to
decode. -/
theorem field_shown {ms : Members} (hone : (fields.map Prod.fst).Nodup)
    (hnames : ms.map Prod.fst = (objectToKjTree fields).map Prod.fst)
    (h : ObjectRel Same ms (shownFields env mayBeCompacted fields)) {name : Text} {x : KjNode}
    (hv : (name, v) ∈ fields) (hx : (name, x) ∈ ms) :
    '=' ∉ name ∧ ∃ z, shownInside env mayBeCompacted v = some z ∧ Same x z := by
  have htree : (ms.map Prod.fst).Nodup := hnames ▸ hone.sublist (names_sublist fields)
  have hshown := (objectRel_names h).nodup_iff.mp htree
  have hpartner := ((objectRel_iff htree hshown).mp h).1
  have hdecoded : ∀ n ∈ ms.map Prod.fst, '=' ∉ n := by
    intro n hn
    obtain ⟨m, hm, rfl⟩ := mem_map.mp hn
    obtain ⟨z, hz, -⟩ := hpartner m hm
    obtain ⟨name', -, -, -, hname⟩ := mem_shownFields.mp hz
    rw [hname]
    intro h
    obtain ⟨ch, -, hch⟩ := mem_map.mp h
    by_cases e : ch = '=' <;> simp [e] at hch
  obtain ⟨z, hz, hsame⟩ := hpartner (name, x) hx
  obtain ⟨name', v', hv', hshow, hname⟩ := mem_shownFields.mp hz
  obtain ⟨x', hx'⟩ := read_of_shown hshow
  have hmem : name' ∈ ms.map Prod.fst := by
    rw [hnames]
    exact mem_map_of_mem (mem_objectToKjTree.mpr ⟨v', hv', hx'⟩)
  rw [eqForDot_self (hdecoded name' hmem)] at hname
  obtain rfl : name = name' := hname
  obtain rfl : v = v' := value_of_once hone hv hv'
  exact ⟨hdecoded name hmem, z, hshow, hsame⟩

theorem fields_shown (hone : (fields.map Prod.fst).Nodup)
    (h : ObjectRel Same (objectToKjTree fields) (shownFields env mayBeCompacted fields))
    {name : Text} (hv : (name, v) ∈ fields) :
    Option.Rel Same (bsonToKjTree v) (shownInside env mayBeCompacted v) ∧
      (isRead v → '=' ∉ name) := by
  cases hread : bsonToKjTree v with
  | none =>
    have hnone : shownInside env mayBeCompacted v = none := by
      apply eq_none_iff_forall_ne_some.mpr
      intro z hz
      obtain ⟨x, hx⟩ := read_of_shown hz
      rw [hread] at hx
      cases hx
    rw [hnone]
    exact ⟨.none, fun hisRead => by simp [isRead, hread] at hisRead⟩
  | some x =>
    have hx := mem_objectToKjTree.mpr ⟨v, hv, hread⟩
    obtain ⟨hname, z, hshow, hsame⟩ := field_shown hone rfl h hv hx
    rw [hshow]
    exact ⟨.some hsame, fun _ => hname⟩

theorem items_shown {items : List BsonValue}
    (h : List.Forall₂ Same (arrayToKjTree items) (shownItems env mayBeCompacted items)) :
    ∀ item ∈ items, Option.Rel Same (bsonToKjTree item) (shownInside env mayBeCompacted item) := by
  rw [arrayToKjTree_eq, shownItems_eq] at h
  refine (forall₂_filterMap_iff fun item _ hshow => ?_).mp h
  obtain ⟨z, hz⟩ := hshow
  exact read_of_shown hz

mutual
theorem same_alike (value : BsonValue) (hone : OneEach value)
    (h : Option.Rel Same (bsonToKjTree value) (shownInside env mayBeCompacted value)) :
    Alike env mayBeCompacted value := by
  cases value with
  | double x => exact trivial
  | bool b => exact trivial
  | null => exact trivial
  | int32 i => cases h
  | int64 i => exact trivial
  | string s =>
    rw [Alike]
    intro hmay
    obtain ⟨hsame⟩ := h
    have htext := same_string_iff.mp hsame
    rw [compacted, if_pos hmay] at htext
    exact htext.symm
  | array items =>
    rw [Alike]
    rw [OneEach] at hone
    obtain ⟨hsame⟩ := h
    exact alikeItems_of_shown items hone (items_shown (same_array_iff.mp hsame))
  | object fields =>
    rw [Alike]
    rw [OneEach] at hone
    obtain ⟨hsame⟩ := h
    exact alikeFields_of_shown fields hone.2
      fun f hf => fields_shown hone.1 (same_object_iff.mp hsame) hf
theorem alikeItems_of_shown (items : List BsonValue) (hone : OneEachItems items)
    (h : ∀ item ∈ items,
      Option.Rel Same (bsonToKjTree item) (shownInside env mayBeCompacted item)) :
    AlikeItems env mayBeCompacted items := by
  cases items with
  | nil => exact trivial
  | cons item items =>
    rw [OneEachItems] at hone
    exact ⟨same_alike item hone.1 (h item mem_cons_self),
      alikeItems_of_shown items hone.2 fun i hi => h i (mem_cons_of_mem _ hi)⟩
theorem alikeFields_of_shown (fields : Fields) (hone : OneEachFields fields)
    (h : ∀ f ∈ fields, Option.Rel Same (bsonToKjTree f.2) (shownInside env mayBeCompacted f.2) ∧
      (isRead f.2 → '=' ∉ f.1)) : AlikeFields env mayBeCompacted fields := by
  cases fields with
  | nil => exact trivial
  | cons field fields =>
    obtain ⟨name, value⟩ := field
    rw [OneEachFields] at hone
    obtain ⟨hvalue, hname⟩ := h (name, value) mem_cons_self
    exact ⟨hname, same_alike value hone.1 hvalue,
      alikeFields_of_shown fields hone.2 fun f hf => h f (mem_cons_of_mem _ hf)⟩
end

end

def readAs (name : Text) (f : Text × BsonValue) : Bool := f.1 == name && isRead f.2

def stampOf (fields : Fields) (name : Text) : Option BsonValue :=
  (fields.find? (readAs name)).map Prod.snd

def withoutStamp (name : Text) (fields : Fields) : Fields := fields.eraseP (readAs name)

def withoutStamps (fields : Fields) : Fields :=
  withoutStamp "modifiedAt".toList (withoutStamp "createdAt".toList fields)

variable {name : Text} {fields : Fields}

theorem readAs_iff {f : Text × BsonValue} :
    readAs name f = true ↔ f.1 = name ∧ ∃ x, bsonToKjTree f.2 = some x := by
  simp [readAs, isRead, isSome_iff_exists]

theorem lookup_objectToKjTree (fields : Fields) (name : Text) :
    (objectToKjTree fields).lookup name = (stampOf fields name).bind bsonToKjTree := by
  unfold stampOf
  induction fields with
  | nil => rfl
  | cons field fields ih =>
    obtain ⟨n, value⟩ := field
    rw [objectToKjTree]
    by_cases hp : readAs name (n, value) = true
    · obtain ⟨hn, x, hx⟩ := readAs_iff.mp hp
      obtain rfl : n = name := hn
      rw [List.find?_cons_of_pos hp]
      simp [hx]
    · rw [List.find?_cons_of_neg hp]
      cases hread : bsonToKjTree value with
      | none => simpa using ih
      | some x =>
        have hn : name ≠ n := fun hn => hp (readAs_iff.mpr ⟨hn.symm, x, hread⟩)
        have hne : (name == n) = false := by simpa using hn
        simpa [lookup_cons, hne] using ih

variable {v : BsonValue}

theorem mem_of_stampOf (h : stampOf fields name = some v) :
    (name, v) ∈ fields ∧ ∃ x, bsonToKjTree v = some x := by
  obtain ⟨f, hf, rfl⟩ := map_eq_some_iff.mp h
  obtain ⟨hname, hread⟩ := readAs_iff.mp (List.find?_some hf)
  exact ⟨hname ▸ mem_of_find?_eq_some hf, hread⟩

theorem removeFirst_objectToKjTree (fields : Fields) (name : String) :
    removeFirst name (objectToKjTree fields) =
      objectToKjTree (withoutStamp name.toList fields) := by
  unfold removeFirst kjChildRemove withoutStamp
  induction fields with
  | nil => rfl
  | cons field fields ih =>
    obtain ⟨n, value⟩ := field
    by_cases hp : readAs name.toList (n, value) = true
    · obtain ⟨hn, x, hx⟩ := readAs_iff.mp hp
      rw [eraseP_cons_of_pos hp, objectToKjTree, hx]
      change ((n, x) :: objectToKjTree fields).eraseP _ = _
      rw [eraseP_cons_of_pos (by simpa using hn)]
    · rw [eraseP_cons_of_neg hp, objectToKjTree, objectToKjTree]
      cases hread : bsonToKjTree value with
      | none => exact ih
      | some x =>
        have hn : n ≠ name.toList := fun hn => hp (readAs_iff.mpr ⟨hn, x, hread⟩)
        change ((n, x) :: objectToKjTree fields).eraseP _ = (n, x) :: objectToKjTree _
        rw [eraseP_cons_of_neg (by simpa using hn), ih]

theorem shownFields_withoutStamp {env : DateEnv} {mayBeCompacted : Bool}
    (h : ∀ v, stampOf fields name = some v → isKnown v = false) :
    shownFields env mayBeCompacted (withoutStamp name fields) =
      shownFields env mayBeCompacted fields := by
  unfold stampOf at h
  unfold withoutStamp
  induction fields with
  | nil => rfl
  | cons field fields ih =>
    obtain ⟨n, value⟩ := field
    by_cases hp : readAs name (n, value) = true
    · rw [eraseP_cons_of_pos hp, shownFields_cons]
      have hknown : isKnown value = false := h value (by rw [List.find?_cons_of_pos hp]; rfl)
      have hshow : shownInside env mayBeCompacted value = none := by
        simpa [isKnown, shownInside] using hknown
      simp [hshow]
    · rw [eraseP_cons_of_neg hp, shownFields_cons, shownFields_cons, ih]
      intro v hv
      exact h v (by rw [List.find?_cons_of_neg hp]; exact hv)

theorem stampOf_withoutStamp {other : Text} (h : name ≠ other) :
    stampOf (withoutStamp other fields) name = stampOf fields name := by
  unfold stampOf withoutStamp
  induction fields with
  | nil => rfl
  | cons field fields ih =>
    by_cases hp : readAs other field = true
    · have hne : ¬ readAs name field = true :=
        fun hq => h ((readAs_iff.mp hq).1.symm.trans (readAs_iff.mp hp).1)
      rw [eraseP_cons_of_pos hp, List.find?_cons_of_neg hne]
    rw [eraseP_cons_of_neg hp]
    by_cases hq : readAs name field = true
    · rw [List.find?_cons_of_pos hq, List.find?_cons_of_pos hq]
    · rw [List.find?_cons_of_neg hq, List.find?_cons_of_neg hq, ih]

variable (o : Options)

def retrievedValue (compacts : Bool) (value : BsonValue) : Option KjNode :=
  (bsonToKjTree value).map fun node =>
    let node := if compacts then compactValue env.toContexts node else node
    if o.keyValues then node else onMembers (stampsFix env o) node

def listedValue (compacts : Bool) (value : BsonValue) : Option KjNode :=
  (valueOfField value).map (kjTreeFromCompoundValue env compacts)

def stampNames : List Text := ["createdAt".toList, "modifiedAt".toList]

/-- Both compact the text or none does, unless that does not change it. -/
def TextAlike (retrieved listed : Bool) (s : Text) : Prop :=
  retrieved = listed ∨ orionldContextItemAliasLookup env.toContexts s = s

/-- GET /entities/{id} compacts strings no deeper than in an array. -/
def ItemAlike (retrieved listed : Bool) : BsonValue → Prop
  | .string s => TextAlike env retrieved listed s
  | item => Alike env listed item

def ObjectAlike (listed : Bool) (fields : Fields) : Prop :=
  if o.keyValues then AlikeFields env listed fields
  else if o.sysAttrs then
    AlikeFields env listed fields ∧
      ∀ name ∈ stampNames, ∀ x, stampOf fields name ≠ some (.double x)
  else
    AlikeFields env listed (withoutStamps fields) ∧
      ∀ name ∈ stampNames, ∀ v, stampOf fields name = some v → isKnown v = false

def ValueAlike (retrieved listed : Bool) : BsonValue → Prop
  | .string s => TextAlike env retrieved listed s
  | .array items => ∀ item ∈ items, ItemAlike env retrieved listed item
  | .object fields => ObjectAlike env o listed fields
  | .int64 _ => False
  | _ => True

def BothShow (retrieved listed : Option KjNode) : Prop :=
  ∃ x z, retrieved = some x ∧ listed = some z ∧ Same x z

variable {env} {o} {retrieved listed : Bool}

theorem text_same_iff {s : Text} :
    Same (if retrieved then .string (orionldContextItemAliasLookup env.toContexts s)
      else .string s) (.string (compacted env listed s)) ↔ TextAlike env retrieved listed s := by
  unfold compacted TextAlike
  cases retrieved <;> cases listed <;> simp [same_string_iff, eq_comm]

def retrievedItem (env : DateEnv) (retrieved : Bool) (item : BsonValue) : Option KjNode :=
  (bsonToKjTree item).map fun n => if retrieved then compactString env.toContexts n else n

variable {item : BsonValue} {name : String} {change : KjNode → KjNode} {ms : Members}

theorem item_no_string (h : ∀ s, item ≠ .string s) :
    (ItemAlike env retrieved listed item ↔ Alike env listed item) ∧
      retrievedItem env retrieved item = bsonToKjTree item := by
  cases item with
  | string s => exact absurd rfl (h s)
  | _ => exact ⟨Iff.rfl, by cases retrieved <;> rfl⟩

theorem item_alike_same (h : ItemAlike env retrieved listed item) :
    Option.Rel Same (retrievedItem env retrieved item) (shownInside env listed item) := by
  by_cases hs : ∃ s, item = .string s
  · obtain ⟨s, rfl⟩ := hs
    exact .some (text_same_iff.mpr h)
  obtain ⟨halike, htree⟩ := item_no_string (not_exists.mp hs)
  rw [htree]
  exact alike_same item (halike.mp h)

theorem item_same_alike (hone : OneEach item)
    (h : Option.Rel Same (retrievedItem env retrieved item) (shownInside env listed item)) :
    ItemAlike env retrieved listed item := by
  by_cases hs : ∃ s, item = .string s
  · obtain ⟨s, rfl⟩ := hs
    obtain ⟨hsame⟩ := h
    exact text_same_iff.mp hsame
  obtain ⟨halike, htree⟩ := item_no_string (not_exists.mp hs)
  rw [htree] at h
  exact halike.mpr (same_alike item hone h)

def retrievedItems (env : DateEnv) (retrieved : Bool) (items : List BsonValue) : List KjNode :=
  items.filterMap (retrievedItem env retrieved)

theorem retrieved_array (items : List BsonValue) :
    retrievedValue env o retrieved (.array items) =
      some (.array (retrievedItems env retrieved items)) := by
  have hitems : (if retrieved then (arrayToKjTree items).map (compactString env.toContexts)
      else arrayToKjTree items) = retrievedItems env retrieved items := by
    unfold retrievedItems retrievedItem
    rw [arrayToKjTree_eq]
    cases retrieved with
    | true => simp [map_filterMap]
    | false => simp
  unfold retrievedValue
  rw [← hitems]
  cases o.keyValues <;> cases retrieved <;> rfl

theorem listed_array (items : List BsonValue) :
    listedValue env listed (.array items) =
      some (.array (items.filterMap (shownInside env listed))) := by
  rw [← shownItems_eq]
  rfl

theorem retrieved_string (s : Text) :
    retrievedValue env o retrieved (.string s) = some (if retrieved then
      .string (orionldContextItemAliasLookup env.toContexts s) else .string s) := by
  unfold retrievedValue
  cases o.keyValues <;> cases retrieved <;> rfl

theorem retrieved_object (fields : Fields) :
    retrievedValue env o retrieved (.object fields) = some (.object (if o.keyValues then
      objectToKjTree fields else stampsFix env o (objectToKjTree fields))) := by
  unfold retrievedValue
  cases o.keyValues <;> cases retrieved <;> rfl

theorem changeFirst_self (h : ∀ x, ms.lookup name.toList = some x → change x = x) :
    changeFirst name change ms = ms := by
  induction ms with
  | nil => rfl
  | cons m ms ih =>
    obtain ⟨n, x⟩ := m
    rw [changeFirst]
    by_cases hn : n = name.toList
    · rw [if_pos (by simpa using hn), h x (by simp [hn])]
    rw [if_neg (by simpa using hn), ih]
    intro y hy
    have hne : (name.toList == n) = false := by simpa using Ne.symm hn
    exact h y (by rw [lookup_cons, hne]; exact hy)

theorem names_changeFirst (name : String) (change : KjNode → KjNode) (ms : Members) :
    (changeFirst name change ms).map Prod.fst = ms.map Prod.fst := by
  induction ms with
  | nil => rfl
  | cons m ms ih =>
    rw [changeFirst]
    split
    · rfl
    · rw [map_cons, map_cons, ih]

theorem changed_mem {x : KjNode} (h : ms.lookup name.toList = some x) :
    (name.toList, change x) ∈ changeFirst name change ms := by
  induction ms with
  | nil => cases h
  | cons m ms ih =>
    obtain ⟨n, y⟩ := m
    rw [changeFirst]
    by_cases hn : n = name.toList
    · rw [if_pos (by simpa using hn)]
      obtain rfl : y = x := by simpa [hn] using h
      rw [hn]
      exact mem_cons_self
    · rw [if_neg (by simpa using hn)]
      have hne : (name.toList == n) = false := by simpa using Ne.symm hn
      rw [lookup_cons, hne] at h
      exact mem_cons_of_mem _ (ih h)

theorem lookup_changeFirst_ne {k : Text} (h : k ≠ name.toList) :
    (changeFirst name change ms).lookup k = ms.lookup k := by
  induction ms with
  | nil => rfl
  | cons m ms ih =>
    obtain ⟨n, y⟩ := m
    rw [changeFirst]
    split
    · rename_i hn
      have hname : n = name.toList := by simpa using hn
      have hne : (k == n) = false := by simpa [hname] using h
      rw [lookup_cons, lookup_cons, hne]
    · rw [lookup_cons, lookup_cons, ih]

theorem mem_changeFirst_ne {m : Text × KjNode} (hm : m ∈ ms) (h : m.1 ≠ name.toList) :
    m ∈ changeFirst name change ms := by
  induction ms with
  | nil => cases hm
  | cons m' ms ih =>
    rw [changeFirst]
    rcases mem_cons.mp hm with rfl | hm
    · rw [if_neg (by simpa using h)]
      exact mem_cons_self
    split
    · exact mem_cons_of_mem _ hm
    · exact mem_cons_of_mem _ (ih hm)

theorem alike_of_mem (h : AlikeFields env listed fields) {n : Text} (hv : (n, v) ∈ fields) :
    Alike env listed v := by
  induction fields with
  | nil => cases hv
  | cons field fields ih =>
    rcases mem_cons.mp hv with hv | hv
    · exact (Prod.mk.inj hv).2 ▸ h.2.1
    · exact ih h.2.2 hv

theorem stampsFix_self (hsys : o.sysAttrs = true)
    (h : ∀ name ∈ stampNames, ∀ v x, stampOf fields name = some v → bsonToKjTree v = some x →
    timestampToString env x = x) :
    stampsFix env o (objectToKjTree fields) = objectToKjTree fields := by
  have hkeep : ∀ name : String, name.toList ∈ stampNames →
      changeFirst name (timestampToString env) (objectToKjTree fields) = objectToKjTree fields := by
    intro name hname
    apply changeFirst_self
    intro x hx
    rw [lookup_objectToKjTree] at hx
    obtain ⟨v, hv, hx⟩ := bind_eq_some_iff.mp hx
    exact h _ hname v x hv hx
  unfold stampsFix
  rw [if_pos hsys, hkeep "createdAt" (by decide), hkeep "modifiedAt" (by decide)]

theorem stampsFix_removed (hsys : o.sysAttrs = false) :
    stampsFix env o (objectToKjTree fields) = objectToKjTree (withoutStamps fields) := by
  unfold stampsFix
  rw [if_neg (by simp [hsys]), removeFirst_objectToKjTree, removeFirst_objectToKjTree]
  rfl

theorem shownFields_withoutStamps
    (h : ∀ name ∈ stampNames, ∀ v, stampOf fields name = some v → isKnown v = false) :
    shownFields env listed (withoutStamps fields) = shownFields env listed fields := by
  unfold withoutStamps
  rw [shownFields_withoutStamp, shownFields_withoutStamp (h _ (by decide))]
  intro v hv
  rw [stampOf_withoutStamp (by decide)] at hv
  exact h _ (by decide) v hv

theorem object_alike_same (h : ObjectAlike env o listed fields) :
    ObjectRel Same (if o.keyValues then objectToKjTree fields
      else stampsFix env o (objectToKjTree fields)) (shownFields env listed fields) := by
  unfold ObjectAlike at h
  by_cases hkey : o.keyValues = true
  · rw [if_pos hkey] at h ⊢
    exact objectRel_of_forall₂ (sameMembers_iff.mp (alikeFields_same fields h))
  rw [if_neg hkey] at h ⊢
  cases hsys : o.sysAttrs with
  | true =>
    rw [if_pos hsys] at h
    obtain ⟨halike, hdouble⟩ := h
    rw [stampsFix_self hsys]
    · exact objectRel_of_forall₂ (sameMembers_iff.mp (alikeFields_same fields halike))
    · intro name hname v x hv hx
      have hnot := hdouble name hname
      have hinside := alike_of_mem halike (mem_of_stampOf hv).1
      cases v with
      | double y => exact absurd hv (hnot y)
      | int32 i => exact hinside.elim
      | int64 i => cases hx
      | _ => obtain rfl := some.inj hx; rfl
  | false =>
    rw [if_neg (by simp [hsys])] at h
    obtain ⟨halike, hunknown⟩ := h
    rw [stampsFix_removed hsys, ← shownFields_withoutStamps hunknown]
    exact objectRel_of_forall₂ (sameMembers_iff.mp (alikeFields_same _ halike))

theorem value_alike_same {value : BsonValue} (h : ValueAlike env o retrieved listed value) :
    BothShow (retrievedValue env o retrieved value) (listedValue env listed value) := by
  cases value with
  | double x | bool b | null =>
    refine ⟨_, _, rfl, rfl, ?_⟩
    cases o.keyValues <;> cases retrieved <;> exact Same.refl _
  | int32 i =>
    refine ⟨_, _, rfl, rfl, ?_⟩
    cases o.keyValues <;> cases retrieved <;> exact .number rfl rfl
  | int64 i => exact h.elim
  | string s => exact ⟨_, _, retrieved_string s, rfl, text_same_iff.mpr h⟩
  | array items =>
    refine ⟨_, _, retrieved_array items, listed_array items, same_array_iff.mpr ?_⟩
    refine (forall₂_filterMap_iff fun item _ hshow => ?_).mpr fun item hitem =>
      item_alike_same (h item hitem)
    obtain ⟨z, hz⟩ := hshow
    obtain ⟨x, hx⟩ := read_of_shown hz
    exact ⟨_, by rw [retrievedItem, hx]; rfl⟩
  | object fields =>
    exact ⟨_, _, retrieved_object fields, rfl, same_object_iff.mpr (object_alike_same h)⟩

theorem erased_notMem {name : Text} (hone : (fields.map Prod.fst).Nodup)
    (h : stampOf fields name = some v) : name ∉ (withoutStamp name fields).map Prod.fst := by
  unfold stampOf at h
  unfold withoutStamp
  induction fields with
  | nil => cases h
  | cons field fields ih =>
    rw [map_cons, nodup_cons] at hone
    by_cases hp : readAs name field = true
    · rw [eraseP_cons_of_pos hp, ← (readAs_iff.mp hp).1]
      exact hone.1
    rw [List.find?_cons_of_neg hp] at h
    rw [eraseP_cons_of_neg hp, map_cons, mem_cons, not_or]
    refine ⟨?_, ih hone.2 h⟩
    intro hname
    obtain ⟨f, hf, -⟩ := map_eq_some_iff.mp h
    have hmem := mem_map_of_mem (f := Prod.fst) (mem_of_find?_eq_some hf)
    rw [(readAs_iff.mp (List.find?_some hf)).1, hname] at hmem
    exact hone.1 hmem

theorem withoutStamp_sublist (fields : Fields) (name : Text) :
    (withoutStamp name fields).Sublist fields := List.eraseP_sublist

theorem oneEach_of_mem : OneEachFields fields ↔ ∀ f ∈ fields, OneEach f.2 := by
  induction fields with
  | nil => simp [OneEachFields]
  | cons field fields ih =>
    rw [OneEachFields, ih, forall_mem_cons]

theorem oneEachItem_of_mem {items : List BsonValue} (h : OneEachItems items)
    (hitem : item ∈ items) :
    OneEach item := by
  induction items with
  | nil => cases hitem
  | cons item' items ih =>
    rcases mem_cons.mp hitem with rfl | hitem
    · exact h.1
    · exact ih h.2 hitem

theorem unknown_of_removed (hone : (fields.map Prod.fst).Nodup)
    (h : ObjectRel Same (objectToKjTree (withoutStamps fields)) (shownFields env listed fields)) :
    ∀ name ∈ stampNames, ∀ v, stampOf fields name = some v → isKnown v = false := by
  intro name hname v hv
  by_contra hknown
  obtain ⟨cv, hcv⟩ := isSome_iff_exists.mp (Bool.of_not_eq_false hknown)
  have hz : shownInside env listed v = some (kjTreeFromCompoundValue env listed cv) := by
    simp [shownInside, hcv]
  have hplain : eqForDot name = name := by
    rcases mem_pair.mp hname with rfl | rfl <;> decide
  have hshown : name ∈ (shownFields env listed fields).map Prod.fst := by
    have hmem := mem_shownFields.mpr ⟨name, v, (mem_of_stampOf hv).1, hz, rfl⟩
    exact mem_map.mpr ⟨_, hmem, hplain⟩
  rw [← (objectRel_names h).mem_iff] at hshown
  have hleft := (names_sublist _).subset hshown
  rcases mem_pair.mp hname with rfl | rfl
  · exact erased_notMem hone hv (((withoutStamp_sublist _ _).map Prod.fst).subset hleft)
  · have hone' := hone.sublist ((withoutStamp_sublist fields "createdAt".toList).map Prod.fst)
    exact erased_notMem hone' (by rw [stampOf_withoutStamp (by decide)]; exact hv) hleft

theorem undated_of_same (hone : (fields.map Prod.fst).Nodup) (hsys : o.sysAttrs = true)
    (h : ObjectRel Same (stampsFix env o (objectToKjTree fields))
    (shownFields env listed fields)) :
    ∀ name ∈ stampNames, ∀ v x, stampOf fields name = some v → bsonToKjTree v = some x →
      timestampToString env x = x := by
  intro name hname v x hv hx
  have hlookup : (objectToKjTree fields).lookup name = some x := by
    rw [lookup_objectToKjTree, hv]
    exact hx
  have hmem : (name, timestampToString env x) ∈ stampsFix env o (objectToKjTree fields) := by
    unfold stampsFix
    rw [if_pos hsys]
    rcases mem_pair.mp hname with rfl | rfl
    · have hne : "createdAt".toList ≠ "modifiedAt".toList := by decide
      exact mem_changeFirst_ne (changed_mem hlookup) hne
    apply changed_mem
    rw [lookup_changeFirst_ne (by decide)]
    exact hlookup
  have hnames : (stampsFix env o (objectToKjTree fields)).map Prod.fst =
      (objectToKjTree fields).map Prod.fst := by
    unfold stampsFix
    rw [if_pos hsys, names_changeFirst, names_changeFirst]
  obtain ⟨-, z, hz, hsame⟩ := field_shown hone hnames h (mem_of_stampOf hv).1 hmem
  cases v with
  | double y =>
    cases hx
    cases hz
    cases same_string_left.mp hsame
  | int32 i => cases hz
  | int64 i => cases hx
  | _ => obtain rfl := some.inj hx; rfl

theorem object_same_alike (hone : OneEach (.object fields))
    (h : ObjectRel Same (if o.keyValues then objectToKjTree fields
    else stampsFix env o (objectToKjTree fields)) (shownFields env listed fields)) :
    ObjectAlike env o listed fields := by
  rw [OneEach] at hone
  unfold ObjectAlike
  by_cases hkey : o.keyValues = true
  · rw [if_pos hkey] at h ⊢
    exact alikeFields_of_shown fields hone.2 fun f hf => fields_shown hone.1 h hf
  rw [if_neg hkey] at h ⊢
  cases hsys : o.sysAttrs with
  | true =>
    have hundated := undated_of_same hone.1 hsys h
    rw [stampsFix_self hsys hundated] at h
    refine ⟨alikeFields_of_shown fields hone.2 fun f hf => fields_shown hone.1 h hf, ?_⟩
    intro name hname x hx
    cases hundated name hname _ _ hx rfl
  | false =>
    rw [stampsFix_removed hsys] at h
    have hunknown := unknown_of_removed hone.1 h
    rw [← shownFields_withoutStamps hunknown] at h
    have hsub : (withoutStamps fields).Sublist fields :=
      (withoutStamp_sublist _ _).trans (withoutStamp_sublist _ _)
    refine ⟨alikeFields_of_shown _ ?_ fun f hf =>
      fields_shown (hone.1.sublist (hsub.map Prod.fst)) h hf, hunknown⟩
    rw [oneEach_of_mem] at hone ⊢
    exact fun f hf => hone.2 f (hsub.subset hf)

theorem value_same_alike {value : BsonValue} (hone : OneEach value)
    (h : BothShow (retrievedValue env o retrieved value) (listedValue env listed value)) :
    ValueAlike env o retrieved listed value := by
  obtain ⟨x, z, hx, hz, hsame⟩ := h
  cases value with
  | double y => exact trivial
  | bool b => exact trivial
  | null => exact trivial
  | int32 i => exact trivial
  | int64 i => cases hz
  | string s =>
    obtain rfl := some.inj ((retrieved_string s).symm.trans hx)
    cases hz
    exact text_same_iff.mp hsame
  | array items =>
    obtain rfl := some.inj ((retrieved_array items).symm.trans hx)
    obtain rfl := some.inj ((listed_array items).symm.trans hz)
    have hall := (forall₂_filterMap_iff fun item _ hshow => by
      obtain ⟨z, hz⟩ := hshow
      obtain ⟨x, hx⟩ := read_of_shown hz
      exact ⟨_, by rw [retrievedItem, hx]; rfl⟩).mp (same_array_iff.mp hsame)
    exact fun item hitem => item_same_alike (oneEachItem_of_mem hone hitem) (hall item hitem)
  | object fields =>
    obtain rfl := some.inj ((retrieved_object fields).symm.trans hx)
    cases hz
    exact object_same_alike hone (same_object_iff.mp hsame)

end EntityValues
