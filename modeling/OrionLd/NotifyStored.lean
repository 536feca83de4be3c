import OrionLd.AttrNamesMirror
import OrionLd.NotifyCer

/-! What notifications show against what is stored. The copy of the attributes that is sent and
the update of the document are made by different code, with rules of their own for the metadata,
the types and what counts as an update. -/
namespace NotifyStored

open OrderedMap (assignAll assignAll_perm)

open MongoQuery (Bson)
open KjTree FieldList MongoLocation MongoCommonUpdate CustomMetadata NotifyCer AttrNamesMirror
open LocationMirror LocationUpdates Fallible List Option
open KjTreeToContextAttribute (Metadata)
open KjTreeFromQueryContextResponse (splitId)

section

def customOf (v : ApiVersion) (vector : List NotifyMetadata) : List NotifyMetadata :=
  vector.filter fun m => !isNotCustomMetadata v m.name

def bsonText : Option Bson → Text
  | some (.str s) => s
  | _ => []

def metadataId (vector : List NotifyMetadata) : Option Text :=
  (vector.find? fun m => m.name == "ID".toList).map fun m => bsonText m.value

/-- The two attributes show the same, whatever was done to them. -/
structure SameShown (v : ApiVersion) (a b : NotifyAttribute) : Prop where
  name : a.name = b.name
  id : metadataId a.metadataVector = metadataId b.metadataVector
  type : a.type = b.type
  value : a.value = b.value
  custom : (customOf v a.metadataVector).Perm (customOf v b.metadataVector)

theorem SameShown.refl (v : ApiVersion) (a : NotifyAttribute) : SameShown v a a :=
  ⟨rfl, rfl, rfl, rfl, List.Perm.refl _⟩

def storedAfter (d : EntityDoc StoredMetadata) (r : Request) (u : Update StoredMetadata) :
    List (Text × AttrsField StoredMetadata) :=
  if r.action = .replace then attributeFields u.toSet
  else remove u.toUnset (putAll (attributeFields u.toSet) d.attrs)

variable (env : Env StoredMetadata)

def ShowsStored (v : ApiVersion) (attrs : List (Text × AttrsField StoredMetadata))
    (a : NotifyAttribute) : Prop :=
  ∃ key field, attrs.lookup key = some field ∧
    SameShown v a (storedAttribute key (field.asAttribute env))

def given (d : EntityDoc StoredMetadata) (r : Request) : List ContextAttribute :=
  r.contextAttributeVector.filter (!skip d r ·)

structure ShowsWhatIsStored (d : EntityDoc StoredMetadata) (r : Request) (o : Outputs) : Prop where
  shown : ∀ a ∈ o.notifyCer, a.skip = false →
    ShowsStored env r.apiVersion (storedAfter d r o.update) a
  modified : ∀ name ∈ o.modifiedAttrs, ∃ ca ∈ given d r, ca.name = name ∧
    effectiveName ca ∈ o.update.toSet.map Prod.fst ++ o.update.toUnset

end

section

structure Options where
  numbers : Numbers
  compoundValueDiffers : CompoundValueNode → Option Bson → Bool
  noNotifyFalseUpdate : Bool
  onlyValue : Bool

def Options.env (opts : Options) : Env StoredMetadata :=
  metadataEnv opts.numbers opts.compoundValueDiffers opts.noNotifyFalseUpdate opts.onlyValue

variable (opts : Options)

/-- A stored entity has its fields once. -/
structure StoredOnce (d : EntityDoc StoredMetadata) : Prop where
  attrs : (keysOf d).Nodup
  md : ∀ f ∈ d.attrs, ((f.2.asAttribute opts.env).md.map Prod.fst).Nodup

def shownName (key : Text) : Text := eqForDot (splitId key).1

def customMetadataOf (v : ApiVersion) (ca : ContextAttribute) : List Metadata :=
  ca.metadataVector.filter fun md => !isNotCustomMetadata v md.name

/-- The names of the metadata are stored as they are, and so is the metadata ID. -/
structure LegalMetadata (v : ApiVersion) (ca : ContextAttribute) : Prop where
  once : ((customMetadataOf v ca).map Metadata.name).Nodup
  legal : ∀ md ∈ customMetadataOf v ca, '=' ∉ md.name ∧ md.name.length ≤ 255
  id : ∀ id ∈ getMetadataId ca, id.length ≤ 509 - ca.name.length

/-- The value is stored as it is given. -/
def AsGiven (v : ApiVersion) (attrType : Text) (ca : ContextAttribute) : Prop :=
  (givenValue opts.env ca).isSome ∧
    valueBson opts.env.toNumbers v attrType ca = givenValue opts.env ca

/-- The types of the metadata are given where the broker has default types. -/
def TypesGiven (v : ApiVersion) (ca : ContextAttribute) : Prop :=
  v = .v2 → ∀ md ∈ customMetadataOf v ca, md.type ≠ []

/-- No stored metadata is kept that the request does not give. -/
def NoneKept (v : ApiVersion) (old : StoredMetadata) (ca : ContextAttribute) : Prop :=
  v = .v2 ∧ opts.onlyValue = false ∨ ∀ md ∈ old, hasMetadata (eqForDot (copied md.1)) ca = true

/-- A value that is written is stored as it is given, and compound values that are found to be the
same are. -/
def ValueShown (v : ApiVersion) (old : StoredAttribute StoredMetadata) (ca : ContextAttribute) :
    Prop :=
  if actuallyUpdates opts.env v old ca then AsGiven opts v (old.type.getD []) ca
  else ∀ c ∈ ca.compoundValueP, old.value = some (compoundValueBson c)

structure UpdateShown (v : ApiVersion) (old : StoredAttribute StoredMetadata)
    (ca : ContextAttribute) : Prop where
  legal : LegalMetadata v ca
  types : TypesGiven v ca
  kept : NoneKept opts v old.md ca
  value : ca.valueType ≠ .notGiven → ValueShown opts v old ca

structure ReplacementShown (v : ApiVersion) (old : StoredAttribute StoredMetadata)
    (ca : ContextAttribute) : Prop where
  legal : LegalMetadata v ca
  types : TypesGiven v ca
  type : attrType v ca = if ca.type = [] then old.type.getD [] else ca.type
  given : ca.valueType ≠ .notGiven
  value : AsGiven opts v (attrType v ca) ca

/-- What the request must be like for the attribute to be shown as it is stored. -/
def ShownAlike (d : EntityDoc StoredMetadata) (r : Request)
    (ca : ContextAttribute) : Prop :=
  match r.action, d.attrs.lookup (effectiveName ca) with
  | .delete, _ => True
  | .update, none => False
  | .update, some field => UpdateShown opts r.apiVersion (field.asAttribute opts.env) ca
  | .append, none => LegalMetadata r.apiVersion ca ∧ AsGiven opts r.apiVersion ca.type ca
  | .append, some field => r.noOverwrite = false ∧
      UpdateShown opts r.apiVersion (field.asAttribute opts.env) ca
  | .appendStrict, none => LegalMetadata r.apiVersion ca ∧ AsGiven opts r.apiVersion ca.type ca
  | .appendStrict, some field => r.noOverwrite = false ∧
      UpdateShown opts r.apiVersion (field.asAttribute opts.env) ca
  | .replace, none => LegalMetadata r.apiVersion ca ∧
      AsGiven opts r.apiVersion (attrType r.apiVersion ca) ca
  | .replace, some field => ReplacementShown opts r.apiVersion (field.asAttribute opts.env) ca

/-- Each name is that of one attribute of the request, and of one of the entity. -/
structure OnePerName (d : EntityDoc StoredMetadata) (r : Request) : Prop where
  once : ((given d r).map ContextAttribute.name).Nodup
  single : ∀ key ∈ keysOf d, ∀ ca ∈ given d r, shownName key = ca.name → key = effectiveName ca

structure Faithful (d : EntityDoc StoredMetadata) (r : Request) : Prop where
  names : ∀ ca ∈ given d r, IsName ca.name
  alone : r.action ≠ .delete → OnePerName d r
  alike : ∀ ca ∈ given d r, ShownAlike opts d r ca
  all : r.action = .replace → ∀ key ∈ keysOf d, ∃ ca ∈ given d r, key = effectiveName ca

end

section

variable {n id : Text} {ca : ContextAttribute}

theorem splitId_plain (hn : '(' ∉ n) : splitId n = (n, none) := by
  induction n with
  | nil => rfl
  | cons c n ih =>
    have hc : c ≠ '(' := fun heq => hn (heq ▸ mem_cons_self)
    have hrest := ih fun hmem => hn (mem_cons_of_mem _ hmem)
    rw [splitId]
    · rw [hrest]
    · intro rest heq
      exact absurd heq hc

theorem splitId_id (hn : '(' ∉ n) : splitId (n ++ "()".toList ++ id) = (n, some id) := by
  induction n with
  | nil => rfl
  | cons c n ih =>
    have hc : c ≠ '(' := fun heq => hn (heq ▸ mem_cons_self)
    have hrest := ih fun hmem => hn (mem_cons_of_mem _ hmem)
    rw [cons_append, cons_append, splitId]
    · rw [hrest]
    · intro rest heq
      exact absurd heq hc

theorem splitId_effectiveName (hname : IsName ca.name) :
    splitId (effectiveName ca) =
      (dotForEq ca.name, (getMetadataId ca).map (·.take (509 - ca.name.length))) := by
  have hparen := paren_notMem_dotForEq hname.2.1
  have hlength : (dotForEq ca.name).length = ca.name.length := length_map _
  unfold effectiveName
  rw [fieldName_eq hname.2.2, hlength]
  cases getMetadataId ca with
  | none => exact splitId_plain hparen
  | some id => exact splitId_id hparen

theorem splitId_whole (hname : IsName ca.name) (hlegal : LegalMetadata v ca) :
    splitId (effectiveName ca) = (dotForEq ca.name, getMetadataId ca) := by
  rw [splitId_effectiveName hname]
  cases hid : getMetadataId ca with
  | none => rfl
  | some id => rw [Option.map_some, take_of_length_le (hlegal.id id hid)]

theorem eqForDot_of_legal (hn : '=' ∉ n) : eqForDot (dotForEq n) = n :=
  (AttributeNames.key_decodes_iff n).mpr hn

theorem shownName_effectiveName (hname : IsName ca.name) :
    shownName (effectiveName ca) = ca.name := by
  unfold shownName
  rw [splitId_effectiveName hname]
  exact eqForDot_of_legal hname.1

end

section

variable {v : ApiVersion} {ca : ContextAttribute} {old : StoredMetadata}

theorem typeField_getD (type : Text) : (typeField type).getD [] = type := by
  unfold typeField
  split
  · rename_i h
    exact h.symm
  · rfl

theorem stored_of_appended (useDefaultType : Bool) {md : Metadata}
    (h : '=' ∉ md.name ∧ md.name.length ≤ 255) :
    storedMetadata (appendMetadata useDefaultType md) = requestMetadata useDefaultType md := by
  unfold storedMetadata appendMetadata requestMetadata
  rw [copied, take_of_length_le h.2, eqForDot_of_legal h.1, typeField_getD]

theorem customOf_request (useDefaultType : Bool) :
    customOf v (ca.metadataVector.map (requestMetadata useDefaultType)) =
      (customMetadataOf v ca).map (requestMetadata useDefaultType) := by
  unfold customOf customMetadataOf
  rw [List.filter_map]
  rfl

theorem request_types (h : TypesGiven v ca) :
    customOf v (ca.metadataVector.map (requestMetadata false)) =
      customOf v (ca.metadataVector.map (requestMetadata (v == .v2))) := by
  rw [customOf_request, customOf_request]
  refine map_congr_left fun md hmd => ?_
  have htype : metadataType (v == .v2) md = md.type := by
    refine if_neg fun hdefault => ?_
    exact h (eq_of_beq hdefault.2) md hmd hdefault.1
  have hgiven : metadataType false md = md.type := if_neg fun hdefault => nomatch hdefault.2
  unfold requestMetadata
  rw [htype, hgiven]

theorem customMetadata_shown (h : LegalMetadata v ca) :
    (customMetadata v ca.metadataVector).map storedMetadata =
      customOf v (ca.metadataVector.map (requestMetadata (v == .v2))) := by
  rw [customOf_request, customMetadata, List.map_map]
  exact List.map_congr_left fun md hmd => stored_of_appended _ (h.legal md hmd)

theorem customMetadata_once (h : LegalMetadata v ca) :
    ((customMetadata v ca.metadataVector).map Prod.fst).Nodup := by
  have hmap : (customMetadata v ca.metadataVector).map Prod.fst =
      ((customMetadataOf v ca).map Metadata.name).map dotForEq := by
    rw [customMetadata, List.map_map, List.map_map]
    refine List.map_congr_left fun md hmd => ?_
    exact congrArg dotForEq (take_of_length_le (h.legal md hmd).2)
  rw [hmap]
  refine List.Nodup.map_on (fun a ha b hb heq => ?_) h.once
  obtain ⟨md, hmd, rfl⟩ := mem_map.mp ha
  obtain ⟨md', hmd', rfl⟩ := mem_map.mp hb
  exact dotForEq_injective (h.legal md hmd).1 (h.legal md' hmd').1 heq

theorem bsonText_request (value : CompoundValueNode) :
    bsonText (some (compoundValueBson value)) = metadataString value := by
  cases value <;> rfl

theorem metadataId_request (useDefaultType : Bool) :
    metadataId (ca.metadataVector.map (requestMetadata useDefaultType)) = getMetadataId ca := by
  unfold metadataId getMetadataId
  rw [List.find?_map, Option.map_map]
  congr 1
  funext md
  exact bsonText_request md.value

theorem metadataId_custom {vector : List NotifyMetadata}
    (h : ∀ m ∈ vector, isNotCustomMetadata v m.name = false) : metadataId vector = none := by
  unfold metadataId
  rw [map_eq_none_iff, List.find?_eq_none]
  intro m hm hid
  have hcustom := h m hm
  rw [eq_of_beq hid] at hcustom
  cases hcustom

theorem same_metadata {key : Text} {a : StoredAttribute StoredMetadata} (hname : IsName ca.name)
    (hlegal : LegalMetadata v ca) (hkey : key = effectiveName ca)
    (hmd : (assignAll a.md).Perm (customMetadata v ca.metadataVector)) :
    metadataId (ca.metadataVector.map (requestMetadata (v == .v2))) =
        metadataId (storedAttribute key a).metadataVector ∧
      (customOf v (ca.metadataVector.map (requestMetadata (v == .v2)))).Perm
        (customOf v (storedAttribute key a).metadataVector) := by
  have hshown : ((assignAll a.md).map storedMetadata).Perm
      (customOf v (ca.metadataVector.map (requestMetadata (v == .v2)))) :=
    customMetadata_shown hlegal ▸ hmd.map storedMetadata
  have hcustom : ∀ m ∈ (assignAll a.md).map storedMetadata,
      isNotCustomMetadata v m.name = false := by
    intro m hm
    simpa using (mem_filter.mp (hshown.mem_iff.mp hm)).2
  have hvector : (storedAttribute key a).metadataVector =
      ((getMetadataId ca).map idMetadata).toList ++
        (assignAll a.md).map storedMetadata := by
    unfold storedAttribute
    rw [hkey, splitId_whole hname hlegal]
  rw [hvector, metadataId_request]
  constructor
  · cases getMetadataId ca with
    | none => exact (metadataId_custom hcustom).symm
    | some id => rfl
  · have hkept : customOf v ((assignAll a.md).map storedMetadata) =
        (assignAll a.md).map storedMetadata := by
      unfold customOf
      rw [filter_eq_self]
      intro m hm
      rw [hcustom m hm]
      rfl
    have hid : customOf v ((getMetadataId ca).map idMetadata).toList = [] := by
      cases getMetadataId ca with
      | none => rfl
      | some id => rfl
    unfold customOf at hkept hid ⊢
    rw [filter_append, hid, hkept, nil_append]
    exact hshown.symm

end

section

variable {opts : Options} {v : ApiVersion} {ca : ContextAttribute} {key : Text}
  {old new : StoredAttribute StoredMetadata} {useDefaultType : Bool} {actionType : String}

theorem merged_of_noneKept {md : StoredMetadata} (h : NoneKept opts v md ca) :
    mergedMetadata opts.onlyValue v md ca = customMetadata v ca.metadataVector := by
  unfold mergedMetadata
  rcases h with ⟨hv, honly⟩ | hall
  · have hno : ¬ (v ≠ .v2 ∨ opts.onlyValue = true) := by
      rintro (hne | htrue)
      · exact hne hv
      · exact Bool.noConfusion (honly.symm.trans htrue)
    rw [if_neg hno, append_nil]
  · have hnone : (assignAll md).filter
        (fun f => !hasMetadata (eqForDot (copied f.1)) ca) = [] := by
      rw [filter_eq_nil_iff]
      intro f hf
      rw [hall f (OrderedMap.mem_of_mem_assignAll hf)]
      exact Bool.noConfusion
    rw [hnone, map_nil, ite_self, append_nil]

theorem eq_of_equalMetadataValue {x y : Option Bson} (h : equalMetadataValue x y = true) :
    x = y := by
  unfold equalMetadataValue at h
  split at h
  · rw [eq_of_beq h]
  · rw [eq_of_beq h]
  · rw [eq_of_beq h]
  · rfl
  · cases h

theorem perm_of_unchanged {md : StoredMetadata} (honce : (md.map Prod.fst).Nodup)
    (hkept : NoneKept opts v md ca)
    (h : metadataDiffers opts.onlyValue v md ca = false) :
    (assignAll md).Perm (customMetadata v ca.metadataVector) := by
  unfold metadataDiffers at h
  rw [merged_of_noneKept hkept] at h
  obtain ⟨hlength, hequal⟩ := Bool.or_eq_false_iff.mp h
  have hlength := bne_eq_false_iff_eq.mp hlength
  have hequal : equalMetadata md (customMetadata v ca.metadataVector) = true := by
    simpa using hequal
  have hperm := assignAll_perm honce
  have hsub : ∀ f ∈ assignAll md, f ∈ customMetadata v ca.metadataVector := by
    rintro ⟨name, doc⟩ hf
    have hmem := hperm.mem_iff.mp hf
    have hany := all_eq_true.mp hequal _ hmem
    obtain ⟨doc', hdoc', hany⟩ := (any_eq_true _ _).mp hany
    rw [lookup_of_mem honce hmem] at hany
    obtain ⟨htype, hvalue⟩ := Bool.and_eq_true_iff.mp hany
    have hsame : doc = doc' := by
      obtain ⟨type, value⟩ := doc
      obtain ⟨type', value'⟩ := doc'
      rw [show type = type' from eq_of_beq htype,
        show value = value' from eq_of_equalMetadataValue hvalue]
    rw [hsame]
    exact mem_of_lookup hdoc'
  have hnodup : (assignAll md).Nodup := hperm.nodup_iff.mpr (List.Nodup.of_map _ honce)
  exact (hnodup.subperm hsub).perm_of_length_le hlength.le

/-- An update shows the metadata of the request, without default types. -/
theorem updated_metadata (a a' : StoredAttribute StoredMetadata) (hname : IsName ca.name)
    (hlegal : LegalMetadata v ca) (htypes : TypesGiven v ca)
    (hmd : (assignAll a.md).Perm (customMetadata v ca.metadataVector)) :
    metadataId (updatedAttribute opts.env useDefaultType "update" ca
        (storedAttribute (effectiveName ca) a')).metadataVector =
        metadataId (storedAttribute (effectiveName ca) a).metadataVector ∧
      (customOf v (updatedAttribute opts.env useDefaultType "update" ca
        (storedAttribute (effectiveName ca) a')).metadataVector).Perm
        (customOf v (storedAttribute (effectiveName ca) a).metadataVector) := by
  obtain ⟨hid, hcustom⟩ := same_metadata hname hlegal rfl hmd
  rw [metadataId_request] at hid
  change metadataId (ca.metadataVector.map (requestMetadata false)) = _ ∧
    (customOf v (ca.metadataVector.map (requestMetadata false))).Perm _
  rw [metadataId_request, request_types htypes]
  exact ⟨hid, hcustom⟩

theorem value_of_unchanged {stored : Option Bson} (h : attrValueChanged stored ca = false)
    (hgiven : ca.valueType ≠ .notGiven) :
    bsonAppendAttrValue opts.env.toNumbers false [] ca = some (stored.getD (.str [])) := by
  unfold attrValueChanged at h
  unfold bsonAppendAttrValue
  cases stored with
  | none =>
    obtain ⟨htype, hvalue⟩ := Bool.or_eq_false_iff.mp h
    rw [bne_eq_false_iff_eq.mp htype, bne_eq_false_iff_eq.mp hvalue]
    rfl
  | some b =>
    dsimp only at h
    rw [if_neg hgiven] at h
    cases b with
    | obj fields => cases h
    | arr items => cases h
    | null =>
      rw [bne_eq_false_iff_eq.mp h]
      rfl
    | num x | bool x | str t =>
      obtain ⟨htype, hvalue⟩ := Bool.or_eq_false_iff.mp h
      rw [bne_eq_false_iff_eq.mp htype, bne_eq_false_iff_eq.mp hvalue]
      rfl

theorem unchanged_value
    (hvalue : ca.valueType ≠ .notGiven → ValueShown opts v old ca)
    (h : actuallyUpdates opts.env v old ca = false) (hgiven : ca.valueType ≠ .notGiven) :
    givenValue opts.env ca = some (old.value.getD (.str [])) := by
  have hshown := hvalue hgiven
  rw [ValueShown, h, if_neg Bool.false_ne_true] at hshown
  unfold actuallyUpdates at h
  unfold givenValue
  cases hc : ca.compoundValueP with
  | some c =>
    rw [hshown c hc]
    rfl
  | none =>
    rw [hc] at h
    exact value_of_unchanged (Bool.or_eq_false_iff.mp h).2 hgiven

theorem value_given {type : Text} (h : AsGiven opts v type ca) :
    givenValue opts.env ca = some ((valueBson opts.env.toNumbers v type ca).getD (.str [])) := by
  obtain ⟨hsome, heq⟩ := h
  obtain ⟨b, hb⟩ := isSome_iff_exists.mp hsome
  rw [heq, hb]
  rfl

theorem merged_shown (hname : IsName ca.name) (h : UpdateShown opts v old ca)
    (hnew : mergeAttrInfo opts.env v old ca = some new) :
    SameShown v (updatedAttribute opts.env useDefaultType "update" ca
      (storedAttribute (effectiveName ca) old)) (storedAttribute (effectiveName ca) new) := by
  unfold mergeAttrInfo at hnew
  split at hnew
  · next hupdates =>
    cases hnew
    have hmd : opts.env.mergedMetadata v old.md ca = customMetadata v ca.metadataVector :=
      merged_of_noneKept h.kept
    have hperm : (assignAll (opts.env.mergedMetadata v old.md ca)).Perm
        (customMetadata v ca.metadataVector) :=
      hmd.symm ▸ assignAll_perm (customMetadata_once h.legal)
    obtain ⟨hid, hcustom⟩ := updated_metadata
      ⟨_, _, opts.env.mergedMetadata v old.md ca⟩ old hname h.legal h.types hperm
    refine ⟨rfl, hid, ?_, ?_, hcustom⟩
    · unfold updatedAttribute storedAttribute
      split <;> rfl
    · unfold updatedAttribute storedAttribute
      dsimp only
      split
      · rfl
      · rename_i hgiven
        have hshown := h.value hgiven
        rw [ValueShown, if_pos hupdates] at hshown
        exact value_given hshown
  · cases hnew

theorem unchanged_shown (hname : IsName ca.name) (h : UpdateShown opts v old ca)
    (honce : (old.md.map Prod.fst).Nodup) (hnone : mergeAttrInfo opts.env v old ca = none) :
    SameShown v (updatedAttribute opts.env useDefaultType "update" ca
      (storedAttribute (effectiveName ca) old)) (storedAttribute (effectiveName ca) old) := by
  have hno : actuallyUpdates opts.env v old ca = false := by
    unfold mergeAttrInfo at hnone
    split at hnone
    · cases hnone
    · rename_i hno
      exact eq_false_of_ne_true hno
  have hrest : typeDiffers old ca = false ∧ metadataDiffers opts.onlyValue v old.md ca = false := by
    unfold actuallyUpdates at hno
    split at hno
    · simp only [Bool.or_eq_false_iff] at hno
      exact ⟨hno.1.1.2, hno.1.2⟩
    · simp only [Bool.or_eq_false_iff] at hno
      exact ⟨hno.1.1.1.2, hno.1.1.2⟩
  have hmd := perm_of_unchanged honce h.kept hrest.2
  obtain ⟨hid, hcustom⟩ := updated_metadata old old hname h.legal h.types hmd
  refine ⟨rfl, hid, ?_, ?_, hcustom⟩
  · unfold updatedAttribute storedAttribute
    split
    · rfl
    rename_i hgiven
    have htype := (Bool.and_eq_false_iff.mp hrest.1).resolve_left fun hempty =>
      hgiven (bne_eq_false_iff_eq.mp hempty)
    exact (bne_eq_false_iff_eq.mp htype).symm
  · unfold updatedAttribute storedAttribute
    dsimp only
    split
    · rfl
    · rename_i hgiven
      exact unchanged_value h.value hno hgiven

theorem newAttribute_type :
    (newAttribute opts.env (v == .v2) actionType ca).type = attrType v ca := by
  unfold newAttribute attrType
  cases ca.typeGiven <;> cases v <;> rfl

theorem created_shown {type : Text} (hname : IsName ca.name) (hlegal : LegalMetadata v ca)
    (hvalue : AsGiven opts v type ca) :
    SameShown v (newAttribute opts.env (v == .v2) actionType ca)
      (storedAttribute (effectiveName ca) { createdAttribute opts.env v ca with
        value := valueBson opts.env.toNumbers v type ca }) := by
  have hmd := assignAll_perm (customMetadata_once (v := v) hlegal)
  refine ⟨(shownName_effectiveName hname).symm, ?_, newAttribute_type, value_given hvalue, ?_⟩
  · exact (same_metadata hname hlegal rfl hmd).1
  · exact (same_metadata hname hlegal rfl hmd).2

theorem replacement_shown (hname : IsName ca.name) (h : ReplacementShown opts v old ca) :
    SameShown v (updatedAttribute opts.env useDefaultType "update" ca
      (storedAttribute (effectiveName ca) old))
        (storedAttribute (effectiveName ca) (createdAttribute opts.env v ca)) := by
  have hmd := assignAll_perm (customMetadata_once (v := v) h.legal)
  obtain ⟨hid, hcustom⟩ := updated_metadata
    (createdAttribute opts.env v ca) old hname h.legal h.types hmd
  refine ⟨rfl, hid, h.type.symm, ?_, hcustom⟩
  unfold updatedAttribute storedAttribute
  rw [if_neg h.given]
  exact value_given h.value

end

section

variable {env : Env StoredMetadata} {useDefaultType : Bool} {actionType : String}
  {ca : ContextAttribute} {vector : List NotifyAttribute} {a : NotifyAttribute}

theorem mem_of_other (hother : a.name ≠ ca.name) :
    a ∈ updateAttrInNotifyCer env useDefaultType actionType ca vector ↔ a ∈ vector := by
  induction vector with
  | nil =>
    rw [updateAttrInNotifyCer, mem_singleton]
    exact iff_of_false (fun heq => hother (congrArg NotifyAttribute.name heq)) not_mem_nil
  | cons b vector ih =>
    unfold updateAttrInNotifyCer
    split
    · rename_i hb
      rw [mem_cons, mem_cons]
      refine or_congr_left (iff_of_false (fun heq => hother ?_) fun heq => hother (heq ▸ hb))
      exact (congrArg NotifyAttribute.name heq).trans hb
    · rw [mem_cons, mem_cons, ih]

theorem updated_or_new (hsingle : (vector.map NotifyAttribute.name).count ca.name ≤ 1)
    (ha : a ∈ updateAttrInNotifyCer env useDefaultType actionType ca vector)
    (hname : a.name = ca.name) :
    (∃ b ∈ vector, b.name = ca.name ∧
        a = updatedAttribute env useDefaultType actionType ca b) ∨
      (∀ b ∈ vector, b.name ≠ ca.name) ∧ a = newAttribute env useDefaultType actionType ca := by
  induction vector with
  | nil => exact .inr ⟨nofun, mem_singleton.mp ha⟩
  | cons b vector ih =>
    unfold updateAttrInNotifyCer at ha
    rw [map_cons, count_cons] at hsingle
    split at ha
    · rename_i hb
      rcases mem_cons.mp ha with ha | ha
      · exact .inl ⟨b, mem_cons_self, hb, ha⟩
      rw [if_pos (beq_of_eq hb)] at hsingle
      have hpos : 0 < (vector.map NotifyAttribute.name).count ca.name :=
        count_pos_iff.mpr (hname ▸ mem_map_of_mem ha)
      omega
    · rename_i hb
      rcases mem_cons.mp ha with ha | ha
      · exact absurd (ha ▸ hname) hb
      rcases ih (by omega) ha with ⟨b', hb', h⟩ | ⟨hall, h⟩
      · exact .inl ⟨b', mem_cons_of_mem _ hb', h⟩
      · exact .inr ⟨forall_mem_cons.mpr ⟨hb, hall⟩, h⟩

theorem names_updated :
    (updateAttrInNotifyCer env useDefaultType actionType ca vector).map NotifyAttribute.name =
      if ca.name ∈ vector.map NotifyAttribute.name then vector.map NotifyAttribute.name
      else vector.map NotifyAttribute.name ++ [ca.name] := by
  induction vector with
  | nil => rfl
  | cons b vector ih =>
    unfold updateAttrInNotifyCer
    split
    · rename_i hb
      rw [if_pos (mem_map.mpr ⟨b, mem_cons_self, hb⟩)]
      rfl
    rename_i hb
    rw [map_cons, ih]
    by_cases hmem : ca.name ∈ vector.map NotifyAttribute.name
    · have hyes : ca.name ∈ (b :: vector).map NotifyAttribute.name := mem_cons_of_mem _ hmem
      rw [if_pos hmem, if_pos hyes]
      rfl
    have hnot : ca.name ∉ (b :: vector).map NotifyAttribute.name := by
      rw [map_cons, mem_cons]
      exact not_or.mpr ⟨fun heq => hb heq.symm, hmem⟩
    rw [if_neg hmem, if_neg hnot]
    rfl

theorem single_updated {n : Text} (h : (vector.map NotifyAttribute.name).count n ≤ 1) :
    ((updateAttrInNotifyCer env useDefaultType actionType ca vector).map
      NotifyAttribute.name).count n ≤ 1 := by
  rw [names_updated]
  split
  · exact h
  rename_i hnew
  rw [count_append]
  by_cases hn : n = ca.name
  · rw [hn, count_eq_zero.mpr hnew, Nat.zero_add]
    exact count_le_length
  have hnone : [ca.name].count n = 0 := count_eq_zero.mpr fun hmem => hn (mem_singleton.mp hmem)
  rwa [hnone, Nat.add_zero]

variable {d : EntityDoc StoredMetadata}

theorem mem_contextElementResponse (honce : (keysOf d).Nodup) :
    a ∈ contextElementResponse env d ↔ ∃ key field, d.attrs.lookup key = some field ∧
      a = storedAttribute key (field.asAttribute env) := by
  have hperm := assignAll_perm honce
  unfold contextElementResponse
  rw [List.mem_map]
  constructor
  · rintro ⟨⟨key, field⟩, hmem, rfl⟩
    exact ⟨key, field, lookup_of_mem honce (hperm.mem_iff.mp hmem), rfl⟩
  · rintro ⟨key, field, hlookup, rfl⟩
    exact ⟨(key, field), hperm.mem_iff.mpr (mem_of_lookup hlookup), rfl⟩

theorem single_stored {n key : Text} (honce : (keysOf d).Nodup)
    (hsingle : ∀ k ∈ keysOf d, shownName k = n → k = key) :
    ((contextElementResponse env d).map NotifyAttribute.name).count n ≤ 1 := by
  have hperm : ((contextElementResponse env d).map NotifyAttribute.name).Perm
      ((keysOf d).map shownName) := by
    unfold contextElementResponse keysOf
    rw [List.map_map, List.map_map]
    exact (assignAll_perm honce).map _
  rw [hperm.count_eq, List.count, List.countP_map]
  refine le_trans (countP_mono_left fun k hk hname => ?_) (nodup_iff_count_le_one.mp honce key)
  exact beq_of_eq (hsingle k hk (eq_of_beq hname))

end

section

variable {opts : Options} {d : EntityDoc StoredMetadata} {r : Request} {ca : ContextAttribute}
  {o o' : Outputs} {set : Option (StoredAttribute StoredMetadata)} {actionType : String}
  {seen : List ContextAttribute} {u : Update StoredMetadata}

structure Makes (opts : Options) (r : Request) (ca : ContextAttribute)
    (set : Option (StoredAttribute StoredMetadata)) (actionType : String)
    (o o' : Outputs) : Prop where
  toSet : o'.update.toSet = o.update.toSet ++ (set.map fun a => (effectiveName ca, a)).toList
  toUnset : o'.update.toUnset = o.update.toUnset
  notifyCer : o'.notifyCer =
    updateAttrInNotifyCer opts.env (r.apiVersion == .v2) actionType ca o.notifyCer
  modified : o'.modifiedAttrs = modified ca set.isSome o.modifiedAttrs

def Settled (opts : Options) (d : EntityDoc StoredMetadata) (r : Request) (ca : ContextAttribute)
    (set : Option (StoredAttribute StoredMetadata)) (actionType : String) : Prop :=
  match d.attrs.lookup (effectiveName ca), set with
  | some field, some a => SameShown r.apiVersion
      (updatedAttribute opts.env (r.apiVersion == .v2) actionType ca
        (storedAttribute (effectiveName ca) (field.asAttribute opts.env)))
      (storedAttribute (effectiveName ca) a)
  | some field, none => r.action ≠ .replace ∧ SameShown r.apiVersion
      (updatedAttribute opts.env (r.apiVersion == .v2) actionType ca
        (storedAttribute (effectiveName ca) (field.asAttribute opts.env)))
      (storedAttribute (effectiveName ca) (field.asAttribute opts.env))
  | none, some a => SameShown r.apiVersion
      (newAttribute opts.env (r.apiVersion == .v2) actionType ca)
      (storedAttribute (effectiveName ca) a)
  | none, none => False

/-- The items so far: the copies of their attributes show what is stored, the others are as
they were. -/
structure Copied (opts : Options) (d : EntityDoc StoredMetadata) (r : Request)
    (seen : List ContextAttribute) (o : Outputs) : Prop where
  toUnset : o.update.toUnset = []
  keys : ∀ key ∈ o.update.toSet.map Prod.fst, ∃ ca ∈ seen, key = effectiveName ca
  once : (o.update.toSet.map Prod.fst).Nodup
  shown : ∀ a ∈ o.notifyCer, a.name ∈ seen.map ContextAttribute.name →
    ShowsStored opts.env r.apiVersion (storedAfter d r o.update) a
  others : ∀ a : NotifyAttribute, a.name ∉ seen.map ContextAttribute.name →
    (a ∈ o.notifyCer ↔ a ∈ contextElementResponse opts.env d)
  single : ∀ ca ∈ given d r, (o.notifyCer.map NotifyAttribute.name).count ca.name ≤ 1
  modified : ∀ name ∈ o.modifiedAttrs, ∃ ca ∈ seen, ca.name = name ∧
    effectiveName ca ∈ o.update.toSet.map Prod.fst

theorem lookup_storedAfter (hunset : u.toUnset = []) (honce : (u.toSet.map Prod.fst).Nodup)
    (key : Text) : (storedAfter d r u).lookup key =
      ((attributeFields u.toSet).lookup key).or
        (if r.action = .replace then none else d.attrs.lookup key) := by
  unfold storedAfter
  split
  · exact (or_none).symm
  rw [hunset, lookup_remove_of_notMem not_mem_nil]
  refine lookup_putAll ?_
  rwa [attributeFields_keys]

theorem attributeFields_append (toSet : List (Text × StoredAttribute StoredMetadata))
    (set : Option (StoredAttribute StoredMetadata)) (key : Text) :
    attributeFields (toSet ++ (set.map fun a => (key, a)).toList) =
      attributeFields toSet ++ (set.map fun a => (key, AttrsField.attribute a)).toList := by
  unfold attributeFields
  rw [map_append]
  cases set <;> rfl

theorem lookup_attributeFields_none {toSet : List (Text × StoredAttribute StoredMetadata)}
    {key : Text} (h : key ∉ toSet.map Prod.fst) : (attributeFields toSet).lookup key = none := by
  rw [← attributeFields_keys] at h
  rw [lookup_eq_none_iff]
  intro f hf
  have hne : key ≠ f.1 := fun heq => h (heq ▸ mem_map_of_mem hf)
  simpa using hne

theorem Copied.fresh (h : Copied opts d r seen o) (hname : IsName ca.name)
    (hnames : ∀ c ∈ seen, IsName c.name) (hnew : ca.name ∉ seen.map ContextAttribute.name) :
    effectiveName ca ∉ o.update.toSet.map Prod.fst := by
  intro hmem
  obtain ⟨c, hc, heq⟩ := h.keys _ hmem
  refine hnew (mem_map.mpr ⟨c, hc, ?_⟩)
  rw [← shownName_effectiveName hname, heq, shownName_effectiveName (hnames c hc)]

theorem shown_of_settled (hstored : StoredOnce opts d) (hone : OnePerName d r)
    (hca : ca ∈ given d r) (hname : IsName ca.name) (hs : Settled opts d r ca set actionType)
    (hc : Copied opts d r seen o) (hnew : ca.name ∉ seen.map ContextAttribute.name)
    {a : NotifyAttribute} (ha : a ∈ updateAttrInNotifyCer opts.env (r.apiVersion == .v2)
      actionType ca o.notifyCer) (hsame : a.name = ca.name) :
    ∃ field, ((set.map AttrsField.attribute).or
        (if r.action = .replace then none else d.attrs.lookup (effectiveName ca))) = some field ∧
      SameShown r.apiVersion a (storedAttribute (effectiveName ca)
        (field.asAttribute opts.env)) := by
  rcases updated_or_new (hc.single ca hca) ha hsame with ⟨b, hb, hbname, rfl⟩ | ⟨hall, rfl⟩
  · obtain ⟨key, field, hlookup, rfl⟩ := (mem_contextElementResponse hstored.attrs).mp
      ((hc.others b (hbname ▸ hnew)).mp hb)
    have hkey := hone.single key (mem_keysOf.mpr (isSome_of_eq_some hlookup)) ca hca hbname
    rw [hkey] at hlookup ⊢
    unfold Settled at hs
    rw [hlookup] at hs
    cases set with
    | some a => exact ⟨.attribute a, rfl, hs⟩
    | none => exact ⟨field, by rw [if_neg hs.1, hlookup]; rfl, hs.2⟩
  · have hnone : d.attrs.lookup (effectiveName ca) = none := by
      by_contra hsome
      obtain ⟨field, hlookup⟩ := ne_none_iff_exists'.mp hsome
      have hmem : storedAttribute (effectiveName ca) (field.asAttribute opts.env) ∈
          o.notifyCer := by
        refine (hc.others _ ?_).mpr ((mem_contextElementResponse hstored.attrs).mpr
          ⟨_, field, hlookup, rfl⟩)
        change shownName (effectiveName ca) ∉ _
        rwa [shownName_effectiveName hname]
      exact hall _ hmem (shownName_effectiveName hname)
    unfold Settled at hs
    rw [hnone] at hs
    cases set with
    | some a => exact ⟨.attribute a, rfl, hs⟩
    | none => exact hs.elim

theorem copied_step (hstored : StoredOnce opts d) (hone : OnePerName d r)
    (hnames : ∀ c ∈ given d r, IsName c.name) (hseen : ∀ c ∈ seen, c ∈ given d r)
    (hca : ca ∈ given d r) (hnew : ca.name ∉ seen.map ContextAttribute.name)
    (hc : Copied opts d r seen o) (hm : Makes opts r ca set actionType o o')
    (hs : Settled opts d r ca set actionType) : Copied opts d r (seen ++ [ca]) o' := by
  have hname := hnames ca hca
  have hfresh := hc.fresh hname (fun c hc => hnames c (hseen c hc)) hnew
  have hunset : o'.update.toUnset = [] := hm.toUnset.trans hc.toUnset
  have hkeys : o'.update.toSet.map Prod.fst =
      o.update.toSet.map Prod.fst ++ (set.map fun _ => effectiveName ca).toList := by
    rw [hm.toSet, map_append]
    cases set <;> rfl
  have honce : (o'.update.toSet.map Prod.fst).Nodup := by
    rw [hkeys]
    cases set with
    | none => exact (append_nil _).symm ▸ hc.once
    | some a => exact hc.once.append (nodup_singleton _) (by simpa using hfresh)
  have hlookup (key : Text) : (storedAfter d r o'.update).lookup key =
      (((attributeFields o.update.toSet).lookup key).or
        ((set.map fun a => (effectiveName ca, AttrsField.attribute a)).toList.lookup key)).or
          (if r.action = .replace then none else d.attrs.lookup key) := by
    rw [lookup_storedAfter hunset honce, hm.toSet, attributeFields_append, lookup_append]
  have hmodified : ∀ name ∈ o'.modifiedAttrs, ∃ c ∈ seen ++ [ca], c.name = name ∧
      effectiveName c ∈ o'.update.toSet.map Prod.fst := by
    intro name hname
    rw [hm.modified] at hname
    have hold : name ∈ o.modifiedAttrs → ∃ c ∈ seen ++ [ca], c.name = name ∧
        effectiveName c ∈ o'.update.toSet.map Prod.fst := by
      intro hname
      obtain ⟨c, hc, hcname, hkey⟩ := hc.modified name hname
      exact ⟨c, mem_append_left _ hc, hcname, hkeys ▸ mem_append_left _ hkey⟩
    cases set with
    | none => exact hold hname
    | some a =>
      rcases mem_append.mp hname with hname | hname
      · exact hold hname
      refine ⟨ca, mem_append_right _ mem_cons_self, (mem_singleton.mp hname).symm, ?_⟩
      exact hkeys ▸ mem_append_right _ mem_cons_self
  refine ⟨hunset, fun key hkey => ?_, honce, fun a ha hmem => ?_, fun a hother => ?_,
    fun c hcmem => ?_, hmodified⟩
  · rw [hkeys] at hkey
    rcases mem_append.mp hkey with hkey | hkey
    · obtain ⟨c, hcmem, heq⟩ := hc.keys key hkey
      exact ⟨c, mem_append_left _ hcmem, heq⟩
    cases set with
    | none => cases hkey
    | some a => exact ⟨ca, mem_append_right _ mem_cons_self, mem_singleton.mp hkey⟩
  · rw [hm.notifyCer] at ha
    by_cases hsame : a.name = ca.name
    · obtain ⟨field, hfield, hshown⟩ := shown_of_settled hstored hone hca hname hs hc hnew ha hsame
      refine ⟨effectiveName ca, field, ?_, hshown⟩
      rw [hlookup, lookup_attributeFields_none hfresh, none_or, ← hfield]
      cases set with
      | none => rfl
      | some a => rw [map_some, toList_some, lookup_cons_self]; rfl
    · rw [mem_of_other hsame] at ha
      rw [map_append, mem_append, map_singleton, mem_singleton] at hmem
      obtain ⟨key, field, hfield, hshown⟩ := hc.shown a ha (hmem.resolve_right hsame)
      refine ⟨key, field, ?_, hshown⟩
      have hne : key ≠ effectiveName ca := by
        rintro rfl
        exact hsame (hshown.name.symm.symm.trans (shownName_effectiveName hname))
      rw [lookup_storedAfter hc.toUnset hc.once] at hfield
      rw [hlookup, ← hfield]
      cases set with
      | none => rw [map_none, toList_none, lookup_nil, or_none]
      | some a =>
        rw [map_some, toList_some, lookup_cons, beq_false_of_ne hne, lookup_nil, or_none]
  · rw [map_append, mem_append, not_or, map_singleton, mem_singleton] at hother
    rw [hm.notifyCer, mem_of_other hother.2]
    exact hc.others a hother.1
  · rw [hm.notifyCer]
    exact single_updated (hc.single c hcmem)

end

section

variable {opts : Options} {d : EntityDoc StoredMetadata} {r : Request} {ca : ContextAttribute}
  {o o' : Outputs} {u : Update StoredMetadata} {isReplace noOverwrite : Bool}

def setByUpdate (opts : Options) (v : ApiVersion) (d : EntityDoc StoredMetadata)
    (ca : ContextAttribute) (isReplace : Bool) : Option (StoredAttribute StoredMetadata) :=
  if isReplace then some (createdAttribute opts.env v ca)
  else (d.attrs.lookup (effectiveName ca)).bind fun field =>
    mergeAttrInfo opts.env v (field.asAttribute opts.env) ca

variable (opts d ca isReplace) in
theorem updateAttribute_sets (v : ApiVersion) (u : Update StoredMetadata) :
    (updateAttribute opts.env v d ca isReplace u).1.toSet = u.toSet ++
        ((setByUpdate opts v d ca isReplace).map fun a => (effectiveName ca, a)).toList ∧
      (updateAttribute opts.env v d ca isReplace u).1.toUnset = u.toUnset ∧
      actualUpdate opts.env v d ca isReplace = (setByUpdate opts v d ca isReplace).isSome := by
  unfold updateAttribute setByUpdate actualUpdate
  cases isReplace with
  | true => exact ⟨rfl, rfl, rfl⟩
  | false =>
    cases d.attrs.lookup (effectiveName ca) with
    | none => exact ⟨(append_nil _).symm, rfl, rfl⟩
    | some field =>
      rw [if_neg Bool.false_ne_true, if_neg Bool.false_ne_true, bind_some]
      dsimp only
      rw [any_some, Bool.false_or]
      cases mergeAttrInfo opts.env v (field.asAttribute opts.env) ca with
      | none => exact ⟨(append_nil _).symm, rfl, rfl⟩
      | some a => exact ⟨rfl, rfl, rfl⟩

theorem updateItem_makes (h : updateItem opts.env r.apiVersion d isReplace ca o = (o', none)) :
    Makes opts r ca (setByUpdate opts r.apiVersion d ca isReplace) "update" o o' := by
  obtain ⟨hset, hunset, hactual⟩ := updateAttribute_sets opts d ca isReplace r.apiVersion o.update
  unfold updateItem at h
  split at h
  · cases h
  rename_i u hok
  obtain ⟨loc, _, hok⟩ := bind_ok hok
  obtain ⟨date, _, hok⟩ := bind_ok hok
  cases hok
  obtain rfl := (Prod.mk.inj h).1
  exact ⟨hset, hunset, rfl, by rw [← hactual]⟩

def setByAppend (opts : Options) (v : ApiVersion) (d : EntityDoc StoredMetadata)
    (ca : ContextAttribute) : Option (StoredAttribute StoredMetadata) :=
  if (d.attrs.lookup (effectiveName ca)).isSome then setByUpdate opts v d ca false
  else some (appendedAttribute opts.env v ca)

def appendAction (d : EntityDoc StoredMetadata) (ca : ContextAttribute) : String :=
  if (d.attrs.lookup (effectiveName ca)).isSome then "update" else "append"

theorem appendContextAttributeItem_sets {v : ApiVersion} {u' : Update StoredMetadata}
    (h : appendContextAttributeItem opts.env v d noOverwrite u ca = .ok u') :
    u'.toSet = (appendAttribute opts.env v d noOverwrite ca u).1.toSet ∧
      u'.toUnset = (appendAttribute opts.env v d noOverwrite ca u).1.toUnset := by
  unfold appendContextAttributeItem at h
  split at h
  · cases h
  obtain ⟨loc, _, h⟩ := bind_ok h
  obtain ⟨date, _, h⟩ := bind_ok h
  cases h
  exact ⟨rfl, rfl⟩

theorem appendItem_makes
    (hover : (d.attrs.lookup (effectiveName ca)).isSome = true → noOverwrite = false)
    (h : appendItem opts.env r.apiVersion d noOverwrite ca o = (o', none)) :
    Makes opts r ca (setByAppend opts r.apiVersion d ca) (appendAction d ca) o o' := by
  obtain ⟨hset, hunset, hactual⟩ := updateAttribute_sets opts d ca false r.apiVersion o.update
  unfold appendItem at h
  split at h
  · cases h
  dsimp only at h
  split at h
  · cases h
  rename_i u hok
  obtain ⟨htoSet, htoUnset⟩ := appendContextAttributeItem_sets hok
  obtain rfl := (Prod.mk.inj h).1
  unfold setByAppend appendAction
  by_cases hstored : (d.attrs.lookup (effectiveName ca)).isSome = true
  · have happend : appendAttribute opts.env r.apiVersion d noOverwrite ca o.update =
        ((updateAttribute opts.env r.apiVersion d ca false o.update).1, false) := by
      unfold appendAttribute
      rw [if_pos hstored, hover hstored, if_neg Bool.false_ne_true]
    have hupdates : actualAppendUpdate opts.env r.apiVersion d noOverwrite ca =
        (setByUpdate opts r.apiVersion d ca false).isSome := by
      unfold actualAppendUpdate
      rw [if_pos hstored, hover hstored, Bool.false_or, hactual]
    rw [happend] at htoSet htoUnset
    rw [if_pos hstored, if_pos hstored, happend, hupdates]
    exact ⟨htoSet.trans hset, htoUnset.trans hunset, rfl, rfl⟩
  · have happend : appendAttribute opts.env r.apiVersion d noOverwrite ca o.update =
        ({ o.update with
            toSet := o.update.toSet ++
              [(effectiveName ca, appendedAttribute opts.env r.apiVersion ca)]
            toPush := o.update.toPush ++ [ca.name]
            entityModified := true }, true) := if_neg hstored
    have hupdates : actualAppendUpdate opts.env r.apiVersion d noOverwrite ca = true :=
      if_neg hstored
    rw [happend] at htoSet htoUnset
    rw [if_neg hstored, if_neg hstored, happend, hupdates]
    exact ⟨htoSet, htoUnset, rfl, rfl⟩

theorem settled_update {field : AttrsField StoredMetadata} (hname : IsName ca.name)
    (hstored : StoredOnce opts d) (haction : r.action ≠ .replace)
    (hlookup : d.attrs.lookup (effectiveName ca) = some field)
    (h : UpdateShown opts r.apiVersion (field.asAttribute opts.env) ca) :
    Settled opts d r ca (setByUpdate opts r.apiVersion d ca false) "update" := by
  unfold Settled setByUpdate
  rw [if_neg Bool.false_ne_true, hlookup, bind_some]
  cases hmerge : mergeAttrInfo opts.env r.apiVersion (field.asAttribute opts.env) ca with
  | some a => exact merged_shown hname h hmerge
  | none =>
    have honce := hstored.md (effectiveName ca, field) (mem_of_lookup hlookup)
    exact ⟨haction, unchanged_shown hname h honce hmerge⟩

theorem settled_append (hname : IsName ca.name) (hstored : StoredOnce opts d)
    (haction : r.action ≠ .replace)
    (hnew : d.attrs.lookup (effectiveName ca) = none →
      LegalMetadata r.apiVersion ca ∧ AsGiven opts r.apiVersion ca.type ca)
    (hold : ∀ field, d.attrs.lookup (effectiveName ca) = some field →
      UpdateShown opts r.apiVersion (field.asAttribute opts.env) ca) :
    Settled opts d r ca (setByAppend opts r.apiVersion d ca) (appendAction d ca) := by
  unfold setByAppend appendAction
  cases hlookup : d.attrs.lookup (effectiveName ca) with
  | some field =>
    exact settled_update hname hstored haction hlookup (hold field hlookup)
  | none =>
    unfold Settled
    rw [hlookup]
    obtain ⟨hlegal, hvalue⟩ := hnew hlookup
    exact created_shown hname hlegal hvalue

theorem appended_makes (hname : IsName ca.name) (hstored : StoredOnce opts d)
    (haction : r.action ≠ .replace)
    (hnew : d.attrs.lookup (effectiveName ca) = none →
      LegalMetadata r.apiVersion ca ∧ AsGiven opts r.apiVersion ca.type ca)
    (hold : ∀ field, d.attrs.lookup (effectiveName ca) = some field →
      r.noOverwrite = false ∧ UpdateShown opts r.apiVersion (field.asAttribute opts.env) ca)
    (h : appendItem opts.env r.apiVersion d r.noOverwrite ca o = (o', none)) :
    ∃ set actionType, Makes opts r ca set actionType o o' ∧ Settled opts d r ca set actionType := by
  refine ⟨_, _, appendItem_makes (fun hsome => ?_) h,
    settled_append hname hstored haction hnew fun field hfield => (hold field hfield).2⟩
  obtain ⟨field, hfield⟩ := isSome_iff_exists.mp hsome
  exact (hold field hfield).1

theorem attributeItem_makes (hname : IsName ca.name) (hstored : StoredOnce opts d)
    (hdelete : r.action ≠ .delete) (halike : ShownAlike opts d r ca)
    (h : attributeItem opts.env d r ca o = (o', none)) :
    ∃ set actionType, Makes opts r ca set actionType o o' ∧ Settled opts d r ca set actionType := by
  unfold attributeItem at h
  unfold ShownAlike at halike
  cases haction : r.action with
  | update =>
    rw [haction] at h halike
    cases hlookup : d.attrs.lookup (effectiveName ca) with
    | none =>
      rw [hlookup] at halike
      exact halike.elim
    | some field =>
      rw [hlookup] at halike
      exact ⟨_, _, updateItem_makes h, settled_update hname hstored (by rw [haction]; nofun)
        hlookup halike⟩
  | append | appendStrict =>
    rw [haction] at h halike
    refine appended_makes hname hstored (by rw [haction]; nofun) (fun hnone => ?_)
      (fun field hsome => ?_) h
    · rwa [hnone] at halike
    · rwa [hsome] at halike
  | replace =>
    rw [haction] at h halike
    refine ⟨_, _, updateItem_makes h, ?_⟩
    unfold Settled setByUpdate
    cases hlookup : d.attrs.lookup (effectiveName ca) with
    | none =>
      rw [hlookup] at halike
      exact created_shown hname halike.1 halike.2
    | some field =>
      rw [hlookup] at halike
      exact replacement_shown hname halike
  | delete => exact absurd haction hdelete

end

variable {opts : Options} {d : EntityDoc StoredMetadata} {r : Request} {ca : ContextAttribute}
  {o o' : Outputs} {seen caV : List ContextAttribute}

theorem outputs_rule (P : List ContextAttribute → Outputs → Prop) (whole : List ContextAttribute)
    (hitem : ∀ before ca rest o o', whole = before ++ ca :: rest → P before o →
      attributeItem opts.env d r ca o = (o', none) → P (before ++ [ca]) o')
    (hsplit : whole = seen ++ caV) (hstart : P seen o)
    (h : attributeItems opts.env d r caV o = (o', none)) : P whole o' := by
  induction caV generalizing seen o with
  | nil =>
    obtain rfl := (Prod.mk.inj h).1
    rwa [hsplit, append_nil]
  | cons ca caV ih =>
    unfold attributeItems at h
    split at h
    · cases h
    rename_i o₁ h₁
    refine ih ?_ (hitem seen ca caV o o₁ hsplit hstart h₁) h
    rw [hsplit, append_assoc]
    rfl

theorem noOutputs_copied (hstored : StoredOnce opts d) (hone : OnePerName d r) :
    Copied opts d r [] (noOutputs opts.env d) := by
  refine ⟨rfl, nofun, nodup_nil, nofun, fun a _ => Iff.rfl, fun ca hca => ?_, nofun⟩
  exact single_stored hstored.attrs fun key hkey => hone.single key hkey ca hca

theorem copied_all (hstored : StoredOnce opts d) (hdelete : r.action ≠ .delete)
    (hf : Faithful opts d r) (h : processAttributes opts.env d r = (o, none)) :
    Copied opts d r (given d r) o := by
  have hone := hf.alone hdelete
  refine outputs_rule (Copied opts d r) (given d r) ?_ rfl (noOutputs_copied hstored hone) h
  intro before ca rest o o' hsplit hc hitem
  have hca : ca ∈ given d r := hsplit ▸ mem_append_right _ mem_cons_self
  have hseen : ∀ c ∈ before, c ∈ given d r := fun c hc => hsplit ▸ mem_append_left _ hc
  have hnew : ca.name ∉ before.map ContextAttribute.name := by
    intro hmem
    have honce := hone.once
    rw [hsplit, map_append] at honce
    exact (nodup_append.mp honce).2.2 _ hmem _ mem_cons_self rfl
  obtain ⟨set, actionType, hm, hs⟩ :=
    attributeItem_makes (hf.names ca hca) hstored hdelete (hf.alike ca hca) hitem
  exact copied_step hstored hone hf.names hseen hca hnew hc hm hs

theorem Copied.shows (hstored : StoredOnce opts d) (hf : Faithful opts d r)
    (hc : Copied opts d r (given d r) o) :
    ShowsWhatIsStored opts.env d r o := by
  refine ⟨fun a ha _ => ?_, fun name hname => ?_⟩
  · by_cases hgiven : a.name ∈ (given d r).map ContextAttribute.name
    · exact hc.shown a ha hgiven
    obtain ⟨key, field, hlookup, rfl⟩ := (mem_contextElementResponse hstored.attrs).mp
      ((hc.others a hgiven).mp ha)
    have hother : ∀ ca ∈ given d r, key ≠ effectiveName ca := by
      rintro ca hca rfl
      refine hgiven (mem_map.mpr ⟨ca, hca, ?_⟩)
      exact (shownName_effectiveName (hf.names ca hca)).symm
    refine ⟨key, field, ?_, SameShown.refl _ _⟩
    have hnot : key ∉ o.update.toSet.map Prod.fst := by
      intro hmem
      obtain ⟨ca, hca, heq⟩ := hc.keys key hmem
      exact hother ca hca heq
    have hreplace : r.action ≠ .replace := by
      intro haction
      obtain ⟨ca, hca, heq⟩ := hf.all haction key (mem_keysOf.mpr (isSome_of_eq_some hlookup))
      exact hother ca hca heq
    rw [lookup_storedAfter hc.toUnset hc.once, lookup_attributeFields_none hnot, if_neg hreplace]
    exact hlookup
  · obtain ⟨ca, hca, hcname, hkey⟩ := hc.modified name hname
    exact ⟨ca, hca, hcname, mem_append_left _ hkey⟩

structure Unmarked (opts : Options) (d : EntityDoc StoredMetadata) (seen : List ContextAttribute)
    (o : Outputs) : Prop where
  toSet : o.update.toSet = []
  toUnset : o.update.toUnset = seen.map effectiveName
  copies : ∀ a ∈ o.notifyCer, a.skip = false →
    a ∈ contextElementResponse opts.env d ∧ a.name ∉ seen.map ContextAttribute.name
  modified : o.modifiedAttrs = seen.map ContextAttribute.name

theorem unmarked_step (hu : Unmarked opts d seen o)
    (h : deleteItem r.apiVersion d ca o = (o', none)) : Unmarked opts d (seen ++ [ca]) o' := by
  unfold deleteItem at h
  split at h
  · cases h
  split at h
  · cases h
  rename_i u hok
  obtain rfl := (Prod.mk.inj h).1
  unfold deleteContextAttributeItem at hok
  split at hok
  · cases hok
  split at hok
  · cases hok
  cases hok
  refine ⟨hu.toSet, ?_, fun a ha hskip => ?_, ?_⟩
  · rw [map_append, ← hu.toUnset]
    rfl
  · obtain ⟨b, hb, rfl⟩ := mem_map.mp ha
    split at hskip
    · cases hskip
    rename_i hother
    rw [if_neg hother]
    obtain ⟨hmem, hnew⟩ := hu.copies b hb hskip
    refine ⟨hmem, ?_⟩
    rw [map_append, mem_append, not_or, map_singleton, mem_singleton]
    exact ⟨hnew, hother⟩
  · rw [map_append, ← hu.modified]
    rfl

theorem deletion_shows (hstored : StoredOnce opts d) (haction : r.action = .delete)
    (hnames : ∀ ca ∈ given d r, IsName ca.name)
    (h : processAttributes opts.env d r = (o, none)) : ShowsWhatIsStored opts.env d r o := by
  have hstart : Unmarked opts d [] (noOutputs opts.env d) :=
    ⟨rfl, rfl, fun a ha _ => ⟨ha, not_mem_nil⟩, rfl⟩
  have hu : Unmarked opts d (given d r) o := by
    refine outputs_rule (Unmarked opts d) (given d r) ?_ rfl hstart h
    intro before ca rest o o' _ hu hitem
    unfold attributeItem at hitem
    rw [haction] at hitem
    exact unmarked_step hu hitem
  refine ⟨fun a ha hskip => ?_, fun name hname => ?_⟩
  · obtain ⟨hmem, hother⟩ := hu.copies a ha hskip
    obtain ⟨key, field, hlookup, rfl⟩ := (mem_contextElementResponse hstored.attrs).mp hmem
    refine ⟨key, field, ?_, SameShown.refl _ _⟩
    have hnot : key ∉ o.update.toUnset := by
      rw [hu.toUnset]
      intro hdeleted
      obtain ⟨ca, hca, rfl⟩ := mem_map.mp hdeleted
      refine hother (mem_map.mpr ⟨ca, hca, ?_⟩)
      exact (shownName_effectiveName (hnames ca hca)).symm
    unfold storedAfter
    rw [if_neg (haction ▸ ActionType.noConfusion), lookup_remove_of_notMem hnot, hu.toSet]
    exact hlookup
  · rw [hu.modified] at hname
    obtain ⟨ca, hca, rfl⟩ := mem_map.mp hname
    refine ⟨ca, hca, rfl, mem_append_right _ ?_⟩
    rw [hu.toUnset]
    exact mem_map_of_mem hca

def plain : Options := ⟨⟨fun _ => none, fun _ => none, false⟩, fun _ _ => true, false, false⟩

def unit : Metadata := ⟨"unit".toList, "Text".toList, .string "km/h".toList⟩

def speedOf (x : ℚ) (metadataVector : List Metadata) : ContextAttribute :=
  ⟨"speed".toList, "Number".toList, true, .number, [], x, false, none, metadataVector⟩

def brand : ContextAttribute :=
  ⟨"brand.name".toList, "Text".toList, true, .string, "Seat".toList, 0, false, none, []⟩

def parkedCar : EntityDoc StoredMetadata where
  attrs := [("speed".toList, .attribute ⟨some "Number".toList, some (.num 0), []⟩)]
  attrNames := ["speed".toList]
  location := none
  expDate := none

theorem parkedCar_once : StoredOnce plain parkedCar := by
  refine ⟨nodup_singleton _, fun f hf => ?_⟩
  obtain rfl := mem_singleton.mp hf
  exact nodup_nil

def drivesOff : Request := ⟨.v2, .append, false, [speedOf 80 [unit], brand]⟩

def keepsSpeed : Request := ⟨.v2, .append, true, [speedOf 80 []]⟩

end NotifyStored
