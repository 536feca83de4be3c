import OrionLd.FieldList
import OrionLd.KjTreeToContextAttribute

/-! Entities in the database, and the writes and the read of them that the NGSI-LD service routines
use. A field name of attrs is the attribute's long name with '=' for '.', while attrNames holds the
long names. Only the fields that are touched are modelled. -/
namespace MongoEntity

open MongoQuery (Bson)
open KjTree KjTreeToContextAttribute FieldList List

structure StoredMetadata where
  createdAt : Option ℚ
  modifiedAt : Option ℚ
  type : Text
  value : Bson

structure StoredAttribute where
  type : AttributeType
  value : Bson
  md : List (Text × StoredMetadata)
  mdNames : List Text
  creDate : ℚ
  modDate : ℚ

structure Entity where
  attrs : List (Text × StoredAttribute)
  attrNames : List Text
  datasets : Option (List (Text × List KjNode))

variable (env : Env)

def isNotCustomMetadata (name : Text) : Bool :=
  ["ID", "dateCreated", "dateModified"].any fun n => n.toList == name

def isSpecialSubAttribute (name : Text) : Bool :=
  ["createdAt", "modifiedAt", "observedAt", "datasetId", "instanceId", "unitCode"].any fun n =>
    n.toList == name

def appendMetadata (md : Metadata) : Text × StoredMetadata :=
  let stamp := if isSpecialSubAttribute md.name then none else some env.requestTime
  (dotForEq md.name, ⟨stamp, stamp, md.type, compoundValueBson md.value⟩)

def customMetadata (ca : ContextAttribute) : List Metadata :=
  ca.metadataVector.filter fun md => !isNotCustomMetadata md.name

def newAttribute (ca : ContextAttribute) : StoredAttribute where
  type := ca.type
  value := compoundValueBson ca.value
  md := (customMetadata ca).map (appendMetadata env)
  mdNames := (customMetadata ca).map Metadata.name
  creDate := env.requestTime
  modDate := env.requestTime

/-- mergeAttrInfo, for an attribute that the entity has: none when nothing changed. -/
abbrev MergeAttrInfo := StoredAttribute → ContextAttribute → Option StoredAttribute

def appendAttribute (merge : MergeAttrInfo) (noOverwrite : Bool)
    (attrs : List (Text × StoredAttribute)) (ca : ContextAttribute) :
    Option (Text × StoredAttribute) :=
  match attrs.lookup (dotForEq ca.name) with
  | none => some (dotForEq ca.name, newAttribute env ca)
  | some old =>
    if noOverwrite then none else (merge old ca).map fun a => (dotForEq ca.name, a)

/-- mongoUpdateContext with ActionTypeAppend, for an entity that exists. -/
def mongoUpdateContextAppend (merge : MergeAttrInfo) (noOverwrite : Bool) (e : Entity)
    (cas : List ContextAttribute) : Entity where
  attrs := putAll (cas.filterMap (appendAttribute env merge noOverwrite e.attrs)) e.attrs
  attrNames := e.attrNames ++
    ((cas.filter fun ca => (e.attrs.lookup (dotForEq ca.name)).isNone).map
      ContextAttribute.name).filter (!e.attrNames.contains ·)
  datasets := e.datasets

/-- Names with '=' for '.', as in attrs. -/
def dbEntityAttributesDelete (e : Entity) (attrNameV : List Text) : Entity where
  attrs := remove attrNameV e.attrs
  attrNames := e.attrNames.filter fun n => !(attrNameV.map eqForDot).contains n
  datasets := e.datasets

variable {env : Env} {merge : MergeAttrInfo} {noOverwrite : Bool} {e : Entity}
  {cas : List ContextAttribute} {x : Text}

theorem appendAttribute_key {attrs : List (Text × StoredAttribute)} {ca : ContextAttribute}
    {f : Text × StoredAttribute} (h : appendAttribute env merge noOverwrite attrs ca = some f) :
    f.1 = dotForEq ca.name := by
  unfold appendAttribute at h
  split at h
  · rw [← Option.some.inj h]
  split at h
  · exact absurd h (by simp)
  · obtain ⟨a, -, rfl⟩ := Option.map_eq_some_iff.mp h
    rfl

theorem lookup_append_of_notMem (h : x ∉ cas.map fun ca => dotForEq ca.name) :
    (mongoUpdateContextAppend env merge noOverwrite e cas).attrs.lookup x = e.attrs.lookup x := by
  apply lookup_putAll_of_notMem
  intro hx
  obtain ⟨f, hf, rfl⟩ := mem_map.mp hx
  obtain ⟨ca, hca, hset⟩ := mem_filterMap.mp hf
  exact h (mem_map.mpr ⟨ca, hca, (appendAttribute_key hset).symm⟩)

theorem filterMap_map_sublist {α β γ : Type} {f : α → Option β} {g : β → γ} {h : α → γ}
    (hf : ∀ a b, f a = some b → g b = h a) (l : List α) :
    ((l.filterMap f).map g).Sublist (l.map h) := by
  induction l with
  | nil => simp
  | cons a l ih =>
    rw [filterMap_cons, map_cons]
    cases hfa : f a with
    | none => exact ih.cons _
    | some b =>
      rw [map_cons, hf a b hfa]
      exact ih.cons_cons _

theorem append_perm {cas' : List ContextAttribute} (h : cas.Perm cas')
    (hn : (cas.map fun ca => dotForEq ca.name).Nodup) :
    (∀ x, (mongoUpdateContextAppend env merge noOverwrite e cas).attrs.lookup x =
        (mongoUpdateContextAppend env merge noOverwrite e cas').attrs.lookup x) ∧
      ∀ x, x ∈ (mongoUpdateContextAppend env merge noOverwrite e cas).attrNames ↔
        x ∈ (mongoUpdateContextAppend env merge noOverwrite e cas').attrNames := by
  constructor
  · intro x
    refine lookup_putAll_perm (h.filterMap _) ?_ fun _ => rfl
    refine (filterMap_map_sublist ?_ _).nodup hn
    intro ca f hf
    exact appendAttribute_key hf
  · intro x
    exact (List.Perm.append_left _ (((h.filter _).map _).filter _)).mem_iff

theorem delete_congr {names names' : List Text} (h : ∀ x, x ∈ names ↔ x ∈ names') :
    dbEntityAttributesDelete e names = dbEntityAttributesDelete e names' := by
  unfold dbEntityAttributesDelete
  rw [remove_congr h]
  congr 1
  apply filter_congr
  intro n _
  have hmem : n ∈ names.map eqForDot ↔ n ∈ names'.map eqForDot := by
    simp only [mem_map, h]
  have hc : (names.map eqForDot).contains n = (names'.map eqForDot).contains n := by
    rw [Bool.eq_iff_iff, contains_iff_mem, contains_iff_mem]
    exact hmem
  rw [hc]

end MongoEntity
