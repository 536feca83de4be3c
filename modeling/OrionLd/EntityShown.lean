import OrionLd.EntityAttributesShown

/-! One entity in both answers: they are the same JSON value when the entity has a type and
each attribute is shown alike, and where the members have names of their own only then. -/
namespace EntityShown

open KjTree OrionldContextItem MongoCppLegacyCodec RegistrationDocument EntityDocument
open MongoCppLegacyEntityRetrieve KjTreeFromQueryContextResponse SameJson EntityValues
open EntityAttributes EntityAttributesShown Fallible List

variable {α β : Type} {f : α → Option β}

theorem mapM_perm {xs xs' : List α} {ys : List β} (hperm : xs.Perm xs')
    (h : xs.mapM f = some ys) : ∃ ys', xs'.mapM f = some ys' ∧ ys.Perm ys' := by
  obtain ⟨ys', hall, hys⟩ := perm_comp_forall₂ hperm.symm (mapM_eq_some.mp h)
  exact ⟨ys', mapM_eq_some.mpr hall, hys.symm⟩

variable {env : DateEnv} {o : Options}

def attrsTree (e : StoredEntity) : Members :=
  e.attrs.map fun a => (a.1, .object (attributeTree a.2))

theorem attrsDoc_tree (e : StoredEntity) : objectToKjTree (attrsDoc e.attrs) = attrsTree e := by
  unfold attrsDoc attrsTree
  induction e.attrs with
  | nil => rfl
  | cons a attrs ih =>
    rw [map_cons, map_cons, objectToKjTree, ih]
    rfl

def entityMembers (env : DateEnv) (o : Options) (e : StoredEntity) : Members :=
  [("id".toList, .string e.id),
    ("type".toList, .string (orionldContextItemAliasLookup env.toContexts e.type))] ++
    orionldSysAttrs env o e.creDate e.modDate

variable (env) (o) in
theorem retrieve_eq (e : StoredEntity) :
    mongoCppLegacyEntityRetrieve env o e =
      ((attrsTree e).mapM (attributeFix env o)).map fun attrTree =>
        entityMembers env o e ++ attrTree := by
  rw [← attrsDoc_tree]
  obtain ⟨keyValues, sysAttrs⟩ := o
  cases sysAttrs
  all_goals
    change Option.bind ((objectToKjTree (attrsDoc e.attrs)).mapM _) _ = _
    cases (objectToKjTree (attrsDoc e.attrs)).mapM (attributeFix env _) <;> rfl

def responseAttributes (e : StoredEntity) : Option (List ContextAttribute) :=
  e.attrs.mapM fun a => contextAttribute a.1 (attributeDoc a.2)

theorem attrsDoc_names (e : StoredEntity) : ((attrsDoc e.attrs).map Prod.fst).Nodup := by
  unfold attrsDoc
  rw [map_map]
  exact e.attrsOnce

variable {e : StoredEntity}

theorem getObjectField_attrsDoc {a : Text × StoredAttribute} (ha : a ∈ e.attrs) :
    getObjectField (attrsDoc e.attrs) a.1 = attributeDoc a.2 := by
  have hlookup : (attrsDoc e.attrs).lookup a.1 = some (.object (attributeDoc a.2)) := by
    apply FieldList.lookup_of_mem (attrsDoc_names e)
    exact mem_map_of_mem ha
  unfold getObjectField
  rw [hlookup]

theorem contextElementResponse_eq (e : StoredEntity) :
    contextElementResponse (entityDoc e) =
      ((OrderedMap.assignAll (attrsDoc e.attrs)).mapM fun attr =>
        contextAttribute attr.1 (getObjectField (attrsDoc e.attrs) attr.1)).map fun vector =>
          ⟨e.id, e.type, e.creDate, e.modDate, vector⟩ := by
  change Option.bind ((OrderedMap.assignAll (attrsDoc e.attrs)).mapM fun attr =>
    contextAttribute attr.1 (getObjectField (attrsDoc e.attrs) attr.1)) _ = _
  cases (OrderedMap.assignAll (attrsDoc e.attrs)).mapM fun attr =>
    contextAttribute attr.1 (getObjectField (attrsDoc e.attrs) attr.1) <;> rfl

variable {attrs : List (Text × StoredAttribute)} {ce : ContextElement}
variable {attributes cas : List ContextAttribute}

theorem attrsDoc_mapM {doc : Fields} (h : ∀ a ∈ attrs, getObjectField doc a.1 = attributeDoc a.2) :
    ((attrsDoc attrs).mapM fun attr => contextAttribute attr.1 (getObjectField doc attr.1)) =
      attrs.mapM fun a => contextAttribute a.1 (attributeDoc a.2) := by
  induction attrs with
  | nil => rfl
  | cons a attrs ih =>
    have hrest := ih fun a' ha' => h a' (mem_cons_of_mem a ha')
    unfold attrsDoc at hrest ⊢
    rw [map_cons, mapM_cons, mapM_cons, hrest, h a mem_cons_self]

/-- What the response holds of the document, with its attributes in some order. -/
structure Holds (ce : ContextElement) (e : StoredEntity) (attributes : List ContextAttribute) :
    Prop where
  id : ce.id = e.id
  type : ce.type = e.type
  creDate : ce.creDate = e.creDate
  modDate : ce.modDate = e.modDate
  perm : ce.contextAttributeVector.Perm attributes

theorem holds_of_response (h : contextElementResponse (entityDoc e) = some ce) :
    ∃ attributes, responseAttributes e = some attributes ∧ Holds ce e attributes := by
  rw [contextElementResponse_eq] at h
  obtain ⟨vector, hvector, rfl⟩ := Option.map_eq_some_iff.mp h
  obtain ⟨attributes, hattributes, hperm⟩ :=
    mapM_perm (OrderedMap.assignAll_perm (attrsDoc_names e)) hvector
  rw [attrsDoc_mapM fun a ha => getObjectField_attrsDoc ha] at hattributes
  exact ⟨attributes, hattributes, rfl, rfl, rfl, rfl, hperm⟩

theorem response_of_attributes (h : responseAttributes e = some attributes) :
    ∃ ce, contextElementResponse (entityDoc e) = some ce ∧ Holds ce e attributes := by
  unfold responseAttributes at h
  rw [← attrsDoc_mapM fun a ha => getObjectField_attrsDoc ha] at h
  obtain ⟨vector, hvector, hperm⟩ :=
    mapM_perm (OrderedMap.assignAll_perm (attrsDoc_names e)).symm h
  refine ⟨⟨e.id, e.type, e.creDate, e.modDate, vector⟩, ?_, rfl, rfl, rfl, rfl, hperm.symm⟩
  rw [contextElementResponse_eq, hvector]
  rfl

theorem listed_perm (h : Holds ce e attributes) (htype : e.type ≠ []) :
    (kjTreeFromQueryContextResponse env o ce).Perm
      (entityMembers env o e ++ attributes.map (attributeNode env o)) := by
  unfold kjTreeFromQueryContextResponse entityMembers
  rw [h.id, h.type, h.creDate, h.modDate, if_pos htype]
  exact List.Perm.append_left _ (h.perm.map (attributeNode env o))

def EntityShownAlike (env : DateEnv) (o : Options) (e : StoredEntity) : Prop :=
  ∃ r ce, mongoCppLegacyEntityRetrieve env o e = some r ∧
    contextElementResponse (entityDoc e) = some ce ∧
    Same (.object r) (.object (kjTreeFromQueryContextResponse env o ce))

/-- The entity has a type, and its attributes have one name in both answers and are shown
alike under it. -/
structure EntityAlike (env : DateEnv) (o : Options) (e : StoredEntity) : Prop where
  type : e.type ≠ []
  names : ∀ a ∈ e.attrs, NamesAgree env o a.1 a.2
  attributes : ∀ a ∈ e.attrs, AttributeAlike env o a.1 a.2

structure RegularEntity (env : DateEnv) (o : Options) (e : StoredEntity) : Prop where
  names : (["id".toList, "type".toList, "createdAt".toList, "modifiedAt".toList] ++
    e.attrs.map fun a => retrievedName env a.1).Nodup
  agree : ∀ a ∈ e.attrs, NamesAgree env o a.1 a.2
  once : ∀ a ∈ e.attrs, OneEach a.2.value
  regular : o.keyValues = false → ∀ a ∈ e.attrs, Regular env a.1 a.2

theorem attributes_shown (hnames : ∀ a ∈ attrs, NamesAgree env o a.1 a.2)
    (h : ∀ a ∈ attrs, ShownAlike env o a.1 a.2) :
    ∃ xs cas, (attrs.map fun a => (a.1, KjNode.object (attributeTree a.2))).mapM
        (attributeFix env o) = some xs ∧
      (attrs.mapM fun a => contextAttribute a.1 (attributeDoc a.2)) = some cas ∧
      List.Forall₂ (fun x z => x.1 = z.1 ∧ Same x.2 z.2) xs (cas.map (attributeNode env o)) := by
  induction attrs with
  | nil => exact ⟨[], [], rfl, rfl, .nil⟩
  | cons a attrs ih =>
    obtain ⟨xs, cas, hxs, hcas, hall⟩ := ih (fun a' ha' => hnames a' (mem_cons_of_mem a ha'))
      fun a' ha' => h a' (mem_cons_of_mem a ha')
    obtain ⟨x, ca, z, hfix, hca, hnode, hsame⟩ := h a mem_cons_self
    refine ⟨(retrievedName env a.1, x) :: xs, ca :: cas, ?_, ?_, ?_⟩
    · rw [map_cons, mapM_cons, hfix, hxs]
      rfl
    · rw [mapM_cons, hca, hcas]
      rfl
    · rw [map_cons, hnode]
      exact .cons ⟨(hnames a mem_cons_self).attrName, hsame⟩ hall

theorem entity_alike_shown (h : EntityAlike env o e) : EntityShownAlike env o e := by
  obtain ⟨xs, cas, hxs, hcas, hall⟩ := attributes_shown h.names fun a ha =>
    attribute_alike_same (h.names a ha) (h.attributes a ha)
  obtain ⟨ce, hce, hholds⟩ := response_of_attributes hcas
  refine ⟨entityMembers env o e ++ xs, ce, ?_, hce, ?_⟩
  · rw [retrieve_eq, attrsTree, hxs]
    rfl
  · refine same_object_iff.mpr (objectRel_perm_right (listed_perm hholds h.type).symm ?_)
    exact objectRel_append (objectRel_refl _) (objectRel_of_forall₂ hall)

theorem attributeFix_name {key : Text} {tree : Members} {x : Text × KjNode}
    (h : attributeFix env o (key, .object tree) = some x) : x.1 = retrievedName env key := by
  obtain ⟨attr, -, h⟩ := Option.bind_eq_some_iff.mp h
  obtain ⟨shown, -, h⟩ := Option.bind_eq_some_iff.mp h
  rw [← Option.some.inj h]
  unfold compactAttribute retrievedName
  split <;> rfl

theorem attributeNode_name {key : Text} {a : StoredAttribute} {ca : ContextAttribute}
    (h : contextAttribute key (attributeDoc a) = some ca) :
    (attributeNode env o ca).1 =
      orionldContextItemAliasLookup env.toContexts (listedName key) := by
  have heq := contextAttribute_eq key a
  rw [h] at heq
  obtain ⟨value, -, hca⟩ := Option.map_eq_some_iff.mp heq.symm
  rw [← hca]
  unfold attributeNode
  split <;> rfl

theorem listed_attribute (hreg : RegularEntity env o e) (hcas : responseAttributes e = some cas)
    {ca : ContextAttribute} (hca : ca ∈ cas) :
    ∃ a ∈ e.attrs, (attributeNode env o ca).1 = retrievedName env a.1 := by
  obtain ⟨a, ha, hfrom⟩ := forall₂_left (mapM_eq_some.mp hcas).flip hca
  exact ⟨a, ha, (attributeNode_name hfrom).trans (hreg.agree a ha).attrName.symm⟩

variable {xs : Members}

theorem typed_of_shown (hreg : RegularEntity env o e) (hcas : responseAttributes e = some cas)
    (hholds : Holds ce e cas) (hsame : ObjectRel Same (entityMembers env o e ++ xs)
    (kjTreeFromQueryContextResponse env o ce)) : e.type ≠ [] := by
  intro htype
  have hmem : "type".toList ∈ (entityMembers env o e ++ xs).map Prod.fst :=
    mem_cons_of_mem _ mem_cons_self
  rw [(objectRel_names hsame).mem_iff] at hmem
  unfold kjTreeFromQueryContextResponse orionldSysAttrs at hmem
  rw [hholds.type, htype] at hmem
  obtain ⟨⟨n, z⟩, hz, rfl⟩ := mem_map.mp hmem
  rcases mem_append.mp hz with hz | hz
  · have hnames : ∀ (x y w : KjNode), ("type".toList, z) ∉ [("id".toList, x),
        ("createdAt".toList, y), ("modifiedAt".toList, w)] := by
      intro x y w h
      simp only [mem_cons, Prod.mk.injEq, not_mem_nil, or_false] at h
      rcases h with h | h | h <;> exact absurd h.1 (by decide)
    cases hsys : o.sysAttrs with
    | true =>
      rw [hsys] at hz
      exact hnames _ _ _ hz
    | false =>
      rw [hsys] at hz
      have hname : "type".toList = "id".toList := congrArg Prod.fst (mem_singleton.mp hz)
      exact absurd hname (by decide)
  · obtain ⟨ca, hca, hnode⟩ := mem_map.mp hz
    obtain ⟨a, ha, hname⟩ := listed_attribute hreg hcas (hholds.perm.mem_iff.mp hca)
    rw [hnode] at hname
    have hdisjoint := disjoint_of_nodup_append hreg.names
    exact hdisjoint (by decide : "type".toList ∈ _) (mem_map.mpr ⟨a, ha, hname.symm⟩)

theorem retrieved_names (hxs : (attrsTree e).mapM (attributeFix env o) = some xs) :
    xs.map Prod.fst = e.attrs.map fun a => retrievedName env a.1 := by
  have hall := mapM_eq_some.mp hxs
  unfold attrsTree at hall
  rw [forall₂_map_left_iff] at hall
  clear hxs
  generalize e.attrs = attrs at hall ⊢
  induction hall with
  | nil => rfl
  | cons hfix _ ih => rw [map_cons, map_cons, attributeFix_name hfix, ih]

theorem answer_nodup (hreg : RegularEntity env o e)
    (hxs : (attrsTree e).mapM (attributeFix env o) = some xs) :
    ((entityMembers env o e ++ xs).map Prod.fst).Nodup := by
  rw [map_append, retrieved_names hxs]
  refine hreg.names.sublist (List.Sublist.append ?_ (List.Sublist.refl _))
  unfold entityMembers orionldSysAttrs
  cases o.sysAttrs with
  | true => exact List.Sublist.refl _
  | false => exact sublist_append_left ["id".toList, "type".toList] _

theorem entity_shown_alike (hreg : RegularEntity env o e) (h : EntityShownAlike env o e) :
    EntityAlike env o e := by
  obtain ⟨r, ce, hr, hce, hsame⟩ := h
  rw [retrieve_eq] at hr
  obtain ⟨xs, hxs, rfl⟩ := Option.map_eq_some_iff.mp hr
  obtain ⟨cas, hcas, hholds⟩ := holds_of_response hce
  rw [same_object_iff] at hsame
  have htype := typed_of_shown hreg hcas hholds hsame
  have hrel := objectRel_perm_right (listed_perm hholds htype) hsame
  refine ⟨htype, hreg.agree, fun a ha => ?_⟩
  refine attribute_same_alike (hreg.agree a ha) (hreg.once a ha)
    (fun hkey => hreg.regular hkey a ha) ?_
  obtain ⟨⟨n, x⟩, hx, hfix⟩ := forall₂_left (mapM_eq_some.mp hxs)
    (mem_map_of_mem (f := fun a => (a.1, KjNode.object (attributeTree a.2))) ha)
  obtain ⟨ca, hca, hfrom⟩ := forall₂_left (mapM_eq_some.mp hcas) ha
  obtain rfl : n = retrievedName env a.1 := attributeFix_name hfix
  have hnode : attributeNode env o ca = (retrievedName env a.1, (attributeNode env o ca).2) :=
    Prod.ext ((attributeNode_name hfrom).trans (hreg.agree a ha).attrName.symm) rfl
  refine ⟨x, ca, (attributeNode env o ca).2, hfix, hfrom, ?_, ?_⟩
  · rw [← (hreg.agree a ha).attrName]
    exact hnode
  · refine objectRel_value hrel (answer_nodup hreg hxs) (mem_append_right _ hx)
      (mem_append_right _ ?_)
    rw [← hnode]
    exact mem_map_of_mem hca

/-- Both answers show one entity alike when it has a type and its attributes meet the condition, and
where names are not repeated only then. -/
theorem entity_shown_alike_iff (env : DateEnv) (o : Options) (e : StoredEntity) :
    (EntityAlike env o e → EntityShownAlike env o e) ∧
    (RegularEntity env o e → (EntityShownAlike env o e ↔ EntityAlike env o e)) :=
  ⟨entity_alike_shown, fun hreg => ⟨entity_shown_alike hreg, entity_alike_shown⟩⟩

def sampleEntity (value : BsonValue) (md : List (Text × StoredMetadata))
    (once : (md.map Prod.fst).Nodup) : StoredEntity where
  id := "urn:E1".toList
  type := "https://uri.etsi.org/ngsi-ld/default-context/T".toList
  servicePath := "/".toList
  attrs := [("https://uri.etsi.org/ngsi-ld/default-context/P".toList,
    ⟨"Property".toList, value, md, [], 1, 1, once⟩)]
  creDate := 1
  modDate := 1
  attrsOnce := List.nodup_singleton _

def sampleEnv : DateEnv where
  core := []
  context := []
  defaultUrl := "https://uri.etsi.org/ngsi-ld/default-context/".toList
  parse8601Time := fun _ => none
  valueAsInteger := fun _ => 0
  integerAsDouble := fun i => i
  requestTime := 0
  strftime := fun _ => []

theorem observed_shown_alike : EntityShownAlike sampleEnv ⟨false, true⟩ (sampleEntity (.double 5)
    [("observedAt".toList, ⟨none, none, [], .double 7⟩)] (List.nodup_singleton _)) := by
  apply (entity_shown_alike_iff _ _ _).1
  have hattr : ∀ {P : Text × StoredAttribute → Prop} {m : Text × StoredAttribute}, P m →
      ∀ a ∈ [m], P a := fun h a ha => mem_singleton.mp ha ▸ h
  refine ⟨by decide, hattr ⟨by decide +kernel, fun _ m hm => ?_⟩, hattr ⟨trivial, fun _ => ?_⟩⟩
  · obtain rfl := mem_singleton.mp hm
    decide +kernel
  · refine ⟨by decide +kernel, by decide, fun h => absurd h (by decide +kernel), fun m hm => ?_⟩
    obtain rfl := mem_singleton.mp hm
    refine ⟨trivial, ?_⟩
    exact ⟨rfl, rfl, rfl, rfl⟩

/-- A createdAt inside the value of a property is taken for a date of the broker and removed. -/
theorem created_at_in_value_removed : ¬ ∀ (env : DateEnv) (o : Options) (e : StoredEntity),
    EntityShownAlike env o e := by
  intro h
  have hshown := h sampleEnv ⟨false, false⟩
    (sampleEntity (.object [("createdAt".toList, .double 1)]) [] nodup_nil)
  have hattr : ∀ {P : Text × StoredAttribute → Prop} {m : Text × StoredAttribute}, P m →
      ∀ a ∈ [m], P a := fun h a ha => mem_singleton.mp ha ▸ h
  have hone : OneEach (.object [("createdAt".toList, .double 1)]) :=
    ⟨nodup_singleton _, trivial, trivial⟩
  have halike := entity_shown_alike ⟨by decide +kernel,
    hattr ⟨by decide +kernel, fun _ m hm => by cases hm⟩, hattr hone,
    fun _ => hattr ⟨by decide +kernel, by decide +kernel, hone, fun m hm => (by cases hm),
      fun m hm => (by cases hm), fun m hm => (by cases hm)⟩⟩ hshown
  have hvalue := (halike.attributes _ mem_cons_self).1
  have hunknown := hvalue.2 "createdAt".toList (by decide) (.double 1) rfl
  cases hunknown

end EntityShown
