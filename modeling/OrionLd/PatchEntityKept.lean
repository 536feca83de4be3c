import OrionLd.AttributeReadBack
import OrionLd.OrionldPostEntity

/-! What PATCH /entities/*/attrs does to the attributes that the payload does not name. All are read
back and converted, so those that do not survive the conversion are missing from the replacing
entity, or are in it with another name, value or sub-attribute. -/
namespace PatchEntityKept

open Fallible KjTree OrionldContextItem KjTreeToContextAttribute MongoEntity
open OrionldPatchEntity
open AttributeReadBack List
open OrionldPostEntity (payloadMembers plainEnv storedName storedEntity propertyMembers)

variable (env : Env)

def Named (members : Members) (k : Text) : Prop :=
  ∃ m ∈ members, builtInReason m.1 = none ∧ dotForEq (longName env m.1) = k

/-- It has every attribute that the payload does not name, as stored, and no other that is not
stored. -/
structure OnlyNamedChange (e : Entity) (members : Members) (cas : List ContextAttribute) :
    Prop where
  kept : ∀ f ∈ e.attrs, ¬ Named env members f.1 → ∃ ca ∈ cas, SameAttribute ca f.1 f.2
  stored : ∀ ca ∈ cas, dotForEq ca.name ∈ e.attrs.map Prod.fst

def DistinctFields {α : Type} (fields : List (Text × α)) : Prop :=
  (fields.map Prod.fst).Nodup ∧ ∀ f ∈ fields, '.' ∉ f.1

/-- Field names of a document are distinct and have no dot. -/
structure Document (e : Entity) : Prop where
  attrs : DistinctFields e.attrs
  values : ∀ f ∈ e.attrs, Dotless f.2.value
  md : ∀ f ∈ e.attrs, DistinctFields f.2.md
  mdValues : ∀ f ∈ e.attrs, ∀ g ∈ f.2.md, Dotless g.2.value

/-- Under the context of the request, a name that has been expanded is not expanded further. -/
structure SettledNames (e : Entity) (members : Members) : Prop where
  stored : ∀ f ∈ e.attrs, renamed env (renamed env f.1) = renamed env f.1
  payload : ∀ k, Named env members k → renamed env k = k

structure AllSurvive (e : Entity) (members : Members) : Prop where
  names : ∀ f ∈ e.attrs, renamed env f.1 = f.1
  unnamed : ∀ f ∈ e.attrs, ¬ Named env members f.1 → Survives env f.1 f.2

variable {env : Env} {e : Entity} {members : Members}

/-- All stored attributes that no member names are there, and every other entry is a member that
names one. -/
structure Merged (env : Env) (e : Entity) (members : Members) (tree : Members) : Prop where
  unnamed : ∀ f ∈ e.attrs, ¬ Named env members f.1 → (f.1, attributeTree f.2) ∈ tree
  entries : ∀ m ∈ tree, (∃ f ∈ e.attrs, m = (f.1, attributeTree f.2)) ∨
    (Named env members (dotForEq m.1) ∧ dotForEq m.1 ∈ e.attrs.map Prod.fst)

variable {tree : Members} {m : Text × KjNode}

theorem mem_kjChildRemove {name : Text} (hm : m ∈ tree) (hne : m.1 ≠ name) :
    m ∈ kjChildRemove tree name := by
  refine (mem_eraseP_of_neg ?_).mpr hm
  simpa using hne

theorem mem_of_lookup {name : Text} {node : KjNode} (h : tree.lookup name = some node) :
    (name, node) ∈ tree := by
  obtain ⟨l₁, l₂, rfl, -⟩ := lookup_eq_some_iff.mp h
  simp

theorem Merged.key (h : Merged env e members tree) (hd : DistinctFields e.attrs) (hm : m ∈ tree) :
    dotForEq m.1 ∈ e.attrs.map Prod.fst := by
  rcases h.entries m hm with ⟨f, hf, rfl⟩ | ⟨-, hkey⟩
  · rw [dotForEq_of_dotless (hd.2 f hf)]
    exact mem_map_of_mem hf
  · exact hkey

theorem mergeMember_merged {s : PatchState} (hd : DistinctFields e.attrs) (hm : m ∈ members)
    (h : Merged env e members s.inDbAttrs) :
    Merged env e members (mergeMember env s m).inDbAttrs := by
  unfold mergeMember
  split
  · exact h
  rename_i hname
  split
  · exact h
  simp only
  split
  · exact h
  rename_i hfound
  have hnamed : Named env members (dotForEq (longName env m.1)) := ⟨m, hm, hname, rfl⟩
  constructor
  · intro f hf hun
    have hne : f.1 ≠ dotForEq (longName env m.1) := fun e => hun (e ▸ hnamed)
    exact mem_append_left _ (mem_kjChildRemove (h.unnamed f hf hun) hne)
  · intro entry hentry
    rcases mem_append.mp hentry with hold | hnew
    · exact h.entries entry (mem_of_mem_eraseP hold)
    obtain rfl := mem_singleton.mp hnew
    obtain ⟨node, hnode⟩ := Option.ne_none_iff_exists'.mp (mt Option.isNone_iff_eq_none.mpr hfound)
    have hkey := h.key hd (mem_of_lookup hnode)
    rw [dotForEq_of_dotless (dot_notMem_dotForEq _)] at hkey
    exact .inr ⟨hnamed, hkey⟩

theorem merge_merged (hd : DistinctFields e.attrs) {left : Members}
    (hleft : ∀ m ∈ left, m ∈ members) {s : PatchState} (h : Merged env e members s.inDbAttrs) :
    Merged env e members (left.foldl (mergeMember env) s).inDbAttrs := by
  induction left generalizing s with
  | nil => exact h
  | cons m left ih =>
    refine ih (fun m' hm' => hleft m' (mem_cons_of_mem _ hm')) ?_
    exact mergeMember_merged hd (hleft m (by simp)) h

theorem merged_initial (env : Env) (e : Entity) (members : Members) :
    Merged env e members (mongoCppLegacyEntityLookup e) := by
  constructor
  · intro f hf _
    exact mem_map_of_mem hf
  · intro m hm
    obtain ⟨f, hf, rfl⟩ := mem_map.mp hm
    exact .inl ⟨f, hf, rfl⟩

variable {cas : List ContextAttribute}

theorem mem_convertTree {dropped : List NotUpdated}
    (h : convertTree env tree = .ok (cas, dropped)) (ca : ContextAttribute) :
    ca ∈ cas ↔ ∃ m ∈ tree, kjTreeToContextAttribute env (eqForDot m.1) m.2 = .ok ca := by
  induction tree generalizing cas dropped with
  | nil =>
    cases h
    simp
  | cons m tree ih =>
    rw [convertTree] at h
    split at h
    · rename_i ca' hconv
      obtain ⟨⟨cas', dropped'⟩, hrest, hok⟩ := bind_ok h
      cases hok
      simp [ih hrest, hconv, eq_comm]
    · rename_i hconv
      obtain ⟨⟨cas', dropped'⟩, hrest, hok⟩ := bind_ok h
      cases hok
      simp [ih hrest, hconv]
    · cases h

theorem converted_name {ca : ContextAttribute}
    (h : kjTreeToContextAttribute env (eqForDot m.1) m.2 = .ok ca) :
    dotForEq ca.name = renamed env (dotForEq m.1) := by
  rw [kjTreeToContextAttribute_name h, renamed, eqForDot_dotForEq]
  rfl

theorem replacing_merged {r : PatchResult} {entityId : Text} {requestTree : KjNode}
    (hd : DistinctFields e.attrs)
    (h : orionldPatchEntity env (some e) entityId requestTree = .ok r)
    (hr : r.replacing = some cas) :
    ∃ tree dropped, Merged env e (payloadMembers requestTree) tree ∧
      convertTree env tree = .ok (cas, dropped) := by
  unfold orionldPatchEntity at h
  split at h
  · cases h
  split at h
  · rename_i members
    unfold patchMembers at h
    simp only at h
    split at h
    · cases h
      cases hr
    obtain ⟨⟨cas', dropped⟩, hconv, hok⟩ := bind_ok h
    cases hok
    cases hr
    refine ⟨_, dropped, ?_, hconv⟩
    exact merge_merged hd (fun _ hm => hm) (merged_initial env e members)
  · cases h

theorem survives_iff (hdoc : Document e) {f : Text × StoredAttribute} (hf : f ∈ e.attrs) :
    (∃ ca, kjTreeToContextAttribute env (eqForDot f.1) (attributeTree f.2) = .ok ca ∧
        SameAttribute ca f.1 f.2) ↔ Survives env f.1 f.2 :=
  attribute_read_back_iff (hdoc.values f hf) (hdoc.mdValues f hf) (hdoc.md f hf).1

theorem kept_of_survive (hdoc : Document e) (hm : Merged env e members tree)
    (hcas : ∀ ca, ca ∈ cas ↔
      ∃ m ∈ tree, kjTreeToContextAttribute env (eqForDot m.1) m.2 = .ok ca)
    (hs : AllSurvive env e members) : OnlyNamedChange env e members cas := by
  constructor
  · intro f hf hun
    obtain ⟨ca, hok, hsame⟩ := (survives_iff hdoc hf).mpr (hs.unnamed f hf hun)
    exact ⟨ca, (hcas ca).mpr ⟨_, hm.unnamed f hf hun, hok⟩, hsame⟩
  · intro ca hca
    obtain ⟨m, hmem, hok⟩ := (hcas ca).mp hca
    have hkey := hm.key hdoc.attrs hmem
    obtain ⟨f, hf, hname⟩ := mem_map.mp hkey
    rw [converted_name hok, ← hname, hs.names f hf]
    exact mem_map_of_mem hf

theorem survive_of_kept (hdoc : Document e) (hsettled : SettledNames env e members)
    (hm : Merged env e members tree)
    (hcas : ∀ ca, ca ∈ cas ↔
      ∃ m ∈ tree, kjTreeToContextAttribute env (eqForDot m.1) m.2 = .ok ca)
    (hk : OnlyNamedChange env e members cas) : AllSurvive env e members := by
  have hnames : ∀ f ∈ e.attrs, renamed env f.1 = f.1 := by
    intro f hf
    by_cases hn : Named env members f.1
    · exact hsettled.payload f.1 hn
    obtain ⟨ca, hca, hsame⟩ := hk.kept f hf hn
    obtain ⟨m, hmem, hok⟩ := (hcas ca).mp hca
    obtain ⟨g, hg, hname⟩ := mem_map.mp (hm.key hdoc.attrs hmem)
    rw [← hsame.name, converted_name hok, ← hname]
    exact hsettled.stored g hg
  refine ⟨hnames, ?_⟩
  intro f hf hun
  obtain ⟨ca, hca, hsame⟩ := hk.kept f hf hun
  obtain ⟨m, hmem, hok⟩ := (hcas ca).mp hca
  have hkey : dotForEq m.1 = f.1 := by
    obtain ⟨g, hg, hname⟩ := mem_map.mp (hm.key hdoc.attrs hmem)
    rw [← hsame.name, converted_name hok, ← hname, hnames g hg]
  rcases hm.entries m hmem with ⟨g, hg, rfl⟩ | ⟨hnamed, -⟩
  · have hgf : g = f := by
      rw [dotForEq_of_dotless (hdoc.attrs.2 g hg)] at hkey
      exact inj_on_of_nodup_map hdoc.attrs.1 hg hf hkey
    subst hgf
    exact (survives_iff hdoc hf).mp ⟨ca, hok, hsame⟩
  · exact absurd (hkey ▸ hnamed) hun

/-- When every other attribute survives, only what is named changes. Under a context that leaves
expanded names alone there is no other way. -/
theorem only_named_change_iff {entityId : Text} {requestTree : KjNode} {r : PatchResult}
    (hdoc : Document e) (h : orionldPatchEntity env (some e) entityId requestTree = .ok r)
    (hr : r.replacing = some cas) :
    (AllSurvive env e (payloadMembers requestTree) →
        OnlyNamedChange env e (payloadMembers requestTree) cas) ∧
      (SettledNames env e (payloadMembers requestTree) →
        OnlyNamedChange env e (payloadMembers requestTree) cas →
          AllSurvive env e (payloadMembers requestTree)) := by
  obtain ⟨tree, dropped, hm, hconv⟩ := replacing_merged hdoc.attrs h hr
  exact ⟨kept_of_survive hdoc hm (mem_convertTree hconv),
    fun hsettled => survive_of_kept hdoc hsettled hm (mem_convertTree hconv)⟩

def replacingOf : Except PatchError PatchResult → Option (List ContextAttribute)
  | .ok r => r.replacing
  | .error _ => none

theorem replacingOf_some {res : Except PatchError PatchResult} (h : replacingOf res = some cas) :
    ∃ r, res = .ok r ∧ r.replacing = some cas := by
  cases res with
  | error err => cases h
  | ok r => exact ⟨r, rfl, h⟩

def patchOfP1 : KjNode := .object [("P1".toList, .object (propertyMembers 5))]

theorem storedEntity_document : Document (storedEntity ["P1", "P2"]) := by
  refine ⟨⟨by decide +kernel, by decide +kernel⟩, ?_, ?_, ?_⟩
  · simp [storedEntity, Dotless]
  · simp [storedEntity, DistinctFields]
  · simp [storedEntity]

theorem named_P1_iff (k : Text) :
    Named plainEnv (payloadMembers patchOfP1) k ↔ k = storedName "P1" := by
  have hnone : builtInReason "P1".toList = none := by decide +kernel
  have hname : dotForEq (longName plainEnv "P1".toList) = storedName "P1" := by decide +kernel
  simp only [Named, payloadMembers, patchOfP1, mem_singleton, exists_eq_left, hnone, hname,
    true_and]
  exact eq_comm

theorem storedEntity_survives :
    AllSurvive plainEnv (storedEntity ["P1", "P2"]) (payloadMembers patchOfP1) := by
  have hnames : ∀ f ∈ (storedEntity ["P1", "P2"]).attrs, renamed plainEnv f.1 = f.1 := by
    decide +kernel
  refine ⟨hnames, ?_⟩
  intro f hf _
  refine ⟨hnames f hf, ?_, ?_⟩
  · simp only [storedEntity, map_cons, map_nil, mem_cons, not_mem_nil, or_false] at hf
    rcases hf with rfl | rfl <;> simp [ValueSurvives]
  · simp only [storedEntity, map_cons, map_nil, mem_cons, not_mem_nil, or_false] at hf
    rcases hf with rfl | rfl <;> simp

theorem only_named_change_P1 : ∃ r cas,
    orionldPatchEntity plainEnv (some (storedEntity ["P1", "P2"])) "urn:E1".toList patchOfP1 =
        .ok r ∧ r.replacing = some cas ∧
      SettledNames plainEnv (storedEntity ["P1", "P2"]) (payloadMembers patchOfP1) ∧
      OnlyNamedChange plainEnv (storedEntity ["P1", "P2"]) (payloadMembers patchOfP1) cas := by
  have hhanded : (replacingOf (orionldPatchEntity plainEnv (some (storedEntity ["P1", "P2"]))
      "urn:E1".toList patchOfP1)).isSome = true := by decide +kernel
  obtain ⟨cas, hcas⟩ := Option.isSome_iff_exists.mp hhanded
  obtain ⟨r, hok, hr⟩ := replacingOf_some hcas
  have hsettled : SettledNames plainEnv (storedEntity ["P1", "P2"]) (payloadMembers patchOfP1) := by
    refine ⟨by decide +kernel, ?_⟩
    intro k hk
    rw [(named_P1_iff k).mp hk]
    decide +kernel
  have hboth := only_named_change_iff storedEntity_document hok hr
  exact ⟨r, cas, hok, hr, hsettled, hboth.1 storedEntity_survives⟩

def timeEnv : Env := { plainEnv with parse8601Time := fun _ => some 1577836800 }

def dateAttribute : ContextAttribute :=
  ⟨timeEnv.defaultUrl ++ "T".toList, .temporalProperty, .number 1577836800, []⟩

def datedEntity : Entity where
  attrs := (storedEntity ["P1"]).attrs ++ [(storedName "T", newAttribute timeEnv dateAttribute)]
  attrNames := (storedEntity ["P1"]).attrNames ++ [dateAttribute.name]
  datasets := none

theorem temporal_property_lost : ∃ r cas,
    orionldPatchEntity timeEnv (some datedEntity) "urn:E1".toList patchOfP1 = .ok r ∧
      r.replacing = some cas ∧
      ¬ OnlyNamedChange timeEnv datedEntity (payloadMembers patchOfP1) cas := by
  have hhanded : (replacingOf (orionldPatchEntity timeEnv (some datedEntity)
      "urn:E1".toList patchOfP1)).map (fun cas => cas.map fun ca => dotForEq ca.name) =
      some [storedName "P1"] := by decide +kernel
  obtain ⟨cas, hcas, hnames⟩ := Option.map_eq_some_iff.mp hhanded
  obtain ⟨r, hok, hr⟩ := replacingOf_some hcas
  refine ⟨r, cas, hok, hr, ?_⟩
  intro h
  have hunnamed : ¬ Named timeEnv (payloadMembers patchOfP1) (storedName "T") := by
    have hname : dotForEq (longName timeEnv "P1".toList) ≠ storedName "T" := by decide +kernel
    rintro ⟨m, hm, -, hk⟩
    obtain rfl := mem_singleton.mp hm
    exact hname hk
  obtain ⟨ca, hca, hsame⟩ := h.kept (storedName "T", newAttribute timeEnv dateAttribute)
    (by simp [datedEntity]) hunnamed
  have hmem : storedName "T" ∈ [storedName "P1"] := by
    rw [← hnames]
    exact mem_map.mpr ⟨ca, hca, hsame.name⟩
  revert hmem
  decide +kernel

end PatchEntityKept
