import OrionLd.ContextDownloadList
import OrionLd.FieldList
import OrionLd.UrlParse
import Mathlib.Order.WellFoundedSet

/-! The contexts a context names, downloaded one inside the other by one thread. A document may name
itself or one that names it, and what ends the recursion is the mark of a URL whose download is
under way. -/
namespace OrionldContextFromUrl

open List Option
open KjTree (Text KjNode Members)
open ContextDownloadList

/-- A document is the tree of its member @context, or none, and comes to the URL that is requested.
The cache may miss contexts that have been inserted. -/
structure Broker where
  docs : List (Text × Option KjNode)
  coreContextUrl : Text
  rest : Text
  cacheLookup : List Text → Text → Bool
  cached : ∀ {cache : List Text} {url : Text}, cacheLookup cache url = true → url ∈ cache

structure State where
  cache : List Text
  contextDownloadList : List Text

def start : State := ⟨[], []⟩

abbrev Result := Bool × State

variable (b : Broker)

/-- The URL with its port as a number, printed into url[256]. -/
def orionldRequestSend (url : UrlParse.Url) : Text :=
  let port := (url.port.map Prod.fst).getD 0
  (url.protocol ++ "://".toList ++ url.ip ++
    (if port = 0 then [] else ':' :: Nat.toDigits 10 port) ++ url.urlPath.getD []).take 255

/-- With protocol[16] and ip[256]. -/
def orionldContextDownload (docs : List (Text × Option KjNode)) (url : Text) :
    Option (Option KjNode) :=
  match UrlParse.urlParse 16 256 url with
  | .error _ => none
  | .ok url => docs.lookup (orionldRequestSend url)

def isCoreContextUrl : KjNode → Bool
  | .string s => s == b.coreContextUrl
  | _ => false

def orionldContextSimplify (items : List KjNode) : List KjNode :=
  items.filter fun item => !isCoreContextUrl b item

def orionldContextCacheInsert (url : Option Text) (s : State) : State :=
  match url with
  | some url => { s with cache := url :: s.cache }
  | none => s

def itemId : KjNode → Text
  | .string s => s
  | .object members => match (members.filter fun m => m.1 == "@id".toList).getLast? with
    | some (_, .string s) => s
    | _ => []
  | _ => []

def orionldContextHashTablesFill (members : Members) : Bool :=
  members.all fun m => !(itemId m.2).isEmpty

mutual
/-- An object without a url is not inserted, and of a context made of a string only the one it
names. -/
def orionldContextFromTree (fromUrl : State → Text → Option Result) (url : Option Text) :
    State → KjNode → Option Result
  | s, .array items =>
    if (orionldContextSimplify b items).isEmpty then some (true, s)
    else do
      let (ok, s) ← fromItems fromUrl s items
      return (ok, if ok then orionldContextCacheInsert url s else s)
  | s, .string name => match url with
    | some url =>
      if b.cacheLookup s.cache url then some (true, s)
      else do
        let (_, s) ← fromUrl s name
        return (true, s)
    | none => fromUrl s name
  | s, .object members =>
    if orionldContextHashTablesFill members then some (true, orionldContextCacheInsert url s)
    else some (false, s)
  | s, _ => some (false, s)
/-- The loop over the items of an array, which ends at an item of another type. -/
def fromItems (fromUrl : State → Text → Option Result) :
    State → List KjNode → Option Result
  | s, [] => some (true, s)
  | s, item :: items =>
    match item with
    | .string name =>
      if name = b.coreContextUrl ∨ b.cacheLookup s.cache name = true then
        fromItems fromUrl s items
      else do
        let (_, s) ← orionldContextFromTree fromUrl (some name) s item
        fromItems fromUrl s items
    | .object _ => do
      let (_, s) ← orionldContextFromTree fromUrl none s item
      fromItems fromUrl s items
    | .array _ => do
      let (_, s) ← orionldContextFromTree fromUrl none s item
      fromItems fromUrl s items
    | _ => some (false, s)
end

/-- With calls inside each other up to a depth. A marked URL is waited for in vain. -/
def orionldContextFromUrl : ℕ → State → Text → Option Result
  | 0, _, _ => none
  | depth + 1, s, url =>
    if b.cacheLookup s.cache url then some (true, s)
    else if contextDownloadListLookup s.contextDownloadList url then some (false, s)
    else
      let s := { s with
        contextDownloadList := contextDownloadListAdd s.contextDownloadList b.rest url }
      match orionldContextDownload b.docs url with
      | none => some (false, s)
      | some none => some (false, { s with
          contextDownloadList := contextDownloadListRemove s.contextDownloadList url })
      | some (some tree) => do
        let (ok, s) ← orionldContextFromTree b (orionldContextFromUrl depth) (some url) s tree
        return (ok, { s with
          contextDownloadList := contextDownloadListRemove s.contextDownloadList url })

mutual
def references : KjNode → List Text
  | .array items => itemReferences items
  | .string name => [name]
  | _ => []
def itemReferences : List KjNode → List Text
  | [] => []
  | item :: items =>
    match item with
    | .string name => (if name = b.coreContextUrl then [] else [name]) ++ itemReferences items
    | .object _ => itemReferences items
    | .array _ => references item ++ itemReferences items
    | _ => []
end

/-- The call returns, so that it makes finitely many calls. -/
def Ends (s : State) (url : Text) : Prop :=
  ∃ depth result, orionldContextFromUrl b depth s url = some result

def Cut (url : Text) : Prop := storedName b.rest url ≠ url

/-- One document names the other, and neither is recognised by its mark. -/
def Names (url name : Text) : Prop :=
  Cut b url ∧ Cut b name ∧
    ∃ tree, orionldContextDownload b.docs url = some (some tree) ∧ name ∈ references b tree

def Circle : Prop := ∃ url, Relation.TransGen (Names b) url url

section

variable (f : State → Text → Option Result)

def visit : State → List Text → Option State
  | s, [] => some s
  | s, name :: names =>
    if b.cacheLookup s.cache name then visit s names
    else do
      let (_, s) ← f s name
      visit s names

variable {b} {f}

theorem visit_append (f : State → Text → Option Result) (names names' : List Text) (s : State) :
    visit b f s (names ++ names') = (visit b f s names).bind fun s => visit b f s names' := by
  induction names generalizing s with
  | nil => rfl
  | cons name names ih =>
    rw [cons_append, visit, visit]
    split
    · exact ih s
    cases f s name with
    | none => rfl
    | some r => exact ih r.2

theorem visit_single {s : State} {name : Text} (h : b.cacheLookup s.cache name ≠ true) :
    visit b f s [name] = (f s name).map Prod.snd := by
  rw [visit, if_neg h]
  cases f s name <;> rfl

theorem references_core {items : List KjNode}
    (h : (orionldContextSimplify b items).isEmpty = true) : itemReferences b items = [] := by
  induction items with
  | nil => rfl
  | cons item items ih =>
    have hfilter := isEmpty_iff.mp h
    obtain ⟨hitem, hitems⟩ := forall_mem_cons.mp (filter_eq_nil_iff.mp hfilter)
    have hrest := ih (isEmpty_iff.mpr (filter_eq_nil_iff.mpr hitems))
    cases item with
    | string name =>
      have hcore : name = b.coreContextUrl := by simpa [isCoreContextUrl] using hitem
      rw [itemReferences, if_pos hcore, nil_append]
      exact hrest
    | _ => exact absurd rfl hitem

mutual
theorem fromTree_visit : ∀ (tree : KjNode), (∀ name, tree ≠ .string name) →
    ∀ url : Option Text, ∃ finish : State → Result,
      (∀ s, (finish s).2 = s ∨ (finish s).2 = orionldContextCacheInsert url s) ∧
      ∀ f s, orionldContextFromTree b f url s tree =
        (visit b f s (references b tree)).map finish
  | .array items, _, url => by
    by_cases hcore : (orionldContextSimplify b items).isEmpty = true
    · refine ⟨fun s => (true, s), fun s => Or.inl rfl, fun f s => ?_⟩
      rw [orionldContextFromTree, if_pos hcore, references, references_core hcore]
      rfl
    · obtain ⟨ok, hitems⟩ := fromItems_visit items
      refine ⟨fun s => (ok, if ok then orionldContextCacheInsert url s else s), ?_, ?_⟩
      · intro s
        cases ok with
        | true => exact .inr rfl
        | false => exact .inl rfl
      · intro f s
        rw [orionldContextFromTree, if_neg hcore, references, hitems]
        cases visit b f s (itemReferences b items) <;> rfl
  | .object members, _, url => by
    by_cases hfill : orionldContextHashTablesFill members = true
    · refine ⟨fun s => (true, orionldContextCacheInsert url s), fun s => .inr rfl, fun f s => ?_⟩
      rw [orionldContextFromTree, if_pos hfill]
      rfl
    refine ⟨fun s => (false, s), fun s => .inl rfl, fun f s => ?_⟩
    rw [orionldContextFromTree, if_neg hfill]
    rfl
  | .string name, h, _ => absurd rfl (h name)
  | .null, _, _ => ⟨fun s => (false, s), fun _ => .inl rfl, fun _ _ => rfl⟩
  | .bool _, _, _ => ⟨fun s => (false, s), fun _ => .inl rfl, fun _ _ => rfl⟩
  | .int _, _, _ => ⟨fun s => (false, s), fun _ => .inl rfl, fun _ _ => rfl⟩
  | .float _, _, _ => ⟨fun s => (false, s), fun _ => .inl rfl, fun _ _ => rfl⟩
theorem fromItems_visit : ∀ items : List KjNode, ∃ ok, ∀ f s,
    fromItems b f s items = (visit b f s (itemReferences b items)).map fun s => (ok, s)
  | [] => ⟨true, fun _ _ => rfl⟩
  | .string name :: items => by
    obtain ⟨ok, hitems⟩ := fromItems_visit items
    refine ⟨ok, fun f s => ?_⟩
    rw [fromItems, itemReferences]
    by_cases hname : name = b.coreContextUrl
    · rw [if_pos (.inl hname), if_pos hname, nil_append]
      exact hitems f s
    rw [if_neg hname, singleton_append, visit]
    by_cases hcached : b.cacheLookup s.cache name = true
    · rw [if_pos (.inr hcached), if_pos hcached]
      exact hitems f s
    rw [if_neg (not_or.mpr ⟨hname, hcached⟩), if_neg hcached, orionldContextFromTree,
      if_neg hcached]
    cases f s name with
    | none => rfl
    | some r => exact hitems f r.2
  | .object members :: items => by
    obtain ⟨ok, hitems⟩ := fromItems_visit items
    refine ⟨ok, fun f s => ?_⟩
    rw [fromItems, itemReferences, orionldContextFromTree]
    split
    · exact hitems f s
    · exact hitems f s
  | .array inner :: items => by
    obtain ⟨ok, hitems⟩ := fromItems_visit items
    obtain ⟨finish, hfinish, htree⟩ := fromTree_visit (.array inner) nofun none
    refine ⟨ok, fun f s => ?_⟩
    rw [fromItems, itemReferences, htree, visit_append]
    cases visit b f s (references b (.array inner)) with
    | none => rfl
    | some s' =>
      have hsame : (finish s').2 = s' := (hfinish s').elim id id
      change fromItems b f (finish s').2 items = _
      rw [hsame]
      exact hitems f s'
  | .null :: _ => ⟨false, fun _ _ => rfl⟩
  | .bool _ :: _ => ⟨false, fun _ _ => rfl⟩
  | .int _ :: _ => ⟨false, fun _ _ => rfl⟩
  | .float _ :: _ => ⟨false, fun _ _ => rfl⟩
end

theorem document_visit (tree : KjNode) (url : Text) : ∃ finish : State → Result,
    (∀ s, (finish s).2 = s ∨ (finish s).2 = orionldContextCacheInsert (some url) s) ∧
    ∀ s, b.cacheLookup s.cache url ≠ true →
      (∀ f, orionldContextFromTree b f (some url) s tree =
          (visit b f s (references b tree)).map finish) ∨
        ∃ name, tree = .string name ∧ b.cacheLookup s.cache name = true ∧
          ∀ f, orionldContextFromTree b f (some url) s tree =
            (f s name).map fun r => (true, r.2) := by
  by_cases hstring : ∃ name, tree = .string name
  · obtain ⟨name, rfl⟩ := hstring
    refine ⟨fun s => (true, s), fun s => .inl rfl, fun s hurl => ?_⟩
    have htree : ∀ f, orionldContextFromTree b f (some url) s (.string name) =
        (f s name).map fun r => (true, r.2) := by
      intro f
      rw [orionldContextFromTree, if_neg hurl]
      cases f s name <;> rfl
    by_cases hcached : b.cacheLookup s.cache name = true
    · exact .inr ⟨name, rfl, hcached, htree⟩
    refine .inl fun f => ?_
    rw [htree, references, visit_single hcached]
    cases f s name <;> rfl
  · obtain ⟨finish, hfinish, htree⟩ :=
      fromTree_visit tree (fun name h => hstring ⟨name, h⟩) (some url)
    exact ⟨finish, hfinish, fun s _ => .inl fun f => htree f s⟩

end

section

variable {b} {f g : State → Text → Option Result} {s s' : State} {url : Text}

variable (b) in
def marked (s : State) (url : Text) : State := { s with
  contextDownloadList := contextDownloadListAdd s.contextDownloadList b.rest url }

def unmarked (url : Text) (s : State) : State := { s with
  contextDownloadList := contextDownloadListRemove s.contextDownloadList url }

theorem fromUrl_cases (b : Broker) (s : State) (url : Text) :
    (∃ tree, b.cacheLookup s.cache url ≠ true ∧ url ∉ s.contextDownloadList ∧
      orionldContextDownload b.docs url = some (some tree) ∧
      ∀ depth, orionldContextFromUrl b (depth + 1) s url =
        (orionldContextFromTree b (orionldContextFromUrl b depth) (some url)
          (marked b s url) tree).map fun r => (r.1, unmarked url r.2)) ∨
    ((b.cacheLookup s.cache url = true ∨ url ∈ s.contextDownloadList ∨
        ∀ tree, orionldContextDownload b.docs url ≠ some (some tree)) ∧
      ∃ r, (∀ depth, orionldContextFromUrl b (depth + 1) s url = some r) ∧
        (r.2 = s ∨ url ∉ s.contextDownloadList ∧
          (r.2 = marked b s url ∨ r.2 = unmarked url (marked b s url)))) := by
  by_cases hcached : b.cacheLookup s.cache url = true
  · refine .inr ⟨.inl hcached, (true, s), fun depth => ?_, .inl rfl⟩
    rw [orionldContextFromUrl, if_pos hcached]
  by_cases hlisted : url ∈ s.contextDownloadList
  · refine .inr ⟨.inr (.inl hlisted), (false, s), fun depth => ?_, .inl rfl⟩
    rw [orionldContextFromUrl, if_neg hcached, if_pos (lookup_iff.mpr hlisted)]
  have hstep : ∀ depth, orionldContextFromUrl b (depth + 1) s url =
    match orionldContextDownload b.docs url with
      | none => some (false, marked b s url)
      | some none => some (false, unmarked url (marked b s url))
      | some (some tree) => do
        let (ok, s) ← orionldContextFromTree b (orionldContextFromUrl b depth) (some url)
          (marked b s url) tree
        return (ok, unmarked url s) := by
    intro depth
    rw [orionldContextFromUrl, if_neg hcached, if_neg fun h => hlisted (lookup_iff.mp h)]
    rfl
  cases hdoc : orionldContextDownload b.docs url with
  | none =>
    rw [hdoc] at hstep
    exact .inr ⟨.inr (.inr nofun), _, hstep, .inr ⟨hlisted, .inl rfl⟩⟩
  | some doc =>
    cases doc with
    | none =>
      rw [hdoc] at hstep
      exact .inr ⟨.inr (.inr nofun), _, hstep, .inr ⟨hlisted, .inr rfl⟩⟩
    | some tree =>
      rw [hdoc] at hstep
      refine .inl ⟨tree, hcached, hlisted, rfl, fun depth => (hstep depth).trans ?_⟩
      change (orionldContextFromTree b (orionldContextFromUrl b depth) (some url)
        (marked b s url) tree).bind _ = _
      cases orionldContextFromTree b (orionldContextFromUrl b depth) (some url)
        (marked b s url) tree <;> rfl

variable {P : State → State → Prop}

theorem visit_rel (hrefl : ∀ s, P s s) (htrans : ∀ {s t u}, P s t → P t u → P s u)
    (hf : ∀ s name r, f s name = some r → P s r.2) {names : List Text}
    (h : visit b f s names = some s') : P s s' := by
  induction names generalizing s with
  | nil =>
    obtain rfl := Option.some.inj h
    exact hrefl s
  | cons name names ih =>
    rw [visit] at h
    split at h
    · exact ih h
    · obtain ⟨r, hname, h⟩ := bind_eq_some_iff.mp h
      exact htrans (hf s name r hname) (ih h)

theorem visit_mono (hfg : ∀ s name r, f s name = some r → g s name = some r)
    {names : List Text} (h : visit b f s names = some s') : visit b g s names = some s' := by
  induction names generalizing s with
  | nil => exact h
  | cons name names ih =>
    rw [visit] at h ⊢
    split at h
    · rename_i hcached
      rw [if_pos hcached]
      exact ih h
    rename_i hcached
    obtain ⟨r, hname, h⟩ := bind_eq_some_iff.mp h
    rw [if_neg hcached, hfg s name r hname]
    exact ih h

variable {r : Result} {depth : ℕ}

theorem fromTree_rel (hrefl : ∀ s, P s s) (htrans : ∀ {s t u}, P s t → P t u → P s u)
    (hf : ∀ s name r, f s name = some r → P s r.2) {tree : KjNode}
    (hurl : b.cacheLookup s.cache url ≠ true)
    (h : orionldContextFromTree b f (some url) s tree = some r) :
    ∃ t, P s t ∧ (r.2 = t ∨ r.2 = orionldContextCacheInsert (some url) t) := by
  obtain ⟨finish, hfinish, htree⟩ := document_visit (b := b) tree url
  rcases htree s hurl with htree | ⟨name, -, -, htree⟩
  · rw [htree f] at h
    obtain ⟨t, hvisit, rfl⟩ := map_eq_some_iff.mp h
    exact ⟨t, visit_rel hrefl htrans hf hvisit, hfinish t⟩
  rw [htree f] at h
  obtain ⟨r', hname, rfl⟩ := map_eq_some_iff.mp h
  exact ⟨r'.2, hf s name r' hname, .inl rfl⟩

theorem fromTree_mono (hfg : ∀ s name r, f s name = some r → g s name = some r) {tree : KjNode}
    (hurl : b.cacheLookup s.cache url ≠ true)
    (h : orionldContextFromTree b f (some url) s tree = some r) :
    orionldContextFromTree b g (some url) s tree = some r := by
  obtain ⟨finish, -, htree⟩ := document_visit (b := b) tree url
  rcases htree s hurl with htree | ⟨name, -, -, htree⟩
  · rw [htree f] at h
    obtain ⟨t, hvisit, rfl⟩ := map_eq_some_iff.mp h
    rw [htree g, visit_mono hfg hvisit]
    rfl
  · rw [htree f] at h
    obtain ⟨r', hname, rfl⟩ := map_eq_some_iff.mp h
    rw [htree g, hfg s name r' hname]
    rfl

theorem fromUrl_succ (h : orionldContextFromUrl b depth s url = some r) :
    orionldContextFromUrl b (depth + 1) s url = some r := by
  induction depth generalizing s url r with
  | zero => cases h
  | succ depth ih =>
    rcases fromUrl_cases b s url with ⟨tree, hurl, -, -, hdoc⟩ | ⟨-, r', hr, -⟩
    · rw [hdoc] at h ⊢
      obtain ⟨r', htree, rfl⟩ := map_eq_some_iff.mp h
      have hmono := fromTree_mono (s := marked b s url) (g := orionldContextFromUrl b (depth + 1))
        (fun s name r hname => ih hname) hurl htree
      rw [hmono]
      rfl
    · rw [hr] at h ⊢
      exact h

theorem fromUrl_le {depth' : ℕ} (hle : depth ≤ depth')
    (h : orionldContextFromUrl b depth s url = some r) :
    orionldContextFromUrl b depth' s url = some r := by
  induction hle with
  | refl => exact h
  | step _ ih => exact fromUrl_succ ih

theorem mem_unmarked {x : Text} (hx : x ∈ s.contextDownloadList) (hne : x ≠ url) :
    x ∈ (unmarked url s).contextDownloadList :=
  (mem_erase_of_ne hne).mpr hx

theorem fromUrl_marks (h : orionldContextFromUrl b depth s url = some r) :
    s.contextDownloadList ⊆ r.2.contextDownloadList := by
  induction depth generalizing s url r with
  | zero => cases h
  | succ depth ih =>
    have hadd : s.contextDownloadList ⊆ (marked b s url).contextDownloadList := subset_cons_self _ _
    rcases fromUrl_cases b s url with ⟨tree, hurl, hnew, -, hdoc⟩ | ⟨-, r', hr, hcases⟩
    · rw [hdoc] at h
      obtain ⟨r', htree, rfl⟩ := map_eq_some_iff.mp h
      obtain ⟨t, hkept, hfinish⟩ := fromTree_rel
        (P := fun s t => s.contextDownloadList ⊆ t.contextDownloadList)
        (fun s => List.Subset.refl _) List.Subset.trans (fun s name r hname => ih hname)
        (s := marked b s url) hurl htree
      intro x hx
      have ht : x ∈ r'.2.contextDownloadList := by
        rcases hfinish with hfinish | hfinish <;> (rw [hfinish]; exact hkept (hadd hx))
      exact mem_unmarked ht fun hsame => hnew (hsame ▸ hx)
    · rw [hr] at h
      cases h
      rcases hcases with hsame | ⟨hnew, hsame | hsame⟩
      · rw [hsame]
        exact List.Subset.refl _
      · rw [hsame]
        exact hadd
      intro x hx
      rw [hsame]
      exact mem_unmarked (hadd hx) fun hsame => hnew (hsame ▸ hx)

end

variable {b : Broker} {s : State} {url : Text}

theorem visit_ends {names : List Text}
    (h : ∀ t : State, s.contextDownloadList ⊆ t.contextDownloadList →
      ∀ name ∈ names, Ends b t name) :
    ∃ depth t, visit b (orionldContextFromUrl b depth) s names = some t := by
  induction names generalizing s with
  | nil => exact ⟨0, s, rfl⟩
  | cons name names ih =>
    by_cases hcached : b.cacheLookup s.cache name = true
    · obtain ⟨depth, t, hvisit⟩ := ih fun t ht name' hname' =>
        h t ht name' (mem_cons_of_mem name hname')
      refine ⟨depth, t, ?_⟩
      rw [visit, if_pos hcached]
      exact hvisit
    · obtain ⟨depth, r, hname⟩ := h s (List.Subset.refl _) name mem_cons_self
      have hmarks := fromUrl_marks hname
      obtain ⟨depth', t, hvisit⟩ := ih (s := r.2) fun t ht name' hname' =>
        h t (List.Subset.trans hmarks ht) name' (mem_cons_of_mem name hname')
      refine ⟨max depth depth', t, ?_⟩
      rw [visit, if_neg hcached, fromUrl_le (le_max_left depth depth') hname]
      exact visit_mono (fun s name r => fromUrl_le (le_max_right depth depth')) hvisit

theorem ends_of_references
    (h : ∀ tree, orionldContextDownload b.docs url = some (some tree) →
      url ∉ s.contextDownloadList →
      ∀ t : State, (marked b s url).contextDownloadList ⊆ t.contextDownloadList →
        ∀ name ∈ references b tree, Ends b t name) : Ends b s url := by
  rcases fromUrl_cases b s url with ⟨tree, hurl, hnew, hdoc, hstep⟩ | ⟨-, r, hr, -⟩
  · suffices hends : ∃ depth r, orionldContextFromTree b (orionldContextFromUrl b depth)
        (some url) (marked b s url) tree = some r by
      obtain ⟨depth, r, htree⟩ := hends
      exact ⟨depth + 1, (r.1, unmarked url r.2), by rw [hstep, htree]; rfl⟩
    obtain ⟨finish, -, htree⟩ := document_visit (b := b) tree url
    rcases htree (marked b s url) hurl with htree | ⟨name, -, hcached, htree⟩
    · obtain ⟨depth, t, hvisit⟩ := visit_ends (h tree hdoc hnew)
      exact ⟨depth, finish t, by rw [htree, hvisit]; rfl⟩
    refine ⟨1, (true, marked b s url), ?_⟩
    rw [htree, orionldContextFromUrl, if_pos hcached]
    rfl
  · exact ⟨1, r, hr 0⟩

/-- The URL of the call, and what the documents name. -/
def named (b : Broker) (url : Text) : Finset Text :=
  (url :: b.docs.flatMap fun doc => (doc.2.map (references b)).getD []).toFinset

theorem mem_named {tree : KjNode} {url name : Text} (first : Text)
    (hdoc : orionldContextDownload b.docs url = some (some tree))
    (hname : name ∈ references b tree) :
    name ∈ named b first := by
  unfold orionldContextDownload at hdoc
  split at hdoc
  · cases hdoc
  refine mem_toFinset.mpr (mem_cons_of_mem _ (mem_flatMap.mpr ?_))
  exact ⟨_, FieldList.mem_of_lookup hdoc, hname⟩

/-- How many URLs can still be marked so that they are recognised. -/
def pending (b : Broker) (first : Text) (s : State) : ℕ :=
  ((named b first).filter fun url =>
    storedName b.rest url = url ∧ url ∉ s.contextDownloadList).card

variable {first : Text}

theorem pending_le {t : State} (h : s.contextDownloadList ⊆ t.contextDownloadList) :
    pending b first t ≤ pending b first s := by
  apply Finset.card_le_card
  intro url hurl
  rw [Finset.mem_filter] at hurl ⊢
  exact ⟨hurl.1, hurl.2.1, fun hmem => hurl.2.2 (h hmem)⟩

theorem pending_marked (hurl : url ∈ named b first) (hcut : ¬ Cut b url)
    (hnew : url ∉ s.contextDownloadList) : pending b first
    (marked b s url) < pending b first s := by
  have hname : storedName b.rest url = url := not_not.mp hcut
  apply Finset.card_lt_card
  refine ⟨?_, fun hsub => ?_⟩
  · intro other hother
    rw [Finset.mem_filter] at hother ⊢
    exact ⟨hother.1, hother.2.1, fun hmem => hother.2.2 (mem_cons_of_mem _ hmem)⟩
  · have hmem := hsub (Finset.mem_filter.mpr ⟨hurl, hname, hnew⟩)
    refine (Finset.mem_filter.mp hmem).2.2 ?_
    change url ∈ storedName b.rest url :: s.contextDownloadList
    rw [hname]
    exact mem_cons_self

/-- URLs with cut marks name each other in the order of their depth. -/
theorem names_wellFounded (h : ¬ Circle b) (first : Text) :
    Set.WellFoundedOn {url | url ∈ named b first}
      fun name url => Relation.TransGen (Names b) url name := by
  have hirrefl : ∀ url, ¬ Relation.TransGen (Names b) url url := fun url hurl => h ⟨url, hurl⟩
  have hstrict : IsStrictOrder Text fun name url => Relation.TransGen (Names b) url name := {
    irrefl := hirrefl
    trans := fun _ _ _ hab hbc => hbc.trans hab }
  have hfinite : Set.Finite {url : Text | url ∈ named b first} :=
    Set.Finite.ofFinset (named b first) fun _ => Iff.rfl
  exact hfinite.wellFoundedOn

/-- Below a recognised mark fewer URLs are left to mark, and below a cut one the references are
lower in the order. -/
theorem ends_of_no_circle (h : ¬ Circle b) (first : Text) (n : ℕ) :
    ∀ s : State, pending b first s ≤ n → ∀ url ∈ named b first, Ends b s url := by
  induction n using Nat.strong_induction_on with
  | _ n ih =>
    have hwhole : ∀ s : State, pending b first s ≤ n → ∀ url ∈ named b first,
        ¬ Cut b url → Ends b s url := by
      intro s hs url hurl hcut
      apply ends_of_references
      intro tree hdoc hnew t ht name hname
      have hlt := pending_marked hurl hcut hnew
      have hle : pending b first t ≤ pending b first (marked b s url) := pending_le ht
      exact ih (pending b first t) (by omega) t le_rfl name (mem_named first hdoc hname)
    intro s hs url hurl
    refine (names_wellFounded h first).induction
      (P := fun url => ∀ s : State, pending b first s ≤ n → Ends b s url) hurl ?_ s hs
    intro url hurl hbelow s hs
    by_cases hcut : Cut b url
    · apply ends_of_references
      intro tree hdoc _ t ht name hname
      have hmarked : s.contextDownloadList ⊆ (marked b s url).contextDownloadList :=
        subset_cons_self _ _
      have ht : pending b first t ≤ n := (pending_le (List.Subset.trans hmarked ht)).trans hs
      have hmem := mem_named first hdoc hname
      by_cases hcutName : Cut b name
      · exact hbelow name hmem (.single ⟨hcut, hcutName, tree, hdoc, hname⟩) t ht
      · exact hwhole t ht name hmem hcutName
    · exact hwhole s hs url hurl hcut

structure Clean (b : Broker) (s : State) : Prop where
  cache : ∀ url, Relation.TransGen (Names b) url url → url ∉ s.cache
  marks : ∀ x ∈ s.contextDownloadList, storedName b.rest x = x

theorem storedName_storedName (rest url : Text) :
    storedName rest (storedName rest url) = storedName rest url := by
  by_cases h : url.length < 255
  · have hname : storedName rest url = url := if_pos h
    rw [hname, hname]
  have hname : storedName rest url = url.take 255 ++ rest := if_neg h
  have htake : (url.take 255).length = 255 := by
    rw [length_take]
    omega
  rw [hname]
  unfold storedName
  rw [if_neg (by rw [length_append]; omega), take_append_of_le_length (by omega),
    take_of_length_le (by omega)]

theorem Clean.marked (h : Clean b s) (url : Text) : Clean b (marked b s url) where
  cache := h.cache
  marks x hx := by
    rcases mem_cons.mp hx with rfl | hx
    · exact storedName_storedName b.rest url
    · exact h.marks x hx

theorem Clean.unmarked (h : Clean b s) (url : Text) : Clean b (unmarked url s) where
  cache := h.cache
  marks x hx := h.marks x (mem_of_mem_erase hx)

theorem Clean.insert (h : Clean b s) (hurl : ¬ Relation.TransGen (Names b) url url) :
    Clean b (orionldContextCacheInsert (some url) s) where
  cache name hname hmem := by
    rcases mem_cons.mp hmem with rfl | hmem
    · exact hurl hname
    · exact h.cache name hname hmem
  marks := h.marks

theorem Clean.unseen (h : Clean b s) (hurl : Relation.TransGen (Names b) url url) :
    b.cacheLookup s.cache url ≠ true :=
  fun hcached => h.cache url hurl (b.cached hcached)

theorem circle_next (h : Relation.TransGen (Names b) url url) : Cut b url ∧ ∃ name tree,
    orionldContextDownload b.docs url = some (some tree) ∧ name ∈ references b tree ∧
      Relation.TransGen (Names b) name name := by
  obtain ⟨name, hname, hrest⟩ := Relation.TransGen.head'_iff.mp h
  obtain ⟨hcut, hcut', tree, hdoc, hmem⟩ := hname
  exact ⟨hcut, name, tree, hdoc, hmem,
    Relation.TransGen.tail' hrest ⟨hcut, hcut', tree, hdoc, hmem⟩⟩

theorem visit_none {f : State → Text → Option Result} {names : List Text} {name : Text}
    (hclean : Clean b s) (hname : Relation.TransGen (Names b) name name)
    (hf : ∀ s name r, Clean b s → f s name = some r → Clean b r.2)
    (hnone : ∀ s, Clean b s → f s name = none) (hmem : name ∈ names) :
    visit b f s names = none := by
  induction names generalizing s with
  | nil => cases hmem
  | cons first names ih =>
    rw [visit]
    by_cases hfirst : first = name
    · rw [hfirst, if_neg (hclean.unseen hname), hnone s hclean]
      rfl
    have hrest : name ∈ names := (mem_cons.mp hmem).resolve_left (Ne.symm hfirst)
    split
    · exact ih hclean hrest
    cases hcall : f s first with
    | none => rfl
    | some r => exact ih (hf s first r hclean hcall) hrest

/-- A call for a URL on a circle returns at no depth, and no other call inserts one. -/
theorem circle_diverges (depth : ℕ) :
    (∀ s url, Clean b s → Relation.TransGen (Names b) url url →
      orionldContextFromUrl b depth s url = none) ∧
    ∀ s url r, Clean b s → orionldContextFromUrl b depth s url = some r → Clean b r.2 := by
  induction depth with
  | zero => exact ⟨fun _ _ _ _ => rfl, fun _ _ _ _ h => by cases h⟩
  | succ depth ih =>
    obtain ⟨hnone, hkeep⟩ := ih
    have hcircle : ∀ s url, Clean b s → Relation.TransGen (Names b) url url →
        orionldContextFromUrl b (depth + 1) s url = none := by
      intro s url hclean hurl
      obtain ⟨hcut, name, tree, hdoc, hmem, hname⟩ := circle_next hurl
      rcases fromUrl_cases b s url with ⟨tree', hunseen, -, hdoc', hstep⟩ | ⟨hwhy, -⟩
      · obtain rfl : tree' = tree := some.inj (some.inj (hdoc'.symm.trans hdoc))
        have hmarked := hclean.marked url
        obtain ⟨finish, -, htree⟩ := document_visit (b := b) tree' url
        rw [hstep]
        rcases htree (OrionldContextFromUrl.marked b s url) hunseen with
          htree | ⟨name', rfl, hcached, -⟩
        · rw [htree, visit_none hmarked hname hkeep (fun s hs => hnone s name hs hname) hmem]
          rfl
        · obtain rfl := mem_singleton.mp hmem
          exact absurd hcached (hmarked.unseen hname)
      · rcases hwhy with hcached | hlisted | hdoc'
        · exact absurd hcached (hclean.unseen hurl)
        · exact absurd (hclean.marks url hlisted) hcut
        · exact absurd hdoc (hdoc' tree)
    refine ⟨hcircle, ?_⟩
    intro s url r hclean hcall
    rcases fromUrl_cases b s url with ⟨tree, hunseen, -, hdoc, hstep⟩ | ⟨-, r', hr, hcases⟩
    · have hoff : ¬ Relation.TransGen (Names b) url url := by
        intro hurl
        rw [hcircle s url hclean hurl] at hcall
        cases hcall
      rw [hstep] at hcall
      obtain ⟨r', htree, rfl⟩ := map_eq_some_iff.mp hcall
      obtain ⟨t, hkept, hfinish⟩ := fromTree_rel (P := fun s t => Clean b s → Clean b t)
        (fun s hs => hs) (fun hst htu hs => htu (hst hs))
        (fun s name r hname hs => hkeep s name r hs hname)
        (s := OrionldContextFromUrl.marked b s url) hunseen htree
      have ht := hkept (hclean.marked url)
      apply Clean.unmarked
      rcases hfinish with hfinish | hfinish
      · rw [hfinish]
        exact ht
      · rw [hfinish]
        exact ht.insert hoff
    · rw [hr] at hcall
      cases hcall
      rcases hcases with hsame | ⟨-, hsame | hsame⟩ <;> rw [hsame]
      · exact hclean
      · exact hclean.marked url
      · exact (hclean.marked url).unmarked url

theorem start_clean (b : Broker) : Clean b start where
  cache _ _ h := by cases h
  marks _ h := by cases h

/-- From every URL the recursion ends if and only if no documents with cut marks name each
other in a circle. -/
theorem recursion_ends_iff_no_circle (b : Broker) :
    (∀ url, Ends b start url) ↔ ¬ Circle b := by
  constructor
  · rintro h ⟨url, hurl⟩
    obtain ⟨depth, r, hcall⟩ := h url
    rw [(circle_diverges depth).1 start url (start_clean b) hurl] at hcall
    cases hcall
  · exact fun h url => ends_of_no_circle h url _ start le_rfl url (mem_toFinset.mpr mem_cons_self)

def longUrl : Text := "http://a.org/".toList ++ List.replicate 300 'x'

/-- A document that its URL is long enough for to be cut, and which names the whole URL. -/
def selfReference : Broker where
  docs := [(longUrl.take 255, some (.string longUrl))]
  coreContextUrl := "https://uri.etsi.org/ngsi-ld/v1/ngsi-ld-core-context.jsonld".toList
  rest := []
  cacheLookup := fun cache url => cache.contains url
  cached := List.contains_iff_mem.mp

theorem selfReference_names : Names selfReference longUrl longUrl := by
  have hcut : Cut selfReference longUrl := by
    unfold Cut
    decide +kernel
  have hrequest : (UrlParse.urlParse 16 256 longUrl).toOption.map orionldRequestSend =
      some (longUrl.take 255) := by
    decide +kernel
  refine ⟨hcut, hcut, .string longUrl, ?_, mem_singleton_self _⟩
  unfold orionldContextDownload
  cases hparse : UrlParse.urlParse 16 256 longUrl with
  | error detail =>
    rw [hparse] at hrequest
    cases hrequest
  | ok url =>
    rw [hparse] at hrequest
    dsimp only
    rw [some.inj hrequest]
    exact lookup_cons_self

theorem self_reference_never_ends : ¬ ∀ (b : Broker) (url : Text), Ends b start url := by
  intro h
  obtain ⟨depth, r, hcall⟩ := h selfReference longUrl
  rw [(circle_diverges depth).1 start longUrl (start_clean _)
    (.single selfReference_names)] at hcall
  cases hcall

end OrionldContextFromUrl
