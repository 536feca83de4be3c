import OrionLd.StepSystem
import OrionLd.KjTree

/-! The tenant step of concurrent requests: orionldTenantLookup, orionldTenantGet and
orionldTenantCreate as orionldMhdConnectionTreat calls them. A lookup, the existence test, a
semaphore operation, an insertion and an assignment of the cache are atomic. A request that waits
for the semaphore does not move. -/
namespace OrionldTenant

open KjTree (Text)
open StepSystem Function

/-- The tenants that the broker knows, as records with a name. -/
structure Tenants (T : Type) where
  tenantList : List T
  tenantCache : Option T
  deriving DecidableEq, Repr

section

variable {T : Type} (name : T → Text) (tenant0 : T) (ts : Tenants T) (tenantName : Text)

def listLookup (tenantList : List T) : Option T := tenantList.find? fun t => name t == tenantName

def tenantLookup : Option T :=
  if tenantName = [] then some tenant0
  else match ts.tenantCache with
    | some t => if name t = tenantName then some t else listLookup name tenantName ts.tenantList
    | none => listLookup name tenantName ts.tenantList

def tenantCreate (newTenant : Text → T) : Tenants T × T :=
  if tenantName = [] then (ts, tenant0)
  else ({ ts with tenantList := newTenant tenantName :: ts.tenantList }, newTenant tenantName)

variable {name tenant0 ts tenantName}

theorem tenantLookup_some {t : T} (h : tenantLookup name tenant0 ts tenantName = some t) :
    tenantName = [] ∧ t = tenant0 ∨
      tenantName ≠ [] ∧ name t = tenantName ∧ (t ∈ ts.tenantList ∨ ts.tenantCache = some t) := by
  unfold tenantLookup at h
  have hlist : listLookup name tenantName ts.tenantList = some t →
      name t = tenantName ∧ (t ∈ ts.tenantList ∨ ts.tenantCache = some t) := by
    intro hfind
    have hbeq := List.find?_some hfind
    exact ⟨beq_iff_eq.mp hbeq, .inl (List.mem_of_find?_eq_some hfind)⟩
  by_cases hnil : tenantName = []
  · rw [if_pos hnil, Option.some.injEq] at h
    exact .inl ⟨hnil, h.symm⟩
  rw [if_neg hnil] at h
  refine .inr ⟨hnil, ?_⟩
  cases hcache : ts.tenantCache with
  | none =>
    rw [hcache] at h hlist
    exact hlist h
  | some c =>
    rw [hcache] at h hlist
    by_cases hc : name c = tenantName
    · simp only [hc, if_true, Option.some.injEq] at h
      exact h ▸ ⟨hc, .inr rfl⟩
    · simp only [hc, if_false] at h
      exact hlist h

theorem tenantLookup_none (h : tenantLookup name tenant0 ts tenantName = none) :
    ∀ t ∈ ts.tenantList, name t ≠ tenantName := by
  unfold tenantLookup at h
  have hlist : listLookup name tenantName ts.tenantList = none →
      ∀ t ∈ ts.tenantList, name t ≠ tenantName := by
    intro hfind t ht heq
    exact List.find?_eq_none.mp hfind t ht (beq_iff_eq.mpr heq)
  split at h
  · cases h
  cases hcache : ts.tenantCache with
  | none =>
    rw [hcache] at h
    exact hlist h
  | some c =>
    rw [hcache] at h
    by_cases hc : name c = tenantName
    · simp [hc] at h
    · simp only [hc, if_false] at h
      exact hlist h

end

section

structure Tenant where
  tenant : Text
  deriving DecidableEq, Repr

def tenant0 : Tenant := ⟨[]⟩

structure Request where
  tenantName : Option Text
  makeSureTenantExists : Bool
  deriving DecidableEq, Repr

/-- What a request does next. The tenant found or created is carried along. -/
inductive Pc where
  | start
  | dbTenantExists
  | create
  | cacheFound (tenantP : Tenant)
  | semWait
  | secondLookup
  | createLocked
  | cacheLocked (tenantP : Tenant)
  | semPost (tenantP : Tenant)
  | continues (tenantP : Tenant)
  | refused
  deriving DecidableEq, Repr

structure Shared extends Tenants Tenant where
  tenantSem : ℕ
  deriving DecidableEq, Repr

def orionldTenantLookup (sh : Shared) (tenantName : Text) : Option Tenant :=
  tenantLookup Tenant.tenant tenant0 sh.toTenants tenantName

def newTenant (tenantName : Text) : Tenant := ⟨tenantName.take 50⟩

def orionldTenantCreate (sh : Shared) (tenantName : Text) : Shared × Tenant :=
  let (ts, t) := tenantCreate tenant0 sh.toTenants tenantName newTenant
  ({ sh with toTenants := ts }, t)

def Request.name (req : Request) : Text := req.tenantName.getD []

/-- The first lookup, of both services that need an existing tenant and of orionldTenantGet. -/
def firstLookup (req : Request) (sh : Shared) : Pc :=
  match req.tenantName with
  | none => .continues tenant0
  | some tenantName =>
    match orionldTenantLookup sh tenantName with
    | some t => if req.makeSureTenantExists then .continues t else .cacheFound t
    | none => if req.makeSureTenantExists then .dbTenantExists else .semWait

def advance (req : Request) (answer : Bool) (sh : Shared) : Pc → Shared × Pc
  | .start => (sh, firstLookup req sh)
  | .dbTenantExists => (sh, if answer then .create else .refused)
  | .create =>
    let (sh, t) := orionldTenantCreate sh req.name
    (sh, .continues t)
  | .cacheFound t => ({ sh with tenantCache := some t }, .continues t)
  | .semWait =>
    if sh.tenantSem = 0 then (sh, .semWait)
    else ({ sh with tenantSem := sh.tenantSem - 1 }, .secondLookup)
  | .secondLookup =>
    match orionldTenantLookup sh req.name with
    | some t => (sh, .cacheLocked t)
    | none => (sh, .createLocked)
  | .createLocked =>
    let (sh, t) := orionldTenantCreate sh req.name
    (sh, .cacheLocked t)
  | .cacheLocked t => ({ sh with tenantCache := some t }, .semPost t)
  | .semPost t => ({ sh with tenantSem := sh.tenantSem + 1 }, .continues t)
  | .continues t => (sh, .continues t)
  | .refused => (sh, .refused)

structure State (R : Type) where
  shared : Shared
  pc : R → Pc

/-- The request that moves, and the answer of the database if it is asked. -/
structure Event (R : Type) where
  request : R
  answer : Bool

variable {R : Type} [DecidableEq R] (requests : R → Request)

def step (s : State R) (e : Event R) : State R :=
  let moved := advance (requests e.request) e.answer s.shared (s.pc e.request)
  ⟨moved.1, Function.update s.pc e.request moved.2⟩

def initial : State R := ⟨⟨⟨[], none⟩, 1⟩, fun _ => .start⟩

end

section

variable {R : Type} [DecidableEq R] (requests : R → Request)

/-- At most one tenant of each name, and every request that continues does so with the tenant it
asked for. -/
def OneTenantPerName (s : State R) : Prop :=
  (s.shared.tenantList.map Tenant.tenant).Nodup ∧
    ∀ r t, s.pc r = .continues t → t.tenant = (requests r).name

/-- The name is not in the list, and no request with the semaphore is about to insert it. -/
def InsertsAlone (s : State R) (e : Event R) : Prop :=
  s.pc e.request = .create → (requests e.request).name ≠ [] →
    (∀ t ∈ s.shared.tenantList, t.tenant ≠ (requests e.request).name) ∧
      ∀ r, s.pc r = .createLocked → (requests r).name ≠ (requests e.request).name

def Locked : Pc → Prop
  | .secondLookup => True
  | .createLocked => True
  | .cacheLocked _ => True
  | .semPost _ => True
  | _ => False

def RightTenant (req : Request) : Pc → Prop
  | .cacheFound t => t.tenant = req.name
  | .cacheLocked t => t.tenant = req.name
  | .semPost t => t.tenant = req.name
  | .continues t => t.tenant = req.name
  | _ => True

def Missing (tenantList : List Tenant) (tenantName : Text) : Prop :=
  ∀ t ∈ tenantList, t.tenant ≠ tenantName

structure Invariant (s : State R) : Prop where
  unique : (s.shared.tenantList.map Tenant.tenant).Nodup
  right : ∀ r, RightTenant (requests r) (s.pc r)
  missing : ∀ r, s.pc r = .createLocked → Missing s.shared.tenantList (requests r).name
  exclusive : ∀ r r', Locked (s.pc r) → Locked (s.pc r') → r = r'
  held : ∀ r, Locked (s.pc r) → s.shared.tenantSem = 0
  bounded : s.shared.tenantSem ≤ 1

end

variable {tenantName : Text}

theorem lookup_name {sh : Shared} {t : Tenant} (h : orionldTenantLookup sh tenantName = some t) :
    t.tenant = tenantName := by
  rcases tenantLookup_some h with ⟨rfl, rfl⟩ | ⟨-, hname, -⟩
  · rfl
  · exact hname

theorem missing_of_lookup {sh : Shared} (h : orionldTenantLookup sh tenantName = none) :
    Missing sh.tenantList tenantName := tenantLookup_none h

theorem create_nil (sh : Shared) : orionldTenantCreate sh [] = (sh, tenant0) := rfl

theorem create_ne (sh : Shared) (h : tenantName ≠ []) : orionldTenantCreate sh tenantName =
    ({ sh with tenantList := newTenant tenantName :: sh.tenantList }, newTenant tenantName) := by
  rw [orionldTenantCreate, tenantCreate, if_neg h]

theorem newTenant_name (h : tenantName.length ≤ 50) :
    (newTenant tenantName).tenant = tenantName := List.take_of_length_le h

theorem create_name (sh : Shared) (h : tenantName.length ≤ 50) :
    (orionldTenantCreate sh tenantName).2.tenant = tenantName := by
  by_cases hnil : tenantName = []
  · rw [hnil]
    rfl
  · rw [create_ne sh hnil]
    exact newTenant_name h

section

variable {R : Type} [DecidableEq R] {requests : R → Request} {s : State R} {r : R}

theorem invariant_move (h : Invariant requests s) {sh : Shared} {pc : Pc}
    (hlist : sh.tenantList = s.shared.tenantList) (hsem : sh.tenantSem = s.shared.tenantSem)
    (hlocked : Locked pc → Locked (s.pc r)) (hright : RightTenant (requests r) pc)
    (hmissing : pc = .createLocked → Missing s.shared.tenantList (requests r).name) :
    Invariant requests ⟨sh, Function.update s.pc r pc⟩ := by
  have hback : ∀ q, Locked (Function.update s.pc r pc q) → Locked (s.pc q) :=
    (forall_update_iff s.pc (p := fun q c => Locked c → Locked (s.pc q))).mpr
      ⟨hlocked, fun q _ => id⟩
  constructor
  · rw [hlist]
    exact h.unique
  · exact (forall_update_iff s.pc (p := fun q c => RightTenant (requests q) c)).mpr
      ⟨hright, fun q _ => h.right q⟩
  · rw [hlist]
    exact (forall_update_iff s.pc
      (p := fun q c => c = .createLocked → Missing s.shared.tenantList (requests q).name)).mpr
      ⟨hmissing, fun q _ => h.missing q⟩
  · intro q q' hq hq'
    exact h.exclusive q q' (hback q hq) (hback q' hq')
  · intro q hq
    rw [hsem]
    exact h.held q (hback q hq)
  · rw [hsem]
    exact h.bounded

theorem invariant_insert (h : Invariant requests s) {t : Tenant} {pc : Pc}
    (hname : t.tenant = (requests r).name)
    (hmiss : Missing s.shared.tenantList (requests r).name)
    (hothers : ∀ q, q ≠ r → s.pc q = .createLocked → (requests q).name ≠ (requests r).name)
    (hlocked : Locked pc → Locked (s.pc r)) (hright : RightTenant (requests r) pc)
    (hpc : pc ≠ .createLocked) :
    Invariant requests
      ⟨{ s.shared with tenantList := t :: s.shared.tenantList }, Function.update s.pc r pc⟩ := by
  have hmove : Invariant requests ⟨s.shared, Function.update s.pc r pc⟩ :=
    invariant_move h rfl rfl hlocked hright fun e => absurd e hpc
  constructor
  · rw [List.map_cons, List.nodup_cons]
    refine ⟨fun hmem => ?_, h.unique⟩
    obtain ⟨u, hu, heq⟩ := List.mem_map.mp hmem
    exact hmiss u hu (heq.trans hname)
  · exact hmove.right
  · refine (forall_update_iff s.pc (p := fun q c => c = .createLocked →
      Missing (t :: s.shared.tenantList) (requests q).name)).mpr
      ⟨fun e => absurd e hpc, fun q hqr hq u hu => ?_⟩
    rcases List.mem_cons.mp hu with rfl | hu
    · rw [hname]
      exact (hothers q hqr hq).symm
    · exact h.missing q hq u hu
  · exact hmove.exclusive
  · exact hmove.held
  · exact hmove.bounded

theorem invariant_wait (h : Invariant requests s)
    (hsem : s.shared.tenantSem ≠ 0) :
    Invariant requests ⟨{ s.shared with tenantSem := s.shared.tenantSem - 1 },
      Function.update s.pc r .secondLookup⟩ := by
  have hfree : ∀ q, ¬ Locked (s.pc q) := fun q hq => hsem (h.held q hq)
  have honly : ∀ q, Locked (Function.update s.pc r .secondLookup q) → q = r :=
    (forall_update_iff s.pc (p := fun q c => Locked c → q = r)).mpr
      ⟨fun _ => rfl, fun q _ hq => absurd hq (hfree q)⟩
  have hbounded := h.bounded
  constructor
  · exact h.unique
  · exact (forall_update_iff s.pc (p := fun q c => RightTenant (requests q) c)).mpr
      ⟨trivial, fun q _ => h.right q⟩
  · exact (forall_update_iff s.pc
      (p := fun q c => c = .createLocked → Missing s.shared.tenantList (requests q).name)).mpr
      ⟨(nomatch ·), fun q _ => h.missing q⟩
  · intro q q' hq hq'
    rw [honly q hq, honly q' hq']
  · intro q _
    change s.shared.tenantSem - 1 = 0
    omega
  · change s.shared.tenantSem - 1 ≤ 1
    omega

theorem invariant_post (h : Invariant requests s) {t : Tenant} (hpc : s.pc r = .semPost t) :
    Invariant requests ⟨{ s.shared with tenantSem := s.shared.tenantSem + 1 },
      Function.update s.pc r (.continues t)⟩ := by
  have hlocked : Locked (s.pc r) := by rw [hpc]; trivial
  have hfree : ∀ q, ¬ Locked (Function.update s.pc r (.continues t) q) :=
    (forall_update_iff s.pc (p := fun _ c => ¬ Locked c)).mpr
      ⟨id, fun q hqr hq => hqr (h.exclusive q r hq hlocked)⟩
  have hright : RightTenant (requests r) (.continues t) := by
    have hr := h.right r
    rwa [hpc] at hr
  have hmove : Invariant requests ⟨s.shared, Function.update s.pc r (.continues t)⟩ :=
    invariant_move h rfl rfl False.elim hright fun e => by cases e
  have hzero := h.held r hlocked
  exact ⟨hmove.unique, hmove.right, hmove.missing, hmove.exclusive,
    fun q hq => absurd hq (hfree q), by change s.shared.tenantSem + 1 ≤ 1; omega⟩

theorem create_invariant (h : Invariant requests s) {f : Tenant → Pc}
    (hlen : (requests r).name.length ≤ 50)
    (hmiss : (requests r).name ≠ [] → Missing s.shared.tenantList (requests r).name)
    (hothers : (requests r).name ≠ [] →
      ∀ q, q ≠ r → s.pc q = .createLocked → (requests q).name ≠ (requests r).name)
    (hlocked : ∀ t, Locked (f t) → Locked (s.pc r))
    (hright : ∀ t, t.tenant = (requests r).name → RightTenant (requests r) (f t))
    (hpc : ∀ t, f t ≠ .createLocked) :
    Invariant requests ⟨(orionldTenantCreate s.shared (requests r).name).1,
      Function.update s.pc r (f (orionldTenantCreate s.shared (requests r).name).2)⟩ := by
  have hname := create_name s.shared hlen
  by_cases hnil : (requests r).name = []
  · have hkeep : (orionldTenantCreate s.shared (requests r).name).1 = s.shared := by
      rw [hnil, create_nil]
    rw [hkeep]
    exact invariant_move h rfl rfl (hlocked _) (hright _ hname) fun e => absurd e (hpc _)
  · have hnew : (orionldTenantCreate s.shared (requests r).name).1 = { s.shared with tenantList :=
          (orionldTenantCreate s.shared (requests r).name).2 :: s.shared.tenantList } := by
      rw [create_ne _ hnil]
    rw [hnew]
    exact invariant_insert h hname (hmiss hnil) (hothers hnil) (hlocked _) (hright _ hname) (hpc _)

theorem firstLookup_right (req : Request) (sh : Shared) : RightTenant req (firstLookup req sh) := by
  unfold firstLookup
  cases hname : req.tenantName with
  | none => simp [RightTenant, Request.name, hname, tenant0]
  | some tenantName =>
    have hreq : req.name = tenantName := by rw [Request.name, hname]; rfl
    dsimp only
    cases hlook : orionldTenantLookup sh tenantName with
    | none => by_cases hsure : req.makeSureTenantExists <;> simp [hsure, RightTenant]
    | some t =>
      have ht := (lookup_name hlook).trans hreq.symm
      by_cases hsure : req.makeSureTenantExists <;> simp [hsure, RightTenant, ht]

theorem firstLookup_unlocked (req : Request) (sh : Shared) : ¬ Locked (firstLookup req sh) := by
  unfold firstLookup
  cases req.tenantName with
  | none => exact id
  | some tenantName =>
    dsimp only
    cases orionldTenantLookup sh tenantName with
    | none | some t => by_cases hsure : req.makeSureTenantExists <;> simp [hsure, Locked]

theorem step_invariant (hlen : ∀ r, (requests r).name.length ≤ 50) (h : Invariant requests s)
    (e : Event R) (hok : InsertsAlone requests s e) : Invariant requests (step requests s e) := by
  obtain ⟨r, answer⟩ := e
  have hright := h.right r
  unfold step
  cases hpc : s.pc r with
  | start =>
    refine invariant_move h rfl rfl (fun hl => absurd hl (firstLookup_unlocked _ _))
      (firstLookup_right _ _) fun heq => ?_
    have hfirst : firstLookup (requests r) s.shared = .createLocked := heq
    have hnot := firstLookup_unlocked (requests r) s.shared
    rw [hfirst] at hnot
    exact absurd trivial hnot
  | dbTenantExists =>
    cases answer
    · exact invariant_move h rfl rfl False.elim trivial fun heq => by cases heq
    · exact invariant_move h rfl rfl False.elim trivial fun heq => by cases heq
  | create =>
    exact create_invariant (f := Pc.continues) h (hlen r) (fun hne => (hok hpc hne).1)
      (fun hne q _ hq => (hok hpc hne).2 q hq) (fun _ hl => hl.elim) (fun _ ht => ht)
      fun t heq => by cases heq
  | cacheFound t | continues t =>
    rw [hpc] at hright
    exact invariant_move h rfl rfl False.elim hright fun heq => by cases heq
  | semWait =>
    by_cases hsem : s.shared.tenantSem = 0
    · simp only [advance, hsem, if_true]
      exact invariant_move h rfl rfl False.elim trivial fun heq => by cases heq
    · simp only [advance, hsem, if_false]
      exact invariant_wait h hsem
  | secondLookup =>
    cases hlook : orionldTenantLookup s.shared (requests r).name with
    | none =>
      simp only [advance, hlook]
      exact invariant_move h rfl rfl (fun _ => by rw [hpc]; trivial) trivial
        fun _ => missing_of_lookup hlook
    | some t =>
      simp only [advance, hlook]
      exact invariant_move h rfl rfl (fun _ => by rw [hpc]; trivial) (lookup_name hlook)
        fun heq => by cases heq
  | createLocked =>
    have hheld : Locked (s.pc r) := by rw [hpc]; trivial
    refine create_invariant (f := Pc.cacheLocked) h (hlen r) (fun _ => h.missing r hpc)
      (fun _ q hqr hq => absurd (h.exclusive q r (by rw [hq]; trivial) hheld) hqr)
      (fun _ _ => hheld) (fun _ ht => ht) fun t heq => by cases heq
  | cacheLocked t =>
    rw [hpc] at hright
    exact invariant_move h rfl rfl (fun _ => by rw [hpc]; trivial) hright
      fun heq => by cases heq
  | semPost t => exact invariant_post h hpc
  | refused => exact invariant_move h rfl rfl False.elim trivial fun heq => by cases heq

end

section

variable {R : Type} {requests : R → Request}

variable {s : State R}

theorem Invariant.oneTenantPerName (h : Invariant requests s) : OneTenantPerName requests s := by
  refine ⟨h.unique, fun r t hpc => ?_⟩
  have hright := h.right r
  rwa [hpc] at hright

variable [DecidableEq R]

theorem duplicate_of_insert {r : R} (answer : Bool)
    (hpc : s.pc r = .create ∨ s.pc r = .createLocked) (hne : (requests r).name ≠ [])
    (hlen : (requests r).name.length ≤ 50)
    (hmiss : ¬ Missing s.shared.tenantList (requests r).name) :
    ¬ OneTenantPerName requests (step requests s ⟨r, answer⟩) := by
  have hlist : (step requests s ⟨r, answer⟩).shared.tenantList =
      newTenant (requests r).name :: s.shared.tenantList := by
    rcases hpc with hpc | hpc <;> simp [step, hpc, advance, create_ne _ hne]
  rintro ⟨hunique, -⟩
  rw [hlist, List.map_cons, List.nodup_cons, newTenant_name hlen] at hunique
  exact hmiss fun t ht heq => hunique.1 (List.mem_map.mpr ⟨t, ht, heq⟩)

/-- It leads to a second tenant of the name, at once or when the request with the semaphore moves.
-/
theorem duplicate_of_unguarded (hlen : ∀ r, (requests r).name.length ≤ 50) (e : Event R)
    (hnot : ¬ InsertsAlone requests s e) :
    ∃ es, ¬ OneTenantPerName requests (run (step requests) s (e :: es)) := by
  obtain ⟨r, answer⟩ := e
  rw [InsertsAlone, Classical.not_imp, Classical.not_imp] at hnot
  obtain ⟨hpc, hne, hnot⟩ := hnot
  by_cases hmiss : Missing s.shared.tenantList (requests r).name
  · rw [Classical.not_and_iff_not_or_not] at hnot
    rcases hnot with hnot | hnot
    · exact absurd hmiss hnot
    push Not at hnot
    obtain ⟨q, hq, hname⟩ := hnot
    have hqr : q ≠ r := by
      rintro rfl
      rw [hpc] at hq
      cases hq
    refine ⟨[⟨q, true⟩], ?_⟩
    refine duplicate_of_insert (r := q) true (.inr ?_) (hname ▸ hne) (hlen q) fun hm => ?_
    · exact (update_of_ne hqr _ _).trans hq
    · rw [hname] at hm
      refine hm (newTenant (requests r).name) ?_ (newTenant_name (hlen r))
      simp [step, hpc, advance, create_ne _ hne]
  · exact ⟨[], duplicate_of_insert answer (.inl hpc) hne (hlen r) hmiss⟩

/-- When every insertion outside the semaphore is made alone, every state has one tenant for each
name and every request continues with its own. A run that comes to another insertion can go on to
two tenants of one name. -/
theorem one_tenant_per_name (hlen : ∀ r, (requests r).name.length ≤ 50) (es : List (Event R)) :
    (Guarded (step requests) (InsertsAlone requests) initial es →
      Throughout (step requests) (OneTenantPerName requests) initial es) ∧
    ∀ e, ¬ InsertsAlone requests (run (step requests) initial es) e →
      ∃ es', ¬ OneTenantPerName requests
        (run (step requests) (run (step requests) initial es) (e :: es')) := by
  constructor
  · intro h
    exact (throughout_of_guarded (by constructor <;> simp [initial, Locked, RightTenant])
      (fun s e hs he => step_invariant hlen hs e he) h).mono fun s hs => hs.oneTenantPerName
  · intro e he
    exact duplicate_of_unguarded hlen e he

def twoRequests : Bool → Request
  | false => ⟨some "t1".toList, false⟩
  | true => ⟨some "t2".toList, true⟩

/-- One request inserts its tenant while the other one has the semaphore and looks again. -/
def twoInsertions : List (Event Bool) :=
  [⟨false, true⟩, ⟨true, true⟩, ⟨false, true⟩, ⟨true, true⟩, ⟨false, true⟩, ⟨true, true⟩,
    ⟨false, true⟩, ⟨false, true⟩, ⟨false, true⟩]

theorem one_tenant_for_each :
    Guarded (step twoRequests) (InsertsAlone twoRequests) initial twoInsertions ∧
      Throughout (step twoRequests) (OneTenantPerName twoRequests) initial twoInsertions := by
  have hguarded : Guarded (step twoRequests) (InsertsAlone twoRequests) initial twoInsertions := by
    refine ⟨?_, ?_, ?_, ?_, ?_, ?_, ?_, ?_, ?_, trivial⟩
    case refine_6 =>
      intro _ _
      exact ⟨by decide, by decide⟩
    all_goals
      intro hpc
      exact absurd hpc (by decide)
  exact ⟨hguarded, (one_tenant_per_name (by decide) _).1 hguarded⟩

def sameTenant (_ : Bool) : Request := ⟨some "t1".toList, true⟩

theorem tenant_inserted_twice :
    ¬ OneTenantPerName sameTenant (run (step sameTenant) initial
      [⟨false, true⟩, ⟨true, true⟩, ⟨false, true⟩, ⟨true, true⟩, ⟨false, true⟩, ⟨true, true⟩]) := by
  rintro ⟨hunique, -⟩
  exact absurd hunique (by decide)

end

end OrionldTenant
