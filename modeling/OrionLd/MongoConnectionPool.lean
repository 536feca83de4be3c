import OrionLd.Census
import OrionLd.StepSystem

/-! The threads of the pool of mongo connections: mongoPoolConnectionGet and
mongoPoolConnectionRelease. The counting semaphore is kept until the connection is given back, so
that whoever comes to the slots finds a free one. -/
namespace MongoConnectionPool

open StepSystem Census Function List

variable {τ κ : Type}

structure MongoConnection (κ : Type) where
  connection : κ
  free : Bool
  deriving DecidableEq, Repr

inductive Pc (κ : Type) where
  | outside
  | waiting
  | searching
  | found (connection : Option κ)
  | holding (connection : Option κ)
  | releasing (connection : Option κ)
  | freed
  | posted
  deriving DecidableEq, Repr

structure Pool (τ κ : Type) where
  connectionSem : ℕ
  connectionPoolSem : ℕ
  connectionPool : List (MongoConnection κ)
  pc : τ → Pc κ

/-- The connections that mongoConnect has made. -/
def mongoConnectionPoolInit (made : List κ) : Pool τ κ where
  connectionSem := made.length
  connectionPoolSem := 1
  connectionPool := made.map (⟨·, true⟩)
  pc := fun _ => .outside

/-- The loop of mongoPoolConnectionGet. -/
def takeFree : List (MongoConnection κ) → Option κ × List (MongoConnection κ)
  | [] => (none, [])
  | c :: pool =>
    if c.free then (some c.connection, ⟨c.connection, false⟩ :: pool)
    else ((takeFree pool).1, c :: (takeFree pool).2)

/-- The loop of mongoPoolConnectionRelease, and whether it has found the connection. -/
def giveBack [DecidableEq κ] (connection : Option κ) :
    List (MongoConnection κ) → Bool × List (MongoConnection κ)
  | [] => (false, [])
  | c :: pool =>
    if some c.connection = connection then (true, ⟨c.connection, true⟩ :: pool)
    else ((giveBack connection pool).1, c :: (giveBack connection pool).2)

variable [DecidableEq τ] [DecidableEq κ]

def goTo (s : Pool τ κ) (t : τ) (pc : Pc κ) : Pool τ κ := { s with pc := update s.pc t pc }

/-- A thread that waits for a semaphore stays where it is. -/
def step (s : Pool τ κ) (t : τ) : Pool τ κ :=
  match s.pc t with
  | .outside => if s.connectionSem = 0 then s
      else goTo { s with connectionSem := s.connectionSem - 1 } t .waiting
  | .waiting => if s.connectionPoolSem = 0 then s
      else goTo { s with connectionPoolSem := s.connectionPoolSem - 1 } t .searching
  | .searching =>
    let (connection, pool) := takeFree s.connectionPool
    goTo { s with connectionPool := pool } t (.found connection)
  | .found connection =>
    goTo { s with connectionPoolSem := s.connectionPoolSem + 1 } t (.holding connection)
  | .holding connection => if s.connectionPoolSem = 0 then s
      else goTo { s with connectionPoolSem := s.connectionPoolSem - 1 } t (.releasing connection)
  | .releasing connection =>
    let (isHere, pool) := giveBack connection s.connectionPool
    goTo { s with connectionPool := pool } t (if isHere then .freed else .posted)
  | .freed => goTo { s with connectionSem := s.connectionSem + 1 } t .posted
  | .posted => goTo { s with connectionPoolSem := s.connectionPoolSem + 1 } t .outside

structure Sound (made : List κ) (s : Pool τ κ) : Prop where
  exclusive : ∀ t u c, s.pc t = .holding (some c) → s.pc u = .holding (some c) → t = u
  served : ∀ t, s.pc t ≠ .holding none
  restored : (∀ t, s.pc t = .outside) → s = mongoConnectionPoolInit made
  /-- There is always a thread that does not wait. -/
  moving : τ → made ≠ [] → ∃ u, step s u ≠ s

variable {pool : List (MongoConnection κ)} {c d : κ} {s : Pool τ κ} {t u : τ} {made : List κ}

def connections (pool : List (MongoConnection κ)) : List κ := pool.map MongoConnection.connection

/-- How often the connection is marked as taken. -/
def busy (c : κ) (pool : List (MongoConnection κ)) : ℕ :=
  pool.countP fun b => b.connection = c ∧ b.free = false

def freeSlots (pool : List (MongoConnection κ)) : ℕ := pool.countP (·.free)

omit [DecidableEq κ] in
theorem takeFree_none (h : (takeFree pool).1 = none) : freeSlots pool = 0 := by
  induction pool with
  | nil => rfl
  | cons c pool ih =>
    unfold takeFree at h
    split at h
    · cases h
    · rename_i hfree
      rw [freeSlots, countP_cons_of_neg hfree]
      exact ih h

omit [DecidableEq κ] in
theorem takeFree_some (h : (takeFree pool).1 = some c) :
    ∃ l r, pool = l ++ ⟨c, true⟩ :: r ∧ (takeFree pool).2 = l ++ ⟨c, false⟩ :: r := by
  induction pool with
  | nil => cases h
  | cons b pool ih =>
    obtain ⟨b, free⟩ := b
    cases free with
    | true =>
      cases h
      exact ⟨[], pool, rfl, rfl⟩
    | false =>
      obtain ⟨l, r, hpool, htaken⟩ := ih h
      exact ⟨⟨b, false⟩ :: l, r, congrArg _ hpool, congrArg (_ :: ·) htaken⟩

theorem busy_eq_zero (h : c ∉ connections pool) : busy c pool = 0 := by
  rw [busy, countP_eq_zero]
  intro b hb hbusy
  exact h (mem_map.mpr ⟨b, hb, (of_decide_eq_true hbusy).1⟩)

/-- A connection that is taken is found where it is marked as taken. -/
theorem giveBack_busy (hnodup : (connections pool).Nodup) (h : busy c pool ≠ 0) :
    ∃ l r, pool = l ++ ⟨c, false⟩ :: r ∧ giveBack (some c) pool = (true, l ++ ⟨c, true⟩ :: r) := by
  induction pool with
  | nil => exact absurd rfl h
  | cons b pool ih =>
    obtain ⟨b, free⟩ := b
    rw [connections, map_cons, nodup_cons] at hnodup
    by_cases hbc : b = c
    · subst hbc
      cases free with
      | true =>
        rw [busy, countP_cons_of_neg (by simp)] at h
        exact absurd (busy_eq_zero hnodup.1) h
      | false => exact ⟨[], pool, rfl, if_pos rfl⟩
    · have hrest : busy c pool ≠ 0 := by simpa [busy, countP_cons, hbc] using h
      obtain ⟨l, r, hpool, hgiven⟩ := ih hnodup.2 hrest
      refine ⟨⟨b, free⟩ :: l, r, congrArg _ hpool, ?_⟩
      rw [giveBack, if_neg fun heq => hbc (Option.some.inj heq), hgiven]
      rfl

/-- One slot is taken or given back. -/
theorem slot_marked (l r : List (MongoConnection κ)) (c : κ) :
    connections (l ++ ⟨c, true⟩ :: r) = connections (l ++ ⟨c, false⟩ :: r) ∧
      freeSlots (l ++ ⟨c, true⟩ :: r) = freeSlots (l ++ ⟨c, false⟩ :: r) + 1 ∧
      ∀ d, busy d (l ++ ⟨c, false⟩ :: r) =
        busy d (l ++ ⟨c, true⟩ :: r) + if c = d then 1 else 0 := by
  simp [connections, freeSlots, busy, countP_cons, add_assoc]

/-- One thread at most is between a wait for connectionPoolSem and its post. -/
def Pc.inside : Pc κ → ℕ
  | .searching | .found _ | .releasing _ | .freed | .posted => 1
  | .outside | .waiting | .holding _ => 0

/-- What connectionSem does not count of the slots that are free. -/
def Pc.claims : Pc κ → ℕ
  | .waiting | .searching | .freed => 1
  | .outside | .found _ | .holding _ | .releasing _ | .posted => 0

def Pc.held : Pc κ → Option (Option κ)
  | .found connection | .holding connection | .releasing connection => some connection
  | .outside | .waiting | .searching | .freed | .posted => none

def Pc.holds (c : κ) (p : Pc κ) : ℕ := if p.held = some (some c) then 1 else 0

/-- The semaphores and the marks of the slots tell what the threads have. -/
structure Kept (made : List κ) (s : Pool τ κ) : Prop where
  made : connections s.connectionPool = made
  inside : Accounts Pc.inside s.pc s.connectionPoolSem 1
  claims : Accounts Pc.claims s.pc s.connectionSem (freeSlots s.connectionPool)
  holds : ∀ c, Accounts (Pc.holds c) s.pc 0 (busy c s.connectionPool)
  served : ∀ t, (s.pc t).held ≠ some none

omit [DecidableEq τ] in
theorem kept_init (made : List κ) : Kept made (mongoConnectionPoolInit made : Pool τ κ) := by
  have hfree : freeSlots (made.map (⟨·, true⟩)) = made.length := by
    simp [freeSlots, countP_map, Function.comp_def]
  have hbusy : ∀ c, busy c (made.map (⟨·, true⟩)) = 0 := by
    simp [busy, countP_map, Function.comp_def]
  constructor
  · simp [connections, mongoConnectionPoolInit, Function.comp_def]
  · exact accounts_self fun _ => rfl
  · exact hfree ▸ accounts_self fun _ => rfl
  · exact fun c => hbusy c ▸ accounts_self fun _ => rfl
  · exact fun _ => nofun

/-- A thread goes from q to p, and the rest of the state changes as its weights do. -/
theorem Kept.go {s' : Pool τ κ} {p q : Pc κ} (k : Kept made s) (hq : s.pc t = q)
    (hpc : s'.pc = s.pc) (hsame : connections s'.connectionPool = connections s.connectionPool)
    (hinside : s'.connectionPoolSem + p.inside = s.connectionPoolSem + q.inside)
    (hclaims : s'.connectionSem + p.claims + freeSlots s.connectionPool =
      s.connectionSem + q.claims + freeSlots s'.connectionPool)
    (hholds : ∀ c, busy c s'.connectionPool + q.holds c = busy c s.connectionPool + p.holds c)
    (hserved : p.held ≠ some none) : Kept made (goTo s' t p) := by
  rw [← hq] at hinside hclaims hholds
  unfold goTo
  rw [hpc]
  constructor
  · exact hsame.trans k.made
  · exact k.inside.move (by dsimp only; omega)
  · exact k.claims.move (by dsimp only; omega)
  · exact fun c => (k.holds c).move (by have hc := hholds c; dsimp only; omega)
  · intro u
    dsimp only
    rcases eq_or_ne u t with rfl | hne
    · rwa [update_self]
    · rw [update_of_ne hne]
      exact k.served u

/-- The thread only takes or gives back the semaphore of the slots. -/
theorem Kept.pass {connectionPoolSem : ℕ} {p q : Pc κ} (k : Kept made s) (hq : s.pc t = q)
    (hinside : connectionPoolSem + p.inside = s.connectionPoolSem + q.inside)
    (hclaims : p.claims = q.claims) (hheld : p.held = q.held) :
    Kept made (goTo { s with connectionPoolSem := connectionPoolSem } t p) := by
  refine k.go hq rfl rfl hinside (by rw [hclaims]) ?_ (hheld ▸ hq ▸ k.served t)
  intro c
  rw [Pc.holds, Pc.holds, hheld]

theorem step_kept (hnodup : made.Nodup) (k : Kept made s) (t : τ) : Kept made (step s t) := by
  cases hpc : s.pc t with
  | outside =>
    simp only [step, hpc]
    split
    · exact k
    · refine k.go hpc rfl rfl rfl ?_ (fun _ => rfl) nofun
      dsimp only [Pc.claims]
      omega
  | waiting | holding connection =>
    simp only [step, hpc]
    split
    · exact k
    · refine k.pass hpc ?_ rfl rfl
      dsimp only [Pc.inside]
      omega
  | found connection | posted =>
    simp only [step, hpc]
    exact k.pass hpc rfl rfl rfl
  | freed =>
    simp only [step, hpc]
    exact k.go hpc rfl rfl rfl rfl (fun _ => rfl) nofun
  | searching =>
    simp only [step, hpc]
    cases hfound : (takeFree s.connectionPool).1 with
    | none =>
      -- The thread has a claim on a slot, so that one is free.
      have hclaim := k.claims.le t
      rw [hpc, Pc.claims, takeFree_none hfound] at hclaim
      omega
    | some c =>
      obtain ⟨l, r, hpool, htaken⟩ := takeFree_some hfound
      obtain ⟨hsame, hfree, hbusy⟩ := slot_marked l r c
      rw [← hpool, ← htaken] at hsame hfree hbusy
      refine k.go hpc rfl hsame.symm rfl ?_ ?_ nofun
      · dsimp only [Pc.claims]
        omega
      · intro d
        simpa [Pc.holds, Pc.held] using hbusy d
  | releasing connection =>
    simp only [step, hpc]
    cases connection with
    | none => exact absurd (hpc ▸ rfl) (k.served t)
    | some c =>
      have htaken := (k.holds c).le t
      rw [hpc, Pc.holds, Pc.held, if_pos rfl] at htaken
      have hne : busy c s.connectionPool ≠ 0 := by omega
      obtain ⟨l, r, hpool, hgiven⟩ := giveBack_busy (k.made ▸ hnodup) hne
      obtain ⟨hsame, hfree, hbusy⟩ := slot_marked l r c
      rw [← hpool] at hsame hfree hbusy
      simp only [hgiven, if_true]
      refine k.go hpc rfl hsame rfl ?_ ?_ nofun
      · dsimp only [Pc.claims]
        omega
      · intro d
        simpa [Pc.holds, Pc.held] using (hbusy d).symm

theorem busy_le_one (hnodup : (connections pool).Nodup) : busy c pool ≤ 1 := by
  calc busy c pool ≤ pool.countP (fun b => b.connection = c) :=
        countP_mono_left fun b _ hb => decide_eq_true (of_decide_eq_true hb).1
    _ = (connections pool).count c := by
        rw [count, connections, countP_map]
        exact countP_congr fun b _ => by simp
    _ ≤ 1 := nodup_iff_count_le_one.mp hnodup c

theorem Kept.exclusive (k : Kept made s) (hnodup : made.Nodup)
    (ht : s.pc t = .holding (some c)) (hu : s.pc u = .holding (some c)) : t = u := by
  by_contra hne
  obtain ⟨m, hm, hothers, -⟩ := (k.holds c).split t
  have hother := hothers u (Ne.symm hne)
  rw [ht, Pc.holds, Pc.held, if_pos rfl] at hm
  rw [hu, Pc.holds, Pc.held, if_pos rfl] at hother
  have hone : busy c s.connectionPool ≤ 1 := busy_le_one (k.made ▸ hnodup)
  omega

omit [DecidableEq τ] in
theorem Kept.restored (k : Kept made s) (h : ∀ t, s.pc t = .outside) :
    s = mongoConnectionPoolInit made := by
  have hsem := k.inside.eq fun t => h t ▸ rfl
  have hslots := k.claims.eq fun t => h t ▸ rfl
  have hfree : ∀ b ∈ s.connectionPool, b.free = true := by
    intro b hb
    by_contra hbusy
    have hzero := (k.holds b.connection).eq fun t => h t ▸ rfl
    exact countP_eq_zero.mp hzero.symm b hb (by simpa using hbusy)
  have hpool : s.connectionPool = made.map (⟨·, true⟩) := by
    rw [← k.made, connections, map_map]
    refine (map_id _).symm.trans (map_congr_left ?_)
    intro b hb
    rw [comp_apply, ← hfree b hb]
    rfl
  have hlength : freeSlots s.connectionPool = made.length := by
    rw [freeSlots, countP_eq_length.mpr hfree, hpool, length_map]
  obtain ⟨connectionSem, connectionPoolSem, connectionPool, pc⟩ := s
  obtain rfl : pc = fun _ => .outside := funext h
  simp only [mongoConnectionPoolInit, Pool.mk.injEq, and_true]
  exact ⟨hslots.trans hlength, hsem, hpool⟩

/-- When nobody moves nobody is inside, so that nobody waits for one who is, and all are outside. -/
theorem Kept.moving (k : Kept made s) (t : τ) (h : made ≠ []) : ∃ u, step s u ≠ s := by
  by_contra hstuck
  push Not at hstuck
  have hstay : ∀ u, (step s u).pc u = s.pc u := fun u => by rw [hstuck]
  have hinside : ∀ u, (s.pc u).inside = 0 := by
    intro u
    have hu := hstay u
    cases hpc : s.pc u with
    | outside | waiting | holding connection => rfl
    | searching | found connection | freed | posted => simp [step, hpc, goTo] at hu
    | releasing connection =>
      simp only [step, hpc, goTo, update_self] at hu
      split at hu <;> cases hu
  have hsem := k.inside.eq hinside
  have houtside : ∀ u, s.pc u = .outside := by
    intro u
    have hu := hstay u
    have hout := hinside u
    cases hpc : s.pc u with
    | outside => rfl
    | waiting | holding connection => simp [step, hpc, goTo, hsem] at hu
    | searching | found connection | releasing connection | freed | posted =>
      rw [hpc] at hout
      cases hout
  have ht := hstay t
  rw [k.restored houtside] at ht
  simp [step, mongoConnectionPoolInit, goTo, h] at ht

theorem Kept.sound (k : Kept made s) (hnodup : made.Nodup) : Sound made s where
  exclusive _ _ _ := k.exclusive hnodup
  served t ht := k.served t (by rw [ht]; rfl)
  restored := k.restored
  moving := k.moving

/-- Whatever the order of the steps, every caller gets a connection of its own, none gets lost, and
the threads do not all wait for each other. -/
theorem pool_sound (hmade : made.Nodup) (ts : List τ) :
    Throughout step (Sound made) (mongoConnectionPoolInit made) ts := by
  refine Throughout.mono (fun _ (k : Kept made _) => k.sound hmade) ?_
  exact throughout_of_guarded (kept_init made) (fun s t k _ => step_kept hmade k t) guarded_true

theorem two_connections_sound :
    Throughout step (Sound [false, true]) (mongoConnectionPoolInit [false, true])
      [0, 1, 2, 0, 0, 1, 0] :=
  pool_sound (by decide) [(0 : ℕ), 1, 2, 0, 0, 1, 0]

end MongoConnectionPool
