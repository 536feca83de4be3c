import OrionLd.Census
import OrionLd.StepSystem

/-! SyncQOverflow, the queue between the requests that notify and the workers that send. Under the
mutex an element is added or taken, or a worker goes to sleep; a sleeping one is woken when the
mutex has been given back, and may find that another one was faster. -/
namespace SyncQOverflow

open StepSystem Census Function List

variable {τ δ : Type}

/-- Before notify_one in try_push, or woken from the wait in pop. -/
inductive Pc where
  | outside
  | notifying
  | woken
  deriving DecidableEq, Repr

/-- With the threads that wait for addedElement, and what was added and taken so far. -/
structure State (τ δ : Type) where
  queue : List δ
  waiting : List τ
  pc : τ → Pc
  added : List δ
  taken : List (τ × δ)

def start : State τ δ := ⟨[], [], fun _ => .outside, [], []⟩

/-- Which of the threads is woken is open, and a wait may end without a notification. -/
inductive Event (τ δ : Type) where
  | tryPush (t : τ) (element : δ)
  | notifyOne (t : τ) (ix : ℕ)
  | pop (t : τ)
  | wake (ix : ℕ)

variable [DecidableEq τ]

def goTo (s : State τ δ) (t : τ) (pc : Pc) : State τ δ := { s with pc := update s.pc t pc }

def wakeUp (s : State τ δ) (ix : ℕ) : State τ δ :=
  match s.waiting[ix % s.waiting.length]? with
  | none => s
  | some t => goTo { s with waiting := s.waiting.filter (· ≠ t) } t .woken

def step (maxSize : ℕ) (s : State τ δ) : Event τ δ → State τ δ
  | .tryPush t element =>
    if s.pc t = .outside ∧ t ∉ s.waiting ∧ s.queue.length < maxSize then
      goTo { s with queue := s.queue ++ [element], added := s.added ++ [element] } t .notifying
    else s
  | .notifyOne t ix => if s.pc t = .notifying then wakeUp (goTo s t .outside) ix else s
  | .pop t =>
    if s.pc t = .notifying ∨ t ∈ s.waiting then s
    else match s.queue with
      | [] => goTo { s with waiting := s.waiting ++ [t] } t .outside
      | element :: queue =>
        goTo { s with queue := queue, taken := s.taken ++ [(t, element)] } t .outside
  | .wake ix => wakeUp s ix

structure Sound (maxSize : ℕ) (s : State τ δ) : Prop where
  /-- Each element goes to one worker, in the order of their arrival. -/
  inOrder : s.added = s.taken.map Prod.snd ++ s.queue
  bounded : s.queue.length ≤ maxSize
  noLostWakeup : s.queue ≠ [] → s.waiting ≠ [] → ∃ t, s.pc t ≠ .outside

def Pc.awake : Pc → ℕ
  | .outside => 0
  | .notifying | .woken => 1

/-- While somebody sleeps there is somebody awake for each element, or one element more. -/
structure Kept (maxSize more : ℕ) (s : State τ δ) : Prop where
  inOrder : s.added = s.taken.map Prod.snd ++ s.queue
  bounded : s.queue.length ≤ maxSize
  asleep : ∀ t ∈ s.waiting, s.pc t = .outside
  awake : ∃ n, Accounts Pc.awake s.pc 0 n ∧ (s.waiting ≠ [] → s.queue.length ≤ n + more)

variable {maxSize more more' : ℕ} {s s' : State τ δ} {t : τ} {p : Pc}

/-- A thread goes to p, and the rest of the state changes with it. -/
theorem Kept.go (k : Kept maxSize more s) (hpc : s'.pc = s.pc)
    (hinOrder : s'.added = s'.taken.map Prod.snd ++ s'.queue)
    (hbounded : s'.queue.length ≤ maxSize)
    (hasleep : ∀ u ∈ s'.waiting, u ≠ t → u ∈ s.waiting) (hself : t ∈ s'.waiting → p = .outside)
    (hawake : ∀ n, s'.waiting ≠ [] → (s.waiting ≠ [] → s.queue.length ≤ n + (s.pc t).awake + more) →
      s'.queue.length ≤ n + p.awake + more') : Kept maxSize more' (goTo s' t p) := by
  obtain ⟨n, hn, hle⟩ := k.awake
  obtain ⟨m, rfl, -, hmove⟩ := hn.split t
  refine ⟨hinOrder, hbounded, fun u hu => ?_, _, hpc ▸ hmove 0 p, fun hne => ?_⟩
  · dsimp only [goTo]
    rw [hpc]
    rcases eq_or_ne u t with rfl | hne
    · rw [update_self]
      exact hself hu
    · rw [update_of_ne hne]
      exact k.asleep u (hasleep u hu hne)
  · have := hawake m hne fun h => by have := hle h; omega
    dsimp only [goTo]
    omega

theorem wakeUp_kept (k : Kept maxSize 1 s) (ix : ℕ) : Kept maxSize 0 (wakeUp s ix) := by
  unfold wakeUp
  cases hu : s.waiting[ix % s.waiting.length]? with
  | none =>
    have hnil : s.waiting = [] := by
      by_contra hne
      have hlt := Nat.mod_lt ix (length_pos_iff.mpr hne)
      exact Nat.not_le.mpr hlt (getElem?_eq_none_iff.mp hu)
    obtain ⟨n, hn, -⟩ := k.awake
    exact ⟨k.inOrder, k.bounded, k.asleep, n, hn, fun hne => absurd hnil hne⟩
  | some u =>
    have hmem : u ∈ s.waiting := mem_of_getElem? hu
    refine k.go rfl k.inOrder k.bounded ?_ ?_ fun n _ hle => ?_
    · exact fun v hv _ => mem_of_mem_filter hv
    · exact fun hself => absurd rfl (of_decide_eq_true (mem_filter.mp hself).2)
    · have := hle (ne_nil_of_mem hmem)
      rwa [k.asleep u hmem] at this

theorem step_kept (k : Kept maxSize 0 s) (e : Event τ δ) : Kept maxSize 0 (step maxSize s e) := by
  cases e with
  | tryPush t element =>
    dsimp only [step]
    split
    · rename_i hroom
      obtain ⟨hpc, hnot, hlt⟩ := hroom
      refine k.go rfl ?_ ?_ (fun _ hu _ => hu) (absurd · hnot) fun n hne hle => ?_
      · rw [k.inOrder, append_assoc]
      · rw [length_append]
        exact hlt
      · have := hle hne
        rw [hpc] at this
        simpa [Pc.awake] using this
    · exact k
  | notifyOne t ix =>
    dsimp only [step]
    split
    · rename_i hpc
      refine wakeUp_kept (k.go rfl k.inOrder k.bounded (fun _ hu _ => hu) (fun _ => rfl) ?_) ix
      intro n hne hle
      have := hle hne
      rwa [hpc] at this
    · exact k
  | wake ix =>
    obtain ⟨n, hn, hle⟩ := k.awake
    refine wakeUp_kept ⟨k.inOrder, k.bounded, k.asleep, n, hn, fun hne => ?_⟩ ix
    exact (hle hne).trans n.le_succ
  | pop t =>
    dsimp only [step]
    split
    · exact k
    cases hqueue : s.queue with
    | nil =>
      refine k.go rfl (hqueue ▸ k.inOrder) (Nat.zero_le _) (fun u hu hne => ?_) (fun _ => rfl)
        fun _ _ _ => Nat.zero_le _
      exact (mem_append.mp hu).resolve_right fun h => hne (mem_singleton.mp h)
    | cons element queue =>
      have hlength := hqueue ▸ k.bounded
      refine k.go rfl ?_ ((Nat.le_succ _).trans hlength) (fun _ hu _ => hu) (fun _ => rfl) ?_
      · rw [k.inOrder, hqueue, map_append, append_assoc]
        rfl
      · -- The thread that takes the element was one of those that were awake, or came to it.
        intro n hne hle
        have hone : (s.pc t).awake ≤ 1 := by cases s.pc t <;> decide
        have := hle hne
        rw [hqueue, length_cons] at this
        dsimp only [Pc.awake]
        omega

/-- In every run the elements are taken in their order, each by one worker, and none of them stays
in the queue while all workers sleep. -/
theorem queue_sound (maxSize : ℕ) (events : List (Event τ δ)) :
    Throughout (step maxSize) (Sound maxSize) start events := by
  have hstart : Kept maxSize 0 (start : State τ δ) :=
    ⟨rfl, Nat.zero_le _, nofun, 0, accounts_self fun _ => rfl, nofun⟩
  refine Throughout.mono (fun s k => ?_)
    (throughout_of_guarded hstart (fun s e k _ => step_kept k e) guarded_true)
  refine ⟨k.inOrder, k.bounded, fun hqueue hwaiting => ?_⟩
  obtain ⟨n, hn, hle⟩ := k.awake
  have hpos := length_pos_iff.mpr hqueue
  have hle := hle hwaiting
  obtain ⟨t, ht⟩ := hn.exists_of_ne (by omega)
  exact ⟨t, fun hpc => ht (hpc ▸ rfl)⟩

end SyncQOverflow
