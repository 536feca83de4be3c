import OrionLd.FieldList
import OrionLd.KjTree
import OrionLd.StepSystem

/-! The alarm manager under any number of threads. Each test outside the semaphore and each section
inside it is one step of a thread. -/
namespace AlarmManager

open KjTree (Text)
open FieldList
open StepSystem

structure Manager where
  badInputs : ℤ
  badInputResets : ℤ
  notificationErrors : ℤ
  notificationErrorResets : ℤ
  dbErrors : ℤ
  dbErrorResets : ℤ
  dbOk : Bool
  notificationV : List (Text × ℤ)
  badInputV : List (Text × ℤ)
  stage : ℕ

def constructed : Manager := ⟨0, 0, 0, 0, 0, 0, true, [], [], 1⟩

def semInit (sem_init : ℤ) : ℤ := if sem_init = -1 then -1 else 0

/-- The result of semInit is converted to a bool, so success is false. -/
def init (sem_init : ℤ) (m : Manager) : Manager :=
  let m := { m with stage := 2 }
  let b : Bool := semInit sem_init ≠ 0
  if b then { m with stage := 3 } else m

inductive Call where
  | dbError
  | dbErrorReset
  | notificationError (url : Text)
  | notificationErrorReset (url : Text)
  | badInput (ip : Text)
  | badInputReset (ip : Text)
  deriving DecidableEq

/-- What a thread does next. A dbError call keeps whether it found no database alarm. -/
inductive Next where
  | idle
  | dbErrorStage (noAlarm : Bool)
  | dbErrorTest
  | dbErrorTake
  | dbErrorResetTest
  | dbErrorResetTake
  | notificationErrorTake (url : Text)
  | notificationErrorResetTake (url : Text)
  | badInputTest (ip : Text)
  | badInputTake (ip : Text)
  | badInputResetTake (ip : Text)
  deriving DecidableEq

def entry (m : Manager) : Call → Next
  | .dbError => .dbErrorStage m.dbOk
  | .dbErrorReset => .dbErrorResetTest
  | .notificationError url => .notificationErrorTake url
  | .notificationErrorReset url => .notificationErrorResetTake url
  | .badInput ip => .badInputTest ip
  | .badInputReset ip => .badInputResetTake ip

def dbErrorSection (m : Manager) : Manager :=
  { m with dbErrors := m.dbErrors + 1, dbOk := false }

def dbErrorResetSection (m : Manager) : Manager :=
  { m with dbErrorResets := m.dbErrorResets + 1, dbOk := true }

def raiseIn (key : Text) (raised : ℤ) (v : List (Text × ℤ)) : ℤ × List (Text × ℤ) :=
  match v.lookup key with
  | some times => (raised, put key (times + 1) v)
  | none => (raised + 1, put key 1 v)

def releaseIn (key : Text) (released : ℤ) (v : List (Text × ℤ)) : ℤ × List (Text × ℤ) :=
  match v.lookup key with
  | none => (released, v)
  | some _ => (released + 1, remove [key] v)

def notificationErrorSection (url : Text) (m : Manager) : Manager :=
  let (raised, v) := raiseIn url m.notificationErrors m.notificationV
  { m with notificationErrors := raised, notificationV := v }

def notificationErrorResetSection (url : Text) (m : Manager) : Manager :=
  let (released, v) := releaseIn url m.notificationErrorResets m.notificationV
  { m with notificationErrorResets := released, notificationV := v }

def badInputSection (ip : Text) (m : Manager) : Manager :=
  let (raised, v) := raiseIn ip m.badInputs m.badInputV
  { m with badInputs := raised, badInputV := v }

def badInputResetSection (ip : Text) (m : Manager) : Manager :=
  let (released, v) := releaseIn ip m.badInputResets m.badInputV
  { m with badInputResets := released, badInputV := v }

def advance (m : Manager) (badInputSeen : Bool) : Next → Manager × Bool × Next
  | .idle => (m, badInputSeen, .idle)
  | .dbErrorStage _ => (m, badInputSeen, if m.stage < 3 then .idle else .dbErrorTest)
  | .dbErrorTest => (m, badInputSeen, if m.dbOk = false then .idle else .dbErrorTake)
  | .dbErrorTake => (dbErrorSection m, badInputSeen, .idle)
  | .dbErrorResetTest => (m, badInputSeen, if m.dbOk = true then .idle else .dbErrorResetTake)
  | .dbErrorResetTake => (dbErrorResetSection m, badInputSeen, .idle)
  | .notificationErrorTake url => (notificationErrorSection url m, badInputSeen, .idle)
  | .notificationErrorResetTake url =>
    (notificationErrorResetSection url m, badInputSeen, .idle)
  | .badInputTest ip => (m, true, if badInputSeen = true then .idle else .badInputTake ip)
  | .badInputTake ip => (badInputSection ip m, badInputSeen, .idle)
  | .badInputResetTake ip => (badInputResetSection ip m, badInputSeen, .idle)

def givesUp (m : Manager) : Next → Bool
  | .dbErrorStage noAlarm => noAlarm && m.stage < 3 && m.dbOk
  | _ => false

section

variable {τ : Type*}

structure State (τ : Type*) where
  alarmMgr : Manager
  badInputSeen : τ → Bool
  next : τ → Next
  unraised : Bool

inductive Event (τ : Type*) where
  | call (t : τ) (c : Call)
  | go (t : τ)

def start (sem_init : ℤ) : State τ :=
  ⟨init sem_init constructed, fun _ => false, fun _ => .idle, false⟩

def step [DecidableEq τ] (s : State τ) : Event τ → State τ
  | .call t c =>
    if s.next t = .idle then
      { s with next := Function.update s.next t (entry s.alarmMgr c) }
    else s
  | .go t =>
    let (m, seen, next) := advance s.alarmMgr (s.badInputSeen t) (s.next t)
    { alarmMgr := m
      badInputSeen := Function.update s.badInputSeen t seen
      next := Function.update s.next t next
      unraised := s.unraised || givesUp s.alarmMgr (s.next t) }

structure Balanced (m : Manager) : Prop where
  db : m.dbErrors - m.dbErrorResets = if m.dbOk then 0 else 1
  notification : m.notificationErrors - m.notificationErrorResets = m.notificationV.length
  badInput : m.badInputs - m.badInputResets = m.badInputV.length

def BalancedAtRest (s : State τ) : Prop :=
  (∀ t, s.next t = .idle) → Balanced s.alarmMgr

/-- Balanced whenever no call is under way, and no dbError call has failed to raise. -/
def Sound (s : State τ) : Prop := BalancedAtRest s ∧ s.unraised = false

/-! A map with its two counters, whichever the alarm. -/

structure Counts (raised released : ℤ) (v : List (Text × ℤ)) : Prop where
  names : (v.map Prod.fst).Nodup
  active : raised - released = v.length

variable {raised released : ℤ} {v : List (Text × ℤ)}

theorem Counts.raise (h : Counts raised released v) (key : Text) :
    Counts (raiseIn key raised v).1 released (raiseIn key raised v).2 := by
  have active := h.active
  unfold raiseIn
  rcases hl : v.lookup key with _ | times
  · refine ⟨nodup_put h.names, ?_⟩
    rw [length_put, hl, if_neg (by simp)]
    push_cast
    omega
  · refine ⟨nodup_put h.names, ?_⟩
    rw [length_put, hl]
    exact active

theorem Counts.release (h : Counts raised released v) (key : Text) :
    Counts raised (releaseIn key released v).1 (releaseIn key released v).2 := by
  have active := h.active
  unfold releaseIn
  rcases hl : v.lookup key with _ | times
  · exact h
  refine ⟨nodup_remove h.names, ?_⟩
  have hr := length_remove h.names hl
  show raised - (released + 1) = ((remove [key] v).length : ℤ)
  omega

/-! What a run after a successful init keeps. -/

/-- No thread gets as far as the flag or the section of a database alarm. -/
def NoDbAlarm : Next → Prop
  | .dbErrorStage noAlarm => noAlarm = true
  | .dbErrorTest | .dbErrorTake | .dbErrorResetTake => False
  | _ => True

structure KeptManager (m : Manager) : Prop where
  stage : m.stage = 2
  dbOk : m.dbOk = true
  db : m.dbErrors = m.dbErrorResets
  notification : Counts m.notificationErrors m.notificationErrorResets m.notificationV
  badInput : Counts m.badInputs m.badInputResets m.badInputV

structure Kept (s : State τ) : Prop where
  manager : KeptManager s.alarmMgr
  next : ∀ t, NoDbAlarm (s.next t)

variable {m : Manager} {s : State τ}

theorem KeptManager.balanced (h : KeptManager m) : Balanced m where
  db := by
    rw [h.dbOk, h.db, sub_self]
    rfl
  notification := h.notification.active
  badInput := h.badInput.active

theorem kept_start : Kept (start 0 : State τ) where
  manager := ⟨rfl, rfl, rfl, ⟨List.nodup_nil, rfl⟩, ⟨List.nodup_nil, rfl⟩⟩
  next _ := trivial

theorem KeptManager.entry (h : KeptManager m) (c : Call) : NoDbAlarm (entry m c) := by
  rcases c with _ | _ | _ | _ | _ | _
  · exact h.dbOk
  · trivial
  · trivial
  · trivial
  · trivial
  · trivial

theorem KeptManager.advance (h : KeptManager m) (seen : Bool) (next : Next)
    (hn : NoDbAlarm next) :
    KeptManager (advance m seen next).1 ∧ NoDbAlarm (advance m seen next).2.2 := by
  rcases next with _ | noAlarm | _ | _ | _ | _ | url | url | ip | ip | ip
  · exact ⟨h, trivial⟩
  · refine ⟨h, ?_⟩
    show NoDbAlarm (if m.stage < 3 then .idle else .dbErrorTest)
    rw [if_pos (by rw [h.stage]; decide)]
    trivial
  · exact hn.elim
  · exact hn.elim
  · refine ⟨h, ?_⟩
    show NoDbAlarm (if m.dbOk = true then .idle else .dbErrorResetTake)
    rw [if_pos h.dbOk]
    trivial
  · exact hn.elim
  · exact ⟨{ h with notification := h.notification.raise url }, trivial⟩
  · exact ⟨{ h with notification := h.notification.release url }, trivial⟩
  · refine ⟨h, ?_⟩
    show NoDbAlarm (if seen = true then .idle else .badInputTake ip)
    split
    · trivial
    · trivial
  · exact ⟨{ h with badInput := h.badInput.raise ip }, trivial⟩
  · exact ⟨{ h with badInput := h.badInput.release ip }, trivial⟩

variable [DecidableEq τ]

theorem noDbAlarm_update {next : τ → Next} {t : τ} {n : Next} (h : ∀ u, NoDbAlarm (next u))
    (hn : NoDbAlarm n) (u : τ) : NoDbAlarm (Function.update next t n u) := by
  by_cases hu : u = t
  · rw [hu, Function.update_self]
    exact hn
  · rw [Function.update_of_ne hu]
    exact h u

theorem step_kept (s : State τ) (e : Event τ) (h : Kept s) : Kept (step s e) := by
  rcases e with ⟨t, c⟩ | t
  · by_cases hi : s.next t = .idle
    · rw [step, if_pos hi]
      exact ⟨h.manager, noDbAlarm_update h.next (h.manager.entry c)⟩
    · rw [step, if_neg hi]
      exact h
  · have ha := h.manager.advance (s.badInputSeen t) (s.next t) (h.next t)
    exact ⟨ha.1, noDbAlarm_update h.next ha.2⟩

def NoDbError (s : State τ) : Event τ → Prop
  | .call _ _ => True
  | .go t => ∀ noAlarm, s.next t ≠ .dbErrorStage noAlarm

omit [DecidableEq τ] in
theorem givesUp_iff (h : Kept s) (t : τ) : givesUp s.alarmMgr (s.next t) = true ↔
    ∃ noAlarm, s.next t = .dbErrorStage noAlarm := by
  have hn := h.next t
  constructor
  · intro hg
    rcases hs : s.next t with _ | noAlarm | _ | _ | _ | _ | url | url | ip | ip | ip
    case dbErrorStage => exact ⟨noAlarm, rfl⟩
    all_goals simp [hs, givesUp] at hg
  · rintro ⟨noAlarm, hs⟩
    rw [hs] at hn ⊢
    obtain rfl : noAlarm = true := hn
    simp [givesUp, h.manager.stage, h.manager.dbOk]

theorem noDbError_iff (h : Kept s) (hu : s.unraised = false) (e : Event τ) :
    NoDbError s e ↔ (step s e).unraised = false := by
  rcases e with ⟨t, c⟩ | t
  · refine iff_of_true trivial ?_
    by_cases hi : s.next t = .idle
    · rw [step, if_pos hi]
      exact hu
    · rw [step, if_neg hi]
      exact hu
  · show (∀ noAlarm, s.next t ≠ .dbErrorStage noAlarm) ↔
      (s.unraised || givesUp s.alarmMgr (s.next t)) = false
    rw [hu, Bool.false_or, ← Bool.not_eq_true, givesUp_iff h, not_exists]

/-- The counters balance throughout a run, and no alarm goes unraised, if and only if no database
error is reported. -/
theorem alarms_sound (es : List (Event τ)) :
    Throughout step Sound (start 0 : State τ) es ↔ Guarded step NoDbError (start 0) es := by
  let Quiet (s : State τ) : Prop := Kept s ∧ s.unraised = false
  have quiet : Quiet (start 0) := ⟨kept_start, rfl⟩
  refine throughout_iff_guarded quiet ?_ ?_ ?_ guarded_true
  · exact fun s h => ⟨fun _ => h.1.manager.balanced, h.2⟩
  · exact fun s e h _ ok => ⟨step_kept s e h.1, (noDbError_iff h.1 h.2 e).mp ok⟩
  · exact fun s e h _ ok hs => ok ((noDbError_iff h.1 h.2 e).mpr hs.2)

theorem dbError_raises_nothing : ¬ ∀ es : List (Event ℕ),
    Throughout step Sound (start 0 : State ℕ) es := by
  intro h
  have sound := (h [.call 0 .dbError, .go 0]).last
  exact absurd sound.2 (by decide)

end

end AlarmManager
