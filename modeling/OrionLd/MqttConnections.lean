import OrionLd.KjTree
import OrionLd.StepSystem

/-! The list of MQTT connections and the notifications sent over them. A failed connect leaves its
slot filled and the index where it was. The lookup compares an optional field only where the listed
connection has it; decided here is for which runs each connection is used by the request it was made
for only. -/
namespace MqttConnections

open List
open KjTree (Text)

structure Params where
  host : Text
  port : UInt16
  username : Option Text
  password : Option Text
  version : Option Text
  deriving DecidableEq

structure MqttClient where
  address : Text
  username : Option Text
  password : Option Text
  mqttVersion : ℕ
  deriving DecidableEq

structure MqttConnection extends Params where
  client : MqttClient
  deriving DecidableEq

structure State where
  mqttConnectionList : List MqttConnection
  mqttConnectionListSize : ℕ
  mqttConnectionListIx : ℕ
  published : List (Params × MqttConnection)
  strcmpNull : Bool

/-- The notification's own parameters and whether a connect would succeed. -/
inductive Call where
  | establish (p : Params) (connects : Bool)
  | notify (p : Params) (connects : Bool)

def mqttConnectionInit : State := ⟨[], 100, 0, [], false⟩

def addressOf (p : Params) : Text := p.host ++ ':' :: (toString p.port.toNat).toList

def mqttVersionOf (version : Option Text) : ℕ :=
  if version = some "mqtt5.0".toList then 5 else 0

/-- The address buffer has 64 bytes. -/
def mqttConnect (p : Params) : MqttClient where
  address := (addressOf p).take 63
  username := p.username
  password := p.password
  mqttVersion := mqttVersionOf p.version

/-- What strcmp says of a field, where the listed connection has it: none when the string
given is NULL. -/
def fieldDiffers (stored given : Option Text) : Option Bool :=
  match stored, given with
  | none, _ => some false
  | some _, none => none
  | some s, some g => some (g != s)

def fields (mq p : Params) : List (Option Text × Option Text) :=
  [(mq.username, p.username), (mq.password, p.password), (mq.version, p.version)]

def fieldsMatch : List (Option Text × Option Text) → Option Bool
  | [] => some true
  | f :: fs => do if ← fieldDiffers f.1 f.2 then some false else fieldsMatch fs

def connectionMatches (mq p : Params) : Option Bool :=
  if mq.port ≠ p.port then some false
  else if p.host ≠ mq.host then some false
  else fieldsMatch (fields mq p)

def mqttConnectionLookup (p : Params) : List MqttConnection → Option (Option MqttConnection)
  | [] => some none
  | mq :: list => do
    if ← connectionMatches mq.toParams p then some (some mq) else mqttConnectionLookup p list

def established (s : State) : List MqttConnection :=
  s.mqttConnectionList.take s.mqttConnectionListIx

def connectionOf (p : Params) : MqttConnection := { p with client := mqttConnect p }

def mqttConnectionAdd (s : State) (p : Params) (connects : Bool) :
    State × Option MqttConnection :=
  let mq := connectionOf p
  let s := { s with
    mqttConnectionListSize := if s.mqttConnectionListIx ≥ s.mqttConnectionListSize
      then s.mqttConnectionListSize + 20 else s.mqttConnectionListSize
    mqttConnectionList := established s ++ [mq] }
  if connects then ({ s with mqttConnectionListIx := s.mqttConnectionListIx + 1 }, some mq)
  else (s, none)

def publish (s : State) (p : Params) (mq : MqttConnection) : State :=
  { s with published := s.published ++ [(p, mq)] }

def mqttConnectionEstablish (s : State) (p : Params) (connects : Bool) : State :=
  match mqttConnectionLookup p (established s) with
  | none => { s with strcmpNull := true }
  | some (some _) => s
  | some none => (mqttConnectionAdd s p connects).1

def mqttNotification (s : State) (p : Params) (connects : Bool) : State :=
  match mqttConnectionLookup p (established s) with
  | none => { s with strcmpNull := true }
  | some (some mq) => publish s p mq
  | some none =>
    match mqttConnectionAdd s p connects with
    | (s, some mq) => publish s p mq
    | (s, none) => s

/-- A strcmp with NULL ends the broker, and no call is taken any more. -/
def step (s : State) (call : Call) : State :=
  if s.strcmpNull then s
  else match call with
    | .establish p connects => mqttConnectionEstablish s p connects
    | .notify p connects => mqttNotification s p connects

/-! What the lookup finds: the first connection the parameters are not told apart from. -/

/-- Up to the first field that both have with different values, what the connection has the
parameters have too. -/
def Differ : List (Option Text × Option Text) → Prop
  | [] => False
  | (none, _) :: fs => Differ fs
  | (some _, none) :: _ => False
  | (some s, some g) :: fs => g ≠ s ∨ Differ fs

def ToldApart (mq p : Params) : Prop :=
  mq.port ≠ p.port ∨ p.host ≠ mq.host ∨ Differ (fields mq p)

def Accepts (mq p : Params) : Prop :=
  mq.port = p.port ∧ p.host = mq.host ∧ ∀ f ∈ fields mq p, f.1 = none ∨ f.1 = f.2

instance decidableDiffer : ∀ fs, Decidable (Differ fs)
  | [] => isFalse id
  | (none, _) :: fs => decidableDiffer fs
  | (some _, none) :: _ => isFalse id
  | (some _, some _) :: fs =>
    have := decidableDiffer fs
    inferInstanceAs (Decidable (_ ∨ Differ fs))

instance (mq p : Params) : Decidable (ToldApart mq p) :=
  inferInstanceAs (Decidable (_ ∨ _ ∨ _))

instance (mq p : Params) : Decidable (Accepts mq p) :=
  inferInstanceAs (Decidable (_ ∧ _ ∧ ∀ _ ∈ _, _))

variable {fs : List (Option Text × Option Text)} {mq : MqttConnection} {p : Params}
variable {list : List MqttConnection}

theorem fieldsMatch_false : fieldsMatch fs = some false ↔ Differ fs := by
  induction fs with
  | nil => simp [fieldsMatch, Differ]
  | cons f fs ih =>
    obtain ⟨stored, given⟩ := f
    rcases stored with _ | s
    · simpa [fieldsMatch, fieldDiffers, Differ] using ih
    rcases given with _ | g
    · simp [fieldsMatch, fieldDiffers, Differ]
    by_cases hg : g = s
    · simpa [fieldsMatch, fieldDiffers, Differ, hg] using ih
    · simp [fieldsMatch, fieldDiffers, Differ, hg]

theorem fieldsMatch_true : fieldsMatch fs = some true ↔ ∀ f ∈ fs, f.1 = none ∨ f.1 = f.2 := by
  induction fs with
  | nil => simp [fieldsMatch]
  | cons f fs ih =>
    obtain ⟨stored, given⟩ := f
    rcases stored with _ | s
    · simpa [fieldsMatch, fieldDiffers] using ih
    rcases given with _ | g
    · simp [fieldsMatch, fieldDiffers]
    by_cases hg : g = s
    · simpa [fieldsMatch, fieldDiffers, hg] using ih
    · simp [fieldsMatch, fieldDiffers, hg, Ne.symm hg]

theorem connectionMatches_false {mq : Params} :
    connectionMatches mq p = some false ↔ ToldApart mq p := by
  unfold connectionMatches ToldApart
  split
  · next hp => simp [hp]
  rename_i hp
  split
  · next hh => simp [hh]
  · next hh => simpa [hp, hh] using fieldsMatch_false

theorem connectionMatches_true {mq : Params} :
    connectionMatches mq p = some true ↔ Accepts mq p := by
  unfold connectionMatches Accepts
  split
  · next hp => simp [hp]
  rename_i hp
  split
  · next hh => simp [hh]
  · next hh => simpa only [not_not.mp hp, not_not.mp hh, true_and] using fieldsMatch_true

def firstNotApart (p : Params) (list : List MqttConnection) : Option MqttConnection :=
  list.find? fun mq => ¬ ToldApart mq.toParams p

theorem firstNotApart_cons : firstNotApart p (mq :: list) =
      if ToldApart mq.toParams p then firstNotApart p list else some mq := by
  by_cases h : ToldApart mq.toParams p
  · simp [firstNotApart, h]
  · simp [firstNotApart, h]

theorem lookup_none (h : firstNotApart p list = none) :
    mqttConnectionLookup p list = some none := by
  induction list with
  | nil => rfl
  | cons mq list ih =>
    rw [firstNotApart_cons] at h
    by_cases ha : ToldApart mq.toParams p
    · rw [mqttConnectionLookup, connectionMatches_false.mpr ha]
      exact ih (by rwa [if_pos ha] at h)
    · simp [ha] at h

theorem lookup_some (h : firstNotApart p list = some mq) : mqttConnectionLookup p list =
      if Accepts mq.toParams p then some (some mq) else none := by
  induction list with
  | nil => simp [firstNotApart] at h
  | cons first list ih =>
    rw [firstNotApart_cons] at h
    by_cases ha : ToldApart first.toParams p
    · rw [mqttConnectionLookup, connectionMatches_false.mpr ha]
      exact ih (by rwa [if_pos ha] at h)
    obtain rfl : first = mq := by simpa [ha] using h
    by_cases hm : Accepts first.toParams p
    · rw [mqttConnectionLookup, connectionMatches_true.mpr hm, if_pos hm]
      rfl
    rw [if_neg hm, mqttConnectionLookup]
    rcases hc : connectionMatches first.toParams p with _ | _ | _
    · rfl
    · exact absurd (connectionMatches_false.mp hc) ha
    · exact absurd (connectionMatches_true.mp hc) hm

theorem not_differ_self : ∀ fs : List (Option Text × Option Text),
    (∀ f ∈ fs, f.1 = f.2) → ¬ Differ fs
  | [], _ => id
  | (none, _) :: fs, h => not_differ_self fs fun f hf => h f (List.mem_cons_of_mem _ hf)
  | (some s, none) :: _, _ => id
  | (some s, some g) :: fs, h => by
    have hg : g = s := by simpa using (h _ List.mem_cons_self).symm
    rintro (hn | hd)
    · exact hn hg
    · exact not_differ_self fs (fun f hf => h f (mem_cons_of_mem _ hf)) hd

theorem not_toldApart_self (p : Params) : ¬ ToldApart p p := by
  rintro (h | h | h)
  · exact h rfl
  · exact h rfl
  · exact not_differ_self (fields p p) (by simp [fields]) h

theorem accepts_self (p : Params) : Accepts p p :=
  ⟨rfl, rfl, by simp [fields]⟩

theorem lookup_own (h : list.Pairwise fun a b => ToldApart a.toParams b.toParams) (hm : mq ∈ list) :
    mqttConnectionLookup mq.toParams list = some (some mq) := by
  have first : firstNotApart mq.toParams list = some mq := by
    induction list with
    | nil => simp at hm
    | cons a list ih =>
      rw [pairwise_cons] at h
      rw [firstNotApart_cons]
      rcases mem_cons.mp hm with rfl | hm
      · rw [if_neg (not_toldApart_self _)]
      · rw [if_pos (h.1 mq hm)]
        exact ih h.2 hm
  rw [lookup_some first, if_pos (accepts_self _)]

/-! Runs of calls. -/

/-- What was asked of the MQTT server in the notification's own words. -/
def clientFor (p : Params) : MqttClient := { mqttConnect p with address := addressOf p }

structure Separate (s : State) : Prop where
  compared : s.strcmpNull = false
  sent : ∀ note ∈ s.published, note.2.toParams = note.1 ∧ note.2.client = clientFor note.1
  found : ∀ mq ∈ established s,
    mqttConnectionLookup mq.toParams (established s) = some (some mq)
  slots : s.mqttConnectionList.length ≤ s.mqttConnectionListSize

structure Kept (s : State) : Prop where
  compared : s.strcmpNull = false
  sent : ∀ note ∈ s.published, note.2.toParams = note.1 ∧ note.2.client = clientFor note.1
  apart : (established s).Pairwise fun a b => ToldApart a.toParams b.toParams
  clients : ∀ mq ∈ established s, mq.client = mqttConnect mq.toParams
  index : s.mqttConnectionListIx ≤ s.mqttConnectionList.length
  slots : s.mqttConnectionList.length ≤ s.mqttConnectionListSize

theorem Kept.separate {s : State} (h : Kept s) : Separate s where
  compared := h.compared
  sent := h.sent
  found _ hm := lookup_own h.apart hm
  slots := h.slots

theorem kept_init : Kept mqttConnectionInit where
  compared := rfl
  sent := by simp [mqttConnectionInit]
  apart := List.Pairwise.nil
  clients := by simp [established, mqttConnectionInit]
  index := Nat.zero_le _
  slots := Nat.zero_le _

def Fits (p : Params) : Prop := (addressOf p).length ≤ 63

theorem fits_iff : mqttConnect p = clientFor p ↔ Fits p := by
  constructor
  · intro h
    have he : (addressOf p).take 63 = addressOf p := congrArg MqttClient.address h
    rw [Fits, ← he]
    exact length_take_le _ _
  · intro h
    simp [mqttConnect, clientFor, take_of_length_le h]

/-- The first connection that is not told apart accepts the parameters; a notification finds its own
there, or its address fits the buffer. -/
def Separable (s : State) : Call → Prop
  | .establish p _ =>
    ∀ mq ∈ firstNotApart p (established s), Accepts mq.toParams p
  | .notify p connects =>
    (∀ mq ∈ firstNotApart p (established s), mq.toParams = p) ∧
      (Fits p ∨ firstNotApart p (established s) = none ∧ connects = false)

variable {s : State} {connects : Bool}

theorem Kept.length_established (h : Kept s) : (established s).length = s.mqttConnectionListIx := by
  rw [established, length_take, Nat.min_eq_left h.index]

theorem Kept.established_add (h : Kept s) :
    established (mqttConnectionAdd s p connects).1 =
      if connects then established s ++ [connectionOf p] else established s := by
  have hl := h.length_established
  rcases connects with _ | _
  · rw [if_neg (by simp)]
    exact take_left' hl
  rw [if_pos rfl]
  apply take_of_length_le
  show (established s ++ [connectionOf p]).length ≤ s.mqttConnectionListIx + 1
  rw [length_append, hl]
  rfl

theorem add_published : (mqttConnectionAdd s p connects).1.published = s.published := by
  rcases connects with _ | _ <;> rfl

theorem Kept.slots_add (h : Kept s) :
    (mqttConnectionAdd s p connects).1.mqttConnectionList.length ≤
      (mqttConnectionAdd s p connects).1.mqttConnectionListSize := by
  have hl := h.length_established
  have hi := h.index
  have hs := h.slots
  have room : (established s ++ [connectionOf p]).length ≤
      if s.mqttConnectionListIx ≥ s.mqttConnectionListSize
      then s.mqttConnectionListSize + 20 else s.mqttConnectionListSize := by
    rw [length_append, hl, length_singleton]
    split
    · omega
    · omega
  rcases connects with _ | _
  · exact room
  · exact room

theorem Kept.index_add (h : Kept s) :
    (mqttConnectionAdd s p connects).1.mqttConnectionListIx ≤
      (mqttConnectionAdd s p connects).1.mqttConnectionList.length := by
  have hl : (established s ++ [connectionOf p]).length = s.mqttConnectionListIx + 1 := by
    rw [length_append, h.length_established, length_singleton]
  rcases connects with _ | _
  · exact (Nat.le_succ _).trans hl.ge
  · exact hl.ge

theorem apart_of_firstNotApart (hn : firstNotApart p list = none) :
    ∀ a ∈ list, ToldApart a.toParams p := by
  simpa [firstNotApart] using hn

theorem Kept.add (h : Kept s) (hn : firstNotApart p (established s) = none) :
    Kept (mqttConnectionAdd s p connects).1 where
  compared := by
    rcases connects with _ | _
    · exact h.compared
    · exact h.compared
  sent := by
    rw [add_published]
    exact h.sent
  apart := by
    rw [h.established_add]
    split
    · rw [pairwise_append]
      refine ⟨h.apart, pairwise_singleton _ _, ?_⟩
      intro a ha b hb
      rw [mem_singleton.mp hb]
      exact apart_of_firstNotApart hn a ha
    · exact h.apart
  clients := by
    intro mq hm
    rw [h.established_add] at hm
    split at hm
    · rcases mem_append.mp hm with hm | hm
      · exact h.clients mq hm
      · rw [mem_singleton.mp hm]
        rfl
    · exact h.clients mq hm
  index := h.index_add
  slots := h.slots_add

theorem Kept.publish (h : Kept s) (hp : mq.toParams = p) (hc : mq.client = clientFor p) :
    Kept (publish s p mq) where
  compared := h.compared
  sent := by
    intro note hn
    rcases mem_append.mp hn with hn | hn
    · exact h.sent note hn
    · rw [mem_singleton.mp hn]
      exact ⟨hp, hc⟩
  apart := h.apart
  clients := h.clients
  index := h.index
  slots := h.slots

theorem Kept.client_iff (h : Kept s) (hm : mq ∈ established s) (hp : mq.toParams = p) :
    mq.client = clientFor p ↔ Fits p := by
  rw [h.clients mq hm, hp]
  exact fits_iff

theorem Kept.establish (h : Kept s)
    (ok : ∀ mq ∈ firstNotApart p (established s), Accepts mq.toParams p) :
    Kept (mqttConnectionEstablish s p connects) := by
  unfold mqttConnectionEstablish
  rcases hf : firstNotApart p (established s) with _ | mq
  · rw [lookup_none hf]
    exact h.add hf
  · rw [lookup_some hf, if_pos (ok mq hf)]
    exact h

theorem Kept.notify (h : Kept s)
    (own : ∀ mq ∈ firstNotApart p (established s), mq.toParams = p)
    (fits : Fits p ∨ firstNotApart p (established s) = none ∧ connects = false) :
    Kept (mqttNotification s p connects) := by
  unfold mqttNotification
  rcases hf : firstNotApart p (established s) with _ | mq
  · rw [lookup_none hf]
    have ha : Kept (mqttConnectionAdd s p connects).1 := h.add hf
    rcases connects with _ | _
    · exact ha
    · have fits : Fits p := fits.resolve_right (by simp)
      exact ha.publish rfl (fits_iff.mpr fits)
  · have hm : mq ∈ established s := mem_of_find?_eq_some hf
    have hp : mq.toParams = p := own mq hf
    have fits : Fits p := fits.resolve_right (by simp [hf])
    rw [lookup_some hf, if_pos (hp ▸ accepts_self _)]
    exact h.publish hp ((h.client_iff hm hp).mpr fits)

theorem step_kept (s : State) (call : Call) (h : Kept s) (ok : Separable s call) :
    Kept (step s call) := by
  unfold step
  rw [if_neg (by simp [h.compared])]
  rcases call with ⟨p, connects⟩ | ⟨p, connects⟩
  · exact h.establish ok
  · exact h.notify ok.1 ok.2

theorem not_separate_of_published (h : (p, mq) ∈ s.published)
    (hn : ¬ (mq.toParams = p ∧ mq.client = clientFor p)) : ¬ Separate s :=
  fun hs => hn (hs.sent _ h)

theorem lookup_not_separate (hf : firstNotApart p (established s) = some mq)
    (ha : ¬ Accepts mq.toParams p) : mqttConnectionLookup p (established s) = none := by
  rw [lookup_some hf, if_neg ha]

theorem establish_loses
    (ok : ¬ ∀ mq ∈ firstNotApart p (established s), Accepts mq.toParams p) :
    ¬ Separate (mqttConnectionEstablish s p connects) := by
  unfold mqttConnectionEstablish
  rcases hf : firstNotApart p (established s) with _ | mq
  · exact absurd (fun mq hm => by simp [hf] at hm) ok
  have hm : ¬ Accepts mq.toParams p := by simpa [hf] using ok
  rw [lookup_not_separate hf hm]
  exact fun hs => absurd hs.compared (by simp)

theorem Kept.notify_loses (h : Kept s)
    (ok : ¬ ((∀ mq ∈ firstNotApart p (established s), mq.toParams = p) ∧
      (Fits p ∨ firstNotApart p (established s) = none ∧ connects = false))) :
    ¬ Separate (mqttNotification s p connects) := by
  unfold mqttNotification
  rcases hf : firstNotApart p (established s) with _ | mq
  · rw [lookup_none hf]
    rw [hf] at ok
    rcases connects with _ | _
    · exact absurd ⟨by simp, .inr ⟨rfl, rfl⟩⟩ ok
    have notFit : ¬ Fits p := fun fits => ok ⟨by simp, .inl fits⟩
    apply not_separate_of_published (p := p)
    · exact mem_append_right _ (mem_singleton.mpr rfl)
    · exact fun hs => notFit (fits_iff.mp hs.2)
  · have hm : mq ∈ established s := mem_of_find?_eq_some hf
    by_cases ha : Accepts mq.toParams p
    · rw [lookup_some hf, if_pos ha]
      apply not_separate_of_published (p := p)
      · exact mem_append_right _ (mem_singleton.mpr rfl)
      · rintro ⟨hp, hc⟩
        have fits : Fits p := (h.client_iff hm hp).mp hc
        exact ok ⟨by simpa [hf] using hp, .inl fits⟩
    · rw [lookup_not_separate hf ha]
      exact fun hs => absurd hs.compared (by simp)

theorem step_loses (s : State) (call : Call) (h : Kept s) (ok : ¬ Separable s call) :
    ¬ Separate (step s call) := by
  unfold step
  rw [if_neg (by simp [h.compared])]
  rcases call with ⟨p, connects⟩ | ⟨p, connects⟩
  · exact establish_loses ok
  · exact h.notify_loses ok

/-- Connections are not shared throughout a run if and only if each call is accepted by the first
connection that it does not tell apart from its own. -/
theorem connections_not_shared (calls : List Call) :
    StepSystem.Throughout step Separate mqttConnectionInit calls ↔
      StepSystem.Guarded step Separable mqttConnectionInit calls := by
  apply StepSystem.throughout_iff_guarded kept_init (fun _ h => h.separate) _ _
    StepSystem.guarded_true
  · exact fun s call h _ ok => step_kept s call h ok
  · exact fun s call h _ ok => step_loses s call h ok

theorem connection_of_anonymous_shared : ¬ ∀ calls : List Call,
    StepSystem.Throughout step Separate mqttConnectionInit calls := by
  intro h
  let anonymous : Params := ⟨"mqtt.a.org".toList, 1883, none, none, none⟩
  let asked : Params := { anonymous with username := some "u".toList }
  have separate := (h [.establish anonymous true, .notify asked true]).last
  have sent := separate.sent (asked, connectionOf anonymous) (by decide +kernel)
  exact absurd sent.1 (by decide +kernel)

end MqttConnections
