import OrionLd.Delimited
import OrionLd.KjTree
import OrionLd.Strtod

/-! The endpoint of a notification over MQTT. The separators are looked for in all that is left of
the url, so the credentials may be taken out of the topic. -/
namespace MqttParse

open List
open KjTree (Text)
open Scanf (valueOf)
open Strtod (atoi atoi_small)

def strchr (c : Char) : Text → Option (Text × Text)
  | [] => none
  | d :: text =>
    if d = c then some ([], text) else (strchr c text).map fun (before, behind) =>
        (d :: before, behind)

structure Mqtt where
  mqtts : Bool
  /-- username and password -/
  credentials : Option (Text × Text)
  host : Text
  port : Option ℕ
  topic : Text

/-- The port is an unsigned short. -/
def portOf (digits : Text) : ℕ := (atoi digits % 65536).toNat

def server (mqtts : Bool) (credentials : Option (Text × Text)) (url : Text) : Option Mqtt :=
  (strchr '/' url).bind fun (address, topic) =>
    match strchr ':' address with
    | none => some ⟨mqtts, credentials, address, none, topic⟩
    | some (host, portString) =>
      if portString = [] then none
      else if portString.any fun c => c < '0' ∨ c > '9' then none
      else some ⟨mqtts, credentials, host, some (portOf portString), topic⟩

/-- A colon that is found behind the @ is the end of the url and not of the username. -/
def endpoint (mqtts : Bool) (url : Text) : Option Mqtt :=
  match strchr '@' url with
  | none => server mqtts none url
  | some (beforeAt, behindAt) =>
    match strchr ':' beforeAt with
    | some credentials => server mqtts (some credentials) behindAt
    | none =>
      (strchr ':' behindAt).bind fun (url, password) => server mqtts (some (beforeAt, password)) url

def scheme (mqtts : Bool) : Text := if mqtts then "mqtts://".toList else "mqtt://".toList

def mqttParse (url : Text) : Option Mqtt :=
  if scheme false <+: url then endpoint false (url.drop 7)
  else if scheme true <+: url then endpoint true (url.drop 8)
  else none

def credentialsText : Option (Text × Text) → Text
  | none => []
  | some (username, password) => username ++ ':' :: (password ++ ['@'])

def IsPort (text : Text) : Option ℕ → Prop
  | none => text = []
  | some port => ∃ digits, text = ':' :: digits ∧ digits ≠ [] ∧ (∀ c ∈ digits, c.isDigit = true) ∧
      valueOf 10 digits = port ∧ port ≤ 65535

/-- The parts are those of the url, with all that stands behind the first slash in the topic. -/
structure Splits (url : Text) (m : Mqtt) : Prop where
  url : ∃ portText, url = scheme m.mqtts ++ (credentialsText m.credentials ++ (m.host ++
    (portText ++ '/' :: m.topic))) ∧ IsPort portText m.port
  host : ':' ∉ m.host
  username : ∀ credentials ∈ m.credentials, ':' ∉ credentials.1
  topic : '/' ∉ credentialsText m.credentials ∧ '/' ∉ m.host

def PortFits (url : Text) : Prop :=
  ∀ address topic, strchr '/' url = some (address, topic) →
    ∀ host digits, strchr ':' address = some (host, digits) → valueOf 10 digits ≤ 65535

/-- The first @ ends the credentials, and the port is one. -/
def Readable (rest : Text) : Prop :=
  match strchr '@' rest with
  | none => PortFits rest
  | some (beforeAt, behindAt) => '/' ∉ beforeAt ∧ ':' ∈ beforeAt ∧ PortFits behindAt

variable {c : Char} {text before behind : Text}

theorem strchr_append (h : c ∉ before) :
    strchr c (before ++ c :: behind) = some (before, behind) := by
  induction before with
  | nil => exact if_pos rfl
  | cons d before ih =>
    obtain ⟨hd, hrest⟩ := ne_and_not_mem_of_not_mem_cons h
    rw [cons_append, strchr, if_neg hd.symm, ih hrest]
    rfl

theorem strchr_eq_none : strchr c text = none ↔ c ∉ text := by
  induction text with
  | nil => exact iff_of_true rfl not_mem_nil
  | cons d text ih =>
    rw [strchr, mem_cons, not_or, ← ih]
    split
    · rename_i hd
      exact iff_of_false nofun fun h => h.1 hd.symm
    · rename_i hd
      rw [Option.map_eq_none_iff, and_iff_right (Ne.symm hd)]

theorem strchr_eq_some : strchr c text = some (before, behind) ↔
    c ∉ before ∧ text = before ++ c :: behind := by
  refine ⟨fun h => ?_, fun ⟨hmem, htext⟩ => htext ▸ strchr_append hmem⟩
  have hmem : c ∈ text := by
    by_contra hmem
    rw [strchr_eq_none.mpr hmem] at h
    cases h
  obtain ⟨before', behind', rfl, hbefore⟩ := eq_append_cons_of_mem hmem
  rw [strchr_append hbefore, Option.some.injEq, Prod.mk.injEq] at h
  obtain ⟨rfl, rfl⟩ := h
  exact ⟨hbefore, rfl⟩

variable {mqtts : Bool} {credentials : Option (Text × Text)} {url rest portText : Text} {m : Mqtt}

theorem isDigit_of_range (h : ¬ (c < '0' ∨ c > '9')) : c.isDigit = true := by
  rw [not_or] at h
  exact Char.isDigit_iff_toNat.mpr ⟨not_lt.mp h.1, not_lt.mp h.2⟩

theorem portOf_eq {digits : Text} (hdigits : ∀ c ∈ digits, c.isDigit = true)
    (h : valueOf 10 digits ≤ 65535) : portOf digits = valueOf 10 digits := by
  unfold portOf
  rw [atoi_small hdigits (by omega)]
  omega

theorem server_read (h : server mqtts credentials url = some m) :
    m.mqtts = mqtts ∧ m.credentials = credentials ∧
      ∃ address, strchr '/' url = some (address, m.topic) ∧
        (address = m.host ∧ ':' ∉ m.host ∧ m.port = none ∨
          ∃ digits, strchr ':' address = some (m.host, digits) ∧ digits ≠ [] ∧
            (∀ c ∈ digits, c.isDigit = true) ∧ m.port = some (portOf digits)) := by
  obtain ⟨⟨address, topic⟩, hslash, h⟩ := Option.bind_eq_some_iff.mp h
  dsimp only at h
  split at h
  · rename_i hcolon
    cases h
    exact ⟨rfl, rfl, _, hslash, .inl ⟨rfl, strchr_eq_none.mp hcolon, rfl⟩⟩
  rename_i host digits hcolon
  split at h
  · cases h
  rename_i hempty
  split at h
  · cases h
  rename_i hdigits
  rw [any_eq_true] at hdigits
  push Not at hdigits
  cases h
  refine ⟨rfl, rfl, _, hslash, .inr ⟨_, hcolon, hempty, fun c hc => ?_, rfl⟩⟩
  exact isDigit_of_range (by simpa using hdigits c hc)

theorem server_splits_iff (h : server mqtts credentials url = some m) :
    (∃ portText, url = m.host ++ (portText ++ '/' :: m.topic) ∧ IsPort portText m.port ∧
      ':' ∉ m.host ∧ '/' ∉ m.host) ↔ PortFits url := by
  obtain ⟨-, -, address, hslash, hread⟩ := server_read h
  obtain ⟨hfree, rfl⟩ := strchr_eq_some.mp hslash
  rcases hread with ⟨rfl, hcolon, hport⟩ | ⟨digits, hcolon, hne, hdigits, hport⟩
  · refine iff_of_true ⟨[], rfl, hport ▸ rfl, hcolon, hfree⟩ ?_
    intro address topic hcut host digits hcut'
    rw [hslash] at hcut
    cases hcut
    rw [strchr_eq_none.mpr hcolon] at hcut'
    cases hcut'
  · obtain ⟨hhost, rfl⟩ := strchr_eq_some.mp hcolon
    have hfits : PortFits ((m.host ++ ':' :: digits) ++ '/' :: m.topic) ↔
        valueOf 10 digits ≤ 65535 := by
      constructor
      · intro hfits
        exact hfits _ _ hslash _ _ hcolon
      · intro hle address topic hcut host digits' hcut'
        rw [hslash] at hcut
        cases hcut
        rw [hcolon] at hcut'
        cases hcut'
        exact hle
    rw [hfits]
    constructor
    · rintro ⟨portText, htext, hisPort, -, -⟩
      rw [hport] at hisPort
      obtain ⟨digits', rfl, -, -, hvalue, hle⟩ := hisPort
      have hsame : digits' = digits := by
        rw [append_assoc, append_cancel_left_eq] at htext
        exact (append_cancel_right (cons.inj htext).2).symm
      rw [← hsame, hvalue]
      exact hle
    · intro hle
      refine ⟨':' :: digits, append_assoc _ _ _, hport ▸ ⟨digits, rfl, hne, hdigits,
        (portOf_eq hdigits hle).symm, (portOf_eq hdigits hle).trans_le hle⟩, hhost,
        fun hmem => hfree ?_⟩
      exact mem_append_left _ hmem

theorem splits_iff (h : server mqtts credentials url = some m)
    (htext : rest = credentialsText credentials ++ url)
    (husername : ∀ c ∈ credentials, ':' ∉ c.1) : Splits (scheme mqtts ++ rest) m ↔
      '/' ∉ credentialsText credentials ∧ PortFits url := by
  obtain ⟨rfl, rfl, -⟩ := server_read h
  rw [← server_splits_iff h, htext]
  constructor
  · intro hsplits
    obtain ⟨portText, hurl, hport⟩ := hsplits.url
    exact ⟨hsplits.topic.1, portText, append_cancel_left (append_cancel_left hurl), hport,
      hsplits.host, hsplits.topic.2⟩
  · rintro ⟨hslash, portText, hurl, hport, hhost, hhostSlash⟩
    exact ⟨⟨portText, hurl ▸ rfl, hport⟩, hhost, husername, hslash, hhostSlash⟩

theorem endpoint_splits_iff (h : endpoint mqtts rest = some m) :
    Splits (scheme mqtts ++ rest) m ↔ Readable rest := by
  unfold endpoint at h
  unfold Readable
  cases hat : strchr '@' rest with
  | none =>
    rw [hat] at h
    rw [splits_iff h (nil_append _).symm nofun]
    exact and_iff_right not_mem_nil
  | some parts =>
    obtain ⟨beforeAt, behindAt⟩ := parts
    obtain ⟨-, rfl⟩ := strchr_eq_some.mp hat
    simp only [hat] at h ⊢
    cases hcolon : strchr ':' beforeAt with
    | some credentials =>
      rw [hcolon] at h
      obtain ⟨husername, rfl⟩ := strchr_eq_some.mp hcolon
      rw [splits_iff h (by simp [credentialsText]) (by simpa using husername), credentialsText]
      simp [and_assoc]
    | none =>
      rw [hcolon] at h
      obtain ⟨⟨url, password⟩, -, h⟩ := Option.bind_eq_some_iff.mp h
      obtain ⟨rfl, hcredentials, -⟩ := server_read h
      refine iff_of_false ?_ fun hreadable => strchr_eq_none.mp hcolon hreadable.2.1
      rintro ⟨⟨portText, hurl, -⟩, -⟩
      rw [hcredentials, credentialsText, append_cancel_left_eq, append_assoc,
        append_cancel_left_eq, cons_append] at hurl
      exact absurd (cons.inj hurl).1 (by decide)

theorem endpoint_of_parse (h : mqttParse url = some m) :
    ∃ mqtts rest, url = scheme mqtts ++ rest ∧ endpoint mqtts rest = some m := by
  unfold mqttParse at h
  split at h
  · rename_i hprefix
    obtain ⟨rest, rfl⟩ := hprefix
    exact ⟨false, rest, rfl, h⟩
  split at h
  · rename_i hprefix
    obtain ⟨rest, rfl⟩ := hprefix
    exact ⟨true, rest, rfl, h⟩
  · cases h

theorem scheme_unique {mqtts' : Bool} {rest' : Text}
    (h : scheme mqtts ++ rest = scheme mqtts' ++ rest') : rest = rest' := by
  have hscheme : mqtts = mqtts' := by
    have htake := congrArg (fun text => (text[4]?)) h
    cases mqtts <;> cases mqtts'
    · rfl
    · exact absurd (show some ':' = some 's' from htake) (by decide)
    · exact absurd (show some 's' = some ':' from htake) (by decide)
    · rfl
  rw [hscheme] at h
  exact append_cancel_left h

/-- An endpoint is split faithfully if and only if the first @ behind the scheme, if any, has no
slash and a colon before it, and the number behind the colon of the address is a port. -/
theorem parse_faithful_iff {url : Text} {m : Mqtt} (h : mqttParse url = some m) :
    Splits url m ↔ ∀ mqtts rest, url = scheme mqtts ++ rest → Readable rest := by
  obtain ⟨mqtts, rest, rfl, hendpoint⟩ := endpoint_of_parse h
  rw [endpoint_splits_iff hendpoint]
  constructor
  · intro hreadable mqtts' rest' hurl
    exact scheme_unique hurl ▸ hreadable
  · intro hreadable
    exact hreadable mqtts rest rfl

theorem speed_faithful : ∃ m, mqttParse "mqtt://u:p@h:1883/speed".toList = some m ∧
    Splits "mqtt://u:p@h:1883/speed".toList m := by
  refine ⟨_, rfl, (parse_faithful_iff rfl).mpr fun mqtts rest hurl => ?_⟩
  have hsame : scheme false ++ "u:p@h:1883/speed".toList = scheme mqtts ++ rest := hurl
  rw [← scheme_unique hsame]
  refine ⟨by decide, by decide, ?_⟩
  rintro _ _ ⟨⟩ _ _ ⟨⟩
  decide

theorem topic_with_at_misread : ¬ ∀ url m, mqttParse url = some m → Splits url m := by
  intro h
  have hsplits := h "mqtt://h:1883/a@b/c".toList _ rfl
  exact hsplits.topic.1 (by decide)

end MqttParse
