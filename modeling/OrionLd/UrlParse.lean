import OrionLd.DecimalText
import OrionLd.KjTree
import OrionLd.Strtod

/-! urlParse, for the URLs of contexts and of registrations. What stands between the colon and the
path is copied into six bytes whatever its length, and taken for a port whatever it is. -/
namespace UrlParse

open List Scanf DecimalText
open KjTree (Text)
open Strtod (atoi atoi_small)

structure Url where
  protocol : Text
  ip : Text
  /-- The number and the bytes written to portNumberString. -/
  port : Option (ℕ × ℕ)
  urlPath : Option Text

def urlPath : Text → Option Text
  | [] => none
  | url => some url

/-- Behind the slashes: the host, the port and the path. -/
def hostParse (protocol : Text) (ipSize : ℕ) (url : Text) : Except String Url :=
  let ip := url.takeWhile fun c => c ≠ '/' ∧ c ≠ ':'
  let url := url.dropWhile fun c => c ≠ '/' ∧ c ≠ ':'
  if ipSize - 1 < ip.length then .error "not enough room in ip char vector"
  else if url.head? = ':' then
    let portNumberString := url.tail.takeWhile (· ≠ '/')
    .ok ⟨protocol, ip, some ((atoi portNumberString % 65536).toNat, portNumberString.length + 1),
      urlPath (url.tail.dropWhile (· ≠ '/'))⟩
  else .ok ⟨protocol, ip, none, urlPath url⟩

def urlParse (protocolSize ipSize : ℕ) (url : Text) : Except String Url :=
  let protocol := url.takeWhile (· ≠ ':')
  let url := url.dropWhile (· ≠ ':')
  if protocolSize - 1 < protocol.length then .error "Not a URI"
  else if url = [] then
    .error "URL parse error - no colon found - cannot determine the protocol"
  else if url.tail.take 2 ≠ "//".toList then
    .error "URL parse error - no :// found after protocol"
  else hostParse protocol ipSize (url.tail.drop 2)

structure Faithful (protocolSize ipSize : ℕ) (url : Text) (r : Url) : Prop where
  url : url = r.protocol ++ "://".toList ++ r.ip ++
    (r.port.map fun port => ':' :: Nat.toDigits 10 port.1).getD [] ++ r.urlPath.getD []
  port : ∀ port ∈ r.port, port.1 ≤ 65535
  within : r.protocol.length < protocolSize ∧ r.ip.length < ipSize ∧ ∀ port ∈ r.port, port.2 ≤ 6

/-- A URL with a protocol and a host that fit, and with something in the place of a port. -/
structure HasPort (protocolSize ipSize : ℕ) (url protocol ip port path : Text) : Prop where
  url : url = protocol ++ "://".toList ++ ip ++ ':' :: (port ++ path)
  protocol : ':' ∉ protocol ∧ protocol.length < protocolSize
  ip : '/' ∉ ip ∧ ':' ∉ ip ∧ ip.length < ipSize
  path : '/' ∉ port ∧ ∀ c ∈ path.head?, c = '/'

def IsPort (text : Text) : Prop := ∃ port ≤ 65535, text = Nat.toDigits 10 port

def Splits (protocolSize ipSize : ℕ) (url : Text) : Prop :=
  (∀ r, urlParse protocolSize ipSize url = .ok r → Faithful protocolSize ipSize url r) ∧
    ∀ protocol ip port path, HasPort protocolSize ipSize url protocol ip port path → ¬ IsPort port →
      ∃ detail, urlParse protocolSize ipSize url = .error detail

theorem valueOf_toDigits (n : ℕ) : valueOf 10 (Nat.toDigits 10 n) = n := by
  calc valueOf 10 (Nat.toDigits 10 n)
      = Nat.ofDigitChars 10 (Nat.toDigits 10 n) 0 :=
        foldl_ext _ _ _ fun _ _ hc => by rw [digitValue, if_pos (isDigit_of_toDigits hc)]
    _ = n := Nat.ofDigitChars_ten_toDigits

theorem atoi_toDigits {port : ℕ} (h : port ≤ 65535) : atoi (Nat.toDigits 10 port) = port := by
  have hvalue := valueOf_toDigits port
  rw [atoi_small (fun _ => isDigit_of_toDigits) (by omega), hvalue]

variable {protocolSize ipSize : ℕ} {url protocol ip port path : Text} {r : Url}

theorem span_append {p : Char → Bool} {a b : Text} (ha : ∀ c ∈ a, p c = true)
    (hb : ∀ c ∈ b.head?, p c = false) : (a ++ b).takeWhile p = a ∧ (a ++ b).dropWhile p = b := by
  rw [takeWhile_append_of_pos ha, dropWhile_append_of_pos ha]
  cases b with
  | nil => exact ⟨append_nil a, rfl⟩
  | cons c b => simp [hb c rfl]

theorem urlParse_port (h : HasPort protocolSize ipSize url protocol ip port path) :
    urlParse protocolSize ipSize url =
      .ok ⟨protocol, ip, some ((atoi port % 65536).toNat, port.length + 1), urlPath path⟩ := by
  obtain ⟨rfl, ⟨hcolon, hroom⟩, ⟨hslash, hcolon', hroom'⟩, hport, hpath⟩ := h
  obtain ⟨htake, hdrop⟩ :=
    @span_append (· ≠ ':') protocol (':' :: "//".toList ++ (ip ++ ':' :: (port ++ path)))
    (fun c hc => by simpa using ne_of_mem_of_not_mem hc hcolon) (by simp)
  obtain ⟨hip, hrest⟩ := @span_append (fun c => c ≠ '/' ∧ c ≠ ':') ip (':' :: (port ++ path))
    (fun c hc => by simpa using ⟨ne_of_mem_of_not_mem hc hslash, ne_of_mem_of_not_mem hc hcolon'⟩)
    (by simp)
  obtain ⟨hnumber, hpath⟩ := @span_append (· ≠ '/') port path
    (fun c hc => by simpa using ne_of_mem_of_not_mem hc hport) (by simpa using hpath)
  unfold urlParse
  rw [append_assoc, append_assoc, show "://".toList = ':' :: "//".toList by rfl, htake, hdrop]
  dsimp only
  rw [if_neg (by omega), if_neg nofun, if_neg (by simp)]
  change hostParse protocol ipSize (ip ++ ':' :: (port ++ path)) = _
  unfold hostParse
  rw [hip, hrest]
  dsimp only
  rw [if_neg (by omega), if_pos (by rfl), tail_cons, hnumber, hpath]

theorem getD_urlPath (path : Text) : (urlPath path).getD [] = path := by
  cases path <;> rfl

theorem hostParse_cases (hip : 0 < ipSize) (h : hostParse protocol ipSize url = .ok r) :
    r.protocol = protocol ∧ r.ip.length < ipSize ∧
      (r.port = none ∧ url = r.ip ++ r.urlPath.getD [] ∨
        '/' ∉ r.ip ∧ ':' ∉ r.ip ∧
          ∃ port path, url = r.ip ++ ':' :: (port ++ path) ∧ '/' ∉ port ∧
            ∀ c ∈ path.head?, c = '/') := by
  have hurl := (@takeWhile_append_dropWhile _ (fun c => c ≠ '/' ∧ c ≠ ':') url).symm
  have hname := all_eq_true.mp (@all_takeWhile _ (fun c => c ≠ '/' ∧ c ≠ ':') url)
  unfold hostParse at h
  dsimp only at h
  split at h
  · cases h
  split at h
  · next hcolon =>
    obtain ⟨rest, hrest⟩ := head?_eq_some_iff.mp hcolon
    cases h
    rw [hrest] at hurl
    refine ⟨rfl, by dsimp only; omega, .inr ⟨fun hmem => by simpa using hname _ hmem,
      fun hmem => by simpa using hname _ hmem, rest.takeWhile (· ≠ '/'),
      rest.dropWhile (· ≠ '/'), ?_,
      fun hmem => by simpa using all_eq_true.mp all_takeWhile _ hmem, fun c hc => ?_⟩⟩
    · rwa [takeWhile_append_dropWhile]
    · have hfirst := head?_dropWhile_not (· ≠ '/') rest
      rw [hc] at hfirst
      simpa using hfirst
  · cases h
    refine ⟨rfl, by dsimp only; omega, .inl ⟨rfl, ?_⟩⟩
    rwa [getD_urlPath]

theorem urlParse_cases (hprotocol : 0 < protocolSize) (hip : 0 < ipSize)
    (h : urlParse protocolSize ipSize url = .ok r) :
    Faithful protocolSize ipSize url r ∨
      ∃ protocol ip port path, HasPort protocolSize ipSize url protocol ip port path := by
  have hurl := (@takeWhile_append_dropWhile _ (· ≠ ':') url).symm
  have hcolon : ':' ∉ url.takeWhile (· ≠ ':') := fun hmem => by
    simpa using all_eq_true.mp all_takeWhile _ hmem
  unfold urlParse at h
  dsimp only at h
  split at h
  · cases h
  split at h
  · cases h
  split at h
  · cases h
  next hroom hfound hslashes =>
  obtain ⟨c, rest, hrest⟩ := exists_cons_of_ne_nil hfound
  have hc := head?_dropWhile_not (· ≠ ':') url
  rw [hrest] at hc hurl hslashes h
  obtain rfl : c = ':' := by simpa using hc
  rw [not_not, tail_cons] at hslashes
  rw [tail_cons] at h
  rw [← take_append_drop 2 rest, hslashes] at hurl
  obtain ⟨hprotocol', hfits, ⟨hport, hsplit⟩ | ⟨hslash, hcolon', port, path, hsplit, hport⟩⟩ :=
    hostParse_cases hip h
  · refine .inl ⟨?_, fun port hmem => ?_, ?_, hfits, fun port hmem => ?_⟩
    · refine hurl.trans ?_
      rw [hprotocol', hport, hsplit]
      simp
    · rw [hport] at hmem
      cases hmem
    · rw [hprotocol']
      omega
    · rw [hport] at hmem
      cases hmem
  · refine .inr ⟨_, r.ip, port, path, ?_, ⟨hcolon, by omega⟩, ⟨hslash, hcolon', hfits⟩, hport⟩
    rw [append_assoc, ← hsplit]
    simpa using hurl

/-- A URL is split as it should be if and only if what it has in the place of a port is one. -/
theorem url_split_iff (hprotocol : 0 < protocolSize) (hip : 0 < ipSize) (url : Text) :
    Splits protocolSize ipSize url ↔ ∀ protocol ip port path,
      HasPort protocolSize ipSize url protocol ip port path → IsPort port := by
  constructor
  · intro h protocol ip port path hport
    by_contra hno
    obtain ⟨detail, herror⟩ := h.2 _ _ _ _ hport hno
    rw [urlParse_port hport] at herror
    cases herror
  · intro h
    refine ⟨fun r hr => ?_, fun protocol ip port path hport hno => absurd (h _ _ _ _ hport) hno⟩
    rcases urlParse_cases hprotocol hip hr with hfaithful | ⟨protocol, ip, port, path, hport⟩
    · exact hfaithful
    obtain ⟨number, hrange, rfl⟩ := h _ _ _ _ hport
    rw [urlParse_port hport, atoi_toDigits hrange] at hr
    cases hr
    have hnumber : ((number : ℤ) % 65536).toNat = number := by omega
    rw [hnumber]
    refine ⟨?_, ?_, hport.protocol.2, hport.ip.2.2, ?_⟩
    · dsimp only [Option.map_some, Option.getD_some]
      rw [getD_urlPath, hport.url]
      simp
    · rintro _ ⟨⟩
      exact hrange
    · rintro _ ⟨⟩
      have hlength : (Nat.toDigits 10 number).length ≤ 5 :=
        (Nat.length_toDigits_le_iff (by decide) (by decide)).mpr (by omega)
      dsimp only
      omega

theorem context_split : Splits 16 64 "http://a:80/b".toList := by
  refine (url_split_iff (by decide) (by decide) _).mpr fun protocol ip port path hport => ?_
  have hparsed : urlParse 16 64 "http://a:80/b".toList =
      .ok ⟨"http".toList, "a".toList, some (80, 3), some "/b".toList⟩ := rfl
  obtain ⟨rfl, rfl, -, hpath⟩ :=
    Url.mk.inj (Except.ok.inj ((urlParse_port hport).symm.trans hparsed))
  obtain rfl : path = "/b".toList := by
    cases path with
    | nil => cases hpath
    | cons c path => exact Option.some.inj hpath
  have hurl : "http://a:".toList ++ ("80".toList ++ "/b".toList) =
      "http://a:".toList ++ (port ++ "/b".toList) := hport.url
  have hdigits := append_cancel_right (append_cancel_left hurl)
  exact ⟨80, by decide, hdigits.symm⟩

theorem long_port_accepted : ¬ ∀ protocolSize ipSize url, 0 < protocolSize → 0 < ipSize →
    Splits protocolSize ipSize url := by
  intro h
  have hsplits := (h 16 64 "http://a:100000/b".toList (by decide) (by decide)).1 _ rfl
  exact absurd (hsplits.within.2.2 _ rfl) (by decide)

end UrlParse
