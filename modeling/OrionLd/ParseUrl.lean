import OrionLd.ServicePathRegex
import OrionLd.Strtod

/-! parseUrl of string.cpp, for the URLs of notifications. The splitter drops the slashes and the
colons at the beginning of what it splits, and the second token of a URL is not looked at. -/
namespace ParseUrl

open KjTree Scanf Strtod Delimited List ServicePathRegex
open StringFilter (stringSplit)

def isxdigit (c : Char) : Bool := isDigitOf true c

def checkGroupIPv6 (s : Text) : Bool :=
  if s = [] then false
  else if s = [':'] then true
  else if 5 < s.length then false
  else s.dropLast.all isxdigit

/-- The loop of isIPv6. Partip is what was passed since the last colon. -/
def groups (partip : Text) (cont : ℕ) : Text → Bool
  | [] => decide (1 < cont) && decide (cont < 8)
  | c :: staux =>
    if c = ':' then
      if checkGroupIPv6 (partip ++ [c]) then groups [] (cont + 1) staux else false
    else groups (partip ++ [c]) cont staux

def isIPv6 (s : Text) : Bool := groups [] 0 s

/-- The loop of getIPv6Port, which leaves res and staux. -/
def splitIPv6 (res partip : Text) : Text → Text × Text
  | [] => (res, partip)
  | c :: staux =>
    if c = ':' then splitIPv6 (res ++ partip ++ [c]) [] staux
    else splitIPv6 res (partip ++ [c]) staux

/-- None where the function returns false: what it has written then is not used. -/
def getIPv6Port (s : Text) : Option (Text × Text) :=
  let (res, staux) := splitIPv6 [] [] s
  if res = [] then none
  else if isIPv6 res then some (res.dropLast, staux)
  else none

def labelIsValid (label : Text) : Bool :=
  decide (label.length ≤ 63) && decide (0 < label.length) &&
    label.head? != some '-' && label.getLast? != some '-' &&
    label.all fun c => c.isAlphanum || c == '-'

def hostnameIsValid (hostname : Text) : Bool :=
  if ':' ∈ hostname then true
  else if 253 < hostname.length then false
  else if hostname.head? = some '.' then false
  else if hostname.getLast? = some '.' then false
  else if "..".toList <:+: hostname then false
  else (stringSplit hostname '.').all labelIsValid

structure Url where
  host : Text
  port : ℤ
  path : Text
  protocol : Text

def schemes : List Text := ["https:".toList, "http:".toList, "mqtt:".toList]

def maxPort : ℤ := 65535

/-- None is a token outside hostTokens, and none inside the return of false. -/
def hostAndPort (protocol token : Text) : Option (Option (Text × ℤ)) :=
  match getIPv6Port token with
  | some (auxIp, auxPort) => some (some (auxIp, atoi (auxPort)))
  | none =>
    let hostTokens := stringSplit token ':'
    if 2 < hostTokens.length then some none
    else
      match hostTokens with
      | [] => none
      | [host] => some (some (host, if protocol = "https:".toList then 443 else 80))
      | host :: port :: _ => if port = [] then some none else some (some (host, atoi port))

/-- None inside is the return of false. -/
def parseUrl (url : Text) : Option (Option Url) :=
  match stringSplit (cString url) '/' with
  | protocol :: _ :: token :: more =>
    if protocol ∉ schemes then some none
    else if token = [] then some none
    else
      let path := more.flatMap ('/' :: ·)
      let path := if path = [] then ['/'] else path
      match hostAndPort protocol token with
      | none => none
      | some none => some none
      | some (some (host, port)) =>
        if maxPort < port ∨ port ≤ 0 then some none
        else if hostnameIsValid host = false then some none
        else some (some ⟨host, port, path, protocol⟩)
  | _ => some none

def IsPort (digits : Text) : Prop :=
  (∀ c ∈ digits, c.isDigit = true) ∧ 1 ≤ valueOf 10 digits ∧ valueOf 10 digits ≤ 65535

def portText (port : Option Text) : Text := port.elim [] (':' :: ·)

structure Written (url : Text) (u : Url) (port : Option Text) (rest : Text) : Prop where
  text : url = u.protocol ++ '/' :: '/' :: (u.host ++ portText port ++ rest)
  scheme : u.protocol ∈ schemes
  hostSome : u.host ≠ []
  portRead : ∀ digits ∈ port, IsPort digits ∧ u.port = valueOf 10 digits
  restPath : ∀ c ∈ rest.head?, c = '/'
  path : u.path = if rest = [] then ['/'] else rest

def SplitFaithfully (url : Text) : Prop :=
  ∃ result, parseUrl url = some result ∧ ∀ u ∈ result, ∃ port rest, Written url u port rest

/-- A URL as the splitter sees it. The rest is what stands behind a NUL character. -/
structure Pieces where
  slashes : ℕ
  protocol : Text
  second : Text
  authority : Text
  more : List Text
  rest : Text

def Pieces.text (p : Pieces) : Text :=
  List.replicate p.slashes '/' ++ join '/' p.protocol (p.second :: p.authority :: p.more) ++ p.rest

structure Pieces.Valid (p : Pieces) : Prop where
  protocol : p.protocol ∈ schemes
  authority : p.authority ≠ []
  tokens : ∀ t ∈ p.second :: p.authority :: p.more, '/' ∉ t ∧ '\x00' ∉ t
  rest : ∀ c ∈ p.rest.head?, c = '\x00'

def LooksIPv6 (authority : Text) : Prop :=
  ∃ host port, ':' ∉ port ∧ authority = host ++ ':' :: port ∧ isIPv6 (host ++ [':']) = true

/-- The host and the text of the port that are taken out of an authority. -/
inductive Reads (authority : Text) : Text → Option Text → Prop where
  | ipv6 {host port : Text} (colon : ':' ∉ port) (text : authority = host ++ ':' :: port)
    (looks : isIPv6 (host ++ [':']) = true) : Reads authority host (some port)
  | host {host : Text} (colons : ℕ) (looks : ¬ LooksIPv6 authority) (hostSome : host ≠ [])
    (colon : ':' ∉ host) (text : authority = List.replicate colons ':' ++ host) :
    Reads authority host none
  | port {host port : Text} (colons : ℕ) (looks : ¬ LooksIPv6 authority) (hostSome : host ≠ [])
    (colon : ':' ∉ host) (colon' : ':' ∉ port) (portSome : port ≠ [])
    (text : authority = List.replicate colons ':' ++ (host ++ ':' :: port)) :
    Reads authority host (some port)

def portOf (protocol : Text) : Option Text → ℤ
  | some port => atoi port
  | none => if protocol = "https:".toList then 443 else 80

/-- The authority has more than one colon, or more than seven, only with something else, and where a
host and a port are taken out of it, nothing is between the slashes or in front of the scheme, no
colon before the host, and the port has digits only. -/
structure Pieces.Plain (p : Pieces) : Prop where
  colons : ∀ n, p.authority = List.replicate n ':' → 2 ≤ n ∧ n ≤ 7
  written : ∀ host port, Reads p.authority host port →
    0 < portOf p.protocol port → portOf p.protocol port ≤ maxPort → hostnameIsValid host = true →
    p.slashes = 0 ∧ p.second = [] ∧ p.rest = [] ∧ p.authority = host ++ portText port ∧
      ∀ digits ∈ port, IsPort digits

def NothingDropped (url : Text) : Prop := ∀ p : Pieces, p.Valid → url = p.text → p.Plain

variable {authority host port res partip front back : Text}

theorem splitIPv6_colonless (h : ':' ∉ back) :
    splitIPv6 res partip back = (res, partip ++ back) := by
  induction back generalizing partip with
  | nil => rw [append_nil, splitIPv6]
  | cons c back ih =>
    obtain ⟨hc, hback⟩ := ne_and_not_mem_of_not_mem_cons h
    rw [splitIPv6, if_neg (Ne.symm hc), ih hback]
    simp

theorem splitIPv6_last (h : ':' ∉ back) :
    splitIPv6 res partip (front ++ ':' :: back) = (res ++ (partip ++ (front ++ [':'])), back) := by
  induction front generalizing res partip with
  | nil =>
    rw [nil_append, splitIPv6, if_pos rfl, splitIPv6_colonless h]
    simp
  | cons c front ih =>
    rw [cons_append, splitIPv6]
    split
    · rw [ih]
      simp
    · rw [ih]
      simp

theorem last_colon (authority : Text) :
    ':' ∉ authority ∨ ∃ host port, ':' ∉ port ∧ authority = host ++ ':' :: port := by
  induction authority with
  | nil => exact .inl not_mem_nil
  | cons c authority ih =>
    rcases ih with hnot | ⟨host, port, hport, rfl⟩
    · by_cases hc : c = ':'
      · exact .inr ⟨[], authority, hnot, by rw [hc]; rfl⟩
      · exact .inl (not_mem_cons_of_ne_of_not_mem (Ne.symm hc) hnot)
    · exact .inr ⟨c :: host, port, hport, rfl⟩

theorem getIPv6Port_last (h : ':' ∉ port) : getIPv6Port (host ++ ':' :: port) =
    if isIPv6 (host ++ [':']) then some (host, port) else none := by
  unfold getIPv6Port
  rw [splitIPv6_last h]
  dsimp only
  simp

theorem getIPv6Port_none (h : ¬ LooksIPv6 authority) : getIPv6Port authority = none := by
  rcases last_colon authority with hnot | ⟨host, port, hport, rfl⟩
  · unfold getIPv6Port
    rw [splitIPv6_colonless hnot]
    exact if_pos rfl
  · rw [getIPv6Port_last hport, if_neg fun hlooks => h ⟨host, port, hport, rfl, hlooks⟩]

theorem isIPv6_colons (n : ℕ) : isIPv6 (List.replicate n ':') = decide (1 < n ∧ n < 8) := by
  have hgroups : ∀ cont, groups [] cont (List.replicate n ':') =
      decide (1 < cont + n ∧ cont + n < 8) := by
    induction n with
    | zero =>
      intro cont
      rw [Bool.decide_and]
      rfl
    | succ n ih =>
      intro cont
      rw [replicate_succ, groups, if_pos rfl, if_pos (by decide), ih]
      congr 2 <;> simp <;> omega
  rw [isIPv6, hgroups, Nat.zero_add]

theorem colons_cons (n : ℕ) : List.replicate (n + 1) ':' = List.replicate n ':' ++ [':'] :=
  replicate_succ'

theorem looksIPv6_colons (n : ℕ) : LooksIPv6 (List.replicate n ':') ↔ 2 ≤ n ∧ n ≤ 7 := by
  constructor
  · rintro ⟨host, port, hport, htext, hlooks⟩
    have hall : ∀ c ∈ host ++ ':' :: port, c = ':' := by
      rw [← htext]
      intro c hc
      exact (mem_replicate.mp hc).2
    have hnil : port = [] := by
      refine eq_nil_iff_forall_not_mem.mpr ?_
      intro c hc
      have heq := hall c (mem_append_right _ (mem_cons_of_mem _ hc))
      exact hport (heq ▸ hc)
    rw [hnil] at htext
    rw [← htext, isIPv6_colons, decide_eq_true_eq] at hlooks
    omega
  · intro hn
    obtain ⟨m, rfl⟩ : ∃ m, n = m + 1 := ⟨n - 1, by omega⟩
    refine ⟨List.replicate m ':', [], not_mem_nil, colons_cons m, ?_⟩
    rw [← colons_cons, isIPv6_colons, decide_eq_true_eq]
    omega

theorem hostAndPort_reads (protocol : Text) {port : Option Text} (h : Reads authority host port) :
    hostAndPort protocol authority = some (some (host, portOf protocol port)) := by
  unfold hostAndPort
  cases h with
  | ipv6 colon text looks =>
    rw [text, getIPv6Port_last colon, if_pos looks]
    rfl
  | host colons looks hostSome colon text =>
    have hsplit : stringSplit authority ':' = [host] := by
      refine stringSplit_cons.mpr ⟨hostSome, by simpa using colon, colons, ?_⟩
      rw [join_nil]
      exact text
    rw [getIPv6Port_none looks, hsplit]
    rfl
  | @port port colons looks hostSome colon colon' portSome text =>
    have hsplit : stringSplit authority ':' = [host, port] := by
      refine stringSplit_cons.mpr ⟨hostSome, by simpa using ⟨colon, colon'⟩, colons, ?_⟩
      rw [join_cons, join_nil]
      exact text
    rw [getIPv6Port_none looks, hsplit]
    exact if_neg portSome

theorem hostAndPort_colons (protocol : Text) {n : ℕ} (h : ¬ (2 ≤ n ∧ n ≤ 7)) :
    hostAndPort protocol (List.replicate n ':') = none := by
  have hlooks : ¬ LooksIPv6 (List.replicate n ':') :=
    fun hlooks => h ((looksIPv6_colons n).mp hlooks)
  unfold hostAndPort
  rw [getIPv6Port_none hlooks, stringSplit_nil.mpr ⟨n, rfl⟩]
  rfl

theorem hostAndPort_cases (protocol authority : Text) :
    (∃ host port, Reads authority host port) ∨ hostAndPort protocol authority = some none ∨
      ∃ n, authority = List.replicate n ':' ∧ ¬ (2 ≤ n ∧ n ≤ 7) := by
  by_cases hlooks : LooksIPv6 authority
  · obtain ⟨host, port, hport, htext, hlooks⟩ := hlooks
    exact .inl ⟨host, some port, .ipv6 hport htext hlooks⟩
  cases hsplit : stringSplit authority ':' with
  | nil =>
    obtain ⟨n, rfl⟩ := stringSplit_nil.mp hsplit
    exact .inr (.inr ⟨n, rfl, fun hn => hlooks ((looksIPv6_colons n).mpr hn)⟩)
  | cons host rest =>
    obtain ⟨hsome, hparts, colons, htext⟩ := stringSplit_cons.mp hsplit
    obtain ⟨hhost, hrest⟩ := forall_mem_cons.mp hparts
    match rest, hsplit, hrest, htext with
    | [], _, _, htext =>
      rw [join_nil] at htext
      exact .inl ⟨host, none, .host colons hlooks hsome hhost htext⟩
    | [port], hsplit, hrest, htext =>
      rw [join_cons, join_nil] at htext
      by_cases hport : port = []
      · refine .inr (.inl ?_)
        unfold hostAndPort
        rw [getIPv6Port_none hlooks, hsplit]
        exact if_pos hport
      · exact .inl ⟨host, some port,
          .port colons hlooks hsome hhost (hrest port mem_cons_self) hport htext⟩
    | _ :: _ :: _, hsplit, _, _ =>
      refine .inr (.inl ?_)
      unfold hostAndPort
      rw [getIPv6Port_none hlooks, hsplit]
      exact if_pos (by simp)

variable {p : Pieces} {url : Text} {port : Option Text} {u : Url}

theorem cString_append {rest : Text} (hfront : '\x00' ∉ front)
    (hrest : ∀ c ∈ rest.head?, c = '\x00') : cString (front ++ rest) = front := by
  unfold cString
  rw [takeWhile_append_of_pos]
  · cases rest with
    | nil => simp
    | cons c rest => simp [hrest c rfl]
  · intro c hc
    simpa using fun heq : c = '\x00' => hfront (heq ▸ hc)

theorem cString_rest (s : Text) :
    '\x00' ∉ cString s ∧ ∃ rest : Text, s = cString s ++ rest ∧ ∀ c ∈ rest.head?, c = '\x00' := by
  refine ⟨?_, s.dropWhile (· ≠ '\x00'), takeWhile_append_dropWhile.symm, ?_⟩
  · intro h
    have hnot := mem_takeWhile_imp h
    simp at hnot
  · intro c hc
    have hhead := List.head?_dropWhile_not (· ≠ '\x00') s
    rw [Option.mem_def.mp hc] at hhead
    simpa using hhead

theorem scheme_plain {scheme : Text} (h : scheme ∈ schemes) :
    scheme ≠ [] ∧ '/' ∉ scheme ∧ '\x00' ∉ scheme := by
  have hall : ∀ scheme ∈ schemes, scheme ≠ [] ∧ '/' ∉ scheme ∧ '\x00' ∉ scheme := by decide
  exact hall scheme h

def pathOf (more : List Text) : Text :=
  let path := more.flatMap ('/' :: ·)
  if path = [] then ['/'] else path

theorem pieces_split (h : p.Valid) :
    stringSplit (cString p.text) '/' = p.protocol :: p.second :: p.authority :: p.more := by
  obtain ⟨hne, hslash, hnul⟩ := scheme_plain h.protocol
  have hparts : ∀ t ∈ p.protocol :: p.second :: p.authority :: p.more, '/' ∉ t ∧ '\x00' ∉ t :=
    forall_mem_cons.mpr ⟨⟨hslash, hnul⟩, h.tokens⟩
  have hfront : '\x00' ∉ List.replicate p.slashes '/' ++
      join '/' p.protocol (p.second :: p.authority :: p.more) := by
    rw [mem_append, mem_join (by decide), not_or]
    constructor
    · intro hc
      exact absurd (mem_replicate.mp hc).2 (by decide)
    · rintro ⟨t, ht, hc⟩
      exact (hparts t ht).2 hc
  rw [Pieces.text, cString_append hfront h.rest]
  exact stringSplit_cons.mpr ⟨hne, fun t ht => (hparts t ht).1, _, rfl⟩

theorem parse_pieces (h : p.Valid) : parseUrl p.text =
    match hostAndPort p.protocol p.authority with
    | none => none
    | some none => some none
    | some (some (host, port)) =>
      if maxPort < port ∨ port ≤ 0 then some none
      else if hostnameIsValid host = false then some none
      else some (some ⟨host, port, pathOf p.more, p.protocol⟩) := by
  unfold parseUrl
  rw [pieces_split h]
  dsimp only
  rw [if_neg (not_not.mpr h.protocol), if_neg h.authority]
  rfl

theorem parse_read (h : p.Valid) (hread : Reads p.authority host port)
    (hlow : 0 < portOf p.protocol port) (hhigh : portOf p.protocol port ≤ maxPort)
    (hvalid : hostnameIsValid host = true) :
    parseUrl p.text = some (some ⟨host, portOf p.protocol port, pathOf p.more, p.protocol⟩) := by
  rw [parse_pieces h, hostAndPort_reads p.protocol hread]
  dsimp only
  rw [if_neg (by omega), if_neg (by rw [hvalid]; decide)]

theorem parse_cases (url : Text) :
    parseUrl url = some none ∨ ∃ p : Pieces, p.Valid ∧ url = p.text := by
  obtain ⟨hnul, rest, hurl, hrest⟩ := cString_rest url
  match hsplit : stringSplit (cString url) '/' with
  | protocol :: second :: authority :: more =>
    by_cases hprotocol : protocol ∈ schemes
    · by_cases hauthority : authority = []
      · refine .inl ?_
        unfold parseUrl
        rw [hsplit]
        dsimp only
        rw [if_neg (not_not.mpr hprotocol), if_pos hauthority]
      · obtain ⟨-, hparts, slashes, htext⟩ := stringSplit_cons.mp hsplit
        refine .inr ⟨⟨slashes, protocol, second, authority, more, rest⟩, ⟨hprotocol, hauthority, ?_,
          hrest⟩, ?_⟩
        · intro t ht
          refine ⟨hparts t (mem_cons_of_mem _ ht), ?_⟩
          intro hc
          refine hnul ?_
          rw [htext]
          refine mem_append_right _ ((mem_join (by decide)).mpr ?_)
          exact ⟨t, mem_cons_of_mem _ ht, hc⟩
        · rw [Pieces.text, ← htext]
          exact hurl
    · refine .inl ?_
      unfold parseUrl
      rw [hsplit]
      exact if_pos hprotocol
  | [] =>
    refine .inl ?_
    unfold parseUrl
    rw [hsplit]
  | [_] =>
    refine .inl ?_
    unfold parseUrl
    rw [hsplit]
  | [_, _] =>
    refine .inl ?_
    unfold parseUrl
    rw [hsplit]

theorem text_cons (p : Pieces) : p.text = List.replicate p.slashes '/' ++ (p.protocol ++
    '/' :: (p.second ++ '/' :: (p.authority ++ p.more.flatMap ('/' :: ·)))) ++ p.rest := by
  rfl

theorem more_head (more : List Text) : ∀ c ∈ (more.flatMap ('/' :: ·)).head?, c = '/' := by
  intro c hc
  cases more with
  | nil => cases hc
  | cons t more => exact (Option.some.inj hc).symm

theorem host_subset (h : Reads authority host port) : ∀ c ∈ host, c ∈ authority := by
  intro c hc
  cases h with
  | ipv6 _ text => exact text ▸ mem_append_left _ hc
  | host _ _ _ _ text => exact text ▸ mem_append_right _ hc
  | port _ _ _ _ _ _ text =>
    exact text ▸ mem_append_right _ (mem_append_left _ hc)

theorem host_some (h : Reads authority host port) : host ≠ [] := by
  cases h with
  | ipv6 _ _ looks =>
    rintro rfl
    exact absurd looks (by decide)
  | host _ _ hostSome => exact hostSome
  | port _ _ hostSome => exact hostSome

theorem portText_plain (h : ∀ digits ∈ port, IsPort digits) :
    ∀ c ∈ portText port, c ≠ '/' ∧ c ≠ '\x00' := by
  intro c hc
  cases port with
  | none => cases hc
  | some digits =>
    rcases mem_cons.mp hc with rfl | hc
    · decide
    · have hdigit := (h digits rfl).1 c hc
      exact ⟨ne_of_isDigit hdigit (by decide), ne_of_isDigit hdigit (by decide)⟩

theorem pathOf_nulless {more : List Text} (h : ∀ t ∈ more, '\x00' ∉ t) : '\x00' ∉ pathOf more := by
  unfold pathOf
  dsimp only
  split
  · decide
  intro hc
  obtain ⟨t, ht, hc⟩ := mem_flatMap.mp hc
  rcases mem_cons.mp hc with heq | hc
  · exact absurd heq (by decide)
  · exact h t ht hc

theorem port_written {written : Option Text} (h : Reads authority host port)
    (htext : authority = host ++ portText written) : port = written := by
  have hfirst : ∀ (colons : ℕ) (rest : Text), host ≠ [] → ':' ∉ host →
      List.replicate colons ':' ++ (host ++ rest) = host ++ portText written → colons = 0 := by
    intro colons rest hsome hcolon heq
    cases colons with
    | zero => rfl
    | succ k =>
      obtain ⟨c, cs, rfl⟩ := exists_cons_of_ne_nil hsome
      exact absurd ((cons.inj heq).1 ▸ mem_cons_self) hcolon
  cases h with
  | ipv6 colon text =>
    rw [text, append_cancel_left_eq] at htext
    cases written with
    | none => cases htext
    | some digits => rw [(cons.inj htext).2]
  | host colons _ hostSome colon text =>
    rw [text] at htext
    have hzero := hfirst colons [] hostSome colon (by rwa [append_nil])
    rw [hzero, replicate_zero, nil_append, self_eq_append_right] at htext
    cases written with
    | none => rfl
    | some digits => cases htext
  | port colons _ hostSome colon _ _ text =>
    rw [text] at htext
    have hzero := hfirst colons _ hostSome colon htext
    rw [hzero, replicate_zero, nil_append, append_cancel_left_eq] at htext
    cases written with
    | none => cases htext
    | some digits => rw [(cons.inj htext).2]

theorem plain_of_written {written : Option Text} {rest : Text} (h : p.Valid)
    (hread : Reads p.authority host port)
    (hwritten : Written p.text
        ⟨host, portOf p.protocol port, pathOf p.more, p.protocol⟩ written rest) :
    p.slashes = 0 ∧ p.second = [] ∧ p.rest = [] ∧ p.authority = host ++ portText port ∧
      ∀ digits ∈ port, IsPort digits := by
  obtain ⟨hne, hslash, -⟩ := scheme_plain h.protocol
  have htext := hwritten.text
  rw [text_cons] at htext
  have hslashes : p.slashes = 0 := by
    cases hk : p.slashes with
    | zero => rfl
    | succ k =>
      obtain ⟨c, cs, hcons⟩ := exists_cons_of_ne_nil hne
      rw [hk, replicate_succ, hcons] at htext
      exact absurd (hcons ▸ (cons.inj htext).1 ▸ mem_cons_self) hslash
  rw [hslashes, replicate_zero, nil_append, append_assoc, append_cancel_left_eq] at htext
  replace htext := (cons.inj htext).2
  obtain ⟨hsecond, htokens⟩ := forall_mem_cons.mp h.tokens
  obtain ⟨hauthority, hmore⟩ := forall_mem_cons.mp htokens
  have hempty : p.second = [] := by
    cases hcons : p.second with
    | nil => rfl
    | cons c cs =>
      rw [hcons] at htext hsecond
      exact absurd ((cons.inj htext).1 ▸ mem_cons_self) hsecond.1
  rw [hempty] at htext
  replace htext : p.authority ++ p.more.flatMap ('/' :: ·) ++ p.rest =
      host ++ portText written ++ rest := (cons.inj htext).2
  have hports := portText_plain fun digits hd => (hwritten.portRead digits hd).1
  have hrest : p.rest = [] := by
    cases hcons : p.rest with
    | nil => rfl
    | cons c cs =>
      exfalso
      have hc : c = '\x00' := h.rest c (by rw [hcons]; rfl)
      have hmem : '\x00' ∈ host ++ portText written ++ rest := by
        rw [← htext, hcons, hc]
        exact mem_append_right _ mem_cons_self
      rcases mem_append.mp hmem with hmem | hmem
      · rcases mem_append.mp hmem with hmem | hmem
        · exact hauthority.2 (host_subset hread _ hmem)
        · exact (hports _ hmem).2 rfl
      have hpath := hwritten.path
      rw [if_neg (ne_nil_of_mem hmem)] at hpath
      have hsame : pathOf p.more = rest := hpath
      have hnul : '\x00' ∉ pathOf p.more := pathOf_nulless fun t ht => (hmore t ht).2
      rw [hsame] at hnul
      exact hnul hmem
  rw [hrest, append_nil] at htext
  have hwhole : p.authority = host ++ portText written := by
    refine append_unique hauthority.1 ?_ (more_head p.more) hwritten.restPath htext
    rw [mem_append, not_or]
    exact ⟨fun hc => hauthority.1 (host_subset hread _ hc), fun hc => (hports _ hc).1 rfl⟩
  obtain rfl := port_written hread hwhole
  exact ⟨hslashes, hempty, hrest, hwhole, fun digits hd => (hwritten.portRead digits hd).1⟩

theorem written_of_plain (h : p.Valid) (hread : Reads p.authority host port)
    (hslashes : p.slashes = 0) (hsecond : p.second = []) (hrest : p.rest = [])
    (hwhole : p.authority = host ++ portText port) (hport : ∀ digits ∈ port, IsPort digits) :
    Written p.text ⟨host, portOf p.protocol port, pathOf p.more, p.protocol⟩ port
      (p.more.flatMap ('/' :: ·)) where
  text := by
    rw [text_cons, hslashes, hsecond, hrest, hwhole]
    simp
  scheme := h.protocol
  hostSome := host_some hread
  portRead := by
    rintro digits hd
    obtain rfl := Option.mem_def.mp hd
    obtain ⟨hdigits, hlow, hhigh⟩ := hport digits rfl
    exact ⟨⟨hdigits, hlow, hhigh⟩, atoi_small hdigits (by omega)⟩
  restPath := more_head p.more
  path := rfl

/-- A URL is split faithfully exactly when nothing of it is dropped. -/
theorem split_faithfully_iff (url : Text) : SplitFaithfully url ↔ NothingDropped url := by
  constructor
  · rintro ⟨result, hparse, hwritten⟩ p hp rfl
    constructor
    · intro n hn
      by_contra hcolons
      rw [parse_pieces hp, hn, hostAndPort_colons p.protocol hcolons] at hparse
      cases hparse
    · intro host port hread hlow hhigh hvalid
      rw [parse_read hp hread hlow hhigh hvalid] at hparse
      cases hparse
      obtain ⟨written, rest, hu⟩ := hwritten _ rfl
      exact plain_of_written hp hread hu
  · intro h
    rcases parse_cases url with hparse | ⟨p, hp, rfl⟩
    · exact ⟨none, hparse, fun _ hu => nomatch hu⟩
    obtain ⟨hcolons, hplain⟩ := h p hp rfl
    rcases hostAndPort_cases p.protocol p.authority with
      ⟨host, port, hread⟩ | hrefused | ⟨n, hn, hbad⟩
    · by_cases hrange : 0 < portOf p.protocol port ∧ portOf p.protocol port ≤ maxPort
      · cases hvalid : hostnameIsValid host with
        | true =>
          refine ⟨_, parse_read hp hread hrange.1 hrange.2 hvalid, ?_⟩
          rintro _ ⟨⟩
          obtain ⟨hslashes, hsecond, hrest, hwhole, hport⟩ :=
            hplain host port hread hrange.1 hrange.2 hvalid
          exact ⟨port, _, written_of_plain hp hread hslashes hsecond hrest hwhole hport⟩
        | false =>
          refine ⟨none, ?_, fun _ hu => nomatch hu⟩
          rw [parse_pieces hp, hostAndPort_reads p.protocol hread]
          dsimp only
          rw [if_neg (by omega), if_pos hvalid]
      · refine ⟨none, ?_, fun _ hu => nomatch hu⟩
        rw [parse_pieces hp, hostAndPort_reads p.protocol hread]
        dsimp only
        rw [if_pos (by omega)]
    · refine ⟨none, ?_, fun _ hu => nomatch hu⟩
      rw [parse_pieces hp, hrefused]
    · exact absurd (hcolons n hn) hbad

theorem colon_unsafe : ¬ ∀ url, SplitFaithfully url := by
  intro h
  obtain ⟨result, hparse, -⟩ := h "http://:".toList
  have hnone : parseUrl "http://:".toList = none := by decide
  cases hparse

end ParseUrl
