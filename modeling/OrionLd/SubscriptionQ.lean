import OrionLd.StringFilterRoundTrip

/-! The q of a subscription after it has been stored. kjTreeToSubscription parses the q of the
payload, renders it into 512 bytes of stack and stores the text, which is parsed again when the
subscription is used. -/
namespace SubscriptionQ

open Fallible KjTree OrionldContextItem StringFilter StringFilterRender StringFilterRoundTrip List

def joined (line : Text) (lines : List Text) : Text := line ++ lines.flatMap (';' :: ·)

theorem joined_cons (line next : Text) (lines : List Text) :
    joined line (next :: lines) = line ++ ';' :: joined next lines := by
  simp [joined]

theorem intercalate_eq_joined (line : Text) (lines : List Text) :
    [';'].intercalate (line :: lines) = joined line lines := by
  induction lines generalizing line with
  | nil => simp [joined]
  | cons next lines ih => rw [intercalate_cons_cons, ih, joined_cons]; simp

theorem joined_ends (line : Text) (lines : List Text) :
    ∃ before, ∃ last ∈ line :: lines, joined line lines = before ++ last := by
  induction lines generalizing line with
  | nil => exact ⟨[], line, by simp, by simp [joined]⟩
  | cons next lines ih =>
    obtain ⟨before, last, hlast, heq⟩ := ih next
    exact ⟨line ++ ';' :: before, last, mem_cons_of_mem _ hlast, by simp [joined_cons, heq]⟩

variable {c : Char} {item : StringFilterItem}

theorem hasDouble_append {l r : Text} (h : c ∉ l) : hasDouble c (l ++ r) = hasDouble c r := by
  induction l with
  | nil => rfl
  | cons a l ih =>
    have ha : a ≠ c := fun e => h (e ▸ mem_cons_self)
    rw [cons_append, ← ih (fun hm => h (mem_cons_of_mem _ hm))]
    cases l ++ r with
    | nil => rfl
    | cons b cs => simp [hasDouble, ha]

variable {line : Text} {lines : List Text}

theorem hasDouble_joined (h : ∀ l ∈ line :: lines, l ≠ [] ∧ ';' ∉ l) :
    hasDouble ';' (joined line lines) = false := by
  induction lines generalizing line with
  | nil =>
    have hl := (h line (by simp)).2
    simpa [joined] using hasDouble_of_notMem hl
  | cons next lines ih =>
    rw [joined_cons, hasDouble_append (h line (by simp)).2]
    have hnext := h next (by simp)
    obtain ⟨c, cs, rfl⟩ := exists_cons_of_ne_nil hnext.1
    have hc : c ≠ ';' := fun e => hnext.2 (e ▸ mem_cons_self)
    have hrest := ih (fun l hl => h l (mem_cons_of_mem _ hl))
    simp only [joined, cons_append] at hrest ⊢
    simp [hasDouble, hc, hrest]

theorem strtok_joined (h : ∀ l ∈ line :: lines, l ≠ [] ∧ ';' ∉ l) :
    strtok ';' (joined line lines) = line :: lines := by
  rw [strtok, ← intercalate_eq_joined, splitOn_intercalate _ (fun l hl => (h l hl).2)
    (by simp), filter_eq_self]
  intro l hl
  simpa using (h l hl).1

variable {env : Env}

theorem getLast?_joined (h : ∀ l ∈ line :: lines, l ≠ [])
    (hc : (joined line lines).getLast? = some c) : ∃ l ∈ line :: lines, l.getLast? = some c := by
  obtain ⟨before, last, hlast, heq⟩ := joined_ends line lines
  refine ⟨last, hlast, ?_⟩
  rwa [heq, List.getLast?_append_of_ne_nil _ (h last hlast)] at hc

variable {q : Text} {items : List StringFilterItem}

theorem parse_eq_parseItems (hne : q ≠ []) (hstrip : wsStrip q = q) (hlast : q.getLast? ≠ some ';')
    (hdouble : hasDouble ';' q = false) : parse env q = parseItems env (strtok ';' q) := by
  have hempty : ¬ (q = [] ∨ q = [';']) := by
    rintro (h | rfl)
    · exact hne h
    · exact hlast rfl
  have hdouble' : ¬ hasDouble ';' q = true := by simp [hdouble]
  have hinPlace : strippedInPlace q = q := by
    rw [strippedInPlace, if_neg (by rwa [hstrip]), rdropWhile_eq_self_iff]
    intro hq
    simpa using last_of_wsStrip hstrip (List.getLast?_eq_some_getLast hq)
  have hwhole : withoutLastSemicolon q = q := if_neg hlast
  unfold parse
  rw [if_neg hempty, if_neg hdouble', hwhole]
  simp only
  rw [hstrip, if_neg hlast, hinPlace]

theorem parseItems_lines (h : ∀ i ∈ items, GoodLine env i) :
    parseItems env (items.map (itemLine env)) = .ok items := by
  induction items with
  | nil => rfl
  | cons item items ih =>
    have hline := (h item (by simp)).parses
    have hrest := ih fun i hi => h i (mem_cons_of_mem _ hi)
    simp [parseItems, hline.stripped, hline.nonempty, hline.parsed, hrest]

theorem parse_lines (h : ∀ i ∈ item :: items, GoodLine env i) :
    parse env (joined (itemLine env item) (items.map (itemLine env))) = .ok (item :: items) := by
  have hlines : ∀ l ∈ itemLine env item :: items.map (itemLine env),
      l ≠ [] ∧ wsStrip l = l ∧ ';' ∉ l := by
    intro l hl
    rw [← map_cons] at hl
    obtain ⟨i, hi, rfl⟩ := mem_map.mp hl
    exact ⟨(h i hi).parses.nonempty, (h i hi).parses.stripped, (h i hi).whole.2⟩
  have hboth : ∀ l ∈ itemLine env item :: items.map (itemLine env), l ≠ [] ∧ ';' ∉ l :=
    fun l hl => ⟨(hlines l hl).1, (hlines l hl).2.2⟩
  have hall := parseItems_lines h
  rw [map_cons] at hall
  generalize itemLine env item = line at hlines hboth hall ⊢
  generalize items.map (itemLine env) = lines at hlines hboth hall ⊢
  obtain ⟨c, cs, rfl⟩ := exists_cons_of_ne_nil (hlines line (by simp)).1
  have hne : joined (c :: cs) lines ≠ [] := by simp [joined]
  have hlast : (joined (c :: cs) lines).getLast? ≠ some ';' := by
    intro hc
    obtain ⟨l, hl, hlc⟩ := getLast?_joined (fun l hl => (hlines l hl).1) hc
    exact (hlines l hl).2.2 (mem_of_mem_getLast? hlc)
  have hstrip : wsStrip (joined (c :: cs) lines) = joined (c :: cs) lines := by
    refine wsStrip_eq_self ?_ ?_
    · intro d hd
      exact first_of_wsStrip (hlines (c :: cs) (by simp)).2.1 hd
    · intro d hd
      obtain ⟨l, hl, hld⟩ := getLast?_joined (fun l hl => (hlines l hl).1) hd
      exact last_of_wsStrip (hlines l hl).2.1 hld
  rw [parse_eq_parseItems hne hstrip hlast (hasDouble_joined hboth), strtok_joined hboth, hall]

theorem parseItems_read {tokens : List Text} (h : parseItems env tokens = .ok items) :
    ∀ i ∈ items, HasRead env i := by
  induction tokens generalizing items with
  | nil =>
    cases h
    simp
  | cons token tokens ih =>
    rw [parseItems] at h
    split at h
    · cases h
    obtain ⟨item, hitem, h⟩ := bind_ok h
    obtain ⟨rest, hrest, h⟩ := bind_ok h
    cases h
    intro i hi
    rcases mem_cons.mp hi with rfl | hi
    · exact hasRead_of_parse hitem
    · exact ih hrest i hi

theorem strtok_ne_nil {s : Text} (hc : c ∈ s) (hne : c ≠ ';') : strtok ';' s ≠ [] := by
  obtain ⟨line, lines, hsplit⟩ : ∃ line lines, s.splitOn ';' = line :: lines :=
    exists_cons_of_ne_nil (splitOn_ne_nil _ _)
  have hs : joined line lines = s := by
    rw [← intercalate_eq_joined, ← hsplit, intercalate_splitOn]
  have hpiece : ∃ l ∈ s.splitOn ';', c ∈ l := by
    rw [← hs] at hc
    rw [hsplit]
    simp only [joined, mem_append, mem_flatMap, mem_cons, hne, false_or] at hc
    rcases hc with hc | ⟨l, hl, hc⟩
    · exact ⟨line, by simp, hc⟩
    · exact ⟨l, mem_cons_of_mem _ hl, hc⟩
  obtain ⟨l, hl, hcl⟩ := hpiece
  have hmem : l ∈ strtok ';' s := by
    refine mem_filter.mpr ⟨hl, ?_⟩
    simpa using ne_nil_of_mem hcl
  exact ne_nil_of_mem hmem

theorem isWs_semicolon : isWs ';' = false := by decide

theorem exists_ne_semicolon (hempty : ¬ (q = [] ∨ q = [';']))
    (hsemi : (wsStrip (withoutLastSemicolon q)).getLast? ≠ some ';') :
    ∃ c ∈ strippedInPlace (withoutLastSemicolon q), c ≠ ';' := by
  have hne : withoutLastSemicolon q ≠ [] := by
    unfold withoutLastSemicolon
    split
    · rename_i hlast
      intro hdrop
      obtain ⟨before, rfl⟩ := List.getLast?_eq_some_iff.mp hlast
      rw [dropLast_concat] at hdrop
      exact hempty (.inr (by simp [hdrop]))
    · exact fun h => hempty (.inl h)
  generalize withoutLastSemicolon q = str at hsemi hne ⊢
  unfold strippedInPlace
  split
  · next hws =>
    obtain ⟨c, cs, rfl⟩ := exists_cons_of_ne_nil hne
    refine ⟨c, by simp, ?_⟩
    rintro rfl
    have hfirst : (';' :: cs).dropWhile isWs = ';' :: cs := by simp [isWs_semicolon]
    rw [wsStrip, hfirst, rdropWhile_eq_nil_iff] at hws
    exact absurd (hws ';' (by simp)) (by decide)
  · next hws =>
    have hlast := List.getLast?_eq_some_getLast hws
    refine ⟨(wsStrip str).getLast hws, ?_, fun h => hsemi (h ▸ hlast)⟩
    have hmem : (wsStrip str).getLast hws ∈ str := by
      have hin := getLast_mem hws
      exact (dropWhile_suffix isWs).subset ((List.rdropWhile_prefix isWs _).subset hin)
    have hnot : ¬ isWs ((wsStrip str).getLast hws) = true :=
      rdropWhile_last_not isWs (str.dropWhile isWs) hws
    generalize (wsStrip str).getLast hws = c at hmem hnot ⊢
    rw [← rdropWhile_append_rtakeWhile (p := isWs) (l := str)] at hmem
    rcases mem_append.mp hmem with h | h
    · exact h
    · exact absurd (mem_rtakeWhile_imp h) hnot

theorem parse_ok (h : parse env q = .ok items) : items ≠ [] ∧ ∀ i ∈ items, HasRead env i := by
  unfold parse at h
  split at h
  · cases h
  rename_i hempty
  split at h
  · cases h
  simp only at h
  split at h
  · cases h
  rename_i hsemi
  refine ⟨?_, parseItems_read h⟩
  rintro rfl
  obtain ⟨c, hc, hne⟩ := exists_ne_semicolon hempty hsemi
  obtain ⟨token, tokens, htok⟩ := exists_cons_of_ne_nil (strtok_ne_nil hc hne)
  rw [htok, parseItems] at h
  split at h
  · cases h
  obtain ⟨item, -, h⟩ := bind_ok h
  obtain ⟨rest, -, h⟩ := bind_ok h
  cases h

variable (env : Env)

def bufSize : ℕ := 512

inductive QError where
  | response (httpStatusCode : ℕ) (title details : String)
  | undefined (e : RenderError)
  deriving DecidableEq, Repr

/-- The branch of kjTreeToSubscription for q, with what is found on the stack. -/
def kjTreeToSubscriptionQ (stack : List Char) (q : Text) : Except QError Text :=
  match parse env q with
  | .error _ => .error (.response 400 "Invalid value for Subscription::q" (String.ofList q))
  | .ok items =>
    match render env items stack bufSize with
    | .ok buf => .ok (cString buf)
    | .error .noRoom => .error (.response 500 "Internal Error" "Unable to render StringFilter")
    | .error e => .error (.undefined e)

/-- The text stored for q is parsed to the items of q, whenever it is stored, and nothing is written
or read outside the buffers. -/
def StoredUnchanged (stack : List Char) (q : Text) : Prop :=
  ∀ items, parse env q = .ok items → (∀ i ∈ items, InScope i) →
    match kjTreeToSubscriptionQ env stack q with
    | .ok text => parse env text = .ok items
    | .error (.response _ _ _) => True
    | .error (.undefined _) => False

variable {env}

theorem itemSpan_of_ne (h : item.op ≠ .sfopMatchPattern) :
    itemSpan env item = itemLine env item := by
  simp [itemSpan, h]

theorem cString_joined {line tail : List Char} (h : ∀ l ∈ line :: lines, nul ∉ l) :
    cString (joined line lines ++ nul :: tail) = joined line lines := by
  have hno : ∀ c ∈ joined line lines, decide (c ≠ nul) = true := by
    intro c hc
    simp only [joined, mem_append, mem_flatMap, mem_cons] at hc
    rcases hc with hc | ⟨l, hl, rfl | hc⟩
    · exact decide_eq_true fun e => h line (by simp) (e ▸ hc)
    · decide
    · exact decide_eq_true fun e => h l (mem_cons_of_mem _ hl) (e ▸ hc)
  rw [cString, takeWhile_append_of_pos hno]
  simp

/-- Items that survive, and do not leave room for one zero only, are stored unchanged. -/
theorem stored_unchanged {stack : List Char} {q : Text} {items : List StringFilterItem}
    (hnt : NumberTexts env) (hstack : stack.length = bufSize) (hq : parse env q = .ok items)
    (hs : ∀ i ∈ items, ItemSurvives env i) (hfill : ¬ FillsBuffer env bufSize items) :
    StoredUnchanged env stack q := by
  intro items' hq' hscope
  obtain rfl : items = items' := Except.ok.inj (hq.symm.trans hq')
  obtain ⟨hne, hread⟩ := parse_ok hq
  have hgood : ∀ i ∈ items, GoodLine env i := fun i hi =>
    goodLine_of_survives hnt (hread i hi) (hscope i hi) (hs i hi)
  unfold kjTreeToSubscriptionQ
  rw [← hstack] at hfill
  simp only [hq, ← hstack]
  cases hr : render env items stack stack.length with
  | error e =>
    rcases render_error hr with rfl | ⟨-, i, hi, hnone⟩ | ⟨-, hfull⟩
    · trivial
    · exact absurd hnone (hgood i hi).written
    · exact absurd hfull hfill
  | ok buf =>
    obtain ⟨item, rest, rfl⟩ := exists_cons_of_ne_nil hne
    obtain ⟨tail, rfl⟩ := render_ok hr
    have hrest : restSpans env rest = (rest.map (itemLine env)).flatMap (';' :: ·) := by
      rw [restSpans, flatMap_map]
      apply flatMap_congr
      intro i hi
      rw [itemSpan_of_ne (hs i (mem_cons_of_mem _ hi)).op]
    have hwhole : ∀ l ∈ itemLine env item :: rest.map (itemLine env), nul ∉ l := by
      intro l hl
      rw [← map_cons] at hl
      obtain ⟨i, hi, rfl⟩ := mem_map.mp hl
      exact (hgood i hi).whole.1
    have htext : cString (itemSpan env item ++ restSpans env rest ++ nul :: tail) =
        joined (itemLine env item) (rest.map (itemLine env)) := by
      rw [itemSpan_of_ne (hs item (by simp)).op, hrest]
      exact cString_joined hwhole
    simp only [htext]
    exact parse_lines hgood

def sampleEnv : Env where
  core := []
  context := []
  defaultUrl := "https://uri.etsi.org/ngsi-ld/default-context/".toList
  str2double := fun
    | '-' :: ds => if ds.all Char.isDigit then some (-(Nat.ofDigitChars 10 ds 0 : ℚ)) else none
    | ds => if ds.all Char.isDigit then some (Nat.ofDigitChars 10 ds 0 : ℚ) else none
  parse8601Time := fun _ => none
  regcomp := fun _ => true
  kFloatTrim := fun s =>
    if '.' ∈ s then (s.rdropWhile (· == '0')).rdropWhile (· == '.') else s

def sampleStack : List Char := List.replicate bufSize 'x'

theorem sampleEnv_str2double (z : ℤ) : sampleEnv.str2double (intText z) = some (z : ℚ) := by
  have hdigits : (Nat.toDigits 10 z.natAbs).all Char.isDigit = true := by
    rw [all_eq_true]
    exact fun c hc => Nat.isDigit_of_mem_toDigits (by decide) (by decide) hc
  have hvalue : Nat.ofDigitChars 10 (Nat.toDigits 10 z.natAbs) 0 = z.natAbs :=
    Nat.ofDigitChars_toDigits (by decide) (by decide)
  unfold intText
  by_cases hz : z < 0
  · have hneg : (z : ℚ) = -(z.natAbs : ℚ) := by
      rw [Nat.cast_natAbs, abs_of_neg hz]
      simp
    simp only [sampleEnv, if_pos hz, singleton_append, hdigits, if_true, hvalue, ← hneg]
  · have hpos : (z : ℚ) = (z.natAbs : ℚ) := by
      rw [Nat.cast_natAbs, abs_of_nonneg (not_lt.mp hz)]
    obtain ⟨c, cs, hcs⟩ := exists_cons_of_ne_nil (Nat.toDigits_ne_nil (b := 10) (n := z.natAbs))
    have hc : c ≠ '-' := by
      rintro rfl
      have hd := Nat.isDigit_of_mem_toDigits (b := 10) (n := z.natAbs) (c := '-') (by decide)
        (by decide) (by simp [hcs])
      cases hd
    rw [hcs] at hdigits hvalue
    rw [if_neg hz, hcs, nil_append]
    simp only [sampleEnv]
    split
    · rename_i heq
      exact absurd (cons.inj heq).1 hc
    · rw [if_pos hdigits, hvalue, ← hpos]

theorem sampleEnv_numberTexts : NumberTexts sampleEnv := by
  refine ⟨?_, fun _ z _ => sampleEnv_str2double z⟩
  intro ds hds
  have hdot : '.' ∈ ds ++ ".000000".toList := by simp
  have hzeros : (ds ++ ".000000".toList).rdropWhile (· == '0') = ds ++ ['.'] := by
    simp [List.rdropWhile]
  simp only [sampleEnv, if_pos hdot, hzeros]
  rw [rdropWhile_concat_pos _ _ _ (by simp), rdropWhile_eq_self_iff]
  intro hne hlast
  exact hds ((beq_iff_eq.mp hlast) ▸ getLast_mem hne)

theorem plainName_urn {op : StringFilterOp} {name : Text} {a b : Char}
    (hall : name.all (fun c => !nameBreakers.contains c) = true) (ha : name.head? = some a)
    (hb : name.getLast? = some b) (hletters : a.isAlpha = true ∧ b.isAlpha = true)
    (hexp : longAttributeName sampleEnv name = name) : PlainName sampleEnv op name := by
  have hws : ∀ c : Char, c.isAlpha = true → isWs c = false ∧ c ≠ '!' ∧ c ≠ '~' := by
    intro c hc
    refine ⟨?_, ?_, ?_⟩
    · by_contra hw
      simp only [isWs, Bool.not_eq_false, Bool.or_eq_true, beq_iff_eq] at hw
      rcases hw with (rfl | rfl) | rfl <;> cases hc
    · rintro rfl
      cases hc
    · rintro rfl
      cases hc
  have hchars : ∀ c ∈ name, c ∉ nameBreakers := by
    intro c hc
    have hfree := all_eq_true.mp hall c hc
    rwa [Bool.not_eq_true', contains_eq_mem, decide_eq_false_iff_not] at hfree
  refine ⟨?_, hchars, ?_, ?_, hexp⟩
  · rintro rfl
    cases ha
  · intro c hc
    obtain rfl : a = c := Option.some.inj (ha.symm.trans hc)
    exact ⟨(hws a hletters.1).1, fun h => absurd h (hws a hletters.1).2.1⟩
  · intro c hc
    obtain rfl : b = c := Option.some.inj (hb.symm.trans hc)
    refine ⟨(hws b hletters.2).1, ?_⟩
    rintro (h | h)
    · exact absurd h (hws b hletters.2).2.2
    · exact absurd h (hws b hletters.2).2.1

theorem stored_unchanged_two :
    StoredUnchanged sampleEnv sampleStack "urn:A==5;!urn:B".toList := by
  have hq : parse sampleEnv "urn:A==5;!urn:B".toList =
      .ok [⟨"urn:A".toList, [], .sfopEquals, some (.number 5)⟩,
        ⟨"urn:B".toList, [], .sfopNotExists, none⟩] := by decide +kernel
  refine stored_unchanged sampleEnv_numberTexts (by simp [sampleStack]) hq ?_ ?_
  · intro i hi
    simp only [mem_cons, not_mem_nil, or_false] at hi
    rcases hi with rfl | rfl
    · refine ⟨plainName_urn (a := 'u') (b := 'A') (by decide +kernel) rfl rfl (by decide)
        (by decide +kernel), rfl, by decide, ?_⟩
      intro v hv
      cases hv
      have hlen : (printfF 5).length < valueBufSize := by decide +kernel
      exact hlen
    · refine ⟨plainName_urn (a := 'u') (b := 'B') (by decide +kernel) rfl rfl (by decide)
        (by decide +kernel), rfl, by decide, ?_⟩
      intro v hv
      cases hv
  · rintro ⟨pre, post, hsplit, hpost, hfull⟩
    cases pre with
    | nil =>
      have hneed : needChars sampleEnv ⟨"urn:A".toList, [], .sfopEquals, some (.number 5)⟩ = 8 := by
        decide +kernel
      rw [hneed] at hfull
      cases hfull
    | cons item pre =>
      have hnil : pre ++ post = [] := (cons.inj hsplit).2.symm
      exact hpost (append_eq_nil_iff.mp hnil).2

theorem not_storedUnchanged (text : Text) (item : StringFilterItem)
    (hq : parse sampleEnv q = .ok [item]) (hscope : InScope item)
    (ht : kjTreeToSubscriptionQ sampleEnv sampleStack q = .ok text)
    (hne : parse sampleEnv text ≠ .ok [item]) : ¬ StoredUnchanged sampleEnv sampleStack q := by
  intro h
  have hkept := h [item] hq (by simpa using hscope)
  rw [ht] at hkept
  exact hne hkept

/-- The long name of A has dots, which the parser takes for the separators of a path. The other
texts show the other kinds of items that are not read back. -/
theorem stored_changed :
    ¬ StoredUnchanged sampleEnv sampleStack "A==x".toList ∧
      ¬ StoredUnchanged sampleEnv sampleStack "urn:A==false".toList ∧
      ¬ StoredUnchanged sampleEnv sampleStack "urn:A~=x".toList ∧
      ¬ StoredUnchanged sampleEnv sampleStack "urn:A.b==x".toList ∧
      ¬ StoredUnchanged sampleEnv sampleStack "urn:A=='true'".toList := by
  refine ⟨?_, ?_, ?_, ?_, ?_⟩
  · exact not_storedUnchanged "https://uri=etsi=org/ngsi-ld/default-context/A==x".toList
      ⟨"https://uri=etsi=org/ngsi-ld/default-context/A".toList, [], .sfopEquals,
        some (.string "x".toList)⟩ (by decide +kernel) trivial (by decide +kernel)
      (by decide +kernel)
  · exact not_storedUnchanged "urn:A==true".toList
      ⟨"urn:A".toList, [], .sfopEquals, some (.bool false)⟩ (by decide +kernel) trivial
      (by decide +kernel) (by decide +kernel)
  · exact not_storedUnchanged "urn:A=x".toList
      ⟨"urn:A".toList, [], .sfopMatchPattern, some (.string "x".toList)⟩
      (by decide +kernel) trivial (by decide +kernel) (by decide +kernel)
  · exact not_storedUnchanged "urn:A==x".toList
      ⟨"urn:A".toList, "b".toList, .sfopEquals, some (.string "x".toList)⟩
      (by decide +kernel) trivial (by decide +kernel) (by decide +kernel)
  · exact not_storedUnchanged "urn:A==true".toList
      ⟨"urn:A".toList, [], .sfopEquals, some (.string "true".toList)⟩
      (by decide +kernel) trivial (by decide +kernel) (by decide +kernel)

end SubscriptionQ
