import OrionLd.FilterValuesAgree
import OrionLd.SubscriptionQ
import Mathlib.Data.Bool.AllAny

/-! Forced strings in a filter, a=='s', and right-hand sides whose quote is not closed. The
items are cut at every ';', and ranges are looked for before the quotes are. -/
namespace ForcedStrings

open StringFilterItems (opAt)
open StringFilter (wsStrip)
open StringFilter hiding opAt lhsParse parseItems parse
open Fallible StringFilterItems StringFilterMatch StringFilterRoundTrip FilterValuesAgree List
open KjTree (Text)
open MongoQuery (Bson)
open MongoLocation (ApiVersion)

/-- What a left-hand side is taken for as it stands. Before NGSI-LD ':' is an operator. -/
structure AttributeName (v : ApiVersion) (a : Text) : Prop where
  nonempty : a ≠ []
  chars : ∀ c ∈ a, c ∉ nameBreakers
  colon : v ≠ .ngsiLd → ':' ∉ a
  first : ∀ c, a.head? = some c → isWs c = false ∧ c ≠ '!'
  last : ∀ c, a.getLast? = some c → isWs c = false ∧ c ≠ '~' ∧ c ≠ '!'

/-- The filter a=='t, whose quote is not closed if t has none. -/
def opened (a t : Text) : Text := a ++ '=' :: '=' :: '\'' :: t

def forced (a s : Text) : Text := opened a (s ++ ['\''])

variable (env : Env) (v : ApiVersion)

/-- As a value of another kind is read, its string stays empty. -/
structure SelectsString (a s : Text) (item : FilterItem) : Prop where
  name : item.attributeName = storedName env v a
  metadataName : item.metadataName = []
  holds : ∀ (regexec : Text → Text → Bool) (rest : Members) (b : Bson), rest.stringValue = [] →
    (opHolds regexec item (readMembers rest b) = true ↔ b = .str s)

def TakenLiterally (a s : Text) : Prop :=
  ∃ item, parse env v .sftQ (forced a s) = .ok [item] ∧ SelectsString env v a s item

def Refused (q : Text) : Prop := ∃ e, parse env v .sftQ q = .error e

/-- What valueGet takes for a string, apart from forbidden characters. -/
structure PlainString (s : Text) : Prop where
  nonempty : s ≠ []
  number : env.str2double s = none
  date : env.parse8601Time s = none
  word : s ∉ ["true".toList, "false".toList, "null".toList]

/-- What is taken for a range from the empty string. -/
structure OpenRange (t : Text) : Prop where
  dots : hasDouble '.' t = true
  before : (splitAtDouble '.' t).1.all isWs = true
  after : PlainString env (wsStrip (splitAtDouble '.' t).2)

variable {s t : Text}

theorem rdropWhile_append {p : Char → Bool} (h : t.rdropWhile p ≠ []) :
    (s ++ t).rdropWhile p = s ++ t.rdropWhile p := by
  unfold List.rdropWhile at *
  rw [List.reverse_append, List.dropWhile_append, if_neg, List.reverse_append, List.reverse_reverse]
  intro hempty
  rw [List.isEmpty_iff] at hempty
  exact h (by rw [hempty]; rfl)

variable {c : Char} {blanks : Text} {items : List FilterItem}

theorem wsStrip_of_head (hc : isWs c = false) : wsStrip (c :: t) = c :: t.rdropWhile isWs := by
  have hlast : (c :: t).rdropWhile isWs = c :: t.rdropWhile isWs := by
    by_cases ht : t.rdropWhile isWs = []
    · rw [ht]
      unfold List.rdropWhile at *
      rw [reverse_eq_nil_iff] at ht
      rw [reverse_cons, dropWhile_append, ht]
      simp [hc]
    · exact rdropWhile_append (s := [c]) ht
  rw [wsStrip, dropWhile_cons_of_neg (by simp [hc]), hlast]

theorem rdropWhile_blanks (t : Text) : ∃ blanks, t = t.rdropWhile isWs ++ blanks ∧
    blanks.all isWs = true := by
  induction t using List.reverseRecOn with
  | nil => exact ⟨[], rfl, rfl⟩
  | append_singleton t c ih =>
    by_cases hc : isWs c = true
    · obtain ⟨blanks, ht, hblanks⟩ := ih
      refine ⟨blanks ++ [c], ?_, ?_⟩
      · rw [rdropWhile_concat_pos _ _ _ hc, ← append_assoc, ← ht]
      · rw [all_append, hblanks]
        simpa using hc
    · exact ⟨[], by rw [rdropWhile_concat_neg _ _ _ hc, append_nil], rfl⟩

theorem rdropWhile_append_blanks (h : blanks.all isWs = true) :
    (t ++ blanks).rdropWhile isWs = t.rdropWhile isWs := by
  unfold List.rdropWhile
  rw [reverse_append, dropWhile_append_of_pos]
  intro c hc
  exact all_eq_true.mp h c (mem_reverse.mp hc)

theorem wsStrip_append_blanks (h : blanks.all isWs = true) : wsStrip (t ++ blanks) = wsStrip t := by
  rw [wsStrip, wsStrip, dropWhile_append]
  split
  · rename_i hempty
    rw [List.isEmpty_iff] at hempty
    rw [hempty, List.dropWhile_eq_nil_iff.mpr (List.all_eq_true.mp h)]
  · exact rdropWhile_append_blanks h

theorem rdropWhile_eq_nil : t.rdropWhile isWs = [] ↔ t.all isWs = true := by
  rw [rdropWhile_eq_nil_iff, all_eq_true]

variable {env : Env} {v : ApiVersion} {a rhs : Text}

theorem opSearch_equals {name : Text}
    (hchars : ∀ c ∈ name, c ≠ '\'' ∧ (c ≠ '=' ∧ c ≠ '<' ∧ c ≠ '>') ∧ (c = ':' → v = .ngsiLd))
    (hlast : ∀ c, name.getLast? = some c → c ≠ '~' ∧ c ≠ '!') :
    opSearch (opAt v) false (name ++ '=' :: '=' :: rhs) =
      some (.sfopEquals, name, rhs) := by
  have hfree : OperatorFree name := fun c hc => ⟨(hchars c hc).1, (hchars c hc).2.1⟩
  rw [opSearch_append]
  · cases v <;> simp [opSearch, opAt, StringFilter.opAt]
  · intro c cs hsuffix
    obtain ⟨hquote, hnone⟩ : c ≠ '\'' ∧
        StringFilter.opAt (c :: (cs ++ '=' :: '=' :: rhs)) = none :=
      opAt_suffix hfree (fun _ => hlast) hsuffix
    refine ⟨hquote, ?_⟩
    unfold opAt
    split
    · rename_i heq
      rw [if_pos (.inl ((hchars c (hsuffix.subset mem_cons_self)).2.2 (cons.inj heq).1))]
    · exact hnone

theorem AttributeName.operatorFree (ha : AttributeName v a) : ∀ c ∈ a,
    c ≠ '\'' ∧ (c ≠ '=' ∧ c ≠ '<' ∧ c ≠ '>') ∧ (c = ':' → v = .ngsiLd) := by
  intro c hc
  have hbreaker := ha.chars c hc
  refine ⟨?_, ⟨?_, ?_, ?_⟩, ?_⟩
  · rintro rfl
    exact hbreaker (by decide)
  · rintro rfl
    exact hbreaker (by decide)
  · rintro rfl
    exact hbreaker (by decide)
  · rintro rfl
    exact hbreaker (by decide)
  · rintro rfl
    by_contra hv
    exact ha.colon hv hc

theorem AttributeName.opFind (ha : AttributeName v a) :
    opFind (opAt v) (a ++ '=' :: '=' :: rhs) = (.sfopEquals, a, rhs) := by
  have hsearch : opSearch (opAt v) false (a ++ '=' :: '=' :: rhs) =
      some (.sfopEquals, a, rhs) :=
    opSearch_equals ha.operatorFree fun c hc => (ha.last c hc).2
  obtain ⟨c, cs, rfl⟩ := exists_cons_of_ne_nil ha.nonempty
  have hne : c ≠ '!' := (ha.first c rfl).2
  unfold opFind
  split
  · rename_i heq
    exact absurd (cons.inj heq).1 hne
  · rw [hsearch]
    rfl

theorem AttributeName.lhsParse (ha : AttributeName v a) :
    StringFilterItems.lhsParse .sftQ a = (a, [], []) := by
  have hquote : '\'' ∉ a := fun hc => (ha.operatorFree _ hc).1 rfl
  have hdot : ∀ c ∈ a, decide (c ≠ '.') = true := by
    intro c hc
    refine decide_eq_true ?_
    rintro rfl
    exact ha.chars _ hc (by decide)
  rw [StringFilterItems.lhsParse, unquoted hquote, cutAtDot, takeWhile_eq_self_iff.mpr hdot,
    dropWhile_eq_nil_iff.mpr hdot]
  rfl

theorem AttributeName.eqForDot (ha : AttributeName v a) : KjTree.eqForDot a = a :=
  (map_congr_left fun c hc => if_neg (ha.operatorFree c hc).2.1.1).trans (map_id a)

theorem AttributeName.wsStrip (ha : AttributeName v a) : wsStrip a = a :=
  wsStrip_eq_self (fun c hc => (ha.first c hc).1) fun c hc => (ha.last c hc).1

theorem AttributeName.allowed (ha : AttributeName v a) :
    StringFilter.forbiddenChars a "'" = false := by
  rw [StringFilter.forbiddenChars, any_eq_false]
  intro c hc hbad
  have hcommon : commonForbidden c = true := (Bool.and_eq_true_iff.mp hbad).2
  refine ha.chars c hc ?_
  simp only [commonForbidden, contains_iff_mem] at hcommon
  simp only [nameBreakers]
  revert hcommon
  simp
  tauto

theorem wsStrip_quoted (u : Text) : wsStrip ('\'' :: u) = '\'' :: u.rdropWhile isWs :=
  wsStrip_of_head (by decide)

theorem opened_rdropWhile (a t : Text) :
    (opened a t).rdropWhile isWs = opened a (t.rdropWhile isWs) := by
  have hquoted : ('\'' :: t).rdropWhile isWs = '\'' :: t.rdropWhile isWs := by
    have hstrip := wsStrip_quoted t
    rwa [wsStrip, dropWhile_cons_of_neg (by decide)] at hstrip
  have hsplit : ∀ t, opened a t = (a ++ ['=', '=']) ++ '\'' :: t := by
    intro t
    rw [opened, append_assoc]
    rfl
  rw [hsplit, hsplit, rdropWhile_append (by rw [hquoted]; exact cons_ne_nil _ _), hquoted]

theorem item_parse (ha : AttributeName v a) (t : Text) :
    FilterItem.parse env v .sftQ ((opened a t).rdropWhile isWs) =
      (rhsParse env .sfopEquals ('\'' :: t.rdropWhile isWs)).map fun value =>
        ⟨a, storedName env v a, [], [], .sfopEquals, value⟩ := by
  have hidem : (t.rdropWhile isWs).rdropWhile isWs = t.rdropWhile isWs := rdropWhile_idempotent _ _
  rw [opened_rdropWhile]
  obtain ⟨c, cs, rfl⟩ := exists_cons_of_ne_nil ha.nonempty
  have hstrip : wsStrip (opened (c :: cs) (t.rdropWhile isWs)) =
      opened (c :: cs) (t.rdropWhile isWs) := by
    have hlast := opened_rdropWhile (c :: cs) (t.rdropWhile isWs)
    rw [hidem] at hlast
    rw [wsStrip, opened, cons_append, dropWhile_cons_of_neg]
    · exact hlast
    · rw [(ha.first c rfl).1]
      exact Bool.false_ne_true
  have hne : opened (c :: cs) (t.rdropWhile isWs) ≠ [] := cons_ne_nil _ _
  have hlhs : ¬ ((c :: cs = []) ∧ !StringFilterOp.sfopEquals.isUnary) := fun h =>
    cons_ne_nil _ _ h.1
  have hrhs : wsStrip ('\'' :: t.rdropWhile isWs) = '\'' :: t.rdropWhile isWs := by
    rw [wsStrip_quoted, hidem]
  unfold FilterItem.parse
  rw [hstrip, if_neg hne, opened, ha.opFind]
  dsimp only
  have hallowed : ¬ forbiddenChars (c :: cs) "'" = true := by
    rw [ha.allowed]
    exact Bool.false_ne_true
  rw [ha.wsStrip, hrhs, if_neg hlhs, ha.eqForDot, if_neg hallowed, if_neg (cons_ne_nil _ _),
    ha.lhsParse]
  cases rhsParse env .sfopEquals ('\'' :: t.rdropWhile isWs) with
  | error e => rfl
  | ok value => rfl

theorem opened_notSemicolon (ha : AttributeName v a) (ht : ';' ∉ t) : ';' ∉ opened a t := by
  intro h
  rcases mem_append.mp h with h | h
  · exact ha.chars _ h (by decide)
  simp only [mem_cons, ht, or_false] at h
  revert h
  decide

theorem parse_single (ha : AttributeName v a) (ht : ';' ∉ t) :
    parse env v .sftQ (opened a t) =
      (FilterItem.parse env v .sftQ ((opened a t).rdropWhile isWs)).map fun item => [item] := by
  have hsemicolon := opened_notSemicolon ha ht
  obtain ⟨c, cs, rfl⟩ := exists_cons_of_ne_nil ha.nonempty
  have hfirst : isWs c = false := (ha.first c rfl).1
  have hwhole : withoutLastSemicolon (opened (c :: cs) t) = opened (c :: cs) t := by
    refine if_neg fun hlast => hsemicolon (mem_of_mem_getLast? hlast)
  have hstripped : wsStrip (opened (c :: cs) t) =
      (opened (c :: cs) t).rdropWhile isWs := by
    rw [wsStrip, opened, cons_append, dropWhile_cons_of_neg (by simp [hfirst])]
  have hkept : (opened (c :: cs) t).rdropWhile isWs ≠ [] := by
    rw [opened_rdropWhile]
    exact cons_ne_nil _ _
  have hinPlace : strippedInPlace (opened (c :: cs) t) = (opened (c :: cs) t).rdropWhile isWs := by
    rw [strippedInPlace, hstripped, if_neg hkept]
  have hsub : ';' ∉ (opened (c :: cs) t).rdropWhile isWs := fun h =>
    hsemicolon ((List.rdropWhile_prefix _ _).subset h)
  have htokens : strtok ';' ((opened (c :: cs) t).rdropWhile isWs) =
      [(opened (c :: cs) t).rdropWhile isWs] := by
    rw [strtok, List.splitOn, splitOnP_eq_singleton]
    · exact filter_eq_self.mpr fun l hl => decide_eq_true (mem_singleton.mp hl ▸ hkept)
    · intro d hd
      rw [beq_eq_false_iff_ne]
      rintro rfl
      exact hsub hd
  have hidem : wsStrip ((opened (c :: cs) t).rdropWhile isWs) =
      (opened (c :: cs) t).rdropWhile isWs := by
    have hagain := opened_rdropWhile (c :: cs) (t.rdropWhile isWs)
    rw [rdropWhile_idempotent] at hagain
    rw [opened_rdropWhile, wsStrip, opened, cons_append,
      dropWhile_cons_of_neg (by simp [hfirst])]
    exact hagain
  have hempty : ¬ (opened (c :: cs) t = [] ∨ opened (c :: cs) t = [';']) := by
    rintro (h | h)
    · exact cons_ne_nil _ _ h
    · exact hsemicolon (h ▸ mem_cons_self)
  have hdouble : ¬ hasDouble ';' (opened (c :: cs) t) = true := by
    rw [hasDouble_of_notMem hsemicolon]
    exact Bool.false_ne_true
  have hend : ¬ (wsStrip (opened (c :: cs) t)).getLast? = some ';' := fun h =>
    hsub (hstripped ▸ mem_of_mem_getLast? h)
  unfold parse
  rw [if_neg hempty, if_neg hdouble, hwhole]
  rw [if_neg hend, hinPlace, htokens, parseItems, hidem, if_neg hkept]
  cases FilterItem.parse env v .sftQ ((opened (c :: cs) t).rdropWhile isWs) with
  | error e => rfl
  | ok item => rfl

theorem parseItems_length {tokens : List Text} (h : parseItems env v .sftQ tokens = .ok items) :
    items.length = tokens.length := by
  induction tokens generalizing items with
  | nil =>
    rw [← Except.ok.inj h]
    rfl
  | cons token tokens ih =>
    rw [parseItems] at h
    split at h
    · cases h
    obtain ⟨item, -, h⟩ := bind_ok h
    obtain ⟨items', hitems', h⟩ := bind_ok h
    rw [← Except.ok.inj h, length_cons, length_cons, ih hitems']

theorem parse_tokens {q : Text} (hlast : q.getLast? = some '\'')
    (h : parse env v .sftQ q = .ok items) : items.length = (strtok ';' q).length := by
  have hwhole : withoutLastSemicolon q = q := by
    refine if_neg ?_
    rw [hlast]
    decide
  have hinPlace : strippedInPlace q = q := by
    obtain ⟨before, rfl⟩ := List.getLast?_eq_some_iff.mp hlast
    unfold strippedInPlace
    split
    · rfl
    · exact rdropWhile_concat_neg _ _ _ (by decide)
  unfold parse at h
  rw [hwhole] at h
  dsimp only at h
  split at h
  · cases h
  split at h
  · cases h
  split at h
  · cases h
  obtain ⟨items', hitems', h⟩ := bind_ok h
  rw [hinPlace] at hitems'
  rw [← Except.ok.inj h, parseItems_length hitems']

theorem forced_getLast? (a s : Text) : (forced a s).getLast? = some '\'' := by
  have hconcat : forced a s = (a ++ '=' :: '=' :: '\'' :: s) ++ ['\''] := by
    simp [forced, opened]
  rw [hconcat, List.getLast?_concat]

theorem forced_semicolon (ha : AttributeName v a) (hs : ';' ∈ s) {item : FilterItem} :
    parse env v .sftQ (forced a s) ≠ .ok [item] := by
  intro h
  have hlength := parse_tokens (forced_getLast? a s) h
  obtain ⟨s₁, s₂, rfl, hs₁⟩ := eq_append_cons_of_mem hs
  have hcut : forced a (s₁ ++ ';' :: s₂) = opened a s₁ ++ ';' :: (s₂ ++ ['\'']) := by
    simp [forced, opened]
  have hfirst : ∀ c ∈ opened a s₁, (c == ';') = false := by
    intro c hc
    rw [beq_eq_false_iff_ne]
    rintro rfl
    exact opened_notSemicolon ha hs₁ hc
  have htokens : strtok ';' (forced a (s₁ ++ ';' :: s₂)) =
      opened a s₁ :: strtok ';' (s₂ ++ ['\'']) := by
    rw [hcut, strtok, List.splitOn,
      splitOnP_append_cons_of_forall_mem hfirst ';' (beq_self_eq_true _)]
    have hne : opened a s₁ ≠ [] := append_ne_nil_of_right_ne_nil _ (cons_ne_nil _ _)
    exact filter_cons_of_pos (decide_eq_true hne)
  have hquote : '\'' ∈ s₂ ++ ['\''] := mem_append_right _ (mem_singleton.mpr rfl)
  have hrest : strtok ';' (s₂ ++ ['\'']) ≠ [] := SubscriptionQ.strtok_ne_nil hquote (by decide)
  rw [htokens, length_singleton, length_cons] at hlength
  exact hrest (length_eq_zero_iff.mp (by omega))

theorem splitAtDouble_quote (w : Text) : splitAtDouble '.' ('\'' :: w) =
    ('\'' :: (splitAtDouble '.' w).1, (splitAtDouble '.' w).2) := by
  cases w with
  | nil => rfl
  | cons c cs =>
    rfl

theorem hasDouble_quote (w : Text) : hasDouble '.' ('\'' :: w) = hasDouble '.' w := by
  cases w with
  | nil => rfl
  | cons c cs => rfl

theorem hasDouble_append_dotless (ht : '.' ∉ t) : hasDouble '.' (s ++ t) = hasDouble '.' s := by
  induction s with
  | nil => exact hasDouble_of_notMem ht
  | cons a s ih =>
    cases s with
    | nil =>
      cases t with
      | nil => rfl
      | cons c cs =>
        have hne : (c == '.') = false := beq_eq_false_iff_ne.mpr fun h => ht (h ▸ mem_cons_self)
        rw [singleton_append, hasDouble, hne, Bool.and_false, Bool.false_or, hasDouble_of_notMem ht]
        rfl
    | cons b cs =>
      rw [cons_append, cons_append, hasDouble, hasDouble, ← cons_append, ih]

theorem splitAtDouble_append (h : hasDouble '.' s = true) : splitAtDouble '.' (s ++ t) =
    ((splitAtDouble '.' s).1, (splitAtDouble '.' s).2 ++ t) := by
  induction s with
  | nil => cases h
  | cons a s ih =>
    cases s with
    | nil => cases h
    | cons b cs =>
      rw [cons_append, cons_append, splitAtDouble, splitAtDouble]
      by_cases hdots : (a == '.' && b == '.') = true
      · rw [if_pos hdots, if_pos hdots]
      · rw [hasDouble, Bool.eq_false_of_not_eq_true hdots, Bool.false_or] at h
        rw [if_neg hdots, if_neg hdots, ← cons_append, ih h]

theorem splitAtDouble_before (h : c ∈ (splitAtDouble '.' s).1) : c ∈ s := by
  induction s with
  | nil => cases h
  | cons a s ih =>
    cases s with
    | nil => exact h
    | cons b cs =>
      rw [splitAtDouble] at h
      split at h
      · cases h
      rcases mem_cons.mp h with rfl | h
      · exact mem_cons_self
      · exact mem_cons_of_mem _ (ih h)

theorem splitAtDouble_after (h : c ∈ (splitAtDouble '.' s).2) : c ∈ s := by
  induction s with
  | nil => cases h
  | cons a s ih =>
    cases s with
    | nil => cases h
    | cons b cs =>
      rw [splitAtDouble] at h
      split at h
      · exact mem_cons_of_mem _ (mem_cons_of_mem _ h)
      · exact mem_cons_of_mem _ (ih h)

theorem valueGet_quote (op : StringFilterOp) (s : Text) : valueGet env op ('\'' :: s) =
    if s ≠ [] ∧ s.getLast? ≠ some '\'' then .error "non-terminated forced string"
    else if '\'' ∈ s.dropLast then .error "quote in forced string"
    else if op ≠ .sfopMatchPattern ∧ forbiddenChars s.dropLast "=" then
      .error "forbidden characters in String Filter"
    else .ok (.string s.dropLast) := by
  simp only [valueGet]

theorem valueGet_open {op : StringFilterOp} (hs : '\'' ∉ s) : valueGet env op ('\'' :: s) =
    if s = [] then .ok (.string []) else .error "non-terminated forced string" := by
  rw [valueGet_quote]
  by_cases hnil : s = []
  · have hopen : ¬ (s ≠ [] ∧ s.getLast? ≠ some '\'') := fun h => h.1 hnil
    rw [if_pos hnil, if_neg hopen, hnil, dropLast_nil, if_neg not_mem_nil, if_neg]
    exact fun h => Bool.false_ne_true h.2
  · rw [if_neg hnil, if_pos]
    exact ⟨hnil, fun hlast => hs (mem_of_mem_getLast? hlast)⟩

theorem valueGet_forced {op : StringFilterOp} (hs : '\'' ∉ s)
    (hallowed : forbiddenChars s "=" = false) :
    valueGet env op ('\'' :: (s ++ ['\''])) = .ok (.string s) := by
  have hclosed : ¬ (s ++ ['\''] ≠ [] ∧ (s ++ ['\'']).getLast? ≠ some '\'') := by
    rw [List.getLast?_concat]
    exact fun h => h.2 rfl
  rw [valueGet_quote, if_neg hclosed, dropLast_concat, if_neg hs, hallowed]
  exact if_neg fun h => Bool.false_ne_true h.2

theorem rangeParse_quote {before after : Text} (h : splitAtDouble '.' s = (before, after))
    (hbefore : '\'' ∉ before) {x : FilterValue} :
    rangeParse env .sfopEquals ('\'' :: s) = .ok x ↔ before.all isWs = true ∧ wsStrip after ≠ [] ∧
      ∃ y, valueGet env .sfopEquals (wsStrip after) = .ok (.string y) ∧ x = .stringRange [] y := by
  have hop : ¬ (StringFilterOp.sfopEquals ≠ .sfopEquals ∧
      StringFilterOp.sfopEquals ≠ .sfopDiffers) := fun h => h.1 rfl
  have hclean : '\'' ∉ before.rdropWhile isWs := fun hmem =>
    hbefore ((List.rdropWhile_prefix _ _).subset hmem)
  have hnotEmpty : ('\'' :: before.rdropWhile isWs = [] ∨ wsStrip after = []) ↔
      wsStrip after = [] := or_iff_right (cons_ne_nil _ _)
  rw [rangeParse, if_neg hop, splitAtDouble_quote, h]
  dsimp only
  rw [wsStrip_quoted, valueGet_open hclean]
  simp only [hnotEmpty]
  split
  · next hafter =>
    exact iff_of_false nofun fun hx => hx.2.1 hafter
  rename_i hafter
  by_cases hblank : before.rdropWhile isWs = []
  · rw [if_pos hblank, ok_bind]
    rw [rdropWhile_eq_nil] at hblank
    have hstring : isOrderable (.string []) = true := rfl
    simp only [hstring, Bool.not_true, Bool.false_eq_true, if_false, hblank, true_and]
    cases hto : valueGet env .sfopEquals (wsStrip after) with
    | error e => exact iff_of_false nofun (by rintro ⟨-, y, hy, -⟩; cases hy)
    | ok upper =>
      cases upper with
      | string y =>
        constructor
        · intro hx
          exact ⟨hafter, y, rfl, (Except.ok.inj hx).symm⟩
        · rintro ⟨-, z, hz, rfl⟩
          obtain rfl := FilterValue.string.inj (Except.ok.inj hz)
          rfl
      | _ =>
        refine iff_of_false ?_ ?_
        · intro hx
          cases hx
        · rintro ⟨-, y, hy, -⟩
          cases hy
  · rw [if_neg hblank]
    refine iff_of_false nofun fun hx => hblank (rdropWhile_eq_nil.mpr hx.1)

theorem rhsParse_range (h : hasDouble '.' rhs = true) :
    rhsParse env .sfopEquals rhs = (rangeParse env .sfopEquals rhs).map some := by
  have hunary : ¬ StringFilterOp.sfopEquals.isUnary = true := Bool.false_ne_true
  have hpattern : StringFilterOp.sfopEquals ≠ .sfopMatchPattern := by decide
  rw [rhsParse, if_neg hunary, if_neg hpattern, if_pos h]

/-- Inside of a string nothing is cut before the next quote. -/
theorem listPieces_string (piece rest : Text) (hs : '\'' ∉ s) :
    listPieces true piece (s ++ rest) = listPieces true (s.reverse ++ piece) rest := by
  induction s generalizing piece with
  | nil => rfl
  | cons c cs ih =>
    rw [mem_cons, not_or] at hs
    have hquote : (c == '\'') = false := beq_eq_false_iff_ne.mpr (Ne.symm hs.1)
    rw [cons_append, listPieces, hquote]
    simp only [Bool.false_eq_true, if_false, Bool.not_true, Bool.and_false]
    rw [ih _ hs.2, reverse_cons, append_assoc]
    rfl

theorem rhsParse_piece (hdots : hasDouble '.' rhs = false)
    (hpiece : listPieces false [] rhs = [rhs]) (hstrip : wsStrip rhs = rhs) (hne : rhs ≠ []) :
    rhsParse env .sfopEquals rhs =
      if ',' ∈ rhs then (listItemAdd env .sfopEquals none rhs).map some
      else (valueGet env .sfopEquals rhs).map some := by
  have hunary : ¬ StringFilterOp.sfopEquals.isUnary = true := Bool.false_ne_true
  have hpattern : StringFilterOp.sfopEquals ≠ .sfopMatchPattern := by decide
  have hdots' : ¬ hasDouble '.' rhs = true := by rw [hdots]; exact Bool.false_ne_true
  have hlist : listParse env .sfopEquals rhs = listItemAdd env .sfopEquals none rhs := by
    have hop : ¬ (StringFilterOp.sfopEquals ≠ .sfopEquals ∧
        StringFilterOp.sfopEquals ≠ .sfopDiffers) := fun h => h.1 rfl
    rw [listParse, if_neg hop, hstrip, hpiece]
    dsimp only
    cases listItemAdd env .sfopEquals none rhs <;> rfl
  have hvalue : valueParse env .sfopEquals rhs = valueGet env .sfopEquals rhs := by
    unfold valueParse
    cases valueGet env .sfopEquals rhs <;> rfl
  rw [rhsParse, if_neg hunary, if_neg hpattern, if_neg hdots', hlist, hvalue]

theorem listItemAdd_first (hstrip : wsStrip rhs = rhs) (hne : rhs ≠ []) :
    listItemAdd env .sfopEquals none rhs = valueGet env .sfopEquals rhs >>= fun value =>
      match value with
      | .string x => .ok (.stringList [x])
      | .date x => .ok (.dateList [x])
      | .number x => .ok (.numberList [x])
      | _ => .error "invalid JSON value type in list" := by
  rw [listItemAdd, hstrip, if_neg hne]
  cases valueGet env .sfopEquals rhs with
  | error e => rfl
  | ok value => cases value <;> rfl

/-- What a closed quote gives without two dots in a row. -/
theorem rhsParse_forced (hs : '\'' ∉ s) (hallowed : forbiddenChars s "=" = false)
    (hdots : hasDouble '.' s = false) : rhsParse env .sfopEquals ('\'' :: (s ++ ['\''])) =
      .ok (some (if ',' ∈ s then .stringList [s] else .string s)) := by
  have hdots' : hasDouble '.' ('\'' :: (s ++ ['\''])) = false := by
    rw [hasDouble_quote, hasDouble_append_dotless (by decide), hdots]
  have hpiece : listPieces false [] ('\'' :: (s ++ ['\''])) = ['\'' :: (s ++ ['\''])] := by
    refine (listPieces_string ['\''] ['\''] hs).trans ?_
    simp [listPieces]
  have hstrip : wsStrip ('\'' :: (s ++ ['\''])) = '\'' :: (s ++ ['\'']) := by
    rw [wsStrip_quoted, rdropWhile_concat_neg _ _ _ (by decide)]
  have hcomma : ',' ∈ '\'' :: (s ++ ['\'']) ↔ ',' ∈ s := by simp
  rw [rhsParse_piece hdots' hpiece hstrip (cons_ne_nil _ _),
    listItemAdd_first hstrip (cons_ne_nil _ _), valueGet_forced hs hallowed]
  simp only [hcomma]
  split_ifs <;> rfl

/-- Without a second quote only a quote that stands alone is read, or a range. -/
theorem rhsParse_open (hs : '\'' ∉ s) (hstrip : s.rdropWhile isWs = s)
    (hdots : hasDouble '.' s = false) : rhsParse env .sfopEquals ('\'' :: s) =
      if s = [] then .ok (some (.string [])) else .error "non-terminated forced string" := by
  have hdots' : hasDouble '.' ('\'' :: s) = false := (hasDouble_quote s).trans hdots
  have hpiece : listPieces false [] ('\'' :: s) = ['\'' :: s] := by
    have hstring := listPieces_string ['\''] [] hs
    rw [append_nil] at hstring
    refine hstring.trans ?_
    simp [listPieces]
  have hstrip' : wsStrip ('\'' :: s) = '\'' :: s := by rw [wsStrip_quoted, hstrip]
  rw [rhsParse_piece hdots' hpiece hstrip' (cons_ne_nil _ _),
    listItemAdd_first hstrip' (cons_ne_nil _ _), valueGet_open hs]
  by_cases hnil : s = []
  · rw [if_pos hnil, if_pos hnil, hnil, if_neg (by decide)]
    rfl
  · rw [if_neg hnil, if_neg hnil]
    split_ifs <;> rfl

def itemOf (env : Env) (v : ApiVersion) (a : Text) (x : FilterValue) : FilterItem :=
  ⟨a, storedName env v a, [], [], .sfopEquals, some x⟩

theorem opHolds_itemOf (regexec : Text → Text → Bool) (x : FilterValue)
    (m : StringFilterMatch.Members) :
    opHolds regexec (itemOf env v a x) m = memberEquals x m := by
  cases h : memberEquals x m <;> simp [opHolds, itemOf, delegated, membersAt, matchEquals, h]

theorem stringValue_read {rest : StringFilterMatch.Members} (hrest : rest.stringValue = [])
    (hs : s ≠ []) (b : Bson) : (readMembers rest b).stringValue = s ↔ b = .str s := by
  cases b with
  | str t =>
    constructor
    · rintro rfl
      rfl
    · exact fun h => Bson.str.inj h
  | _ =>
    refine iff_of_false (fun h => hs ?_) nofun
    rw [← h]
    exact hrest

theorem selects_forced (hs : s ≠ []) : SelectsString env v a s
    (itemOf env v a (if ',' ∈ s then .stringList [s] else .string s)) := by
  refine ⟨rfl, rfl, fun regexec rest b hrest => ?_⟩
  rw [opHolds_itemOf, ← stringValue_read hrest hs b]
  split_ifs
  · simp [memberEquals]
  · simp [memberEquals]

theorem empty_not_selected {item : FilterItem} (hvalue : item = itemOf env v a (.string [])) :
    ¬ SelectsString env v a [] item := by
  intro h
  have hholds := (h.holds (fun _ _ => false) ⟨.number, [], 0, false, none⟩ (.num 0) rfl).mp
  rw [hvalue, opHolds_itemOf] at hholds
  exact absurd (hholds rfl) nofun

theorem range_not_selected {y : Text} (hs : s ≠ []) :
    ¬ SelectsString env v a s (itemOf env v a (.stringRange [] y)) := by
  intro h
  have hholds := (h.holds (fun _ _ => false) ⟨.string, [], 0, false, none⟩ (.str []) rfl).mp
  rw [opHolds_itemOf] at hholds
  refine hs (Bson.str.inj (hholds ?_)).symm
  simp [memberEquals, readMembers]

theorem mem_of_allowed (hs : forbiddenChars s "=;" = false) : '\'' ∉ s := by
  intro hquote
  rw [forbiddenChars, any_eq_false] at hs
  exact hs _ hquote (by decide)

theorem allowed_of_notSemicolon (hs : forbiddenChars s "=;" = false) (hsemicolon : ';' ∉ s) :
    forbiddenChars s "=" = false := by
  rw [forbiddenChars, any_eq_false] at hs ⊢
  intro c hc hbad
  refine hs c hc ?_
  have hne : c ≠ ';' := fun h => hsemicolon (h ▸ hc)
  simpa [hne] using hbad

theorem parse_opened (ha : AttributeName v a) (ht : ';' ∉ t) : parse env v .sftQ (opened a t) =
    (rhsParse env .sfopEquals ('\'' :: t.rdropWhile isWs)).map fun value =>
      [⟨a, storedName env v a, [], [], .sfopEquals, value⟩] := by
  rw [parse_single ha ht, item_parse ha t]
  cases rhsParse env .sfopEquals ('\'' :: t.rdropWhile isWs) <;> rfl

theorem taken_literally_iff (ha : AttributeName v a) (hs : forbiddenChars s "=;" = false) :
    TakenLiterally env v a s ↔ s ≠ [] ∧ ';' ∉ s ∧ hasDouble '.' s = false := by
  have hquote := mem_of_allowed hs
  by_cases hsemicolon : ';' ∈ s
  · refine iff_of_false ?_ fun h => h.2.1 hsemicolon
    rintro ⟨item, hitem, -⟩
    exact forced_semicolon ha hsemicolon hitem
  have hclosed : ';' ∉ s ++ ['\''] := by
    rw [mem_append, mem_singleton, not_or]
    exact ⟨hsemicolon, by decide⟩
  have hparse : parse env v .sftQ (forced a s) =
      (rhsParse env .sfopEquals ('\'' :: (s ++ ['\'']))).map fun value =>
        [⟨a, storedName env v a, [], [], .sfopEquals, value⟩] := by
    rw [forced, parse_opened ha hclosed, rdropWhile_concat_neg _ _ _ (by decide)]
  cases hdots : hasDouble '.' s with
  | true =>
    refine iff_of_false ?_ fun h => Bool.noConfusion h.2.2
    rintro ⟨item, hitem, hselects⟩
    have hdots' : hasDouble '.' ('\'' :: (s ++ ['\''])) = true := by
      rw [hasDouble_quote, hasDouble_append_dotless (by decide), hdots]
    rw [hparse, rhsParse_range hdots'] at hitem
    obtain ⟨value, hvalue, heq⟩ := map_ok hitem
    obtain ⟨x, hx, rfl⟩ := map_ok hvalue
    have hbefore : '\'' ∉ (splitAtDouble '.' s).1 := fun h => hquote (splitAtDouble_before h)
    obtain ⟨-, -, y, -, rfl⟩ := (rangeParse_quote (splitAtDouble_append hdots) hbefore).mp hx
    obtain rfl := (cons.inj heq).1
    refine range_not_selected ?_ hselects
    rintro rfl
    cases hdots
  | false =>
    rw [rhsParse_forced hquote (allowed_of_notSemicolon hs hsemicolon) hdots] at hparse
    constructor
    · rintro ⟨item, hitem, hselects⟩
      refine ⟨?_, hsemicolon, rfl⟩
      rintro rfl
      rw [hparse] at hitem
      obtain rfl := (cons.inj (Except.ok.inj hitem)).1
      exact empty_not_selected rfl hselects
    · rintro ⟨hne, -, -⟩
      exact ⟨_, hparse, selects_forced hne⟩

theorem valueGet_plain (hquote : '\'' ∉ s) (hs : forbiddenChars s "=" = false) :
    (s ≠ [] ∧ ∃ y, valueGet env .sfopEquals s = .ok (.string y)) ↔ PlainString env s := by
  have hfirst : s.head? ≠ some '\'' := fun h => hquote (mem_of_mem_head? h)
  rw [valueGet_unquoted hfirst]
  constructor
  · rintro ⟨hne, y, hy⟩
    split at hy
    · cases hy
    rename_i hnumber
    split at hy
    · cases hy
    rename_i hdate
    split at hy
    · cases hy
    split at hy
    · cases hy
    split at hy
    · cases hy
    rename_i htrue hfalse hnull
    refine ⟨hne, hnumber, hdate, ?_⟩
    simp only [mem_cons, htrue, hfalse, hnull, not_mem_nil, or_false, not_false_eq_true]
  · rintro ⟨hne, hnumber, hdate, hword⟩
    simp only [mem_cons, not_mem_nil, or_false, not_or] at hword
    obtain ⟨htrue, hfalse, hnull⟩ := hword
    refine ⟨hne, s, ?_⟩
    rw [hnumber, hdate]
    simp only [if_neg htrue, if_neg hfalse, if_neg hnull, hs, Bool.false_eq_true, and_false,
      if_false]

theorem forbiddenChars_of_subset {w : Text} (h : ∀ c ∈ w, c ∈ t)
    (ht : forbiddenChars t "=" = false) : forbiddenChars w "=" = false := by
  rw [forbiddenChars, any_eq_false] at ht ⊢
  exact fun c hc => ht c (h c hc)

/-- The range is read from what is left when the last blanks are gone. -/
theorem openRange_iff (u : Text) (hblanks : blanks.all isWs = true) :
    OpenRange env (u ++ blanks) ↔ OpenRange env u := by
  have hdotless : '.' ∉ blanks := fun h => Bool.noConfusion (all_eq_true.mp hblanks _ h)
  have hdots : hasDouble '.' (u ++ blanks) = hasDouble '.' u := hasDouble_append_dotless hdotless
  constructor
  · rintro ⟨hdouble, hbefore, hafter⟩
    rw [hdots] at hdouble
    rw [splitAtDouble_append hdouble] at hbefore hafter
    rw [wsStrip_append_blanks hblanks] at hafter
    exact ⟨hdouble, hbefore, hafter⟩
  · rintro ⟨hdouble, hbefore, hafter⟩
    refine ⟨hdots.trans hdouble, ?_, ?_⟩
    · rw [splitAtDouble_append hdouble]
      exact hbefore
    · rw [splitAtDouble_append hdouble, wsStrip_append_blanks hblanks]
      exact hafter

/-- What stands behind an opening quote is refused, but for nothing and for some ranges. -/
theorem rhsParse_refused {u : Text} (hquote : '\'' ∉ u) (hu : forbiddenChars u "=" = false)
    (hstrip : u.rdropWhile isWs = u) :
    (∃ e, rhsParse env .sfopEquals ('\'' :: u) = .error e) ↔ u ≠ [] ∧ ¬ OpenRange env u := by
  cases hdots : hasDouble '.' u with
  | false =>
    have hnoRange : ¬ OpenRange env u := fun h => Bool.noConfusion (hdots.symm.trans h.dots)
    rw [rhsParse_open hquote hstrip hdots]
    split
    · next hnil =>
      exact iff_of_false nofun fun h => h.1 hnil
    · next hnil =>
      exact iff_of_true ⟨_, rfl⟩ ⟨hnil, hnoRange⟩
  | true =>
    have hne : u ≠ [] := by
      rintro rfl
      cases hdots
    have hbefore : '\'' ∉ (splitAtDouble '.' u).1 := fun h => hquote (splitAtDouble_before h)
    have hsubset : ∀ c ∈ wsStrip (splitAtDouble '.' u).2, c ∈ u := fun c hc => splitAtDouble_after
        ((dropWhile_suffix _).subset ((List.rdropWhile_prefix _ _).subset hc))
    have hplain : _ ↔ PlainString env (wsStrip (splitAtDouble '.' u).2) :=
      valueGet_plain (fun h => hquote (hsubset _ h)) (forbiddenChars_of_subset hsubset hu)
    have hok : (∃ x, rangeParse env .sfopEquals ('\'' :: u) = .ok x) ↔ OpenRange env u := by
      constructor
      · rintro ⟨x, hx⟩
        obtain ⟨hblank, hafter, y, hy, -⟩ := (rangeParse_quote rfl hbefore).mp hx
        exact ⟨hdots, hblank, hplain.mp ⟨hafter, y, hy⟩⟩
      · rintro ⟨-, hblank, hafter⟩
        obtain ⟨hne', y, hy⟩ := hplain.mpr hafter
        exact ⟨_, (rangeParse_quote rfl hbefore).mpr ⟨hblank, hne', y, hy, rfl⟩⟩
    rw [rhsParse_range ((hasDouble_quote u).trans hdots), ← hok]
    cases rangeParse env .sfopEquals ('\'' :: u) with
    | error e => exact iff_of_true ⟨e, rfl⟩ ⟨hne, nofun⟩
    | ok x => exact iff_of_false nofun fun h => h.2 ⟨x, rfl⟩

theorem refused_iff (ha : AttributeName v a) (ht : forbiddenChars t "=" = false) :
    Refused env v (opened a t) ↔ t.all isWs = false ∧ ¬ OpenRange env t := by
  have hclean : ∀ c ∈ t, c ≠ '\'' ∧ c ≠ ';' := fun c hc => quote_forbidden ht hc
  have hsub : ∀ c ∈ t.rdropWhile isWs, c ∈ t := fun c hc => (List.rdropWhile_prefix _ _).subset hc
  obtain ⟨blanks, hblanks, hall⟩ := rdropWhile_blanks t
  have hrange : OpenRange env t ↔ OpenRange env (t.rdropWhile isWs) := by
    conv_lhs => rw [hblanks]
    exact openRange_iff _ hall
  have hempty : t.rdropWhile isWs ≠ [] ↔ t.all isWs = false := by
    rw [Ne, rdropWhile_eq_nil, Bool.not_eq_true]
  rw [← hempty, hrange, ← rhsParse_refused (fun h => (hclean _ (hsub _ h)).1 rfl)
    (forbiddenChars_of_subset hsub ht) (rdropWhile_idempotent _ _), Refused,
    parse_opened ha fun h => (hclean _ h).2 rfl]
  cases rhsParse env .sfopEquals ('\'' :: t.rdropWhile isWs) with
  | error e => exact iff_of_true ⟨e, rfl⟩ ⟨e, rfl⟩
  | ok value => exact iff_of_false nofun nofun

/-- A forced string is taken literally when it is not empty and has no semicolon and no two dots in
a row. A quote without a second one is refused when it is not alone, and no lower end of a range. -/
theorem forced_strings_iff (env : Env) (ha : AttributeName v a)
    (hs : forbiddenChars s "=;" = false) (ht : forbiddenChars t "=" = false) :
    (TakenLiterally env v a s ↔ s ≠ [] ∧ ';' ∉ s ∧ hasDouble '.' s = false) ∧
      (Refused env v (opened a t) ↔ t.all isWs = false ∧ ¬ OpenRange env t) :=
  ⟨taken_literally_iff ha hs, refused_iff ha ht⟩

section

open SubscriptionQ (sampleEnv)

def color : Text := "color".toList

theorem color_name : AttributeName .ngsiLd color where
  nonempty := by decide
  chars := all_iff_forall_prop.mp rfl
  colon := fun h => absurd rfl h
  first := by
    rintro c ⟨⟩
    decide
  last := by
    rintro c ⟨⟩
    decide

theorem comma_taken_literally : TakenLiterally sampleEnv .ngsiLd color "dark,red".toList ∧
    Refused sampleEnv .ngsiLd (opened color "red".toList) := by
  have hresults := forced_strings_iff sampleEnv color_name (s := "dark,red".toList)
    (t := "red".toList) (by decide) (by decide)
  refine ⟨hresults.1.mpr (by decide), hresults.2.mpr ⟨by decide, fun h => ?_⟩⟩
  exact Bool.noConfusion h.dots

/-- The item color=='dark;red' is cut at the semicolon, and color==' is accepted. -/
theorem semicolon_cuts_string :
    ¬ TakenLiterally sampleEnv .ngsiLd color "dark;red".toList ∧
      ¬ Refused sampleEnv .ngsiLd (opened color []) := by
  constructor
  · rintro ⟨item, hitem, -⟩
    exact forced_semicolon color_name (by decide) hitem
  · rw [refused_iff color_name rfl]
    exact fun h => Bool.noConfusion h.1

end

end ForcedStrings
