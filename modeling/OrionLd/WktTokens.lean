import Mathlib.Algebra.GroupWithZero.Nat
import Mathlib.Data.List.Basic
import Mathlib.Data.Rat.Defs

/-! Tokens of a geometry in well-known text: names, numbers, parentheses and commas, with blanks
between them. -/
namespace WktTokens

open List

inductive Token where
  | name (s : List Char)
  | number (x : ℚ)
  | mark (c : Char)
  deriving DecidableEq

def isMark (c : Char) : Bool := c = '(' || c = ')' || c = ','

variable (numberOf : List Char → Option ℚ)

/-- The token of the characters since the last mark or blank. -/
def flush (word : List Char) : List Token :=
  if word = [] then []
  else match numberOf word with
    | some x => [.number x]
    | none => [.name word]

def tokensFrom (word : List Char) : List Char → List Token
  | [] => flush numberOf word
  | c :: t =>
    if isMark c then flush numberOf word ++ .mark c :: tokensFrom [] t
    else if c = ' ' then flush numberOf word ++ tokensFrom [] t
    else tokensFrom (word ++ [c]) t

def tokens (t : List Char) : List Token := tokensFrom numberOf [] t

variable {numberOf} {word t : List Char}
variable {c : Char}

theorem tokensFrom_mark (word a b : List Char) (hc : isMark c = true) :
    tokensFrom numberOf word (a ++ c :: b) =
      tokensFrom numberOf word a ++ .mark c :: tokens numberOf b := by
  induction a generalizing word with
  | nil =>
    rw [nil_append, tokensFrom, tokensFrom, if_pos hc]
    rfl
  | cons d a ih =>
    rw [cons_append, tokensFrom, tokensFrom]
    split_ifs
    · rw [ih, append_assoc, cons_append]
    · rw [ih, append_assoc]
    · exact ih _

theorem tokensFrom_blank (word a b : List Char) :
    tokensFrom numberOf word (a ++ ' ' :: b) = tokensFrom numberOf word a ++ tokens numberOf b := by
  induction a generalizing word with
  | nil => rfl
  | cons d a ih =>
    rw [cons_append, tokensFrom, tokensFrom]
    split_ifs
    · rw [ih, append_assoc, cons_append]
    · rw [ih, append_assoc]
    · exact ih _

theorem tokens_mark (a b : List Char) (hc : isMark c = true) :
    tokens numberOf (a ++ c :: b) = tokens numberOf a ++ .mark c :: tokens numberOf b :=
  tokensFrom_mark [] a b hc

theorem tokens_blank (a b : List Char) :
    tokens numberOf (a ++ ' ' :: b) = tokens numberOf a ++ tokens numberOf b :=
  tokensFrom_blank [] a b

theorem tokensFrom_word (word : List Char) (h : ∀ c ∈ t, isMark c = false ∧ c ≠ ' ') :
    tokensFrom numberOf word t = flush numberOf (word ++ t) := by
  induction t generalizing word with
  | nil => rw [tokensFrom, append_nil]
  | cons c t ih =>
    obtain ⟨hmark, hblank⟩ := h c mem_cons_self
    rw [tokensFrom, if_neg (by rw [hmark]; exact Bool.false_ne_true), if_neg hblank,
      ih _ fun c' hc' => h c' (mem_cons_of_mem c hc'), append_assoc]
    rfl

theorem flush_number {x : ℚ} (hne : word ≠ []) (h : numberOf word = some x) :
    flush numberOf word = [.number x] := by
  unfold flush
  rw [if_neg hne, h]

theorem mark_not_mem_flush (word : List Char) (c : Char) : Token.mark c ∉ flush numberOf word := by
  unfold flush
  split_ifs
  · exact not_mem_nil
  · cases numberOf word <;> simp

theorem mark_not_mem_tokensFrom (word : List Char) (h : ∀ c ∈ t, isMark c = false) (c : Char) :
    Token.mark c ∉ tokensFrom numberOf word t := by
  induction t generalizing word with
  | nil => exact mark_not_mem_flush word c
  | cons d t ih =>
    have hd := h d mem_cons_self
    have hrest := fun word => ih word fun c' hc' => h c' (mem_cons_of_mem d hc')
    rw [tokensFrom, if_neg (by rw [hd]; exact Bool.false_ne_true)]
    split_ifs
    · rw [mem_append, not_or]
      exact ⟨mark_not_mem_flush word c, hrest []⟩
    · exact hrest _

variable {items items' : List (List Token)} {x : Token}

def commas (items : List (List Token)) : List Token := [Token.mark ','].intercalate items

def parens (l : List Token) : List Token := .mark '(' :: (l ++ [.mark ')'])

theorem commas_cons (l : List Token) (items : List (List Token)) :
    commas (l :: items) = l ++ items.flatMap fun l' => .mark ',' :: l' := by
  induction items generalizing l with
  | nil => simp [commas, List.intercalate]
  | cons l' items ih =>
    have hstep : commas (l :: l' :: items) = l ++ .mark ',' :: commas (l' :: items) := by
      simp [commas, List.intercalate]
    rw [hstep, ih, flatMap_cons]
    rfl

theorem commas_injective (h : ∀ l ∈ items, Token.mark ',' ∉ l)
    (h' : ∀ l ∈ items', Token.mark ',' ∉ l) (hne : items ≠ []) (hne' : items' ≠ [])
    (heq : commas items = commas items') : items = items' := by
  rw [← splitOn_intercalate (.mark ',') h hne, ← splitOn_intercalate (.mark ',') h' hne']
  exact congrArg (List.splitOn (.mark ',')) heq

theorem cut_unique {a b r r' : List Token} (ha : x ∉ a) (hb : x ∉ b)
    (h : a ++ x :: r = b ++ x :: r') : a = b ∧ r = r' := by
  induction a generalizing b with
  | nil =>
    cases b with
    | nil => exact ⟨rfl, (cons.inj h).2⟩
    | cons y b =>
      rw [mem_cons, not_or] at hb
      exact absurd (cons.inj h).1 hb.1
  | cons y a ih =>
    rw [mem_cons, not_or] at ha
    cases b with
    | nil => exact absurd (cons.inj h).1.symm ha.1
    | cons z b =>
      rw [mem_cons, not_or] at hb
      obtain ⟨rfl, hrest⟩ := cons.inj h
      obtain ⟨rfl, hr⟩ := ih ha.2 hb.2 hrest
      exact ⟨rfl, hr⟩

theorem commas_parens_cut {r r' : List Token} (h : ∀ l ∈ items, Token.mark ')' ∉ l)
    (h' : ∀ l ∈ items', Token.mark ')' ∉ l) (hne : items ≠ []) (hne' : items' ≠ [])
    (heq : commas (items.map parens) ++ .mark ')' :: r =
      commas (items'.map parens) ++ .mark ')' :: r') : items = items' ∧ r = r' := by
  have hsplit : ∀ (l s t : List Token),
      parens l ++ s ++ t = .mark '(' :: (l ++ .mark ')' :: (s ++ t)) := by
    intro l s t
    simp [parens]
  induction items generalizing items' with
  | nil => exact absurd rfl hne
  | cons l items ih =>
    obtain ⟨l', items', rfl⟩ := exists_cons_of_ne_nil hne'
    rw [map_cons, map_cons, commas_cons, commas_cons, hsplit, hsplit] at heq
    obtain ⟨rfl, hrest⟩ := cut_unique (h l mem_cons_self) (h' l' mem_cons_self) (cons.inj heq).2
    cases items with
    | nil =>
      cases items' with
      | nil => exact ⟨rfl, (cons.inj hrest).2⟩
      | cons l' items' => exact absurd (cons.inj hrest).1 (by decide)
    | cons l₂ items =>
      cases items' with
      | nil => exact absurd (cons.inj hrest).1 (by decide)
      | cons l₂' items' =>
        have htail : commas ((l₂ :: items).map parens) ++ .mark ')' :: r =
            commas ((l₂' :: items').map parens) ++ .mark ')' :: r' := by
          rw [map_cons, map_cons, commas_cons, commas_cons]
          exact (cons.inj hrest).2
        obtain ⟨hitems, hr⟩ := ih (fun m hm => h m (mem_cons_of_mem _ hm))
          (fun m hm => h' m (mem_cons_of_mem _ hm)) (cons_ne_nil _ _)
          (cons_ne_nil _ _) htail
        exact ⟨by rw [hitems], hr⟩

theorem commas_parens_injective (h : ∀ l ∈ items, Token.mark ')' ∉ l)
    (h' : ∀ l ∈ items', Token.mark ')' ∉ l) (hne : items ≠ []) (hne' : items' ≠ [])
    (heq : commas (items.map parens) = commas (items'.map parens)) : items = items' := by
  have hclosed : commas (items.map parens) ++ [.mark ')'] =
      commas (items'.map parens) ++ [.mark ')'] := congrArg (· ++ [.mark ')']) heq
  exact (commas_parens_cut h h' hne hne' hclosed).1

theorem count_parens (l : List Token) (hc : c = '(' ∨ c = ')') :
    (parens l).count (.mark c) = l.count (.mark c) + 1 := by
  unfold parens
  rcases hc with rfl | rfl <;> simp

theorem count_commas (items : List (List Token)) (hc : c ≠ ',') :
    (commas items).count (.mark c) = (items.map (List.count (.mark c))).sum := by
  cases items with
  | nil => rfl
  | cons l items =>
    rw [commas_cons, count_append, map_cons, sum_cons, count_flatMap]
    refine congrArg (l.count (.mark c) + ·) (congrArg List.sum (map_congr_left fun l' _ => ?_))
    exact count_cons_of_ne (fun h => hc (Token.mark.inj h).symm)

theorem mark_not_mem_commas (hc : c ≠ ',') (h : ∀ l ∈ items, Token.mark c ∉ l) :
    Token.mark c ∉ commas items := by
  rw [← List.count_eq_zero, count_commas items hc, List.sum_eq_zero_iff_forall_eq_nat]
  intro n hn
  obtain ⟨l, hl, rfl⟩ := List.mem_map.mp hn
  exact count_eq_zero.mpr (h l hl)

theorem commas_singleton (l : List Token) : commas [l] = l := by
  simp [commas_cons]

theorem parens_injective {l l' : List Token} (h : parens l = parens l') : l = l' :=
  append_cancel_right (cons.inj h).2

variable {items : List (List Char)}

def commaText (items : List (List Char)) : List Char := [','].intercalate items

theorem commaText_cons (t : List Char) (items : List (List Char)) :
    commaText (t :: items) = t ++ items.flatMap fun t' => ',' :: t' := by
  induction items generalizing t with
  | nil => simp [commaText, List.intercalate]
  | cons t' items ih =>
    have hstep : commaText (t :: t' :: items) = t ++ ',' :: commaText (t' :: items) := by
      simp [commaText, List.intercalate]
    rw [hstep, ih, flatMap_cons]
    rfl

theorem commaText_concat (hne : items ≠ []) (t : List Char) :
    commaText (items ++ [t]) = commaText items ++ ',' :: t := by
  obtain ⟨t₀, items, rfl⟩ := exists_cons_of_ne_nil hne
  rw [cons_append, commaText_cons, commaText_cons, flatMap_append]
  simp

theorem commaText_singleton (t : List Char) : commaText [t] = t := by
  simp [commaText_cons]

theorem commaText_ne_nil (hne : items ≠ []) (h : ∀ t ∈ items, t ≠ []) : commaText items ≠ [] := by
  obtain ⟨t₀, items, rfl⟩ := exists_cons_of_ne_nil hne
  rw [commaText_cons]
  exact append_ne_nil_of_left_ne_nil (h t₀ mem_cons_self) _

theorem length_commaText_append (items items' : List (List Char)) :
    (commaText items).length ≤ (commaText (items ++ items')).length := by
  cases items with
  | nil => exact Nat.zero_le _
  | cons t items =>
    rw [cons_append, commaText_cons, commaText_cons, flatMap_append]
    simp only [length_append]
    omega

/-- The tokens of texts with commas between them, where no text is read beyond its end. -/
theorem tokens_commaText (items : List (List Char)) :
    tokens numberOf (commaText items) = commas (items.map (tokens numberOf)) := by
  cases items with
  | nil => rfl
  | cons t items =>
    rw [commaText_cons, map_cons, commas_cons]
    induction items generalizing t with
    | nil =>
      simp
    | cons t' items ih =>
      rw [flatMap_cons, cons_append, tokens_mark _ _ (by decide), ih, map_cons,
        flatMap_cons]
      rfl

theorem tokens_parens (t : List Char) :
    tokens numberOf ('(' :: (t ++ [')'])) = parens (tokens numberOf t) := by
  have hopen : tokens numberOf ([] ++ '(' :: (t ++ [')'])) =
      .mark '(' :: tokens numberOf (t ++ [')']) := tokens_mark [] _ (by decide)
  rw [nil_append, tokens_mark _ _ (by decide)] at hopen
  exact hopen

end WktTokens
