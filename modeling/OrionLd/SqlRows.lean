import OrionLd.DecimalText

/-! Rows of an SQL VALUES list: how a text is read as one, and which rows of spliced texts are
read as the texts that were spliced. A quote inside a literal is written twice, and all other
characters of a literal stand for themselves. -/
namespace SqlRows

open DecimalText List Option

/-- The values of a row. A call is that of a function on a literal, perhaps with an option. -/
inductive Value where
  | null
  | bool (b : Bool)
  | number (x : ℚ)
  | text (s : List Char)
  | call (f argument : List Char) (option : Option (List Char))
  deriving DecidableEq

def readLiteral : List Char → Option (List Char × List Char)
  | [] => none
  | [c] => if c = '\'' then some ([], []) else none
  | c :: d :: t =>
    if c = '\'' then
      if d = '\'' then (readLiteral t).map fun out => ('\'' :: out.1, out.2)
      else some ([], d :: t)
    else (readLiteral (d :: t)).map fun out => (c :: out.1, out.2)

def skip (t : List Char) : List Char := t.dropWhile Char.isWhitespace

def isWordChar (c : Char) : Bool :=
  !(c = '(' || c = ')' || c = ',' || c = '\'' || c.isWhitespace)

def wordValue (w : List Char) : Option Value :=
  if w = "null".toList then some .null
  else if w = "true".toList then some (.bool true)
  else if w = "false".toList then some (.bool false)
  else (decimalValue w).map .number

def expect (c : Char) (t : List Char) : Option (List Char) :=
  match skip t with
  | [] => none
  | d :: r => if d = c then some r else none

def word (t : List Char) : List Char := (skip t).takeWhile isWordChar

def afterWord (t : List Char) : List Char := (skip t).dropWhile isWordChar

def readOption (t : List Char) : Option (Option (List Char) × List Char) :=
  match expect ')' t with
  | some r => some (none, r)
  | none => do
    let t ← expect ',' t
    let r ← expect ')' (afterWord t)
    some (some (word t), r)

def readCall (f t : List Char) : Option (Value × List Char) := do
  let t ← expect '\'' t
  let (argument, r) ← readLiteral t
  let (option, r) ← readOption r
  some (.call f argument option, r)

/-- A value that is no literal: a call, or a word. -/
def readBare (t : List Char) : Option (Value × List Char) :=
  match expect '(' (afterWord t) with
  | some r => readCall (word t) r
  | none => (wordValue (word t)).map fun v => (v, afterWord t)

def readValue (t : List Char) : Option (Value × List Char) :=
  match expect '\'' t with
  | some t => (readLiteral t).map fun out => (.text out.1, out.2)
  | none => readBare t

/-- Values with commas between them up to the closing parenthesis, n at most. -/
def readValues : ℕ → List Char → Option (List Value × List Char)
  | 0, _ => none
  | n + 1, t => do
    let (v, r) ← readValue t
    match expect ')' r with
    | some r => some ([v], r)
    | none => do
      let r ← expect ',' r
      let (vs, r) ← readValues n r
      some (v :: vs, r)

/-- A row in parentheses, and what follows it. -/
def readRow (t : List Char) : Option (List Value × List Char) := do
  let t ← expect '(' t
  readValues t.length t

variable {s t r d : List Char}

def doubled : List Char → List Char
  | [] => []
  | c :: s => if c = '\'' then '\'' :: '\'' :: doubled s else c :: doubled s

def StartsWith (c : Char) : List Char → Prop
  | [] => False
  | d :: _ => d = c

theorem readLiteral_eq_some (h : readLiteral t = some (s, r)) :
    t = doubled s ++ '\'' :: r ∧ ¬ StartsWith '\'' r := by
  induction t using readLiteral.induct generalizing s with
  | case1 => cases h
  | case2 =>
    cases h
    exact ⟨rfl, fun h => h⟩
  | case3 c hc =>
    rw [readLiteral, if_neg hc] at h
    cases h
  | case4 t ih =>
    obtain ⟨out, hout, heq⟩ := map_eq_some_iff.mp h
    cases heq
    obtain ⟨rfl, hstart⟩ := ih hout
    exact ⟨rfl, hstart⟩
  | case5 e t he =>
    rw [readLiteral, if_pos rfl, if_neg he] at h
    cases h
    exact ⟨rfl, he⟩
  | case6 c e t hc ih =>
    rw [readLiteral, if_neg hc] at h
    obtain ⟨out, hout, heq⟩ := map_eq_some_iff.mp h
    cases heq
    obtain ⟨htext, hstart⟩ := ih hout
    refine ⟨?_, hstart⟩
    rw [doubled, if_neg hc, htext]
    rfl

theorem readLiteral_doubled (s : List Char) (hr : ¬ StartsWith '\'' r) :
    readLiteral (doubled s ++ '\'' :: r) = some (s, r) := by
  induction s with
  | nil =>
    cases r with
    | nil => rfl
    | cons d r =>
      change readLiteral ('\'' :: d :: r) = _
      exact if_neg hr
  | cons c s ih =>
    rw [doubled]
    split_ifs with hc
    · change readLiteral ('\'' :: '\'' :: (doubled s ++ '\'' :: r)) = _
      rw [readLiteral, if_pos rfl, if_pos rfl, ih, hc]
      rfl
    · obtain ⟨d, t, ht⟩ : ∃ d t, doubled s ++ '\'' :: r = d :: t :=
        exists_cons_of_ne_nil (append_ne_nil_of_right_ne_nil _ (cons_ne_nil _ _))
      rw [cons_append, ht, readLiteral, if_neg hc, ← ht, ih]
      rfl

theorem doubled_plain (h : '\'' ∉ s) : doubled s = s := by
  induction s with
  | nil => rfl
  | cons c s ih =>
    rw [mem_cons, not_or] at h
    rw [doubled, if_neg (Ne.symm h.1), ih h.2]

theorem readLiteral_plain (h : '\'' ∉ s) (hr : ¬ StartsWith '\'' r) :
    readLiteral (s ++ '\'' :: r) = some (s, r) := by
  have hread := readLiteral_doubled s hr
  rwa [doubled_plain h] at hread

theorem doubled_split {k : ℕ} (hd : ¬ StartsWith '\'' d)
    (h : List.replicate k '\'' ++ (doubled s ++ '\'' :: r) = s ++ '\'' :: d) :
    k = 0 ∧ '\'' ∉ s ∧ r = d := by
  induction s generalizing k with
  | nil =>
    cases k with
    | zero => exact ⟨rfl, not_mem_nil, (cons.inj h).2⟩
    | succ k =>
      obtain htail := (cons.inj h).2
      refine absurd ?_ hd
      rw [← htail]
      cases k <;> exact rfl
  | cons c s ih =>
    by_cases hc : c = '\''
    · subst hc
      have hmove : List.replicate (k + 1) '\'' ++ (doubled s ++ '\'' :: r) = s ++ '\'' :: d := by
        have htail := congrArg List.tail h
        cases k with
        | zero => exact htail
        | succ k =>
          rw [replicate_succ', replicate_succ', append_assoc, append_assoc]
          exact htail
      exact absurd (ih hmove).1 (Nat.succ_ne_zero k)
    · rw [doubled, if_neg hc] at h
      cases k with
      | zero =>
        obtain ⟨-, hs, hr⟩ := ih (k := 0) (cons.inj h).2
        refine ⟨rfl, ?_, hr⟩
        rw [mem_cons, not_or]
        exact ⟨Ne.symm hc, hs⟩
      | succ k => exact absurd (cons.inj h).1.symm hc

theorem readLiteral_spliced (hd : ¬ StartsWith '\'' d) :
    readLiteral (s ++ '\'' :: d) = some (s, r) ↔ '\'' ∉ s ∧ r = d := by
  constructor
  · intro h
    obtain ⟨htext, -⟩ := readLiteral_eq_some h
    exact (doubled_split (k := 0) hd htext.symm).2
  · rintro ⟨hs, rfl⟩
    exact readLiteral_plain hs hd

variable {c : Char} {v : Value} {vs : List Value}

theorem span_append {p : Char → Bool} (h : t.dropWhile p = c :: r) (x : List Char) :
    (t ++ x).dropWhile p = c :: (r ++ x) ∧ (t ++ x).takeWhile p = t.takeWhile p := by
  induction t with
  | nil => cases h
  | cons d t ih =>
    rw [dropWhile_cons] at h
    rw [cons_append, dropWhile_cons, takeWhile_cons, takeWhile_cons]
    split_ifs at h ⊢ with hd
    · exact ⟨(ih h).1, congrArg (List.cons d) (ih h).2⟩
    · exact ⟨congrArg (· ++ x) h, rfl⟩

theorem skip_append (h : skip t ≠ []) (x : List Char) : skip (t ++ x) = skip t ++ x := by
  obtain ⟨c, r, hskip⟩ := exists_cons_of_ne_nil h
  rw [hskip]
  exact (span_append hskip x).1

theorem skip_ne_nil_of_expect (h : expect c t = some r) : skip t ≠ [] := by
  intro hnil
  unfold expect at h
  rw [hnil] at h
  cases h

theorem expect_append (h : expect c t = some r) (x : List Char) :
    expect c (t ++ x) = some (r ++ x) := by
  unfold expect at h ⊢
  split at h
  · cases h
  rename_i d r' hskip
  have hne : skip t ≠ [] := by
    rw [hskip]
    exact cons_ne_nil d r'
  rw [skip_append hne, hskip]
  split_ifs at h with hd
  cases h
  exact if_pos hd

theorem expect_none_append (h : expect c t = none) (hne : skip t ≠ []) (x : List Char) :
    expect c (t ++ x) = none := by
  obtain ⟨d, r, hskip⟩ := exists_cons_of_ne_nil hne
  unfold expect at h ⊢
  rw [skip_append hne, hskip]
  rw [hskip] at h
  dsimp only at h
  split_ifs at h with hd
  exact if_neg hd

theorem word_append (h : afterWord t ≠ []) (x : List Char) :
    word (t ++ x) = word t ∧ afterWord (t ++ x) = afterWord t ++ x := by
  have hne : skip t ≠ [] := by
    intro hnil
    unfold afterWord at h
    rw [hnil] at h
    exact h rfl
  obtain ⟨d, r, hafter⟩ := exists_cons_of_ne_nil h
  obtain ⟨hdrop, htake⟩ := span_append hafter x
  unfold word
  rw [hafter]
  unfold afterWord
  rw [skip_append hne]
  exact ⟨htake, hdrop⟩

theorem ne_nil_of_skip (h : skip t ≠ []) : t ≠ [] := by
  rintro rfl
  exact h rfl

theorem readLiteral_append (h : readLiteral t = some (s, r)) (hne : r ≠ []) (x : List Char) :
    readLiteral (t ++ x) = some (s, r ++ x) := by
  obtain ⟨rfl, hstart⟩ := readLiteral_eq_some h
  rw [append_assoc]
  refine readLiteral_doubled s ?_
  cases r with
  | nil => exact absurd rfl hne
  | cons d r => exact hstart

theorem readOption_append {o : Option (List Char)} (h : readOption t = some (o, r))
    (x : List Char) : skip t ≠ [] ∧ readOption (t ++ x) = some (o, r ++ x) := by
  unfold readOption at h ⊢
  split at h
  · rename_i r' hclose
    cases h
    refine ⟨skip_ne_nil_of_expect hclose, ?_⟩
    rw [expect_append hclose]
  · rename_i hclose
    obtain ⟨t', ht', h⟩ := bind_eq_some_iff.mp h
    obtain ⟨r', hr', h⟩ := bind_eq_some_iff.mp h
    cases h
    have hne := skip_ne_nil_of_expect ht'
    have hafter := ne_nil_of_skip (skip_ne_nil_of_expect hr')
    refine ⟨hne, ?_⟩
    rw [expect_none_append hclose hne, expect_append ht']
    dsimp only [bind_eq_bind, bind_some]
    rw [(word_append hafter x).1, (word_append hafter x).2, expect_append hr']
    rfl

theorem readCall_append {f : List Char} (h : readCall f t = some (v, r)) (x : List Char) :
    readCall f (t ++ x) = some (v, r ++ x) := by
  unfold readCall at h ⊢
  obtain ⟨t', ht', h⟩ := bind_eq_some_iff.mp h
  obtain ⟨⟨argument, r'⟩, hliteral, h⟩ := bind_eq_some_iff.mp h
  obtain ⟨⟨o, r''⟩, hoption, h⟩ := bind_eq_some_iff.mp h
  cases h
  obtain ⟨hne, hoption'⟩ := readOption_append hoption x
  rw [expect_append ht']
  dsimp only [bind_eq_bind, bind_some]
  rw [readLiteral_append hliteral (ne_nil_of_skip hne)]
  dsimp only [bind_some]
  rw [hoption']
  rfl

theorem readValue_append (h : readValue t = some (v, r)) (hne : skip r ≠ []) (x : List Char) :
    readValue (t ++ x) = some (v, r ++ x) := by
  unfold readValue at h ⊢
  split at h
  · rename_i t' ht'
    obtain ⟨⟨s, r'⟩, hliteral, heq⟩ := map_eq_some_iff.mp h
    cases heq
    rw [expect_append ht']
    dsimp only
    rw [readLiteral_append hliteral (ne_nil_of_skip hne)]
    rfl
  · rename_i hquote
    unfold readBare at h ⊢
    have hskip : afterWord t ≠ [] → expect '\'' (t ++ x) = none := by
      intro hafter
      refine expect_none_append hquote ?_ x
      intro hnil
      unfold afterWord at hafter
      rw [hnil] at hafter
      exact hafter rfl
    split at h
    · rename_i r' hr'
      have hafter := ne_nil_of_skip (skip_ne_nil_of_expect hr')
      rw [hskip hafter]
      rw [(word_append hafter x).1, (word_append hafter x).2, expect_append hr']
      exact readCall_append h x
    · rename_i hopen
      obtain ⟨w, hw, heq⟩ := map_eq_some_iff.mp h
      cases heq
      have hafter := ne_nil_of_skip hne
      rw [hskip hafter]
      rw [(word_append hafter x).1, (word_append hafter x).2, expect_none_append hopen hne, hw]
      rfl

variable {n : ℕ}

theorem readValues_mono {m : ℕ} (h : readValues n t = some (vs, r)) (hle : n ≤ m) :
    readValues m t = some (vs, r) := by
  induction n generalizing m t vs r with
  | zero => cases h
  | succ n ih =>
    obtain ⟨k, rfl⟩ := Nat.exists_eq_add_of_le' hle
    rw [← Nat.add_assoc]
    unfold readValues at h ⊢
    obtain ⟨⟨v, r'⟩, hvalue, h⟩ := bind_eq_some_iff.mp h
    rw [hvalue]
    dsimp only [bind_eq_bind, bind_some] at h ⊢
    split at h
    · exact h
    obtain ⟨r'', hcomma, h⟩ := bind_eq_some_iff.mp h
    obtain ⟨⟨vs', r₃⟩, hrest, h⟩ := bind_eq_some_iff.mp h
    rw [hcomma]
    dsimp only [bind_some]
    rw [ih hrest (by omega)]
    exact h

theorem readValues_append (h : readValues n t = some (vs, r)) (x : List Char) :
    readValues n (t ++ x) = some (vs, r ++ x) := by
  induction n generalizing t vs r with
  | zero => cases h
  | succ n ih =>
    unfold readValues at h ⊢
    obtain ⟨⟨v, r'⟩, hvalue, h⟩ := bind_eq_some_iff.mp h
    dsimp only [bind_eq_bind, bind_some] at h ⊢
    split at h
    · rename_i r'' hclose
      cases h
      rw [readValue_append hvalue (skip_ne_nil_of_expect hclose)]
      dsimp only [bind_some]
      rw [expect_append hclose]
    · rename_i hclose
      obtain ⟨r'', hcomma, h⟩ := bind_eq_some_iff.mp h
      obtain ⟨⟨vs', r₃⟩, hrest, h⟩ := bind_eq_some_iff.mp h
      cases h
      have hne := skip_ne_nil_of_expect hcomma
      rw [readValue_append hvalue hne]
      dsimp only [bind_some]
      rw [expect_none_append hclose hne, expect_append hcomma]
      dsimp only [bind_some]
      rw [ih hrest]
      rfl

theorem readRow_append (h : readRow t = some (vs, r)) (x : List Char) :
    readRow (t ++ x) = some (vs, r ++ x) := by
  unfold readRow at h ⊢
  obtain ⟨t', ht', h⟩ := bind_eq_some_iff.mp h
  rw [expect_append ht']
  refine readValues_mono (readValues_append h x) ?_
  rw [length_append]
  exact Nat.le_add_right _ _

/-- A piece of a row as it is written: a text between quotes, a word, or a call on a text. -/
inductive Cell where
  | quoted (s : List Char)
  | word (w : List Char)
  | call (f argument : List Char) (option : Option (List Char))

def Cell.toText : Cell → List Char
  | .quoted s => '\'' :: (s ++ ['\''])
  | .word w => w
  | .call f argument none => f ++ '(' :: '\'' :: (argument ++ ['\'', ')'])
  | .call f argument (some o) =>
    f ++ '(' :: '\'' :: (argument ++ '\'' :: ',' :: ' ' :: (o ++ [')']))

def cellsText : List Cell → List Char
  | [] => [')']
  | [c] => c.toText ++ [')']
  | c :: d :: cells => c.toText ++ ',' :: ' ' :: cellsText (d :: cells)

def rowText (cells : List Cell) : List Char := '(' :: cellsText cells

/-- Words have no character that ends them, and texts in calls no quote. -/
def Cell.WellFormed : Cell → Prop
  | .quoted _ => True
  | .word w => w ≠ [] ∧ ∀ c ∈ w, isWordChar c = true
  | .call f argument option => (∀ c ∈ f, isWordChar c = true) ∧ '\'' ∉ argument ∧
      ∀ o ∈ option, o ≠ [] ∧ ∀ c ∈ o, isWordChar c = true

def Cell.Reads : Cell → Value → Prop
  | .quoted s, v => '\'' ∉ s ∧ v = .text s
  | .word w, v => wordValue w = some v
  | .call f argument option, v => v = .call f argument option

/-- What was spliced between quotes is due as a text. -/
def Cell.Due : Cell → Value → Prop
  | .quoted s, v => v = .text s
  | .word _, _ => True
  | .call _ _ _, _ => True

def Closes : List Char → Prop
  | [] => False
  | d :: _ => d = ')' ∨ d = ','

variable {c : Cell} {w f x : List Char}

theorem wordChar_iff {c : Char} (h : isWordChar c = true) :
    c ≠ '(' ∧ c ≠ ')' ∧ c ≠ ',' ∧ c ≠ '\'' ∧ c.isWhitespace = false := by
  unfold isWordChar at h
  simpa [and_assoc] using h

theorem skip_wordStart (h : ∀ c ∈ w, isWordChar c = true) (hne : w ≠ []) (t : List Char) :
    skip (w ++ t) = w ++ t := by
  obtain ⟨c, w, rfl⟩ := exists_cons_of_ne_nil hne
  have hc := (wordChar_iff (h c mem_cons_self)).2.2.2.2
  unfold skip
  rw [cons_append, dropWhile_cons_of_neg]
  rw [hc]
  exact Bool.false_ne_true

variable {d : Char} {values : List Value} {cells : List Cell}

theorem span_word (h : ∀ c ∈ w, isWordChar c = true) (hd : isWordChar d = false) (t : List Char) :
    (w ++ d :: t).takeWhile isWordChar = w ∧ (w ++ d :: t).dropWhile isWordChar = d :: t := by
  have hneg : ¬ isWordChar d = true := by
    rw [hd]
    exact Bool.false_ne_true
  constructor
  · rw [takeWhile_append_of_pos h, takeWhile_cons_of_neg hneg, append_nil]
  · rw [dropWhile_append_of_pos h, dropWhile_cons_of_neg hneg]

theorem word_of_start (h : ∀ c ∈ w, isWordChar c = true) (hd : isWordChar d = false)
    (hspace : d.isWhitespace = false) (t : List Char) :
    skip (w ++ d :: t) = w ++ d :: t ∧ word (w ++ d :: t) = w ∧
      afterWord (w ++ d :: t) = d :: t := by
  have hskip : skip (w ++ d :: t) = w ++ d :: t := by
    cases w with
    | nil =>
      refine dropWhile_cons_of_neg ?_
      rw [hspace]
      exact Bool.false_ne_true
    | cons c w => exact skip_wordStart h (cons_ne_nil c w) (d :: t)
  unfold word afterWord
  rw [hskip]
  exact ⟨rfl, span_word h hd t⟩

theorem expect_head (hspace : d.isWhitespace = false) (e : Char) (t : List Char) :
    expect e (d :: t) = if d = e then some t else none := by
  have hskip : skip (d :: t) = d :: t := by
    refine dropWhile_cons_of_neg ?_
    rw [hspace]
    exact Bool.false_ne_true
  unfold expect
  rw [hskip]

theorem expect_wordStart (h : ∀ c ∈ w, isWordChar c = true) {e : Char} (hd : isWordChar d = false)
    (hspace : d.isWhitespace = false) (he : isWordChar e = false) (hde : d ≠ e) (t : List Char) :
    expect e (w ++ d :: t) = none := by
  unfold expect
  rw [(word_of_start h hd hspace t).1]
  cases w with
  | nil => exact if_neg hde
  | cons c w =>
    refine if_neg ?_
    rintro rfl
    rw [h c mem_cons_self] at he
    cases he

theorem wordValue_number {q : ℚ} (h : decimalValue w = some q) :
    wordValue w = some (.number q) := by
  have hne : ∀ name : List Char, decimalValue name = none → w ≠ name := by
    rintro name hname rfl
    rw [hname] at h
    cases h
  unfold wordValue
  rw [if_neg (hne _ (by decide)), if_neg (hne _ (by decide)), if_neg (hne _ (by decide)), h]
  rfl

theorem readValue_word (h : w ≠ [] ∧ ∀ c ∈ w, isWordChar c = true) (hf : Closes f) :
    readValue (w ++ f) = (wordValue w).map fun v => (v, f) := by
  cases f with
  | nil => exact hf.elim
  | cons d f =>
    have hd : isWordChar d = false ∧ d.isWhitespace = false ∧ d ≠ '\'' ∧ d ≠ '(' := by
      rcases hf with rfl | rfl <;> decide
    have hquote := expect_wordStart h.2 hd.1 hd.2.1 (e := '\'') (by decide) hd.2.2.1 f
    obtain ⟨-, hword, hafter⟩ := word_of_start h.2 hd.1 hd.2.1 f
    unfold readValue readBare
    rw [hquote, hword, hafter, expect_head hd.2.1, if_neg hd.2.2.2]

theorem readOption_none (f : List Char) : readOption (')' :: f) = some (none, f) := rfl

theorem readOption_some {o : List Char} (ho : o ≠ [] ∧ ∀ c ∈ o, isWordChar c = true)
    (f : List Char) : readOption (',' :: ' ' :: (o ++ ')' :: f)) = some (some o, f) := by
  have hspace : word (' ' :: (o ++ ')' :: f)) = o ∧ afterWord (' ' :: (o ++ ')' :: f)) = ')' :: f :=
    (word_of_start ho.2 (d := ')') (by decide) (by decide) f).2
  unfold readOption
  rw [expect_head (by decide), if_neg (by decide), expect_head (by decide), if_pos rfl]
  dsimp only [bind_eq_bind, bind_some]
  rw [hspace.1, hspace.2, expect_head (by decide), if_pos rfl]
  rfl

theorem readValue_call {g argument : List Char} {option : Option (List Char)}
    (h : (Cell.call g argument option).WellFormed) (f : List Char) :
    readValue ((Cell.call g argument option).toText ++ f) = some (.call g argument option, f) := by
  obtain ⟨hg, hargument, hoption⟩ := h
  have hcall : ∀ end_ : List Char, ¬ StartsWith '\'' end_ → readOption end_ = some (option, f) →
        readValue (g ++ '(' :: '\'' :: (argument ++ '\'' :: end_)) =
          some (.call g argument option, f) := by
    intro end_ hstart hend
    obtain ⟨-, hword, hafter⟩ := word_of_start hg (d := '(') (by decide) (by decide)
      ('\'' :: (argument ++ '\'' :: end_))
    unfold readValue readBare readCall
    rw [expect_wordStart hg (d := '(') (by decide) (by decide) (by decide) (by decide), hword,
      hafter, expect_head (by decide), if_pos rfl]
    dsimp only
    rw [expect_head (by decide), if_pos rfl]
    dsimp only [bind_eq_bind, bind_some]
    rw [readLiteral_plain hargument hstart]
    dsimp only [bind_some]
    rw [hend]
    rfl
  cases option with
  | none =>
    have htext : (Cell.call g argument none).toText ++ f =
        g ++ '(' :: '\'' :: (argument ++ '\'' :: ')' :: f) := by
      simp [Cell.toText]
    rw [htext]
    exact hcall (')' :: f) (by simp [StartsWith]) (readOption_none f)
  | some o =>
    have htext : (Cell.call g argument (some o)).toText ++ f =
        g ++ '(' :: '\'' :: (argument ++ '\'' :: ',' :: ' ' :: (o ++ ')' :: f)) := by
      simp [Cell.toText]
    rw [htext]
    exact hcall _ (by simp [StartsWith]) (readOption_some (hoption o rfl) f)

theorem readValue_cell (hc : c.WellFormed) (hdue : c.Due v) (hf : Closes f) :
    readValue (c.toText ++ f) = some (v, r) ↔ c.Reads v ∧ r = f := by
  cases c with
  | quoted s =>
    obtain rfl := hdue
    have hstart : ¬ StartsWith '\'' f := by
      cases f with
      | nil => exact fun h => h
      | cons d f =>
        rintro rfl
        rcases hf with hd | hd <;> exact absurd hd (by decide)
    have hread : readValue ((Cell.quoted s).toText ++ f) =
        (readLiteral (s ++ '\'' :: f)).map fun out => (.text out.1, out.2) := by
      have htext : (Cell.quoted s).toText ++ f = '\'' :: (s ++ '\'' :: f) := by
        simp [Cell.toText]
      unfold readValue
      rw [htext, expect_head (by decide), if_pos rfl]
    rw [hread, map_eq_some_iff]
    constructor
    · rintro ⟨⟨s', r'⟩, hliteral, heq⟩
      obtain ⟨htext, rfl⟩ := Prod.mk.inj heq
      obtain rfl := Value.text.inj htext
      obtain ⟨hs, rfl⟩ := (readLiteral_spliced hstart).mp hliteral
      exact ⟨⟨hs, rfl⟩, rfl⟩
    · rintro ⟨⟨hs, -⟩, rfl⟩
      exact ⟨(s, r), (readLiteral_spliced hstart).mpr ⟨hs, rfl⟩, rfl⟩
  | word w =>
    change readValue (w ++ f) = some (v, r) ↔ _
    rw [readValue_word hc hf, map_eq_some_iff]
    constructor
    · rintro ⟨v', hv, heq⟩
      cases heq
      exact ⟨hv, rfl⟩
    · rintro ⟨hv, rfl⟩
      exact ⟨v, hv, rfl⟩
  | call g argument option =>
    rw [readValue_call hc, some_inj, Prod.mk.injEq]
    exact and_congr eq_comm eq_comm

theorem closes_close (x : List Char) : Closes (')' :: x) := Or.inl rfl

theorem closes_comma (x : List Char) : Closes (',' :: x) := Or.inr rfl

theorem readValues_cons_iff : readValues (n + 1) t = some (v :: values, r) ↔
      ∃ r', readValue t = some (v, r') ∧
        ((expect ')' r' = some r ∧ values = []) ∨
          (expect ')' r' = none ∧ ∃ r'', expect ',' r' = some r'' ∧
            readValues n r'' = some (values, r))) := by
  rw [readValues]
  constructor
  · intro h
    obtain ⟨⟨v', r'⟩, hvalue, h⟩ := bind_eq_some_iff.mp h
    dsimp only at h
    split at h
    · rename_i r'' hclose
      obtain ⟨hvalues, rfl⟩ := Prod.mk.inj (some.inj h)
      cases hvalues
      exact ⟨r', hvalue, .inl ⟨hclose, rfl⟩⟩
    · rename_i hclose
      obtain ⟨r'', hcomma, h⟩ := bind_eq_some_iff.mp h
      obtain ⟨⟨vs, r₃⟩, hrest, h⟩ := bind_eq_some_iff.mp h
      obtain ⟨hvalues, rfl⟩ := Prod.mk.inj (some.inj h)
      cases hvalues
      exact ⟨r', hvalue, .inr ⟨hclose, r'', hcomma, hrest⟩⟩
  · rintro ⟨r', hvalue, h⟩
    rw [hvalue]
    dsimp only [bind_eq_bind, bind_some]
    rcases h with ⟨hclose, rfl⟩ | ⟨hclose, r'', hcomma, hrest⟩
    · rw [hclose]
    rw [hclose, hcomma]
    dsimp only [bind_some]
    rw [hrest]
    rfl

theorem readValues_cells (hne : cells ≠ []) (hcells : ∀ c ∈ cells, c.WellFormed)
    (hdue : List.Forall₂ Cell.Due cells values) (hn : cells.length ≤ n) :
    readValues n (cellsText cells ++ x) = some (values, r) ↔
      List.Forall₂ Cell.Reads cells values ∧ r = x := by
  induction hdue generalizing n with
  | nil => exact absurd rfl hne
  | @cons c v cells values hc hrest ih =>
    have hwell := hcells c mem_cons_self
    cases n with
    | zero => exact absurd hn (by simp)
    | succ n =>
      rw [forall₂_cons, readValues_cons_iff]
      cases hrest with
      | nil =>
        have htext : cellsText [c] ++ x = c.toText ++ ')' :: x := by simp [cellsText]
        rw [htext]
        constructor
        · rintro ⟨r', hvalue, h⟩
          obtain ⟨hreads, rfl⟩ := (readValue_cell hwell hc (closes_close x)).mp hvalue
          rcases h with ⟨hr, -⟩ | ⟨hnone, -⟩
          · exact ⟨⟨hreads, .nil⟩, (some.inj hr).symm⟩
          · cases hnone
        · rintro ⟨⟨hreads, -⟩, rfl⟩
          refine ⟨')' :: r, (readValue_cell hwell hc (closes_close r)).mpr ⟨hreads, rfl⟩, ?_⟩
          exact .inl ⟨rfl, rfl⟩
      | @cons d u cells values hd hrest =>
        have htext : cellsText (c :: d :: cells) ++ x =
            c.toText ++ ',' :: ' ' :: (cellsText (d :: cells) ++ x) := by
          simp [cellsText]
        have hnext := ih (cons_ne_nil d cells)
          (fun c' hc' => hcells c' (mem_cons_of_mem c hc')) (Nat.le_of_succ_le_succ hn)
        have hspace : readValues n (' ' :: (cellsText (d :: cells) ++ x)) =
            readValues n (cellsText (d :: cells) ++ x) := by
          cases n <;> rfl
        rw [htext]
        constructor
        · rintro ⟨r', hvalue, h⟩
          obtain ⟨hreads, rfl⟩ := (readValue_cell hwell hc (closes_comma _)).mp hvalue
          rcases h with ⟨hclose, -⟩ | ⟨-, r'', hr'', hvalues⟩
          · cases hclose
          cases hr''
          rw [hspace] at hvalues
          obtain ⟨hall, hr⟩ := hnext.mp hvalues
          exact ⟨⟨hreads, hall⟩, hr⟩
        · rintro ⟨⟨hreads, hall⟩, hr⟩
          refine ⟨_, (readValue_cell hwell hc (closes_comma _)).mpr ⟨hreads, rfl⟩, ?_⟩
          refine .inr ⟨rfl, _, rfl, ?_⟩
          rw [hspace]
          exact hnext.mpr ⟨hall, hr⟩

theorem length_cellsText (cells : List Cell) : cells.length ≤ (cellsText cells).length := by
  induction cells using cellsText.induct with
  | case1 => exact Nat.zero_le _
  | case2 c => simp [cellsText]
  | case3 c d cells ih =>
    rw [cellsText, length_append, length_cons (a := c), length_cons (a := ','),
      length_cons (a := ' ')]
    omega

/-- A row of spliced texts is read as what is due exactly when each of its cells is. -/
theorem readRow_rowText (hne : cells ≠ []) (hcells : ∀ c ∈ cells, c.WellFormed)
    (hdue : List.Forall₂ Cell.Due cells values) : readRow (rowText cells ++ x) = some (values, r) ↔
      List.Forall₂ Cell.Reads cells values ∧ r = x := by
  have hread : readRow (rowText cells ++ x) =
      readValues (cellsText cells ++ x).length (cellsText cells ++ x) := by
    unfold readRow rowText
    rfl
  rw [hread]
  refine readValues_cells hne hcells hdue ((length_cellsText cells).trans ?_)
  rw [length_append]
  exact Nat.le_add_right _ _

theorem readRow_part (hne : cells ≠ []) (hcells : ∀ c ∈ cells, c.WellFormed)
    (hdue : List.Forall₂ Cell.Due cells values) (hpart : t <+: rowText cells) :
    readRow t = some (values, []) ↔ List.Forall₂ Cell.Reads cells values ∧ t = rowText cells := by
  have hrow : readRow (rowText cells) = some (values, []) ↔
      List.Forall₂ Cell.Reads cells values := by
    have happend := readRow_rowText (x := []) (r := []) hne hcells hdue
    rw [append_nil] at happend
    exact happend.trans (and_iff_left rfl)
  obtain ⟨y, hy⟩ := hpart
  constructor
  · intro h
    have hlong := readRow_append h y
    rw [hy, ← append_nil (rowText cells), nil_append] at hlong
    obtain ⟨hall, rfl⟩ := (readRow_rowText hne hcells hdue).mp hlong
    rw [append_nil] at hy
    exact ⟨hall, hy⟩
  · rintro ⟨hall, rfl⟩
    exact hrow.mpr hall

end SqlRows
