import OrionLd.QFilterSafety

/-! Which strings that are no filter get an error.
A list without two operands side by side and without an operator at its end is accepted only if it
is a sentence of the q grammar, up to one separator at its end: what is read whole is one operand
after the other. -/
namespace QFilterSoundness

open QFilterLex QFilterParse QFilterGrammar QFilterSentence QFilterLevels QFilterSafety List

/-- An expression, with or without one more separator at its end. -/
def Derivable (ls : List Lexeme) : Prop :=
  ∃ e : Expr, ls = exprLexemes e ∨ ls = exprLexemes e ++ [.separator e.sep]

def EndsOperand : Lexeme → Prop
  | .named _ => True
  | .literal _ => True
  | _ => False

def StartsOperand : Lexeme → Prop
  | .opening => True
  | .negation => True
  | .named _ => True
  | .literal _ => True
  | .regexp _ => True
  | _ => False

def IsOperator : Lexeme → Prop
  | .negation => True
  | .compare _ => True
  | .matching _ => True
  | _ => False

/-- No operand follows another one, and no operator ends the list. -/
structure Tidy (ls : List Lexeme) : Prop where
  apart : ∀ a b, [a, b] <:+: ls → EndsOperand a → ¬ StartsOperand b
  ended : ∀ l, [l] <:+ ls → ¬ IsOperator l

/-- Turns that come to the end of their level without a fault. -/
structure Whole (left : Bool) (room : ℕ) (ts : List Turn) : Prop where
  unrefused : ts.any Turn.isRefused = false
  fits : fits left room ts = true
  trees : ts.any Turn.isSeparator = true → false ∉ operands ts

variable {left : Bool} {room fuel k : ℕ} {t : Turn} {ts : List Turn} {all ls rest : List Lexeme}
variable {sep : Option Separator} {a : Literal} {l : Lexeme} {n : ℕ}

theorem mem_operands (h : false ∉ operands (t :: ts)) : false ∉ operands ts := by
  intro hmem
  rw [operands] at h
  split at h
  · exact h (mem_cons_of_mem _ hmem)
  · exact h hmem

theorem Whole.comparison (h : Whole left room (.comparison k :: ts)) :
    left = true ∧ Whole false (room - 1) ts := by
  have hfits := h.fits
  simp only [QFilterSafety.fits, Turn.harmless, Bool.true_and, Bool.and_eq_true] at hfits
  refine ⟨hfits.1.1, by simpa using h.unrefused, hfits.2, ?_⟩
  intro hsep
  exact mem_operands (h.trees (by simpa using hsep))

theorem Whole.behind (h : Whole left room (t :: ts)) :
    t.harmless = true ∧ ∃ left' room', Whole left' room' ts := by
  have hfits : (t.harmless && _) = true := h.fits
  rw [Bool.and_eq_true] at hfits
  refine ⟨hfits.1, ?_⟩
  have hrest : ts.any Turn.isRefused = false := (Bool.or_eq_false_iff.mp h.unrefused).2
  have htrees : ts.any Turn.isSeparator = true → false ∉ operands ts := fun hsep =>
    mem_operands (h.trees (Bool.or_eq_true_iff.mpr (.inr hsep)))
  cases t with
  | group body => exact ⟨_, _, hrest, (Bool.and_eq_true_iff.mp hfits.2).2, htrees⟩
  | separator | left => exact ⟨_, _, hrest, hfits.2, htrees⟩
  | comparison n => exact ⟨_, _, hrest, (Bool.and_eq_true_iff.mp hfits.2).2, htrees⟩
  | operand n => exact ⟨_, _, hrest, (Bool.and_eq_true_iff.mp hfits.2).2, htrees⟩
  | broken => cases hfits.1
  | refused n => cases (Bool.or_eq_false_iff.mp h.unrefused).1

theorem not_whole_refused : ¬ Whole left room [.refused k] := fun h => nomatch h.unrefused

theorem not_whole_broken : ¬ Whole left room [.broken] := fun h => nomatch h.behind.1

theorem listTurn_shape {type : QNodeType} (ht : type = a.node.type)
    (h : listTurn type k ls = .whole n rest) : ∃ items : List Literal,
      ls = (items.flatMap fun a => [.comma, .literal a]) ++ rest ∧
        (ls.head? = some .comma → items ≠ []) := by
  fun_induction listTurn type k ls with
  | case1 k l more hl ih =>
    obtain ⟨b, rfl⟩ := literal_of_type (hl.trans ht)
    obtain ⟨items, rfl, -⟩ := ih h
    exact ⟨b :: items, rfl, fun _ => cons_ne_nil b items⟩
  | case2 | case3 => cases h
  | case4 k more hmore hlast =>
    cases h
    refine ⟨[], rfl, ?_⟩
    intro hhead
    rcases rest with _ | ⟨l, _ | ⟨m, rest⟩⟩
    · cases hhead
    · cases hhead
      exact absurd rfl hlast
    · cases hhead
      exact absurd rfl (hmore m rest)

theorem rightTurn_shape (h : rightTurn a ls = .whole n rest) :
    ∃ rhs, .literal a :: ls = rhsLexemes rhs ++ rest := by
  unfold rightTurn at h
  split at h
  · split at h
    · rename_i hl
      obtain ⟨b, rfl⟩ := literal_of_type hl.symm
      cases h
      exact ⟨.range a b, rfl⟩
    · cases h
  · cases h
  · obtain ⟨items, hls, hne⟩ := listTurn_shape rfl h
    obtain ⟨b, items, rfl⟩ := exists_cons_of_ne_nil (hne rfl)
    exact ⟨.list a b items, congrArg (.literal a :: ·) hls⟩
  · cases h
    exact ⟨.value a, rfl⟩

theorem rhs_ends (r : Rhs) : ∃ before b, rhsLexemes r = before ++ [.literal b] := by
  cases r with
  | value a => exact ⟨[], a, rfl⟩
  | range lower upper => exact ⟨[.literal lower, .range], upper, rfl⟩
  | list first second rest =>
    induction rest using List.reverseRecOn with
    | nil => exact ⟨[.literal first, .comma], second, rfl⟩
    | append_singleton items b _ =>
      refine ⟨rhsLexemes (.list first second items) ++ [.comma], b, ?_⟩
      simp [rhsLexemes]

/-- The rest of a level behind an operand: more operands, and maybe a last separator. -/
def TailOf (sep : Option Separator) (rest : List Lexeme) : Prop :=
  ∃ s os last, rest = moreLexemes s os ++ last ∧ (last = [] ∨ last = [.separator s]) ∧
    ∀ s', sep = some s' → s = s'

def LevelOf (sep : Option Separator) (rest : List Lexeme) : Prop :=
  ∃ s first os last, rest = levelLexemes s first os ++ last ∧
    (last = [] ∨ last = [.separator s]) ∧ ∀ s', sep = some s' → s = s'

theorem levelOf_operand {o : Operand} (h : TailOf sep rest) :
    LevelOf sep (operandLexemes o ++ rest) := by
  obtain ⟨s, os, last, rfl, hlast, hs⟩ := h
  exact ⟨s, o, os, last, by simp [levelLexemes], hlast, hs⟩

/-- The head of the loop where an operand has to start. -/
structure Starts (all rest : List Lexeme) : Prop where
  inside : rest <:+: all
  first : ∀ l more, rest = l :: more → Lexeme.type l ∈ startTokens
  ended : ∀ l, [l] <:+ rest → ¬ IsOperator l

/-- Where the first operand is a tree, what is read whole is a level of the grammar. -/
def Reads (all : List Lexeme) (fuel : ℕ) : Prop :=
  ∀ {rest : List Lexeme} {sep : Option Separator} {left : Bool} {room : ℕ},
    rest.length < fuel → rest ≠ [] → Starts all rest → Whole left room (turns fuel sep rest) →
      (operands (turns fuel sep rest)).head? ≠ some false → LevelOf sep rest

theorem level_whole (ih : Reads all fuel) (hlen : rest.length < fuel) (hne : rest ≠ [])
    (h : Starts all rest) (hharmless : harmless (turns fuel none rest) = true)
    (haccepted : accepted (turns fuel none rest) = true) : LevelOf none rest := by
  rw [harmless, Bool.and_eq_true, noNull, joined] at hharmless
  rw [accepted, Bool.and_eq_true, Bool.not_eq_true'] at haccepted
  obtain ⟨hfits, hnull⟩ := hharmless
  obtain ⟨href, htree⟩ := haccepted
  have htrees : (turns fuel none rest).any Turn.isSeparator = true →
      false ∉ operands (turns fuel none rest) := by
    intro hsep
    simpa [hsep, href] using hnull
  refine ih hlen hne h ⟨href, hfits, htrees⟩ ?_
  intro hhead
  rcases Bool.or_eq_true_iff.mp htree with hsep | htrue
  · exact htrees hsep (mem_of_mem_head? hhead)
  · rw [hhead] at htrue
    cases htrue

section

variable (hC : Checked all)
include hC

/-- What follows an operand: nothing, or a separator and maybe more. -/
theorem tail_reads (ih : ∀ j < fuel, Reads all j) (hk : k ≤ fuel) (hlen : rest.length < k)
    (hin : rest <:+: all) (hended : ∀ l, [l] <:+ rest → ¬ IsOperator l)
    (hends : rest = [] ∨ ∃ s more, rest = .separator s :: more)
    (hw : Whole left room (turns k sep rest)) : TailOf sep rest := by
  rcases hends with rfl | ⟨s, more, rfl⟩
  · cases sep with
    | none => exact ⟨.and, [], [], rfl, .inl rfl, nofun⟩
    | some s => exact ⟨s, [], [], rfl, .inl rfl, fun s' hs => Option.some.inj hs⟩
  obtain ⟨j, rfl⟩ : ∃ j, k = j + 1 := ⟨k - 1, by omega⟩
  rw [turns] at hw
  split at hw
  · rename_i hs
    have hsep : ∀ s', sep = some s' → s = s' := by
      rintro s' rfl
      exact hs.symm
    obtain ⟨-, left', room', hw'⟩ := hw.behind
    by_cases hmore : more = []
    · subst hmore
      exact ⟨s, [], [.separator s], rfl, .inr rfl, hsep⟩
    have htrees : (operands (turns j (some s) more)).head? ≠ some false := by
      intro hhead
      exact mem_operands (h := hw.trees rfl) (mem_of_mem_head? hhead)
    obtain ⟨s', first, os, last, rfl, hlast, hs'⟩ := ih j (by omega) (Nat.lt_of_succ_lt_succ hlen)
      hmore ⟨(suffix_cons _ _).isInfix.trans hin, fun l rest hl => after_separator hC (hl ▸ hin),
        fun l hl => hended l (hl.trans (suffix_cons _ _))⟩ hw' htrees
    obtain rfl := hs' s rfl
    exact ⟨s', first :: os, last, by simp [moreLexemes, levelLexemes], hlast, hsep⟩
  · exact absurd hw not_whole_refused

/-- An operand whose last lexeme is followed by nothing, or by a separator. -/
theorem operand_reads {o : Operand} (ih : ∀ j < fuel, Reads all j) (hk : k ≤ fuel)
    (hlen : rest.length < k) (h : Starts all (operandLexemes o ++ rest))
    (hends : rest = [] ∨ ∃ s more, rest = .separator s :: more)
    (hw : Whole left room (turns k sep rest)) : LevelOf sep (operandLexemes o ++ rest) :=
  levelOf_operand (tail_reads hC ih hk hlen ((suffix_append _ _).isInfix.trans h.inside)
    (fun l hl => h.ended l (hl.trans (suffix_append _ _))) hends hw)

omit hC in
/-- In front of a lexeme that is refused at the head of the loop nothing has been read whole. -/
theorem ends_of_whole (hw : Whole left room (turns (k + 1) sep rest))
    (hends : ∀ l more, rest = l :: more → l = .closing ∨ ∃ s, l = .separator s) :
    rest = [] ∨ ∃ s more, rest = .separator s :: more := by
  cases rest with
  | nil => exact .inl rfl
  | cons l more =>
    rcases hends l more rfl with rfl | ⟨s, rfl⟩
    · exact absurd hw not_whole_refused
    · exact .inr ⟨s, more, rfl⟩

theorem negation_reads (ih : ∀ j < fuel + 1, Reads all j) (h : Starts all (.negation :: rest))
    (hlen : rest.length < fuel) (hw : Whole left room (turns (fuel + 1) sep (.negation :: rest))) :
    LevelOf sep (.negation :: rest) := by
  rcases rest with _ | ⟨v, rest⟩
  · exact absurd trivial (h.ended .negation suffix_rfl)
  obtain ⟨path, rfl⟩ := after_negation hC h.inside
  rw [turns] at hw
  obtain ⟨-, left', room', hw'⟩ := hw.behind
  obtain ⟨k, rfl⟩ : ∃ k, fuel = k + 1 := ⟨fuel - 1, by omega⟩
  have hends := ends_of_whole hw' fun l more hl => after_negated hC (hl ▸ h.inside)
  have hshort : rest.length < k + 1 := Nat.lt_of_succ_lt hlen
  exact operand_reads (o := .negated path) hC ih (Nat.le_succ _) hshort h hends hw'

theorem regexp_reads {path : Text} {op : MatchOp} (ih : ∀ j < fuel + 2, Reads all j)
    (h : Starts all (.named path :: .matching op :: rest)) (hlen : rest.length < fuel)
    (hw : Whole left room (turns (fuel + 1) sep (.matching op :: rest))) :
    LevelOf sep (.named path :: .matching op :: rest) := by
  rcases rest with _ | ⟨v, rest⟩
  · exact absurd trivial (h.ended (.matching op) ⟨[.named path], rfl⟩)
  have hin := (suffix_cons _ _).isInfix.trans h.inside
  obtain ⟨re, rfl⟩ := after_matching hC hin
  rw [turns] at hw
  obtain ⟨-, left', room', hw'⟩ := hw.behind
  obtain ⟨k, rfl⟩ : ∃ k, fuel = k + 1 := ⟨fuel - 1, by omega⟩
  have hends := ends_of_whole hw' fun l more hl =>
    after_regexp hC (hl ▸ (suffix_cons _ _).isInfix.trans hin)
  have hshort : rest.length < k + 1 := Nat.lt_of_succ_lt hlen
  exact operand_reads (o := .regexp path op re) hC ih (by omega) hshort h hends hw'

/-- Behind a right-hand side: no operand and no list or range can follow, and no comparison, which
would find no left side. -/
theorem behind_side (hT : Tidy all) (hin : .literal a :: rest <:+: all)
    (hended : ∀ l, [l] <:+ rest → ¬ IsOperator l)
    (hw : Whole false room (turns (k + 1) sep rest)) :
    rest = [] ∨ ∃ s more, rest = .separator s :: more := by
  rcases rest with _ | ⟨l, more⟩
  · exact .inl rfl
  have hp : [.literal a, l] <+: .literal a :: l :: more := ⟨more, rfl⟩
  have happart := hT.apart _ _ (hp.isInfix.trans hin) trivial
  have hin' := (suffix_cons _ _).isInfix.trans hin
  cases l with
  | separator s => exact .inr ⟨s, more, rfl⟩
  | closing | comma | range => exact absurd hw not_whole_refused
  | compare op =>
    rcases more with _ | ⟨v, more⟩
    · exact absurd trivial (hended (.compare op) suffix_rfl)
    obtain ⟨b, rfl⟩ := after_compare hC hin'
    rw [turns] at hw
    cases hturn : rightTurn b more with
    | whole n behind =>
      rw [hturn] at hw
      cases hw.comparison.1
    | broken =>
      rw [hturn] at hw
      exact absurd hw not_whole_broken
    | refused n =>
      rw [hturn] at hw
      exact absurd hw not_whole_refused
  | matching op =>
    rcases more with _ | ⟨v, more⟩
    · exact absurd trivial (hended (.matching op) suffix_rfl)
    obtain ⟨re, rfl⟩ := after_matching hC hin'
    rw [turns] at hw
    cases hw.comparison.1
  | _ => exact absurd trivial happart

theorem compare_reads (hT : Tidy all) {path : Text} {op : CompareOp}
    (ih : ∀ j < fuel + 2, Reads all j) (h : Starts all (.named path :: .compare op :: rest))
    (hlen : rest.length < fuel)
    (hw : Whole left room (turns (fuel + 1) sep (.compare op :: rest))) :
    LevelOf sep (.named path :: .compare op :: rest) := by
  rcases rest with _ | ⟨v, rest⟩
  · exact absurd trivial (h.ended (.compare op) ⟨[.named path], rfl⟩)
  have hin := (suffix_cons _ _).isInfix.trans h.inside
  obtain ⟨a, rfl⟩ := after_compare hC hin
  rw [turns] at hw
  cases hturn : rightTurn a rest with
  | broken =>
    rw [hturn] at hw
    exact absurd hw not_whole_broken
  | refused n =>
    rw [hturn] at hw
    exact absurd hw not_whole_refused
  | whole n behind =>
    rw [hturn] at hw
    obtain ⟨-, hw'⟩ := hw.comparison
    obtain ⟨rhs, hrhs⟩ := rightTurn_shape hturn
    obtain ⟨before, b, hb⟩ := rhs_ends rhs
    have hlist : .named path :: .compare op :: .literal a :: rest =
        operandLexemes (.compare path op rhs) ++ behind := by
      rw [hrhs]
      rfl
    have hlast : .literal b :: behind <:+ .named path :: .compare op :: .literal a :: rest := by
      rw [hlist]
      exact ⟨.named path :: .compare op :: before, by simp [operandLexemes, hb]⟩
    have hshort : behind.length < fuel := by
      have hle := congrArg List.length hrhs
      simp only [hb, length_append, length_cons, length_nil] at hle hlen
      omega
    obtain ⟨k, rfl⟩ : ∃ k, fuel = k + 1 := ⟨fuel - 1, by omega⟩
    have hends := behind_side hC hT (hlast.isInfix.trans h.inside)
      (fun l hl => h.ended l (hl.trans ((suffix_cons _ _).trans hlast))) hw'
    rw [hlist] at h ⊢
    exact operand_reads hC ih (by omega) hshort h hends hw'

omit hC in
theorem start_cases {l : Lexeme} (h : Lexeme.type l ∈ startTokens) :
    l = .opening ∨ l = .negation ∨ ∃ path, l = .named path := by
  cases l with
  | opening => exact .inl rfl
  | negation => exact .inr (.inl rfl)
  | named path => exact .inr (.inr ⟨path, rfl⟩)
  | separator sep =>
    cases sep <;> simp [Lexeme.type, Lexeme.node, startTokens, Separator.node, Separator.type] at h
  | compare op => cases op <;> simp [Lexeme.type, Lexeme.node, startTokens, CompareOp.type] at h
  | matching op => cases op <;> simp [Lexeme.type, Lexeme.node, startTokens, MatchOp.type] at h
  | literal a => cases a <;> simp [Lexeme.type, Lexeme.node, startTokens, Literal.node] at h
  | _ => simp [Lexeme.type, Lexeme.node, startTokens] at h

theorem before_closing {l : Lexeme} (hi : [l, .closing] <:+: all) :
    ¬ IsOperator l ∧ (∀ sep, l ≠ .separator sep) ∧ l ≠ .opening := by
  have hn := hC.next l .closing hi
  refine ⟨?_, ?_, ?_⟩
  · intro hop
    cases l with
    | negation => cases hn
    | compare op => cases op <;> cases hn
    | matching op => cases op <;> cases hn
    | _ => exact hop
  · rintro sep rfl
    cases sep <;> cases hn
  · rintro rfl
    cases hn

/-- The body of a group that is a tree, which ends with no separator. -/
theorem body_reads {body behind : List Lexeme} (ih : Reads all fuel) (hlen : body.length < fuel)
    (hin : .opening :: (body ++ .closing :: behind) <:+: all)
    (hharmless : harmless (turns fuel none body) = true)
    (haccepted : accepted (turns fuel none body) = true) :
    ∃ o, operandLexemes o = .opening :: (body ++ [.closing]) := by
  have hbody : body ≠ [] := by
    rintro rfl
    have hp : [.opening, .closing] <+: .opening :: ([] ++ .closing :: behind) := ⟨behind, rfl⟩
    exact (before_closing hC (hp.isInfix.trans hin)).2.2 rfl
  have hlast : ∀ l, [l] <:+ body → [l, .closing] <:+: all := by
    rintro l ⟨before, rfl⟩
    exact List.IsInfix.trans ⟨.opening :: before, behind, by simp⟩ hin
  have hstarts : Starts all body := by
    refine ⟨List.IsInfix.trans ⟨[.opening], .closing :: behind, by simp⟩ hin, ?_, ?_⟩
    · rintro l more rfl
      exact after_opening hC hin
    · intro l hl
      exact (before_closing hC (hlast l hl)).1
  obtain ⟨s, first, os, last, hlevel, hend, -⟩ :=
    level_whole ih hlen hbody hstarts hharmless haccepted
  rcases hend with rfl | rfl
  · exact ⟨.group s first os, by rw [hlevel]; simp [operandLexemes, levelLexemes]⟩
  have hsuf : [.separator s] <:+ body := by
    rw [hlevel]
    exact suffix_append _ _
  exact absurd rfl ((before_closing hC (hlast _ hsuf)).2.1 s)

theorem opening_reads (ih : ∀ j < fuel + 1, Reads all j) (h : Starts all (.opening :: rest))
    (hlen : rest.length < fuel) (hw : Whole left room (turns (fuel + 1) sep (.opening :: rest)))
    (hfirst : (operands (turns (fuel + 1) sep (.opening :: rest))).head? ≠ some false) :
    LevelOf sep (.opening :: rest) := by
  rw [turns] at hw hfirst
  cases hsplit : splitGroup 0 rest with
  | none =>
    rw [hsplit] at hw
    exact absurd hw not_whole_refused
  | some p =>
    obtain ⟨body, behind⟩ := p
    rw [hsplit] at hw hfirst
    obtain rfl := splitGroup_eq hsplit
    obtain ⟨hharmless, left', room', hw'⟩ := hw.behind
    have haccepted : accepted (turns fuel none body) = true := by
      by_contra hno
      apply hfirst
      have htree : (Turn.group (turns fuel none body)).isTree = false := (Bool.not_eq_true _).mp hno
      rw [operands, htree]
      rfl
    rw [length_append, length_cons] at hlen
    obtain ⟨o, ho⟩ := body_reads hC (ih fuel (Nat.lt_succ_self _)) (by omega) h.inside hharmless
      haccepted
    have hlist : .opening :: (body ++ .closing :: behind) = operandLexemes o ++ behind := by
      rw [ho]
      simp
    have hclosing : .closing :: behind <:+: all :=
      List.IsInfix.trans ⟨.opening :: body, [], by simp⟩ h.inside
    obtain ⟨k, rfl⟩ : ∃ k, fuel = k + 1 := ⟨fuel - 1, by omega⟩
    have hends := ends_of_whole hw' fun l more hl => after_closing hC (hl ▸ hclosing)
    rw [hlist] at h ⊢
    exact operand_reads hC ih (Nat.le_succ _) (by omega) h hends hw'

theorem named_reads (hT : Tidy all) {path : Text} (ih : ∀ j < fuel + 1, Reads all j)
    (h : Starts all (.named path :: rest)) (hlen : rest.length < fuel)
    (hw : Whole left room (turns (fuel + 1) sep (.named path :: rest))) :
    LevelOf sep (.named path :: rest) := by
  obtain ⟨k, rfl⟩ : ∃ k, fuel = k + 1 := ⟨fuel - 1, by omega⟩
  rcases rest with _ | ⟨l, rest⟩
  · have hnone : Whole true 0 (turns (k + 1) sep ([] : List Lexeme)) := ⟨rfl, rfl, nofun⟩
    exact operand_reads (o := .bare path) hC ih (Nat.le_succ _) hlen h (.inl rfl) hnone
  have hp : [.named path, l] <+: .named path :: l :: rest := ⟨rest, rfl⟩
  have happart := hT.apart _ _ (hp.isInfix.trans h.inside) trivial
  have hturn : turns (k + 2) sep (.named path :: l :: rest) =
      .left :: turns (k + 1) sep (l :: rest) := rfl
  rw [hturn] at hw
  obtain ⟨-, left', room', hw'⟩ := hw.behind
  cases l with
  | separator s =>
    exact operand_reads (o := .bare path) hC ih (Nat.le_succ _) hlen h (.inr ⟨s, rest, rfl⟩) hw'
  | compare op => exact compare_reads hC hT ih h (Nat.lt_of_succ_lt_succ hlen) hw'
  | matching op => exact regexp_reads hC ih h (Nat.lt_of_succ_lt_succ hlen) hw'
  | closing | comma | range => exact absurd hw' not_whole_refused
  | _ => exact absurd trivial happart

theorem level_reads (hT : Tidy all) (fuel : ℕ) : Reads all fuel := by
  induction fuel using Nat.strong_induction_on with
  | _ fuel ih =>
    intro rest sep left room hlen hne h hw hfirst
    obtain ⟨k, rfl⟩ : ∃ k, fuel = k + 1 := ⟨fuel - 1, by omega⟩
    rcases rest with _ | ⟨l, rest⟩
    · exact absurd rfl hne
    replace hlen : rest.length < k := Nat.lt_of_succ_lt_succ hlen
    rcases start_cases (h.first l rest rfl) with rfl | rfl | ⟨path, rfl⟩
    · exact opening_reads hC ih h hlen hw hfirst
    · exact negation_reads hC ih h hlen hw
    · exact named_reads hC hT ih h hlen hw

end

/-- What qParse accepts of tidy tokens is a sentence of the grammar. -/
theorem accepted_derivable (hC : Checked ls) (hT : Tidy ls)
    (hstart : ∀ l rest, ls = l :: rest → Lexeme.type l ∈ startTokens)
    (hharmless : harmless (readLevel ls) = true) (haccepted : accepted (readLevel ls) = true) :
    Derivable ls := by
  have hne : ls ≠ [] := by
    rintro rfl
    cases haccepted
  obtain ⟨s, first, os, last, hlevel, hlast, -⟩ := level_whole (level_reads hC hT _)
    (Nat.lt_succ_self _) hne ⟨infix_rfl, hstart, hT.ended⟩ hharmless haccepted
  refine ⟨⟨s, first, os⟩, ?_⟩
  rcases hlast with rfl | rfl
  · exact .inl (by simpa [exprLexemes] using hlevel)
  · exact .inr (by simpa [exprLexemes] using hlevel)

/-- The tokens derive from an expression, and varFix accepts its variables. -/
def IsFilter (lex : LexEnv) (names : NameEnv) (s : Text) : Prop :=
  ∃ tokens, qLex lex s = .done tokens ∧ Derivable (tokens.filterMap readLexeme) ∧
    ∀ path, variableNode path ∈ tokens → ∃ p, varFix names path = .ok p

/-- qLex reports an error, or the tokens are harmless and, if their outer level is accepted, tidy
and with variables that varFix accepts. -/
def Refusable (lex : LexEnv) (names : NameEnv) (s : Text) : Prop :=
  (∃ e, qLex lex s = .failed e) ∨ ∃ tokens, qLex lex s = .done tokens ∧
    Harmless (tokens.filterMap readLexeme) ∧
      (accepted (readLevel (tokens.filterMap readLexeme)) = true →
        Tidy (tokens.filterMap readLexeme) ∧
          ∀ path, variableNode path ∈ tokens → ∃ p, varFix names path = .ok p)

variable {lex : LexEnv} {names : NameEnv} {s : Text}

theorem error_of_refusable (hno : ¬ IsFilter lex names s) (h : Refusable lex names s) :
    ∃ e, qFilter lex names s = .failed e := by
  rcases h with ⟨e, hlex⟩ | ⟨tokens, hlex, hharmless, htidy⟩
  · exact ⟨e, by simp [qFilter, hlex]⟩
  obtain ⟨ls, rfl, -, hcheck, -⟩ := qLex_done hlex
  have hends := @qFilter_ends _ _ names _ hlex
  rw [filterMap_nodesFrom] at hharmless htidy
  rw [if_pos hharmless] at hends
  cases haccepted : accepted (readLevel ls) with
  | false =>
    rw [haccepted] at hends
    exact hends
  | true =>
    obtain ⟨hT, hpaths⟩ := htidy haccepted
    obtain ⟨hC, hstart⟩ := qLexCheck_checked hcheck
    refine absurd ⟨_, hlex, ?_, hpaths⟩ hno
    rw [filterMap_nodesFrom]
    exact accepted_derivable hC hT hstart hharmless.fits haccepted

theorem refusable_of_error {e : QError} (h : qFilter lex names s = .failed e) :
    Refusable lex names s := by
  cases hlex : qLex lex s with
  | fault f =>
    have hfilter : qFilter lex names s = .fault f := by simp [qFilter, hlex]
    cases hfilter.symm.trans h
  | failed e => exact .inl ⟨e, hlex⟩
  | done tokens =>
    obtain ⟨ls, rfl, -⟩ := qLex_done hlex
    have hends := @qFilter_ends _ _ names _ hlex
    refine .inr ⟨_, hlex, ?_⟩
    rw [filterMap_nodesFrom]
    split_ifs at hends with hharmless haccepted
    · obtain ⟨tree, htree⟩ := hends
      cases htree.symm.trans h
    · exact ⟨hharmless, fun h => absurd h haccepted⟩
    · obtain ⟨f, hf⟩ := hends
      cases hf.symm.trans h

/-- A string that is no filter gets an error exactly if qLex reports one, or its tokens are harmless
and, where they are accepted, tidy. -/
theorem qFilter_refuses_iff : (¬ IsFilter lex names s → ∃ e, qFilter lex names s = .failed e) ↔
    IsFilter lex names s ∨ Refusable lex names s := by
  constructor
  · intro h
    by_cases hfilter : IsFilter lex names s
    · exact .inl hfilter
    · obtain ⟨e, he⟩ := h hfilter
      exact .inr (refusable_of_error he)
  · rintro (hfilter | hrefusable) hno
    · exact absurd hfilter hno
    · exact error_of_refusable hno hrefusable

def sideBySide : List Lexeme := [.named "A".toList, .opening, .named "B".toList, .closing]

/-- Accepted all the same: operands side by side, of which the first one is dropped, a
comparison that breaks off, and a path that varFix refuses, kept as a NULL name. -/
theorem qFilter_accepts_no_filter :
    qLex sampleLex "A(B)".toList = .done (nodesFrom 0 sideBySide) ∧ ¬ Derivable sideBySide ∧
    qFilter sampleLex sampleNames "A(B)".toList =
      .done ((Operand.bare "B".toList).tree sampleNames) ∧
    qFilter sampleLex sampleNames "A==1==".toList =
      .done ((Operand.compare "A".toList .eq (.value (.int 1))).tree sampleNames) ∧
    varFix sampleNames "A]".toList = .error "end bracket but no start bracket" ∧
    qFilter sampleLex sampleNames "A]==1".toList =
      .done (.mk .qEQ .unset [qNode .qVariable (.v none), qNode .qIntegerValue (.i 1)]) := by
  refine ⟨by decide, ?_, by decide, by decide, by rfl, by decide⟩
  rintro ⟨⟨sep, first, rest⟩, he⟩
  rcases he with he | he <;> cases first <;> cases rest <;>
    simp [sideBySide, exprLexemes, levelLexemes, operandLexemes, moreLexemes] at he

end QFilterSoundness
