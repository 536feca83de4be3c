import OrionLd.QFilterSentence

/-! The parenthesis levels of a list of lexemes, and what qLexCheck guarantees on them.
A group is cut out as qParse cuts it out, at the ')' of its own level. The own lexemes of
a level are those outside its groups, each group being left as its '('. -/
namespace QFilterLevels

open QFilterLex QFilterParse QFilterGrammar QFilterSentence List Option

def Lexeme.type (l : Lexeme) : QNodeType := (l.node 0).type

@[simp] theorem node_type (level : ℤ) (l : Lexeme) :
    (l.node level).type = Lexeme.type l := by
  cases l <;> rfl

/-- The rules of qLexCheck for a token and what follows it. -/
structure Checked (ls : List Lexeme) : Prop where
  next : ∀ a b, [a, b] <:+: ls → checkSuccessor (Lexeme.type a) (Lexeme.type b) = none
  negated : ∀ v b, [.negation, v, b] <:+: ls → Lexeme.type b ∈ endTokens

variable {body ls rest : List Lexeme} {l : Lexeme}

theorem Checked.pair {a b : Lexeme} (h : Checked ls) (hi : a :: b :: rest <:+: ls) :
    checkSuccessor (Lexeme.type a) (Lexeme.type b) = none := by
  have hp : [a, b] <+: a :: b :: rest := ⟨rest, rfl⟩
  exact h.next a b (hp.isInfix.trans hi)

theorem Checked.triple {v b : Lexeme} (h : Checked ls) (hi : .negation :: v :: b :: rest <:+: ls) :
    Lexeme.type b ∈ endTokens := by
  have hp : [.negation, v, b] <+: .negation :: v :: b :: rest := ⟨rest, rfl⟩
  exact h.negated v b (hp.isInfix.trans hi)

theorem checkNegated_end {b : QNode} (h : checkNegated .qNotExists (some b) = none) :
    b.type ∈ endTokens := by
  by_contra hb
  simp [checkNegated, hb] at h

theorem checkFrom_checked {level k : ℤ} (h : checkFrom level (nodesFrom k ls) = none) :
    Checked ls := by
  induction ls generalizing level k with
  | nil => exact ⟨by simp, by simp⟩
  | cons l ls ih =>
    cases ls with
    | nil =>
      constructor
      · intro a b hab
        simpa using hab.length_le
      · intro v b hvb
        simpa using hvb.length_le
    | cons m ls =>
      simp only [nodesFrom, checkFrom, or_eq_none_iff, node_type] at h
      obtain ⟨⟨hnext, hneg⟩, hrest⟩ := h
      have hchk := ih hrest
      constructor
      · intro a b hab
        rcases infix_cons_iff.mp hab with hp | hi
        · simp only [cons_prefix_cons, nil_prefix, and_true] at hp
          obtain ⟨rfl, rfl⟩ := hp
          exact hnext
        · exact hchk.next a b hi
      · intro v b hvb
        rcases infix_cons_iff.mp hvb with hp | hi
        · cases ls with
          | nil => simp at hp
          | cons n ls =>
            simp only [cons_prefix_cons, nil_prefix, and_true] at hp
            obtain ⟨rfl, rfl, rfl⟩ := hp
            have hb := checkNegated_end hneg
            rwa [node_type] at hb
        · exact hchk.negated v b hi

theorem qLexCheck_checked (h : qLexCheck (nodesFrom 0 ls) = none) :
    Checked ls ∧ ∀ l rest, ls = l :: rest → Lexeme.type l ∈ startTokens := by
  cases ls with
  | nil => exact ⟨⟨by simp, by simp⟩, by simp⟩
  | cons l ls =>
    simp only [nodesFrom, qLexCheck, node_type] at h
    split_ifs at h with hs
    refine ⟨checkFrom_checked (k := 0) h, ?_⟩
    rintro m rest he
    cases he
    exact hs

theorem literal_of_type {a : Literal} (h : Lexeme.type l = a.node.type) : ∃ b, l = .literal b := by
  cases l with
  | literal b => exact ⟨b, rfl⟩
  | separator sep | compare sep | matching sep => cases sep <;> cases a <;> cases h
  | _ => cases a <;> cases h

theorem comma_of_type (h : Lexeme.type l = .qComma) : l = .comma := by
  cases l with
  | comma => rfl
  | separator sep => cases sep <;> cases h
  | compare op => cases op <;> cases h
  | matching op => cases op <;> cases h
  | literal a => cases a <;> cases h
  | _ => cases h

theorem range_of_type (h : Lexeme.type l = .qRange) : l = .range := by
  cases l with
  | range => rfl
  | separator sep => cases sep <;> cases h
  | compare op => cases op <;> cases h
  | matching op => cases op <;> cases h
  | literal a => cases a <;> cases h
  | _ => cases h

theorem ending_of_type (h : Lexeme.type l ∈ endTokens) :
    l = .closing ∨ ∃ sep, l = .separator sep := by
  cases l with
  | closing => exact .inl rfl
  | separator sep => exact .inr ⟨sep, rfl⟩
  | compare op => cases op <;> simp [Lexeme.type, Lexeme.node, endTokens, CompareOp.type] at h
  | matching op => cases op <;> simp [Lexeme.type, Lexeme.node, endTokens, MatchOp.type] at h
  | literal a => cases a <;> simp [Lexeme.type, Lexeme.node, endTokens, Literal.node] at h
  | _ => simp [Lexeme.type, Lexeme.node, endTokens, variableNode] at h

theorem named_of_type (h : Lexeme.type l = .qVariable) : ∃ path, l = .named path := by
  cases l with
  | named path => exact ⟨path, rfl⟩
  | separator sep => cases sep <;> cases h
  | compare op => cases op <;> cases h
  | matching op => cases op <;> cases h
  | literal a => cases a <;> cases h
  | _ => cases h

theorem regexp_of_type (h : Lexeme.type l = .qRegexpValue) : ∃ re, l = .regexp re := by
  cases l with
  | regexp re => exact ⟨re, rfl⟩
  | separator sep => cases sep <;> cases h
  | compare op => cases op <;> cases h
  | matching op => cases op <;> cases h
  | literal a => cases a <;> cases h
  | _ => cases h

theorem literal_of_value (h : Lexeme.type l ∈ valueTokens) : ∃ a, l = .literal a := by
  cases l with
  | literal a => exact ⟨a, rfl⟩
  | separator sep =>
    cases sep <;> simp [Lexeme.type, Lexeme.node, valueTokens, Separator.node, Separator.type] at h
  | compare op => cases op <;> simp [Lexeme.type, Lexeme.node, valueTokens, CompareOp.type] at h
  | matching op => cases op <;> simp [Lexeme.type, Lexeme.node, valueTokens, MatchOp.type] at h
  | _ => simp [Lexeme.type, Lexeme.node, valueTokens, variableNode] at h

theorem checkSuccessor_allowed {a b : QNodeType} {allowed : List QNodeType} {title : String}
    (hr : successorRule a = some (allowed, title)) (h : checkSuccessor a b = none) :
    b ∈ allowed := by
  by_contra hb
  simp [checkSuccessor, hr, hb] at h

section

variable (hC : Checked ls)
include hC

theorem after_negation (hi : .negation :: l :: rest <:+: ls) : ∃ path, l = .named path := by
  have hm := checkSuccessor_allowed rfl (hC.pair hi)
  exact named_of_type (by simpa using hm)

theorem after_negated {v : Lexeme} (hi : .negation :: v :: l :: rest <:+: ls) :
    l = .closing ∨ ∃ sep, l = .separator sep := by
  exact ending_of_type (hC.triple hi)

theorem after_compare {op : CompareOp} (hi : .compare op :: l :: rest <:+: ls) :
    ∃ a, l = .literal a := by
  have hn := hC.pair hi
  cases op <;> exact literal_of_value (checkSuccessor_allowed rfl hn)

theorem after_matching {op : MatchOp} (hi : .matching op :: l :: rest <:+: ls) :
    ∃ re, l = .regexp re := by
  have hn := hC.pair hi
  cases op <;> exact regexp_of_type (by simpa using checkSuccessor_allowed rfl hn)

theorem after_regexp {re : Text} (hi : .regexp re :: l :: rest <:+: ls) :
    l = .closing ∨ ∃ sep, l = .separator sep := by
  exact ending_of_type (checkSuccessor_allowed rfl (hC.pair hi))

theorem after_separator {sep : Separator} (hi : .separator sep :: l :: rest <:+: ls) :
    Lexeme.type l ∈ startTokens := by
  have hn := hC.pair hi
  cases sep <;> exact checkSuccessor_allowed rfl hn

theorem after_closing (hi : .closing :: l :: rest <:+: ls) :
    l = .closing ∨ ∃ sep, l = .separator sep := by
  exact ending_of_type (checkSuccessor_allowed rfl (hC.pair hi))

theorem after_opening (hi : .opening :: l :: rest <:+: ls) : Lexeme.type l ∈ startTokens := by
  exact checkSuccessor_allowed rfl (hC.pair hi)

end

/-- The body of a group and the lexemes behind it, from behind its '('. -/
def splitGroup (depth : ℕ) : List Lexeme → Option (List Lexeme × List Lexeme)
  | [] => none
  | .opening :: ls => (splitGroup (depth + 1) ls).map fun p => (.opening :: p.1, p.2)
  | .closing :: ls =>
    match depth with
    | 0 => some ([], ls)
    | d + 1 => (splitGroup d ls).map fun p => (.closing :: p.1, p.2)
  | l :: ls => (splitGroup depth ls).map fun p => (l :: p.1, p.2)

def Lexeme.IsParen : Lexeme → Prop
  | .opening => True
  | .closing => True
  | _ => False

theorem levelAfter_of_not_paren (h : ¬ Lexeme.IsParen l) (level : ℤ) :
    l.levelAfter level = level := by
  cases l <;> first | rfl | exact absurd trivial h

theorem splitGroup_cons (h : ¬ Lexeme.IsParen l) (depth : ℕ) (ls : List Lexeme) :
    splitGroup depth (l :: ls) = (splitGroup depth ls).map fun p => (l :: p.1, p.2) := by
  cases l <;> first | rfl | exact absurd trivial h

theorem node_not_close (h : l ≠ .closing) (level : ℤ) : (l.node level).type ≠ .qClose := by
  cases l with
  | closing => exact absurd rfl h
  | separator sep => cases sep <;> simp [Lexeme.node, Separator.node, Separator.type]
  | compare op => cases op <;> simp [Lexeme.node, CompareOp.type]
  | matching op => cases op <;> simp [Lexeme.node, MatchOp.type]
  | literal a => exact a.not_close
  | _ => simp [Lexeme.node, variableNode]

theorem splitClose_nodes (level : ℤ) (depth : ℕ) (ls : List Lexeme) :
    splitClose (.level level) (nodesFrom (level + 1 + depth) ls) =
      (splitGroup depth ls).map fun p =>
        (nodesFrom (level + 1 + depth) p.1, nodesFrom level p.2) := by
  induction ls generalizing depth with
  | nil => rfl
  | cons l ls ih =>
    by_cases hc : l = .closing
    · subst hc
      cases depth with
      | zero => simp [nodesFrom, splitClose, Lexeme.node, Lexeme.levelAfter, splitGroup, qNode]
      | succ d =>
        have hne : ¬ (level + 1 + (d : ℤ) = level) := by omega
        have hlv : level + 1 + ((d + 1 : ℕ) : ℤ) - 1 = level + 1 + d := by push_cast; omega
        have hi := ih d
        simp only [nodesFrom, splitClose, Lexeme.node, Lexeme.levelAfter, qNode,
          QNode.type_mk, QNode.value_mk, hlv, QNodeValue.level.injEq, hne, and_false, if_false,
          splitGroup, hi, Option.map_map]
        congr 1
        funext p
        simp only [Function.comp_apply, nodesFrom, Lexeme.node, Lexeme.levelAfter, qNode, hlv]
    · have hn : ¬ ((l.node (level + 1 + depth)).type = .qClose ∧
          (l.node (level + 1 + depth)).value = .level level) :=
        fun h => node_not_close hc _ h.1
      rw [nodesFrom, splitClose, if_neg hn]
      by_cases ho : l = .opening
      · subst ho
        have hi := ih (depth + 1)
        have hlv : level + 1 + ((depth + 1 : ℕ) : ℤ) = level + 1 + depth + 1 := by
          push_cast; omega
        rw [hlv] at hi
        simp only [Lexeme.levelAfter, hi, splitGroup, Option.map_map]
        rfl
      · have hp : ¬ Lexeme.IsParen l := by
          cases l <;> simp_all [Lexeme.IsParen]
        rw [levelAfter_of_not_paren hp, ih depth, splitGroup_cons hp, Option.map_map,
          Option.map_map]
        congr 1
        funext p
        simp [nodesFrom, levelAfter_of_not_paren hp]

theorem splitGroup_eq {depth : ℕ} (h : splitGroup depth ls = some (body, rest)) :
    ls = body ++ .closing :: rest := by
  fun_induction splitGroup depth ls generalizing body with
  | case1 => cases h
  | case2 depth ls ih | case4 ls d ih | case5 depth l ls h1 h2 ih =>
    obtain ⟨p, hp, he⟩ := map_eq_some_iff.mp h
    cases he
    exact congrArg _ (ih hp)
  | case3 ls =>
    cases h
    rfl

end QFilterLevels
