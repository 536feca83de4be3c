import OrionLd.QFilterGrammar

/-! Sentences of the q grammar among the token lists of qLex. A lexeme is a token without its
parenthesis level. -/
namespace QFilterSentence

open QFilterLex QFilterParse QFilterGrammar

inductive Lexeme where
  | opening
  | closing
  | separator (sep : Separator)
  | negation
  | compare (op : CompareOp)
  | matching (op : MatchOp)
  | comma
  | range
  | named (path : Text)
  | literal (a : Literal)
  | regexp (re : Text)
  deriving DecidableEq, Repr

def Lexeme.node (level : ℤ) : Lexeme → QNode
  | .opening => qNode .qOpen (.level level)
  | .closing => qNode .qClose (.level (level - 1))
  | .separator sep => sep.node
  | .negation => qNode .qNotExists .unset
  | .compare op => qNode op.type .unset
  | .matching op => qNode op.type .unset
  | .comma => qNode .qComma .unset
  | .range => qNode .qRange .unset
  | .named path => variableNode path
  | .literal a => a.node
  | .regexp re => qNode .qRegexpValue (.re re)

def readLexeme : QNode → Option Lexeme
  | .mk .qOpen (.level _) [] => some .opening
  | .mk .qClose (.level _) [] => some .closing
  | .mk .qAnd .unset [] => some (.separator .and)
  | .mk .qOr .unset [] => some (.separator .or)
  | .mk .qNotExists .unset [] => some .negation
  | .mk .qEQ .unset [] => some (.compare .eq)
  | .mk .qNE .unset [] => some (.compare .ne)
  | .mk .qGE .unset [] => some (.compare .ge)
  | .mk .qGT .unset [] => some (.compare .gt)
  | .mk .qLE .unset [] => some (.compare .le)
  | .mk .qLT .unset [] => some (.compare .lt)
  | .mk .qMatch .unset [] => some (.matching .does)
  | .mk .qNoMatch .unset [] => some (.matching .doesNot)
  | .mk .qComma .unset [] => some .comma
  | .mk .qRange .unset [] => some .range
  | .mk .qVariable (.v (some path)) [] => some (.named path)
  | .mk .qIntegerValue (.i n) [] => some (.literal (.int n))
  | .mk .qFloatValue (.f x) [] => some (.literal (.float x))
  | .mk .qStringValue (.s text) [] => some (.literal (.str text))
  | .mk .qTrueValue .unset [] => some (.literal .yes)
  | .mk .qFalseValue .unset [] => some (.literal .no)
  | .mk .qRegexpValue (.re re) [] => some (.regexp re)
  | _ => none

theorem readLexeme_node (level : ℤ) (l : Lexeme) : readLexeme (l.node level) = some l := by
  cases l with
  | separator sep => cases sep <;> rfl
  | compare op => cases op <;> rfl
  | matching op => cases op <;> rfl
  | literal a => cases a <;> rfl
  | _ => rfl

def Lexeme.levelAfter (level : ℤ) : Lexeme → ℤ
  | .opening => level + 1
  | .closing => level - 1
  | _ => level

def endLevel (level : ℤ) : List Lexeme → ℤ
  | [] => level
  | l :: ls => endLevel (l.levelAfter level) ls

def nodesFrom (level : ℤ) : List Lexeme → List QNode
  | [] => []
  | l :: ls => l.node level :: nodesFrom (l.levelAfter level) ls

theorem endLevel_append (level : ℤ) (ls ms : List Lexeme) :
    endLevel level (ls ++ ms) = endLevel (endLevel level ls) ms := by
  induction ls generalizing level with
  | nil => rfl
  | cons l ls ih => exact ih _

theorem nodesFrom_append (level : ℤ) (ls ms : List Lexeme) :
    nodesFrom level (ls ++ ms) = nodesFrom level ls ++ nodesFrom (endLevel level ls) ms := by
  induction ls generalizing level with
  | nil => rfl
  | cons l ls ih => exact congrArg (l.node level :: ·) (ih _)

@[simp] theorem nodesFrom_length (level : ℤ) (ls : List Lexeme) :
    (nodesFrom level ls).length = ls.length := by
  induction ls generalizing level with
  | nil => rfl
  | cons l ls ih => simp [nodesFrom, ih]

theorem readLexeme_nodesFrom (level : ℤ) (ls : List Lexeme) :
    (nodesFrom level ls).map readLexeme = ls.map some := by
  induction ls generalizing level with
  | nil => rfl
  | cons l ls ih => simp [nodesFrom, readLexeme_node, ih]

/-- The tokens pushed so far are lexemes numbered with the running level. -/
def Numbered (st : LexState) : Prop :=
  ∃ ls, st.tokens = nodesFrom 0 ls ∧ st.level = endLevel 0 ls

variable {st : LexState} {env : LexEnv} {s : Text}

theorem Numbered.push (h : Numbered st) {l : Lexeme} (hl : l.levelAfter st.level = st.level) :
    Numbered (st.push (l.node st.level)) := by
  obtain ⟨ls, ht, hlevel⟩ := h
  refine ⟨ls ++ [l], ?_, ?_⟩
  · rw [nodesFrom_append, ← hlevel, LexState.push, ht]
    rfl
  · rw [endLevel_append, ← hlevel]
    exact hl.symm

theorem Numbered.keep (h : Numbered st) (c : Char) : Numbered (st.keep c) := by
  unfold LexState.keep
  split_ifs
  · exact h
  · exact h

theorem termNode_lexeme (env : LexEnv) (term : Text) (level : ℤ) :
    ∃ l : Lexeme, termNode env term = l.node level ∧ l.levelAfter level = level := by
  unfold termNode
  split_ifs
  · exact ⟨.regexp (term.drop 3), rfl, rfl⟩
  · exact ⟨.literal .yes, rfl, rfl⟩
  · exact ⟨.literal .no, rfl, rfl⟩
  · split
    · exact ⟨.literal (.int _), rfl, rfl⟩
    · exact ⟨.literal (.float _), rfl, rfl⟩
    · exact ⟨.named term, rfl, rfl⟩

theorem Numbered.qTermPush (h : Numbered st) : Numbered (qTermPush env st) := by
  obtain ⟨l, hl, hlevel⟩ := termNode_lexeme env (trimTerm st.term) st.level
  have hflag : Numbered { st with lastTermIsTimestamp := isTimestampName st } := h
  simp only [QFilterLex.qTermPush, hl]
  split_ifs
  · exact hflag
  · exact hflag.push hlevel

theorem Numbered.qQuotedPush (h : Numbered st) (content rest : Text) :
    Numbered (qQuotedPush env st content rest) := by
  have hstr : Numbered (st.push (qNode .qStringValue (.s content))) :=
    h.push (l := .literal (.str content)) rfl
  unfold QFilterLex.qQuotedPush
  split
  · split_ifs
    · exact h.push (l := .literal (.int _)) rfl
    · exact hstr
  · exact hstr

theorem opAt_lexeme {c : Char} {cs : Text} {type : QNodeType} {width : ℕ}
    (h : opAt c cs = some (type, width)) :
    type = .qOpen ∨ type = .qClose ∨ type ≠ .qOpen ∧ type ≠ .qClose ∧
      ∃ l : Lexeme, ∀ level, qNode type .unset = l.node level ∧ l.levelAfter level = level := by
  unfold opAt at h
  split_ifs at h <;> cases h
  all_goals first
    | exact .inl rfl
    | exact .inr (.inl rfl)
    | refine .inr (.inr ⟨nofun, nofun, ?_⟩)
  · exact ⟨.compare .le, fun _ => ⟨rfl, rfl⟩⟩
  · exact ⟨.compare .ge, fun _ => ⟨rfl, rfl⟩⟩
  · exact ⟨.compare .lt, fun _ => ⟨rfl, rfl⟩⟩
  · exact ⟨.compare .gt, fun _ => ⟨rfl, rfl⟩⟩
  · exact ⟨.compare .eq, fun _ => ⟨rfl, rfl⟩⟩
  · exact ⟨.separator .or, fun _ => ⟨rfl, rfl⟩⟩
  · exact ⟨.comma, fun _ => ⟨rfl, rfl⟩⟩
  · exact ⟨.range, fun _ => ⟨rfl, rfl⟩⟩
  · exact ⟨.matching .does, fun _ => ⟨rfl, rfl⟩⟩
  · exact ⟨.compare .ne, fun _ => ⟨rfl, rfl⟩⟩
  · exact ⟨.matching .doesNot, fun _ => ⟨rfl, rfl⟩⟩
  · exact ⟨.negation, fun _ => ⟨rfl, rfl⟩⟩
  · exact ⟨.separator .and, fun _ => ⟨rfl, rfl⟩⟩

theorem Numbered.qOpPush (h : Numbered st) {c : Char} {cs : Text} {type : QNodeType} {width : ℕ}
    (ho : opAt c cs = some (type, width)) : Numbered (qOpPush st type) := by
  rcases opAt_lexeme ho with rfl | rfl | ⟨hopen, hclose, l, hl⟩
  · obtain ⟨ls, ht, hlevel⟩ := h
    refine ⟨ls ++ [.opening], ?_, ?_⟩
    · rw [nodesFrom_append, ← ht, ← hlevel]
      rfl
    · rw [endLevel_append, ← hlevel]
      rfl
  · obtain ⟨ls, ht, hlevel⟩ := h
    refine ⟨ls ++ [.closing], ?_, ?_⟩
    · rw [nodesFrom_append, ← ht, ← hlevel]
      rfl
    · rw [endLevel_append, ← hlevel]
      rfl
  · obtain ⟨hn, hlevel⟩ := hl st.level
    have hclear : Numbered { st with before := [], term := [], cut := false } := h
    simp only [QFilterLex.qOpPush, hopen, hclose, if_false, hn]
    exact hclear.push hlevel

theorem lexLoop_numbered {mode : LexMode} (h : Numbered st) :
    Numbered (lexLoop env mode st s).1 := by
  fun_induction lexLoop env mode st s with
  | case1 st => exact h.qTermPush
  | case2 st c cs type width ho ih => exact ih (h.qTermPush.qOpPush ho)
  | case3 st cs ho ih => exact ih h
  | case4 st c cs ho hq hr ih => exact ih (h.keep c)
  | case5 st c cs ho hq hr ih => exact ih (h.keep c)
  | case6 n st => exact h
  | case7 n st c cs ih => exact ih h
  | case8 n st => exact h
  | case9 n st c cs ih => exact ih (h.keep c)
  | case10 depth prev st => exact h
  | case11 depth prev st c cs hd ih => exact ih h
  | case12 depth prev st c cs hd ih => exact ih (h.keep c)
  | case13 content st => exact h
  | case14 content st cs ih => exact ih (h.qQuotedPush content cs)
  | case15 content st c cs hq ih => exact ih h

theorem qLex_done {lex : LexEnv} {tokens : List QNode} (h : qLex lex s = .done tokens) :
    ∃ ls, tokens = nodesFrom 0 ls ∧ ls ≠ [] ∧ qLexCheck tokens = none ∧
      tokens.length ≤ qNodeSize := by
  have hnum : Numbered (lexLoop lex .plain (lexStart lex) s).1 := lexLoop_numbered ⟨[], rfl, rfl⟩
  unfold qLex at h
  split at h
  · split_ifs at h
  rename_i st hrun
  rw [hrun] at hnum
  split_ifs at h with hsize hempty
  split at h
  · cases h
  rename_i hcheck
  cases h
  obtain ⟨ls, ht, -⟩ := hnum
  refine ⟨ls, ht, ?_, hcheck, by omega⟩
  rintro rfl
  exact hempty ht

def rhsLexemes : Rhs → List Lexeme
  | .value a => [.literal a]
  | .range lower upper => [.literal lower, .range, .literal upper]
  | .list first second rest =>
    .literal first :: (second :: rest).flatMap fun a => [.comma, .literal a]

mutual
def operandLexemes : Operand → List Lexeme
  | .group sep first rest =>
    .opening :: (operandLexemes first ++ moreLexemes sep rest ++ [.closing])
  | .negated path => [.negation, .named path]
  | .bare path => [.named path]
  | .compare path op rhs => .named path :: .compare op :: rhsLexemes rhs
  | .regexp path op re => [.named path, .matching op, .regexp re]
def moreLexemes (sep : Separator) : List Operand → List Lexeme
  | [] => []
  | o :: os => .separator sep :: (operandLexemes o ++ moreLexemes sep os)
end

def levelLexemes (sep : Separator) (first : Operand) (rest : List Operand) : List Lexeme :=
  operandLexemes first ++ moreLexemes sep rest

def exprLexemes (e : Expr) : List Lexeme := levelLexemes e.sep e.first e.rest

def Derives (e : Expr) (tokens : List QNode) : Prop :=
  tokens.map readLexeme = (exprLexemes e).map some

theorem comma_nodes (level : ℤ) (items : List Literal) :
    nodesFrom level (items.flatMap fun a => [.comma, .literal a]) = commaTokens items ∧
      endLevel level (items.flatMap fun a => [.comma, .literal a]) = level := by
  induction items with
  | nil => exact ⟨rfl, rfl⟩
  | cons a items ih =>
    simp only [List.flatMap_cons, List.cons_append, List.nil_append, nodesFrom, endLevel,
      Lexeme.levelAfter, ih, commaTokens, and_true]
    rfl

theorem rhs_nodes (level : ℤ) (r : Rhs) :
    nodesFrom level (rhsLexemes r) = r.tokens ∧ endLevel level (rhsLexemes r) = level := by
  cases r with
  | value a => exact ⟨rfl, rfl⟩
  | range lower upper => exact ⟨rfl, rfl⟩
  | list first second rest =>
    obtain ⟨h1, h2⟩ := comma_nodes level (second :: rest)
    exact ⟨congrArg (first.node :: ·) h1, h2⟩

mutual
theorem operand_nodes (level : ℤ) (o : Operand) :
    nodesFrom level (operandLexemes o) = o.tokens level ∧
      endLevel level (operandLexemes o) = level := by
  cases o with
  | group sep first rest =>
    obtain ⟨h1, h2⟩ := operand_nodes (level + 1) first
    obtain ⟨h3, h4⟩ := more_nodes (level + 1) sep rest
    constructor
    · simp only [operandLexemes, Operand.tokens, nodesFrom, Lexeme.levelAfter,
        nodesFrom_append, endLevel_append, h1, h2, h3, h4]
      simp [Lexeme.node]
    · simp only [operandLexemes, endLevel, Lexeme.levelAfter, endLevel_append, h2, h4]
      omega
  | negated path => exact ⟨by simp [operandLexemes, Operand.tokens, nodesFrom, Lexeme.node],
      by simp [operandLexemes, endLevel, Lexeme.levelAfter]⟩
  | bare path => exact ⟨by simp [operandLexemes, Operand.tokens, nodesFrom, Lexeme.node],
      by simp [operandLexemes, endLevel, Lexeme.levelAfter]⟩
  | compare path op rhs =>
    obtain ⟨h1, h2⟩ := rhs_nodes level rhs
    constructor
    · simp only [operandLexemes, Operand.tokens, nodesFrom, Lexeme.levelAfter, Lexeme.node, h1]
    · simp only [operandLexemes, endLevel, Lexeme.levelAfter, h2]
  | regexp path op re =>
    exact ⟨by simp [operandLexemes, Operand.tokens, nodesFrom, Lexeme.node],
      by simp [operandLexemes, endLevel, Lexeme.levelAfter]⟩
theorem more_nodes (level : ℤ) (sep : Separator) (os : List Operand) :
    nodesFrom level (moreLexemes sep os) = moreTokens level sep os ∧
      endLevel level (moreLexemes sep os) = level := by
  cases os with
  | nil => exact ⟨by simp [moreLexemes, moreTokens, nodesFrom], by simp [moreLexemes, endLevel]⟩
  | cons o os =>
    obtain ⟨h1, h2⟩ := operand_nodes level o
    obtain ⟨h3, h4⟩ := more_nodes level sep os
    constructor
    · simp only [moreLexemes, moreTokens, nodesFrom, Lexeme.levelAfter, Lexeme.node,
        nodesFrom_append, h1, h2, h3]
    · simp only [moreLexemes, endLevel, Lexeme.levelAfter, endLevel_append, h2, h4]
end

theorem levelLexemes_nodes (level : ℤ) (sep : Separator) (first : Operand)
    (rest : List Operand) :
    nodesFrom level (levelLexemes sep first rest) = levelTokens level sep first rest := by
  obtain ⟨h1, h2⟩ := operand_nodes level first
  obtain ⟨h3, -⟩ := more_nodes level sep rest
  rw [levelLexemes, levelTokens, nodesFrom_append, h1, h2, h3]

theorem derives_iff {e : Expr} {ls : List Lexeme} :
    Derives e (nodesFrom 0 ls) ↔ ls = exprLexemes e := by
  unfold Derives
  rw [readLexeme_nodesFrom]
  exact (List.map_injective_iff.mpr (fun _ _ => Option.some.inj)).eq_iff

theorem derives_tokens {e : Expr} {lex : LexEnv} {tokens : List QNode}
    (h : qLex lex s = .done tokens) (he : Derives e tokens) : tokens = e.tokens := by
  obtain ⟨ls, rfl, -⟩ := qLex_done h
  rw [derives_iff.mp he]
  exact levelLexemes_nodes 0 e.sep e.first e.rest

/-- The front end on a sentence: its whole tree comes out exactly when no bare variable is
followed by another operand of its level, and no range or list mixes types. -/
theorem qFilter_tree_iff {lex : LexEnv} {names : NameEnv} {s : Text} {tokens : List QNode}
    {e : Expr} (hlex : qLex lex s = .done tokens) (he : Derives e tokens)
    (hn : e.EveryLevel Narrow) (hpool : e.nodeDemand ≤ qNodeSize) :
    qFilter lex names s = .done (e.tree names) ↔ e.EveryLevel Readable := by
  have ht := derives_tokens hlex he
  obtain ⟨u, hu, hp⟩ := qParse_run names e hn tokens.length
  have hroom : ¬ qNodeSize < u := by
    have hd : e.nodeDemand = e.tokens.length + levelAlloc e.first e.rest := rfl
    rw [ht] at hu
    omega
  have hq : qFilter lex names s = levelOutcome names e.sep e.first e.rest := by
    rw [ht] at hp
    simp only [qFilter, hlex, ht, hp, hroom, if_false]
  rw [hq, levelOutcome_tree_iff]

def decimalDigits (text : Text) : ℤ :=
  (text.takeWhile isDigit).foldl (fun n c => 10 * n + (c.toNat - '0'.toNat : ℕ)) 0

def sampleLex : LexEnv := ⟨fun _ => none, decimalDigits, fun text => decimalDigits text, []⟩

def defaultUrl : Text := "https://uri.etsi.org/ngsi-ld/default-context/".toList

def sampleNames : NameEnv := ⟨(defaultUrl ++ ·), (defaultUrl ++ ·)⟩

def comparedThenBare : Expr :=
  ⟨.and, .compare "A".toList .eq (.value (.int 1)), [.bare "B".toList]⟩

theorem qFilter_tree_compared_then_bare :
    qFilter sampleLex sampleNames "A==1;B".toList =
      .done (comparedThenBare.tree sampleNames) := by
  have hlex : qLex sampleLex "A==1;B".toList = .done comparedThenBare.tokens := by decide
  have hspelt : Derives comparedThenBare comparedThenBare.tokens := rfl
  refine (qFilter_tree_iff hlex hspelt ⟨?_, trivial, trivial, trivial⟩ (by decide)).mpr
    ⟨⟨?_, ?_⟩, trivial, trivial, trivial⟩
  · simp [Narrow, comparedThenBare, qNodeVSize]
  · simp [BareLast, comparedThenBare, Operand.IsBare]
  · simp [Homogeneous, comparedThenBare, Operand.SameTypes, Rhs.SameTypes]

def bareTwice : Expr := ⟨.and, .bare "A".toList, [.bare "B".toList]⟩

theorem bare_variable_dropped :
    qLex sampleLex "A;B".toList = .done bareTwice.tokens ∧ Derives bareTwice bareTwice.tokens ∧
    bareTwice.EveryLevel Narrow ∧ bareTwice.nodeDemand ≤ qNodeSize ∧
    qFilter sampleLex sampleNames "A;B".toList =
      .done (.mk .qAnd .unset [(Operand.bare "B".toList).tree sampleNames]) ∧
    qFilter sampleLex sampleNames "A;B".toList ≠ .done (bareTwice.tree sampleNames) := by
  refine ⟨by decide, rfl, ⟨?_, trivial, trivial, trivial⟩, by decide, by decide, by decide⟩
  simp [Narrow, bareTwice, qNodeVSize]

end QFilterSentence
