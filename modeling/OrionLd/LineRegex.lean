import Mathlib.Data.List.Infix

/-! Regular expressions that are alternatives of characters and anchors, in the syntax of PCRE. One
with any other operator is not read here. A text is searched for a match, and the anchor of the end
also matches before a last end of line. -/
namespace LineRegex

open List

inductive Piece where
  | start
  | stop
  | char (c : Char)
  deriving DecidableEq, Repr

abbrev Pattern := List (List Piece)

def otherOperators : List Char := ".*+?()[]{}".toList

def addFront (p : Piece) : Pattern → Pattern
  | [] => [[p]]
  | alt :: alts => (p :: alt) :: alts

def parse : List Char → Option Pattern
  | [] => some [[]]
  | '|' :: cs => (parse cs).map ([] :: ·)
  | '^' :: cs => (parse cs).map (addFront .start)
  | '$' :: cs => (parse cs).map (addFront .stop)
  | '\\' :: c :: cs => if c.isAlphanum then none else (parse cs).map (addFront (.char c))
  | '\\' :: [] => none
  | c :: cs => if c ∈ otherOperators then none else (parse cs).map (addFront (.char c))

def matchHere : List Piece → Bool → List Char → Bool
  | [], _, _ => true
  | .start :: ps, atStart, s => atStart && matchHere ps atStart s
  | .stop :: ps, atStart, s => (s == [] || s == ['\n']) && matchHere ps atStart s
  | .char _ :: _, _, [] => false
  | .char c :: ps, _, d :: s => c == d && matchHere ps false s

def search (alts : Pattern) : Bool → List Char → Bool
  | atStart, [] => alts.any fun alt => matchHere alt atStart []
  | atStart, c :: s => (alts.any fun alt => matchHere alt atStart (c :: s)) || search alts false s

def Matches (regex s : List Char) : Prop :=
  ∃ alts, parse regex = some alts ∧ search alts true s = true

def Plain (c : Char) : Prop := c ∉ otherOperators ∧ c ∉ "|^$\\".toList

theorem parse_plain {c : Char} (h : Plain c) (cs : List Char) :
    parse (c :: cs) = (parse cs).map (addFront (.char c)) := by
  obtain ⟨hother, hspecial⟩ := h
  have hne : c ≠ '|' ∧ c ≠ '^' ∧ c ≠ '$' ∧ c ≠ '\\' := by
    refine ⟨?_, ?_, ?_, ?_⟩ <;> rintro rfl <;> exact hspecial (by decide)
  obtain ⟨hbar, hstart, hstop, hescape⟩ := hne
  rw [parse, if_neg hother]
  · exact hbar
  · exact hstart
  · exact hstop
  · exact fun _ _ he => absurd he hescape
  · exact fun he => absurd he hescape

def addText (w : List Char) (alts : Pattern) : Pattern :=
  w.foldr (fun c alts => addFront (.char c) alts) alts

theorem addText_cons (w : List Char) (alt : List Piece) (alts : Pattern) :
    addText w (alt :: alts) = (w.map .char ++ alt) :: alts := by
  induction w with
  | nil => rfl
  | cons c w ih =>
    rw [addText, foldr_cons, ← addText, ih]
    rfl

/-- A part of an expression that is read as the characters of a text. -/
def Spells (t w : List Char) : Prop := ∀ cs, parse (t ++ cs) = (parse cs).map (addText w)

theorem Spells.nil : Spells [] [] := by
  intro cs
  rw [nil_append, show addText [] = id from rfl, Option.map_id]
  rfl

variable {t w : List Char}

theorem Spells.append {t' w' : List Char} (h : Spells t w) (h' : Spells t' w') :
    Spells (t ++ t') (w ++ w') := by
  intro cs
  rw [append_assoc, h, h', Option.map_map]
  congr 1
  funext alts
  simp [addText, foldr_append]

theorem Spells.plain (h : ∀ c ∈ w, Plain c) : Spells w w := by
  induction w with
  | nil => exact Spells.nil
  | cons c w ih =>
    obtain ⟨hc, hw⟩ := forall_mem_cons.mp h
    intro cs
    rw [cons_append, parse_plain hc, ih hw, Option.map_map]
    rfl

theorem Spells.escaped {c : Char} (h : c.isAlphanum = false) : Spells ['\\', c] [c] := by
  intro cs
  rw [cons_append, cons_append, nil_append, parse, h]
  rfl

theorem Spells.flatMap {t w : List Char → List Char} {parts : List (List Char)}
    (h : ∀ p ∈ parts, Spells (t p) (w p)) : Spells (parts.flatMap t) (parts.flatMap w) := by
  induction parts with
  | nil => exact Spells.nil
  | cons p parts ih =>
    obtain ⟨hp, hparts⟩ := forall_mem_cons.mp h
    exact hp.append (ih hparts)

def exactly (w : List Char) : List Piece := .start :: (w.map .char ++ [.stop])

theorem parse_exactly (h : Spells t w) : parse ('^' :: t ++ ['$']) = some [exactly w] := by
  have htext := h ['$']
  rw [show parse ['$'] = some [[.stop]] from rfl, Option.map_some, addText_cons] at htext
  rw [cons_append, parse, htext]
  rfl

theorem parse_exactly_or (h : Spells t w) (cs : List Char) :
    parse ('^' :: t ++ '$' :: '|' :: cs) = (parse cs).map (exactly w :: ·) := by
  have htext := h ('$' :: '|' :: cs)
  rw [parse, parse, Option.map_map, Option.map_map] at htext
  rw [cons_append, parse, htext, Option.map_map]
  congr 1
  funext alts
  simp [addFront, addText_cons, exactly]

theorem parse_alternatives (h : Spells t w) {ts ws : List (List Char)}
    (hs : List.Forall₂ Spells ts ws) :
    parse ('^' :: t ++ '$' :: ts.flatMap fun t => "|^".toList ++ t ++ ['$']) =
      some ((w :: ws).map exactly) := by
  induction hs generalizing t w with
  | nil => exact parse_exactly h
  | @cons t' w' ts ws h' _ ih =>
    have hrest := ih h'
    have htext : ('^' :: t ++ '$' :: (t' :: ts).flatMap fun t => "|^".toList ++ t ++ ['$']) =
        '^' :: t ++ '$' :: '|' :: ('^' :: t' ++
          '$' :: ts.flatMap fun t => "|^".toList ++ t ++ ['$']) := by
      simp
    rw [htext, parse_exactly_or h, hrest]
    rfl

variable {alts : Pattern} {s : List Char}

theorem search_append (alts alts' : Pattern) (atStart : Bool) (s : List Char) :
    search (alts ++ alts') atStart s = (search alts atStart s || search alts' atStart s) := by
  induction s generalizing atStart with
  | nil => simp [search]
  | cons c s ih =>
    simp only [search, ih, any_append]
    ac_rfl

theorem search_iff (alts : Pattern) (atStart : Bool) (s : List Char) :
    search alts atStart s = true ↔ ∃ alt ∈ alts, search [alt] atStart s = true := by
  induction alts with
  | nil =>
    refine iff_of_false (fun h => ?_) (by simp)
    induction s generalizing atStart with
    | nil => simp [search] at h
    | cons c s ih =>
      exact ih false h
  | cons alt alts ih =>
    rw [show alt :: alts = [alt] ++ alts from rfl, search_append, Bool.or_eq_true, ih]
    simp

theorem search_start (ps : List Piece) (s : List Char) :
    search [.start :: ps] true s = matchHere ps true s := by
  have hlater (s : List Char) : search [.start :: ps] false s = false := by
    induction s with
    | nil => rfl
    | cons c s ih => simp [search, matchHere, ih]
  cases s with
  | nil => simp [search, matchHere]
  | cons c s => simp [search, matchHere, hlater]

theorem matchHere_whole (w : List Char) (atStart : Bool) (s : List Char) :
    matchHere (w.map .char ++ [.stop]) atStart s = true ↔ s = w ∨ s = w ++ ['\n'] := by
  induction w generalizing atStart s with
  | nil => simp [matchHere]
  | cons c w ih =>
    cases s with
    | nil => simp [matchHere]
    | cons d s =>
      rw [map_cons, cons_append, matchHere, Bool.and_eq_true, beq_iff_eq, ih]
      constructor
      · rintro ⟨rfl, rfl | rfl⟩
        · exact .inl rfl
        · exact .inr rfl
      · rintro (h | h)
        · cases h
          exact ⟨rfl, .inl rfl⟩
        · cases h
          exact ⟨rfl, .inr rfl⟩

theorem search_exactly (h : '\n' ∉ s) : search [exactly w] true s = true ↔ s = w := by
  rw [exactly, search_start, matchHere_whole]
  refine or_iff_left ?_
  rintro rfl
  exact h (by simp)

theorem search_texts {texts : List (List Char)} (h : '\n' ∉ s) :
    search (texts.map exactly) true s = true ↔ s ∈ texts := by
  rw [search_iff]
  constructor
  · rintro ⟨alt, halt, hs⟩
    obtain ⟨w, hw, rfl⟩ := mem_map.mp halt
    rwa [(search_exactly h).mp hs]
  · intro hs
    exact ⟨exactly s, mem_map_of_mem hs, (search_exactly h).mpr rfl⟩

end LineRegex
