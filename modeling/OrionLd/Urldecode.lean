import OrionLd.KjTree

/-! The percent decoding of pcheckQ, which reads and writes the same string. A percent sign that
starts no escape is not written: what stands at its new place stays there. -/
namespace Urldecode

open List
open KjTree (Text)

/-- The second loop. The string ends where there is no byte left. -/
def decodeLoop (str : Text) (fromIx toIx : ℕ) : Text :=
  if h : fromIx < str.length then
    if str[fromIx] = '%' then
      if str[fromIx + 1]? = '2' ∧ str[fromIx + 2]? = '2' then
        decodeLoop (str.set toIx '"') (fromIx + 3) (toIx + 1)
      else decodeLoop str (fromIx + 1) (toIx + 1)
    else decodeLoop (str.set toIx str[fromIx]) (fromIx + 1) (toIx + 1)
  else str.take toIx
termination_by str.length - fromIx
decreasing_by all_goals grind

def urldecode (str : Text) : Text :=
  decodeLoop str (str.findIdx (· = '%')) (str.findIdx (· = '%'))

def decoded : Text → Text
  | '%' :: '2' :: '2' :: s => '"' :: decoded s
  | c :: s => c :: decoded s
  | [] => []

def escapes : Text → ℕ
  | '%' :: '2' :: '2' :: s => escapes s + 1
  | _ :: s => escapes s
  | [] => 0

/-- Where a percent sign that starts no escape is to be written, there is one. -/
def Restored (tail rest : Text) : Prop :=
  ∀ before after, rest = before ++ '%' :: after → ¬ ['2', '2'] <+: after →
    tail[before.length - 2 * escapes before]? = '%'

variable {s rest written tail : Text} {c x : Char} {d : ℕ}

theorem escapes_le (s : Text) : 3 * escapes s ≤ s.length := by
  fun_induction escapes s <;> simp only [length_cons, length_nil] <;> omega

theorem restored_escape : Restored (x :: tail) ('%' :: '2' :: '2' :: s) ↔ Restored tail s := by
  have hplace (before : Text) : (before.length + 3) - 2 * (escapes before + 1) =
      before.length - 2 * escapes before + 1 := by
    have hle := escapes_le before
    omega
  constructor
  · intro h before after hs hother
    have hlands := h ('%' :: '2' :: '2' :: before) after (by rw [hs]; rfl) hother
    rwa [escapes, length_cons, length_cons, length_cons, hplace, getElem?_cons_succ] at hlands
  · intro h before after hs hother
    match before with
    | [] =>
      cases hs
      exact absurd ⟨s, rfl⟩ hother
    | [_] => cases hs
    | [_, _] => cases hs
    | _ :: _ :: _ :: before =>
      cases hs
      rw [escapes, length_cons, length_cons, length_cons, hplace, getElem?_cons_succ]
      exact h before after rfl hother

theorem restored_cons (hother : c = '%' → ¬ ['2', '2'] <+: s) :
    Restored (x :: tail) (c :: s) ↔ (c = '%' → x = '%') ∧ Restored tail s := by
  have hplace {before after : Text} (hs : s = before ++ '%' :: after) :
      (c :: before).length - 2 * escapes (c :: before) =
        before.length - 2 * escapes before + 1 := by
    have hle := escapes_le before
    have hescapes : escapes (c :: before) = escapes before := by
      rw [escapes]
      rintro before' rfl rfl
      exact hother rfl ⟨before' ++ '%' :: after, hs.symm⟩
    rw [hescapes, length_cons]
    omega
  constructor
  · intro h
    refine ⟨?_, ?_⟩
    · rintro rfl
      simpa using h [] s rfl (hother rfl)
    · intro before after hs htwos
      have hlands := h (c :: before) after (by rw [hs]; rfl) htwos
      rwa [hplace hs, getElem?_cons_succ] at hlands
  · rintro ⟨hx, h⟩ before after hs htwos
    cases before with
    | nil =>
      cases hs
      exact congrArg some (hx rfl)
    | cons _ before =>
      cases hs
      rw [hplace rfl, getElem?_cons_succ]
      exact h before after rfl htwos

theorem read_ahead (h : (x :: tail).drop d = c :: rest) (i : ℕ) :
    (written ++ x :: tail)[written.length + d + i]? = (c :: rest)[i]? := by
  rw [← h, getElem?_drop, add_assoc, getElem?_append_right (by omega), Nat.add_sub_cancel_left]

theorem decodeLoop_step (h : (x :: tail).drop d = c :: rest) :
    decodeLoop (written ++ x :: tail) (written.length + d) written.length =
      if c = '%' ∧ ['2', '2'] <+: rest then
        decodeLoop (written ++ '"' :: tail) (written.length + d + 3) (written.length + 1)
      else decodeLoop (written ++ (if c = '%' then x else c) :: tail) (written.length + d + 1)
        (written.length + 1) := by
  have hread := @read_ahead rest written tail c x d h
  obtain ⟨hlt, hc⟩ := List.getElem?_eq_some_iff.mp (hread 0)
  have hescape : ((written ++ x :: tail)[written.length + d + 1]? = '2' ∧
      (written ++ x :: tail)[written.length + d + 2]? = '2') ↔ ['2', '2'] <+: rest := by
    rw [hread 1, hread 2]
    rcases rest with _ | ⟨a, _ | ⟨b, rest⟩⟩ <;> simp [@eq_comm _ '2']
  have hset (y : Char) : (written ++ x :: tail).set written.length y = written ++ y :: tail := by
    simp
  simp only [Nat.add_zero] at hlt hc
  rw [decodeLoop, dif_pos hlt]
  simp only [hc, hescape, hset]
  by_cases hpercent : c = '%' <;> by_cases htwos : ['2', '2'] <+: rest <;> simp [hpercent, htwos]

theorem written_kept {str : Text} {fromIx toIx : ℕ} :
    str.take toIx <+: decodeLoop str fromIx toIx := by
  fun_induction decodeLoop str fromIx toIx with
  | case1 _ _ _ _ _ _ ih =>
    rw [take_add_one, take_set_of_le le_rfl] at ih
    exact (prefix_append _ _).trans ih
  | case2 _ _ _ _ _ _ ih => exact (take_prefix_take_left (Nat.le_succ _)).trans ih
  | case3 _ _ _ _ _ ih =>
    rw [take_add_one, take_set_of_le le_rfl] at ih
    exact (prefix_append _ _).trans ih
  | case4 => exact prefix_rfl

/-- The tail is what has not been overwritten, and its first d bytes have been read. -/
theorem decodeLoop_iff (h : tail.drop d = rest) :
    decodeLoop (written ++ tail) (written.length + d) written.length = written ++ decoded rest ↔
      Restored tail rest := by
  fun_induction decoded rest generalizing written tail d with
  | case1 s ih =>
    obtain _ | ⟨x, tail⟩ := tail
    · simp at h
    have hrest : tail.drop (d + 2) = s := by
      simpa [drop_drop] using congrArg (drop 3) h
    have hstep := @ih (written ++ ['"']) tail (d + 2) hrest
    rw [length_append, append_assoc, append_assoc, singleton_append, singleton_append,
      length_singleton,
      show written.length + 1 + (d + 2) = written.length + d + 3 by omega] at hstep
    rw [decodeLoop_step h, if_pos ⟨rfl, ⟨s, rfl⟩⟩, hstep, restored_escape]
  | case2 c s hother ih =>
    obtain _ | ⟨x, tail⟩ := tail
    · simp at h
    have hrest : tail.drop d = s := by
      simpa [drop_drop] using congrArg (drop 1) h
    have hother : c = '%' → ¬ ['2', '2'] <+: s := fun hc ⟨s', hs'⟩ => hother s' hc hs'.symm
    have hstep (y : Char) := @ih (written ++ [y]) tail d hrest
    simp only [length_append, append_assoc, singleton_append, length_singleton,
      Nat.add_right_comm _ 1 d] at hstep
    rw [decodeLoop_step h, if_neg fun hboth => hother hboth.1 hboth.2, restored_cons hother]
    by_cases hx : c = '%' → x = '%'
    · have hwritten : (if c = '%' then x else c) = c := by
        split
        · next hc => rw [hx hc, hc]
        · rfl
      rw [hwritten, hstep c, and_iff_right hx]
    · push Not at hx
      -- the byte at the place of the percent sign is never written again
      refine iff_of_false ?_ fun hboth => hx.2 (hboth.1 hx.1)
      intro heq
      have hkept :=
        @written_kept (written ++ x :: tail) (written.length + d + 1) (written.length + 1)
      rw [if_pos hx.1] at heq
      rw [heq, hx.1, take_length_add_append, prefix_append_right_inj, take_succ_cons,
        cons_prefix_cons] at hkept
      exact hx.2 hkept.1
  | case3 =>
    rw [drop_eq_nil_iff] at h
    rw [decodeLoop, dif_neg (by rw [length_append]; omega), take_left, append_nil]
    refine iff_of_true rfl fun before after heq => ?_
    simp at heq

theorem decodeLoop_skip (h : '%' ∉ s) :
    decodeLoop (written ++ (s ++ rest)) written.length written.length =
      decodeLoop (written ++ (s ++ rest)) (written.length + s.length)
        (written.length + s.length) := by
  induction s generalizing written with
  | nil => rfl
  | cons c s ih =>
    obtain ⟨hc, hs⟩ := ne_and_not_mem_of_not_mem_cons h
    have hstep := @decodeLoop_step (s ++ rest) written (s ++ rest) c c 0 rfl
    rw [if_neg fun hboth => hc hboth.1.symm, if_neg hc.symm, Nat.add_zero] at hstep
    have hrest := @ih (written ++ [c]) hs
    rw [append_assoc, length_append, length_singleton, singleton_append] at hrest
    rw [cons_append, hstep, hrest, length_cons, Nat.add_right_comm, Nat.add_assoc]

/-- A string is decoded if and only if a percent sign is already at each place where one has
to be. -/
theorem urldecode_iff (s : Text) : urldecode s = decoded s ↔ Restored s s := by
  have hfrom : s.findIdx (· = '%') = (s.takeWhile (· ≠ '%')).length := by
    rw [takeWhile_eq_take_findIdx_not, length_take]
    simp [findIdx_le_length]
  have hskip := @decodeLoop_skip (s.takeWhile (· ≠ '%')) (s.dropWhile (· ≠ '%')) []
    fun hmem => by simpa using all_eq_true.mp all_takeWhile _ hmem
  rw [nil_append, takeWhile_append_dropWhile, length_nil, Nat.zero_add] at hskip
  have hloop := @decodeLoop_iff s [] s 0 rfl
  rw [urldecode, hfrom, ← hskip]
  exact hloop

theorem percent_lost : ¬ ∀ s, urldecode s = decoded s := by
  intro h
  have hlost : decodeLoop "%22%".toList 0 0 = decoded "%22%".toList := h "%22%".toList
  simp [decodeLoop, decoded] at hlost

end Urldecode
