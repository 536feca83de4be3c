import OrionLd.StringFilter

/-! strSplit, for the header with the scopes. The limit is looked at behind the writes: one part
too many is stored past the end of the vector, and reported as if it had fitted. -/
namespace StrSplit

open List
open KjTree (Text)
open StringFilter (wsStrip)

structure Split where
  /-- The items that are stored, with their indexes. -/
  outV : List (Text × ℕ)
  items : ℤ

def strSplitLoop (delimiter : Char) (outMaxItems : ℕ) (start : Text) (outV : List (Text × ℕ))
    (outIx : ℕ) : Text → Split
  | [] => ⟨outV ++ [(wsStrip start, outIx)], outIx + 1⟩
  | c :: s =>
    if c = delimiter then
      let outV := outV ++ [(wsStrip start, outIx)]
      if outIx + 1 > outMaxItems then ⟨outV, -1⟩
      else strSplitLoop delimiter outMaxItems [] outV (outIx + 1) s
    else strSplitLoop delimiter outMaxItems (start ++ [c]) outV outIx s

def strSplit (s : Option Text) (delimiter : Char) (outMaxItems : ℕ) : Split :=
  match s with
  | none | some [] => ⟨[], 0⟩
  | some s => strSplitLoop delimiter outMaxItems [] [] 0 s

def parts (delimiter : Char) (s : Text) : List Text := if s = [] then [] else s.splitOn delimiter

structure Faithful (s : Text) (delimiter : Char) (outMaxItems : ℕ) (r : Split) : Prop where
  within : ∀ item ∈ r.outV, item.2 < outMaxItems
  refused : r.items = -1 ↔ outMaxItems < (parts delimiter s).length
  stored : r.items ≠ -1 → r.items = (parts delimiter s).length ∧
    r.outV = ((parts delimiter s).map wsStrip).zipIdx

variable {delimiter : Char} {outMaxItems outIx : ℕ} {start s : Text} {outV : List (Text × ℕ)}

/-- One item more than there is room for is stored before the loop gives up. -/
theorem strSplitLoop_eq (hstart : delimiter ∉ start) (hix : outIx ≤ outMaxItems) :
    strSplitLoop delimiter outMaxItems start outV outIx s =
      let parts := (start ++ s).splitOn delimiter
      ⟨outV ++ ((parts.map wsStrip).take (outMaxItems + 1 - outIx)).zipIdx outIx,
        if outIx + parts.length ≤ outMaxItems + 1 then (outIx + parts.length : ℕ) else -1⟩ := by
  induction s generalizing start outV outIx with
  | nil =>
    obtain ⟨room, hroom⟩ : ∃ room, outMaxItems + 1 - outIx = room + 1 :=
      ⟨outMaxItems - outIx, by omega⟩
    rw [append_nil, splitOn_eq_singleton hstart, hroom]
    simp [strSplitLoop, hix]
  | cons c s ih =>
    unfold strSplitLoop
    split
    · next hc =>
      subst hc
      rw [splitOn_append_cons_self_of_not_mem hstart]
      split
      · next hfull =>
        have hne : 0 < (s.splitOn c).length := length_pos_iff.mpr (splitOn_ne_nil _ _)
        obtain rfl : outIx = outMaxItems := by omega
        simp [show ¬ outIx + ((s.splitOn c).length + 1) ≤ outIx + 1 by omega]
      · obtain ⟨room, hroom⟩ : ∃ room, outMaxItems + 1 - outIx = room + 1 :=
          ⟨outMaxItems - outIx, by omega⟩
        rw [ih not_mem_nil (by omega), hroom, show outMaxItems + 1 - (outIx + 1) = room by omega]
        dsimp only
        rw [length_cons, ← Nat.add_right_comm]
        simp [Nat.add_assoc]
    · next hc =>
      rw [ih (by simpa [hstart] using Ne.symm hc) hix, append_assoc, singleton_append]

/-- The parts are stored as they should be if and only if there are no more of them than items. -/
theorem faithful_iff (s : Text) (delimiter : Char) (outMaxItems : ℕ) :
    Faithful s delimiter outMaxItems (strSplit s delimiter outMaxItems) ↔
      (parts delimiter s).length ≤ outMaxItems := by
  by_cases hs : s = []
  · subst hs
    exact iff_of_true ⟨nofun, iff_of_false nofun nofun, fun _ => ⟨rfl, rfl⟩⟩ (Nat.zero_le _)
  have hsplit : strSplit s delimiter outMaxItems =
      strSplitLoop delimiter outMaxItems [] [] 0 s := by
    unfold strSplit
    split <;> simp_all
  have hparts : parts delimiter s = s.splitOn delimiter := if_neg hs
  rw [hsplit, strSplitLoop_eq not_mem_nil (Nat.zero_le _)]
  simp only [nil_append, Nat.sub_zero, zero_add, ← hparts]
  constructor
  · intro h
    by_contra hmore
    have hlast : ((parts delimiter s).map wsStrip)[outMaxItems]? ≠ none := by
      simpa using hmore
    obtain ⟨item, hitem⟩ := Option.ne_none_iff_exists'.mp hlast
    have hstored := h.within (item, outMaxItems) (by
      rw [mem_zipIdx_iff_getElem?, getElem?_take_of_lt (by omega), hitem])
    exact absurd hstored (lt_irrefl _)
  · intro h
    have hroom : ((parts delimiter s).map wsStrip).length ≤ outMaxItems + 1 := by
      rw [length_map]
      omega
    rw [take_of_length_le hroom, if_pos (by omega)]
    refine ⟨?_, ?_, ?_⟩
    · intro item hitem
      have hlt := snd_lt_of_mem_zipIdx hitem
      rw [length_map] at hlt
      omega
    · dsimp only
      omega
    · intro _
      exact ⟨rfl, rfl⟩

theorem eleventh_part_stored : ¬ ∀ s delimiter outMaxItems, 1 ≤ outMaxItems →
    Faithful s delimiter outMaxItems (strSplit s delimiter outMaxItems) := by
  intro h
  exact absurd ((h "a,b,c,d,e,f,g,h,i,j,k".toList ',' 10 (by decide)).within ("k".toList, 10)
    (by decide)) (by decide)

end StrSplit
