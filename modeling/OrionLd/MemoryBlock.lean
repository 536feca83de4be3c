import Mathlib.Data.List.Basic

/-! Blocks of memory with strings that end in a zero. A byte that has never been written has no
value, and a result that is none stands for an access outside of the block, or a read of such a
byte. -/
namespace MemoryBlock

def nul : Char := '\x00'

abbrev Block := List (Option Char)

def fresh (size : ℕ) : Block := List.replicate size none

def write (block : Block) (offset : ℕ) (cs : List Char) : Option Block :=
  if offset + cs.length ≤ block.length then
    some (block.take offset ++ cs.map some ++ block.drop (offset + cs.length))
  else none

/-- The n characters that strncpy writes, the last ones being zeros when the string is shorter. -/
def strncpy : Block → ℕ → Option (List Char)
  | _, 0 => some []
  | some c :: block, n + 1 =>
    if c = nul then some (List.replicate (n + 1) nul) else (strncpy block n).map (c :: ·)
  | _, _ + 1 => none

def ofString (s : List Char) : Block := s.map some ++ [some nul]

def HoldsString (block : Block) (s : List Char) : Prop := ofString s <+: block

variable {block : Block} {s cs : List Char} {n : ℕ}

theorem length_ofString (s : List Char) : (ofString s).length = s.length + 1 := by
  simp [ofString]

@[simp] theorem length_fresh (size : ℕ) : (fresh size).length = size := List.length_replicate

theorem write_eq_some {offset : ℕ} {block' : Block} (h : write block offset cs = some block') :
    offset + cs.length ≤ block.length ∧
      block' = block.take offset ++ cs.map some ++ block.drop (offset + cs.length) := by
  unfold write at h
  split at h
  · rename_i hroom
    exact ⟨hroom, (Option.some.inj h).symm⟩
  · cases h

theorem length_write {offset : ℕ} {block' : Block} (h : write block offset cs = some block') :
    block'.length = block.length := by
  obtain ⟨hroom, rfl⟩ := write_eq_some h
  simp only [List.length_append, List.length_take, List.length_map, List.length_drop]
  omega

theorem strncpy_holds (h : HoldsString block s) (hs : nul ∉ s) :
    strncpy block n = some ((s ++ List.replicate (n - s.length) nul).take n) := by
  obtain ⟨rest, rfl⟩ := h
  induction s generalizing n with
  | nil =>
    cases n with
    | zero => rfl
    | succ n => simp [ofString, strncpy]
  | cons c s ih =>
    rw [List.mem_cons, not_or] at hs
    obtain ⟨hc, hs⟩ := hs
    cases n with
    | zero => simp [ofString, strncpy]
    | succ n =>
      have hrest := ih hs (n := n)
      simp only [ofString, List.map_cons, List.cons_append] at hrest ⊢
      rw [strncpy, if_neg (Ne.symm hc), hrest]
      simp

end MemoryBlock
