import OrionLd.MemoryBlock
import OrionLd.PgAttributeAppend

/-! The buffer of an SQL statement in memory: pgAppendInit and pgAppend with the bytes that they
write. Memory does not run out, and a result that is none stands for a write or a read outside
of a block, or for an int that overflows. -/
namespace PgAppend

open KjTree MemoryBlock List Option
open PgAttributeAppend (grownSize)

structure PgAppendBuffer where
  buf : Block
  bufSize : ℕ
  allocated : Bool
  currentIx : ℕ
  values : ℕ

structure Call where
  tail : Text
  tailLen : Int32
  cstring : nul ∉ tail
  whole : tailLen.toInt ≤ tail.length

def asInt (n : ℕ) : Option ℕ := if n < 2 ^ 31 then some n else none

/-- tailLen, or strlen as an int. A negative number of characters is a huge one for strncpy. -/
def Call.length (call : Call) : Option ℕ :=
  let n := if call.tailLen.toInt ≤ 0 then (Int32.ofNat call.tail.length).toInt
    else call.tailLen.toInt
  if 0 ≤ n then some n.toNat else none

def pgAppendInit (initSize : Int32) : Option PgAppendBuffer := do
  let buf ← write (fresh initSize.toInt.toNat) 0 [nul]
  some ⟨buf, initSize.toInt.toNat, false, 0, 0⟩

def moved (pgBuf : PgAppendBuffer) (size : ℕ) : Option Block := do
  let cs ← strncpy pgBuf.buf (pgBuf.currentIx + 1)
  write (fresh size) 0 cs

def realloc (buf : Block) (size : ℕ) : Block := buf ++ fresh (size - buf.length)

def grow (pgBuf : PgAppendBuffer) : Option PgAppendBuffer := do
  let size ← asInt (pgBuf.bufSize + 4 * 1024)
  if size < 16 * 1024 then
    let buf ← moved pgBuf size
    some { pgBuf with buf := buf, bufSize := size }
  else
    let size ← (if 32 * 1024 < size then asInt (size + 12 * 1024) else some size)
    let buf ← (if pgBuf.allocated then some (realloc pgBuf.buf size) else moved pgBuf size)
    some { pgBuf with buf := buf, bufSize := size, allocated := true }

def pgAppend (pgBuf : PgAppendBuffer) (call : Call) : Option PgAppendBuffer := do
  let tailLen ← call.length
  let endIx ← asInt (pgBuf.currentIx + tailLen)
  let pgBuf ← (if pgBuf.bufSize ≤ endIx then grow pgBuf else some pgBuf)
  let cs ← strncpy (ofString call.tail) tailLen
  let buf ← write pgBuf.buf pgBuf.currentIx cs
  let buf ← write buf endIx [nul]
  some { pgBuf with buf := buf, currentIx := endIx }

def run (initSize : Int32) (calls : List Call) : Option PgAppendBuffer := do
  let pgBuf ← pgAppendInit initSize
  calls.foldlM pgAppend pgBuf

def Call.text (call : Call) : Text :=
  if call.tailLen.toInt ≤ 0 then call.tail else call.tail.take call.tailLen.toInt.toNat

def textOf (calls : List Call) : Text := calls.flatMap Call.text

/-- The buffer holds the text and its zero, inside of the block. -/
structure Holds (pgBuf : PgAppendBuffer) (text : Text) : Prop where
  room : pgBuf.currentIx < pgBuf.bufSize
  block : pgBuf.buf.length = pgBuf.bufSize
  string : HoldsString pgBuf.buf text

/-- What the calls keep beside that. -/
structure Sound (pgBuf : PgAppendBuffer) (text : Text) : Prop extends Holds pgBuf text where
  index : pgBuf.currentIx = text.length
  int : pgBuf.bufSize < 2 ^ 31

def NothingLost (initSize : Int32) (calls : List Call) : Prop :=
  ∀ done, done <+: calls → ∃ pgBuf, run initSize done = some pgBuf ∧ Holds pgBuf (textOf done)

def sizeAfter (size endIx : ℕ) : ℕ := if size ≤ endIx then grownSize size else size

/-- A call that has room when the buffer has grown once. -/
structure StepFits (size ix : ℕ) (call : Call) : Prop where
  room : ix + call.text.length < sizeAfter size (ix + call.text.length)
  int : sizeAfter size (ix + call.text.length) < 2 ^ 31

def Fits : ℕ → ℕ → List Call → Prop
  | _, _, [] => True
  | size, ix, call :: calls =>
    StepFits size ix call ∧
      Fits (sizeAfter size (ix + call.text.length)) (ix + call.text.length) calls

variable {call : Call} {n : ℕ}

theorem asInt_eq_some {m : ℕ} : asInt n = some m ↔ n < 2 ^ 31 ∧ n = m := by
  unfold asInt
  split
  · rename_i h
    rw [some.injEq, and_iff_right h]
  · rename_i h
    exact iff_of_false nofun fun hboth => h hboth.1

theorem length_text (hint : call.text.length < 2 ^ 31) : call.length = some call.text.length := by
  have hwhole := call.whole
  unfold Call.length Call.text at *
  by_cases hzero : call.tailLen.toInt ≤ 0
  · rw [if_pos hzero] at hint ⊢
    have hofNat : (Int32.ofNat call.tail.length).toInt = call.tail.length :=
      Int32.toInt_ofNat_of_lt hint
    rw [if_pos hzero, hofNat]
    simp
  · rw [if_neg hzero] at hint ⊢
    rw [if_neg hzero, length_take]
    rw [if_pos (by omega)]
    congr 1
    omega

theorem nul_notMem_text (call : Call) : nul ∉ call.text := by
  unfold Call.text
  split
  · exact call.cstring
  · exact fun h => call.cstring (mem_of_mem_take h)

variable {b b' : PgAppendBuffer} {text : Text}
variable {size : ℕ}

theorem moved_holds (h : Sound b text) (hnul : nul ∉ text) (hsize : text.length < size) :
    ∃ buf, moved b size = some buf ∧ buf.length = size ∧ HoldsString buf text := by
  have hcopied : strncpy b.buf (b.currentIx + 1) = some (text ++ [nul]) := by
    rw [strncpy_holds h.string hnul, h.index]
    simp
  have hlength : (text ++ [nul]).length = text.length + 1 := by simp
  have hwritten : write (fresh size) 0 (text ++ [nul]) =
      some ((text ++ [nul]).map some ++ (fresh size).drop (text.length + 1)) := by
    rw [write, hlength, if_pos (by rw [length_fresh]; omega)]
    simp
  refine ⟨_, by rw [moved, hcopied]; exact hwritten, ?_, ?_⟩
  · have hsame := length_write hwritten
    rwa [length_fresh] at hsame
  · rw [HoldsString, ofString, map_append]
    exact prefix_append _ _

theorem realloc_holds {buf : Block} (hsize : buf.length ≤ size) (h : HoldsString buf text) :
    (realloc buf size).length = size ∧ HoldsString (realloc buf size) text := by
  refine ⟨?_, h.trans (prefix_append _ _)⟩
  rw [realloc, length_append, length_fresh]
  omega

theorem le_grownSize (size : ℕ) : size + 4 * 1024 ≤ grownSize size := by
  unfold grownSize
  dsimp only
  split_ifs <;> omega

theorem enlarged_holds (h : Sound b text) (hnul : nul ∉ text) (hsize : b.bufSize ≤ size) :
    ∃ buf, (if b.allocated then some (realloc b.buf size) else moved b size) = some buf ∧
      buf.length = size ∧ HoldsString buf text := by
  cases b.allocated with
  | true =>
    obtain ⟨hlength, hholds⟩ := realloc_holds (h.block ▸ hsize) h.string
    exact ⟨_, rfl, hlength, hholds⟩
  | false => exact moved_holds h hnul (lt_of_lt_of_le (h.index ▸ h.room) hsize)

theorem grow_eq (b : PgAppendBuffer) : grow b =
    if grownSize b.bufSize < 2 ^ 31 then
      if b.bufSize + 4 * 1024 < 16 * 1024 then
        (moved b (grownSize b.bufSize)).map fun buf =>
          { b with buf := buf, bufSize := grownSize b.bufSize }
      else
        (if b.allocated then some (realloc b.buf (grownSize b.bufSize))
          else moved b (grownSize b.bufSize)).map fun buf =>
            { b with buf := buf, bufSize := grownSize b.bufSize, allocated := true }
    else none := by
  have hmap {α β : Type} (x : Option α) (f : α → β) : (x >>= fun a => some (f a)) = x.map f := by
    cases x <;> rfl
  have hgrown : grownSize b.bufSize = if b.bufSize + 4 * 1024 < 16 * 1024 then b.bufSize + 4 * 1024
      else if 32 * 1024 < b.bufSize + 4 * 1024 then b.bufSize + 4 * 1024 + 12 * 1024
      else b.bufSize + 4 * 1024 := rfl
  unfold grow
  by_cases hsmall : b.bufSize + 4 * 1024 < 16 * 1024
  · have hint : b.bufSize + 4 * 1024 < 2 ^ 31 := by omega
    rw [if_pos hsmall] at hgrown
    rw [hgrown, asInt_eq_some.mpr ⟨hint, rfl⟩, bind_eq_bind, bind_some,
      if_pos hsmall, if_pos hint, if_pos hsmall]
    exact hmap _ _
  · rw [if_neg hsmall] at hgrown
    by_cases hmore : 32 * 1024 < b.bufSize + 4 * 1024
    · rw [if_pos hmore] at hgrown
      by_cases hint : b.bufSize + 4 * 1024 + 12 * 1024 < 2 ^ 31
      · have hsize : asInt (b.bufSize + 4 * 1024) = some (b.bufSize + 4 * 1024) :=
          asInt_eq_some.mpr ⟨by omega, rfl⟩
        have hlarge : asInt (b.bufSize + 4 * 1024 + 12 * 1024) =
            some (b.bufSize + 4 * 1024 + 12 * 1024) := asInt_eq_some.mpr ⟨hint, rfl⟩
        rw [hgrown, hsize, bind_eq_bind, bind_some, if_neg hsmall, if_pos hmore,
          hlarge, bind_eq_bind, bind_some, if_pos hint, if_neg hsmall]
        exact hmap _ _
      · have hlarge : asInt (b.bufSize + 4 * 1024 + 12 * 1024) = none := if_neg hint
        rw [hgrown, if_neg hint]
        cases hsize : asInt (b.bufSize + 4 * 1024) with
        | none => rfl
        | some size =>
          obtain rfl := (asInt_eq_some.mp hsize).2
          rw [bind_eq_bind, bind_some, if_neg hsmall, if_pos hmore, hlarge]
          rfl
    · have hint : b.bufSize + 4 * 1024 < 2 ^ 31 := by omega
      rw [if_neg hmore] at hgrown
      rw [hgrown, asInt_eq_some.mpr ⟨hint, rfl⟩, bind_eq_bind, bind_some,
        if_neg hsmall, if_neg hmore, bind_eq_bind, bind_some, if_pos hint,
        if_neg hsmall]
      exact hmap _ _

theorem grow_holds (h : Sound b text) (hnul : nul ∉ text) (hint : grownSize b.bufSize < 2 ^ 31) :
    ∃ b', grow b = some b' ∧ b'.currentIx = b.currentIx ∧ b'.bufSize = grownSize b.bufSize ∧
      b'.buf.length = b'.bufSize ∧ HoldsString b'.buf text := by
  have hsize : b.bufSize ≤ grownSize b.bufSize := le_trans (Nat.le_add_right _ _) (le_grownSize _)
  rw [grow_eq, if_pos hint]
  generalize grownSize b.bufSize = size at hsize
  split
  · obtain ⟨buf, hbuf, hlength, hholds⟩ :=
      moved_holds h hnul (lt_of_lt_of_le (h.index ▸ h.room) hsize)
    exact ⟨{ b with buf := buf, bufSize := size }, congrArg (Option.map _) hbuf, rfl, rfl, hlength,
      hholds⟩
  · obtain ⟨buf, hbuf, hlength, hholds⟩ := enlarged_holds h hnul hsize
    exact ⟨{ b with buf := buf, bufSize := size, allocated := true },
      congrArg (Option.map _) hbuf, rfl, rfl, hlength, hholds⟩

theorem write_string {buf : Block} {tail : Text} (h : HoldsString buf text)
    (hroom : text.length + tail.length < buf.length) :
    ∃ buf₁ buf₂, write buf text.length tail = some buf₁ ∧
      write buf₁ (text.length + tail.length) [nul] = some buf₂ ∧ buf₂.length = buf.length ∧
        HoldsString buf₂ (text ++ tail) := by
  obtain ⟨rest, rfl⟩ := h
  have htaken : (ofString text ++ rest).take text.length = text.map some := by
    rw [ofString, append_assoc]
    exact take_left' (length_map _)
  obtain ⟨buf₁, hbuf₁⟩ : ∃ buf₁, write (ofString text ++ rest) text.length tail = some buf₁ :=
    ⟨_, if_pos (by omega)⟩
  obtain ⟨-, hbuf₁'⟩ := write_eq_some hbuf₁
  rw [htaken, ← map_append] at hbuf₁'
  have hlength₁ := length_write hbuf₁
  obtain ⟨buf₂, hbuf₂⟩ : ∃ buf₂, write buf₁ (text.length + tail.length) [nul] = some buf₂ :=
    ⟨_, if_pos (by rw [length_singleton, hlength₁]; omega)⟩
  obtain ⟨-, hbuf₂'⟩ := write_eq_some hbuf₂
  have htaken₁ : buf₁.take (text.length + tail.length) = (text ++ tail).map some := by
    rw [hbuf₁', ← length_append]
    exact take_left' (length_map _)
  rw [htaken₁] at hbuf₂'
  refine ⟨buf₁, buf₂, hbuf₁, hbuf₂, (length_write hbuf₂).trans hlength₁, ?_⟩
  rw [hbuf₂', HoldsString, ofString]
  exact prefix_append _ _

theorem pgAppend_eq_some (h : pgAppend b call = some b') :
    ∃ n grown cs buf₁ buf₂, call.length = some n ∧ b.currentIx + n < 2 ^ 31 ∧
      (if b.bufSize ≤ b.currentIx + n then grow b else some b) = some grown ∧
        strncpy (ofString call.tail) n = some cs ∧ write grown.buf grown.currentIx cs = some buf₁ ∧
          write buf₁ (b.currentIx + n) [nul] = some buf₂ ∧
            b' = { grown with buf := buf₂, currentIx := b.currentIx + n } := by
  obtain ⟨n, hn, h⟩ := bind_eq_some_iff.mp h
  obtain ⟨endIx, hendIx, h⟩ := bind_eq_some_iff.mp h
  obtain ⟨hint, rfl⟩ := asInt_eq_some.mp hendIx
  obtain ⟨grown, hgrown, h⟩ := bind_eq_some_iff.mp h
  obtain ⟨cs, hcs, h⟩ := bind_eq_some_iff.mp h
  obtain ⟨buf₁, hbuf₁, h⟩ := bind_eq_some_iff.mp h
  obtain ⟨buf₂, hbuf₂, h⟩ := bind_eq_some_iff.mp h
  exact ⟨n, grown, cs, buf₁, buf₂, hn, hint, hgrown, hcs, hbuf₁, hbuf₂, (some.inj h).symm⟩

theorem strncpy_tail (call : Call) :
    strncpy (ofString call.tail) call.text.length = some call.text := by
  rw [strncpy_holds (prefix_refl _) call.cstring]
  unfold Call.text
  by_cases hzero : call.tailLen.toInt ≤ 0
  · rw [if_pos hzero]
    simp
  rw [if_neg hzero, length_take]
  have hwhole := call.whole
  congr 1
  rw [take_append_of_le_length (by omega), Nat.min_eq_left (by omega)]

theorem grown_holds (h : Sound b text) (hnul : nul ∉ text) {endIx : ℕ}
    (hint : sizeAfter b.bufSize endIx < 2 ^ 31) :
    ∃ grown, (if b.bufSize ≤ endIx then grow b else some b) = some grown ∧
      grown.currentIx = b.currentIx ∧ grown.bufSize = sizeAfter b.bufSize endIx ∧
        grown.buf.length = grown.bufSize ∧ HoldsString grown.buf text := by
  unfold sizeAfter at *
  by_cases hfull : b.bufSize ≤ endIx
  · rw [if_pos hfull] at hint ⊢
    rw [if_pos hfull]
    exact grow_holds h hnul hint
  · rw [if_neg hfull, if_neg hfull]
    exact ⟨b, rfl, rfl, rfl, h.block, h.string⟩

theorem grown_size {endIx : ℕ} (h : Sound b text) (hnul : nul ∉ text) {grown : PgAppendBuffer}
    (hgrown : (if b.bufSize ≤ endIx then grow b else some b) = some grown) :
    grown.bufSize = sizeAfter b.bufSize endIx ∧ grown.bufSize < 2 ^ 31 := by
  have hint : sizeAfter b.bufSize endIx < 2 ^ 31 := by
    unfold sizeAfter
    by_cases hfull : b.bufSize ≤ endIx
    · rw [if_pos hfull] at hgrown ⊢
      rw [grow_eq] at hgrown
      by_contra hint
      rw [if_neg hint] at hgrown
      cases hgrown
    · rw [if_neg hfull]
      exact h.int
  obtain ⟨grown', hgrown', -, hsize, -⟩ := grown_holds h hnul hint
  obtain rfl := some.inj (hgrown.symm.trans hgrown')
  exact ⟨hsize, hsize ▸ hint⟩

theorem pgAppend_sound (h : Sound b text) (hnul : nul ∉ text)
    (hfits : StepFits b.bufSize text.length call) :
    ∃ b', pgAppend b call = some b' ∧ Sound b' (text ++ call.text) ∧
      b'.bufSize = sizeAfter b.bufSize (text.length + call.text.length) := by
  have hend : text.length + call.text.length < 2 ^ 31 := lt_trans hfits.room hfits.int
  have hn : call.length = some call.text.length :=
    length_text (lt_of_le_of_lt (Nat.le_add_left _ _) hend)
  obtain ⟨grown, hgrown, hindex, hsize, hblock, hstring⟩ := grown_holds h hnul hfits.int
  have hroom : text.length + call.text.length < grown.buf.length := by
    rw [hblock, hsize]
    exact hfits.room
  obtain ⟨buf₁, buf₂, hbuf₁, hbuf₂, hlength, hholds⟩ := write_string hstring hroom
  refine ⟨{ grown with buf := buf₂, currentIx := text.length + call.text.length }, ?_, ?_, hsize⟩
  · rw [← h.index] at hgrown hbuf₁ hbuf₂ hend ⊢
    rw [← hindex] at hbuf₁
    simp only [pgAppend, hn, asInt_eq_some.mpr ⟨hend, rfl⟩, hgrown, strncpy_tail, hbuf₁, hbuf₂,
      bind_eq_bind, bind_some]
  · exact {
      room := hsize ▸ hfits.room
      block := hlength.trans hblock
      string := hholds
      index := (length_append).symm
      int := hsize ▸ hfits.int }

theorem stepFits_of_holds (h : Sound b text) (hnul : nul ∉ text) (hcall : pgAppend b call = some b')
    (hholds : Holds b' (text ++ call.text)) : StepFits b.bufSize text.length call := by
  obtain ⟨n, grown, cs, buf₁, buf₂, hn, hint, hgrown, -, -, -, rfl⟩ := pgAppend_eq_some hcall
  obtain ⟨hsize, hsizeInt⟩ := grown_size h hnul hgrown
  have hlength : text.length + call.text.length + 1 ≤ grown.bufSize := by
    have hle := hholds.string.length_le
    rw [length_ofString, length_append, hholds.block] at hle
    exact hle
  rw [length_text (by omega)] at hn
  cases hn
  have hroom : b.currentIx + call.text.length < grown.bufSize := hholds.room
  rw [h.index] at hsize hroom
  exact ⟨hsize ▸ hroom, hsize ▸ hsizeInt⟩

variable {calls : List Call}

@[simp] theorem textOf_nil : textOf [] = [] := rfl

@[simp] theorem textOf_cons (call : Call) (calls : List Call) :
    textOf (call :: calls) = call.text ++ textOf calls := rfl

@[simp] theorem foldlM_cons (b : PgAppendBuffer) (call : Call) (calls : List Call) :
    (call :: calls).foldlM pgAppend b = (pgAppend b call).bind (calls.foldlM pgAppend) := rfl

theorem run_holds_iff (h : Sound b text) (hnul : nul ∉ text) :
    (∀ done, done <+: calls → ∃ b', done.foldlM pgAppend b = some b' ∧
      Holds b' (text ++ textOf done)) ↔ Fits b.bufSize text.length calls := by
  induction calls generalizing b text with
  | nil =>
    refine iff_of_true (fun done hdone => ?_) trivial
    obtain rfl := prefix_nil.mp hdone
    exact ⟨b, rfl, (append_nil text).symm ▸ h.toHolds⟩
  | cons call calls ih =>
    have hnul' : nul ∉ text ++ call.text := by
      rw [mem_append, not_or]
      exact ⟨hnul, nul_notMem_text call⟩
    constructor
    · intro hall
      have hfits : StepFits b.bufSize text.length call := by
        obtain ⟨b', hb', hholds⟩ := hall [call] (prefix_append [call] calls)
        rw [textOf_cons, textOf_nil, append_nil] at hholds
        obtain ⟨b₁, hb₁, hrest⟩ := bind_eq_some_iff.mp hb'
        exact stepFits_of_holds h hnul (some.inj hrest ▸ hb₁) hholds
      obtain ⟨b₁, hb₁, hsound, hsize⟩ := pgAppend_sound h hnul hfits
      refine ⟨hfits, ?_⟩
      rw [← hsize, ← length_append, ← ih hsound hnul']
      intro done hdone
      obtain ⟨b', hb', hholds⟩ := hall (call :: done) ((prefix_cons_inj call).mpr hdone)
      rw [foldlM_cons, hb₁, bind_some] at hb'
      rw [textOf_cons, ← append_assoc] at hholds
      exact ⟨b', hb', hholds⟩
    · rintro ⟨hfits, hrest⟩ done hdone
      obtain ⟨b₁, hb₁, hsound, hsize⟩ := pgAppend_sound h hnul hfits
      rw [← hsize, ← length_append, ← ih hsound hnul'] at hrest
      cases done with
      | nil => exact ⟨b, rfl, (append_nil text).symm ▸ h.toHolds⟩
      | cons call' done =>
        obtain ⟨rfl, hprefix⟩ := cons_prefix_cons.mp hdone
        obtain ⟨b', hb', hholds⟩ := hrest done hprefix
        rw [foldlM_cons, hb₁, textOf_cons, ← append_assoc]
        exact ⟨b', hb', hholds⟩

variable {initSize : Int32}

theorem init_sound (hpos : 0 < initSize.toInt) :
    ∃ b, pgAppendInit initSize = some b ∧ Sound b [] ∧ b.bufSize = initSize.toInt.toNat := by
  obtain ⟨size, hsize⟩ : ∃ size, initSize.toInt.toNat = size + 1 :=
    ⟨initSize.toInt.toNat - 1, by omega⟩
  have hlt : initSize.toInt < 2 ^ 31 := initSize.toInt_lt
  refine ⟨⟨some nul :: fresh size, size + 1, false, 0, 0⟩, ?_, ?_, hsize.symm⟩
  · rw [pgAppendInit, hsize]
    rfl
  · exact {
      room := Nat.succ_pos size
      block := by simp
      string := ⟨fresh size, rfl⟩
      index := rfl
      int := by dsimp only; omega }

theorem nothingLost_of_run (h : NothingLost initSize calls) : 0 < initSize.toInt := by
  obtain ⟨b, hb, -⟩ := h [] nil_prefix
  obtain ⟨b₀, hb₀, -⟩ := bind_eq_some_iff.mp hb
  obtain ⟨buf, hbuf, -⟩ := bind_eq_some_iff.mp hb₀
  have hroom := (write_eq_some hbuf).1
  rw [length_fresh, length_singleton] at hroom
  omega

theorem nothingLost_of_pos (hpos : 0 < initSize.toInt) :
    NothingLost initSize calls ↔ Fits initSize.toInt.toNat 0 calls := by
  obtain ⟨b, hb, hsound, hsize⟩ := init_sound hpos
  rw [← hsize, ← length_nil (α := Char), ← run_holds_iff hsound not_mem_nil]
  unfold NothingLost run
  rw [hb]
  rfl

/-- The buffer keeps every tail when it starts with room for the zero, and every call ends inside of
it after at most one growing. -/
theorem nothing_lost_iff (initSize : Int32) (calls : List Call) :
    NothingLost initSize calls ↔
      0 < initSize.toInt ∧ Fits initSize.toInt.toNat 0 calls := by
  constructor
  · intro h
    have hpos := nothingLost_of_run h
    exact ⟨hpos, (nothingLost_of_pos hpos).mp h⟩
  · rintro ⟨hpos, hfits⟩
    exact (nothingLost_of_pos hpos).mpr hfits

def longTail : Call where
  tail := List.replicate 6000 'a'
  tailLen := 0
  cstring := fun h => absurd (List.mem_replicate.mp h).2 (by decide)
  whole := Int.natCast_nonneg _

theorem longTail_overflows : ¬ NothingLost 1024 [longTail] := by
  have hsize : (1024 : Int32).toInt = 1024 := rfl
  rw [nothingLost_of_pos (by rw [hsize]; decide), hsize]
  rintro ⟨⟨hroom, -⟩, -⟩
  have hlength : longTail.text.length = 6000 := length_replicate
  rw [hlength] at hroom
  revert hroom
  decide

/-- The buffer of characters stands for this one. -/
structure StandsFor (a : PgAttributeAppend.PgAppendBuffer) (b : PgAppendBuffer) : Prop where
  sound : Sound b a.buf
  cstring : nul ∉ a.buf
  size : b.bufSize = a.bufSize

/-- A call does with the bytes what is done with the characters, up to the largest int. -/
theorem pgAppend_standsFor {a a' : PgAttributeAppend.PgAppendBuffer} (h : StandsFor a b)
    (ha : PgAttributeAppend.pgAppend a call.text = some a') (hint : a'.bufSize < 2 ^ 31) :
    ∃ b', pgAppend b call = some b' ∧ StandsFor a' b' := by
  have hgrown : (if a.bufSize ≤ a.buf.length + call.text.length then PgAttributeAppend.grow a
      else a).bufSize = sizeAfter b.bufSize (a.buf.length + call.text.length) := by
    rw [h.size, sizeAfter]
    split_ifs
    · exact PgAttributeAppend.grow_bufSize a
    · rfl
  have hbuf : (if a.bufSize ≤ a.buf.length + call.text.length then PgAttributeAppend.grow a
      else a).buf = a.buf := by
    split_ifs
    · exact PgAttributeAppend.grow_buf a
    · rfl
  unfold PgAttributeAppend.pgAppend at ha
  dsimp only at ha
  rw [hbuf, hgrown] at ha
  split at ha
  · rename_i hroom
    cases ha
    obtain ⟨b', hb', hsound, hsize⟩ := pgAppend_sound h.sound h.cstring ⟨hroom, hint⟩
    refine ⟨b', hb', hsound, ?_, hsize⟩
    rw [mem_append, not_or]
    exact ⟨h.cstring, nul_notMem_text call⟩
  · cases ha

def runTexts (a : PgAttributeAppend.PgAppendBuffer) (calls : List Call) :
    Option PgAttributeAppend.PgAppendBuffer :=
  calls.foldlM (fun a call => PgAttributeAppend.pgAppend a call.text) a

variable {a a' : PgAttributeAppend.PgAppendBuffer}

theorem bufSize_mono (h : runTexts a calls = some a') : a.bufSize ≤ a'.bufSize := by
  induction calls generalizing a with
  | nil =>
    cases h
    exact le_rfl
  | cons call calls ih =>
    obtain ⟨a₁, h₁, h⟩ := bind_eq_some_iff.mp h
    refine le_trans ?_ (ih h)
    obtain ⟨-, hgrown⟩ := ite_none_right_eq_some.mp h₁
    rw [← some.inj hgrown]
    dsimp only
    split_ifs
    · rw [PgAttributeAppend.grow_bufSize, PgAttributeAppend.grownSize]
      split_ifs <;> omega
    · exact le_rfl

theorem texts_standFor (hab : StandsFor a b) (h : runTexts a calls = some a')
    (hint : a'.bufSize < 2 ^ 31) :
    ∃ b', calls.foldlM pgAppend b = some b' ∧ StandsFor a' b' := by
  induction calls generalizing a b with
  | nil =>
    cases h
    exact ⟨b, rfl, hab⟩
  | cons call calls ih =>
    obtain ⟨a₁, h₁, h⟩ := bind_eq_some_iff.mp h
    obtain ⟨b₁, hb₁, hnext⟩ := pgAppend_standsFor hab h₁ ((bufSize_mono h).trans_lt hint)
    rw [foldlM_cons, hb₁]
    exact ih hnext h

/-- Whatever is appended, the buffer of bytes goes along with that of characters. -/
theorem runs_standFor (hpos : 0 < initSize.toInt)
    (h : runTexts ⟨[], initSize.toInt.toNat, false, 0⟩ calls = some a')
    (hint : a'.bufSize < 2 ^ 31) : ∃ b, run initSize calls = some b ∧ StandsFor a' b := by
  obtain ⟨b, hb, hsound, hsize⟩ := init_sound hpos
  rw [run, hb]
  exact texts_standFor ⟨hsound, not_mem_nil, hsize⟩ h hint

def tailOf (n : ℕ) : Call where
  tail := replicate n 'a'
  tailLen := 0
  cstring := fun h => absurd (mem_replicate.mp h).2 (by decide)
  whole := Int.natCast_nonneg _

theorem runTexts_tailOf {k n size : ℕ} {allocated : Bool} {values : ℕ}
    (hroom : k + n < sizeAfter size (k + n)) :
    runTexts ⟨replicate k 'a', size, allocated, values⟩ (tailOf n :: calls) =
      runTexts ⟨replicate (k + n) 'a', sizeAfter size (k + n),
        if size ≤ k + n then allocated || decide (16 * 1024 ≤ size + 4 * 1024) else allocated,
        values⟩ calls := by
  have htext : (tailOf n).text = replicate n 'a' := rfl
  rw [runTexts, List.foldlM_cons, PgAttributeAppend.pgAppend, htext]
  unfold sizeAfter at hroom ⊢
  split_ifs at hroom ⊢ <;> simp_all [PgAttributeAppend.grow, runTexts]

/-- The first call makes the buffer grow where it is, the second one moves it to malloc. -/
theorem short_run_stands :
    ∃ b, run 10240 [tailOf 10300, tailOf 4100, tailOf 1] = some b ∧
      StandsFor ⟨replicate 14401 'a', 18432, true, 0⟩ b := by
  have hsize : (10240 : Int32).toInt = 10240 := rfl
  refine runs_standFor (by rw [hsize]; decide) ?_ (by norm_num)
  rw [hsize]
  exact (runTexts_tailOf (k := 0) (by decide)).trans
    ((runTexts_tailOf (by decide)).trans (runTexts_tailOf (by decide)))

end PgAppend
