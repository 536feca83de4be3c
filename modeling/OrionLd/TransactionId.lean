import OrionLd.DecimalText

/-! The transaction ids of globals.cpp: the time at which the broker was started, and a running
number. When the number starts anew the time is moved on by a microsecond, and the id shows its
milliseconds, so that the second round of numbers repeats the ids of the first one. -/
namespace TransactionId

open List
open DecimalText (padded)

abbrev Text := List Char

/-- What an int holds when it has overflowed. -/
def wrapped (i : ℤ) : ℤ := i.bmod (2 ^ 32)

def transactionIdGet (readonly : Bool) (transactionId : ℤ) : ℤ :=
  if readonly then transactionId
  else
    let transactionId := wrapped (transactionId + 1)
    if transactionId < 0 then 1 else transactionId

structure Timeval where
  tv_sec : ℤ
  tv_usec : ℤ

/-- The static variables, and the thread variable that holds the id. -/
structure Globals where
  running : ℤ
  firstTime : Bool
  logStartTime : Timeval
  transactionId : Text

def unsignedText (i : ℤ) : Text := Nat.toDigits 10 (i % 2 ^ 64).toNat

/-- The conversion %0d with a width, which counts the sign. -/
def paddedText (width : ℕ) (i : ℤ) : Text :=
  if i < 0 then '-' :: padded (width - 1) i.natAbs else padded width i.natAbs

def idText (start : Timeval) (transaction : ℤ) : Text :=
  unsignedText start.tv_sec ++ '-' :: (paddedText 3 ((wrapped start.tv_usec).tdiv 1000) ++
    '-' :: paddedText 11 transaction)

def transactionIdSet (g : Globals) : Globals :=
  let transaction := transactionIdGet false g.running
  let logStartTime :=
    if g.firstTime = false ∧ transaction = 1 then
      { g.logStartTime with tv_usec := g.logStartTime.tv_usec + 1 }
    else g.logStartTime
  -- char transactionId[66], one byte of it for the NUL
  ⟨transaction, false, logStartTime, (idText logStartTime transaction).take 65⟩

structure StartTime where
  sec : ℤ
  usec : ℕ
  usec_lt : usec < 1000000

def StartTime.globals (start : StartTime) : Globals := ⟨0, true, ⟨start.sec, start.usec⟩, []⟩

def idOf (start : StartTime) (call : ℕ) : Text :=
  (transactionIdSet^[call + 1] start.globals).transactionId

/-- The numbers of one round, from 1 to the greatest int. -/
def numbers : ℕ := 2 ^ 31 - 1

def wrapArounds (call : ℕ) : ℕ := call / numbers

/-- The ids of the calls of a run differ when fewer than a thousand wrap-arounds lie between. -/
def NoneRepeated (start : StartTime) (calls : ℕ) : Prop :=
  ∀ i j, i < j → j < calls → wrapArounds j - wrapArounds i < 1000 → idOf start i ≠ idOf start j

theorem wrapped_of_small {i : ℤ} (hlow : -2 ^ 31 ≤ i) (hhigh : i < 2 ^ 31) : wrapped i = i := by
  unfold wrapped
  rw [Int.bmod_eq_of_le_mul_two] <;> omega

variable {n usec : ℕ}

theorem transactionIdGet_next (hn : n ≤ numbers) :
    transactionIdGet false n = if n = numbers then 1 else (n : ℤ) + 1 := by
  unfold numbers at hn ⊢
  unfold transactionIdGet
  simp only [Bool.false_eq_true, if_false]
  by_cases hlast : n = 2 ^ 31 - 1
  · subst hlast
    decide
  · have hsmall : wrapped ((n : ℤ) + 1) = n + 1 := wrapped_of_small (by omega) (by omega)
    rw [hsmall, if_neg (by omega), if_neg hlast]

theorem next_number (n : ℕ) : transactionIdGet false ((n % numbers + 1 : ℕ) : ℤ) =
    ((n + 1) % numbers + 1 : ℕ) := by
  have hlt : n % numbers < numbers := Nat.mod_lt n (by decide)
  rw [transactionIdGet_next (show n % numbers + 1 ≤ numbers from hlt)]
  unfold numbers at hlt ⊢
  split <;> omega

theorem next_round (n : ℕ) :
    (n + 1) / numbers = n / numbers + if (n + 1) % numbers = 0 then 1 else 0 := by
  unfold numbers
  split <;> omega

theorem globals_after (start : StartTime) (n : ℕ) :
    transactionIdSet^[n + 1] start.globals =
      ⟨(n % numbers + 1 : ℕ), false, ⟨start.sec, (start.usec + n / numbers : ℕ)⟩,
        (idText ⟨start.sec, (start.usec + n / numbers : ℕ)⟩ (n % numbers + 1 : ℕ)).take 65⟩ := by
  induction n with
  | zero =>
    have hfirst : transactionIdGet false 0 = 1 := by decide
    simp [transactionIdSet, StartTime.globals, hfirst]
  | succ n ih =>
    rw [Function.iterate_succ_apply', ih]
    unfold transactionIdSet
    simp only [next_number n, next_round n, true_and]
    by_cases hzero : (n + 1) % numbers = 0
    · have hmove : ((start.usec + (n / numbers + 1) : ℕ) : ℤ) =
          (start.usec + n / numbers : ℕ) + 1 := by omega
      rw [if_pos (by omega), if_pos hzero, hmove]
    · simp only [if_neg hzero, Nat.add_zero]
      rw [if_neg (by omega)]

theorem idOf_eq (start : StartTime) (n : ℕ) : idOf start n =
    (idText ⟨start.sec, (start.usec + n / numbers : ℕ)⟩ (n % numbers + 1 : ℕ)).take 65 := by
  unfold idOf
  rw [globals_after]

theorem paddedText_natCast (width n : ℕ) : paddedText width n = padded width n := by
  unfold paddedText
  rw [if_neg (by omega), Int.natAbs_natCast]

theorem idText_natCast (sec : ℤ) (h : usec < 2 ^ 31) (number : ℕ) : idText ⟨sec, usec⟩ number =
      unsignedText sec ++ '-' :: (padded 3 (usec / 1000) ++ '-' :: padded 11 number) := by
  have hmilli : (wrapped usec).tdiv 1000 = ((usec / 1000 : ℕ) : ℤ) := by
    rw [wrapped_of_small (by omega) (by omega), Int.tdiv_eq_ediv_of_nonneg (by omega)]
    omega
  unfold idText
  rw [hmilli, paddedText_natCast, paddedText_natCast]

theorem length_padded_le {width m : ℕ} (hm : 0 < m) (hwidth : width ≤ m) (hn : n < 10 ^ m) :
    (padded width n).length ≤ m := by
  have hle := (Nat.length_toDigits_le_iff (by decide : 1 < 10) hm).mpr hn
  unfold padded
  rw [length_append, length_replicate]
  omega

theorem length_idText (sec : ℤ) {number : ℕ} (husec : usec < 2 ^ 31) (hnumber : number < 10 ^ 11) :
    (idText ⟨sec, usec⟩ number).length ≤ 65 := by
  have hsec : (unsignedText sec).length ≤ 20 := by
    refine (Nat.length_toDigits_le_iff (by decide) (by decide)).mpr ?_
    omega
  have hmilli := length_padded_le (n := usec / 1000) (by decide : 0 < 10) (by decide : 3 ≤ 10)
    (by omega)
  have hlast := length_padded_le (by decide : 0 < 11) (le_refl 11) hnumber
  rw [idText_natCast sec husec]
  simp only [length_append, length_cons]
  omega

theorem value_padded (width n : ℕ) : Nat.ofDigitChars 10 (padded width n) 0 = n := by
  unfold padded
  rw [Nat.ofDigitChars_append, Nat.ofDigitChars_replicate_zero, Nat.mul_zero,
    Nat.ofDigitChars_toDigits (by decide) (by decide)]

theorem padded_injective {width m : ℕ} (h : padded width m = padded width n) : m = n := by
  rw [← value_padded width m, h, value_padded]

theorem dash_notMem_padded (width n : ℕ) : '-' ∉ padded width n := by
  intro h
  exact absurd (all_eq_true.mp (DecimalText.all_padded width n) '-' h) (by decide)

theorem takeWhile_padded (width n : ℕ) (rest : Text) :
    (padded width n ++ '-' :: rest).takeWhile (· ≠ '-') = padded width n := by
  have hall : ∀ c ∈ padded width n, decide (c ≠ '-') = true := by
    intro c hc
    have hne : c ≠ '-' := by
      rintro rfl
      exact dash_notMem_padded width n hc
    exact decide_eq_true hne
  rw [takeWhile_append_of_pos hall, takeWhile_cons_of_neg (by decide), append_nil]

theorem idText_injective {sec : ℤ} {usec' number number' : ℕ} (h : usec < 2 ^ 31)
    (h' : usec' < 2 ^ 31) (heq : idText ⟨sec, usec⟩ number = idText ⟨sec, usec'⟩ number') :
    usec / 1000 = usec' / 1000 ∧ number = number' := by
  rw [idText_natCast sec h, idText_natCast sec h', append_cancel_left_eq] at heq
  have hrest := (cons.inj heq).2
  have hmilli := congrArg (List.takeWhile (· ≠ '-')) hrest
  rw [takeWhile_padded, takeWhile_padded] at hmilli
  rw [hmilli, append_cancel_left_eq] at hrest
  exact ⟨padded_injective hmilli, padded_injective (cons.inj hrest).2⟩

variable (start : StartTime) {m : ℕ}

theorem idOf_eq_iff (hm : start.usec + m / numbers < 2 ^ 31)
    (hn : start.usec + n / numbers < 2 ^ 31) : idOf start m = idOf start n ↔
      (start.usec + m / numbers) / 1000 = (start.usec + n / numbers) / 1000 ∧
        m % numbers = n % numbers := by
  have hbound (k : ℕ) : k % numbers + 1 < 10 ^ 11 := by
    have hlt : k % numbers < numbers := Nat.mod_lt k (by decide)
    unfold numbers at hlt ⊢
    omega
  rw [idOf_eq, idOf_eq, take_of_length_le (length_idText start.sec hm (hbound m)),
    take_of_length_le (length_idText start.sec hn (hbound n))]
  constructor
  · intro h
    obtain ⟨hmilli, hnumber⟩ := idText_injective hm hn h
    exact ⟨hmilli, Nat.succ_injective hnumber⟩
  · rintro ⟨hmilli, hnumber⟩
    rw [idText_natCast start.sec hm, idText_natCast start.sec hn, hmilli, hnumber]

/-- The first call of a round has the id of the first call of the round before it, unless the
microsecond between them begins a millisecond. -/
theorem round_repeats (k : ℕ) (hk : k < 1000) (hmilli : (start.usec + k) % 1000 ≠ 999) :
    idOf start (k * numbers) = idOf start ((k + 1) * numbers) := by
  have husec := start.usec_lt
  have hpos : 0 < numbers := by decide
  have hround (r : ℕ) : r * numbers / numbers = r := Nat.mul_div_cancel r hpos
  rw [idOf_eq_iff start (by rw [hround]; omega) (by rw [hround]; omega), hround, hround]
  refine ⟨by omega, ?_⟩
  rw [Nat.mul_mod_left, Nat.mul_mod_left]

theorem wrapArounds_round (k : ℕ) : wrapArounds (k * numbers) = k :=
  Nat.mul_div_cancel k (by decide)

theorem not_noneRepeated (k calls : ℕ) (hk : k < 1000) (hmilli : (start.usec + k) % 1000 ≠ 999)
    (hcalls : (k + 1) * numbers < calls) : ¬ NoneRepeated start calls := by
  intro h
  have hlt : k * numbers < (k + 1) * numbers := Nat.mul_lt_mul_of_pos_right (by omega) (by decide)
  refine h _ _ hlt hcalls ?_ (round_repeats start k hk hmilli)
  rw [wrapArounds_round, wrapArounds_round]
  omega

/-- No id is repeated exactly as long as the numbers have not started anew, or have started anew
once, and this at the last microsecond of a millisecond. -/
theorem none_repeated_iff (calls : ℕ) : NoneRepeated start calls ↔
    calls ≤ numbers ∨ start.usec % 1000 = 999 ∧ calls ≤ 2 * numbers := by
  have husec := start.usec_lt
  constructor
  · intro h
    by_contra hnot
    by_cases hlast : start.usec % 1000 = 999
    · exact not_noneRepeated start 1 calls (by decide) (by omega) (by omega) h
    · exact not_noneRepeated start 0 calls (by decide) (by omega) (by omega) h
  · intro h i j hij hj _ heq
    have hround (k : ℕ) (hk : k < calls) : k / numbers < 2 := by
      unfold numbers at h ⊢
      omega
    have hi := hround i (by omega)
    have hj' := hround j hj
    obtain ⟨hmilli, hnumber⟩ := (idOf_eq_iff start (by omega) (by omega)).mp heq
    have hdivj := Nat.div_add_mod j numbers
    unfold numbers at *
    omega

def noon : StartTime := ⟨1700000000, 123000, by decide⟩

theorem first_id_repeated : ¬ ∀ start calls, NoneRepeated start calls :=
  fun h => not_noneRepeated noon 0 (2 ^ 31) (by decide) (by decide) (by decide) (h noon (2 ^ 31))

end TransactionId
