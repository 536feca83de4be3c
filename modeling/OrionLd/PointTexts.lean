import OrionLd.DecimalText
import OrionLd.KjGeoExtract
import OrionLd.WktTokens

/-! The numbers and points of troe as texts: what %f keeps of a number, and when the text of a
point, cut to its buffer, is read as the point. -/
namespace PointTexts

open DecimalText KjTree KjGeoExtract StringFilter WktTokens List

variable (toDouble : ℚ → ℚ)

def sixDecimals (x : ℚ) : ℚ :=
  let n : ℚ := roundHalfEven (|x| * 1000000)
  if x < 0 then -(n / 10 ^ 6) else n / 10 ^ 6

theorem decimalValue_printfF (x : ℚ) : decimalValue (printfF x) = some (sixDecimals x) := by
  have hvalue := decimalValue_fixed (decide (x < 0)) 6 (roundHalfEven (|x| * 1000000)) (by decide)
  unfold printfF
  simpa [sixDecimals, padded] using hvalue

def doubleOf (word : Text) : Option ℚ := (decimalValue word).map toDouble

theorem doubleOf_printfF (x : ℚ) :
    doubleOf toDouble (printfF x) = some (toDouble (sixDecimals x)) := by
  unfold doubleOf
  rw [decimalValue_printfF]
  rfl

variable {c : Char}

theorem mem_printfF {x : ℚ} (h : c ∈ printfF x) : isNumeric c = true := by
  have hdigit : ∀ {n : ℕ}, c ∈ Nat.toDigits 10 n → isNumeric c = true := by
    intro n hc
    unfold isNumeric
    rw [isDigit_of_toDigits hc]
    rfl
  rcases mem_append.mp h with h | h
  · rcases mem_append.mp h with h | h
    · split_ifs at h
      · obtain rfl := mem_singleton.mp h
        decide
      · cases h
    · exact hdigit h
  · rcases mem_cons.mp h with rfl | h
    · decide
    rcases mem_append.mp h with h | h
    · obtain rfl := eq_of_mem_replicate h
      decide
    · exact hdigit h

theorem printfF_ne_nil (x : ℚ) : printfF x ≠ [] := by
  unfold printfF
  exact append_ne_nil_of_right_ne_nil _ (cons_ne_nil _ _)

theorem isMark_of_isNumeric (h : isNumeric c = true) : isMark c = false ∧ c ≠ ' ' := by
  have hne : ∀ d, isNumeric d = false → c ≠ d := by
    rintro d hd rfl
    rw [h] at hd
    cases hd
  refine ⟨?_, hne ' ' (by decide)⟩
  unfold isMark
  rw [decide_eq_false (hne '(' (by decide)), decide_eq_false (hne ')' (by decide)),
    decide_eq_false (hne ',' (by decide))]
  rfl

theorem tokens_printfF (x : ℚ) :
    tokens (doubleOf toDouble) (printfF x) = [.number (toDouble (sixDecimals x))] := by
  unfold tokens
  rw [tokensFrom_word [] fun c hc => isMark_of_isNumeric (mem_printfF hc)]
  exact flush_number (printfF_ne_nil x) (doubleOf_printfF toDouble x)

def pointTokens (p : Point) : List Token :=
  [.number p.longitude, .number p.latitude, .number p.altitude]

structure Kept (p : Point) : Prop where
  longitude : toDouble (sixDecimals p.longitude) = p.longitude
  latitude : toDouble (sixDecimals p.latitude) = p.latitude
  altitude : toDouble (sixDecimals p.altitude) = p.altitude

def PointWritten (p : Point) : Prop := tokens (doubleOf toDouble) (pointBuffer p) = pointTokens p

variable {toDouble} {p : Point}

theorem tokens_pointText_iff :
    tokens (doubleOf toDouble) (pointText p) = pointTokens p ↔ Kept toDouble p := by
  have htokens : tokens (doubleOf toDouble) (pointText p) =
      [.number (toDouble (sixDecimals p.longitude)), .number (toDouble (sixDecimals p.latitude)),
        .number (toDouble (sixDecimals p.altitude))] := by
    unfold pointText
    rw [tokens_blank, tokens_blank, tokens_printfF, tokens_printfF, tokens_printfF]
    rfl
  rw [htokens]
  constructor
  · intro h
    obtain ⟨hlongitude, hrest⟩ := cons.inj h
    obtain ⟨hlatitude, hrest⟩ := cons.inj hrest
    exact ⟨Token.number.inj hlongitude, Token.number.inj hlatitude,
      Token.number.inj (cons.inj hrest).1⟩
  · intro h
    unfold pointTokens
    rw [h.longitude, h.latitude, h.altitude]

theorem pointWritten_iff (h : (pointText p).length < pointBufferSize) :
    PointWritten toDouble p ↔ Kept toDouble p := by
  unfold PointWritten pointBuffer
  rw [take_of_length_le (Nat.le_sub_one_of_lt h), tokens_pointText_iff]

theorem mem_pointText (h : c ∈ pointText p) : isMark c = false := by
  have hnumber : ∀ {x : ℚ}, c ∈ printfF x → isMark c = false := fun hc =>
    (isMark_of_isNumeric (mem_printfF hc)).1
  rcases mem_append.mp h with h | h
  · exact hnumber h
  rcases mem_cons.mp h with rfl | h
  · decide
  rcases mem_append.mp h with h | h
  · exact hnumber h
  rcases mem_cons.mp h with rfl | h
  · decide
  · exact hnumber h

theorem mark_not_mem_point (p : Point) (c : Char) :
    Token.mark c ∉ tokens (doubleOf toDouble) (pointBuffer p) :=
  mark_not_mem_tokensFrom [] (fun _ hc => mem_pointText (mem_of_mem_take hc)) c

theorem mark_not_mem_pointTokens (p : Point) (c : Char) : Token.mark c ∉ pointTokens p := by
  simp [pointTokens]

theorem pointBuffer_ne_nil (p : Point) : pointBuffer p ≠ [] := by
  obtain ⟨c, t, h⟩ := exists_cons_of_ne_nil (printfF_ne_nil p.longitude)
  unfold pointBuffer pointText
  rw [h]
  exact cons_ne_nil _ _

theorem length_pointBuffer (p : Point) : (pointBuffer p).length < pointBufferSize :=
  lt_of_le_of_lt (length_take_le _ _) (by decide)

def lineText (points : List Point) : Text := commaText (points.map pointBuffer)

theorem tokens_lineText (points : List Point) :
    tokens (doubleOf toDouble) (lineText points) =
      commas (points.map fun p => tokens (doubleOf toDouble) (pointBuffer p)) := by
  unfold lineText
  rw [tokens_commaText, map_map]
  rfl

theorem tokens_lineText_iff {taken points : List Point} (hne : taken ≠ []) (hpoints : points ≠ []) :
    tokens (doubleOf toDouble) (lineText taken) = commas (points.map pointTokens) ↔
      List.Forall₂ (fun p q => tokens (doubleOf toDouble) (pointBuffer p) = pointTokens q)
        taken points := by
  rw [tokens_lineText, ← forall₂_map_left_iff (R := fun l q => l = pointTokens q),
    ← forall₂_map_right_iff (R := fun l l' : List Token => l = l'), forall₂_eq_eq_eq]
  constructor
  · intro h
    refine commas_injective ?_ ?_ (fun hnil => hne (map_eq_nil_iff.mp hnil))
      (fun hnil => hpoints (map_eq_nil_iff.mp hnil)) h
    · intro l hl
      obtain ⟨p, -, rfl⟩ := mem_map.mp hl
      exact mark_not_mem_point p ','
    · intro l hl
      obtain ⟨p, -, rfl⟩ := mem_map.mp hl
      exact mark_not_mem_pointTokens p ','
  · intro h
    rw [h]

end PointTexts
