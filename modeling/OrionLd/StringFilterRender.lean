import OrionLd.Fallible
import OrionLd.StringFilter

/-! What StringFilter::render leaves in its buffer, and which writes it makes.
The buffer is what has been rendered, a zero, and the rest. An item is counted with needChars,
which is its length except for a pattern, where it is one more. -/
namespace StringFilterRender

open Fallible KjTree StringFilter List

theorem writeAt_append {done tail cs : List Char} (h : cs.length ≤ tail.length) :
    writeAt (done ++ tail) done.length cs = .ok (done ++ cs ++ tail.drop cs.length) := by
  have hfit : done.length + cs.length ≤ (done ++ tail).length := by simp [h]
  rw [writeAt, if_pos hfit, take_left, drop_append, drop_eq_nil_of_le (by simp)]
  simp

theorem writeAt_outside {done tail cs : List Char} (h : tail.length < cs.length) :
    writeAt (done ++ tail) done.length cs = .error .writeOutside := by
  have hfit : ¬ done.length + cs.length ≤ (done ++ tail).length := by
    simp only [length_append]
    omega
  rw [writeAt, if_neg hfit]

variable (env : Env)

def needChars (item : StringFilterItem) : ℕ :=
  item.attributeName.length + opLength item.op + ((valueText env item).getD []).length

def itemLine (item : StringFilterItem) : Text :=
  itemText item.op item.attributeName ((valueText env item).getD [])

theorem valueText_unary {item : StringFilterItem} (h : item.op.isUnary = true) :
    valueText env item = some [] := by
  unfold valueText
  cases item.value with
  | none => rfl
  | some v => rw [h]; rfl

theorem length_itemLine (item : StringFilterItem) :
    (itemLine env item).length = if item.op = .sfopMatchPattern then needChars env item - 1
      else needChars env item := by
  unfold itemLine needChars
  by_cases hu : item.op.isUnary = true
  · rw [valueText_unary env hu]
    cases hop : item.op <;> simp [hop, StringFilterOp.isUnary, itemText, opLength] at hu ⊢
  · cases hop : item.op <;> simp [hop, StringFilterOp.isUnary, itemText, opLength] at hu ⊢
    all_goals omega

theorem length_itemLine_le (item : StringFilterItem) :
    (itemLine env item).length ≤ needChars env item := by
  rw [length_itemLine]
  split <;> omega

/-- What is counted of the buffer for an item: for a pattern with the zero that snprintf has
written. -/
def itemSpan (item : StringFilterItem) : List Char :=
  itemLine env item ++ if item.op = .sfopMatchPattern then [nul] else []

theorem length_itemSpan (item : StringFilterItem) :
    (itemSpan env item).length = needChars env item := by
  rw [itemSpan, length_append, length_itemLine]
  by_cases hop : item.op = .sfopMatchPattern
  · have hpos : 1 ≤ needChars env item := by
      simp only [needChars, hop, opLength]
      omega
    simp only [if_pos hop, length_singleton]
    omega
  · simp [if_neg hop]

variable {env} {item : StringFilterItem}
variable {done tail : List Char}

theorem item_render_ok {buf : List Char} {chars : ℕ}
    (h : item.render env (done ++ tail) done.length tail.length = .ok (buf, chars)) :
    chars = needChars env item ∧ needChars env item < tail.length ∧
      (valueText env item).isSome ∧
      buf = done ++ itemLine env item ++ nul :: tail.drop ((itemLine env item).length + 1) := by
  unfold StringFilterItem.render at h
  split at h
  · cases h
  split at h
  · cases h
  rename_i value hvalue
  have hneed : needChars env item =
      item.attributeName.length + opLength item.op + value.length := by
    simp [needChars, hvalue]
  have hline : itemLine env item = itemText item.op item.attributeName value := by
    simp [itemLine, hvalue]
  simp only [← hneed, ← hline] at h
  split at h
  · cases h
  rename_i hroom
  have hlt : needChars env item < tail.length := by omega
  have hle := length_itemLine_le env item
  have htake : (itemLine env item).take (tail.length - 1) = itemLine env item :=
    take_of_length_le (by omega)
  rw [snprintf, htake, writeAt_append (by simp; omega)] at h
  cases h
  refine ⟨rfl, hlt, by simp [hvalue], ?_⟩
  simp

variable {c : Char} {e : RenderError}

theorem writeAt_zero :
    writeAt (done ++ c :: tail) done.length [nul] = .ok (done ++ nul :: tail) := by
  rw [writeAt_append (by simp)]
  simp

theorem item_written {buf : List Char} {chars : ℕ}
    (h : item.render env (done ++ tail) done.length tail.length = .ok (buf, chars)) :
    chars = needChars env item ∧ needChars env item < tail.length ∧
      (valueText env item).isSome ∧
      writeAt buf (done.length + chars) [nul] =
        .ok (done ++ itemSpan env item ++ nul :: tail.drop (needChars env item + 1)) := by
  obtain ⟨rfl, hlt, hsome, rfl⟩ := item_render_ok h
  refine ⟨rfl, hlt, hsome, ?_⟩
  have hpos : done.length + needChars env item = (done ++ itemSpan env item).length := by
    rw [length_append, length_itemSpan]
  rw [hpos]
  by_cases hop : item.op = .sfopMatchPattern
  · have hline : (itemLine env item).length + 1 = needChars env item := by
      rw [← length_itemSpan, itemSpan, if_pos hop]
      simp
    have hspan : itemSpan env item = itemLine env item ++ [nul] := by rw [itemSpan, if_pos hop]
    rw [hline, drop_eq_getElem_cons hlt]
    have hbuf : done ++ itemLine env item ++ nul :: tail[needChars env item] ::
          tail.drop (needChars env item + 1) =
        (done ++ itemSpan env item) ++ tail[needChars env item] ::
          tail.drop (needChars env item + 1) := by simp [hspan]
    rw [hbuf, writeAt_zero]
  · have hline : itemLine env item = itemSpan env item := by simp [itemSpan, if_neg hop]
    rw [hline, length_itemSpan, writeAt_zero]

theorem item_render_error (h : item.render env (done ++ tail) done.length tail.length = .error e) :
    e = .noRoom ∨ (e = .valueNotTerminated ∧ valueText env item = none) := by
  unfold StringFilterItem.render at h
  split at h
  · exact .inl (Except.error.inj h).symm
  split at h
  · rename_i hvalue
    exact .inr ⟨(Except.error.inj h).symm, hvalue⟩
  rename_i value hvalue
  simp only at h
  split at h
  · exact .inl (Except.error.inj h).symm
  rename_i hroom
  have hlen : ((itemText item.op item.attributeName value).take (tail.length - 1) ++
      [nul]).length ≤ tail.length := by
    simp only [length_append, length_take, length_singleton]
    omega
  rw [snprintf, writeAt_append hlen] at h
  cases h

variable (env : Env)

def restUsed (items : List StringFilterItem) : ℕ := (items.map fun i => needChars env i + 1).sum

/-- Items that leave room for nothing but the terminating zero, and another one behind them. -/
def FillsBuffer (bufLen : ℕ) : List StringFilterItem → Prop
  | [] => False
  | item :: items => ∃ pre post, items = pre ++ post ∧ post ≠ [] ∧
      needChars env item + restUsed env pre + 1 = bufLen

def restSpans (items : List StringFilterItem) : List Char :=
  items.flatMap fun i => ';' :: itemSpan env i

variable {env}
variable {buf : List Char} {bufLen : ℕ} {items : List StringFilterItem}

theorem renderRest_full (item : StringFilterItem) (items : List StringFilterItem) :
    renderRest env bufLen (item :: items) (done ++ [nul]) done.length = .error .writeOutside := by
  rw [renderRest, writeAt_outside (by simp)]
  rfl

theorem renderRest_cons (hlen : bufLen = done.length + (tail.length + 2)) (item : StringFilterItem)
    (items : List StringFilterItem) :
    renderRest env bufLen (item :: items) (done ++ nul :: c :: tail) done.length =
      (item.render env ((done ++ [';']) ++ nul :: tail) (done ++ [';']).length
          (nul :: tail).length >>= fun r =>
        writeAt r.1 ((done ++ [';']).length + r.2) [nul] >>= fun buf =>
          renderRest env bufLen items buf ((done ++ [';']).length + r.2)) := by
  rw [renderRest, writeAt_append (by simp)]
  have hroom : bufLen - (done.length + 1) = tail.length + 1 := by omega
  simp [hroom]

theorem renderRest_step (hlen : bufLen = done.length + (tail.length + 2)) (item : StringFilterItem)
    (items : List StringFilterItem) : let done' := done ++ ';' :: itemSpan env item
    renderRest env bufLen (item :: items) (done ++ nul :: c :: tail) done.length = .error .noRoom ∨
      (valueText env item = none ∧
        renderRest env bufLen (item :: items) (done ++ nul :: c :: tail) done.length =
          .error .valueNotTerminated) ∨
      ∃ tail', bufLen = done'.length + (tail'.length + 1) ∧
        renderRest env bufLen (item :: items) (done ++ nul :: c :: tail) done.length =
          renderRest env bufLen items (done' ++ nul :: tail') done'.length := by
  rw [renderRest_cons hlen]
  cases hitem : item.render env ((done ++ [';']) ++ nul :: tail) (done ++ [';']).length
      (nul :: tail).length with
  | error e =>
    rcases item_render_error hitem with rfl | ⟨rfl, hnone⟩
    · exact .inl rfl
    · exact .inr (.inl ⟨hnone, rfl⟩)
  | ok r =>
    obtain ⟨buf, chars⟩ := r
    obtain ⟨rfl, hlt, -, hwrite⟩ := item_written hitem
    refine .inr (.inr ⟨(nul :: tail).drop (needChars env item + 1), ?_, ?_⟩)
    · simp only [length_append, length_cons, length_drop, length_itemSpan] at hlen hlt ⊢
      omega
    · have hpos : (done ++ [';']).length + needChars env item =
          (done ++ ';' :: itemSpan env item).length := by
        simp only [length_append, length_cons, length_nil, length_itemSpan]
        omega
      rw [ok_bind, hwrite, ok_bind, hpos]
      simp

theorem renderRest_ok (hlen : bufLen = done.length + (tail.length + 1))
    (h : renderRest env bufLen items (done ++ nul :: tail) done.length = .ok buf) :
    ∃ tail', buf = done ++ restSpans env items ++ nul :: tail' := by
  induction items generalizing done tail with
  | nil =>
    cases h
    exact ⟨tail, by simp [restSpans]⟩
  | cons item items ih =>
    cases tail with
    | nil =>
      rw [renderRest_full] at h
      cases h
    | cons c tail =>
      rcases renderRest_step hlen item items with hno | ⟨-, hno⟩ | ⟨tail', hlen', hstep⟩
      · rw [hno] at h
        cases h
      · rw [hno] at h
        cases h
      rw [hstep] at h
      obtain ⟨tail'', rfl⟩ := ih hlen' h
      exact ⟨tail'', by simp [restSpans]⟩

theorem renderRest_error (hlen : bufLen = done.length + (tail.length + 1))
    (h : renderRest env bufLen items (done ++ nul :: tail) done.length = .error e) :
    e = .noRoom ∨ (e = .valueNotTerminated ∧ ∃ i ∈ items, valueText env i = none) ∨
      (e = .writeOutside ∧ ∃ pre post, items = pre ++ post ∧ post ≠ [] ∧
        done.length + restUsed env pre + 1 = bufLen) := by
  induction items generalizing done tail with
  | nil => cases h
  | cons item items ih =>
    cases tail with
    | nil =>
      rw [renderRest_full] at h
      refine .inr (.inr ⟨(Except.error.inj h).symm, [], item :: items, rfl, by simp, ?_⟩)
      simp [restUsed, hlen]
    | cons c tail =>
      rcases renderRest_step hlen item items with hno | ⟨hnone, hno⟩ | ⟨tail', hlen', hstep⟩
      · rw [hno] at h
        exact .inl (Except.error.inj h).symm
      · rw [hno] at h
        exact .inr (.inl ⟨(Except.error.inj h).symm, item, by simp, hnone⟩)
      rw [hstep] at h
      rcases ih hlen' h with rfl | ⟨rfl, i, hi, hnone⟩ | ⟨rfl, pre, post, rfl, hpost, hfull⟩
      · exact .inl rfl
      · exact .inr (.inl ⟨rfl, i, mem_cons_of_mem _ hi, hnone⟩)
      refine .inr (.inr ⟨rfl, item :: pre, post, rfl, hpost, ?_⟩)
      simp only [restUsed, map_cons, sum_cons, length_append, length_cons,
        length_itemSpan] at hfull ⊢
      omega

theorem render_cons (item : StringFilterItem) (items : List StringFilterItem)
    (buf : List Char) (bufLen : ℕ) :
    render env (item :: items) buf bufLen =
      (item.render env buf 0 bufLen >>= fun r => writeAt r.1 r.2 [nul] >>= fun buf =>
        renderRest env bufLen items buf r.2) :=
  rfl

theorem render_first (item : StringFilterItem) (items : List StringFilterItem)
    (buf : List Char) :
    render env (item :: items) buf buf.length = .error .noRoom ∨
      (valueText env item = none ∧
        render env (item :: items) buf buf.length = .error .valueNotTerminated) ∨
      ∃ tail, buf.length = (itemSpan env item).length + (tail.length + 1) ∧
        render env (item :: items) buf buf.length =
          renderRest env buf.length items (itemSpan env item ++ nul :: tail)
            (itemSpan env item).length := by
  rw [render_cons]
  cases hitem : item.render env ([] ++ buf) ([] : List Char).length buf.length with
  | error e =>
    have hfirst : item.render env buf 0 buf.length = .error e := hitem
    rw [hfirst]
    rcases item_render_error hitem with rfl | ⟨rfl, hnone⟩
    · exact .inl rfl
    · exact .inr (.inl ⟨hnone, rfl⟩)
  | ok r =>
    obtain ⟨buf', chars⟩ := r
    have hfirst : item.render env buf 0 buf.length = .ok (buf', chars) := hitem
    obtain ⟨rfl, hlt, -, hwrite⟩ := item_written hitem
    refine .inr (.inr ⟨buf.drop (needChars env item + 1), ?_, ?_⟩)
    · rw [length_itemSpan, length_drop]
      omega
    · simp only [length_nil, Nat.zero_add, nil_append] at hwrite
      rw [hfirst, ok_bind, hwrite, ok_bind, length_itemSpan]

theorem render_ok {buf' : List Char} (h : render env (item :: items) buf buf.length = .ok buf') :
    ∃ tail, buf' = itemSpan env item ++ restSpans env items ++ nul :: tail := by
  rcases render_first item items buf with hno | ⟨-, hno⟩ | ⟨tail, hlen, hstep⟩
  · rw [hno] at h
    cases h
  · rw [hno] at h
    cases h
  · rw [hstep] at h
    exact renderRest_ok hlen h

theorem render_error (h : render env items buf buf.length = .error e) :
    e = .noRoom ∨ (e = .valueNotTerminated ∧ ∃ i ∈ items, valueText env i = none) ∨
      (e = .writeOutside ∧ FillsBuffer env buf.length items) := by
  cases items with
  | nil => cases h
  | cons item items =>
    rcases render_first item items buf with hno | ⟨hnone, hno⟩ | ⟨tail, hlen, hstep⟩
    · rw [hno] at h
      exact .inl (Except.error.inj h).symm
    · rw [hno] at h
      exact .inr (.inl ⟨(Except.error.inj h).symm, item, by simp, hnone⟩)
    rw [hstep] at h
    rcases renderRest_error hlen h with rfl | ⟨rfl, i, hi, hi'⟩ | ⟨rfl, pre, post, hpre, hfull⟩
    · exact .inl rfl
    · exact .inr (.inl ⟨rfl, i, mem_cons_of_mem _ hi, hi'⟩)
    · rw [length_itemSpan] at hfull
      exact .inr (.inr ⟨rfl, pre, post, hpre, hfull⟩)

end StringFilterRender
