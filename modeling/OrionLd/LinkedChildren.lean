import Mathlib.Data.Fintype.Card

/-! Children of a container as a singly linked list, over arbitrary nodes. A container points to its
first and to its last child, and each child to the next one. -/
namespace LinkedChildren

open List Option Function

variable {ν : Type*}

structure Container (ν : Type*) where
  first : Option ν
  last : Option ν

structure Links (ν : Type*) where
  next : ν → Option ν
  container : Container ν

def Segment (next : ν → Option ν) : Option ν → List ν → Option ν → Prop
  | p, [], q => p = q
  | p, a :: l, q => p = some a ∧ Segment next (next a) l q

def Links.Lists (s : Links ν) (l : List ν) : Prop := Segment s.next s.container.first l none

structure Links.WellFormed (s : Links ν) (l : List ν) : Prop where
  lists : s.Lists l
  last : s.container.last = l.getLast?
  nodup : l.Nodup

section

variable [DecidableEq ν]

def Links.decouple (s : Links ν) (node : ν) : Option ν → Links ν
  | some prev => { s with next := Function.update s.next prev (s.next node) }
  | none => { s with container := { s.container with first := s.next node } }

def Links.add (s : Links ν) (node : ν) : Links ν where
  next := match s.container.last with
    | some last => Function.update (Function.update s.next last (some node)) node none
    | none => Function.update s.next node none
  container := match s.container.last with
    | some _ => { s.container with last := some node }
    | none => ⟨some node, some node⟩

end

variable {σ : Type*}

/-- The successor is read before the step. It runs out of fuel when it does not come to an end. -/
def forEach (links : σ → Links ν) (step : σ → ν → Option σ) : ℕ → Option ν → σ → Option σ
  | _, none, s => some s
  | 0, some _, _ => none
  | fuel + 1, some node, s =>
    (step s node).bind (forEach links step fuel ((links s).next node))

def walk (next : ν → Option ν) : ℕ → Option ν → Option (List ν)
  | _, none => some []
  | 0, some _ => none
  | fuel + 1, some node => (walk next fuel (next node)).map (node :: ·)

section

variable [DecidableEq ν]

def Links.cut (s : Links ν) (node : ν) (prev : Option ν) : Links ν :=
  let s' := s.decouple node prev
  if s.container.last = some node then
    { s' with container := { s'.container with last := prev } }
  else s'

def Links.cutFrom (s : Links ν) (node : ν) : ℕ → Option ν → Option ν → Links ν
  | fuel + 1, prev, some a =>
    if a = node then s.cut node prev else s.cutFrom node fuel (some a) (s.next a)
  | _, _, _ => s

def Links.unlink [Fintype ν] (s : Links ν) (node : ν) : Links ν :=
  s.cutFrom node (Fintype.card ν) none s.container.first

/-- The children of another container are put behind the last one, if there is one. -/
def Links.join (s : Links ν) (other : Container ν) : Option (Links ν) :=
  s.container.last.map fun last =>
    ⟨Function.update s.next last other.first, { s.container with last := other.last }⟩

end

variable {next next' : ν → Option ν} {p q r : Option ν} {l m : List ν} {a : ν}

theorem Segment.congr (h : Segment next p l q) (he : ∀ b ∈ l, next' b = next b) :
    Segment next' p l q := by
  induction l generalizing p with
  | nil => exact h
  | cons b l ih =>
    refine ⟨h.1, ?_⟩
    rw [he b mem_cons_self]
    exact ih h.2 fun c hc => he c (mem_cons_of_mem _ hc)

theorem segment_append : Segment next p (l ++ m) r ↔
    ∃ q, Segment next p l q ∧ Segment next q m r := by
  induction l generalizing p with
  | nil => simp [Segment]
  | cons b l ih => simp [Segment, ih, and_assoc]

theorem segment_concat : Segment next p (l ++ [a]) q ↔ Segment next p l (some a) ∧ next a = q := by
  rw [segment_append]
  constructor
  · rintro ⟨r, hl, rfl, hq⟩
    exact ⟨hl, hq⟩
  · rintro ⟨hl, hq⟩
    exact ⟨some a, hl, rfl, hq⟩

theorem Segment.unique (h : Segment next p l none) (k : Segment next p m none) : l = m := by
  induction l generalizing p m with
  | nil =>
    obtain rfl : p = none := h
    cases m with
    | nil => rfl
    | cons b m => exact absurd k.1 (by simp)
  | cons a l ih =>
    obtain ⟨rfl, h⟩ := h
    cases m with
    | nil => exact absurd k (by simp [Segment])
    | cons b m =>
      obtain ⟨hb, k⟩ := k
      cases hb
      rw [ih h k]

variable {links : σ → Links ν} {step : σ → ν → Option σ} {fuel : ℕ} {I : List ν → σ → Prop}
  {σ₀ σ₁ : σ} {s : Links ν}

theorem Segment.head? (h : Segment next p l none) : p = l.head? := by
  cases l with
  | nil => exact h
  | cons a l => exact h.1

theorem Links.WellFormed.next_eq (h : s.WellFormed (l ++ a :: m)) : s.next a = m.head? := by
  obtain ⟨q, -, hrest⟩ := segment_append.mp h.lists
  exact hrest.2.head?

theorem Links.WellFormed.first_eq (h : s.WellFormed l) : s.container.first = l.head? :=
  Segment.head? h.lists

/-- The rule of the loop: its invariant is about the children that are still to come, and the
successor has to be the next one of them. -/
theorem forEach_rule (hnext : ∀ a m s, I (a :: m) s → (links s).next a = m.head?)
    (hstep : ∀ a m s s', I (a :: m) s → step s a = some s' → I m s')
    (h : forEach links step fuel l.head? σ₀ = some σ₁) (h₀ : I l σ₀) : I [] σ₁ := by
  induction l generalizing fuel σ₀ with
  | nil =>
    cases fuel <;> exact some.inj h ▸ h₀
  | cons a m ih =>
    cases fuel with
    | zero => cases h
    | succ fuel =>
      obtain ⟨s', hs', hrest⟩ := bind_eq_some_iff.mp h
      rw [hnext a m σ₀ h₀] at hrest
      exact ih hrest (hstep a m σ₀ s' h₀ hs')

theorem forEach_returns (hnext : ∀ a m s, I (a :: m) s → (links s).next a = m.head?)
    (hstep : ∀ a m s, I (a :: m) s → ∃ s', step s a = some s' ∧ I m s')
    (hfuel : l.length ≤ fuel) (h₀ : I l σ₀) :
    ∃ σ₁, forEach links step fuel l.head? σ₀ = some σ₁ := by
  induction l generalizing fuel σ₀ with
  | nil => exact ⟨σ₀, by cases fuel <;> rfl⟩
  | cons a m ih =>
    cases fuel with
    | zero => cases hfuel
    | succ fuel =>
      obtain ⟨s', hs', h'⟩ := hstep a m σ₀ h₀
      obtain ⟨σ₁, hσ₁⟩ := ih (Nat.le_of_succ_le_succ hfuel) h'
      exact ⟨σ₁, bind_eq_some_iff.mpr ⟨s', hs', (hnext a m σ₀ h₀).symm ▸ hσ₁⟩⟩

theorem forEach_unchanged (h : (links σ₀).WellFormed l)
    (hstep : ∀ a rest, a :: rest <:+ m → step σ₀ a = some σ₀) (hm : m <:+ l)
    (hfuel : m.length ≤ fuel) : forEach links step fuel m.head? σ₀ = some σ₀ := by
  induction m generalizing fuel with
  | nil => cases fuel <;> rfl
  | cons a m ih =>
    obtain ⟨done, hdone⟩ := hm
    cases fuel with
    | zero => cases hfuel
    | succ fuel =>
      have hnext : (links σ₀).next a = m.head? := Links.WellFormed.next_eq (hdone ▸ h)
      have hrest : m <:+ l := ⟨done ++ [a], by rw [← hdone, append_assoc]; rfl⟩
      have ih := ih (fun b rest hb => hstep b rest (hb.trans (suffix_cons a m))) hrest
        (Nat.le_of_succ_le_succ hfuel)
      rw [← hnext] at ih
      exact bind_eq_some_iff.mpr ⟨σ₀, hstep a m (suffix_refl _), ih⟩

theorem walk_of_segment (h : Segment next p l none) (hfuel : l.length ≤ fuel) :
    walk next fuel p = some l := by
  induction l generalizing p fuel with
  | nil =>
    obtain rfl : p = none := h
    cases fuel <;> rfl
  | cons a l ih =>
    obtain ⟨rfl, h⟩ := h
    cases fuel with
    | zero => cases hfuel
    | succ fuel => rw [walk, ih h (Nat.le_of_succ_le_succ hfuel), map_some]

variable [DecidableEq ν]

theorem Segment.redirect (h : Segment next p (l ++ [a]) q) (hn : (l ++ [a]).Nodup) :
    Segment (Function.update next a r) p (l ++ [a]) r := by
  rw [segment_concat] at h ⊢
  refine ⟨h.1.congr fun b hb => ?_, update_self ..⟩
  have hne : b ≠ a := by
    rintro rfl
    exact (nodup_append.mp hn).2.2 b hb b (mem_singleton.mpr rfl) rfl
  exact update_of_ne hne ..

variable {node : ν}

/-- Behind the right predecessor a node is taken out of the walk, and what follows it stays. -/
theorem Links.decouple_lists (hl : Segment s.next s.container.first l (some node))
    (hm : Segment s.next (s.next node) m none) (hn : (l ++ m).Nodup) :
    Segment (s.decouple node l.getLast?).next (s.decouple node l.getLast?).container.first l
        (s.next node) ∧
      Segment (s.decouple node l.getLast?).next (s.next node) m none := by
  rcases l.eq_nil_or_concat with rfl | ⟨l, b, rfl⟩
  · exact ⟨rfl, hm⟩
  rw [concat_eq_append, List.getLast?_concat]
  rw [concat_eq_append] at hl hn
  obtain ⟨hd, -, apart⟩ := nodup_append.mp hn
  refine ⟨hl.redirect hd, hm.congr fun c hc => ?_⟩
  have hne : c ≠ b := fun e => apart b (mem_append_right _ (mem_singleton.mpr rfl)) c hc e.symm
  exact update_of_ne hne ..

theorem Links.decouple_last (prev : Option ν) :
    (s.decouple node prev).container.last = s.container.last := by
  rcases prev with _ | prev <;> rfl

theorem Links.WellFormed.add (h : s.WellFormed l) (hn : node ∉ l) :
    (s.add node).WellFormed (l ++ [node]) := by
  have nodup : (l ++ [node]).Nodup :=
    nodup_append.mpr ⟨h.nodup, nodup_singleton _, fun b hb c hc e =>
      hn (mem_singleton.mp hc ▸ e ▸ hb)⟩
  have hl := h.last
  have hs := h.lists
  rcases l.eq_nil_or_concat with rfl | ⟨l, b, rfl⟩
  · replace hl : s.container.last = none := hl
    refine ⟨?_, ?_, nodup⟩
    · unfold Links.Lists Links.add
      rw [hl]
      exact ⟨rfl, update_self ..⟩
    · unfold Links.add
      rw [hl]
      rfl
  · rw [concat_eq_append] at nodup hn ⊢
    rw [concat_eq_append, List.getLast?_concat] at hl
    rw [concat_eq_append] at hs
    refine ⟨?_, ?_, nodup⟩
    · unfold Links.Lists Links.add
      rw [hl]
      rw [segment_concat]
      refine ⟨?_, update_self ..⟩
      have led : Segment (Function.update s.next b (some node)) s.container.first (l ++ [b])
          (some node) := hs.redirect (nodup_append.mp nodup).1
      refine led.congr fun c hc => update_of_ne ?_ ..
      rintro rfl
      exact hn hc
    · unfold Links.add
      rw [hl, List.getLast?_concat]

theorem Links.WellFormed.addAll (h : s.WellFormed l) (hn : (l ++ m).Nodup) :
    (m.foldl Links.add s).WellFormed (l ++ m) := by
  induction m generalizing s l with
  | nil => simpa using h
  | cons b m ih =>
    have hb : b ∉ l := fun hm => (nodup_append.mp hn).2.2 b hm b mem_cons_self rfl
    have step := ih (h.add hb) (by simpa using hn)
    simpa using step

theorem Links.WellFormed.cut (h : s.WellFormed (l ++ a :: m)) :
    (s.cut a l.getLast?).WellFormed (l ++ m) := by
  obtain ⟨q, hl, rfl, hm⟩ := segment_append.mp h.lists
  have hsub : (l ++ m).Sublist (l ++ a :: m) := (List.Sublist.refl l).append (sublist_cons_self a m)
  have hnodup : (l ++ m).Nodup := h.nodup.sublist hsub
  obtain ⟨hbefore, hafter⟩ := Links.decouple_lists hl hm hnodup
  have hlists : (s.decouple a l.getLast?).Lists (l ++ m) := segment_append.mpr ⟨_, hbefore, hafter⟩
  unfold Links.cut
  split
  · next hend =>
    obtain rfl : m = [] := by
      rcases m.eq_nil_or_concat with rfl | ⟨m, b, rfl⟩
      · rfl
      refine absurd h.nodup ?_
      rw [h.last, concat_eq_append, ← cons_append, ← append_assoc,
        List.getLast?_concat, some.injEq] at hend
      rw [concat_eq_append, hend]
      intro hn
      exact (nodup_cons.mp (nodup_append.mp hn).2.1).1 (mem_append_right _ (mem_singleton.mpr rfl))
    exact ⟨hlists, by rw [append_nil], hnodup⟩
  · next hend =>
    refine ⟨hlists, ?_, hnodup⟩
    rw [Links.decouple_last, h.last]
    rcases m.eq_nil_or_concat with rfl | ⟨m, b, rfl⟩
    · exact absurd (h.last.trans List.getLast?_concat) hend
    · simp only [concat_eq_append, ← cons_append, ← append_assoc, List.getLast?_concat]

theorem Links.cutFrom_eq {prev : Option ν} (h : Segment s.next p (l ++ a :: m) none) (ha : a ∉ l)
    (hfuel : (l ++ a :: m).length ≤ fuel) :
    s.cutFrom a fuel prev p = s.cut a (l.getLast?.or prev) := by
  induction l generalizing p fuel prev with
  | nil =>
    obtain ⟨rfl, -⟩ := h
    cases fuel with
    | zero => cases hfuel
    | succ fuel => exact if_pos rfl
  | cons b l ih =>
    obtain ⟨rfl, h⟩ := h
    rw [mem_cons, not_or] at ha
    cases fuel with
    | zero => cases hfuel
    | succ fuel =>
      rw [Links.cutFrom, if_neg (Ne.symm ha.1), ih h ha.2 (Nat.le_of_succ_le_succ hfuel),
        List.getLast?_cons]
      cases l.getLast? <;> rfl

theorem Links.WellFormed.unlink [Fintype ν] (h : s.WellFormed l) (ha : a ∈ l) :
    (s.unlink a).WellFormed (l.erase a) := by
  obtain ⟨before, after, hnot, rfl, herase⟩ := exists_erase_eq ha
  rw [herase, Links.unlink, Links.cutFrom_eq h.lists hnot h.nodup.length_le_card, or_none]
  exact h.cut

theorem Links.unlink_next [Fintype ν] (h : s.WellFormed l) (ha : a ∈ l) (hnode : node ∉ l) :
    (s.unlink a).next node = s.next node := by
  obtain ⟨before, after, hnot, rfl, -⟩ := exists_erase_eq ha
  rw [Links.unlink, Links.cutFrom_eq h.lists hnot h.nodup.length_le_card, or_none]
  have hcut : (s.cut a before.getLast?).next = (s.decouple a before.getLast?).next := by
    unfold Links.cut
    split <;> rfl
  rw [hcut]
  cases hlast : before.getLast? with
  | none => rfl
  | some prev =>
    refine update_of_ne ?_ ..
    rintro rfl
    exact hnode (mem_append_left _ (mem_of_getLast? hlast))

/-- The two lists become one. An empty one that is joined takes the last pointer away, which no walk
needs. -/
theorem Links.WellFormed.join {other : Container ν} (h : s.WellFormed l) (hl : l ≠ [])
    (hm : Segment s.next other.first m none) (hn : (l ++ m).Nodup) :
    ∃ s', s.join other = some s' ∧ s'.Lists (l ++ m) := by
  obtain ⟨before, b, rfl⟩ := (eq_nil_or_concat' l).resolve_left hl
  have hlast : s.container.last = some b := by rw [h.last, List.getLast?_concat]
  obtain ⟨hd, -, apart⟩ := nodup_append.mp hn
  have hsecond : Segment (Function.update s.next b other.first) other.first m none :=
    hm.congr fun c hc => update_of_ne (fun e =>
      apart b (mem_append_right _ (mem_singleton.mpr rfl)) c hc e.symm) ..
  refine ⟨_, congrArg _ hlast, ?_⟩
  exact segment_append.mpr ⟨_, Segment.redirect h.lists hd, hsecond⟩

end LinkedChildren
