import Mathlib.Data.List.Basic

/-! Deterministic step systems over arbitrary states and events. A trace is a finite list of events;
guards are judged in the state where the event is taken. -/
namespace StepSystem

variable {σ ε : Type*}

def run (step : σ → ε → σ) (s : σ) (es : List ε) : σ := es.foldl step s

/-- Every event of the trace meets the guard in the state where it is taken. -/
def Guarded (step : σ → ε → σ) (ok : σ → ε → Prop) : σ → List ε → Prop
  | _, [] => True
  | s, e :: es => ok s e ∧ Guarded step ok (step s e) es

/-- The property holds in every state the trace passes, first and last included. -/
def Throughout (step : σ → ε → σ) (P : σ → Prop) : σ → List ε → Prop
  | s, [] => P s
  | s, e :: es => P s ∧ Throughout step P (step s e) es

instance decidableGuarded (step : σ → ε → σ) (ok : σ → ε → Prop)
    [∀ s e, Decidable (ok s e)] : ∀ s es, Decidable (Guarded step ok s es)
  | _, [] => isTrue trivial
  | s, e :: es =>
    have := decidableGuarded step ok (step s e) es
    inferInstanceAs (Decidable (ok s e ∧ _))

variable {step : σ → ε → σ} {ok dom : σ → ε → Prop} {P Inv : σ → Prop}
variable {s : σ} {es : List ε}

theorem Guarded.and (h : Guarded step ok s es) (k : Guarded step dom s es) :
    Guarded step (fun s e => ok s e ∧ dom s e) s es := by
  induction es generalizing s with
  | nil => trivial
  | cons e es ih => exact ⟨⟨h.1, k.1⟩, ih h.2 k.2⟩

theorem guarded_true : Guarded step (fun _ _ => True) s es := by
  induction es generalizing s with
  | nil => trivial
  | cons e es ih => exact ⟨trivial, ih⟩

theorem Throughout.mono (hPQ : ∀ s, Inv s → P s) (h : Throughout step Inv s es) :
    Throughout step P s es := by
  induction es generalizing s with
  | nil => exact hPQ s h
  | cons e es ih => exact ⟨hPQ s h.1, ih h.2⟩

theorem Throughout.first (h : Throughout step P s es) : P s := by
  cases es with
  | nil => exact h
  | cons e es => exact h.1

theorem Throughout.last (h : Throughout step P s es) : P (run step s es) := by
  induction es generalizing s with
  | nil => exact h
  | cons e es ih => exact ih h.2

theorem throughout_of_guarded (hs : Inv s) (keep : ∀ s e, Inv s → ok s e → Inv (step s e))
    (h : Guarded step ok s es) : Throughout step Inv s es := by
  induction es generalizing s with
  | nil => exact hs
  | cons e es ih => exact ⟨hs, ih (keep s e hs h.1) h.2⟩

/-- The exactness rule: when events outside the guard break the property at once,
a run keeps the property if and only if all its events meet the guard. -/
theorem throughout_iff_guarded (hs : Inv s) (hP : ∀ s, Inv s → P s)
    (keep : ∀ s e, Inv s → dom s e → ok s e → Inv (step s e))
    (lose : ∀ s e, Inv s → dom s e → ¬ ok s e → ¬ P (step s e)) (hdom : Guarded step dom s es) :
    Throughout step P s es ↔ Guarded step ok s es := by
  constructor
  · intro h
    induction es generalizing s with
    | nil => trivial
    | cons e es ih =>
      have hok : ok s e := by
        by_contra hn
        exact lose s e hs hdom.1 hn h.2.first
      exact ⟨hok, ih (keep s e hs hdom.1 hok) hdom.2 h.2⟩
  · intro h
    refine (throughout_of_guarded hs ?_ (h.and hdom)).mono hP
    intro s e hi ho
    exact keep s e hi ho.2 ho.1

/-- A property of the elements of a trace, each with those before it. -/
theorem splits_cons {α : Type*} {P : List α → α → Prop} (a : α) (as : List α) :
    (∀ pre r post, a :: as = pre ++ r :: post → P pre r) ↔
      P [] a ∧ ∀ pre r post, as = pre ++ r :: post → P (a :: pre) r := by
  constructor
  · intro h
    refine ⟨h [] a as rfl, ?_⟩
    intro pre r post hsplit
    exact h (a :: pre) r post (by rw [hsplit, List.cons_append])
  · rintro ⟨hhead, htail⟩ pre r post hsplit
    cases pre with
    | nil =>
      cases hsplit
      exact hhead
    | cons b pre =>
      obtain ⟨rfl, hrest⟩ := List.cons.inj hsplit
      exact htail pre r post hrest

end StepSystem
