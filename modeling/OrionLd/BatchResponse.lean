import OrionLd.BatchEntities

/-! From the responses of mongoUpdateContext to the lists of a batch operation. A first pass
over the responses fills the success and the error lists, a second one over the elements of
the request adds to the success lists what is not there yet. -/
namespace BatchResponse

open KjTree BatchEntities List

/-- A ContextElementResponse; the code 200 is SccOk. -/
structure Response where
  id : Text
  code : ℕ
  reasonPhrase : Text

/-- mongoUpdateContext, whose own status is always SccOk. -/
abbrev MongoUpdateContext (κ : Type) :=
  List Element → List (EntityDoc κ) → List (EntityDoc κ) × List Response

def docsOf {κ : Type} (a : Text) (db : List (EntityDoc κ)) : List (EntityDoc κ) :=
  db.filter fun doc => doc.id = a

/-- Documents are touched and responses given only under the identifiers of the elements. -/
structure ForElements {κ : Type} (mongo : MongoUpdateContext κ) : Prop where
  frame : ∀ els db a, a ∉ els.map Element.id → docsOf a (mongo els db).1 = docsOf a db
  answers : ∀ els db, ∀ resp ∈ (mongo els db).2, resp.id ∈ els.map Element.id

structure Lists where
  created : List Text
  updated : List Text
  errorsArray : Errors

/-- entitySuccessPush on the list for entities that existed, or on the other. -/
def Lists.push (inDb : Text → Bool) (l : Lists) (a : Text) : Lists :=
  if inDb a then { l with updated := l.updated ++ [a] } else { l with created := l.created ++ [a] }

def Lists.pushError (l : Lists) (resp : Response) : Lists :=
  { l with
    errorsArray := entityErrorPush l.errorsArray
      (badRequest resp.id "" (some resp.reasonPhrase)) false }

def responsePass (inDb : Text → Bool) : List Response → Lists → Lists
  | [], l => l
  | resp :: responses, l =>
    responsePass inDb responses
      (if resp.code = 200 then l.push inDb resp.id else l.pushError resp)

def requestPass (inDb : Text → Bool) : List Element → Lists → Lists
  | [], l => l
  | el :: elements, l =>
    requestPass inDb elements
      (if el.id ∈ (if inDb el.id then l.updated else l.created) then l else l.push inDb el.id)

def fillLists (inDb : Text → Bool) (elements : List Element) (responses : List Response)
    (errorsArray : Errors) : Lists :=
  requestPass inDb elements (responsePass inDb responses ⟨[], [], errorsArray⟩)

def Lists.success (l : Lists) : List Text := l.updated ++ l.created

def Reported (responses : List Response) (a : Text) : Prop :=
  ∃ resp ∈ responses, resp.id = a ∧ resp.code ≠ 200

variable {inDb : Text → Bool} {a : Text}

theorem mem_success_push (l : Lists) (b : Text) :
    a ∈ (l.push inDb b).success ↔ a ∈ l.success ∨ a = b := by
  unfold Lists.push Lists.success
  split_ifs
  · simp only [mem_append, mem_singleton]
    exact or_right_comm
  · simp only [mem_append, mem_singleton, or_assoc]

theorem push_errors (l : Lists) (b : Text) : (l.push inDb b).errorsArray = l.errorsArray := by
  unfold Lists.push
  split_ifs <;> rfl

variable {l : Lists}
variable {responses : List Response}

theorem mem_responsePass : a ∈ (responsePass inDb responses l).success ↔
      a ∈ l.success ∨ ∃ resp ∈ responses, resp.id = a ∧ resp.code = 200 := by
  induction responses generalizing l with
  | nil => simp [responsePass]
  | cons resp responses ih =>
    rw [responsePass, ih, exists_mem_cons_iff, ← or_assoc]
    refine or_congr_left ?_
    split_ifs with h
    · rw [mem_success_push]
      exact or_congr_right ⟨fun ha => ⟨ha.symm, h⟩, fun ha => ha.1.symm⟩
    · exact (or_iff_left fun hboth => h hboth.2).symm

theorem mem_responsePass_errors : a ∈ errorIds (responsePass inDb responses l).errorsArray ↔
      a ∈ errorIds l.errorsArray ∨ Reported responses a := by
  unfold Reported
  induction responses generalizing l with
  | nil => simp [responsePass]
  | cons resp responses ih =>
    rw [responsePass, ih, exists_mem_cons_iff, ← or_assoc]
    refine or_congr_left ?_
    split_ifs with h
    · rw [push_errors]
      exact (or_iff_left fun hboth => hboth.2 h).symm
    · unfold Lists.pushError
      rw [mem_errorIds_push]
      exact or_congr_right ⟨fun ha => ⟨ha.symm, h⟩, fun ha => ha.1.symm⟩

theorem mem_requestPass {elements : List Element} : a ∈ (requestPass inDb elements l).success ↔
      a ∈ l.success ∨ a ∈ elements.map Element.id := by
  induction elements generalizing l with
  | nil => simp [requestPass]
  | cons el elements ih =>
    rw [requestPass, ih, map_cons, mem_cons, ← or_assoc]
    refine or_congr_left ?_
    by_cases h : el.id ∈ (if inDb el.id then l.updated else l.created)
    · rw [if_pos h]
      have hmem : el.id ∈ l.success := by
        split_ifs at h
        · exact mem_append_left _ h
        · exact mem_append_right _ h
      exact (or_iff_left_of_imp fun ha => ha ▸ hmem).symm
    · rw [if_neg h, mem_success_push]

theorem requestPass_errors (elements : List Element) (l : Lists) :
    (requestPass inDb elements l).errorsArray = l.errorsArray := by
  induction elements generalizing l with
  | nil => rfl
  | cons el elements ih =>
    rw [requestPass, ih]
    by_cases h : el.id ∈ (if inDb el.id then l.updated else l.created)
    · rw [if_pos h]
    · rw [if_neg h, push_errors]

variable {elements : List Element} {errorsArray : Errors}

/-- What is handed over ends up in success, whatever the response says. -/
theorem mem_fillLists
    (hanswers : ∀ resp ∈ responses, resp.id ∈ elements.map Element.id) :
    a ∈ (fillLists inDb elements responses errorsArray).success ↔ a ∈ elements.map Element.id := by
  unfold fillLists
  rw [mem_requestPass, mem_responsePass]
  constructor
  · rintro ((ha | ⟨resp, hresp, rfl, -⟩) | ha)
    · cases ha
    · exact hanswers resp hresp
    · exact ha
  · exact .inr

theorem mem_fillLists_errors :
    a ∈ errorIds (fillLists inDb elements responses errorsArray).errorsArray ↔
      a ∈ errorIds errorsArray ∨ Reported responses a := by
  unfold fillLists
  rw [requestPass_errors, mem_responsePass_errors]

structure BatchResult (κ : Type) where
  httpStatusCode : ℕ
  success : List Text
  errorsArray : Errors
  db : List (EntityDoc κ)

end BatchResponse
