import OrionLd.KjTreeToRegistration

/-! Whether the answer to POST /ngsi-ld/v1/csourceRegistrations tells what was done. Every member of
the payload has its check. -/
namespace OrionldPostRegistrations

open KjTree KjTreeToContextAttribute KjTreeToEntIdVector KjTreeToRegistration Fallible
open OrionldContextItem
open StepSystem (splits_cons)
open PcheckGeoQ
open PcheckSubscription (itemsCheck)

variable (env : Env)

def passed {α : Type} (x : Except CheckError α) : Except CheckError Unit := x.map fun _ => ()

def fieldCheck (f : Field) (node : KjNode) : Except CheckError Unit :=
  match f with
  | .name | .description | .endpoint => passed (stringCheck f.label node)
  | .information => do
    let items ← itemsCheck f.label node
    passed (kjTreeToRegistrationInformation env.toContexts items)
  | .observationInterval | .managementInterval => do
    let members ← objectMembers f.label node
    (kjTreeToTimeInterval env members ⟨0, 0⟩).2
  | .location | .observationSpace | .operationSpace => do
    let members ← objectMembers f.label node
    (kjTreeToGeoLocation f.text.toList members ⟨none, none⟩).2
  | .expires => do
    let s ← stringCheck f.label node
    if timeOf env s = -1 then .error (badRequest "Invalid DateTime value" f.label) else .ok ()

def fieldOf (m : Text × KjNode) : Option Field :=
  match memberKind m.1 with
  | .field f => some f
  | _ => none

def seenIn (pre : Members) : List Field := pre.filterMap fieldOf

def memberCheck (seen : List Field) (m : Text × KjNode) : Except CheckError Unit :=
  match fieldOf m with
  | some f => if f ∈ seen then .error (duplicated f) else fieldCheck env f m.2
  | none => .ok ()

def Refuses : Except CheckError Unit → Prop
  | .error (.response _ _ _) => True
  | _ => False

structure AllPassed (p : Post) : Prop where
  id : idCheck p = .ok ()
  type : typeCheck p = .ok ()
  members : ∀ pre m post, p.members = pre ++ m :: post →
    memberCheck env (seenIn pre) m = .ok ()

def SomeRefused (p : Post) : Prop :=
  Refuses (idCheck p) ∨ Refuses (typeCheck p) ∨
    ∃ pre m post, p.members = pre ++ m :: post ∧ Refuses (memberCheck env (seenIn pre) m)

structure Truthful (db : Database) (p : Post) : Prop where
  created : ∀ tree inserted, orionldPostRegistrations env db p = .answered 201 tree inserted →
    AllPassed env p ∧ inserted.isSome = true
  refused : SomeRefused env p → ∃ status problem,
    orionldPostRegistrations env db p = .answered status (some problem) none ∧ 400 ≤ status

def unreadFields : List Field :=
  [.observationInterval, .managementInterval, .location, .observationSpace, .operationSpace]

def carriedCheck (f : Field) (node : KjNode) : Except CheckError Unit :=
  if f ∈ unreadFields then passed (objectMembers f.label node) else fieldCheck env f node

def firstFailure : List Field → Members → Option CheckError
  | _, [] => none
  | seen, m :: members =>
    match fieldOf m with
    | none => firstFailure seen members
    | some f =>
      if f ∈ seen then some (duplicated f)
      else match carriedCheck env f m.2 with
        | .error e => some e
        | .ok _ => firstFailure (seen ++ [f]) members

def Reported (db : Database) (p : Post) : Prop :=
  (p.payloadId.filter db.found).isSome ∨ idCheck p ≠ .ok () ∨ typeCheck p ≠ .ok () ∨
    match firstFailure env [] p.members with
    | some (.response _ _ _) => True
    | some .fault =>
      ∀ pre m post, p.members = pre ++ m :: post → ¬ Refuses (memberCheck env (seenIn pre) m)
    | none => db.inserts = true ∧
      ∀ m ∈ p.members, ∀ f ∈ unreadFields, fieldOf m = some f → fieldCheck env f m.2 = .ok ()

/-- Every failure but a fault has the status of an error. -/
def Answerable {α : Type} (x : Except CheckError α) : Prop :=
  ∀ status title details, x = .error (.response status title details) → 400 ≤ status

variable {α β : Type}

theorem answerable_ok (a : α) : Answerable (.ok a : Except CheckError α) := by
  intro status title details h
  cases h

theorem answerable_fault : Answerable (.error .fault : Except CheckError α) := by
  intro status title details h
  cases h

theorem answerable_response {status : ℕ} {title : String} {details : Text}
    (h : 400 ≤ status) :
    Answerable (.error (.response status title details) : Except CheckError α) := by
  intro status' title' details' heq
  cases heq
  exact h

variable {x : Except CheckError α} {f : α → Except CheckError β}

theorem answerable_bind (hx : Answerable x) (hf : ∀ a, Answerable (f a)) :
    Answerable (x >>= f) := by
  intro status title details h
  rcases bind_error h with h | ⟨a, -, h⟩
  · exact hx status title details h
  · exact hf a status title details h

theorem answerable_foldlM {f : β → α → Except CheckError β} (hf : ∀ b a, Answerable (f b a))
    (items : List α) : ∀ b, Answerable (items.foldlM f b) := by
  induction items with
  | nil => exact fun b => answerable_ok b
  | cons a items ih =>
    intro b
    exact answerable_bind (hf b a) ih

theorem answerable_mapM (hf : ∀ a, Answerable (f a)) (items : List α) :
    Answerable (items.mapM f) := by
  induction items with
  | nil => exact answerable_ok []
  | cons a items ih =>
    rw [List.mapM_cons]
    exact answerable_bind (hf a) fun _ => answerable_bind ih fun _ => answerable_ok _

theorem answerable_passed (h : Answerable x) : Answerable (passed x) := by
  cases x with
  | ok a => exact answerable_ok ()
  | error e =>
    intro status title details heq
    obtain rfl := Except.error.inj heq
    exact h status title details rfl

theorem answerable_once (seen : Option α) (field : String) : Answerable (once seen field) := by
  unfold once
  split
  · exact answerable_response (le_refl 400)
  · exact answerable_ok ()

theorem answerable_stringCheck (field : String) (node : KjNode) :
    Answerable (stringCheck field node) := by
  unfold stringCheck
  split
  · exact answerable_ok _
  · exact answerable_response (le_refl 400)

theorem answerable_itemsCheck (field : String) (node : KjNode) :
    Answerable (itemsCheck field node) := by
  unfold itemsCheck
  split
  · exact answerable_response (le_refl 400)
  · exact answerable_ok _
  · exact answerable_response (le_refl 400)

theorem answerable_objectMembers (field : String) (node : KjNode) :
    Answerable (objectMembers field node) := by
  unfold objectMembers
  split
  · exact answerable_ok _
  · exact answerable_response (le_refl 400)

theorem answerable_childNodes (node : KjNode) : Answerable (childNodes node) := by
  unfold childNodes
  split
  · exact answerable_ok _
  · exact answerable_ok _
  split
  · exact answerable_ok _
  · exact answerable_fault

theorem answerable_childMembers (node : KjNode) : Answerable (childMembers node) := by
  unfold childMembers
  split
  · exact answerable_ok _
  · exact answerable_ok _
  split
  · exact answerable_ok _
  · exact answerable_fault

theorem answerable_filledNodes (field : String) (node : KjNode) :
    Answerable (filledNodes field node) := by
  apply answerable_bind (answerable_childNodes node)
  intro items
  split
  · exact answerable_response (le_refl 400)
  · exact answerable_ok _

theorem answerable_field (x : Option α) (field : String) (node : KjNode) (b : Text → β) :
    Answerable (do
      once x field
      let s ← stringCheck field node
      .ok (b s)) :=
  answerable_bind (answerable_once x field) fun _ =>
    answerable_bind (answerable_stringCheck field node) fun s => answerable_ok (b s)

theorem answerable_entityField (f : EntityFields) (m : Text × KjNode) :
    Answerable (entityField f m) := by
  unfold entityField
  split
  · exact answerable_field f.id "EntityInfo::id" m.2 _
  split
  · exact answerable_field f.idPattern "EntityInfo::idPattern" m.2 _
  split
  · exact answerable_field f.type "EntityInfo::type" m.2 _
  · exact answerable_response (le_refl 400)

theorem answerable_entIDOfFields (c : Contexts) (f : EntityFields) :
    Answerable (entIDOfFields c f) := by
  unfold entIDOfFields
  split
  · exact answerable_response (le_refl 400)
  · exact answerable_response (le_refl 400)
  split
  · exact answerable_response (le_refl 400)
  split
  · exact answerable_response (le_refl 400)
  · exact answerable_ok _

theorem answerable_kjTreeToEntIdVector (c : Contexts) (node : KjNode) :
    Answerable (kjTreeToEntIdVector c node) := by
  apply answerable_bind (answerable_childNodes node)
  intro items
  apply answerable_mapM
  intro item
  unfold kjTreeToEntID
  split
  · exact answerable_bind (answerable_foldlM answerable_entityField _ _)
      fun f => answerable_entIDOfFields c f
  · exact answerable_response (le_refl 400)

theorem answerable_names (c : Contexts) (field : String) (items : List KjNode) :
    Answerable (items.mapM (expandedName c field)) := by
  apply answerable_mapM
  intro item
  exact answerable_bind (answerable_stringCheck field item) fun _ => answerable_ok _

theorem answerable_informationField (c : Contexts) (f : InformationFields)
    (m : Text × KjNode) : Answerable (informationField c f m) := by
  unfold informationField
  split
  · apply answerable_bind (answerable_once _ _)
    intro _
    apply answerable_bind (answerable_filledNodes _ _)
    intro _
    exact answerable_bind (answerable_kjTreeToEntIdVector c m.2) fun _ => answerable_ok _
  · split
    · apply answerable_bind (answerable_once _ _)
      intro _
      apply answerable_bind (answerable_filledNodes _ _)
      intro items
      exact answerable_bind (answerable_names c _ items) fun _ => answerable_ok _
    · split
      · apply answerable_bind (answerable_once _ _)
        intro _
        apply answerable_bind (answerable_filledNodes _ _)
        intro items
        exact answerable_bind (answerable_names c _ items) fun _ => answerable_ok _
      · exact answerable_response (le_refl 400)

theorem answerable_information (c : Contexts) (items : List KjNode) :
    Answerable (kjTreeToRegistrationInformation c items) := by
  unfold kjTreeToRegistrationInformation
  split
  · exact answerable_response (le_refl 400)
  · apply answerable_bind (answerable_childMembers _)
    intro members
    apply answerable_bind (answerable_foldlM (answerable_informationField c) _ _)
    intro f
    split
    · exact answerable_response (le_refl 400)
    · exact answerable_ok _
  · exact answerable_response (by omega)

theorem answerable_carriedCheck (env : Env) (f : Field) (node : KjNode) :
    Answerable (carriedCheck env f node) := by
  unfold carriedCheck
  split
  · exact answerable_passed (answerable_objectMembers _ _)
  rename_i hread
  unfold fieldCheck
  split
  · exact answerable_passed (answerable_stringCheck _ _)
  · exact answerable_passed (answerable_stringCheck _ _)
  · exact answerable_passed (answerable_stringCheck _ _)
  · exact answerable_bind (answerable_itemsCheck _ _) fun items =>
      answerable_passed (answerable_information _ items)
  · exact absurd (by decide) hread
  · exact absurd (by decide) hread
  · exact absurd (by decide) hread
  · exact absurd (by decide) hread
  · exact absurd (by decide) hread
  apply answerable_bind (answerable_stringCheck _ _)
  intro s
  split
  · exact answerable_response (le_refl 400)
  · exact answerable_ok _

theorem firstFailure_status (env : Env) (members : Members) :
    ∀ seen status title details,
      firstFailure env seen members = some (.response status title details) → 400 ≤ status := by
  induction members with
  | nil =>
    intro seen status title details h
    cases h
  | cons m members ih =>
    intro seen status title details h
    unfold firstFailure at h
    split at h
    · exact ih seen status title details h
    rename_i f hf
    split at h
    · obtain ⟨rfl, -, -⟩ := CheckError.response.inj (Option.some.inj h)
      exact le_refl 400
    split at h
    · rename_i e he
      cases h
      exact answerable_carriedCheck env f m.2 status title details he
    · exact ih _ status title details h

theorem passed_registrationField (r : Registration) (problem : Option CheckError) (f : Field)
    (node : KjNode) :
    passed (registrationField env r problem f node) = carriedCheck env f node := by
  cases f with
  | name | description | endpoint =>
    simp only [registrationField, carriedCheck, fieldCheck]
    generalize stringCheck _ node = s
    cases s <;> rfl
  | information =>
    simp only [registrationField, carriedCheck, fieldCheck]
    cases itemsCheck Field.information.label node with
    | error e => rfl
    | ok items =>
      simp only [ok_bind]
      cases kjTreeToRegistrationInformation env.toContexts items <;> rfl
  | expires =>
    simp only [registrationField, carriedCheck, fieldCheck]
    cases stringCheck Field.expires.label node with
    | error e => rfl
    | ok s =>
      simp only [ok_bind]
      by_cases ht : timeOf env s = -1
      · simp only [if_pos ht]
        rfl
      · simp only [if_neg ht]
        rfl
  | _ =>
    simp only [registrationField, carriedCheck]
    generalize objectMembers _ node = members
    cases members <;> rfl

theorem registrationMember_cases (s : Reading) (m : Text × KjNode) :
    match fieldOf m with
    | none => ∃ s', registrationMember env s m = .ok s' ∧ s'.seen = s.seen
    | some f =>
      if f ∈ s.seen then registrationMember env s m = .error (duplicated f)
      else match carriedCheck env f m.2 with
        | .error e => registrationMember env s m = .error e
        | .ok _ => ∃ s', registrationMember env s m = .ok s' ∧ s'.seen = s.seen ++ [f] := by
  unfold fieldOf registrationMember
  cases memberKind m.1 with
  | readOnly => exact ⟨s, rfl, rfl⟩
  | property => exact ⟨_, rfl, rfl⟩
  | field f =>
    simp only
    split
    · rfl
    rw [← passed_registrationField env s.registration s.problem]
    cases registrationField env s.registration s.problem f m.2 with
    | error e => rfl
    | ok result => exact ⟨_, rfl, rfl⟩

/-- The induction is on the members, over what the loop has read before them. -/
theorem loop_fails_iff (members : Members) :
    ∀ s e, members.foldlM (registrationMember env) s = .error e ↔
      firstFailure env s.seen members = some e := by
  induction members with
  | nil =>
    intro s e
    constructor
    · intro h
      cases h
    · intro h
      cases h
  | cons m members ih =>
    intro s e
    have hstep := registrationMember_cases env s m
    rw [List.foldlM_cons]
    unfold firstFailure
    cases hf : fieldOf m with
    | none =>
      rw [hf] at hstep
      obtain ⟨s', hs', hseen⟩ := hstep
      rw [hs', ok_bind, ih, hseen]
    | some f =>
      rw [hf] at hstep
      simp only at hstep ⊢
      by_cases hmem : f ∈ s.seen
      · rw [if_pos hmem] at hstep ⊢
        rw [hstep]
        constructor
        · intro h
          exact congrArg some (Except.error.inj h)
        · intro h
          exact congrArg Except.error (Option.some.inj h)
      · rw [if_neg hmem] at hstep ⊢
        cases hc : carriedCheck env f m.2 with
        | error e' =>
          rw [hc] at hstep
          rw [show registrationMember env s m = .error e' from hstep]
          constructor
          · intro h
            exact congrArg some (Except.error.inj h)
          · intro h
            exact congrArg Except.error (Option.some.inj h)
        | ok _ =>
          rw [hc] at hstep
          obtain ⟨s', hs', hseen⟩ := hstep
          rw [hs', ok_bind, ih, hseen]

theorem fieldCheck_of_carried {f : Field} {node : KjNode} (hf : f ∉ unreadFields) :
    fieldCheck env f node = carriedCheck env f node := by
  rw [carriedCheck, if_neg hf]

theorem all_pass_iff (members : Members) :
    ∀ seen, firstFailure env seen members = none →
      ((∀ pre m post, members = pre ++ m :: post →
          memberCheck env (seen ++ seenIn pre) m = .ok ()) ↔
        ∀ m ∈ members, ∀ f ∈ unreadFields, fieldOf m = some f → fieldCheck env f m.2 = .ok ()) := by
  induction members with
  | nil =>
    intro seen _
    simp
  | cons m members ih =>
    intro seen h
    rw [@splits_cons _ fun pre m => memberCheck env (seen ++ seenIn pre) m = .ok (),
      List.forall_mem_cons]
    unfold firstFailure at h
    cases hf : fieldOf m with
    | none =>
      rw [hf] at h
      have hhead : memberCheck env (seen ++ seenIn []) m = .ok () := by
        simp [memberCheck, hf]
      have hseen : ∀ pre, seenIn (m :: pre) = seenIn pre := fun pre => by simp [seenIn, hf]
      simp only [hhead, hseen, true_and]
      rw [ih seen h]
      simp
    | some f =>
      rw [hf] at h
      simp only at h
      split at h
      · cases h
      rename_i hmem
      split at h
      · cases h
      rename_i hcarried
      have hhead : memberCheck env (seen ++ seenIn []) m = fieldCheck env f m.2 := by
        simp [memberCheck, hf, seenIn, hmem]
      have hseen : ∀ pre, seen ++ seenIn (m :: pre) = (seen ++ [f]) ++ seenIn pre :=
        fun pre => by simp [seenIn, hf]
      simp only [hhead, hseen]
      rw [ih (seen ++ [f]) h]
      apply and_congr_left'
      constructor
      · intro hpass f' _ hf'
        cases hf'
        exact hpass
      · intro hunread
        by_cases hr : f ∈ unreadFields
        · exact hunread f hr rfl
        · rw [fieldCheck_of_carried env hr]
          exact hcarried

theorem not_refuses_ok {x : Except CheckError Unit} (h : x = .ok ()) : ¬ Refuses x := by
  rw [h]
  exact id

theorem idCheck_cases (p : Post) : idCheck p = .ok () ∨
    idCheck p = .error (.response 400 "Registration::id is not a URI" (registrationId p)) := by
  unfold idCheck
  split
  · exact .inl rfl
  · exact .inr rfl

theorem typeCheck_cases (p : Post) : typeCheck p = .ok () ∨
    ∃ title details, typeCheck p = .error (.response 400 title details) := by
  unfold typeCheck
  split
  · exact .inr ⟨_, _, rfl⟩
  split
  · exact .inl rfl
  · exact .inr ⟨_, _, rfl⟩

variable {db : Database} {p : Post}

theorem truthful_of_refused {status : ℕ} {title : String} {details : Text}
    (h : orionldPostRegistrations env db p =
    refused (.response status title details)) (hstatus : 400 ≤ status) : Truthful env db p := by
  refine ⟨?_, fun _ => ⟨status, _, h, hstatus⟩⟩
  intro tree inserted h201
  rw [h] at h201
  obtain ⟨rfl, -, -⟩ := Outcome.answered.inj h201
  omega

theorem some_refused_iff (hid : idCheck p = .ok ()) (htype : typeCheck p = .ok ()) :
    SomeRefused env p ↔ ∃ pre m post, p.members = pre ++ m :: post ∧
      Refuses (memberCheck env (seenIn pre) m) := by
  constructor
  · rintro (h | h | h)
    · exact absurd h (not_refuses_ok hid)
    · exact absurd h (not_refuses_ok htype)
    · exact h
  · intro h
    exact .inr (.inr h)

theorem truthful_of_crash_iff (hid : idCheck p = .ok ()) (htype : typeCheck p = .ok ())
    (h : orionldPostRegistrations env db p = .crashed) :
    Truthful env db p ↔ ∀ pre m post, p.members = pre ++ m :: post →
      ¬ Refuses (memberCheck env (seenIn pre) m) := by
  constructor
  · intro ht pre m post hsplit hrefuses
    obtain ⟨status, problem, hanswer, -⟩ :=
      ht.refused ((some_refused_iff env hid htype).mpr ⟨pre, m, post, hsplit, hrefuses⟩)
    rw [h] at hanswer
    cases hanswer
  · intro hno
    refine ⟨?_, ?_⟩
    · intro tree inserted h201
      rw [h] at h201
      cases h201
    · intro hrefused
      obtain ⟨pre, m, post, hsplit, hrefuses⟩ := (some_refused_iff env hid htype).mp hrefused
      exact absurd hrefuses (hno pre m post hsplit)

theorem truthful_of_created_iff {tree : Option CheckError} {r : Registration}
    (hid : idCheck p = .ok ()) (htype : typeCheck p = .ok ())
    (h : orionldPostRegistrations env db p =
    .answered 201 tree (if db.inserts then some r else none)) :
    Truthful env db p ↔ db.inserts = true ∧ ∀ pre m post, p.members = pre ++ m :: post →
      memberCheck env (seenIn pre) m = .ok () := by
  constructor
  · intro ht
    obtain ⟨hall, hins⟩ := ht.created _ _ h
    refine ⟨?_, hall.members⟩
    cases hdb : db.inserts with
    | true => rfl
    | false => simp [hdb] at hins
  · rintro ⟨hdb, hall⟩
    refine ⟨?_, ?_⟩
    · intro tree inserted h201
      rw [h] at h201
      obtain ⟨-, -, rfl⟩ := Outcome.answered.inj h201
      exact ⟨⟨hid, htype, hall⟩, by simp [hdb]⟩
    · intro hrefused
      obtain ⟨pre, m, post, hsplit, hrefuses⟩ := (some_refused_iff env hid htype).mp hrefused
      exact absurd hrefuses (not_refuses_ok (hall pre m post hsplit))

theorem post_of_reading (h : p.payloadId.filter db.found = none) :
    orionldPostRegistrations env db p = match kjTreeToRegistration env p with
      | .error e => refused e
      | .ok r => .answered 201 r.problem (if db.inserts then some r.registration else none) := by
  unfold orionldPostRegistrations
  cases kjTreeToRegistration env p <;> simp only [h]

theorem reading_of_checks (hid : idCheck p = .ok ()) (htype : typeCheck p = .ok ()) :
    kjTreeToRegistration env p = p.members.foldlM (registrationMember env)
      ⟨emptyRegistration (registrationId p), [], none⟩ := by
  rw [kjTreeToRegistration, hid, htype]
  rfl

theorem truthful_of_members_iff (hnew : p.payloadId.filter db.found = none)
    (hid : idCheck p = .ok ()) (htype : typeCheck p = .ok ()) :
    Truthful env db p ↔ match firstFailure env [] p.members with
      | some (.response _ _ _) => True
      | some .fault => ∀ pre m post, p.members = pre ++ m :: post →
          ¬ Refuses (memberCheck env (seenIn pre) m)
      | none => db.inserts = true ∧ ∀ m ∈ p.members, ∀ f ∈ unreadFields, fieldOf m = some f →
          fieldCheck env f m.2 = .ok () := by
  have hpost := post_of_reading env hnew
  rw [reading_of_checks env hid htype] at hpost
  have hloop := loop_fails_iff env p.members ⟨emptyRegistration (registrationId p), [], none⟩
  cases hfirst : firstFailure env [] p.members with
  | some e =>
    rw [(hloop e).mpr hfirst] at hpost
    cases e with
    | response status title details =>
      have hstatus := firstFailure_status env p.members [] status title details hfirst
      exact iff_of_true (truthful_of_refused env hpost hstatus) trivial
    | fault => exact truthful_of_crash_iff env hid htype hpost
  | none =>
    have hpass := all_pass_iff env p.members [] hfirst
    rw [← hpass]
    cases hread : p.members.foldlM (registrationMember env)
        ⟨emptyRegistration (registrationId p), [], none⟩ with
    | error e =>
      rw [(hloop e).mp hread] at hfirst
      cases hfirst
    | ok r =>
      rw [hread] at hpost
      exact truthful_of_created_iff env hid htype hpost

theorem post_truthful_iff (db : Database) (p : Post) :
    Truthful env db p ↔ Reported env db p := by
  unfold Reported
  cases hfound : p.payloadId.filter db.found with
  | some id =>
    have hpost : orionldPostRegistrations env db p =
        refused (.response 400 "Registration already exists" id) := by
      rw [orionldPostRegistrations, hfound]
    simp [truthful_of_refused env hpost (le_refl 400)]
  | none =>
    have hpost := post_of_reading env hfound
    rcases idCheck_cases p with hid | hid
    · rcases typeCheck_cases p with htype | ⟨title, details, htype⟩
      · rw [truthful_of_members_iff env hfound hid htype]
        simp [hid, htype]
      have hrefused : orionldPostRegistrations env db p =
          refused (.response 400 title details) := by
        rw [hpost, kjTreeToRegistration, hid, htype]
        rfl
      simp [truthful_of_refused env hrefused (le_refl 400), htype]
    · have hrefused : orionldPostRegistrations env db p =
          refused (.response 400 "Registration::id is not a URI" (registrationId p)) := by
        rw [hpost, kjTreeToRegistration, hid]
        rfl
      simp [truthful_of_refused env hrefused (le_refl 400), hid]

def bareEnv : Env where
  core := []
  context := []
  defaultUrl := "https://uri.etsi.org/ngsi-ld/default-context/".toList
  parse8601Time := fun _ => none
  valueAsInteger := fun _ => 0
  integerAsDouble := fun i => i
  requestTime := 0

def emptyIntervalPost : Post where
  payloadId := some "urn:r1".toList
  payloadType := some "ContextSourceRegistration".toList
  members := [("observationInterval".toList, .object [])]
  randomId := []
  special := by decide

theorem refused_interval_created : ¬ Truthful bareEnv ⟨fun _ => false, true⟩ emptyIntervalPost := by
  intro h
  have hcheck : memberCheck bareEnv (seenIn []) ("observationInterval".toList, .object []) =
      .error (badRequest "Missing field in TimeInterval" "TimeInterval::start") := rfl
  have hall := (h.created _ _ rfl).1.members [] ("observationInterval".toList, .object []) [] rfl
  cases hall

end OrionldPostRegistrations
