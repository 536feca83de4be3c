import OrionLd.OrionldForwardGetEntity

/-! The attributes of a registration as a forwarded GET reads them from its document. The loop
over the items of contextRegistration reads the first one each time, and nothing looks at the
size of the array that the names are written to, or at the room for the port of a url. -/
namespace RegistrationInfoExtract

open KjTree (Text)
open OrionldForwardGetEntity (Url noUrl urlParse)

inductive Field where
  | attrs (names : List (Option Text))
  | providingApplication (url : Text)
  | other

abbrev Item := List Field

inductive Member where
  | contextRegistration (items : List Item)
  | other

abbrev Document := List Member

/-- The names that were written to registrationAttrV, and the provider. -/
structure Extracted where
  registrationAttrV : List Text
  url : Url
  /-- Whether a port was copied past the end of `portNumberString`. -/
  overrun : Bool

def readField (e : Extracted) : Field → Except Extracted Extracted
  | .attrs names => .ok { e with registrationAttrV := e.registrationAttrV ++ names.reduceOption }
  | .providingApplication url =>
    if e.url.host = [] then
      match urlParse url with
      | none => .error e
      | some url => .ok { e with url := url, overrun := e.overrun || url.overrun }
    else .ok e
  | .other => .ok e

def readMember (e : Extracted) : Member → Except Extracted Extracted
  | .contextRegistration items =>
    items.foldlM (fun e _ => (items.headD []).foldlM readField e) e
  | .other => .ok e

def kjTreeRegistrationInfoExtract (registrationP : Document) : Except Extracted Extracted :=
  registrationP.foldlM readMember ⟨[], noUrl, false⟩

/-- What is left behind, also where false is returned. -/
def left : Except Extracted Extracted → Extracted
  | .ok e => e
  | .error e => e

def namesIn (fields : List Field) : List Text := fields.flatMap fun
  | .attrs names => names.reduceOption
  | _ => []

def registered (d : Document) : List Field := d.flatMap fun
  | .contextRegistration items => items.flatten
  | .other => []

def Extracts (registrationAttrSize : ℕ) (d : Document) : Prop :=
  (left (kjTreeRegistrationInfoExtract d)).registrationAttrV.length ≤ registrationAttrSize ∧
    (left (kjTreeRegistrationInfoExtract d)).overrun = false ∧
    ∀ e, kjTreeRegistrationInfoExtract d = .ok e → e.registrationAttrV = namesIn (registered d)

def passed (d : Document) : List Field := d.flatMap fun
  | .contextRegistration items => items.flatMap fun _ => items.headD []
  | .other => []

def untilRefused (host : Text) : List Field → List Field × Bool
  | [] => ([], false)
  | .providingApplication url :: fields =>
    if host = [] then
      match urlParse url with
      | none => ([], true)
      | some url => untilRefused url.host fields
    else untilRefused host fields
  | field :: fields => (field :: (untilRefused host fields).1, (untilRefused host fields).2)

/-- A url that is read has a port of six or more characters. -/
def longPort (host : Text) : List Field → Bool
  | [] => false
  | .providingApplication url :: fields =>
    if host = [] then
      match urlParse url with
      | none => false
      | some url => url.overrun || longPort url.host fields
    else longPort host fields
  | _ :: fields => longPort host fields

variable {α β σ ε : Type*}

theorem foldlM_flatMap (f : σ → β → Except ε σ) (g : α → List β) (as : List α) (s : σ) :
    (as.flatMap g).foldlM f s = as.foldlM (fun s a => (g a).foldlM f s) s := by
  induction as generalizing s with
  | nil => rfl
  | cons a as ih =>
    rw [List.flatMap_cons, List.foldlM_append, List.foldlM_cons]
    congr 1
    funext s
    exact ih s

theorem extract_eq (d : Document) :
    kjTreeRegistrationInfoExtract d = (passed d).foldlM readField ⟨[], noUrl, false⟩ := by
  unfold kjTreeRegistrationInfoExtract passed
  rw [foldlM_flatMap]
  congr 1
  funext e member
  cases member with
  | contextRegistration items => exact (foldlM_flatMap readField _ items e).symm
  | other => rfl

theorem fields_read (fields : List Field) (e : Extracted) :
    (left (fields.foldlM readField e)).registrationAttrV =
        e.registrationAttrV ++ namesIn (untilRefused e.url.host fields).1 ∧
      (left (fields.foldlM readField e)).overrun = (e.overrun || longPort e.url.host fields) ∧
      ((∃ e', fields.foldlM readField e = .ok e') ↔
        (untilRefused e.url.host fields).2 = false) ∧
      ((untilRefused e.url.host fields).2 = false →
        namesIn (untilRefused e.url.host fields).1 = namesIn fields) := by
  induction fields generalizing e with
  | nil =>
    exact ⟨(List.append_nil _).symm, (Bool.or_false _).symm, iff_of_true ⟨e, rfl⟩ rfl, fun _ => rfl⟩
  | cons field fields ih =>
    rw [List.foldlM_cons]
    cases field with
    | attrs names =>
      obtain ⟨hwritten, hports, hok, hall⟩ :=
        ih ⟨e.registrationAttrV ++ names.reduceOption, e.url, e.overrun⟩
      refine ⟨hwritten.trans (List.append_assoc _ _ _), hports, hok, ?_⟩
      intro h
      exact congrArg (names.reduceOption ++ ·) (hall h)
    | providingApplication url =>
      rw [untilRefused, longPort, readField]
      by_cases hhost : e.url.host = []
      · rw [if_pos hhost, if_pos hhost, if_pos hhost]
        cases urlParse url with
        | none =>
          exact ⟨(List.append_nil _).symm, (Bool.or_false _).symm, iff_of_false nofun nofun, nofun⟩
        | some url =>
          obtain ⟨hwritten, hports, hrest⟩ :=
            ih ⟨e.registrationAttrV, url, e.overrun || url.overrun⟩
          exact ⟨hwritten, hports.trans (Bool.or_assoc _ _ _), hrest⟩
      · rw [if_neg hhost, if_neg hhost, if_neg hhost]
        exact ih e
    | other => exact ih e

/-- The names are extracted completely and in bounds if and only if those of the first item, once
for each item and up to a url that is refused, fit into the array, no port of a url is too long, and
the names are those of all items if no url is refused. -/
theorem extracts_iff (registrationAttrSize : ℕ) (d : Document) :
    Extracts registrationAttrSize d ↔
      (namesIn (untilRefused [] (passed d)).1).length ≤ registrationAttrSize ∧
        longPort [] (passed d) = false ∧
        ((untilRefused [] (passed d)).2 = false →
          namesIn (passed d) = namesIn (registered d)) := by
  obtain ⟨hwritten, hports, hok, hall⟩ := fields_read (passed d) ⟨[], noUrl, false⟩
  unfold Extracts
  rw [extract_eq, hwritten, hports, List.nil_append, Bool.false_or]
  refine and_congr_right fun _ => and_congr_right fun _ => ?_
  constructor
  · intro h hrefused
    obtain ⟨e, he⟩ := hok.mpr hrefused
    rw [he] at hwritten
    rw [← h e he, ← hall hrefused]
    exact hwritten.symm
  · intro h e he
    have hrefused := hok.mp ⟨e, he⟩
    rw [he] at hwritten
    rw [← h hrefused, ← hall hrefused]
    exact hwritten

theorem second_item_not_extracted : ¬ ∀ size d, Extracts size d := by
  intro h
  have hnames := (h 100 [.contextRegistration [[.attrs [some "A".toList]],
    [.attrs [some "B".toList]]]]).2.2 _ rfl
  exact absurd hnames (by decide)

end RegistrationInfoExtract
