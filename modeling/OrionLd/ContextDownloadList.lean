import OrionLd.KjTree
import OrionLd.StepSystem
import Mathlib.Data.List.Nodup

/-! The list of the contexts that are being downloaded, under any number of threads. A thread marks
a URL before it downloads it, and clears the mark once the context is made or found to be unusable,
but not when the download fails. The name of an item has room for 255 bytes, so the mark of a longer
URL is another name. -/
namespace ContextDownloadList

open KjTree (Text)
open StepSystem List

/-- From 255 bytes on strncpy writes no terminator, and the name goes on as the memory does. -/
def storedName (rest url : Text) : Text :=
  if url.length < 255 then url else url.take 255 ++ rest

def contextDownloadListLookup (list : List Text) (url : Text) : Bool := list.contains url

def contextDownloadListAdd (list : List Text) (rest url : Text) : List Text :=
  storedName rest url :: list

def contextDownloadListRemove (list : List Text) (url : Text) : List Text := list.erase url

theorem lookup_iff {list : List Text} {url : Text} :
    contextDownloadListLookup list url = true ↔ url ∈ list :=
  contains_iff_mem

/-- Where a call of orionldContextFromUrl stands. -/
inductive Phase where
  | cacheLookup
  | listLookup
  | semaphore
  | wait
  | download
  | fromBuffer
  | remove
  deriving DecidableEq

def Phase.marked : Phase → Bool
  | .download | .fromBuffer | .remove => true
  | _ => false

/-- The innermost call comes first: a downloaded context may name others. -/
abbrev Frames := List (Text × Phase)

structure State (τ : Type*) where
  contextDownloadList : List Text
  frames : τ → Frames

def start {τ : Type*} : State τ := ⟨[], fun _ => []⟩

/-- The next step of a thread, with what the rest of the broker and the network answer. -/
inductive Event (τ : Type*) where
  | call (t : τ) (url : Text)
  | cached (t : τ) (hit : Bool)
  | lookup (t : τ)
  | section (t : τ) (rest : Text)
  | waited (t : τ)
  | downloaded (t : τ) (ok : Bool)
  | parsed (t : τ) (ok : Bool)
  | removed (t : τ)

def Event.thread {τ : Type*} : Event τ → τ
  | .call t _ | .cached t _ | .lookup t | .section t _ | .waited t | .downloaded t _
  | .parsed t _ | .removed t => t

/-- A step the innermost call is not at changes nothing. -/
def advance {τ : Type*} (list : List Text) : Event τ → Frames → List Text × Frames
  | .call _ url, [] => (list, [(url, .cacheLookup)])
  | .call _ url, (outer, .fromBuffer) :: frames =>
    (list, (url, .cacheLookup) :: (outer, .fromBuffer) :: frames)
  | .cached _ hit, (url, .cacheLookup) :: frames =>
    (list, if hit then frames else (url, .listLookup) :: frames)
  | .lookup _, (url, .listLookup) :: frames =>
    (list, (url, if contextDownloadListLookup list url then .wait else .semaphore) :: frames)
  | .section _ rest, (url, .semaphore) :: frames =>
    if contextDownloadListLookup list url then (list, (url, .wait) :: frames)
    else (contextDownloadListAdd list rest url, (url, .download) :: frames)
  | .waited _, (_, .wait) :: frames => (list, frames)
  | .downloaded _ ok, (url, .download) :: frames =>
    (list, if ok then (url, .fromBuffer) :: frames else frames)
  | .parsed _ ok, (url, .fromBuffer) :: frames =>
    if ok then (list, (url, .remove) :: frames)
    else (contextDownloadListRemove list url, frames)
  | .removed _, (url, .remove) :: frames => (contextDownloadListRemove list url, frames)
  | _, frames => (list, frames)

section

variable {τ : Type*} [DecidableEq τ]

def step (s : State τ) (e : Event τ) : State τ :=
  let (list, frames) := advance s.contextDownloadList e (s.frames e.thread)
  ⟨list, Function.update s.frames e.thread frames⟩

def downloading (frames : Frames) : List Text :=
  (frames.filter fun frame => frame.2.marked).map Prod.fst

omit [DecidableEq τ] in
def Tracks (s : State τ) : Prop :=
  ∀ url, url ∈ s.contextDownloadList ↔ ∃ t, url ∈ downloading (s.frames t)

omit [DecidableEq τ] in
/-- The download has not failed, and the mark of the URL is the URL. -/
def MarksWell (list : List Text) : Event τ → Frames → Prop
  | .section _ rest, frames => ∀ url outer, frames = (url, .semaphore) :: outer →
      url ∉ list → storedName rest url = url
  | .downloaded _ ok, frames => ∀ url outer, frames = (url, .download) :: outer → ok = true
  | _, _ => True

omit [DecidableEq τ] in
def Marked (s : State τ) (e : Event τ) : Prop :=
  MarksWell s.contextDownloadList e (s.frames e.thread)

inductive Change (list : List Text) (e : Event τ) (frames : Frames) : Prop where
  | none (hm : MarksWell list e frames) (h : (advance list e frames).1 = list)
      (hd : downloading (advance list e frames).2 = downloading frames)
  | add (url rest : Text) (outer : Frames) (hf : frames = (url, .semaphore) :: outer)
      (he : e = .section e.thread rest) (hnew : url ∉ list)
      (h : (advance list e frames).1 = storedName rest url :: list)
      (hd : downloading (advance list e frames).2 = url :: downloading frames)
  | fail (url : Text) (outer : Frames) (hf : frames = (url, .download) :: outer)
      (he : e = .downloaded e.thread false) (h : (advance list e frames).1 = list)
      (hd : downloading frames = url :: downloading (advance list e frames).2)
  | clear (url : Text) (hm : MarksWell list e frames)
      (h : (advance list e frames).1 = list.erase url)
      (hd : downloading frames = url :: downloading (advance list e frames).2)

omit [DecidableEq τ] in
theorem change_of_section (list : List Text) (t : τ) (rest : Text) (frames : Frames) :
    Change list (.section t rest : Event τ) frames := by
  cases frames with
  | nil => exact .none nofun rfl rfl
  | cons frame frames =>
    obtain ⟨url, phase⟩ := frame
    cases phase
    case semaphore =>
      by_cases hmem : url ∈ list
      · have hadvance : advance list (.section t rest : Event τ) ((url, .semaphore) :: frames) =
            (list, (url, .wait) :: frames) := if_pos (lookup_iff.mpr hmem)
        refine .none ?_ (by rw [hadvance]) (by rw [hadvance]; rfl)
        intro url' outer hf hnew
        obtain rfl := (Prod.mk.inj (cons.inj hf).1).1
        exact absurd hmem hnew
      · have hadvance : advance list (.section t rest : Event τ) ((url, .semaphore) :: frames) =
            (storedName rest url :: list, (url, .download) :: frames) :=
          if_neg fun h => hmem (lookup_iff.mp h)
        exact .add url rest frames rfl rfl hmem (by rw [hadvance]) (by rw [hadvance]; rfl)
    all_goals exact .none nofun rfl rfl

omit [DecidableEq τ] in
theorem change_of_advance (list : List Text) (e : Event τ) (frames : Frames) :
    Change list e frames := by
  cases frames with
  | nil =>
    cases e with
    | «section» t rest => exact change_of_section list t rest []
    | downloaded t ok => exact .none nofun rfl rfl
    | _ => exact .none trivial rfl rfl
  | cons frame frames =>
    obtain ⟨url, phase⟩ := frame
    cases e with
    | «section» t rest => exact change_of_section list t rest _
    | call t url' | waited t => cases phase <;> exact .none trivial rfl rfl
    | cached t hit => cases phase <;> cases hit <;> exact .none trivial rfl rfl
    | lookup t =>
      cases phase
      case listLookup =>
        refine .none trivial rfl ?_
        change downloading ((url, if contextDownloadListLookup list url then Phase.wait
          else Phase.semaphore) :: frames) = _
        split <;> rfl
      all_goals exact .none trivial rfl rfl
    | downloaded t ok =>
      cases phase
      case download =>
        cases ok with
        | true => exact .none (fun _ _ _ => rfl) rfl rfl
        | false => exact .fail url frames rfl rfl rfl rfl
      all_goals exact .none nofun rfl rfl
    | parsed t ok =>
      cases phase
      case fromBuffer =>
        cases ok with
        | true => exact .none trivial rfl rfl
        | false => exact .clear url trivial rfl rfl
      all_goals exact .none trivial rfl rfl
    | removed t =>
      cases phase
      case remove => exact .clear url trivial rfl rfl
      all_goals exact .none trivial rfl rfl

/-- A URL is in the list once and downloaded by one call of one thread. -/
structure Kept (s : State τ) : Prop where
  tracks : Tracks s
  listed : s.contextDownloadList.Nodup
  once : ∀ t, (downloading (s.frames t)).Nodup
  apart : ∀ t u, t ≠ u → List.Disjoint (downloading (s.frames t)) (downloading (s.frames u))

omit [DecidableEq τ] in
theorem start_kept : Kept (start : State τ) where
  tracks url := by
    constructor
    · intro h
      cases h
    · rintro ⟨t, h⟩
      cases h
  listed := nodup_nil
  once _ := nodup_nil
  apart _ _ _ := disjoint_nil_left _

variable {s : State τ} {t : τ} {list ds : List Text} {frames : Frames}

theorem downloading_update (s : State τ) (t u : τ) (frames : Frames) :
    downloading (Function.update s.frames t frames u) =
      if u = t then downloading frames else downloading (s.frames u) := by
  by_cases hut : u = t
  · rw [if_pos hut, hut, Function.update_self]
  · rw [if_neg hut, Function.update_of_ne hut]

theorem Kept.same (h : Kept s) (hd : downloading frames = downloading (s.frames t)) :
    Kept ⟨s.contextDownloadList, Function.update s.frames t frames⟩ := by
  have hsame : ∀ u, downloading (Function.update s.frames t frames u) =
      downloading (s.frames u) := by
    intro u
    rw [downloading_update]
    split
    · rename_i hut
      rw [hut, hd]
    · rfl
  refine ⟨fun url => ?_, h.listed, fun u => ?_, fun u v huv => ?_⟩
  · simp only [hsame]
    exact h.tracks url
  · dsimp only
    rw [hsame]
    exact h.once u
  · dsimp only
    rw [hsame, hsame]
    exact h.apart u v huv

variable {url : Text}

theorem Kept.add (h : Kept s) (hnew : url ∉ s.contextDownloadList)
    (hd : downloading frames = url :: downloading (s.frames t)) :
    Kept ⟨url :: s.contextDownloadList, Function.update s.frames t frames⟩ := by
  have hnone : ∀ u, url ∉ downloading (s.frames u) := by
    intro u hu
    exact hnew ((h.tracks url).mpr ⟨u, hu⟩)
  refine ⟨fun other => ?_, nodup_cons.mpr ⟨hnew, h.listed⟩, fun u => ?_, fun u v huv => ?_⟩
  · dsimp only
    rw [mem_cons, h.tracks]
    constructor
    · rintro (rfl | ⟨u, hu⟩)
      · exact ⟨t, by rw [downloading_update, if_pos rfl, hd]; exact mem_cons_self⟩
      · refine ⟨u, ?_⟩
        rw [downloading_update]
        split
        · rename_i hut
          rw [hd, ← hut]
          exact mem_cons_of_mem _ hu
        · exact hu
    · rintro ⟨u, hu⟩
      rw [downloading_update] at hu
      split at hu
      · rw [hd] at hu
        exact (mem_cons.mp hu).imp id fun hu => ⟨t, hu⟩
      · exact .inr ⟨u, hu⟩
  · dsimp only
    rw [downloading_update]
    split
    · rw [hd]
      exact nodup_cons.mpr ⟨hnone t, h.once t⟩
    · exact h.once u
  · dsimp only
    rw [downloading_update, downloading_update]
    by_cases hut : u = t
    · have hvt : v ≠ t := fun hvt => huv (hut.trans hvt.symm)
      rw [if_pos hut, if_neg hvt, hd]
      exact disjoint_cons_left.mpr ⟨hnone v, h.apart t v (Ne.symm hvt)⟩
    rw [if_neg hut]
    split
    · rw [hd]
      exact disjoint_cons_right.mpr ⟨hnone u, h.apart u t hut⟩
    · exact h.apart u v huv

theorem Kept.stopped (h : Kept s) (hd : downloading (s.frames t) = url :: downloading frames)
    (other : Text) : (∃ u, other ∈ downloading (Function.update s.frames t frames u)) ↔
      other ≠ url ∧ ∃ u, other ∈ downloading (s.frames u) := by
  have hnodup := h.once t
  rw [hd] at hnodup
  constructor
  · rintro ⟨u, hu⟩
    rw [downloading_update] at hu
    split at hu
    · refine ⟨?_, t, by rw [hd]; exact mem_cons_of_mem _ hu⟩
      rintro rfl
      exact (nodup_cons.mp hnodup).1 hu
    rename_i hut
    refine ⟨?_, u, hu⟩
    rintro rfl
    exact h.apart u t hut hu (by rw [hd]; exact mem_cons_self)
  · rintro ⟨hne, u, hu⟩
    refine ⟨u, ?_⟩
    rw [downloading_update]
    split
    · rename_i hut
      rw [hut, hd] at hu
      exact (mem_cons.mp hu).resolve_left hne
    · exact hu

theorem Kept.clear (h : Kept s) (hd : downloading (s.frames t) = url :: downloading frames) :
    Kept ⟨s.contextDownloadList.erase url, Function.update s.frames t frames⟩ := by
  have hsub : ∀ u, (downloading (Function.update s.frames t frames u)).Sublist
      (downloading (s.frames u)) := by
    intro u
    rw [downloading_update]
    split
    · rename_i hut
      rw [hut, hd]
      exact sublist_cons_self _ _
    · exact List.Sublist.refl _
  refine ⟨fun other => ?_, h.listed.erase url, fun u => (hsub u).nodup (h.once u),
    fun u v huv => ?_⟩
  · dsimp only
    rw [h.stopped hd, h.listed.mem_erase_iff, h.tracks]
  · exact disjoint_of_subset_left (hsub u).subset
      (disjoint_of_subset_right (hsub v).subset (h.apart u v huv))

theorem step_kept {e : Event τ} (h : Kept s) (hm : Marked s e) : Kept (step s e) := by
  unfold step
  dsimp only
  rcases change_of_advance s.contextDownloadList e (s.frames e.thread) with
    ⟨-, hlist, hd⟩ | ⟨url, rest, outer, hf, he, hnew, hlist, hd⟩ | ⟨url, outer, hf, he, -, -⟩ |
    ⟨url, -, hlist, hd⟩
  · rw [hlist]
    exact h.same hd
  · rw [he] at hm
    rw [hlist, hm url outer hf hnew]
    exact h.add hnew hd
  · rw [he] at hm
    exact absurd (hm url outer hf) (by decide)
  · rw [hlist]
    exact h.clear hd

/-- A failed download leaves its mark behind, and a mark that is cut is none. -/
theorem step_loses {e : Event τ} (h : Kept s) (hm : ¬ Marked s e) : ¬ Tracks (step s e) := by
  intro htracks
  unfold step at htracks
  dsimp only at htracks
  rcases change_of_advance s.contextDownloadList e (s.frames e.thread) with
    ⟨hwell, -, -⟩ | ⟨url, rest, outer, hf, he, hnew, hlist, hd⟩ |
    ⟨url, outer, hf, he, hlist, hd⟩ | ⟨url, hwell, -, -⟩
  · exact hm hwell
  · have hcut : storedName rest url ≠ url := by
      intro hname
      apply hm
      rw [he]
      intro url' outer' hf' _
      obtain ⟨hframe, -⟩ := cons.inj (hf.symm.trans hf')
      obtain rfl := (Prod.mk.inj hframe).1
      exact hname
    have hmem := (htracks url).mpr
      ⟨e.thread, by rw [downloading_update, if_pos rfl, hd]; exact mem_cons_self⟩
    rw [hlist] at hmem
    rcases mem_cons.mp hmem with hname | hmem
    · exact hcut hname.symm
    · exact hnew hmem
  · have hmem : url ∈ s.contextDownloadList :=
      (h.tracks url).mpr ⟨e.thread, by rw [hd]; exact mem_cons_self⟩
    have hstill := (htracks url).mp (by rw [hlist]; exact hmem)
    exact ((h.stopped hd url).mp hstill).1 rfl
  · exact hm hwell

/-- The list tracks the downloads if and only if no download of the run fails and every URL that is
marked fits into the name of its item. -/
theorem list_tracks_iff_marked (events : List (Event τ)) :
    Throughout step Tracks (start : State τ) events ↔ Guarded step Marked start events :=
  throughout_iff_guarded start_kept (fun _ h => h.tracks)
    (fun _ _ h _ hm => step_kept h hm) (fun _ _ h _ hm => step_loses h hm) guarded_true

omit [DecidableEq τ] in
/-- With no call under way the list that tracks them is empty. -/
theorem Tracks.idle (h : Tracks s) (hidle : ∀ t, s.frames t = []) : s.contextDownloadList = [] := by
  apply eq_nil_iff_forall_not_mem.mpr
  intro url hurl
  obtain ⟨t, ht⟩ := (h url).mp hurl
  rw [hidle] at ht
  cases ht

end

def enters (url : String) : List (Event Unit) :=
  [.call () url.toList, .cached () false, .lookup (), .section () []]

/-- After one failed download the URL is marked for ever. -/
theorem failed_download_stays_marked : ¬ ∀ events : List (Event Unit),
    Throughout step Tracks (start : State Unit) events := by
  intro h
  have htracks := (h (enters "http://a.org" ++ [.downloaded () false])).last
  have hempty := htracks.idle fun () => by decide +kernel
  exact absurd hempty (by decide +kernel)

end ContextDownloadList
