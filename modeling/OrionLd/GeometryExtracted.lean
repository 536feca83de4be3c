import OrionLd.Fallible
import OrionLd.PointTexts

/-! What the extract functions leave in their buffers for coordinates that are lists of points:
the first items, and all of them exactly where there is room. -/
namespace GeometryExtracted

open Fallible KjTree KjGeoExtract PointTexts WktTokens List Option

variable {len start : ℕ} {pre coords item : Text} {done items : List Text}
  {xs : List (Option (Option Text))} {ok : Bool}

def found (items : List Text) : List (Option (Option Text)) := items.map fun t => some (some t)

theorem next_coords (hpre : pre.length = start) (hdone : ∀ t ∈ done, t ≠ []) (item : Text) :
    (if (pre ++ commaText done).length = start then pre ++ commaText done
      else pre ++ commaText done ++ [',']) ++ item = pre ++ commaText (done ++ [item]) := by
  by_cases hnil : done = []
  · subst hnil
    have hstart : (pre ++ commaText []).length = start := by
      simpa [commaText] using hpre
    rw [if_pos hstart, nil_append, commaText_singleton]
    simp [commaText]
  · have hne := commaText_ne_nil hnil hdone
    have hlen : (pre ++ commaText done).length ≠ start := by
      rw [length_append, hpre]
      have hpos := length_pos_of_ne_nil hne
      omega
    rw [if_neg hlen, commaText_concat hnil, append_assoc, append_assoc]
    rfl

theorem addItems_result (hpre : pre.length = start) (hdone : ∀ t ∈ done, t ≠ [])
    (hxs : ∀ t, some (some t) ∈ xs → t ≠ [])
    (h : addItems len start (pre ++ commaText done) xs = some (ok, coords)) :
    ∃ taken rest, xs = found taken ++ rest ∧ coords = pre ++ commaText (done ++ taken) ∧
      (ok = true ↔ rest = []) := by
  induction xs generalizing done with
  | nil =>
    cases h
    exact ⟨[], [], rfl, by rw [append_nil], by simp⟩
  | cons x xs ih =>
    have hstop : some (false, pre ++ commaText done) = some (ok, coords) →
        ∃ taken rest, x :: xs = found taken ++ rest ∧ coords = pre ++ commaText (done ++ taken) ∧
          (ok = true ↔ rest = []) := by
      intro h
      cases h
      exact ⟨[], x :: xs, rfl, by rw [append_nil], by simp⟩
    cases x with
    | none => cases h
    | some x =>
      cases x with
      | none => exact hstop h
      | some item =>
        rw [addItems] at h
        by_cases hroom : len ≤ (pre ++ commaText done).length + item.length + 1
        · rw [if_pos hroom] at h
          exact hstop h
        have hitem := hxs item mem_cons_self
        rw [if_neg hroom, next_coords hpre hdone] at h
        have hnext : ∀ t ∈ done ++ [item], t ≠ [] :=
          forall_mem_append.mpr ⟨hdone, forall_mem_singleton.mpr hitem⟩
        obtain ⟨taken, rest, rfl, hcoords, hok⟩ :=
          ih hnext (fun t ht => hxs t (mem_cons_of_mem _ ht)) h
        refine ⟨item :: taken, rest, rfl, ?_, hok⟩
        rw [hcoords, append_assoc]
        rfl

theorem addItems_room (hne : xs ≠ [] ∨ pre.length < len)
    (h : addItems len start pre xs = some (true, coords)) : coords.length < len := by
  induction xs generalizing pre with
  | nil =>
    obtain ⟨-, rfl⟩ := Prod.mk.inj (some.inj h)
    exact hne.resolve_left fun h => h rfl
  | cons x xs ih =>
    cases x with
    | none => cases h
    | some x =>
      cases x with
      | none => cases h
      | some item =>
        rw [addItems] at h
        split at h
        · cases h
        refine ih (.inr ?_) h
        split_ifs
        · rw [length_append]
          omega
        · rw [length_append, length_append, length_singleton]
          omega

theorem addItems_fits (pre : Text) (done : List Text) (hpre : pre.length = start)
    (hdone : ∀ t ∈ done, t ≠ [])
    (hitems : ∀ t ∈ items, t ≠ [] ∧ start + t.length + 1 < len)
    (hroom : (pre ++ commaText (done ++ items)).length < len) :
    addItems len start (pre ++ commaText done) (found items) =
      some (true, pre ++ commaText (done ++ items)) := by
  induction items generalizing done with
  | nil => rw [append_nil]; rfl
  | cons item items ih =>
    obtain ⟨hne, hsmall⟩ := hitems item mem_cons_self
    have hnext := next_coords hpre hdone item
    have hfits : ¬ len ≤ (pre ++ commaText done).length + item.length + 1 := by
      by_cases hnil : done = []
      · subst hnil
        simp only [commaText, length_append, hpre]
        simpa using hsmall
      have hle := length_commaText_append (done ++ [item]) items
      rw [commaText_concat hnil, append_assoc] at hle
      simp only [length_append, length_cons, singleton_append] at hle hroom ⊢
      omega
    change addItems len start (pre ++ commaText done) (some (some item) :: found items) = _
    rw [addItems, if_neg hfits, hnext, ih _
      (forall_mem_append.mpr ⟨hdone, forall_mem_singleton.mpr hne⟩)
      (fun t ht => hitems t (mem_cons_of_mem item ht))
      (by rw [append_assoc]; exact hroom), append_assoc]
    rfl

variable {rest : List (Option (Option Text))} {t : Text}

theorem found_prefix {taken : List Text} (h : found items = found taken ++ rest) :
    taken <+: items ∧ (rest = [] → taken = items) := by
  obtain ⟨first, last, rfl, hfirst, hlast⟩ := map_eq_append_iff.mp h
  have hinj : Function.Injective fun t : Text => some (some t) := fun t t' ht =>
    some.inj (some.inj ht)
  obtain rfl := map_injective_iff.mpr hinj hfirst
  refine ⟨prefix_append _ _, ?_⟩
  rintro rfl
  rw [map_eq_nil_iff.mp hlast, append_nil]

theorem addItems_start (pre : Text) (hpre : pre.length = start)
    (hxs : ∀ t, some (some t) ∈ xs → t ≠ [])
    (h : addItems len start pre xs = some (ok, coords)) :
    ∃ taken rest, xs = found taken ++ rest ∧ coords = pre ++ commaText taken ∧
      (ok = true ↔ rest = []) := by
  have hstart : pre ++ commaText [] = pre := append_nil pre
  rw [← hstart] at h
  exact addItems_result hpre (forall_mem_nil _) hxs h

theorem mem_found (h : some (some t) ∈ found items) : t ∈ items := by
  obtain ⟨t', ht', heq⟩ := mem_map.mp h
  rwa [← some.inj (some.inj heq)]

theorem bufferText_none {close : Text} (h : bufferText len start none coords close = some t) :
    coords.length ≠ start ∧ t = coords ++ close ∧ (close ≠ [] → t.length < len) := by
  unfold bufferText at h
  split_ifs at h with hstart hclose
  · cases h
  · cases h
    exact ⟨hstart, rfl, fun hne => hclose.resolve_left hne⟩

theorem bufferText_some {close : Text} (old : Option Text) (hne : coords.length ≠ start)
    (hclose : close = [] ∨ (coords ++ close).length < len) :
    bufferText len start old coords close = some (coords ++ close) := by
  unfold bufferText
  rw [if_neg hne, if_pos hclose]

variable {α : Type} {extract : Option Text → KjNode → Option Extracted} {copy : Text → Text}
  {text : α → Text} {Fits : α → Prop} {old : Option Text} {nodes : List KjNode} {values : List α}

/-- What stands at the place of a value: its text where it fits, and else the end of the loop. -/
structure Extracts (extract : Option Text → KjNode → Option Extracted) (text : α → Text)
    (Fits : α → Prop) (node : KjNode) (value : α) : Prop where
  fits : Fits value → ∀ old, extract old node = some ⟨true, some (text value)⟩
  stops : ¬ Fits value → ∀ old extracted, extract old node = some extracted →
    extracted.ok = true → extracted.text = none

theorem bufferedItems_fits (h : List.Forall₂ (Extracts extract text Fits) nodes values)
    (hfits : ∀ value ∈ values, Fits value) :
    bufferedItems extract copy old nodes = found (values.map fun value => copy (text value)) := by
  induction h generalizing old with
  | nil => rfl
  | @cons node value nodes values hnode _ ih =>
    rw [bufferedItems, hnode.fits (hfits value mem_cons_self)]
    dsimp only
    rw [if_neg Bool.noConfusion, ih fun v hv => hfits v (mem_cons_of_mem value hv)]
    rfl

theorem bufferedItems_stop {node : KjNode} {value : α} (h : Extracts extract text Fits node value)
    (hfits : ¬ Fits value) (copy : Text → Text) (old : Option Text) (nodes : List KjNode) :
    ∃ x, bufferedItems extract copy old (node :: nodes) = [x] ∧ ∀ t, x ≠ some (some t) := by
  rw [bufferedItems]
  cases hextract : extract old node with
  | none => exact ⟨none, rfl, fun t => (some_ne_none (some t)).symm⟩
  | some extracted =>
    have hstop : ∀ t : Text, (some none : Option (Option Text)) ≠ some (some t) :=
      fun t ht => some_ne_none t (some.inj ht).symm
    dsimp only
    split_ifs with hok
    · exact ⟨some none, rfl, hstop⟩
    · rw [h.stops hfits old extracted hextract (Bool.eq_true_of_not_eq_false hok)]
      exact ⟨none, rfl, fun t => (some_ne_none (some t)).symm⟩

theorem bufferedItems_prefix {taken : List Text}
    (h : List.Forall₂ (Extracts extract text Fits) nodes values)
    (hitems : bufferedItems extract copy old nodes = found taken ++ rest) :
    ∃ first, first <+: values ∧ taken = first.map (fun value => copy (text value)) ∧
      (∀ value ∈ first, Fits value) ∧ (rest = [] → first = values) := by
  induction h generalizing old taken with
  | nil =>
    obtain ⟨htaken, -⟩ := append_eq_nil_iff.mp hitems.symm
    obtain rfl := map_eq_nil_iff.mp htaken
    exact ⟨[], prefix_rfl, rfl, forall_mem_nil _, fun _ => rfl⟩
  | @cons node value nodes values hnode _ ih =>
    by_cases hfit : Fits value
    · rw [bufferedItems, hnode.fits hfit] at hitems
      dsimp only at hitems
      cases taken with
      | nil =>
        refine ⟨[], nil_prefix, rfl, forall_mem_nil _, ?_⟩
        rintro rfl
        cases hitems
      | cons t taken =>
        obtain ⟨ht, htail⟩ := cons.inj hitems
        obtain ⟨first, hfound, rfl, hall, hend⟩ := ih htail
        obtain rfl := some.inj (some.inj ht)
        refine ⟨value :: first, prefix_cons_inj value |>.mpr hfound, rfl,
          forall_mem_cons.mpr ⟨hfit, hall⟩, ?_⟩
        intro hrest
        rw [hend hrest]
    · obtain ⟨x, hstop, hx⟩ := bufferedItems_stop hnode hfit copy old nodes
      rw [hstop] at hitems
      cases taken with
      | nil =>
        refine ⟨[], nil_prefix, rfl, forall_mem_nil _, ?_⟩
        rintro rfl
        cases hitems
      | cons t taken => exact absurd (cons.inj hitems).1 (hx t)

theorem mem_bufferedItems (h : List.Forall₂ (Extracts extract text Fits) nodes values)
    (ht : some (some t) ∈ bufferedItems extract copy old nodes) :
    ∃ value, t = copy (text value) := by
  induction h generalizing old with
  | nil => exact absurd ht not_mem_nil
  | @cons node value nodes values hnode _ ih =>
    by_cases hfit : Fits value
    · rw [bufferedItems, hnode.fits hfit] at ht
      dsimp only at ht
      rcases mem_cons.mp ht with heq | ht
      · exact ⟨value, some.inj (some.inj heq)⟩
      · exact ih ht
    · obtain ⟨x, hstop, hx⟩ := bufferedItems_stop hnode hfit copy old nodes
      rw [hstop] at ht
      exact absurd (mem_singleton.mp ht).symm (hx t)

theorem buffered_fits (pre : Text) (copy : Text → Text) (old : Option Text)
    (h : List.Forall₂ (Extracts extract text Fits) nodes values)
    (hfits : ∀ value ∈ values, Fits value) (hpre : pre.length = start) (hitems : ∀ value ∈ values,
    copy (text value) ≠ [] ∧ start + (copy (text value)).length + 1 < len)
    (hroom : (pre ++ commaText (values.map fun value => copy (text value))).length < len) :
    addItems len start pre (bufferedItems extract copy old nodes) =
      some (true, pre ++ commaText (values.map fun value => copy (text value))) := by
  have hsmall : ∀ t ∈ values.map (fun value => copy (text value)),
      t ≠ [] ∧ start + t.length + 1 < len := by
    intro t ht
    obtain ⟨value, hvalue, rfl⟩ := mem_map.mp ht
    exact hitems value hvalue
  have hloop := addItems_fits pre [] hpre (forall_mem_nil _) hsmall hroom
  have hstart : pre ++ commaText [] = pre := append_nil pre
  rw [hstart] at hloop
  rw [bufferedItems_fits h hfits]
  exact hloop

theorem buffered_result (pre : Text) (h : List.Forall₂ (Extracts extract text Fits) nodes values)
    (hne : values ≠ []) (hcopy : ∀ value, copy (text value) ≠ []) (hpre : pre.length = start)
    (hloop : addItems len start pre (bufferedItems extract copy old nodes) = some (ok, coords)) :
    ∃ first, first <+: values ∧ (∀ value ∈ first, Fits value) ∧
      coords = pre ++ commaText (first.map fun value => copy (text value)) ∧
      (first = values → ok = true) ∧ (ok = true → first = values ∧ coords.length < len) := by
  have hall : ∀ t, some (some t) ∈ bufferedItems extract copy old nodes → t ≠ [] := by
    intro t ht
    obtain ⟨value, rfl⟩ := mem_bufferedItems h ht
    exact hcopy value
  obtain ⟨taken, rest, hitems, hcoords, hok⟩ := addItems_start pre hpre hall hloop
  obtain ⟨first, hfound, rfl, hfits, hend⟩ := bufferedItems_prefix h hitems
  refine ⟨first, hfound, hfits, hcoords, ?_, ?_⟩
  · rintro rfl
    rw [bufferedItems_fits h hfits] at hitems
    exact hok.mpr (append_right_eq_self.mp hitems.symm)
  · rintro rfl
    refine ⟨hend (hok.mp rfl), addItems_room (.inl ?_) hloop⟩
    intro hnil
    rw [hnil] at hitems
    obtain ⟨hfirst, hrest⟩ := append_eq_nil_iff.mp hitems.symm
    obtain rfl := hend hrest
    exact hne (map_eq_nil_iff.mp (map_eq_nil_iff.mp hfirst))

variable {toDouble : ℚ → ℚ} {node : KjNode} {points : List Point}

variable (toDouble) in
def pointOf : KjNode → Option Point
  | .array [x, y] => do
    let longitude ← coordinate toDouble x
    let latitude ← coordinate toDouble y
    some ⟨longitude, latitude, 0⟩
  | .array [x, y, z] => do
    let longitude ← coordinate toDouble x
    let latitude ← coordinate toDouble y
    let altitude ← coordinate toDouble z
    some ⟨longitude, latitude, altitude⟩
  | _ => none

def listOf {α : Type} (item : KjNode → Option α) : KjNode → Option (List α)
  | .array items => if items.isEmpty then none else items.mapM item
  | _ => none
variable {item : KjNode → Option α}

theorem listOf_eq_some (h : listOf item node = some values) :
    ∃ items, children node = some items ∧ values ≠ [] ∧
      List.Forall₂ (fun node value => item node = some value) items values := by
  unfold listOf at h
  split at h
  · rename_i items
    split_ifs at h with hempty
    have hall := mapM_eq_some.mp h
    refine ⟨items, rfl, ?_, hall⟩
    rintro rfl
    rw [forall₂_nil_right_iff.mp hall] at hempty
    exact hempty rfl
  · cases h

theorem listOf_ne_nil {lists : List (List α)}
    (h : List.Forall₂ (fun node values => listOf item node = some values) nodes lists) :
    ∀ values ∈ lists, values ≠ [] := by
  induction h with
  | nil => exact forall_mem_nil _
  | cons hvalues _ ih =>
    obtain ⟨-, -, hne, -⟩ := listOf_eq_some hvalues
    exact forall_mem_cons.mpr ⟨hne, ih⟩

theorem nested_ne_nil {lists : List (List (List α))}
    (h : List.Forall₂ (fun node values => listOf (listOf item) node = some values) nodes lists) :
    ∀ values ∈ lists, ∀ inner ∈ values, inner ≠ [] := by
  induction h with
  | nil => exact forall_mem_nil _
  | cons hvalues _ ih =>
    obtain ⟨_, -, -, hinner⟩ := listOf_eq_some hvalues
    exact forall_mem_cons.mpr ⟨listOf_ne_nil hinner, ih⟩

theorem kjGeoPointExtract_of_pointOf {p : Point} (h : pointOf toDouble node = some p) :
    kjGeoPointExtract toDouble node = some (some p) := by
  unfold pointOf at h
  split at h
  · rename_i x y
    obtain ⟨longitude, hx, h⟩ := bind_eq_some_iff.mp h
    obtain ⟨latitude, hy, h⟩ := bind_eq_some_iff.mp h
    cases h
    have hall : [x, y].mapM (coordinate toDouble) = some [longitude, latitude] :=
      mapM_eq_some.mpr (.cons hx (.cons hy .nil))
    unfold kjGeoPointExtract children
    rw [map_some, hall]
  · rename_i x y z
    obtain ⟨longitude, hx, h⟩ := bind_eq_some_iff.mp h
    obtain ⟨latitude, hy, h⟩ := bind_eq_some_iff.mp h
    obtain ⟨altitude, hz, h⟩ := bind_eq_some_iff.mp h
    cases h
    have hall : [x, y, z].mapM (coordinate toDouble) = some [longitude, latitude, altitude] :=
      mapM_eq_some.mpr (.cons hx (.cons hy (.cons hz .nil)))
    unfold kjGeoPointExtract children
    rw [map_some, hall]
  · cases h

theorem pointItems_eq
    (h : List.Forall₂ (fun node p => pointOf toDouble node = some p) nodes points) :
    pointItems toDouble nodes = found (points.map pointBuffer) := by
  induction h with
  | nil => rfl
  | cons hp _ ih =>
    unfold pointItems found at ih ⊢
    rw [map_cons, map_cons, map_cons, kjGeoPointExtract_of_pointOf hp, ih]
    rfl

theorem kjGeoMultiPointExtract_eq (h : listOf (pointOf toDouble) node = some points) (len : ℕ)
    (old : Option Text) : kjGeoMultiPointExtract toDouble len old node =
      (addItems len 0 [] (found (points.map pointBuffer))).map fun r =>
        ⟨r.1, bufferText len 0 old r.2 []⟩ := by
  obtain ⟨nodes, hchildren, -, hall⟩ := listOf_eq_some h
  unfold kjGeoMultiPointExtract
  rw [hchildren]
  dsimp only [bind_eq_bind, bind_some]
  rw [pointItems_eq hall]
  cases addItems len 0 [] (found (points.map pointBuffer)) <;> rfl

theorem pointBuffers_ne_nil (points : List Point) : ∀ t ∈ points.map pointBuffer, t ≠ [] := by
  intro t ht
  obtain ⟨p, -, rfl⟩ := mem_map.mp ht
  exact pointBuffer_ne_nil p

theorem lineText_ne_nil (hne : points ≠ []) : lineText points ≠ [] :=
  commaText_ne_nil (fun hnil => hne (map_eq_nil_iff.mp hnil)) (pointBuffers_ne_nil points)

theorem pointBuffers_small (hlen : start + pointBufferSize < len) (points : List Point) :
    ∀ t ∈ points.map pointBuffer, t ≠ [] ∧ start + t.length + 1 < len := by
  intro t ht
  refine ⟨pointBuffers_ne_nil points t ht, ?_⟩
  obtain ⟨p, -, rfl⟩ := mem_map.mp ht
  have hsmall := length_pointBuffer p
  omega

theorem extract_points (h : listOf (pointOf toDouble) node = some points)
    (hroom : (lineText points).length < len) (hlen : 0 + pointBufferSize < len)
    (old : Option Text) :
    kjGeoMultiPointExtract toDouble len old node = some ⟨true, some (lineText points)⟩ := by
  obtain ⟨-, -, hne, -⟩ := listOf_eq_some h
  have hloop : addItems len 0 [] (found (points.map pointBuffer)) = some (true, lineText points) :=
    addItems_fits [] [] rfl (forall_mem_nil _) (pointBuffers_small hlen points) hroom
  rw [kjGeoMultiPointExtract_eq h, hloop, map_some, bufferText_some old
    (fun hnil => lineText_ne_nil hne (length_eq_zero_iff.mp hnil)) (.inl rfl),
    append_nil]

theorem extracted_points {extracted : Extracted}
    (h : listOf (pointOf toDouble) node = some points)
    (hextract : kjGeoMultiPointExtract toDouble len old node = some extracted) :
    ∃ taken, taken <+: points ∧ extracted.text = bufferText len 0 old (lineText taken) [] ∧
      (taken = points → extracted.ok = true) ∧
      (extracted.ok = true → (lineText points).length < len) := by
  obtain ⟨-, -, hne, -⟩ := listOf_eq_some h
  rw [kjGeoMultiPointExtract_eq h] at hextract
  obtain ⟨⟨ok, coords⟩, hloop, rfl⟩ := map_eq_some_iff.mp hextract
  obtain ⟨texts, rest, hitems, rfl, hok⟩ := addItems_start [] rfl
    (fun t ht => pointBuffers_ne_nil points t (mem_found ht)) hloop
  obtain ⟨hfound, hend⟩ := found_prefix hitems
  obtain ⟨taken, htaken, rfl⟩ := prefix_map_iff.mp hfound
  refine ⟨taken, htaken, rfl, ?_, ?_⟩
  · rintro rfl
    exact hok.mpr (append_right_eq_self.mp hitems.symm)
  · rintro rfl
    have hall := hend (hok.mp rfl)
    have hroom := addItems_room (.inl fun hnil => ?_) hloop
    · rwa [hall] at hroom
    · exact hne (map_eq_nil_iff.mp (map_eq_nil_iff.mp hnil))

variable {rings : List (List Point)}

def polygonText (rings : List (List Point)) : Text := inParentheses (lineText rings.flatten)

theorem ringItems_eq
    (h : List.Forall₂ (fun node points => listOf (pointOf toDouble) node = some points) nodes
    rings) : ringItems toDouble nodes = found (rings.flatten.map pointBuffer) := by
  induction h with
  | nil => rfl
  | cons hring _ ih =>
    obtain ⟨nodes, hchildren, -, hall⟩ := listOf_eq_some hring
    unfold ringItems found at ih ⊢
    rw [flatMap_cons, hchildren, ih, flatten_cons, map_append, map_append]
    exact congrArg (· ++ _) (pointItems_eq hall)

theorem flatten_ne_nil (h : ∀ ring ∈ rings, ring ≠ []) (hne : rings ≠ []) : rings.flatten ≠ [] := by
  obtain ⟨ring, rings, rfl⟩ := exists_cons_of_ne_nil hne
  exact append_ne_nil_of_left_ne_nil (h ring mem_cons_self) _

theorem kjGeoPolygonExtract_eq (h : listOf (listOf (pointOf toDouble)) node = some rings)
    (len : ℕ) (old : Option Text) : kjGeoPolygonExtract toDouble len old node =
      (addItems len 1 ['('] (found (rings.flatten.map pointBuffer))).map fun r =>
        ⟨r.1, bufferText len 1 old r.2 (if r.1 then [')'] else [])⟩ := by
  obtain ⟨nodes, hchildren, -, hall⟩ := listOf_eq_some h
  unfold kjGeoPolygonExtract
  rw [hchildren]
  dsimp only [bind_eq_bind, bind_some]
  rw [ringItems_eq hall]
  cases addItems len 1 ['('] (found (rings.flatten.map pointBuffer)) <;> rfl

theorem length_opened_ne (hne : points ≠ []) : ('(' :: lineText points).length ≠ 1 := by
  intro hone
  exact lineText_ne_nil hne (length_eq_zero_iff.mp (Nat.succ.inj hone))

theorem extract_polygon (h : listOf (listOf (pointOf toDouble)) node = some rings)
    (hroom : (polygonText rings).length < len) (hlen : 1 + pointBufferSize < len)
    (old : Option Text) :
    kjGeoPolygonExtract toDouble len old node = some ⟨true, some (polygonText rings)⟩ := by
  obtain ⟨nodes, -, hne, hall⟩ := listOf_eq_some h
  have hpoints := flatten_ne_nil (listOf_ne_nil hall) hne
  have hlength : (polygonText rings).length = (lineText rings.flatten).length + 2 := by
    simp [polygonText, inParentheses]
  have hloop : addItems len 1 ['('] (found (rings.flatten.map pointBuffer)) =
      some (true, '(' :: lineText rings.flatten) := by
    refine addItems_fits ['('] [] rfl (forall_mem_nil _) (pointBuffers_small hlen _) ?_
    change (lineText rings.flatten).length + 1 < len
    omega
  have htext := length_opened_ne hpoints
  rw [kjGeoPolygonExtract_eq h, hloop, map_some]
  change some (⟨true, bufferText len 1 old ('(' :: lineText rings.flatten) [')']⟩ : Extracted) = _
  rw [bufferText_some old htext (.inr hroom)]
  rfl

theorem extracted_polygon {extracted : Extracted}
    (h : listOf (listOf (pointOf toDouble)) node = some rings)
    (hextract : kjGeoPolygonExtract toDouble len old node = some extracted) :
    (extracted.ok = true ∧
        extracted.text = bufferText len 1 old ('(' :: lineText rings.flatten) [')']) ∨
      extracted.ok = false ∧
        ∃ taken, extracted.text = bufferText len 1 old ('(' :: lineText taken) [] := by
  rw [kjGeoPolygonExtract_eq h] at hextract
  obtain ⟨⟨ok, coords⟩, hloop, rfl⟩ := map_eq_some_iff.mp hextract
  obtain ⟨texts, rest, hitems, rfl, hok⟩ := addItems_start ['('] rfl
    (fun t ht => pointBuffers_ne_nil _ t (mem_found ht)) hloop
  obtain ⟨hfound, hend⟩ := found_prefix hitems
  cases ok with
  | true =>
    obtain rfl := hend (hok.mp rfl)
    exact .inl ⟨rfl, rfl⟩
  | false =>
    obtain ⟨taken, -, rfl⟩ := prefix_map_iff.mp hfound
    exact .inr ⟨rfl, taken, rfl⟩

end GeometryExtracted
