import OrionLd.JsonText
import OrionLd.ServicePathRegex
import Mathlib.Algebra.Order.BigOperators.Group.List
import Mathlib.Data.UInt

/-! The counters of the requests, by service, sub-service and metric. The sums that are shown are
made in one pass over the counters, which leaves out the zeros and the services that have only
zeros. -/
namespace MetricsManager

open KjTree (Text)
open JsonText (Json)
open OrderedMap List Option
open StringFilter (stringSplit)

abbrev MetricMap := List (Text × UInt64)
abbrev Metrics := List (Text × List (Text × MetricMap))
abbrev Members := List (Text × Json)

structure Manager where
  on : Bool
  metrics : Metrics

def isNameChar (c : Char) : Bool := c.isAlphanum || c == '_'

def serviceValid (srv : Text) : Bool := decide (srv.length ≤ 50) && srv.all isNameChar

def componentsValid : List Text → Bool
  | [] => true
  | comp :: rest =>
    decide (comp.length ≤ 50) && comp != [] &&
      (rest.isEmpty && comp == ['#'] || comp.all isNameChar) && componentsValid rest

/-- servicePathCheck of rest.cpp, with a service path that was received. -/
def subServiceValid (servicePath : Text) : Bool :=
  if servicePath = [] then true
  else if servicePath.head? ≠ some '/' then false
  else
    let compV := stringSplit servicePath '/'
    decide (compV.length ≤ 10) && componentsValid compV

def servicePathForMetrics (spathIn : Text) : Option Text :=
  if spathIn = [] then some []
  else if subServiceValid spathIn = false then none
  else
    let spath := if spathIn.head? = some '/' then spathIn.tail else spathIn
    let spath := if "/#".toList <:+ spath then spath.take (spath.length - 2) else spath
    some (if spath = ['#'] then [] else spath)

structure Added where
  service : Text
  subService : Text
  metric : Text
  value : UInt64

def accepted (srvCanBeNull : Option Text) (subServ metric : Text) (value : UInt64) :
    Option Added :=
  let srv := srvCanBeNull.getD []
  if serviceValid srv = false then none
  else (servicePathForMetrics subServ).map fun subService => ⟨srv, subService, metric, value⟩

def addTo (metrics : Metrics) (a : Added) : Metrics :=
  adjust a.service [] (adjust a.subService [] (adjust a.metric 0 (· + a.value))) metrics

def add (m : Manager) (srvCanBeNull : Option Text) (subServ metric : Text) (value : UInt64) :
    Manager :=
  if m.on = false then m
  else
    match accepted srvCanBeNull subServ metric value with
    | none => m
    | some a => { m with metrics := addTo m.metrics a }

def reset (m : Manager) : Manager :=
  { m with metrics := m.metrics.map fun service =>
    (service.1, service.2.map fun sub => (sub.1, sub.2.map fun metric => (metric.1, 0))) }

def totalServiceTimeKey : Text := "_totalServiceTime".toList
def transInKey : Text := "incomingTransactions".toList
def serviceTimeKey : Text := "serviceTime".toList

-- What addNumber writes for the mean of the service times, a float.
variable (mean : UInt64 → UInt64 → Json)

structure Rendering where
  totalServiceTime : UInt64
  incomingTransactions : UInt64
  jh : Members

def Rendering.note (r : Rendering) (metric : Text) (value : UInt64) : Rendering :=
  if metric = totalServiceTimeKey then { r with totalServiceTime := value }
  else if metric = transInKey then { r with incomingTransactions := value }
  else r

def Rendering.addMean (r : Rendering) : Rendering :=
  if r.totalServiceTime ≠ 0 ∧ r.incomingTransactions ≠ 0 then
    ⟨0, 0, r.jh ++ [(serviceTimeKey, mean r.totalServiceTime r.incomingTransactions)]⟩
  else r

def renderMetric (r : Rendering) (e : Text × UInt64) : Rendering :=
  let r := (r.note e.1 e.2).addMean mean
  if e.1 ≠ totalServiceTimeKey ∧ e.2 ≠ 0 then
    { r with jh := r.jh ++ [(e.1, .number e.2.toInt64.toInt)] }
  else r

def metricsRender (metricsMap : MetricMap) : Members :=
  (metricsMap.foldl (renderMetric mean) ⟨0, 0, []⟩).jh

def addEntry (m : MetricMap) (e : Text × UInt64) : MetricMap :=
  if e.2 = 0 then m else adjust e.1 0 (· + e.2) m

def addCross (subService : Text) (cross : List (Text × MetricMap)) (e : Text × UInt64) :
    List (Text × MetricMap) :=
  if e.2 = 0 then cross else adjust subService [] (adjust e.1 0 (· + e.2)) cross

structure Sums where
  serviceSum : MetricMap
  sum : MetricMap
  subServCrossTenant : List (Text × MetricMap)

def addToSums (subService : Text) (s : Sums) (e : Text × UInt64) : Sums :=
  ⟨addEntry s.serviceSum e, addEntry s.sum e, addCross subService s.subServCrossTenant e⟩

def keyOr (substitute name : Text) : Text := if name ≠ [] then name else substitute

def serviceKey : Text → Text := keyOr "default-service".toList
def subServiceKey : Text → Text := keyOr "root-subserv".toList

structure ServiceLoop where
  sums : Sums
  jhSubService : Members

def subServiceStep (l : ServiceLoop) (sub : Text × MetricMap) : ServiceLoop :=
  let subServiceString := metricsRender mean sub.2
  ⟨sub.2.foldl (addToSums sub.1) l.sums,
    if subServiceString.isEmpty then l.jhSubService
    else l.jhSubService ++ [(subServiceKey sub.1, .object subServiceString)]⟩

structure Loop where
  sum : MetricMap
  subServCrossTenant : List (Text × MetricMap)
  services : Members

def serviceStep (l : Loop) (service : Text × List (Text × MetricMap)) : Loop :=
  let inner := service.2.foldl (subServiceStep mean) ⟨⟨[], l.sum, l.subServCrossTenant⟩, []⟩
  let serviceSumString := metricsRender mean inner.sums.serviceSum
  ⟨inner.sums.sum, inner.sums.subServCrossTenant,
    if inner.jhSubService.isEmpty && serviceSumString.isEmpty then l.services
    else l.services ++ [(serviceKey service.1, .object [("subservs".toList,
      .object inner.jhSubService), ("sum".toList, .object serviceSumString)])]⟩

def toJson (m : Manager) : Json :=
  let l := m.metrics.foldl (serviceStep mean) ⟨[], [], []⟩
  let jhSubServ := l.subServCrossTenant.map fun sub =>
    (subServiceKey sub.1, Json.object (metricsRender mean sub.2))
  .object [("services".toList, .object l.services),
    ("sum".toList, .object [("subservs".toList, .object jhSubServ),
      ("sum".toList, .object (metricsRender mean l.sum))])]

inductive Call where
  | add (srvCanBeNull : Option Text) (subServ metric : Text) (value : UInt64)
  | reset

def Call.run (m : Manager) : Call → Manager
  | .add srv subServ metric value => MetricsManager.add m srv subServ metric value
  | .reset => MetricsManager.reset m

def Call.note (added : List Added) : Call → List Added
  | .add srv subServ metric value => added ++ (accepted srv subServ metric value).toList
  | .reset => []

def sinceReset (calls : List Call) : List Added := calls.foldl Call.note []

def total (Q : Added → Prop) [DecidablePred Q] (added : List Added) : ℕ :=
  (added.map fun a => if Q a then a.value.toNat else 0).sum

def member : Json → List Text → Option Json
  | json, [] => some json
  | .object members, name :: path => (members.lookup name).bind fun json => member json path
  | _, _ => none

def shown (n : ℕ) : Option Json := if n = 0 then none else some (.number n)

def pathName (path : Text) : Text :=
  let path := if "/#".toList <:+ path then path.take (path.length - 2) else path
  if path.head? = some '/' then path.tail else path

/-- The help counter of the service times and their mean are no counters of their own. -/
def IsCounter (metric : Text) : Prop := metric ≠ totalServiceTimeKey ∧ metric ≠ serviceTimeKey

def names : Option Json → List Text
  | some (.object members) => members.map (·.1)
  | _ => []

structure Shows (json : Json) (added : List Added) : Prop where
  counter : ∀ service path metric, serviceValid service = true → subServiceValid path = true →
    IsCounter metric → member json ["services".toList, serviceKey service, "subservs".toList,
      subServiceKey (pathName path), metric] =
        shown (total (fun a => a.service = service ∧ a.subService = pathName path ∧
          a.metric = metric) added)
  serviceSum : ∀ service metric, serviceValid service = true → IsCounter metric →
    member json ["services".toList, serviceKey service, "sum".toList, metric] =
      shown (total (fun a => a.service = service ∧ a.metric = metric) added)
  subServiceSum : ∀ path metric, subServiceValid path = true → IsCounter metric →
    member json ["sum".toList, "subservs".toList, subServiceKey (pathName path), metric] =
      shown (total (fun a => a.subService = pathName path ∧ a.metric = metric) added)
  sum : ∀ metric, IsCounter metric → member json ["sum".toList, "sum".toList, metric] =
    shown (total (fun a => a.metric = metric) added)
  services : (names (member json ["services".toList])).Nodup
  subServices : (names (member json ["sum".toList, "subservs".toList])).Nodup
  serviceSubs : ∀ key, (names (member json ["services".toList, key, "subservs".toList])).Nodup

def amount (k : Text) : MetricMap → UInt64 := sumOver fun k' v => if k' = k then v else 0

def amountOf (Q : Text → Text → Text → Prop) [∀ s p k, Decidable (Q s p k)] : Metrics → UInt64 :=
  sumOver fun s => sumOver fun p => sumOver fun k v => if Q s p k then v else 0

variable {σ α : Type}

/-- Where every step of a loop adds to an amount, the loop adds them all. -/
theorem amount_foldl {A : σ → UInt64} {step : σ → α → σ} {a : α → UInt64}
    (h : ∀ s e, A (step s e) = A s + a e) (es : List α) (s : σ) :
    A (es.foldl step s) = A s + (es.map a).sum := by
  induction es generalizing s with
  | nil => exact (add_zero _).symm
  | cons e es ih => rw [foldl_cons, ih, h, map_cons, sum_cons, add_assoc]

theorem sumOver_addEntry (w : Text → Prop) [DecidablePred w] (m : MetricMap) (k : Text)
    (v : UInt64) : sumOver (fun k' v' => if w k' then v' else 0) (adjust k 0 (· + v) m) =
      sumOver (fun k' v' => if w k' then v' else 0) m + if w k then v else 0 := by
  apply sumOver_adjust
  · exact ite_self 0
  · intro x
    split
    · rfl
    · exact (add_zero 0).symm

theorem amountOf_addTo (Q : Text → Text → Text → Prop) [∀ s p k, Decidable (Q s p k)]
    (ms : Metrics) (a : Added) : amountOf Q (addTo ms a) =
      amountOf Q ms + if Q a.service a.subService a.metric then a.value else 0 := by
  refine sumOver_adjust rfl fun subs => sumOver_adjust rfl fun m => ?_
  exact sumOver_addEntry (Q a.service a.subService) m a.metric a.value

theorem amount_addEntry (k : Text) (m : MetricMap) (e : Text × UInt64) :
    amount k (addEntry m e) = amount k m + if e.1 = k then e.2 else 0 := by
  unfold addEntry
  split
  · rename_i hzero
    rw [hzero, ite_self, add_zero]
  · exact sumOver_addEntry (· = k) m e.1 e.2

theorem amount_addCross (p k subService : Text) (cross : List (Text × MetricMap))
    (e : Text × UInt64) :
    sumOver (fun p' m => if p' = p then amount k m else 0) (addCross subService cross e) =
      sumOver (fun p' m => if p' = p then amount k m else 0) cross +
        if subService = p then if e.1 = k then e.2 else 0 else 0 := by
  unfold addCross
  split
  · rename_i hzero
    rw [hzero, ite_self, ite_self, add_zero]
  apply sumOver_adjust
  · exact ite_self 0
  · intro m
    split
    · exact sumOver_addEntry (· = k) m e.1 e.2
    · exact (add_zero 0).symm

def subMember (sub : Text × MetricMap) : Option Json :=
  if (metricsRender mean sub.2).isEmpty then none else some (.object (metricsRender mean sub.2))

def subMembers (subs : List (Text × MetricMap)) : Members :=
  subs.filterMap fun sub => (subMember mean sub).map (subServiceKey sub.1, ·)

def serviceSumOf (subs : List (Text × MetricMap)) : MetricMap :=
  subs.foldl (fun m sub => sub.2.foldl addEntry m) []

def serviceMember (service : Text × List (Text × MetricMap)) : Option Json :=
  if (subMembers mean service.2).isEmpty &&
      (metricsRender mean (serviceSumOf service.2)).isEmpty then none
  else some (.object [("subservs".toList, .object (subMembers mean service.2)),
    ("sum".toList, .object (metricsRender mean (serviceSumOf service.2)))])

def serviceMembers (ms : Metrics) : Members :=
  ms.filterMap fun service => (serviceMember mean service).map (serviceKey service.1, ·)

variable {mean}

theorem jh_subServices (subs : List (Text × MetricMap)) (l : ServiceLoop) :
    (subs.foldl (subServiceStep mean) l).jhSubService = l.jhSubService ++ subMembers mean subs := by
  induction subs generalizing l with
  | nil => exact (append_nil _).symm
  | cons sub subs ih =>
    rw [foldl_cons, ih, subMembers, subMembers, filterMap_cons, subMember]
    dsimp only [subServiceStep]
    cases (metricsRender mean sub.2).isEmpty with
    | true => rfl
    | false => exact append_assoc _ _ _

theorem serviceSum_subServices (subs : List (Text × MetricMap)) (l : ServiceLoop) :
    (subs.foldl (subServiceStep mean) l).sums.serviceSum =
      subs.foldl (fun m sub => sub.2.foldl addEntry m) l.sums.serviceSum := by
  symm
  apply foldl_hom fun l : ServiceLoop => l.sums.serviceSum
  intro l sub
  exact foldl_hom Sums.serviceSum fun _ _ => rfl

theorem services_loop (ms : Metrics) (l : Loop) :
    (ms.foldl (serviceStep mean) l).services = l.services ++ serviceMembers mean ms := by
  induction ms generalizing l with
  | nil => exact (append_nil _).symm
  | cons service ms ih =>
    rw [foldl_cons, ih, serviceMembers, serviceMembers, filterMap_cons, serviceMember]
    dsimp only [serviceStep]
    rw [jh_subServices, serviceSum_subServices, nil_append]
    change (if (_ && (metricsRender mean (serviceSumOf service.2)).isEmpty) = true then _ else _) ++
      _ = _
    split
    · rfl
    · exact append_assoc _ _ _

variable (k p : Text)

theorem amount_serviceSum (subs : List (Text × MetricMap)) :
    amount k (serviceSumOf subs) = sumOver (fun _ m => amount k m) subs := by
  have hsum := amount_foldl (A := amount k) (a := fun sub : Text × MetricMap => amount k sub.2)
    (fun m sub => amount_foldl (A := amount k) (amount_addEntry k) sub.2 m) subs []
  exact hsum.trans (zero_add _)

theorem amount_loop_sum (ms : Metrics) (l : Loop) :
    amount k (ms.foldl (serviceStep mean) l).sum =
      amount k l.sum + amountOf (fun _ _ k' => k' = k) ms := by
  refine amount_foldl (A := fun l : Loop => amount k l.sum) (fun l service => ?_) ms l
  refine amount_foldl (A := fun l : ServiceLoop => amount k l.sums.sum) (fun l sub => ?_)
    service.2 _
  exact amount_foldl (A := fun s : Sums => amount k s.sum)
    (fun s e => amount_addEntry k s.sum e) sub.2 l.sums

theorem amount_loop_cross (ms : Metrics) (l : Loop) :
    sumOver (fun p' m => if p' = p then amount k m else 0)
        (ms.foldl (serviceStep mean) l).subServCrossTenant =
      sumOver (fun p' m => if p' = p then amount k m else 0) l.subServCrossTenant +
        amountOf (fun _ p' k' => p' = p ∧ k' = k) ms := by
  refine amount_foldl (A := fun l : Loop => sumOver (fun p' m => if p' = p then amount k m else 0)
    l.subServCrossTenant) (fun l service => ?_) ms l
  refine amount_foldl (A := fun l : ServiceLoop =>
    sumOver (fun p' m => if p' = p then amount k m else 0) l.sums.subServCrossTenant)
    (fun l sub => ?_) service.2 _
  refine (amount_foldl (A := fun s : Sums =>
    sumOver (fun p' m => if p' = p then amount k m else 0) s.subServCrossTenant)
    (fun s e => amount_addCross p k sub.1 s.subServCrossTenant e) sub.2 l.sums).trans ?_
  simp only [ite_and]
  rfl

variable {k : Text}

def shownValue (v : UInt64) : Option Json :=
  if v = 0 then none else some (.number v.toInt64.toInt)

theorem lookup_append_ne {members : Members} {name : Text} {json : Json} (h : name ≠ k) :
    (members ++ [(name, json)]).lookup k = members.lookup k := by
  rw [lookup_append, lookup_cons, beq_eq_false_iff_ne.mpr h.symm]
  exact or_none

theorem jh_noted (r : Rendering) (metric : Text) (value : UInt64) (hk : IsCounter k) :
    ((r.note metric value).addMean mean).jh.lookup k = r.jh.lookup k := by
  have hnote : (r.note metric value).jh = r.jh := by
    unfold Rendering.note
    split
    · rfl
    · split <;> rfl
  unfold Rendering.addMean
  split
  · rw [lookup_append_ne hk.2.symm, hnote]
  · rw [hnote]

theorem jh_renderMetric (r : Rendering) (e : Text × UInt64) (hk : IsCounter k) :
    (renderMetric mean r e).jh.lookup k =
      (r.jh.lookup k).or (if e.1 = k then shownValue e.2 else none) := by
  unfold renderMetric
  by_cases he : e.1 = k
  · rw [if_pos he, shownValue]
    by_cases hzero : e.2 = 0
    · rw [if_neg fun h => h.2 hzero, if_pos hzero, jh_noted r _ _ hk, or_none]
    · rw [if_pos ⟨he ▸ hk.1, hzero⟩, if_neg hzero, lookup_append, jh_noted r _ _ hk, he,
        lookup_cons, beq_self_eq_true]
  · rw [if_neg he, or_none]
    split
    · rw [lookup_append_ne he, jh_noted r _ _ hk]
    · exact jh_noted r _ _ hk

theorem jh_foldl (m : MetricMap) (hm : Sorted m) (r : Rendering) (hk : IsCounter k) :
    (m.foldl (renderMetric mean) r).jh.lookup k =
      (r.jh.lookup k).or ((m.lookup k).elim none shownValue) := by
  induction m generalizing r with
  | nil => exact or_none.symm
  | cons e m ih =>
    obtain ⟨hfirst, hrest⟩ := List.pairwise_cons.mp hm
    rw [List.foldl_cons, ih hrest, jh_renderMetric r e hk, Option.or_assoc, List.lookup_cons]
    by_cases he : e.1 = k
    · have hnone : m.lookup k = none := by
        rw [lookup_eq_none_iff]
        intro e' he'
        exact bne_iff_ne.mpr fun heq => (hfirst e' he').ne (he.trans heq)
      rw [if_pos he, hnone, beq_iff_eq.mpr he.symm, elim_none, or_none]
      rfl
    · rw [if_neg he, none_or, beq_eq_false_iff_ne.mpr (Ne.symm he)]

theorem lookup_render {m : MetricMap} (hm : Sorted m) (hk : IsCounter k) :
    (metricsRender mean m).lookup k = shownValue (amount k m) := by
  have hamount : amount k m = (m.lookup k).elim 0 fun v => v := sumOver_key hm k fun v => v
  rw [metricsRender, jh_foldl m hm _ hk, hamount]
  cases m.lookup k <;> rfl

theorem sorted_addEntry {m : MetricMap} (h : Sorted m) (e : Text × UInt64) :
    Sorted (addEntry m e) := by
  unfold addEntry
  split
  · exact h
  · exact sorted_adjust h

structure Ordered (subs : List (Text × MetricMap)) : Prop where
  sorted : Sorted subs
  maps : ∀ e ∈ subs, Sorted e.2 ∧ '-' ∉ e.1

variable {subs : List (Text × MetricMap)} {p service : Text} {ms : Metrics}

theorem ordered_adjust (h : Ordered subs) (hp : '-' ∉ p) (k : Text) (v : UInt64) :
    Ordered (adjust p [] (adjust k 0 (· + v)) subs) := by
  refine ⟨sorted_adjust h.sorted, fun e he => ?_⟩
  rcases mem_of_mem_adjust he with ⟨m, rfl, hm⟩ | he
  · refine ⟨sorted_adjust ?_, hp⟩
    rcases hm with rfl | hm
    · exact List.Pairwise.nil
    · exact (h.maps _ hm).1
  · exact h.maps e he

structure SumsOrdered (s : Sums) : Prop where
  serviceSum : Sorted s.serviceSum
  sum : Sorted s.sum
  cross : Ordered s.subServCrossTenant

theorem addToSums_ordered (hp : '-' ∉ p) {s : Sums} (h : SumsOrdered s) (e : Text × UInt64) :
    SumsOrdered (addToSums p s e) := by
  refine ⟨sorted_addEntry h.serviceSum e, sorted_addEntry h.sum e, ?_⟩
  change Ordered (addCross p s.subServCrossTenant e)
  unfold addCross
  split
  · exact h.cross
  · exact ordered_adjust h.cross hp e.1 e.2

structure Kept (ms : Metrics) : Prop where
  sorted : Sorted ms
  services : ∀ e ∈ ms, Ordered e.2 ∧ '-' ∉ e.1

theorem subServices_ordered {subs : List (Text × MetricMap)} (h : Ordered subs)
    {mean : UInt64 → UInt64 → Json} {l : ServiceLoop} (hl : SumsOrdered l.sums) :
    SumsOrdered (subs.foldl (subServiceStep mean) l).sums := by
  refine List.foldlRecOn (motive := fun l : ServiceLoop => SumsOrdered l.sums) subs _ hl ?_
  intro l hl sub hsub
  exact List.foldlRecOn (motive := SumsOrdered) sub.2 _ hl fun s hs e _ =>
    addToSums_ordered (h.maps sub hsub).2 hs e

theorem loop_ordered (h : Kept ms) (mean : UInt64 → UInt64 → Json) :
    Sorted (ms.foldl (serviceStep mean) ⟨[], [], []⟩).sum ∧
      Ordered (ms.foldl (serviceStep mean) ⟨[], [], []⟩).subServCrossTenant := by
  apply List.foldlRecOn (motive := fun l : Loop => Sorted l.sum ∧ Ordered l.subServCrossTenant) ms
  · exact ⟨.nil, .nil, nofun⟩
  · intro l hl service hservice
    have hsums := @subServices_ordered _ (h.services service hservice).1 mean
      ⟨⟨[], l.sum, l.subServCrossTenant⟩, []⟩ ⟨.nil, hl.1, hl.2⟩
    exact ⟨hsums.sum, hsums.cross⟩

theorem serviceSumOf_sorted (subs : List (Text × MetricMap)) : Sorted (serviceSumOf subs) := by
  apply List.foldlRecOn (motive := Sorted) subs
  · exact .nil
  · intro m hm sub _
    exact List.foldlRecOn (motive := Sorted) sub.2 _ hm fun m hm e _ => sorted_addEntry hm e

variable {ν : Type} {key : Text → Text} {es : List (Text × ν)} {g : Text × ν → Option Json}

theorem lookup_members (hsorted : Sorted es) (hkey : ∀ e ∈ es, key e.1 = key k → e.1 = k) :
    (es.filterMap fun e => (g e).map (key e.1, ·)).lookup (key k) =
      (es.lookup k).bind fun v => g (k, v) := by
  induction es with
  | nil => rfl
  | cons e es ih =>
    obtain ⟨hfirst, hrest⟩ := pairwise_cons.mp hsorted
    have htail := ih hrest fun e' he' => hkey e' (mem_cons_of_mem _ he')
    rw [filterMap_cons, lookup_cons]
    by_cases he : e.1 = k
    · have hnone : es.lookup k = none := by
        rw [lookup_eq_none_iff]
        intro e' he'
        exact bne_iff_ne.mpr fun heq => (hfirst e' he').ne (he.trans heq)
      subst he
      rw [beq_self_eq_true]
      rw [hnone] at htail
      cases hg : g e with
      | none => exact htail.trans hg.symm
      | some json =>
        change (((key e.1, json) :: _ : Members).lookup (key e.1)) = g e
        rw [lookup_cons, beq_self_eq_true, hg]
    · have hne : key e.1 ≠ key k := fun heq => he (hkey e mem_cons_self heq)
      rw [beq_eq_false_iff_ne.mpr (Ne.symm he)]
      cases g e with
      | none => exact htail
      | some json =>
        rw [← htail]
        change (((key e.1, json) :: _ : Members).lookup (key k)) = _
        rw [lookup_cons, beq_eq_false_iff_ne.mpr hne.symm]

theorem nodup_members (hsorted : Sorted es)
    (hkey : ∀ e ∈ es, ∀ e' ∈ es, key e.1 = key e'.1 → e.1 = e'.1) :
    ((es.filterMap fun e => (g e).map (key e.1, ·)).map (·.1)).Nodup := by
  have hkeys : (es.map fun e => key e.1).Nodup :=
    (nodup_map_iff_inj_on (List.Nodup.of_map _ (nodup_keys hsorted))).mpr fun e he e' he' heq =>
      inj_on_of_nodup_map (nodup_keys hsorted) he he' (hkey e he e' he' heq)
  refine hkeys.sublist ?_
  clear hkeys hkey hsorted
  induction es with
  | nil => exact .slnil
  | cons e es ih =>
    rw [filterMap_cons, map_cons]
    cases g e with
    | none => exact ih.cons _
    | some json => exact ih.cons_cons _

/-- The substitute has a character that no valid name has. -/
theorem keyOr_injective {substitute name name' : Text} (hdash : '-' ∈ substitute)
    (h : '-' ∉ name) (h' : '-' ∉ name') (heq : keyOr substitute name = keyOr substitute name') :
    name = name' := by
  unfold keyOr at heq
  split at heq <;> split at heq
  · exact heq
  · exact absurd (heq ▸ hdash) h
  · exact absurd (heq ▸ hdash) h'
  · rename_i hempty hempty'
    rw [not_not.mp hempty, not_not.mp hempty']

variable {path : Text}

theorem isNameChar_dash : isNameChar '-' = false := by decide

theorem dash_of_serviceValid {srv : Text} (h : serviceValid srv = true) : '-' ∉ srv := by
  intro hmem
  rw [serviceValid, Bool.and_eq_true] at h
  exact absurd (all_eq_true.mp h.2 _ hmem) (by rw [isNameChar_dash]; decide)

theorem dash_of_components {compV : List Text} (h : componentsValid compV = true) :
    ∀ comp ∈ compV, '-' ∉ comp := by
  induction compV with
  | nil => exact nofun
  | cons comp rest ih =>
    simp only [componentsValid, Bool.and_eq_true, Bool.or_eq_true] at h
    refine forall_mem_cons.mpr ⟨fun hmem => ?_, ih h.2⟩
    rcases h.1.2 with hlast | hall
    · rw [beq_iff_eq.mp hlast.2] at hmem
      exact absurd hmem (by decide)
    · exact absurd (all_eq_true.mp hall _ hmem) (by rw [isNameChar_dash]; decide)

theorem dash_of_subServiceValid (h : subServiceValid path = true) : '-' ∉ path := by
  unfold subServiceValid at h
  split at h
  · rename_i hempty
    rw [hempty]
    exact not_mem_nil
  split at h
  · cases h
  intro hmem
  have hcomponents := dash_of_components (Bool.and_eq_true_iff.mp h).2
  have hrest : '-' ∈ path.dropWhile (· = '/') := by
    rw [← takeWhile_append_dropWhile (p := (· = '/')) (l := path), mem_append] at hmem
    refine hmem.resolve_left fun htake => ?_
    exact absurd (mem_takeWhile_imp htake) (by decide)
  unfold stringSplit at hcomponents
  rw [if_neg (ne_nil_of_mem hrest)] at hcomponents
  cases hsplit : (path.dropWhile (· = '/')).splitOn '/' with
  | nil => exact splitOn_ne_nil _ _ hsplit
  | cons x xs =>
    obtain ⟨-, hjoin⟩ := Delimited.splitOn_iff.mp hsplit
    rw [hjoin, Delimited.mem_join (by decide)] at hrest
    obtain ⟨t, ht, hdash⟩ := hrest
    exact hcomponents t (hsplit ▸ ht) hdash

/-- The name of a valid path is the one that the metrics have it under. -/
theorem servicePath_pathName (h : subServiceValid path = true) :
    servicePathForMetrics path = some (pathName path) := by
  unfold servicePathForMetrics pathName
  cases path with
  | nil => rfl
  | cons c t =>
    have hc : c = '/' := by
      unfold subServiceValid at h
      by_contra hne
      rw [if_neg (cons_ne_nil c t), if_pos (by simpa using hne)] at h
      cases h
    subst hc
    rw [if_neg (cons_ne_nil '/' t), if_neg (by rw [h]; decide), List.head?_cons, if_pos rfl]
    dsimp only [tail_cons]
    by_cases hsuffix : "/#".toList <:+ t
    · obtain ⟨u, rfl⟩ := hsuffix
      have hpath : "/#".toList <:+ '/' :: (u ++ "/#".toList) := ⟨'/' :: u, rfl⟩
      have hname : u ≠ ['#'] := by
        rintro rfl
        exact absurd h (by decide)
      have hcut : (u ++ "/#".toList).take ((u ++ "/#".toList).length - 2) = u := by
        rw [length_append]
        exact take_left
      have hcut' : ('/' :: (u ++ "/#".toList)).take
          (('/' :: (u ++ "/#".toList)).length - 2) = '/' :: u := by
        rw [length_cons, length_append]
        change ('/' :: u ++ "/#".toList).take ('/' :: u).length = _
        exact take_left
      rw [if_pos (suffix_append _ _), if_pos hpath, hcut, hcut', if_neg hname]
      rfl
    · by_cases hroot : t = ['#']
      · rw [hroot]
        rfl
      have hpath : ¬ "/#".toList <:+ '/' :: t := by
        intro hs
        rcases suffix_cons_iff.mp hs with heq | hs
        · exact hroot (cons.inj heq).2.symm
        · exact hsuffix hs
      rw [if_neg hsuffix, if_neg hpath, if_neg hroot]
      rfl

theorem dash_pathName (h : '-' ∉ path) : '-' ∉ pathName path := by
  have htail : ∀ {t : Text}, '-' ∉ t → '-' ∉ if t.head? = some '/' then t.tail else t := by
    intro t ht
    split
    · exact fun hmem => ht (mem_of_mem_tail hmem)
    · exact ht
  apply htail
  split
  · exact fun hmem => h (mem_of_mem_take hmem)
  · exact h

theorem addTo_kept (h : Kept ms) {a : Added} (hs : '-' ∉ a.service) (hp : '-' ∉ a.subService) :
    Kept (addTo ms a) := by
  refine ⟨sorted_adjust h.sorted, fun e he => ?_⟩
  rcases mem_of_mem_adjust he with ⟨subs, rfl, hsubs⟩ | he
  · refine ⟨ordered_adjust ?_ hp _ _, hs⟩
    rcases hsubs with rfl | hsubs
    · exact ⟨.nil, nofun⟩
    · exact (h.services _ hsubs).1
  · exact h.services e he

structure Holds (m : Manager) (added : List Added) : Prop where
  on : m.on = true
  kept : Kept m.metrics
  amounts : ∀ (Q : Text → Text → Text → Prop) [∀ s p k, Decidable (Q s p k)],
    amountOf Q m.metrics = (added.map fun a =>
      if Q a.service a.subService a.metric then a.value else 0).sum

theorem dash_accepted {srv : Option Text} {subServ metric : Text} {value : UInt64} {a : Added}
    (h : accepted srv subServ metric value = some a) : '-' ∉ a.service ∧ '-' ∉ a.subService := by
  unfold accepted at h
  dsimp only at h
  split at h
  · cases h
  rename_i hservice
  obtain ⟨subService, hpath, rfl⟩ := map_eq_some_iff.mp h
  refine ⟨dash_of_serviceValid (by simpa using hservice), ?_⟩
  by_cases hvalid : subServiceValid subServ = true
  · rw [servicePath_pathName hvalid] at hpath
    cases hpath
    exact dash_pathName (dash_of_subServiceValid hvalid)
  have hne : subServ ≠ [] := by
    rintro rfl
    exact hvalid rfl
  rw [servicePathForMetrics, if_neg hne, if_pos (by simpa using hvalid)] at hpath
  cases hpath

theorem sorted_map {ν' : Type} (h : Sorted es) (g : Text × ν → ν') :
    Sorted (es.map fun e => (e.1, g e)) :=
  pairwise_map.mpr h

theorem reset_kept {m : Manager} (h : Kept m.metrics) : Kept (reset m).metrics := by
  refine ⟨sorted_map h.sorted _, forall_mem_map.mpr fun service hservice => ?_⟩
  obtain ⟨hsubs, hdash⟩ := h.services service hservice
  refine ⟨⟨sorted_map hsubs.sorted _, forall_mem_map.mpr fun sub hsub => ?_⟩, hdash⟩
  exact ⟨sorted_map (hsubs.maps sub hsub).1 _, (hsubs.maps sub hsub).2⟩

theorem amountOf_reset (Q : Text → Text → Text → Prop) [∀ s p k, Decidable (Q s p k)]
    (m : Manager) : amountOf Q (reset m).metrics = 0 := by
  refine sum_eq_zero (forall_mem_map.mpr (forall_mem_map.mpr fun service _ => ?_))
  refine sum_eq_zero (forall_mem_map.mpr (forall_mem_map.mpr fun sub _ => ?_))
  refine sum_eq_zero (forall_mem_map.mpr (forall_mem_map.mpr fun metric _ => ?_))
  exact ite_self 0

theorem run_holds {m : Manager} {added : List Added} (h : Holds m added) (call : Call) :
    Holds (call.run m) (call.note added) := by
  cases call with
  | reset => exact ⟨h.on, reset_kept h.kept, fun Q _ => amountOf_reset Q m⟩
  | add srv subServ metric value =>
    change Holds (MetricsManager.add m srv subServ metric value) (added ++ Option.toList _)
    rw [MetricsManager.add, if_neg (by rw [h.on]; decide)]
    cases haccepted : accepted srv subServ metric value with
    | none =>
      rw [toList_none, append_nil]
      exact h
    | some a =>
      obtain ⟨hservice, hsubService⟩ := dash_accepted haccepted
      refine ⟨h.on, addTo_kept h.kept hservice hsubService, fun Q _ => ?_⟩
      rw [amountOf_addTo, h.amounts, toList_some, map_append, sum_append,
        map_cons, sum_cons, map_nil, sum_nil, add_zero]

theorem holds_of_calls (calls : List Call) :
    Holds (calls.foldl Call.run ⟨true, []⟩) (sinceReset calls) := by
  have hrun : ∀ m added, Holds m added →
      Holds (calls.foldl Call.run m) (calls.foldl Call.note added) := by
    induction calls with
    | nil => exact fun _ _ h => h
    | cons call calls ih => exact fun m added h => ih _ _ (run_holds h call)
  exact hrun _ _ ⟨rfl, ⟨.nil, nofun⟩, fun _ _ => rfl⟩

variable {m : Manager}

theorem toInt_ofNat {n : ℕ} (h : n < 2 ^ 63) : shownValue (UInt64.ofNat n) = shown n := by
  have hzero : UInt64.ofNat n = 0 ↔ n = 0 := by
    rw [← UInt64.toNat_inj, UInt64.toNat_ofNat_of_lt' (by rw [UInt64.size]; omega)]
    rfl
  unfold shownValue shown
  simp only [hzero]
  have hint : (UInt64.ofNat n).toInt64.toInt = n := Int64.toInt_ofNat_of_lt h
  rw [hint, Int.cast_natCast]

theorem sum_ofNat (Q : Added → Prop) [DecidablePred Q] (added : List Added) :
    (added.map fun a => if Q a then a.value else 0).sum = UInt64.ofNat (total Q added) := by
  induction added with
  | nil => rfl
  | cons a added ih =>
    rw [map_cons, sum_cons, ih, total, total, map_cons, sum_cons, UInt64.ofNat_add]
    split
    · rw [UInt64.ofNat_toNat]
    · rfl

theorem total_mono {Q Q' : Added → Prop} [DecidablePred Q] [DecidablePred Q']
    (h : ∀ a, Q a → Q' a) (added : List Added) : total Q added ≤ total Q' added := by
  apply sum_le_sum
  intro a _
  by_cases ha : Q a
  · rw [if_pos ha, if_pos (h a ha)]
  · rw [if_neg ha]
    exact Nat.zero_le _

/-- A counter of the manager is shown as the values that were added to it. -/
theorem shown_amount {added : List Added} (h : Holds m added)
    (hsmall : total (fun a => a.metric = k) added < 2 ^ 63) (Q : Text → Text → Text → Prop)
    [∀ s p k, Decidable (Q s p k)] (hQ : ∀ s p k', Q s p k' → k' = k) :
    shownValue (amountOf Q m.metrics) =
      shown (total (fun a => Q a.service a.subService a.metric) added) := by
  rw [h.amounts, sum_ofNat fun a => Q a.service a.subService a.metric]
  exact toInt_ofNat ((total_mono (fun a => hQ _ _ _) added).trans_lt hsmall)

theorem mem_of_lookup {v : ν} (h : es.lookup k = some v) : (k, v) ∈ es := by
  obtain ⟨l₁, l₂, rfl, -⟩ := lookup_eq_some_iff.mp h
  exact mem_append_right _ mem_cons_self

theorem serviceKey_of (h : Kept ms) (hdash : '-' ∉ service) :
    ∀ e ∈ ms, serviceKey e.1 = serviceKey service → e.1 = service := fun e he =>
  keyOr_injective (by decide) (h.services e he).2 hdash

theorem subServiceKey_of (h : Ordered subs) (hdash : '-' ∉ p) :
    ∀ e ∈ subs, subServiceKey e.1 = subServiceKey p → e.1 = p := fun e he =>
  keyOr_injective (by decide) (h.maps e he).2 hdash

theorem member_service (h : Kept m.metrics) (hdash : '-' ∉ service) (path : List Text) :
    member (toJson mean m) ("services".toList :: serviceKey service :: path) =
      (m.metrics.lookup service).bind fun subs =>
        (serviceMember mean (service, subs)).bind fun json => member json path := by
  change ((m.metrics.foldl (serviceStep mean) ⟨[], [], []⟩).services.lookup
    (serviceKey service)).bind
    (fun json => member json path) = _
  rw [services_loop, nil_append, serviceMembers, lookup_members h.sorted (serviceKey_of h hdash),
    bind_assoc]

theorem member_subServices (service : Text) (subs : List (Text × MetricMap)) (name : Text)
    (path : List Text) : ((serviceMember mean (service, subs)).bind fun json =>
      member json ("subservs".toList :: name :: path)) =
        ((subMembers mean subs).lookup name).bind fun json => member json path := by
  unfold serviceMember
  split
  · rename_i hempty
    rw [isEmpty_iff.mp (Bool.and_eq_true_iff.mp hempty).1]
    rfl
  · rfl

theorem member_serviceSum (service : Text) (subs : List (Text × MetricMap)) :
    ((serviceMember mean (service, subs)).bind fun json => member json ["sum".toList, k]) =
      (metricsRender mean (serviceSumOf subs)).lookup k := by
  unfold serviceMember
  split
  · rename_i hempty
    rw [isEmpty_iff.mp (Bool.and_eq_true_iff.mp hempty).2]
    rfl
  · exact bind_fun_some _

theorem member_counter (sub : Text × MetricMap) :
    ((subMember mean sub).bind fun json => member json [k]) =
      (metricsRender mean sub.2).lookup k := by
  unfold subMember
  split
  · rename_i hempty
    rw [isEmpty_iff.mp hempty]
    rfl
  · exact bind_fun_some _

variable (mean)

theorem counter_shown (h : Kept m.metrics) (hservice : '-' ∉ service) (hp : '-' ∉ p)
    (hk : IsCounter k) :
    member (toJson mean m) ["services".toList, serviceKey service, "subservs".toList,
      subServiceKey p, k] =
        shownValue (amountOf (fun s p' k' => s = service ∧ p' = p ∧ k' = k) m.metrics) := by
  have hamount : amountOf (fun s p' k' => s = service ∧ p' = p ∧ k' = k) m.metrics =
      sumOver (fun s subs => if s = service then
        sumOver (fun p' map => if p' = p then amount k map else 0) subs else 0) m.metrics := by
    change sumOver (fun s subs => sumOver (fun p' map => sumOver (fun k' v =>
      if s = service ∧ p' = p ∧ k' = k then v else 0) map) subs) m.metrics = _
    simp only [ite_and, sumOver_ite]
    rfl
  rw [member_service h hservice, hamount, sumOver_key h.sorted service fun subs =>
    sumOver (fun p' map => if p' = p then amount k map else 0) subs]
  cases hsubs : m.metrics.lookup service with
  | none => rfl
  | some subs =>
    have hordered := (h.services _ (mem_of_lookup hsubs)).1
    rw [bind_some, elim_some, member_subServices, subMembers,
      lookup_members hordered.sorted (subServiceKey_of hordered hp), bind_assoc,
      sumOver_key hordered.sorted p fun map => amount k map]
    cases hmap : subs.lookup p with
    | none => rfl
    | some map =>
      rw [bind_some, elim_some, member_counter,
        lookup_render (hordered.maps _ (mem_of_lookup hmap)).1 hk]

theorem serviceSum_shown (h : Kept m.metrics) (hservice : '-' ∉ service) (hk : IsCounter k) :
    member (toJson mean m) ["services".toList, serviceKey service, "sum".toList, k] =
      shownValue (amountOf (fun s _ k' => s = service ∧ k' = k) m.metrics) := by
  have hamount : amountOf (fun s _ k' => s = service ∧ k' = k) m.metrics =
      sumOver (fun s subs => if s = service then sumOver (fun _ map => amount k map) subs else 0)
        m.metrics := by
    change sumOver (fun s subs => sumOver (fun _ map => sumOver (fun k' v =>
      if s = service ∧ k' = k then v else 0) map) subs) m.metrics = _
    simp only [ite_and, sumOver_ite]
    rfl
  rw [member_service h hservice, hamount, sumOver_key h.sorted service fun subs =>
    sumOver (fun _ map => amount k map) subs]
  cases m.metrics.lookup service with
  | none => rfl
  | some subs =>
    rw [bind_some, elim_some, member_serviceSum,
      lookup_render (serviceSumOf_sorted subs) hk, amount_serviceSum]

theorem sum_shown (h : Kept m.metrics) (hk : IsCounter k) :
    member (toJson mean m) ["sum".toList, "sum".toList, k] =
      shownValue (amountOf (fun _ _ k' => k' = k) m.metrics) := by
  have hlookup := @lookup_render mean _ _ (loop_ordered h mean).1 hk
  rw [amount_loop_sum] at hlookup
  refine (bind_fun_some _).trans (hlookup.trans ?_)
  exact congrArg shownValue (zero_add _)

def crossMembers (m : Manager) : Members :=
  (m.metrics.foldl (serviceStep mean) ⟨[], [], []⟩).subServCrossTenant.map fun sub =>
    (subServiceKey sub.1, .object (metricsRender mean sub.2))

theorem crossMembers_eq (m : Manager) : crossMembers mean m =
    (m.metrics.foldl (serviceStep mean) ⟨[], [], []⟩).subServCrossTenant.filterMap fun sub =>
      (some (Json.object (metricsRender mean sub.2))).map (subServiceKey sub.1, ·) :=
  (congrFun filterMap_eq_map _).symm

theorem subServiceSum_shown (h : Kept m.metrics) (hp : '-' ∉ p) (hk : IsCounter k) :
    member (toJson mean m) ["sum".toList, "subservs".toList, subServiceKey p, k] =
      shownValue (amountOf (fun _ p' k' => p' = p ∧ k' = k) m.metrics) := by
  have hordered := (loop_ordered h mean).2
  have hamount := @amount_loop_cross mean k p m.metrics ⟨[], [], []⟩
  rw [sumOver_key hordered.sorted p fun map => amount k map] at hamount
  have hmember : member (toJson mean m) ["sum".toList, "subservs".toList, subServiceKey p, k] =
      ((crossMembers mean m).lookup (subServiceKey p)).bind fun json => member json [k] := rfl
  rw [hmember, crossMembers_eq, lookup_members hordered.sorted (subServiceKey_of hordered hp)]
  have hzero : ∀ v, shownValue (0 + v) = shownValue v := fun v => congrArg _ (zero_add v)
  rw [← hzero (amountOf _ _)]
  refine Eq.trans ?_ (congrArg shownValue hamount)
  cases hmap : List.lookup p _ with
  | none => rfl
  | some map =>
    refine (bind_fun_some _).trans ?_
    exact lookup_render (hordered.maps _ (mem_of_lookup hmap)).1 hk

theorem services_nodup (h : Kept m.metrics) :
    (names (member (toJson mean m) ["services".toList])).Nodup := by
  have hnames : names (member (toJson mean m) ["services".toList]) =
      (m.metrics.foldl (serviceStep mean) ⟨[], [], []⟩).services.map (·.1) := rfl
  rw [hnames, services_loop, nil_append]
  exact nodup_members h.sorted fun e he e' he' => serviceKey_of h (h.services e' he').2 e he

theorem subServices_nodup (h : Kept m.metrics) :
    (names (member (toJson mean m) ["sum".toList, "subservs".toList])).Nodup := by
  have hordered := (loop_ordered h mean).2
  have hnames : names (member (toJson mean m) ["sum".toList, "subservs".toList]) =
      (crossMembers mean m).map (·.1) := rfl
  rw [hnames, crossMembers_eq]
  exact nodup_members hordered.sorted fun e he e' he' =>
    subServiceKey_of hordered (hordered.maps e' he').2 e he

theorem serviceSubs_nodup (h : Kept m.metrics) (key : Text) :
    (names (member (toJson mean m) ["services".toList, key, "subservs".toList])).Nodup := by
  have hmember : member (toJson mean m) ["services".toList, key, "subservs".toList] =
      ((m.metrics.foldl (serviceStep mean) ⟨[], [], []⟩).services.lookup key).bind fun json =>
        member json ["subservs".toList] := rfl
  rw [hmember, services_loop, nil_append]
  cases hjson : (serviceMembers mean m.metrics).lookup key with
  | none => exact nodup_nil
  | some json =>
    obtain ⟨service, hservice, hmap⟩ := mem_filterMap.mp (mem_of_lookup hjson)
    obtain ⟨json', hshown, heq⟩ := map_eq_some_iff.mp hmap
    obtain rfl : json' = json := (Prod.mk.inj heq).2
    have hordered := (h.services service hservice).1
    unfold serviceMember at hshown
    split at hshown
    · cases hshown
    cases hshown
    exact nodup_members hordered.sorted fun e he e' he' =>
      subServiceKey_of hordered (hordered.maps e' he').2 e he

/-- What the JSON shows is what was added since the last reset. -/
theorem toJson_shows (calls : List Call)
    (hsmall : ∀ metric, total (fun a => a.metric = metric) (sinceReset calls) < 2 ^ 63) :
    Shows (toJson mean (calls.foldl Call.run ⟨true, []⟩)) (sinceReset calls) := by
  have h := holds_of_calls calls
  constructor
  · intro service path metric hservice hpath hk
    rw [counter_shown mean h.kept (dash_of_serviceValid hservice)
      (dash_pathName (dash_of_subServiceValid hpath)) hk]
    exact shown_amount h (hsmall metric) _ fun _ _ _ hQ => hQ.2.2
  · intro service metric hservice hk
    rw [serviceSum_shown mean h.kept (dash_of_serviceValid hservice) hk]
    exact shown_amount h (hsmall metric) _ fun _ _ _ hQ => hQ.2
  · intro path metric hpath hk
    rw [subServiceSum_shown mean h.kept (dash_pathName (dash_of_subServiceValid hpath)) hk]
    exact shown_amount h (hsmall metric) _ fun _ _ _ hQ => hQ.2
  · intro metric hk
    rw [sum_shown mean h.kept hk]
    exact shown_amount h (hsmall metric) _ fun _ _ _ hQ => hQ
  · exact services_nodup mean h.kept
  · exact subServices_nodup mean h.kept
  · exact serviceSubs_nodup mean h.kept

/-- The counters of a service, where an earlier value was reset. -/
theorem toJson_shows_counters :
    Shows (toJson (fun t n => .number (t.toNat / (n.toNat * 1000000)))
      ([.add none "".toList "errors".toList 7, .reset,
        .add (some "t".toList) "/a/#".toList "errors".toList 2,
        .add (some "t".toList) "/a".toList "errors".toList 3].foldl Call.run ⟨true, []⟩))
      [⟨"t".toList, "a".toList, "errors".toList, 2⟩,
        ⟨"t".toList, "a".toList, "errors".toList, 3⟩] := by
  refine toJson_shows _ [.add none "".toList "errors".toList 7, .reset,
    .add (some "t".toList) "/a/#".toList "errors".toList 2,
    .add (some "t".toList) "/a".toList "errors".toList 3] fun metric => ?_
  change (if "errors".toList = metric then 2 else 0) +
    ((if "errors".toList = metric then 3 else 0) + 0) < 2 ^ 63
  split <;> omega

end MetricsManager
