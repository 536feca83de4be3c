import OrionLd.SubCacheCounts

/-! The times of the last success and of the last failure. A synchronization saves them from the
cache, throws away what is older than the database, and puts the rest into the cache that it has
reloaded: a time that was thrown away comes back as 0. -/
namespace SubCacheTimes

open SubCacheThrottling SubCacheCounts List Option

variable {κ : Type*}

inductive Outcome where
  | failure
  | success
  deriving DecidableEq, Repr

def cachedTime : Outcome → CachedSubscription κ → ℚ
  | .failure, cSub => cSub.lastFailure
  | .success, cSub => cSub.lastSuccess

def storedField : Outcome → Csub κ → Option ℚ
  | .failure, sub => sub.lastFailure
  | .success, sub => sub.lastSuccess

def savedTime : Outcome → CachedSubSaved → ℚ
  | .failure, cssP => cssP.lastFailure
  | .success, cssP => cssP.lastSuccess

def storedTime (o : Outcome) (sub : Csub κ) : ℚ := (storedField o sub).getD (-1)

def SameTime (a b : ℚ) : Prop := a = b ∨ a ≤ 0 ∧ b ≤ 0

instance (a b : ℚ) : Decidable (SameTime a b) := inferInstanceAs (Decidable (_ ∨ _ ∧ _))

/-- A subscription that stays in the cache has the later of its two times in both places. -/
def TimesJoined (s s' : Broker (Stored κ)) : Prop :=
  ∀ cSub ∈ s.subCache, ∀ sub ∈ s.csubs, sub.key = cSub.key →
    ∀ c' ∈ s'.subCache, c'.key = cSub.key → ∀ sub' ∈ s'.csubs, sub'.key = cSub.key → ∀ o,
      SameTime (cachedTime o c') (max (cachedTime o cSub) (storedTime o sub)) ∧
        SameTime (storedTime o sub') (max (cachedTime o cSub) (storedTime o sub))

variable (env : Options (Stored κ)) (oid : String → Option String) (s : Broker (Stored κ))
  (db : Database)

def Newest (cache : List (CachedSubscription (Stored κ))) (o : Outcome) (id : String) (t : ℚ) :
    Prop :=
  ∀ c ∈ cache, c.subscriptionId = id → cachedTime o c ≤ t

instance (cache : List (CachedSubscription (Stored κ))) (o : Outcome) (id : String) (t : ℚ) :
    Decidable (Newest cache o id t) :=
  inferInstanceAs (Decidable (∀ _ ∈ _, _))

/-- The document is found by its identifier as an ObjectId, and written. -/
def Written (sub : Csub (Stored κ)) : Prop :=
  sub.id ≠ "" ∧ sub.rest.isOid = true ∧ db.writable sub.key = true

instance (sub : Csub (Stored κ)) : Decidable (Written db sub) :=
  inferInstanceAs (Decidable (_ ∧ _ ∧ _))

/-- The saved time is the later one, and written if it is not the one of the database; or there
is no time at all. -/
def KeptTime (sub : Csub (Stored κ)) (o : Outcome) (cached saved : ℚ) : Prop :=
  if Newest (subCacheRefresh env db s.csubs) o sub.id saved then
    SameTime saved (max cached (storedTime o sub)) ∧
      (0 < saved → storedTime o sub < saved → Written db sub)
  else max cached (storedTime o sub) ≤ 0

instance (sub : Csub (Stored κ)) (o : Outcome) (cached saved : ℚ) :
    Decidable (KeptTime env s db sub o cached saved) :=
  inferInstanceAs (Decidable (if Newest _ _ _ _ then _ ∧ (_ → _ → _) else _))

def savedItem (id : String) : Option (CachedSubscription (Stored κ)) :=
  s.subCache.find? fun cSub => cSub.subscriptionId = id

/-- Nothing is written under an identifier that is no ObjectId, and each subscription that stays in
the cache keeps its times. -/
structure TimesKept : Prop where
  found : ∀ c ∈ subCacheRefresh env db s.csubs, ∀ cSub, savedItem s c.subscriptionId = some cSub →
    c.subscriptionId ≠ "" → Owes (subCacheRefresh env db s.csubs) cSub →
      (oid c.subscriptionId).isSome = true
  kept : ∀ cSub ∈ s.subCache, ∀ sub ∈ s.csubs, sub.key = cSub.key →
    (∃ c ∈ subCacheRefresh env db s.csubs, c.key = cSub.key) →
      ∀ saved, savedItem s sub.id = some saved → ∀ o,
        KeptTime env s db sub o (cachedTime o cSub) (cachedTime o saved)

/-- An ObjectId is read as it is written, and no other text is read as one. -/
structure OidTexts : Prop where
  read : OidsRead oid s.csubs
  own : ∀ sub ∈ s.csubs, ∀ _id, oid sub.id = some _id → _id = sub.id

variable {cache : List (CachedSubscription (Stored κ))} {id : String}

def compared (cache : List (CachedSubscription (Stored κ))) (id : String)
    (cssP : CachedSubSaved) : CachedSubSaved where
  lastNotificationTime :=
    if ∀ c ∈ cache, c.subscriptionId = id → c.lastNotificationTime < cssP.lastNotificationTime
    then cssP.lastNotificationTime else 0
  count := cssP.count
  lastFailure := if Newest cache .failure id cssP.lastFailure then cssP.lastFailure else 0
  lastSuccess := if Newest cache .success id cssP.lastSuccess then cssP.lastSuccess else 0

variable {R : ℚ → CachedSubscription (Stored κ) → Prop} {cSub : CachedSubscription (Stored κ)}
variable {t : ℚ}

theorem thrown_time [∀ t c, Decidable (R t c)] {q : Prop} [Decidable q]
    (hid : cSub.subscriptionId = id) (hq : ¬ q ↔ R t cSub) :
    (if ∀ c ∈ cache, c.subscriptionId = id → R (if q then 0 else t) c
      then (if q then 0 else t) else 0) =
    if ∀ c ∈ cSub :: cache, c.subscriptionId = id → R t c then t else 0 := by
  simp only [forall_mem_cons, hid, true_imp_iff, ← hq]
  by_cases h : q
  · rw [if_pos h, ite_self, if_neg fun hall => hall.1 h]
  · rw [if_neg h]
    simp only [h, not_false_eq_true, true_and]

theorem other_time [∀ t c, Decidable (R t c)] (hid : cSub.subscriptionId ≠ id) :
    (if ∀ c ∈ cSub :: cache, c.subscriptionId = id → R t c then t else 0) =
      if ∀ c ∈ cache, c.subscriptionId = id → R t c then t else 0 := by
  simp only [forall_mem_cons, hid, false_imp_iff, true_and]

theorem compared_cons (hid : cSub.subscriptionId = id) (cssP : CachedSubSaved) :
    compared cache id (throwAway cSub cssP) = compared (cSub :: cache) id cssP := by
  rw [CachedSubSaved.mk.injEq]
  refine ⟨?_, rfl, ?_, ?_⟩
  · exact thrown_time (R := fun t c => c.lastNotificationTime < t) hid not_le
  · exact thrown_time (R := fun t c => cachedTime .failure c ≤ t) hid not_lt
  · exact thrown_time (R := fun t c => cachedTime .success c ≤ t) hid not_lt

theorem compared_other (hid : cSub.subscriptionId ≠ id) (cssP : CachedSubSaved) :
    compared (cSub :: cache) id cssP = compared cache id cssP := by
  rw [CachedSubSaved.mk.injEq]
  refine ⟨?_, rfl, ?_, ?_⟩
  · exact other_time (R := fun t c => c.lastNotificationTime < t) hid
  · exact other_time (R := fun t c => cachedTime .failure c ≤ t) hid
  · exact other_time (R := fun t c => cachedTime .success c ≤ t) hid

theorem compareItems_eq (cache : List (CachedSubscription (Stored κ))) (savedSubV : SavedSubV)
    (id : String) : compareItems cache savedSubV id = (savedSubV id).map (compared cache id) := by
  induction cache generalizing savedSubV with
  | nil =>
    have hsame : ∀ cssP, compared ([] : List (CachedSubscription (Stored κ))) id cssP = cssP := by
      intro cssP
      simp [compared, Newest]
    rw [compareItems]
    cases savedSubV id with
    | none => rfl
    | some cssP => exact congrArg some (hsame cssP).symm
  | cons cSub cache ih =>
    rw [compareItems, ih]
    by_cases hid : cSub.subscriptionId = id
    · rw [hid, Function.update_self, Option.map_map]
      exact congrArg (Option.map · (savedSubV id)) (funext fun cssP => compared_cons hid cssP)
    rw [Function.update_of_ne (Ne.symm hid)]
    exact congrArg (Option.map · (savedSubV id)) (funext fun cssP => (compared_other hid cssP).symm)

def savedOf (cSub : CachedSubscription (Stored κ)) : CachedSubSaved :=
  ⟨cSub.lastNotificationTime, cSub.count, cSub.lastFailure, cSub.lastSuccess⟩

theorem savedTime_compared (cSub : CachedSubscription (Stored κ)) (o : Outcome) :
    savedTime o (compared cache id (savedOf cSub)) =
      if Newest cache o id (cachedTime o cSub) then cachedTime o cSub else 0 := by
  cases o <;> rfl

theorem positive_iff {p : Prop} [Decidable p] : 0 < (if p then t else 0) ↔ 0 < t ∧ p := by
  by_cases h : p
  · rw [if_pos h, and_iff_left h]
  · rw [if_neg h, iff_false_right (fun hp => h hp.2)]
    exact lt_irrefl 0

theorem pending_iff_owes (hid : cSub.subscriptionId = id) :
    CachedSubSaved.Pending (compared cache id (savedOf cSub)) ↔ Owes cache cSub := by
  subst hid
  exact or_congr Iff.rfl (or_congr positive_iff (or_congr positive_iff positive_iff))

section

variable {oid : String → Option String} {db : Database} {savedSubV : SavedSubV}
  {csubs csubs' : List (Csub (Stored κ))} {cssP : CachedSubSaved}

def flushedDoc (db : Database) (savedSubV : SavedSubV)
    (cache : List (CachedSubscription (Stored κ))) (sub : Csub (Stored κ)) : Csub (Stored κ) :=
  if sub.key ∈ cache.map CachedSubscription.key ∧ Written db sub then
    (savedSubV sub.id).elim sub fun cssP => SubCacheThrottling.mongoSubCountersUpdate cssP sub
  else sub

theorem flushedDoc_key (sub : Csub (Stored κ)) :
    (flushedDoc db savedSubV cache sub).key = sub.key := by
  unfold flushedDoc
  split
  · cases savedSubV sub.id <;> rfl
  · rfl

theorem counters_docs (hown : ∀ _id, oid cSub.subscriptionId = some _id → _id = cSub.subscriptionId)
    (h : SubCacheCounts.mongoSubCountersUpdate oid db cSub cssP csubs = some csubs') :
    csubs' = csubs.map fun sub =>
      if sub.key = cSub.key ∧ Written db sub then
        SubCacheThrottling.mongoSubCountersUpdate cssP sub else sub := by
  unfold SubCacheCounts.mongoSubCountersUpdate at h
  split_ifs at h with hnamed hpending
  · rw [← some.inj h]
    refine (map_id csubs).symm.trans (map_congr_left fun sub _ => ?_)
    rw [if_neg, id_eq]
    rintro ⟨hkey, hwritten⟩
    exact hwritten.1 ((congrArg Prod.snd hkey).trans hnamed)
  · obtain ⟨_id, hid, rfl⟩ := map_eq_some_iff.mp h
    rw [hown _id hid]
    refine map_congr_left fun sub _ => if_congr ?_ rfl rfl
    constructor
    · rintro ⟨htenant, hoid, hid, hwritable⟩
      have hkey : sub.key = cSub.key := Prod.ext htenant hid
      exact ⟨hkey, fun hempty => hnamed (hid.symm.trans hempty), hoid, hkey ▸ hwritable⟩
    · rintro ⟨hkey, -, hoid, hwritable⟩
      exact ⟨congrArg Prod.fst hkey, hoid, congrArg Prod.snd hkey, hkey ▸ hwritable⟩
  · rw [← some.inj h]
    refine (map_id csubs).symm.trans (map_congr_left fun sub _ => ?_)
    rw [mongoSubCountersUpdate_idle hpending, ite_self, id_eq]

theorem flush_docs (honce : (cache.map CachedSubscription.key).Nodup)
    (hown : ∀ c ∈ cache, ∀ _id, oid c.subscriptionId = some _id → _id = c.subscriptionId)
    (h : flushItems oid db savedSubV cache csubs = some csubs') :
    csubs' = csubs.map (flushedDoc db savedSubV cache) := by
  induction cache generalizing csubs with
  | nil =>
    rw [← some.inj h]
    refine (map_id csubs).symm.trans (map_congr_left fun sub _ => ?_)
    rw [flushedDoc, if_neg fun hmem => not_mem_nil hmem.1, id_eq]
  | cons c cache ih =>
    obtain ⟨hfresh, honce'⟩ := nodup_cons.mp honce
    have hown' := fun c' hc' => hown c' (mem_cons_of_mem c hc')
    have hother (sub : Csub (Stored κ)) (hkey : sub.key ≠ c.key) :
        flushedDoc db savedSubV (c :: cache) sub = flushedDoc db savedSubV cache sub := by
      unfold flushedDoc
      simp [hkey]
    have hown_doc (sub : Csub (Stored κ)) (hkey : sub.key = c.key) :
        flushedDoc db savedSubV cache sub = sub := by
      unfold flushedDoc
      rw [if_neg fun hmem => hfresh (hkey ▸ hmem.1)]
    rw [flushItems] at h
    cases hsaved : savedSubV c.subscriptionId with
    | none =>
      rw [hsaved] at h
      rw [ih honce' hown' h]
      refine map_congr_left fun sub _ => ?_
      by_cases hkey : sub.key = c.key
      · have hid : sub.id = c.subscriptionId := congrArg Prod.snd hkey
        rw [hown_doc sub hkey, flushedDoc, hid, hsaved, elim_none, ite_self]
      · exact (hother sub hkey).symm
    | some cssP =>
      rw [hsaved] at h
      obtain ⟨csubs₁, hfirst, hrest⟩ := Option.bind_eq_some_iff.mp h
      rw [ih honce' hown' hrest, counters_docs (hown c List.mem_cons_self) hfirst, List.map_map]
      refine List.map_congr_left fun sub _ => ?_
      rw [Function.comp_apply]
      by_cases hkey : sub.key = c.key
      · have hid : sub.id = c.subscriptionId := congrArg Prod.snd hkey
        have hmem : sub.key ∈ (c :: cache).map CachedSubscription.key := by
          rw [hkey]
          exact mem_cons_self
        rw [hown_doc]
        · rw [flushedDoc, hid, hsaved, elim_some]
          exact if_congr (and_congr_left' (iff_of_true hkey hmem)) rfl rfl
        · split
          · exact hkey
          · exact hkey
      · rw [if_neg fun hmem => hkey hmem.1, hother sub hkey]

theorem flush_isSome_iff : (flushItems oid db savedSubV cache csubs).isSome = true ↔
    ∀ c ∈ cache, ∀ cssP, savedSubV c.subscriptionId = some cssP → c.subscriptionId ≠ "" →
      CachedSubSaved.Pending cssP → (oid c.subscriptionId).isSome = true := by
  induction cache generalizing csubs with
  | nil => exact iff_of_true rfl fun c hc => absurd hc not_mem_nil
  | cons c cache ih =>
    rw [flushItems, forall_mem_cons]
    cases hsaved : savedSubV c.subscriptionId with
    | none =>
      refine ih.trans (and_iff_right ?_).symm
      intro cssP h
      cases h
    | some cssP =>
      have hhead : (∀ w, some cssP = some w → c.subscriptionId ≠ "" →
          CachedSubSaved.Pending w → (oid c.subscriptionId).isSome = true) ↔
            (SubCacheCounts.mongoSubCountersUpdate oid db c cssP csubs).isSome = true := by
        unfold SubCacheCounts.mongoSubCountersUpdate
        simp only [some.injEq, forall_eq']
        split_ifs with hnamed hpending
        · exact iff_of_true (fun hne => absurd hnamed hne) rfl
        · simp [hnamed, hpending]
        · exact iff_of_true (fun _ hp => absurd hp hpending) rfl
      rw [hhead]
      dsimp only
      cases SubCacheCounts.mongoSubCountersUpdate oid db c cssP csubs with
      | none => simp
      | some csubs₁ => simp [ih]

end

section

variable {cached stored saved : ℚ}

/-- What is thrown away is kept only if there is no time at all. -/
theorem zero_sameTime_iff : SameTime 0 t ↔ t ≤ 0 := by
  constructor
  · rintro (rfl | ⟨-, h⟩)
    · exact le_rfl
    · exact h
  · intro h
    exact .inr ⟨le_rfl, h⟩

theorem joined_iff {newest : Prop} (written : Prop) [Decidable newest] [Decidable written]
    (hnewest : newest → stored ≤ saved) :
    SameTime (if newest then saved else 0) (max cached stored) ∧
        SameTime (if written ∧ 0 < (if newest then saved else 0) ∧
          stored < (if newest then saved else 0) then (if newest then saved else 0) else stored)
            (max cached stored) ↔
      if newest then SameTime saved (max cached stored) ∧
        (0 < saved → stored < saved → written)
      else max cached stored ≤ 0 := by
  by_cases hn : newest
  · simp only [if_pos hn]
    refine and_congr_right fun hsame => ?_
    by_cases hlater : 0 < saved ∧ stored < saved
    · simp only [hlater.1, hlater.2, and_true, true_imp_iff]
      split
      · next hw =>
        exact iff_of_true hsame hw
      rename_i hw
      refine iff_of_false ?_ hw
      rcases hsame with hsame | hnone
      · rw [← hsame]
        rintro (heq | ⟨-, hle⟩)
        · exact absurd heq hlater.2.ne
        · exact absurd hlater.1 hle.not_gt
      · exact absurd hlater.1 hnone.1.not_gt
    · rw [if_neg fun h => hlater h.2]
      refine iff_of_true ?_ fun hpos hlt => absurd ⟨hpos, hlt⟩ hlater
      rcases (hnewest hn).lt_or_eq with hlt | heq
      · have hsaved : saved ≤ 0 := not_lt.mp fun hpos => hlater ⟨hpos, hlt⟩
        rcases hsame with hsame | hnone
        · exact .inr ⟨hlt.le.trans hsaved, hsame ▸ hsaved⟩
        · exact .inr ⟨hlt.le.trans hsaved, hnone.2⟩
      · rw [heq] at hsame ⊢
        exact hsame
  · simp only [if_neg hn, lt_irrefl, false_and, and_false, if_false, zero_sameTime_iff]
    refine and_iff_left_of_imp fun hnone => ?_
    exact .inr ⟨(le_max_right _ _).trans hnone, hnone⟩

end

section

variable {oid : String → Option String} {db : Database} {env : Options (Stored κ)}
  {s : Broker (Stored κ)}

theorem storedTime_update (cssP : CachedSubSaved) (sub : Csub (Stored κ)) (o : Outcome) :
    storedTime o (SubCacheThrottling.mongoSubCountersUpdate cssP sub) =
      if 0 < savedTime o cssP ∧ storedTime o sub < savedTime o cssP then savedTime o cssP
      else storedTime o sub := by
  have hlater (t : ℚ) (field : Option ℚ) : (laterTime t field).getD (-1) =
      if 0 < t ∧ field.getD (-1) < t then t else field.getD (-1) := by
    unfold laterTime
    cases field with
    | none =>
      by_cases hpos : 0 < t
      · have hlt : (-1 : ℚ) < t := by linarith
        simp [hpos, hlt]
      · simp [hpos]
    | some x =>
      by_cases h : 0 < t ∧ x < t
      · simp [h]
      · simp [h]
  cases o
  · exact hlater cssP.lastFailure sub.lastFailure
  · exact hlater cssP.lastSuccess sub.lastSuccess

variable {sub : Csub (Stored κ)} {c : CachedSubscription (Stored κ)}

theorem cachedTime_inserted (h : mongoSubCacheItemInsert env sub = some c) (o : Outcome) :
    cachedTime o c = storedTime o sub := by
  unfold mongoSubCacheItemInsert at h
  split_ifs at h
  cases h
  cases o <;> rfl

theorem cachedTime_reloaded (honce : (s.csubs.map Csub.key).Nodup) (hsub : sub ∈ s.csubs)
    (hc : c ∈ subCacheRefresh env db s.csubs) (hkey : c.key = sub.key) (o : Outcome) :
    cachedTime o c = storedTime o sub := by
  obtain ⟨sub', hsub', hinsert⟩ := mem_filterMap.mp hc
  have hkey' : c.key = sub'.key := by
    unfold mongoSubCacheItemInsert at hinsert
    split_ifs at hinsert
    cases hinsert
    rfl
  have hsame : sub' = sub := inj_on_of_nodup_map honce (mem_of_mem_filter hsub') hsub
    (hkey'.symm.trans hkey)
  rw [cachedTime_inserted hinsert, hsame]

theorem keepOutcome_time {savedSubV : SavedSubV} {cssP : CachedSubSaved}
    (h : savedSubV c.subscriptionId = some cssP) (o : Outcome) :
    cachedTime o (keepOutcome savedSubV c) = savedTime o cssP := by
  unfold keepOutcome
  rw [h]
  cases o <;> rfl

def savedSubV (env : Options (Stored κ)) (s : Broker (Stored κ)) (db : Database) : SavedSubV :=
  compareItems (subCacheRefresh env db s.csubs) (saveItems s.subCache fun _ => none)

theorem savedSubV_eq (id : String) : savedSubV env s db id = (savedItem s id).map fun cSub =>
    compared (subCacheRefresh env db s.csubs) id (savedOf cSub) := by
  rw [savedSubV, compareItems_eq, saveItems_eq, Option.none_or, Option.map_map]
  rfl

theorem flush_ends_iff : (flushItems oid db (savedSubV env s db)
      (subCacheRefresh env db s.csubs) s.csubs).isSome = true ↔
    ∀ c ∈ subCacheRefresh env db s.csubs, ∀ cSub, savedItem s c.subscriptionId = some cSub →
      c.subscriptionId ≠ "" → Owes (subCacheRefresh env db s.csubs) cSub →
        (oid c.subscriptionId).isSome = true := by
  rw [flush_isSome_iff]
  refine forall₂_congr fun c _ => ?_
  rw [savedSubV_eq]
  cases hsaved : savedItem s c.subscriptionId with
  | none => simp
  | some cSub =>
    simp only [map_some, some.injEq, forall_eq']
    rw [pending_iff_owes (by simpa only [decide_eq_true_eq] using List.find?_some hsaved)]

theorem times_after (honce : (s.csubs.map Csub.key).Nodup) (hsub : sub ∈ s.csubs)
    {saved : CachedSubscription (Stored κ)} (hc : c ∈ subCacheRefresh env db s.csubs)
    (hkey : c.key = sub.key) (hsaved : savedItem s sub.id = some saved) (cached : ℚ) (o : Outcome) :
    SameTime (cachedTime o (keepOutcome (savedSubV env s db) c)) (max cached (storedTime o sub)) ∧
        SameTime (storedTime o (flushedDoc db (savedSubV env s db)
          (subCacheRefresh env db s.csubs) sub)) (max cached (storedTime o sub)) ↔
      KeptTime env s db sub o cached (cachedTime o saved) := by
  have hid : c.subscriptionId = sub.id := congrArg Prod.snd hkey
  have hcompared : savedSubV env s db sub.id =
      some (compared (subCacheRefresh env db s.csubs) sub.id (savedOf saved)) := by
    rw [savedSubV_eq, hsaved, map_some]
  have hmem : sub.key ∈ (subCacheRefresh env db s.csubs).map CachedSubscription.key :=
    hkey ▸ mem_map_of_mem hc
  have hnewest (h : Newest (subCacheRefresh env db s.csubs) o sub.id (cachedTime o saved)) :
      storedTime o sub ≤ cachedTime o saved := by
    rw [← cachedTime_reloaded honce hsub hc hkey]
    exact h c hc hid
  have hstored : storedTime o (flushedDoc db (savedSubV env s db)
      (subCacheRefresh env db s.csubs) sub) =
        let t := savedTime o (compared (subCacheRefresh env db s.csubs) sub.id (savedOf saved))
        if Written db sub ∧ 0 < t ∧ storedTime o sub < t then t else storedTime o sub := by
    unfold flushedDoc
    rw [hcompared, elim_some]
    by_cases hw : Written db sub
    · rw [if_pos ⟨hmem, hw⟩, storedTime_update]
      simp [hw]
    · rw [if_neg fun h => hw h.2]
      exact (if_neg fun h => hw h.1).symm
  have hown : savedSubV env s db c.subscriptionId =
      some (compared (subCacheRefresh env db s.csubs) sub.id (savedOf saved)) := by
    rw [hid, hcompared]
  rw [keepOutcome_time hown, hstored]
  rw [savedTime_compared]
  exact joined_iff (Written db sub) hnewest

theorem reloaded_own (hoids : OidTexts oid s) (hc : c ∈ subCacheRefresh env db s.csubs)
    (_id : String) (h : oid c.subscriptionId = some _id) : _id = c.subscriptionId := by
  obtain ⟨sub, hsub, -, hid, -⟩ := mem_refresh hc
  rw [hid] at h ⊢
  exact hoids.own sub hsub _id h

variable {s' : Broker (Stored κ)}

theorem sync_cases (honce : (s.csubs.map Csub.key).Nodup) (hoids : OidTexts oid s)
    (h : subCacheSync env oid s db = some s') : s' = { s with
      subCache := (subCacheRefresh env db s.csubs).map (keepOutcome (savedSubV env s db))
      csubs := s.csubs.map (flushedDoc db (savedSubV env s db) (subCacheRefresh env db s.csubs)) } ∧
    (flushItems oid db (savedSubV env s db) (subCacheRefresh env db s.csubs)
      s.csubs).isSome = true := by
  obtain ⟨csubs', hflush, rfl⟩ := map_eq_some_iff.mp
    (show Option.map _ (flushItems oid db (savedSubV env s db) _ s.csubs) = some s' from h)
  refine ⟨?_, isSome_iff_exists.mpr ⟨csubs', hflush⟩⟩
  rw [flush_docs (refresh_once honce) (fun c hc => reloaded_own hoids hc) hflush]
  rfl

theorem kept_of_joined (honce : (s.csubs.map Csub.key).Nodup) (hoids : OidTexts oid s)
    (hs' : subCacheSync env oid s db = some s') (hjoined : TimesJoined s s') :
    TimesKept env oid s db := by
  obtain ⟨rfl, hends⟩ := sync_cases honce hoids hs'
  refine ⟨flush_ends_iff.mp hends, ?_⟩
  intro cSub hcSub sub hsub hkey hagain saved hsaved o
  obtain ⟨c, hc, hckey⟩ := hagain
  rw [← times_after honce hsub hc (hckey.trans hkey.symm) hsaved]
  refine hjoined cSub hcSub sub hsub hkey _ (mem_map_of_mem hc) ?_ _ (mem_map_of_mem hsub) ?_ o
  · rw [(keepOutcome_same _ c).1, hckey]
  · rw [flushedDoc_key, hkey]

theorem joined_of_kept (honce : (s.csubs.map Csub.key).Nodup) (hoids : OidTexts oid s)
    (hkept : TimesKept env oid s db) :
    ∃ s', subCacheSync env oid s db = some s' ∧ TimesJoined s s' := by
  obtain ⟨csubs', hflush⟩ := isSome_iff_exists.mp (flush_ends_iff.mpr hkept.found)
  have hs' : ∃ s', subCacheSync env oid s db = some s' :=
    ⟨_, map_eq_some_iff.mpr ⟨csubs', hflush, rfl⟩⟩
  obtain ⟨s', hs'⟩ := hs'
  refine ⟨s', hs', ?_⟩
  obtain ⟨rfl, -⟩ := sync_cases honce hoids hs'
  intro cSub hcSub sub hsub hkey c' hc' hckey' sub' hsub' hkey' o
  obtain ⟨c, hc, rfl⟩ := mem_map.mp hc'
  obtain ⟨sub₀, hsub₀, rfl⟩ := mem_map.mp hsub'
  rw [(keepOutcome_same _ c).1] at hckey'
  rw [flushedDoc_key] at hkey'
  obtain rfl : sub₀ = sub := inj_on_of_nodup_map honce hsub₀ hsub (hkey'.trans hkey.symm)
  have hsome : (savedItem s sub₀.id).isSome = true := by
    rw [savedItem, List.find?_isSome]
    exact ⟨cSub, hcSub, decide_eq_true (congrArg Prod.snd hkey).symm⟩
  obtain ⟨saved, hsaved⟩ := isSome_iff_exists.mp hsome
  rw [times_after honce hsub hc (hckey'.trans hkey.symm) hsaved]
  exact hkept.kept cSub hcSub sub₀ hsub hkey ⟨c, hc, hckey'⟩ saved hsaved o

/-- A synchronization leaves the later time of each subscription in the cache and in the
database exactly if it ends and the times that it has saved are not older than those that it
reloads. -/
theorem times_joined_iff (honce : (s.csubs.map Csub.key).Nodup) (hoids : OidTexts oid s) :
    (∃ s', subCacheSync env oid s db = some s' ∧ TimesJoined s s') ↔
      TimesKept env oid s db := by
  constructor
  · rintro ⟨s', hs', hjoined⟩
    exact kept_of_joined honce hoids hs' hjoined
  · exact joined_of_kept honce hoids

end

def notifiedAt (failure success : ℚ) : Csub (Stored Unit) :=
  { twiceNotified "" with lastFailure := some failure, lastSuccess := some success }

def outOfStep (cachedFailure cachedSuccess failure success : ℚ) : Broker (Stored Unit) where
  subCache := (subCacheRefresh multitenant listedDatabase [notifiedAt failure success]).map
    fun cSub => { cSub with lastFailure := cachedFailure, lastSuccess := cachedSuccess }
  csubs := [notifiedAt failure success]
  requestTime := 1
  sent := []

variable {cachedFailure cachedSuccess failure success : ℚ}

theorem outOfStep_once :
    ((outOfStep cachedFailure cachedSuccess failure success).csubs.map Csub.key).Nodup :=
  nodup_singleton _

theorem outOfStep_oids :
    OidTexts hexOid (outOfStep cachedFailure cachedSuccess failure success) := by
  have hread : hexOid "5a0c1f2e3b4d5a6c7d8e9f00" = some "5a0c1f2e3b4d5a6c7d8e9f00" := by
    decide +kernel
  refine ⟨fun sub hsub _ => ?_, fun sub hsub _id h => ?_⟩
  · obtain rfl := mem_singleton.mp hsub
    exact hread
  · obtain rfl := mem_singleton.mp hsub
    exact some.inj (h.symm.trans hread)

theorem cache_ahead_joined : ∃ s', subCacheSync multitenant hexOid (outOfStep 5 9 5 7)
    listedDatabase = some s' ∧ TimesJoined (outOfStep 5 9 5 7) s' := by
  refine (times_joined_iff outOfStep_once outOfStep_oids).mpr ⟨?_, ?_⟩
  · intro c hc _ _ _ _
    obtain rfl := mem_singleton.mp hc
    decide +kernel
  · intro cSub hcSub sub hsub _ _ saved hsaved o
    obtain rfl := mem_singleton.mp hsub
    obtain rfl := mem_singleton.mp hcSub
    obtain rfl := mem_singleton.mp (mem_of_find?_eq_some hsaved)
    cases o <;> decide +kernel

theorem later_failure_lost : ¬ ∃ s', subCacheSync multitenant hexOid (outOfStep 5 9 8 7)
    listedDatabase = some s' ∧ TimesJoined (outOfStep 5 9 8 7) s' := by
  rintro ⟨s', hs', hjoined⟩
  have hkept := (kept_of_joined outOfStep_once outOfStep_oids hs' hjoined).kept _
    (mem_singleton_self _) _ (mem_singleton_self _) rfl
    ⟨_, mem_singleton_self _, rfl⟩ _ (List.find?_cons_of_pos (by decide +kernel)) .failure
  revert hkept
  decide +kernel

end SubCacheTimes
