import LMCache.VLLM.Scheduler

/-! # The loops of `build_connector_meta`

One request after the other is taken from the output of the scheduler.  `Handled` is what that does
to the state of the connector: the load specs of the requests are used up and their trackers are
there, and other requests are left alone.

* `buildConnectorMeta_handled`: a step handles its requests.
* `exists_of_collect`, `exists_of_mem_collect`: each request has its turn, and metadata comes from
  one of them, in a state in which the earlier ones are handled.
* `collect_total`: a loop over different requests does not raise when its body does not. -/

namespace LMCache.VLLM

open List SchedulerConfig

/-! ### The loops -/

/-- The tracker of a request, if there is one, carries its id. -/
def Named (s : Scheduler) (id : String) : Prop :=
  ∀ tracker, s.requestTrackers.get? id = some tracker → tracker.reqId = id

theorem named_forgetFinished {s : Scheduler} {id : String} (h : Named s id)
    (out : SchedulerOutput) :
    Named (forgetFinished out s) id := fun tracker htracker => by
  simp only [forgetFinished, Dict.get?_filterKeys] at htracker
  split at htracker
  · exact h tracker htracker
  · nomatch htracker

/-- The load specs of the requests are used up and their trackers are there; nothing changes for
other requests. -/
structure Handled (ids : List String) (s s' : Scheduler) : Prop where
  loadSpecs : ∀ id, s'.loadSpecs.get? id = if id ∈ ids then none else s.loadSpecs.get? id
  trackers : ∀ id, id ∉ ids → s'.requestTrackers.get? id = s.requestTrackers.get? id
  tracked : ∀ id ∈ ids, ∃ tracker, s'.requestTrackers.get? id = some tracker
  named : ∀ id, Named s id → Named s' id
  unfinished : s'.unfinishedRequests = s.unfinishedRequests

namespace Handled

theorem refl (s : Scheduler) : Handled [] s s where
  loadSpecs id := by simp
  trackers _ _ := rfl
  tracked id hid := absurd hid not_mem_nil
  named _ h := h
  unfinished := rfl

theorem trans {ids₁ ids₂ : List String} {s₁ s₂ s₃ : Scheduler} (h₁ : Handled ids₁ s₁ s₂)
    (h₂ : Handled ids₂ s₂ s₃) : Handled (ids₁ ++ ids₂) s₁ s₃ where
  loadSpecs id := by
    rw [h₂.loadSpecs, h₁.loadSpecs]
    by_cases hid₁ : id ∈ ids₁ <;> by_cases hid₂ : id ∈ ids₂ <;> simp [hid₁, hid₂]
  trackers id hid := by
    rw [mem_append, not_or] at hid
    rw [h₂.trackers id hid.2, h₁.trackers id hid.1]
  tracked id hid := by
    by_cases hid₂ : id ∈ ids₂
    · exact h₂.tracked id hid₂
    · rw [h₂.trackers id hid₂]
      exact h₁.tracked id ((mem_append.mp hid).resolve_right hid₂)
  named id h := h₂.named id (h₁.named id h)
  unfinished := h₂.unfinished.trans h₁.unfinished

theorem of_get?_eq_some {ids : List String} {s s' : Scheduler} (h : Handled ids s s') {id : String}
    {spec : OfferedLoad} (hspec : s'.loadSpecs.get? id = some spec) :
    s.loadSpecs.get? id = some spec := by
  rw [h.loadSpecs] at hspec
  grind

end Handled

theorem handled_set_erase {s s' : Scheduler} {id : String} {tracker : RequestTracker}
    (hspecs : s'.loadSpecs = s.loadSpecs.erase id)
    (htrackers : s'.requestTrackers = s.requestTrackers.set id tracker)
    (hname : Named s id → tracker.reqId = id)
    (hunfinished : s'.unfinishedRequests = s.unfinishedRequests) : Handled [id] s s' where
  loadSpecs id' := by simp [hspecs]
  trackers id' hid' := by
    rw [mem_singleton] at hid'
    simp [htrackers, hid']
  tracked id' hid' := by
    rw [mem_singleton.mp hid']
    exact ⟨tracker, by simp [htrackers]⟩
  named id' h tracker' htracker' := by
    rw [htrackers, Dict.get?_set] at htracker'
    split at htracker'
    · rename_i heq
      subst heq
      cases htracker'
      exact hname h
    · exact h tracker' htracker'
  unfinished := hunfinished

section collect
variable {A : Type} {body : Scheduler → A → Except PyError (Scheduler × Option StepReqMeta)}
  {s s' : Scheduler} {metas : List StepReqMeta} {items : List A}

theorem collect_cons_eq_ok {a : A} {as : List A} (h : collect body (a :: as) s = .ok (s', metas)) :
    ∃ s₁ reqMeta rest, body s a = .ok (s₁, reqMeta) ∧ collect body as s₁ = .ok (s', rest) ∧
      metas = reqMeta.toList ++ rest := by
  obtain ⟨⟨s₁, reqMeta⟩, h₁, h⟩ := exists_of_bind_eq_ok h
  obtain ⟨⟨s₂, rest⟩, h₂, h⟩ := exists_of_bind_eq_ok h
  cases h
  exact ⟨s₁, reqMeta, rest, h₁, h₂, rfl⟩

theorem collect_handled {ids : A → List String}
    (hbody : ∀ a s s' reqMeta, body s a = .ok (s', reqMeta) → Handled (ids a) s s')
    (h : collect body items s = .ok (s', metas)) : Handled (items.flatMap ids) s s' := by
  induction items generalizing s metas with
  | nil =>
    cases h
    exact .refl _
  | cons a as ih =>
    obtain ⟨s₁, reqMeta, rest, h₁, hrest, rfl⟩ := collect_cons_eq_ok h
    rw [flatMap_cons]
    exact (hbody a s s₁ reqMeta h₁).trans (ih hrest)

/-- Each request has its turn when the loop does not raise. -/
theorem exists_of_collect {ids : A → List String}
    (hbody : ∀ a s s' reqMeta, body s a = .ok (s', reqMeta) → Handled (ids a) s s') {a : A}
    {before after : List A} (h : collect body (before ++ a :: after) s = .ok (s', metas)) :
    ∃ t t' reqMeta, Handled (before.flatMap ids) s t ∧ body t a = .ok (t', reqMeta) := by
  induction before generalizing s metas with
  | nil =>
    obtain ⟨s₁, reqMeta, rest, h₁, -, -⟩ := collect_cons_eq_ok h
    exact ⟨s, s₁, reqMeta, .refl s, h₁⟩
  | cons b before ih =>
    obtain ⟨s₁, first, rest, h₁, hrest, -⟩ := collect_cons_eq_ok h
    obtain ⟨t, t', reqMeta, hbefore, ht⟩ := ih hrest
    exact ⟨t, t', reqMeta, (hbody b s s₁ first h₁).trans hbefore, ht⟩

theorem exists_of_mem_collect {ids : A → List String}
    (hbody : ∀ a s s' reqMeta, body s a = .ok (s', reqMeta) → Handled (ids a) s s')
    (h : collect body items s = .ok (s', metas)) {reqMeta : StepReqMeta} (hmem : reqMeta ∈ metas) :
    ∃ before a after t t', items = before ++ a :: after ∧ Handled (before.flatMap ids) s t ∧
      body t a = .ok (t', some reqMeta) := by
  induction items generalizing s metas with
  | nil =>
    cases h
    nomatch hmem
  | cons a as ih =>
    obtain ⟨s₁, first, rest, h₁, hrest, rfl⟩ := collect_cons_eq_ok h
    rw [mem_append, Option.mem_toList] at hmem
    rcases hmem with hfirst | hmem
    · cases hfirst
      exact ⟨[], a, as, s, s₁, rfl, .refl s, h₁⟩
    · obtain ⟨before, b, after, t, t', rfl, hbefore, ht⟩ := ih hrest hmem
      exact ⟨a :: before, b, after, t, t', rfl, (hbody a s s₁ first h₁).trans hbefore, ht⟩

theorem notMem_of_nodup {idOf : A → String} {a : A} {before after : List A}
    (h : ((before ++ a :: after).map idOf).Nodup) : idOf a ∉ before.flatMap fun b => [idOf b] := by
  rw [map_append, map_cons] at h
  intro hmem
  obtain ⟨b, hb, heq⟩ := mem_flatMap.mp hmem
  exact (nodup_append.mp h).2.2 _ (mem_map_of_mem hb) _ mem_cons_self (mem_singleton.mp heq).symm

/-- A loop over different requests does not raise when each body does not, in a state that looks
to its request as the first one did; what a body establishes for its request stays. -/
theorem collect_total (idOf : A → String) (Pre Post : A → Scheduler → Prop)
    (hbody : ∀ a s s' reqMeta, body s a = .ok (s', reqMeta) → Handled [idOf a] s s')
    (hpre : ∀ a s s' other, idOf a ∉ other → Handled other s s' → Pre a s → Pre a s')
    (hpost : ∀ a s s' other, idOf a ∉ other → Handled other s s' → Post a s → Post a s')
    (hrun : ∀ a ∈ items, ∀ s, Pre a s → ∃ s' reqMeta, body s a = .ok (s', reqMeta) ∧ Post a s')
    (hnodup : (items.map idOf).Nodup) (hs : ∀ a ∈ items, Pre a s) :
    ∃ s' metas, collect body items s = .ok (s', metas) ∧ ∀ a ∈ items, Post a s' := by
  induction items generalizing s with
  | nil => exact ⟨s, [], rfl, by simp⟩
  | cons a as ih =>
    obtain ⟨hnot, hnodup⟩ := nodup_cons.mp hnodup
    obtain ⟨s₁, reqMeta, h₁, hpost₁⟩ := hrun a mem_cons_self s (hs a mem_cons_self)
    have hne : ∀ b ∈ as, idOf b ∉ [idOf a] := fun b hb hmem =>
      hnot (mem_map.mpr ⟨b, hb, mem_singleton.mp hmem⟩)
    have hhandled := hbody a s s₁ reqMeta h₁
    obtain ⟨s', metas, hrest, hposts⟩ := ih
      (forall_mem_cons.mp hrun).2 hnodup (s := s₁)
      fun b hb => hpre b s s₁ _ (hne b hb) hhandled (hs b (mem_cons_of_mem _ hb))
    refine ⟨s', reqMeta.toList ++ metas, ?_, ?_⟩
    · simp only [collect, h₁, hrest, bind, Except.bind]
      rfl
    · intro b hb
      rcases mem_cons.mp hb with rfl | hb
      · refine hpost b s₁ s' _ ?_ (collect_handled hbody hrest) hpost₁
        grind
      · exact hposts b hb

end collect

/-! ### One request -/

namespace SchedulerConfig
variable {c : SchedulerConfig}

theorem getItem_eq_ok {V : Type} {d : Dict String V} {k : String} {v : V}
    (h : getItem d k = .ok v) : d.get? k = some v := by
  unfold getItem at h
  grind

theorem listItem_eq_ok {A : Type} {xs : List A} {i : ℕ} {x : A} (h : listItem xs i = .ok x) :
    xs[i]? = some x := by
  unfold listItem at h
  grind

/-- The requests that a new request's data makes known. -/
def newIds (request : NewRequestData) : List String :=
  if isMockRequest request.reqId then [] else [request.reqId]

variable {out : SchedulerOutput} {s s' : Scheduler} {reqMeta : Option StepReqMeta}
    {requests : String → Request} {metas : List StepReqMeta}

theorem scheduleNew_eq_ok {request : NewRequestData}
    (h : c.scheduleNew out s request = .ok (s', reqMeta))
    (hmock : isMockRequest request.reqId = false) :
    ∃ n, out.numScheduledTokens.get? request.reqId = some n ∧
      ∃ tracker, tracker.tokenIds = request.promptTokenIds.take (request.numComputedTokens + n) ∧
        tracker.allocatedBlockIds = request.blockIds ∧ tracker.reqId = request.reqId ∧
        tracker.promptLen = request.promptTokenIds.length ∧
        (c.fromRequestTracker tracker (s.loadSpecs.get? request.reqId)).1 = reqMeta ∧
        Handled [request.reqId] s s' := by
  unfold scheduleNew at h
  rw [hmock] at h
  obtain ⟨n, hn, h⟩ := exists_of_bind_eq_ok h
  cases h
  exact ⟨n, getItem_eq_ok hn, _, rfl, rfl, rfl, rfl, rfl, handled_set_erase rfl rfl
    (fun _ => c.fromRequestTracker_reqId _ _) rfl⟩

theorem scheduleNew_handled (request : NewRequestData) (s s' : Scheduler)
    (reqMeta : Option StepReqMeta) (h : c.scheduleNew out s request = .ok (s', reqMeta)) :
    Handled (newIds request) s s' := by
  unfold newIds
  split
  · rename_i hmock
    unfold scheduleNew at h
    cases (if_pos hmock).symm.trans h
    exact .refl s
  · rename_i hmock
    obtain ⟨_, _, _, _, _, _, _, _, hhandled⟩ := scheduleNew_eq_ok h (Bool.not_eq_true _ ▸ hmock)
    exact hhandled

theorem updateTracker_eq_ok {reqId : String} {tracker : RequestTracker} {newTokenIds : List ℤ}
    {newBlockIds : NewBlockIds} {preempted : Bool} {allTokenIds : Option (List ℤ)}
    (htracker : s.requestTrackers.get? reqId = some tracker)
    (h : c.updateTracker s reqId tracker newTokenIds newBlockIds preempted allTokenIds =
      .ok (s', reqMeta)) :
    ∃ updated, tracker.update newTokenIds newBlockIds preempted
        (((s.loadSpecs.get? reqId).map fun spec => spec.lmcacheCachedTokens).getD 0)
        (((s.loadSpecs.get? reqId).map fun spec => spec.vllmCachedTokens).getD 0) allTokenIds =
          .ok updated ∧
      updated.reqId = tracker.reqId ∧
      (c.fromRequestTracker updated (s.loadSpecs.get? reqId)).1 = reqMeta ∧
      s'.requestTrackers.get? reqId =
        some (c.fromRequestTracker updated (s.loadSpecs.get? reqId)).2 ∧
      Handled [reqId] s s' := by
  obtain ⟨updated, hupdated, h⟩ := exists_of_bind_eq_ok h
  cases h
  have hname := RequestTracker.update_reqId hupdated
  refine ⟨updated, hupdated, hname, rfl, by simp, handled_set_erase rfl rfl (fun hnamed => ?_) rfl⟩
  rw [c.fromRequestTracker_reqId, hname, hnamed tracker htracker]

theorem scheduleCachedReq_eq_ok {req : CachedReq}
    (h : c.scheduleCachedReq requests s req = .ok (s', reqMeta)) :
    ∃ tracker allTokenIds, s.requestTrackers.get? req.reqId = some tracker ∧
      (req.resumedFromPreemption = true →
        allTokenIds = some (requests req.reqId).allTokenIds) ∧
      c.updateTracker s req.reqId tracker req.newTokenIds req.newBlockIds
        req.resumedFromPreemption allTokenIds = .ok (s', reqMeta) := by
  obtain ⟨tracker, htracker, h⟩ := exists_of_bind_eq_ok h
  obtain ⟨allTokenIds, hall, h⟩ := exists_of_bind_eq_ok h
  refine ⟨tracker, allTokenIds, getItem_eq_ok htracker, fun hresumed => ?_, h⟩
  unfold restoredTokenIds at hall
  grind

theorem scheduleCachedData_eq_ok {cachedReqs : CachedRequestData} {item : String × ℕ}
    (h : c.scheduleCachedData requests out cachedReqs s item = .ok (s', reqMeta)) :
    ∃ tracker n newBlockIds preempted allTokenIds,
      s.requestTrackers.get? item.1 = some tracker ∧
      out.numScheduledTokens.get? item.1 = some n ∧
      cachedReqs.newBlockIds[item.2]? = some newBlockIds ∧
      isPreempted cachedReqs.resumed item.2 item.1 = .ok preempted ∧
      (preempted = true → allTokenIds = some (requests item.1).allTokenIds ∧
        checkPreempted (requests item.1) item.1 (s.loadSpecs.get? item.1) = .ok ()) ∧
      c.updateTracker s item.1 tracker
        (((requests item.1).allTokenIds.drop (requests item.1).numComputedTokens).take n)
        newBlockIds preempted allTokenIds = .ok (s', reqMeta) := by
  obtain ⟨tracker, htracker, h⟩ := exists_of_bind_eq_ok h
  obtain ⟨n, hn, h⟩ := exists_of_bind_eq_ok h
  split at h
  · nomatch h
  · obtain ⟨newBlockIds, hblocks, h⟩ := exists_of_bind_eq_ok h
    obtain ⟨preempted, hpreempted, h⟩ := exists_of_bind_eq_ok h
    have htracker := getItem_eq_ok htracker
    have hn := getItem_eq_ok hn
    have hblocks := listItem_eq_ok hblocks
    cases preempted with
    | true =>
      obtain ⟨_, hcheck, h⟩ := exists_of_bind_eq_ok h
      exact ⟨tracker, n, newBlockIds, true, _, htracker, hn, hblocks, hpreempted,
        fun _ => ⟨rfl, hcheck⟩, h⟩
    | false =>
      exact ⟨tracker, n, newBlockIds, false, none, htracker, hn, hblocks, hpreempted, by simp, h⟩

theorem scheduleCachedReq_handled (req : CachedReq) (s s' : Scheduler)
    (reqMeta : Option StepReqMeta) (h : c.scheduleCachedReq requests s req = .ok (s', reqMeta)) :
    Handled [req.reqId] s s' := by
  obtain ⟨_, _, htracker, _, h⟩ := scheduleCachedReq_eq_ok h
  obtain ⟨_, _, _, _, _, hhandled⟩ := updateTracker_eq_ok htracker h
  exact hhandled

theorem scheduleCachedData_handled {cachedReqs : CachedRequestData} (item : String × ℕ)
    (s s' : Scheduler) (reqMeta : Option StepReqMeta)
    (h : c.scheduleCachedData requests out cachedReqs s item = .ok (s', reqMeta)) :
    Handled [item.1] s s' := by
  obtain ⟨_, _, _, _, _, htracker, _, _, _, _, h⟩ := scheduleCachedData_eq_ok h
  obtain ⟨_, _, _, _, _, hhandled⟩ := updateTracker_eq_ok htracker h
  exact hhandled

theorem buildConnectorMeta_eq_ok_iff :
    c.buildConnectorMeta requests out s = .ok (s', metas) ↔
      ∃ s₁ newMetas cachedMetas,
        collect (c.scheduleNew out) out.scheduledNewReqs (forgetFinished out s) =
          .ok (s₁, newMetas) ∧
        c.scheduleCached requests out s₁ = .ok (s', cachedMetas) ∧
        metas = newMetas ++ cachedMetas := by
  constructor
  · intro h
    obtain ⟨⟨s₁, newMetas⟩, h₁, h⟩ := exists_of_bind_eq_ok h
    obtain ⟨⟨s₂, cachedMetas⟩, h₂, h⟩ := exists_of_bind_eq_ok h
    cases h
    exact ⟨s₁, newMetas, cachedMetas, h₁, h₂, rfl⟩
  · rintro ⟨s₁, newMetas, cachedMetas, h₁, h₂, rfl⟩
    simp only [buildConnectorMeta, h₁, h₂, bind, Except.bind]
    rfl

/-- The requests of a step that were scheduled before. -/
def cachedIds (out : SchedulerOutput) : List String :=
  match out.scheduledCachedReqs with
  | .list reqs => reqs.flatMap fun req => [req.reqId]
  | .data reqs => reqs.reqIds.zipIdx.flatMap fun item => [item.1]

theorem scheduleCached_handled (h : c.scheduleCached requests out s = .ok (s', metas)) :
    Handled (cachedIds out) s s' := by
  unfold scheduleCached at h
  fun_cases cachedIds
  next hreqs =>
    rw [hreqs] at h
    exact collect_handled scheduleCachedReq_handled h
  next hreqs =>
    rw [hreqs] at h
    exact collect_handled scheduleCachedData_handled h

/-- **`build_connector_meta`** handles the requests of the step. -/
theorem buildConnectorMeta_handled (h : c.buildConnectorMeta requests out s = .ok (s', metas)) :
    Handled (out.scheduledNewReqs.flatMap newIds ++ cachedIds out) (forgetFinished out s) s' := by
  obtain ⟨s₁, newMetas, cachedMetas, h₁, h₂, -⟩ := buildConnectorMeta_eq_ok_iff.mp h
  exact (collect_handled scheduleNew_handled h₁).trans (scheduleCached_handled h₂)

end SchedulerConfig

end LMCache.VLLM
