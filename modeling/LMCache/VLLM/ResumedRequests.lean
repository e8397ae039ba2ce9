import LMCache.VLLM.LoadedTokens

/-! # Requests that are resumed

A preempted request waits again and is admitted like a new one, on the strength of an offer.  Its
tracker is restored from all tokens of the request, which is guarded by an assertion: the number of
computed tokens must be the larger one of what LMCache and vLLM hold.

`resumed_requests_restored`: `build_connector_meta` does not raise exactly when all requests that
are resumed are `Resumable`: the cache does not hold the whole request, or vLLM does too.  Then they
have their tokens up to the end of the step.  `resumed_request_fails`: when the cache holds the
whole request, one token less is offered, and the assertion does not know of it. -/

namespace LMCache.VLLM.System

open List SchedulerConfig
variable {c : SchedulerConfig} {s : System} {out : SchedulerOutput}

/-! ### One request -/

/-- The cache does not hold the whole request, or vLLM does too. -/
def Resumable (s : System) (id : String) : Prop :=
  ∀ spec, s.connector.loadSpecs.get? id = some spec →
    spec.lmcacheCachedTokens = (s.requests.get id).numTokens →
    spec.lmcacheCachedTokens ≤ spec.vllmCachedTokens

/-- What the loops need to know of a request that is scheduled again. -/
def Ready (s : System) (id : String) (t : Scheduler) : Prop :=
  t.loadSpecs.get? id = s.connector.loadSpecs.get? id ∧
    (∃ tracker, t.requestTrackers.get? id = some tracker) ∧ id ∈ t.unfinishedRequests

/-- The tracker of a request has the tokens up to the end of the step. -/
def Restored (s : System) (out : SchedulerOutput) (id : String) (t : Scheduler) : Prop :=
  ∃ tracker n, t.requestTrackers.get? id = some tracker ∧
    out.numScheduledTokens.get? id = some n ∧
    tracker.tokenIds =
      (s.requests.get id).allTokenIds.take ((s.requests.get id).numComputedTokens + n)

variable {id : String} {t : Scheduler} {newBlockIds : NewBlockIds}

theorem Ready.of_handled {t' : Scheduler} {other : List String} (hid : id ∉ other)
    (h : Handled other t t') (hready : Ready s id t) : Ready s id t' := by
  obtain ⟨hspec, htracker, hunfinished⟩ := hready
  refine ⟨?_, ?_, ?_⟩
  · rw [h.loadSpecs, if_neg hid, hspec]
  · rw [h.trackers id hid]
    exact htracker
  · rw [h.unfinished]
    exact hunfinished

theorem Restored.of_handled {t' : Scheduler} {other : List String} (hid : id ∉ other)
    (h : Handled other t t') (hrestored : Restored s out id t) : Restored s out id t' := by
  unfold Restored at hrestored ⊢
  rwa [h.trackers id hid]

section
variable (hinv : ∀ id, Inv s id)

include hinv

theorem ready_of_new {preempted : Bool} (hagain : ScheduledAgain c s out id newBlockIds preempted)
    (h : Handled (out.scheduledNewReqs.flatMap newIds) (forgetFinished out s.connector) t) :
    Ready s id t := by
  obtain ⟨hunfinished, tracker, htracker⟩ := (hinv id).live hagain.live
  refine Ready.of_handled (notMem_newIds hagain) h ⟨rfl, ⟨tracker, ?_⟩, ?_⟩
  · simp [forgetFinished, hagain.unfinished, htracker]
  · exact mem_filter.mpr ⟨hunfinished, by simpa using hagain.unfinished⟩

theorem updateTracker_resumed {tracker : RequestTracker}
    {spec : OfferedLoad} (hspec : s.connector.loadSpecs.get? id = some spec) (hready : Ready s id t)
    (hadmitted : Admitted c s out id (s.requests.get id).numComputedTokens newBlockIds.first.length)
    {n : ℕ} (hn : out.numScheduledTokens.get? id = some n) :
    ∃ t' reqMeta, c.updateTracker t id tracker
        (((s.requests.get id).allTokenIds.drop (s.requests.get id).numComputedTokens).take n)
        newBlockIds true (some (s.requests.get id).allTokenIds) = .ok (t', reqMeta) ∧
      Restored s out id t' := by
  obtain ⟨offer, n', hoffer, -, hcomputed, hn', hpos, -⟩ := hadmitted
  cases hn.symm.trans hn'
  obtain ⟨-, offer', hoffer', hmatches⟩ := (hinv id).offered spec hspec
  cases hoffer.symm.trans hoffer'
  obtain ⟨updated, hupdated, htokens, -⟩ := tracker.update_resumed
    (((s.requests.get id).allTokenIds.drop (s.requests.get id).numComputedTokens).take n)
    (s.requests.get id).allTokenIds newBlockIds spec.lmcacheCachedTokens spec.vllmCachedTokens
  have hfound := hready.1.trans hspec
  refine ⟨_, _, by simp only [updateTracker, hfound, Option.map_some, Option.getD_some, hupdated,
    bind, Except.bind]; rfl, (c.fromRequestTracker updated (some spec)).2, n, by simp, hn, ?_⟩
  rw [c.fromRequestTracker_tokenIds, htokens, hcomputed, take_restored hmatches hpos]

theorem ScheduledAgain.spec (hagain : ScheduledAgain c s out id newBlockIds true) :
    ∃ spec, s.connector.loadSpecs.get? id = some spec := by
  obtain ⟨offer, _, hoffer, _⟩ := hagain.resumed rfl
  exact (hinv id).kept offer hoffer ((hinv id).genuine hagain.live)

omit hinv in
theorem getItem_of_some {V : Type} {d : Dict String V} {k : String} {v : V}
    (h : d.get? k = some v) : getItem d k = .ok v := by
  unfold getItem
  rw [h]

theorem scheduleCachedReq_total {req : CachedReq}
    (hagain : ScheduledAgain c s out req.reqId req.newBlockIds req.resumedFromPreemption)
    (hnew : ∀ n, out.numScheduledTokens.get? req.reqId = some n →
      req.newTokenIds = ((s.requests.get req.reqId).allTokenIds.drop
        (s.requests.get req.reqId).numComputedTokens).take n)
    (hready : Ready s req.reqId t) :
    ∃ t' reqMeta, c.scheduleCachedReq s.requests.get t req = .ok (t', reqMeta) ∧
      (req.resumedFromPreemption = true → Restored s out req.reqId t') := by
  obtain ⟨tracker, htracker⟩ := hready.2.1
  obtain ⟨n, hn⟩ := hagain.scheduled
  unfold scheduleCachedReq restoredTokenIds
  cases hresumed : req.resumedFromPreemption with
  | true =>
    rw [hresumed] at hagain
    obtain ⟨spec, hspec⟩ := hagain.spec hinv
    obtain ⟨t', reqMeta, hupdate, hrestored⟩ :=
      updateTracker_resumed hinv hspec hready (hagain.resumed rfl) hn
    refine ⟨t', reqMeta, ?_, fun _ => hrestored⟩
    rw [getItem_of_some htracker, hnew n hn, if_pos hready.2.2]
    exact hupdate
  | false =>
    rw [getItem_of_some htracker]
    exact ⟨_, _, rfl, by simp⟩

/-- **The assertion on a preempted request** holds when the cache does not hold all its tokens, or
vLLM does, and only then. -/
theorem checkPreempted_ok_iff {spec : OfferedLoad}
    (hspec : s.connector.loadSpecs.get? id = some spec) {numBlocks : ℕ}
    (hadmitted : Admitted c s out id (s.requests.get id).numComputedTokens numBlocks) :
    checkPreempted (s.requests.get id) id (some spec) = .ok () ↔ s.Resumable id := by
  obtain ⟨offer, _, hoffer, -, hcomputed, -⟩ := hadmitted
  obtain ⟨-, offer', hoffer', hmatches⟩ := (hinv id).offered spec hspec
  cases hoffer.symm.trans hoffer'
  constructor
  · intro hcheck spec' hspec' hfull
    cases hspec.symm.trans hspec'
    simp only [checkPreempted] at hcheck
    split at hcheck
    · next heq =>
        -- one token less than the whole request is offered
        have hexternal := hmatches.external
        have hvllm := hmatches.computed
        rw [needToAllocate, if_pos hfull] at hexternal
        omega
    · nomatch hcheck
  · intro hresumable
    obtain hreach | ⟨hfull, hlt, -⟩ := hmatches.reach
    · exact if_pos (hcomputed.trans hreach)
    · exact absurd (hresumable spec hspec hfull) (not_le.mpr hlt)

theorem scheduleCachedData_total {reqs : CachedRequestData} {item : String × ℕ} {preempted : Bool}
    (hblocks : reqs.newBlockIds[item.2]? = some newBlockIds)
    (hpreempted : isPreempted reqs.resumed item.2 item.1 = .ok preempted)
    (hagain : ScheduledAgain c s out item.1 newBlockIds preempted)
    (hresumable : preempted = true → s.Resumable item.1) (hready : Ready s item.1 t) :
    ∃ t' reqMeta, c.scheduleCachedData s.requests.get out reqs t item = .ok (t', reqMeta) ∧
      (preempted = true → Restored s out item.1 t') := by
  obtain ⟨tracker, htracker⟩ := hready.2.1
  obtain ⟨n, hn⟩ := hagain.scheduled
  have hitem : listItem reqs.newBlockIds item.2 = .ok newBlockIds := by
    unfold listItem
    rw [hblocks]
  unfold scheduleCachedData
  simp only [getItem_of_some htracker, getItem_of_some hn, hready.2.2, not_true_eq_false, if_false,
    hitem, hpreempted, bind, Except.bind]
  cases preempted with
  | true =>
    obtain ⟨spec, hspec⟩ := hagain.spec hinv
    obtain ⟨t', reqMeta, hupdate, hrestored⟩ :=
      updateTracker_resumed hinv hspec hready (hagain.resumed rfl) hn
    refine ⟨t', reqMeta, ?_, fun _ => hrestored⟩
    have hcheck : checkPreempted (s.requests.get item.1) item.1 (t.loadSpecs.get? item.1) =
        .ok () := by
      rw [hready.1.trans hspec]
      exact (checkPreempted_ok_iff hinv hspec (hagain.resumed rfl)).mpr (hresumable rfl)
    simp only [if_true, hcheck]
    exact hupdate
  | false => exact ⟨_, _, rfl, by simp⟩

/-! ### The loops -/

omit hinv in
theorem collect_scheduleNew_total (hok : BuildOk c s out) {requests : List NewRequestData}
    (hrequests : ∀ request ∈ requests, request ∈ out.scheduledNewReqs) (t : Scheduler) :
    ∃ t' metas, collect (c.scheduleNew out) requests t = .ok (t', metas) := by
  induction requests generalizing t with
  | nil => exact ⟨t, [], rfl⟩
  | cons request requests ih =>
    obtain ⟨-, _, n, -, -, -, hn, -⟩ := hok.new request (hrequests _ mem_cons_self)
    obtain ⟨t₁, reqMeta, h₁⟩ : ∃ t₁ reqMeta, c.scheduleNew out t request = .ok (t₁, reqMeta) := by
      unfold scheduleNew
      split
      · exact ⟨_, _, rfl⟩
      · rw [getItem_of_some hn]
        exact ⟨_, _, rfl⟩
    obtain ⟨t', metas, h'⟩ := ih (forall_mem_cons.mp hrequests).2 t₁
    refine ⟨t', reqMeta.toList ++ metas, ?_⟩
    simp only [collect, h₁, h', bind, Except.bind]
    rfl

variable (hok : BuildOk c s out)
  (h : Handled (out.scheduledNewReqs.flatMap newIds) (forgetFinished out s.connector) t)

include hok h

theorem scheduleCached_list_total {reqs : List CachedReq}
    (hreqs : out.scheduledCachedReqs = .list reqs) :
    ∃ t' metas, c.scheduleCached s.requests.get out t = .ok (t', metas) ∧
      ∀ id, out.isResumed id = true → Restored s out id t' := by
  obtain ⟨hnodup, hagain⟩ := hok.list reqs hreqs
  obtain ⟨t', metas, hrun, hposts⟩ := collect_total CachedReq.reqId
    (fun req => Ready s req.reqId)
    (fun req t => req.resumedFromPreemption = true → Restored s out req.reqId t)
    scheduleCachedReq_handled (fun _ _ _ _ hid h => Ready.of_handled hid h)
    (fun _ _ _ _ hid h hpost hresumed => (hpost hresumed).of_handled hid h)
    (fun req hreq _ =>
      scheduleCachedReq_total hinv (hagain req hreq).1 (hagain req hreq).2)
    hnodup fun req hreq => ready_of_new hinv (hagain req hreq).1 h
  unfold scheduleCached SchedulerOutput.isResumed
  grind

theorem scheduleCached_data_total {reqs : CachedRequestData}
    (hreqs : out.scheduledCachedReqs = .data reqs)
    (hresumable : ∀ id, out.isResumed id = true → s.Resumable id) :
    ∃ t' metas, c.scheduleCached s.requests.get out t = .ok (t', metas) ∧
      ∀ id, out.isResumed id = true → Restored s out id t' := by
  obtain ⟨hnodup, hagain⟩ := hok.data reqs hreqs
  unfold SchedulerOutput.isResumed at hresumable ⊢
  unfold scheduleCached
  rw [hreqs] at hresumable ⊢
  obtain ⟨t', metas, hrun, hposts⟩ := collect_total Prod.fst
    (fun item => Ready s item.1)
    (fun item t => isPreempted reqs.resumed item.2 item.1 = .ok true → Restored s out item.1 t)
    (@scheduleCachedData_handled c out s.requests.get reqs)
    (fun _ _ _ _ hid h => Ready.of_handled hid h)
    (fun _ _ _ _ hid h hpost hresumed => (hpost hresumed).of_handled hid h)
    (fun item hitem t hready => by
      obtain ⟨newBlockIds, preempted, hblocks, hpreempted, hsched⟩ := hagain item hitem
      obtain ⟨t', reqMeta, hbody, hpost⟩ := scheduleCachedData_total hinv hblocks hpreempted hsched
        (fun hp => hresumable item.1 (any_eq_true.mpr
          ⟨item, hitem, by simp [hpreempted, hp]⟩)) hready
      refine ⟨t', reqMeta, hbody, fun hresumed => hpost ?_⟩
      rw [hpreempted] at hresumed
      exact Except.ok.inj hresumed)
    (by rwa [zipIdx_map_fst]) fun item hitem => by
      obtain ⟨_, _, _, _, hsched⟩ := hagain item hitem
      exact ready_of_new hinv hsched h
  grind

/-- A loop that does not raise has passed the assertion for every request that is resumed. -/
theorem resumable_of_scheduleCached {reqs : CachedRequestData}
    (hreqs : out.scheduledCachedReqs = .data reqs) {t' : Scheduler} {metas : List StepReqMeta}
    (hcached : c.scheduleCached s.requests.get out t = .ok (t', metas))
    (hid : out.isResumed id = true) : s.Resumable id := by
  unfold scheduleCached at hcached
  unfold SchedulerOutput.isResumed at hid
  rw [hreqs] at hcached hid
  dsimp only at hcached
  obtain ⟨hnodup, hagain⟩ := hok.data reqs hreqs
  obtain ⟨item, hitem, hresumed⟩ := any_eq_true.mp hid
  obtain ⟨newBlockIds, preempted, -, hpreempted, hagain⟩ := hagain item hitem
  obtain ⟨rfl, rfl⟩ : item.1 = id ∧ preempted = true := by
    rw [Bool.and_eq_true, decide_eq_true_eq] at hresumed
    obtain ⟨rfl, hresumed⟩ := hresumed
    rw [hpreempted] at hresumed
    cases preempted with
    | true => exact ⟨rfl, rfl⟩
    | false => nomatch hresumed
  obtain ⟨before, after, hitems⟩ := append_of_mem hitem
  rw [hitems] at hcached
  rw [← zipIdx_map_fst 0 reqs.reqIds, hitems] at hnodup
  obtain ⟨t₁, t₂, reqMeta, hbefore, hbody⟩ := exists_of_collect scheduleCachedData_handled hcached
  obtain ⟨_, _, _, preempted, _, -, -, -, hpreempted', hcheck, -⟩ := scheduleCachedData_eq_ok hbody
  cases hpreempted.symm.trans hpreempted'
  have hready := Ready.of_handled (notMem_of_nodup hnodup) hbefore (ready_of_new hinv hagain h)
  obtain ⟨spec, hspec⟩ := hagain.spec hinv
  have hpassed := (hcheck rfl).2
  rw [hready.1.trans hspec] at hpassed
  exact (checkPreempted_ok_iff hinv hspec (hagain.resumed rfl)).mp hpassed

end

/-- **Resumed requests are restored**: in every run of vLLM in which it counts as computed what it
was offered, building the metadata of a step does not raise exactly when every request that is
resumed, in the new form of the scheduler's output, is one of which the cache does not hold all
tokens, or vLLM does too.  Then the trackers of the requests that are resumed have their tokens up
to the end of the step. -/
theorem resumed_requests_restored (hs : ((system c).restrict (Contract c)).Reachable s)
    (hok : BuildOk c s out) :
    ((∃ connector metas,
        c.buildConnectorMeta s.requests.get out s.connector = .ok (connector, metas)) ↔
      ∀ reqs, out.scheduledCachedReqs = .data reqs → ∀ id, out.isResumed id = true →
        s.Resumable id) ∧
    ∀ connector metas,
      c.buildConnectorMeta s.requests.get out s.connector = .ok (connector, metas) →
      ∀ id, out.isResumed id = true → ∃ tracker n,
        connector.requestTrackers.get? id = some tracker ∧
        out.numScheduledTokens.get? id = some n ∧
        tracker.tokenIds =
          (s.requests.get id).allTokenIds.take ((s.requests.get id).numComputedTokens + n) := by
  have hinv := inv_inductive.reachable hs
  obtain ⟨s₁, newMetas, hnew⟩ := collect_scheduleNew_total hok (fun _ h => h)
    (forgetFinished out s.connector)
  have hhandled := collect_handled scheduleNew_handled hnew
  have hresumable : ∀ connector metas,
      c.buildConnectorMeta s.requests.get out s.connector = .ok (connector, metas) →
      ∀ reqs, out.scheduledCachedReqs = .data reqs → ∀ id, out.isResumed id = true →
        s.Resumable id := by
    intro connector metas hbuild reqs hreqs id hid
    obtain ⟨s₂, _, _, hnew', hcached, -⟩ := buildConnectorMeta_eq_ok_iff.mp hbuild
    cases hnew.symm.trans hnew'
    exact resumable_of_scheduleCached hinv hok hhandled hreqs hcached hid
  have hrun : (∀ reqs, out.scheduledCachedReqs = .data reqs → ∀ id, out.isResumed id = true →
      s.Resumable id) → ∃ connector metas,
        c.buildConnectorMeta s.requests.get out s.connector = .ok (connector, metas) ∧
        ∀ id, out.isResumed id = true → Restored s out id connector := by
    intro hall
    have hcached : ∃ connector metas, c.scheduleCached s.requests.get out s₁ =
        .ok (connector, metas) ∧ ∀ id, out.isResumed id = true → Restored s out id connector := by
      cases hreqs : out.scheduledCachedReqs with
      | list reqs => exact scheduleCached_list_total hinv hok hhandled hreqs
      | data reqs => exact scheduleCached_data_total hinv hok hhandled hreqs (hall reqs hreqs)
    obtain ⟨connector, metas, hcached, hrestored⟩ := hcached
    exact ⟨connector, newMetas ++ metas,
      buildConnectorMeta_eq_ok_iff.mpr ⟨s₁, newMetas, metas, hnew, hcached, rfl⟩, hrestored⟩
  refine ⟨⟨?_, fun hall => ?_⟩, fun connector metas hbuild => ?_⟩
  · rintro ⟨connector, metas, hbuild⟩
    exact hresumable connector metas hbuild
  · obtain ⟨connector, metas, hbuild, -⟩ := hrun hall
    exact ⟨connector, metas, hbuild⟩
  · obtain ⟨connector', metas', hbuild', hrestored⟩ := hrun (hresumable connector metas hbuild)
    cases hbuild.symm.trans hbuild'
    exact hrestored

/-- The request is preempted and resumed with some tokens of the cache. -/
def resumedStep (numScheduledTokens : ℕ) : SchedulerOutput where
  finishedReqIds := []
  scheduledNewReqs := []
  scheduledCachedReqs := .data ⟨["r"], [.groups [[3, 4, 5]]], .resumedReqIds ["r"]⟩
  numScheduledTokens := .ofList [("r", numScheduledTokens)]

theorem resumedStep_ok (computed external scheduled : ℕ) {requests : Requests}
    {connector : Scheduler} {offers : String → Option Offer} (hpos : 0 < scheduled)
    (hblocks : computed + external + scheduled ≤ 12)
    (hcomputed : (requests.get "r").numComputedTokens = computed + external) :
    BuildOk (fourTokens 0)
      ⟨connector, requests, Function.update offers "r" (some ⟨computed, external, .taken⟩), ["r"]⟩
      (resumedStep scheduled) where
  finished id hid := nomatch hid
  new request hrequest := nomatch hrequest
  list reqs hreqs := nomatch hreqs
  data reqs hreqs := by
    cases hreqs
    refine ⟨by decide, fun item hitem => ?_⟩
    obtain rfl := mem_singleton.mp hitem
    have hoffer : Function.update offers "r" (some ⟨computed, external, .taken⟩) "r" =
        some ⟨computed, external, .taken⟩ := Function.update_self ..
    exact ⟨_, true, rfl, rfl, mem_singleton_self _, nofun, nofun, ⟨scheduled, rfl⟩,
      fun _ => ⟨_, scheduled, hoffer, rfl, hcomputed, rfl, hpos, hcomputed ▸ hblocks⟩, nofun⟩

/-- The connector when a request of ten tokens was scheduled with two chunks from the cache. -/
def scheduledOnce : Scheduler where
  loadSpecs := .empty
  requestsPriority := .empty
  requestTrackers := .ofList
    [("r", ⟨"r", 10, List.replicate 10 7, [0, 1, 2], 8, none, [], [], none, false, false⟩)]
  unfinishedRequests := ["r"]
  tmpDisaggTracker := .empty

/-- The request is preempted, and the offer of the cache is taken up. -/
def offeredAgain (hit : ℕ) : Scheduler :=
  { scheduledOnce with
    loadSpecs := .ofList [("r", ⟨⟨0, hit⟩, true⟩)]
    requestsPriority := .ofList [("r", 0)] }

theorem reachable_offeredAgain (hit external : ℕ) (hhit : hit ≤ 10)
    (hcall : ((fourTokens 0).getNumNewMatchedTokens (finds hit) ((tenTokens external).get "r") 0
      scheduledOnce).1 = some external)
    (htaken : SchedulerConfig.updateStateAfterAlloc ((tenTokens external).get "r") external
      ((fourTokens 0).getNumNewMatchedTokens (finds hit) ((tenTokens external).get "r") 0
        scheduledOnce).2 = .ok (offeredAgain hit)) :
    ∃ offers, ((system (fourTokens 0)).restrict (Contract (fourTokens 0))).Reachable
      ⟨offeredAgain hit, tenTokens external,
        Function.update offers "r" (some ⟨0, external, .taken⟩), ["r"]⟩ := by
  have hs := reachable_offer (.init ⟨rfl, rfl, rfl⟩ :
      ((system (fourTokens 0)).restrict (Contract (fourTokens 0))).Reachable (fresh (tenTokens 0)))
    "r" 0 8 (finds 8) (fun hit hhit => by cases hhit; decide) rfl rfl
  have hbuilt := hs.step (e := Event.buildConnectorMeta (newRequestStep 8 2))
    ⟨newRequestStep_ok 0 0 8 2 0 _ (by decide) (by decide), rfl⟩
  have hedited : ∃ offers, ((system (fourTokens 0)).restrict (Contract (fourTokens 0))).Reachable
      ⟨scheduledOnce, tenTokens external, offers, ["r"]⟩ :=
    ⟨_, hbuilt.step (e := Event.edit (tenTokens external)) ⟨fun _ _ => rfl, rfl⟩⟩
  obtain ⟨offers, hedited⟩ := hedited
  refine ⟨offers,
    reachable_offer hedited "r" 0 external (finds hit) (fun found hfound => ?_) hcall htaken⟩
  cases hfound
  exact hhit

/-- A preempted request of ten tokens is resumed with one chunk that is left in the cache. -/
theorem resumed_requests_restored_one_chunk :
    ∃ s connector metas tracker,
      ((system (fourTokens 0)).restrict (Contract (fourTokens 0))).Reachable s ∧
      BuildOk (fourTokens 0) s (resumedStep 3) ∧
      (fourTokens 0).buildConnectorMeta s.requests.get (resumedStep 3) s.connector =
        .ok (connector, metas) ∧
      connector.requestTrackers.get? "r" = some tracker ∧
      tracker.tokenIds = List.replicate 7 7 := by
  obtain ⟨offers, hs⟩ := reachable_offeredAgain 4 4 (by decide) rfl rfl
  have hok : BuildOk (fourTokens 0) ⟨offeredAgain 4, tenTokens 4,
      Function.update offers "r" (some ⟨0, 4, .taken⟩), ["r"]⟩ (resumedStep 3) :=
    resumedStep_ok 0 4 3 (by decide) (by decide) rfl
  obtain ⟨hiff, hrestored⟩ := resumed_requests_restored hs hok
  obtain ⟨connector, metas, hbuild⟩ := hiff.mpr fun _ _ id hid spec hspec hfull => by
    obtain ⟨rfl, -⟩ : "r" = id ∧ _ := by
      simpa [SchedulerOutput.isResumed, resumedStep] using hid
    cases hspec
    cases hfull
  obtain ⟨tracker, n, htracker, hn, htokens⟩ := hrestored connector metas hbuild "r" rfl
  cases hn
  exact ⟨_, connector, metas, tracker, hs, hok, hbuild, htracker, htokens⟩

/-- **A request that cannot be resumed.**  The cache holds all ten tokens of a preempted request;
nine of them are offered and counted as computed, and the assertion expects ten. -/
theorem resumed_request_fails :
    ∃ s message, ((system (fourTokens 0)).restrict (Contract (fourTokens 0))).Reachable s ∧
      BuildOk (fourTokens 0) s (resumedStep 1) ∧
      (s.requests.get "r").numComputedTokens = 9 ∧
      s.connector.loadSpecs.get? "r" = some ⟨⟨0, 10⟩, true⟩ ∧
      (fourTokens 0).buildConnectorMeta s.requests.get (resumedStep 1) s.connector =
        .error ⟨.assertionError, message⟩ := by
  obtain ⟨offers, hs⟩ := reachable_offeredAgain 10 9 (by decide) rfl rfl
  exact ⟨_, _, hs, resumedStep_ok 0 9 1 (by decide) (by decide) rfl, rfl, rfl, rfl⟩

end LMCache.VLLM.System
