import LMCache.VLLM.ConnectorMeta

/-! # Offers and load specs

The connector's load specs are the offers that vLLM holds: `Matches` says what a spec has to do
with its offer, and `Inv` that specs and offers belong together, that every offer that is taken up
has its request, and that every scheduled request has its tracker.  `inv_inductive`: the contract
of vLLM keeps it so. -/

namespace LMCache.VLLM

open List SchedulerOutput Function SchedulerConfig

/-! ### Answers -/

section answers
variable {c : SchedulerConfig} {client : LookupAnswers} {request : Request} {s : Scheduler}

@[simp] theorem noteLookup_loadSpecs : (noteLookup client request s).loadSpecs = s.loadSpecs := by
  unfold noteLookup
  split <;> rfl

@[simp] theorem noteLookup_requestTrackers :
    (noteLookup client request s).requestTrackers = s.requestTrackers := by
  unfold noteLookup
  split <;> rfl

@[simp] theorem noteLookup_unfinishedRequests :
    (noteLookup client request s).unfinishedRequests = s.unfinishedRequests := by
  unfold noteLookup
  split <;> rfl

theorem getNumNewMatchedTokens_mock (hmock : isMockRequest request.requestId = true)
    (numComputedTokens : ℕ) :
    c.getNumNewMatchedTokens client request numComputedTokens s = (some 0, s) := by
  unfold getNumNewMatchedTokens
  rw [if_pos hmock]

theorem getNumNewMatchedTokens_none (hmock : isMockRequest request.requestId = false)
    (hhit : c.hitTokens client request = none) (numComputedTokens : ℕ) :
    c.getNumNewMatchedTokens client request numComputedTokens s =
      (none, noteLookup client request s) := by
  unfold getNumNewMatchedTokens
  rw [hmock, hhit]
  rfl

theorem getNumNewMatchedTokens_some {hit : ℕ} (hmock : isMockRequest request.requestId = false)
    (hhit : c.hitTokens client request = some hit) (numComputedTokens : ℕ) :
    c.getNumNewMatchedTokens client request numComputedTokens s =
      (some (needToAllocate request numComputedTokens hit).toNat,
        { noteLookup client request s with
          loadSpecs :=
            s.loadSpecs.set request.requestId ⟨⟨numComputedTokens, hit⟩, false⟩ }) := by
  unfold getNumNewMatchedTokens
  rw [hmock, hhit]
  simp only [Bool.false_eq_true, if_false, noteLookup_loadSpecs]
  grind

/-- **`update_state_after_alloc`** sets the flag of the load spec. -/
theorem updateStateAfterAlloc_eq_ok {s' : Scheduler} {numExternalTokens : ℕ}
    (h : updateStateAfterAlloc request numExternalTokens s = .ok s') :
    s'.requestTrackers = s.requestTrackers ∧
      s'.unfinishedRequests = s.unfinishedRequests.insert request.requestId ∧
      ∃ canLoad, ∀ id, s'.loadSpecs.get? id =
        if id = request.requestId then
          (s.loadSpecs.get? id).map fun spec => { spec with canLoad := canLoad }
        else s.loadSpecs.get? id := by
  unfold updateStateAfterAlloc at h
  cases hspec : s.loadSpecs.get? request.requestId with
  | none =>
    simp only [noteRequest, hspec] at h
    cases h
    refine ⟨rfl, rfl, false, fun id => ?_⟩
    grind
  | some spec =>
    simp only [noteRequest, hspec] at h
    split at h
    · cases h
      refine ⟨rfl, rfl, false, fun id => ?_⟩
      by_cases hid : id = request.requestId <;> simp [hid, hspec]
    · split at h
      · cases h
        refine ⟨rfl, rfl, true, fun id => ?_⟩
        by_cases hid : id = request.requestId <;> simp [hid, hspec]
      · nomatch h

end answers

/-! ### What was asked for -/

/-- The load spec of a request and the offer that was made. -/
structure Matches (request : Request) (spec : OfferedLoad) (offer : Offer) : Prop where
  computed : spec.vllmCachedTokens = offer.computed
  hit_le : spec.lmcacheCachedTokens ≤ request.numTokens
  external : (offer.external : ℤ) =
    max 0 (needToAllocate request offer.computed spec.lmcacheCachedTokens)

theorem needToAllocate_congr {request request' : Request}
    (h : request'.numTokens = request.numTokens) (computed hit : ℕ) :
    needToAllocate request' computed hit = needToAllocate request computed hit := by
  unfold needToAllocate
  rw [h]

namespace Matches
variable {request : Request} {spec : OfferedLoad} {offer : Offer}

theorem hit_le_succ (h : Matches request spec offer) :
    spec.lmcacheCachedTokens ≤ offer.computed + offer.external + 1 := by
  have hexternal := h.external
  unfold needToAllocate at hexternal
  split at hexternal <;> omega

/-- The offer reaches as far as the better one of the two caches, or the whole prompt is cached
and one token is missing. -/
theorem reach (h : Matches request spec offer) :
    offer.computed + offer.external = max spec.lmcacheCachedTokens spec.vllmCachedTokens ∨
      spec.lmcacheCachedTokens = request.numTokens ∧
        spec.vllmCachedTokens < spec.lmcacheCachedTokens ∧
        offer.computed + offer.external + 1 = spec.lmcacheCachedTokens := by
  have hexternal := h.external
  have hcomputed := h.computed
  unfold needToAllocate at hexternal
  split at hexternal <;> omega

end Matches

namespace System
variable {c : SchedulerConfig} {s s' : System}

/-- **The invariant**, for one request: its load spec is an offer that is not used up. -/
structure Inv (s : System) (id : String) : Prop where
  offered : ∀ spec, s.connector.loadSpecs.get? id = some spec →
    isMockRequest id = false ∧
      ∃ offer, s.offers id = some offer ∧ Matches (s.requests.get id) spec offer
  kept : ∀ offer, s.offers id = some offer → isMockRequest id = false →
    ∃ spec, s.connector.loadSpecs.get? id = some spec
  taken : ∀ offer, s.offers id = some offer → offer.status = .taken →
    id ∈ s.connector.unfinishedRequests
  live : id ∈ s.live → id ∈ s.connector.unfinishedRequests ∧
    ∃ tracker, s.connector.requestTrackers.get? id = some tracker
  named : Named s.connector id
  genuine : id ∈ s.live → isMockRequest id = false

variable {id : String} {client : LookupAnswers} {out : SchedulerOutput}

theorem Inv.congr (h : Inv s id)
    (hspec : s'.connector.loadSpecs.get? id = s.connector.loadSpecs.get? id)
    (hoffer : s'.offers id = s.offers id)
    (htokens : s.offers id ≠ none → (s'.requests.get id).numTokens = (s.requests.get id).numTokens)
    (hunfinished : s.offers id ≠ none ∨ id ∈ s'.live → id ∈ s.connector.unfinishedRequests →
      id ∈ s'.connector.unfinishedRequests)
    (htracker : id ∈ s'.live →
      s'.connector.requestTrackers.get? id = s.connector.requestTrackers.get? id)
    (hlive : id ∈ s'.live → id ∈ s.live) (hnamed : Named s'.connector id) : Inv s' id where
  offered spec hs := by
    rw [hspec] at hs
    obtain ⟨hmock, offer, hfound, hmatches⟩ := h.offered spec hs
    have hsame := htokens (by simp [hfound])
    refine ⟨hmock, offer, hoffer.trans hfound, hmatches.computed, hsame ▸ hmatches.hit_le, ?_⟩
    rw [needToAllocate_congr hsame, hmatches.external]
  kept offer ho hmock := by
    rw [hspec]
    exact h.kept offer (hoffer ▸ ho) hmock
  taken offer ho htaken := by
    rw [hoffer] at ho
    exact hunfinished (.inl (by simp [ho])) (h.taken offer ho htaken)
  live hid := by
    obtain ⟨hunf, htrack⟩ := h.live (hlive hid)
    exact ⟨hunfinished (.inr hid) hunf, by rwa [htracker hid]⟩
  named := hnamed
  genuine hid := h.genuine (hlive hid)

theorem Inv.edit (h : Inv s id) {requests : Requests}
    (hok : ∀ id, s.offers id ≠ none →
      (requests.get id).allTokenIds = (s.requests.get id).allTokenIds) :
    Inv { s with requests := requests } id :=
  h.congr rfl rfl (fun hoffer => congrArg List.length (hok id hoffer)) (fun _ h => h)
    (fun _ => rfl) (fun h => h) h.named

theorem setStatus_self_eq_some {offers : String → Option Offer} {status : OfferStatus}
    {offer : Offer} (h : setStatus offers id status id = some offer) :
    ∃ old, offers id = some old ∧ offer = { old with status := status } := by
  unfold setStatus at h
  rw [update_self] at h
  obtain ⟨old, hold, heq⟩ := Option.map_eq_some_iff.mp h
  exact ⟨old, hold, heq.symm⟩

theorem setStatus_self_of_some {offers : String → Option Offer} (status : OfferStatus)
    {offer : Offer} (h : offers id = some offer) :
    setStatus offers id status id = some { offer with status := status } := by
  unfold setStatus
  rw [update_self, h]
  rfl

theorem Inv.answer_of_ne {id' : String} (h : Inv s id') (hne : id' ≠ id) {connector : Scheduler}
    {offer : Option Offer} (hspec : connector.loadSpecs.get? id' = s.connector.loadSpecs.get? id')
    (htrackers : connector.requestTrackers = s.connector.requestTrackers)
    (hunfinished : connector.unfinishedRequests = s.connector.unfinishedRequests) :
    Inv { s with connector := connector, offers := update s.offers id offer } id' :=
  h.congr hspec (update_of_ne hne ..) (fun _ => rfl) (fun _ hid => hunfinished ▸ hid)
    (fun _ => by rw [htrackers]) (fun hid => hid) (by simpa [Named, htrackers] using h.named)

theorem Inv.answer_mock (h : Inv s id) (hmock : isMockRequest id = true) (offer : Offer)
    (hstatus : offer.status = .standing) :
    Inv { s with offers := update s.offers id (some offer) } id := by
  refine ⟨fun spec hspec => ?_, fun _ _ hid => ?_, fun offer' hoffer htaken => ?_, h.live, h.named,
    h.genuine⟩
  · exact absurd (h.offered spec hspec).1 (by simp [hmock])
  · simp [hmock] at hid
  · grind

theorem Inv.answer_none (h : Inv s id) {request : Request} :
    Inv { s with
      connector := noteLookup client request s.connector
      offers := setStatus s.offers id .withdrawn } id := by
  refine ⟨fun spec hspec => ?_, fun offer hoffer hid => ?_, fun offer hoffer htaken => ?_,
    by simpa using h.live, by simpa [Named] using h.named, h.genuine⟩
  · rw [noteLookup_loadSpecs] at hspec
    obtain ⟨hmock, offer, hoffer, hmatches⟩ := h.offered spec hspec
    exact ⟨hmock, _, setStatus_self_of_some .withdrawn hoffer, hmatches.computed,
      hmatches.hit_le, hmatches.external⟩
  · obtain ⟨old, hold, -⟩ := setStatus_self_eq_some hoffer
    simpa using h.kept old hold hid
  · obtain ⟨old, -, rfl⟩ := setStatus_self_eq_some hoffer
    nomatch htaken

theorem Inv.answer_some (h : Inv s id) (hmock : isMockRequest id = false) {request : Request}
    {numComputedTokens hit : ℕ} (hhit : hit ≤ (s.requests.get id).numTokens) :
    Inv { s with
      connector :=
        { noteLookup client request s.connector with
          loadSpecs := s.connector.loadSpecs.set id ⟨⟨numComputedTokens, hit⟩, false⟩ }
      offers :=
        update s.offers id (some ⟨numComputedTokens,
          (needToAllocate (s.requests.get id) numComputedTokens hit).toNat, .standing⟩) } id := by
  refine ⟨fun spec hspec => ?_, fun _ _ _ => ⟨⟨⟨numComputedTokens, hit⟩, false⟩, by simp⟩,
    fun offer hoffer htaken => ?_, by simpa using h.live, by simpa [Named] using h.named, h.genuine⟩
  · simp only [Dict.get?_set, if_true] at hspec
    cases hspec
    exact ⟨hmock, _, update_self .., rfl, hhit, by simp [max_comm]⟩
  · grind

theorem Inv.getNumNewMatchedTokens (h : ∀ id, Inv s id) {numComputedTokens : ℕ}
    (hok : ∀ hit, c.hitTokens client (s.requests.get id) = some hit →
      hit ≤ (s.requests.get id).numTokens)
    (hstep : step c s (.getNumNewMatchedTokens id numComputedTokens client) = some s')
    (id' : String) : Inv s' id' := by
  have hid := s.requests.requestId_get id
  simp only [step] at hstep
  cases hstep
  cases hmock : isMockRequest id with
  | true =>
    rw [getNumNewMatchedTokens_mock (hid.symm ▸ hmock)]
    by_cases hne : id' = id
    · subst hne
      exact (h id').answer_mock hmock _ rfl
    · exact (h id').answer_of_ne hne rfl rfl rfl
  | false =>
    cases hhit : c.hitTokens client (s.requests.get id) with
    | none =>
      rw [getNumNewMatchedTokens_none (hid.symm ▸ hmock) hhit]
      by_cases hne : id' = id
      · subst hne
        exact (h id').answer_none
      · exact (h id').answer_of_ne hne (by simp) (by simp) (by simp)
    | some hit =>
      rw [getNumNewMatchedTokens_some (hid.symm ▸ hmock) hhit, hid]
      by_cases hne : id' = id
      · subst hne
        exact (h id').answer_some hmock (hok hit hhit)
      · exact (h id').answer_of_ne hne (by simp [hne]) (by simp) (by simp)

theorem Inv.updateStateAfterAlloc (h : ∀ id, Inv s id) {numExternalTokens : ℕ}
    (hstep : step c s (.updateStateAfterAlloc id numExternalTokens) = some s') (id' : String) :
    Inv s' id' := by
  simp only [step] at hstep
  split at hstep
  · nomatch hstep
  · rename_i connector hcall
    cases hstep
    obtain ⟨htrackers, hunfinished, canLoad, hspecs⟩ := updateStateAfterAlloc_eq_ok hcall
    rw [s.requests.requestId_get] at hunfinished hspecs
    by_cases hne : id' = id
    · subst hne
      have hspec := hspecs id'
      rw [if_pos rfl] at hspec
      refine ⟨fun spec hs => ?_, fun offer hoffer hmock => ?_, fun offer hoffer htaken => ?_,
        fun hlive => ?_, by simpa [Named, htrackers] using (h id').named, (h id').genuine⟩
      · rw [hspec] at hs
        obtain ⟨old, hold, rfl⟩ := Option.map_eq_some_iff.mp hs
        obtain ⟨hmock, offer, hoffer, hmatches⟩ := (h id').offered old hold
        exact ⟨hmock, _, setStatus_self_of_some .taken hoffer, hmatches.computed,
          hmatches.hit_le, hmatches.external⟩
      · obtain ⟨old, hold, -⟩ := setStatus_self_eq_some hoffer
        obtain ⟨spec, hs⟩ := (h id').kept old hold hmock
        exact ⟨_, by rw [hspec, hs]; rfl⟩
      · simp [hunfinished]
      · obtain ⟨-, htrack⟩ := (h id').live hlive
        exact ⟨by simp [hunfinished], by simpa [htrackers] using htrack⟩
    · exact (h id').congr (by simp [hspecs, hne]) (by simp [setStatus, hne]) (fun _ => rfl)
        (by simp +contextual [hunfinished]) (fun _ => by rw [htrackers]) (fun h => h)
        (by simpa [Named, htrackers] using (h id').named)

/-- A request that was scheduled before is resumed, or it has no offer. -/
theorem BuildOk.cached (hok : BuildOk c s out) (hid : id ∈ cachedIds out) :
    id ∉ out.finishedReqIds ∧ id ∈ s.live ∧
      (out.isResumed id = true ∨ s.offers id = none) := by
  unfold cachedIds at hid
  fun_cases isResumed
  next reqs hreqs =>
    rw [hreqs, mem_flatMap] at hid
    obtain ⟨req, hreq, hid⟩ := hid
    rw [mem_singleton] at hid
    subst hid
    have hagain := ((hok.list reqs hreqs).2 req hreq).1
    refine ⟨hagain.unfinished, hagain.live, ?_⟩
    cases hresumed : req.resumedFromPreemption with
    | true => exact .inl (any_eq_true.mpr ⟨req, hreq, by simp [hresumed]⟩)
    | false => exact .inr (hagain.running hresumed)
  next reqs hreqs =>
    rw [hreqs, mem_flatMap] at hid
    obtain ⟨item, hitem, hid⟩ := hid
    rw [mem_singleton] at hid
    subst hid
    obtain ⟨newBlockIds, preempted, _, hpreempted, hagain⟩ := (hok.data reqs hreqs).2 item hitem
    refine ⟨hagain.unfinished, hagain.live, ?_⟩
    cases preempted with
    | true => exact .inl (any_eq_true.mpr ⟨item, hitem, by simp [hpreempted]⟩)
    | false => exact .inr (hagain.running rfl)

theorem isResumed_mem_cachedIds (h : out.isResumed id = true) : id ∈ cachedIds out := by
  unfold isResumed at h
  unfold cachedIds
  grind

theorem mem_newIds :
    id ∈ out.scheduledNewReqs.flatMap newIds ↔
      isMockRequest id = false ∧ ∃ request ∈ out.scheduledNewReqs, request.reqId = id := by
  rw [mem_flatMap]
  constructor
  · rintro ⟨request, hrequest, hid⟩
    unfold newIds at hid
    grind
  · rintro ⟨hmock, request, hrequest, rfl⟩
    exact ⟨request, hrequest, by simp [newIds, hmock]⟩

theorem BuildOk.used_up (hok : BuildOk c s out)
    (hid : id ∈ out.scheduledNewReqs.flatMap newIds ++ cachedIds out) :
    (if out.isAdmitted id then none else s.offers id) = none := by
  rw [mem_append, mem_newIds] at hid
  obtain ⟨_, request, hrequest, rfl⟩ | hid := hid
  · have hadmitted : out.isAdmitted request.reqId = true := by
      unfold isAdmitted
      grind
    rw [if_pos hadmitted]
  · obtain ⟨_, _, hresumed | hnone⟩ := hok.cached hid
    · have hadmitted : out.isAdmitted id = true := by
        unfold isAdmitted
        rw [hresumed, Bool.or_true]
      rw [if_pos hadmitted]
    · split
      · rfl
      · exact hnone

/-- Requests that are live after a step are known after its finished requests are forgotten. -/
theorem BuildOk.unfinished (hok : BuildOk c s out)
    (hid : s.offers id ≠ none ∨ id ∈ s.live ∧ id ∉ out.finishedReqIds)
    (hknown : id ∈ s.connector.unfinishedRequests) :
    id ∈ (forgetFinished out s.connector).unfinishedRequests := by
  have hnot : id ∉ out.finishedReqIds := by
    obtain hoffer | hlive := hid
    · exact fun hmem => hoffer (hok.finished id hmem)
    · exact hlive.2
  exact mem_filter.mpr ⟨hknown, by simpa using hnot⟩

theorem isMock_of_admitted (h : out.isAdmitted id = true)
    (hid : id ∉ out.scheduledNewReqs.flatMap newIds ++ cachedIds out) :
    isMockRequest id = true := by
  rw [mem_append, not_or, mem_newIds] at hid
  unfold isAdmitted at h
  rw [Bool.or_eq_true] at h
  obtain hnew | hresumed := h
  · grind
  · exact absurd (isResumed_mem_cachedIds hresumed) hid.2

theorem Inv.buildConnectorMeta (h : ∀ id, Inv s id) (hok : BuildOk c s out)
    (hstep : step c s (.buildConnectorMeta out) = some s') (id : String) : Inv s' id := by
  simp only [step] at hstep
  split at hstep
  · nomatch hstep
  rename_i connector metas hcall
  cases hstep
  have hhandled := buildConnectorMeta_handled hcall
  have hlive : id ∈ s.live ∧ id ∉ out.finishedReqIds →
      id ∈ connector.unfinishedRequests := fun hid => by
    rw [hhandled.unfinished]
    exact hok.unfinished (.inr hid) ((h id).live hid.1).1
  have hnamed : Named connector id := hhandled.named id (named_forgetFinished (h id).named out)
  -- a live request was live before, or is a new one
  have hsplit : id ∈ (s.live.filter fun id => decide (id ∉ out.finishedReqIds)) ++
      ((out.scheduledNewReqs.map NewRequestData.reqId).filter fun id => !isMockRequest id) →
      (id ∈ s.live ∧ id ∉ out.finishedReqIds) ∨
        (∃ request ∈ out.scheduledNewReqs, request.reqId = id) ∧ isMockRequest id = false := by
    simp
  have hgenuine := fun hmem => (hsplit hmem).elim (fun hold => (h id).genuine hold.1) And.right
  have hspec := hhandled.loadSpecs id
  by_cases hid : id ∈ out.scheduledNewReqs.flatMap newIds ++ cachedIds out
  · rw [if_pos hid] at hspec
    have hoffer := hok.used_up hid
    refine ⟨fun spec hs => ?_, fun offer ho => ?_, fun offer ho => ?_, fun hmem => ⟨?_, ?_⟩,
      hnamed, hgenuine⟩
    · cases hspec.symm.trans hs
    · nomatch hoffer.symm.trans ho
    · nomatch hoffer.symm.trans ho
    · obtain hmem | ⟨⟨request, hrequest, rfl⟩, -⟩ := hsplit hmem
      · exact hlive hmem
      · obtain ⟨_, offer, n, hsome, htaken, _⟩ := hok.new request hrequest
        rw [hhandled.unfinished]
        exact hok.unfinished (.inl (by simp [hsome])) ((h _).taken offer hsome htaken)
    · exact hhandled.tracked id hid
  · rw [if_neg hid] at hspec
    have hold := fun hmem => (hsplit hmem).resolve_right fun ⟨⟨request, hrequest, hreq⟩, hmock⟩ =>
      hid (mem_append_left _ (mem_newIds.mpr ⟨hmock, request, hrequest, hreq⟩))
    have htracker : id ∉ out.finishedReqIds →
        connector.requestTrackers.get? id = s.connector.requestTrackers.get? id := fun hnot => by
      rw [hhandled.trackers id hid]
      simp [forgetFinished, hnot]
    cases hadmitted : out.isAdmitted id with
    | true =>
      have hmock := isMock_of_admitted hadmitted hid
      have hoffer : (if out.isAdmitted id then none else s.offers id) = none := if_pos hadmitted
      refine ⟨fun spec hs => ?_, fun offer ho => ?_, fun offer ho => ?_, fun hmem => ?_,
        hnamed, hgenuine⟩
      · have := ((h id).offered spec (hspec ▸ hs)).1
        simp [hmock] at this
      · nomatch hoffer.symm.trans ho
      · nomatch hoffer.symm.trans ho
      · grind
    | false =>
      refine (h id).congr hspec (by simp [hadmitted]) (fun _ => rfl) (fun hkept hknown => ?_)
        (fun hmem => htracker (hold hmem).2) (fun hmem => (hold hmem).1) hnamed
      rw [hhandled.unfinished]
      exact hok.unfinished (hkept.imp_right hold) hknown

/-- **The contract keeps the invariant.** -/
theorem inv_inductive : ((system c).restrict (Contract c)).Inductive fun s => ∀ id, Inv s id where
  init s hs id := by
    obtain ⟨hconnector, hoffers, hlive⟩ := hs
    refine ⟨fun spec hspec => ?_, fun offer hoffer => ?_, fun offer hoffer => ?_, fun hid => ?_,
      fun tracker htracker => ?_, fun hid => ?_⟩
    · rw [hconnector] at hspec
      nomatch hspec
    · rw [hoffers] at hoffer
      nomatch hoffer
    · rw [hoffers] at hoffer
      nomatch hoffer
    · rw [hlive] at hid
      nomatch hid
    · rw [hconnector] at htracker
      nomatch htracker
    · rw [hlive] at hid
      nomatch hid
  step s e s' h hstep id := by
    obtain ⟨hok, hstep⟩ := hstep
    cases e with
    | edit requests =>
      cases hstep
      exact (h id).edit hok
    | getNumNewMatchedTokens id' numComputedTokens client =>
      exact Inv.getNumNewMatchedTokens h hok hstep id
    | updateStateAfterAlloc id' numExternalTokens =>
      exact Inv.updateStateAfterAlloc h hstep id
    | buildConnectorMeta out => exact Inv.buildConnectorMeta h hok hstep id

end System

end LMCache.VLLM
