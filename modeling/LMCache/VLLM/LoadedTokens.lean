import LMCache.VLLM.Offers

/-! # The tokens that are loaded

vLLM admits a waiting request on the strength of an offer, and counts the offered tokens as
computed.  They must then be among those that the workers are told to load.

The token ids of the metadata are cut to full chunks for the sake of saving, and the tokens to load
are the first ones of what is left.  `load_tokens_requested`: nothing is lost exactly when the
cached tokens are among the full chunks that the step reaches, or when partial chunks are kept and
the step completes the prompt (`Kept`).  `load_tokens_cut`: otherwise fewer tokens are asked for
than vLLM counts on. -/

namespace LMCache.VLLM.System

open List SchedulerConfig Function
variable {c : SchedulerConfig} {s : System} {out : SchedulerOutput}

def fresh (requests : Requests) : System where
  connector := ⟨.empty, .empty, .empty, [], .empty⟩
  requests := requests
  offers _ := none
  live := []

theorem reachable_offer (hs : ((system c).restrict (Contract c)).Reachable s) (id : String)
    (numComputedTokens numExternalTokens : ℕ) (client : LookupAnswers) {connector : Scheduler}
    (hok : ∀ hit, c.hitTokens client (s.requests.get id) = some hit →
      hit ≤ (s.requests.get id).numTokens)
    (hcall : (c.getNumNewMatchedTokens client (s.requests.get id) numComputedTokens
      s.connector).1 = some numExternalTokens)
    (htaken : SchedulerConfig.updateStateAfterAlloc (s.requests.get id) numExternalTokens
      (c.getNumNewMatchedTokens client (s.requests.get id) numComputedTokens s.connector).2 =
        .ok connector) :
    ((system c).restrict (Contract c)).Reachable
      { s with
        connector := connector
        offers := update s.offers id
          (some ⟨numComputedTokens, numExternalTokens, .taken⟩) } := by
  have hoffer : ((system c).restrict (Contract c)).Reachable
      { s with
        connector :=
          (c.getNumNewMatchedTokens client (s.requests.get id) numComputedTokens s.connector).2
        offers := update s.offers id
          (some ⟨numComputedTokens, numExternalTokens, .standing⟩) } :=
    hs.step (e := .getNumNewMatchedTokens id numComputedTokens client)
      ⟨hok, by simp only [system, step, hcall]⟩
  refine hoffer.step (e := .updateStateAfterAlloc id numExternalTokens)
    ⟨⟨numComputedTokens, update_self ..⟩, ?_⟩
  simp only [system, step, htaken, setStatus, update_self, Option.map_some, update_idem]

/-! ### Loading -/

/-- How many tokens of a request are computed or loaded at the end of a step that schedules `n`. -/
def reached (s : System) (id : String) (offer : Offer) (n : ℕ) : ℕ :=
  min (offer.computed + offer.external + n) (s.requests.get id).numTokens

/-- The length of the prompt: that of a new request, or the one in the tracker. -/
def promptLen (s : System) (out : SchedulerOutput) (id : String) : ℕ :=
  match out.scheduledNewReqs.find? fun request => request.reqId = id with
  | some request => request.promptTokenIds.length
  | none => ((s.connector.requestTrackers.get? id).map RequestTracker.promptLen).getD 0

/-- **The condition** for a load of `hit` tokens: they are among the full chunks that the step
reaches, or partial chunks are kept and the step completes the prompt. -/
def Kept (c : SchedulerConfig) (s : System) (out : SchedulerOutput) (id : String) (hit : ℕ)
    (offer : Offer) (n : ℕ) : Prop :=
  hit ≤ s.reached id offer n / c.lmcacheChunkSize * c.lmcacheChunkSize ∨
    c.discardPartialChunks = false ∧ s.promptLen out id ≤ s.reached id offer n

/-- Metadata with a load comes from a tracker with the tokens and the blocks that the step
reaches. -/
structure LoadedFrom (c : SchedulerConfig) (s : System) (out : SchedulerOutput)
    (reqMeta : StepReqMeta) (spec : LoadSpec) (tracker : RequestTracker) (offer : Offer) (n : ℕ) :
    Prop where
  made : ∃ loadSpec, (c.fromRequestTracker tracker loadSpec).1 = some reqMeta
  offered : s.offers reqMeta.reqId = some offer
  hit : ∃ offered : OfferedLoad, offered.toLoadSpec = spec ∧
    Matches (s.requests.get reqMeta.reqId) offered offer
  scheduled : out.numScheduledTokens.get? reqMeta.reqId = some n
  pos : 0 < n
  tokens : tracker.tokenIds =
    (s.requests.get reqMeta.reqId).allTokenIds.take (offer.computed + offer.external + n)
  blocks : offer.computed + offer.external + n ≤ tracker.allocatedBlockIds.length * c.blockSize
  prompt : tracker.promptLen = s.promptLen out reqMeta.reqId

variable {spec : LoadSpec} {reqMeta : StepReqMeta}

theorem loadedFrom_new (hinv : ∀ id, Inv s id) (hok : BuildOk c s out) {request : NewRequestData}
    (hrequest : request ∈ out.scheduledNewReqs) {t t' : Scheduler}
    (hspecs : ∀ id spec, t.loadSpecs.get? id = some spec →
      s.connector.loadSpecs.get? id = some spec)
    (hmade : c.scheduleNew out t request = .ok (t', some reqMeta))
    (hspec : reqMeta.loadSpec = some spec) :
    ∃ tracker offer n, LoadedFrom c s out reqMeta spec tracker offer n := by
  have hmock : isMockRequest request.reqId = false := by
    by_contra hmock
    unfold scheduleNew at hmade
    grind
  obtain ⟨n, hn, tracker, htokens, hblocks, hname, hlen, hmeta, -⟩ := scheduleNew_eq_ok hmade hmock
  obtain ⟨hid, -, -, -, hload⟩ := c.fromRequestTracker_spec hmeta
  obtain ⟨offered, hoffered, -, rfl⟩ := hload spec hspec
  rw [hname] at hid
  obtain ⟨-, offer, hoffer, hmatches⟩ := (hinv request.reqId).offered offered (hspecs _ _ hoffered)
  obtain ⟨hprompt, offer', n', hoffer', -, hcomputed, hn', hpos, hle⟩ := hok.new request hrequest
  cases hoffer.symm.trans hoffer'
  cases hn.symm.trans hn'
  -- every new request with this id comes with the tokens of the request
  have hlength : s.promptLen out request.reqId = request.promptTokenIds.length := by
    unfold promptLen
    split
    · next found hfound =>
        have hreq : found.reqId = request.reqId := by simpa using find?_some hfound
        rw [hprompt, (hok.new found (mem_of_find?_eq_some hfound)).1, hreq]
    · next hnone => exact absurd (find?_eq_none.mp hnone request hrequest) (by simp)
  rw [hcomputed] at htokens hle
  refine ⟨tracker, offer, n, ⟨⟨_, hmeta⟩, ?_, ⟨offered, rfl, ?_⟩, ?_, hpos, ?_, ?_, ?_⟩⟩
  · rw [hid, hoffer]
  · rw [hid]
    exact hmatches
  · rw [hid, hn]
  · rw [hid, htokens, hprompt]
  · rwa [hblocks]
  · rw [hid, hlen, hlength]

/-- The tokens of a resumed request, as the tracker computes them, are those up to the end of the
step: if the whole request is cached, both are all tokens. -/
theorem take_restored {request : Request} {spec : OfferedLoad} {offer : Offer}
    (hmatches : Matches request spec offer) {n : ℕ} (hpos : 0 < n) :
    request.allTokenIds.take (max spec.lmcacheCachedTokens spec.vllmCachedTokens +
        ((request.allTokenIds.drop (offer.computed + offer.external)).take n).length) =
      request.allTokenIds.take (offer.computed + offer.external + n) := by
  obtain hreach | ⟨hfull, hlt, hreach⟩ := hmatches.reach
  · rw [← hreach, take_add_length_new]
  · rw [Request.numTokens] at hfull
    rw [take_of_length_le (by omega), take_of_length_le (by omega)]

theorem loadedFrom_updated (hinv : ∀ id, Inv s id) {id : String} {newBlockIds : NewBlockIds}
    {preempted : Bool} (hagain : ScheduledAgain c s out id newBlockIds preempted)
    {t t' : Scheduler} {other : List String} (hid : id ∉ other)
    (hhandled : Handled other (forgetFinished out s.connector) t) {tracker : RequestTracker}
    (htracker : t.requestTrackers.get? id = some tracker) {n : ℕ}
    (hn : out.numScheduledTokens.get? id = some n) {allTokenIds : Option (List ℤ)}
    (hall : preempted = true → allTokenIds = some (s.requests.get id).allTokenIds)
    (hmade : c.updateTracker t id tracker
      (((s.requests.get id).allTokenIds.drop (s.requests.get id).numComputedTokens).take n)
      newBlockIds preempted allTokenIds = .ok (t', some reqMeta))
    (hspec : reqMeta.loadSpec = some spec) :
    ∃ tracker offer n, LoadedFrom c s out reqMeta spec tracker offer n := by
  obtain ⟨updated, hupdated, hname, hmeta, -, -⟩ := updateTracker_eq_ok htracker hmade
  obtain ⟨hreq, -, -, -, hload⟩ := c.fromRequestTracker_spec hmeta
  obtain ⟨offered, hoffered, -, rfl⟩ := hload spec hspec
  have hnamed := hhandled.named id (named_forgetFinished (hinv id).named out)
  rw [hname, hnamed tracker htracker] at hreq
  obtain ⟨-, offer, hoffer, hmatches⟩ :=
    (hinv id).offered offered (hhandled.of_get?_eq_some hoffered)
  cases preempted with
  | false => cases (hagain.running rfl).symm.trans hoffer
  | true =>
    obtain ⟨offer', n', hoffer', -, hcomputed, hn', hpos, hle⟩ := hagain.resumed rfl
    cases hoffer.symm.trans hoffer'
    cases hn.symm.trans hn'
    rw [hall rfl, hoffered] at hupdated
    obtain ⟨t₁, ht₁, htokens, hblocks, hlen⟩ := tracker.update_resumed
      (((s.requests.get id).allTokenIds.drop (s.requests.get id).numComputedTokens).take n)
      (s.requests.get id).allTokenIds newBlockIds offered.lmcacheCachedTokens
      offered.vllmCachedTokens
    cases ht₁.symm.trans hupdated
    have hlength : s.promptLen out id = tracker.promptLen := by
      have hnew : (out.scheduledNewReqs.find? fun request => request.reqId = id) = none :=
        find?_eq_none.mpr fun request hrequest => by simpa using hagain.old request hrequest
      rw [hhandled.trackers id hid] at htracker
      simp only [forgetFinished, Dict.get?_filterKeys, hagain.unfinished, not_false_eq_true,
        decide_true, if_true] at htracker
      simp only [promptLen, hnew, htracker, Option.map_some, Option.getD_some]
    rw [hcomputed] at htokens hle
    refine ⟨_, offer, n, ⟨⟨_, hmeta⟩, ?_, ⟨offered, rfl, ?_⟩, ?_, hpos, ?_, ?_, ?_⟩⟩
    · rw [hreq, hoffer]
    · rw [hreq]
      exact hmatches
    · rw [hreq, hn]
    · rw [hreq, htokens, take_restored hmatches hpos]
    · rwa [hblocks]
    · rw [hreq, hlen, hlength]

theorem notMem_newIds {id : String} {newBlockIds : NewBlockIds} {preempted : Bool}
    (h : ScheduledAgain c s out id newBlockIds preempted) :
    id ∉ out.scheduledNewReqs.flatMap newIds := fun hmem => by
  obtain ⟨_, request, hrequest, hid⟩ := mem_newIds.mp hmem
  exact h.old request hrequest hid

theorem loadedFrom_of_mem (hinv : ∀ id, Inv s id) (hok : BuildOk c s out) {connector : Scheduler}
    {metas : List StepReqMeta}
    (hbuild : c.buildConnectorMeta s.requests.get out s.connector = .ok (connector, metas))
    (hmem : reqMeta ∈ metas) (hspec : reqMeta.loadSpec = some spec) :
    ∃ tracker offer n, LoadedFrom c s out reqMeta spec tracker offer n := by
  obtain ⟨s₁, newMetas, cachedMetas, hnew, hcached, rfl⟩ := buildConnectorMeta_eq_ok_iff.mp hbuild
  obtain hmem | hmem := mem_append.mp hmem
  · obtain ⟨before, request, after, t, t', hitems, hbefore, hmade⟩ :=
      exists_of_mem_collect scheduleNew_handled hnew hmem
    have hrequest : request ∈ out.scheduledNewReqs := hitems ▸ mem_append_right _ mem_cons_self
    exact loadedFrom_new hinv hok hrequest (fun _ _ => hbefore.of_get?_eq_some) hmade hspec
  · have hhandled := collect_handled scheduleNew_handled hnew
    unfold scheduleCached at hcached
    cases hreqs : out.scheduledCachedReqs with
    | list reqs =>
      rw [hreqs] at hcached
      obtain ⟨before, req, after, t, t', hitems, hbefore, hmade⟩ :=
        exists_of_mem_collect scheduleCachedReq_handled hcached hmem
      obtain ⟨hnodup, hagain⟩ := hok.list reqs hreqs
      obtain ⟨hagain, htokens⟩ := hagain req (hitems ▸ mem_append_right _ mem_cons_self)
      obtain ⟨tracker, allTokenIds, htracker, hall, hmade⟩ := scheduleCachedReq_eq_ok hmade
      obtain ⟨n, hn⟩ := hagain.scheduled
      rw [htokens n hn] at hmade
      rw [hitems] at hnodup
      refine loadedFrom_updated hinv hagain (fun hid => ?_) (hhandled.trans hbefore)
        htracker hn hall
        hmade hspec
      exact (mem_append.mp hid).elim (notMem_newIds hagain) (notMem_of_nodup hnodup)
    | data reqs =>
      rw [hreqs] at hcached
      obtain ⟨before, item, after, t, t', hitems, hbefore, hmade⟩ :=
        exists_of_mem_collect scheduleCachedData_handled hcached hmem
      obtain ⟨tracker, n, newBlockIds, preempted, allTokenIds, htracker, hn, hblocks, hpreempted,
        hall, hmade⟩ := scheduleCachedData_eq_ok hmade
      obtain ⟨hnodup, hagain⟩ := hok.data reqs hreqs
      obtain ⟨newBlockIds', preempted', hblocks', hpreempted', hagain⟩ :=
        hagain item (hitems ▸ mem_append_right _ mem_cons_self)
      cases hblocks.symm.trans hblocks'
      cases hpreempted.symm.trans hpreempted'
      rw [← zipIdx_map_fst 0 reqs.reqIds, hitems] at hnodup
      refine loadedFrom_updated hinv hagain (fun hid => ?_) (hhandled.trans hbefore) htracker hn
        (fun hp => (hall hp).1) hmade hspec
      exact (mem_append.mp hid).elim (notMem_newIds hagain) (notMem_of_nodup hnodup)

/-- **What vLLM counts as loaded is asked for**: in every run of vLLM, metadata with a load has the
tokens and the slots of all tokens that the cache holds exactly when these are kept by the cut; then
the workers are told of every token that vLLM was offered. -/
theorem load_tokens_requested (hs : ((system c).restrict (Contract c)).Reachable s)
    (hok : BuildOk c s out) {connector : Scheduler} {metas : List StepReqMeta}
    (hbuild : c.buildConnectorMeta s.requests.get out s.connector = .ok (connector, metas))
    {reqMeta : StepReqMeta} (hmem : reqMeta ∈ metas) {spec : LoadSpec}
    (hspec : reqMeta.loadSpec = some spec) :
    ∃ offer n, s.offers reqMeta.reqId = some offer ∧
      out.numScheduledTokens.get? reqMeta.reqId = some n ∧
      (spec.lmcacheCachedTokens ≤ reqMeta.tokenIds.length ∧
          spec.lmcacheCachedTokens ≤ reqMeta.slotMapping.length ↔
        Kept c s out reqMeta.reqId spec.lmcacheCachedTokens offer n) ∧
      (Kept c s out reqMeta.reqId spec.lmcacheCachedTokens offer n →
        ∀ i, offer.computed ≤ i → i < offer.computed + offer.external →
          i < (reqMeta.tokenIds.take spec.lmcacheCachedTokens).length) := by
  obtain ⟨tracker, offer, n, h⟩ :=
    loadedFrom_of_mem (inv_inductive.reachable hs) hok hbuild hmem hspec
  obtain ⟨loadSpec, hmade⟩ := h.made
  obtain ⟨offered, rfl, hmatches⟩ := h.hit
  obtain ⟨-, -, hlength, hslots, -⟩ := c.fromRequestTracker_spec hmade
  have hreach := hmatches.hit_le_succ
  have hpos := h.pos
  have hblocks := h.blocks
  have htokens : tracker.tokenIds.length = s.reached reqMeta.reqId offer n := by
    rw [h.tokens, length_take]
    rfl
  have hle : offered.lmcacheCachedTokens ≤ tracker.tokenIds.length := by
    rw [htokens]
    exact le_min (by omega) hmatches.hit_le
  have hkept := c.le_numTokensToSave_iff hle
  rw [htokens, h.prompt] at hkept
  refine ⟨offer, n, h.offered, h.scheduled, ?_, fun hk i hi hlt => ?_⟩
  · rw [hlength, hslots, le_min_iff]
    exact ⟨fun hall => hkept.mp hall.1,
      fun hk => ⟨hkept.mpr hk, hkept.mpr hk, by omega⟩⟩
  · rw [length_take_of_le (hlength ▸ hkept.mpr hk)]
    have hexternal := hmatches.external
    unfold needToAllocate at hexternal
    split at hexternal <;> omega

/-- A connector for chunks and blocks of four tokens. -/
def fourTokens (skipLastNTokens : ℕ) : SchedulerConfig where
  lmcacheChunkSize := 4
  blockSize := 4
  useLayerwise := false
  chunkSize_pos := Connector.smallConnector.chunkSize_pos
  blockSize_pos := Connector.smallConnector.chunkSize_pos
  discardPartialChunks := false
  saveDecodeCache := false
  skipLastNTokens := skipLastNTokens
  kvRole := .both
  forceSkipSave := false
  priorityLimit := none
  hexHashToInt16 _ := 0

/-- Requests of ten tokens, of which vLLM has computed some. -/
def tenTokens (numComputedTokens : ℕ) : Requests where
  get id := ⟨id, List.replicate 10 7, List.replicate 10 7, numComputedTokens, 0, none, none, [], []⟩
  requestId_get _ := rfl

def newRequestStep (numComputedTokens numScheduledTokens : ℕ) : SchedulerOutput where
  finishedReqIds := []
  scheduledNewReqs :=
    [⟨"r", List.replicate 10 7, [0, 1, 2], numComputedTokens, none, [], []⟩]
  scheduledCachedReqs := .data ⟨[], [], .resumedReqIds []⟩
  numScheduledTokens := .ofList [("r", numScheduledTokens)]

theorem newRequestStep_ok (skip computed external scheduled known : ℕ) (connector : Scheduler)
    (hpos : 0 < scheduled) (hblocks : computed + external + scheduled ≤ 12) :
    BuildOk (fourTokens skip)
      { fresh (tenTokens known) with
        connector := connector
        offers := update (fun _ => none) "r" (some ⟨computed, external, .taken⟩) }
      (newRequestStep (computed + external) scheduled) where
  finished id hid := nomatch hid
  new request hrequest := by
    obtain rfl := mem_singleton.mp hrequest
    have hoffer : update (fun _ => none) "r"
        (some (⟨computed, external, .taken⟩ : Offer)) "r" = some ⟨computed, external, .taken⟩ :=
      update_self ..
    exact ⟨rfl, _, scheduled, hoffer, rfl, rfl, rfl, hpos, hblocks⟩
  list reqs hreqs := nomatch hreqs
  data reqs hreqs := by
    cases hreqs
    exact ⟨nodup_nil, nofun⟩

/-- A client that finds some tokens of every request. -/
def finds (hit : ℕ) : LookupAnswers := ⟨none, fun _ _ => some hit⟩

/-- Two full chunks of a prompt of ten tokens are cached. -/
theorem load_tokens_requested_two_chunks :
    ∃ s connector reqMeta,
      ((system (fourTokens 0)).restrict (Contract (fourTokens 0))).Reachable s ∧
      (fourTokens 0).buildConnectorMeta s.requests.get (newRequestStep 8 2) s.connector =
        .ok (connector, [reqMeta]) ∧
      reqMeta.loadSpec = some ⟨0, 8⟩ ∧ 8 ≤ reqMeta.tokenIds.length ∧
      8 ≤ reqMeta.slotMapping.length := by
  have hs := reachable_offer (.init ⟨rfl, rfl, rfl⟩ :
      ((system (fourTokens 0)).restrict (Contract (fourTokens 0))).Reachable (fresh (tenTokens 0)))
    "r" 0 8 (finds 8) (fun hit hhit => by cases hhit; decide) rfl rfl
  obtain ⟨offer, n, hoffer, hn, hiff, -⟩ := load_tokens_requested hs
    (newRequestStep_ok 0 0 8 2 0 _ (by decide) (by decide)) rfl (mem_singleton_self _)
    (show _ = some (⟨0, 8⟩ : LoadSpec) from rfl)
  cases hoffer
  cases hn
  obtain ⟨htokens, hslots⟩ := hiff.mpr (.inl (by decide))
  exact ⟨_, _, _, hs, rfl, rfl, htokens, hslots⟩

/-- **A load that is cut.**  Of a prompt of ten tokens all but the last four are looked up; the
cache holds the six of them, the last two as a short chunk.  vLLM counts six tokens as computed and
schedules one more, and the workers are told of four. -/
theorem load_tokens_cut :
    ∃ s connector reqMeta,
      ((system (fourTokens 4)).restrict (Contract (fourTokens 4))).Reachable s ∧
      BuildOk (fourTokens 4) s (newRequestStep 6 1) ∧
      ((fourTokens 4).lookupTokens (s.requests.get "r")).length = 6 ∧
      (fourTokens 4).buildConnectorMeta s.requests.get (newRequestStep 6 1) s.connector =
        .ok (connector, [reqMeta]) ∧
      reqMeta.loadSpec = some ⟨0, 6⟩ ∧ reqMeta.tokenIds.length = 4 := by
  have hs := reachable_offer (.init ⟨rfl, rfl, rfl⟩ :
      ((system (fourTokens 4)).restrict (Contract (fourTokens 4))).Reachable (fresh (tenTokens 0)))
    "r" 0 6 (finds 6) (fun hit hhit => by cases hhit; decide) rfl rfl
  exact ⟨_, _, _, hs, newRequestStep_ok 4 0 6 1 0 _ (by decide) (by decide), rfl, rfl, rfl, rfl⟩

end LMCache.VLLM.System
