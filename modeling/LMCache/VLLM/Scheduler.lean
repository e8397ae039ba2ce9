import LMCache.Lib.Transition
import LMCache.VLLM.RequestTracker

/-! # The scheduler's side of the vLLM connector

Before it schedules a waiting request, vLLM asks the connector how many tokens can be loaded
beyond those that it has itself, allocates blocks for them, tells the connector so, and at the end
of the step has the metadata for the workers built.

* **The calls.**  `getNumNewMatchedTokens` makes an offer, `updateStateAfterAlloc` takes it up and
  `buildConnectorMeta` turns it into metadata, for new requests and for requests that are resumed
  after a preemption.  All three recompute how many tokens the offer is about; when the cache holds
  the whole prompt, one token less is offered than the cache holds.
* **vLLM** is an `LTS`: it changes its requests, makes the three calls, and `Contract` says in
  which order it makes them.  A running request is a reference to the object of vLLM, so the
  connector sees its present tokens.
* **The invariant** (`Inv`): the load specs are the offers that are not used up.

The lookup client is given by its answers.  Every client has the attribute
`supports_producer_reuse`, which its interface defines, so no request of a producer is turned away
for want of it. -/

namespace LMCache.VLLM

/-! ### The code -/

/-- `disagg_spec` among the parameters of a request. -/
structure ReqDisaggSpec where
  reqId : String
  receiverHost : String
  receiverInitPort : ℕ
  receiverAllocPort : ℕ
deriving DecidableEq, Repr

def ReqDisaggSpec.toDisaggSpec (spec : ReqDisaggSpec) : DisaggSpec where
  reqId := spec.reqId
  receiverId := spec.receiverHost ++ toString spec.receiverInitPort
  receiverHost := spec.receiverHost
  receiverInitPort := spec.receiverInitPort
  receiverAllocPort := spec.receiverAllocPort

structure Request where
  requestId : String
  promptTokenIds : List ℤ
  allTokenIds : List ℤ
  numComputedTokens : ℕ
  priority : ℤ
  /-- The `kv_transfer_params` of the sampling parameters. -/
  samplingKvTransferParams : Option RequestConfigs
  disaggSpec : Option ReqDisaggSpec
  mmHashes : List String
  mmPositions : List PlaceholderRange

def Request.numTokens (request : Request) : ℕ := request.allTokenIds.length

/-- The form of `scheduled_cached_reqs` of old versions. -/
structure CachedReq where
  reqId : String
  newTokenIds : List ℤ
  newBlockIds : NewBlockIds
  resumedFromPreemption : Bool

/-- How `CachedRequestData` tells which requests are resumed. -/
inductive Resumed where
  | resumedReqIds (ids : List String)
  | resumedFromPreemption (flags : List Bool)
  | missing

structure CachedRequestData where
  reqIds : List String
  newBlockIds : List NewBlockIds
  resumed : Resumed

inductive ScheduledCachedReqs where
  | list (reqs : List CachedReq)
  | data (reqs : CachedRequestData)

structure SchedulerOutput where
  finishedReqIds : List String
  scheduledNewReqs : List NewRequestData
  scheduledCachedReqs : ScheduledCachedReqs
  numScheduledTokens : Dict String ℕ

/-- What the lookup client answers: `lookup_cache` is `none` for `-1`. -/
structure LookupAnswers where
  lookupCache : Option (Option ℕ)
  lookup : List ℤ → Option RequestConfigs → Option ℕ

structure Scheduler where
  loadSpecs : Dict String OfferedLoad
  requestsPriority : Dict String ℤ
  requestTrackers : Dict String RequestTracker
  /-- References to the requests of vLLM. -/
  unfinishedRequests : List String
  tmpDisaggTracker : Dict String DisaggSpec

def isMockRequest (requestId : String) : Bool := (Text.after? "mock_req" requestId).isSome

/-- `d[k]`. -/
def getItem {V : Type} (d : Dict String V) (k : String) : Except PyError V :=
  match d.get? k with
  | some v => .ok v
  | none => .error ⟨.keyError, "'" ++ k ++ "'"⟩

/-- `xs[i]`. -/
def listItem {A : Type} (xs : List A) (i : ℕ) : Except PyError A :=
  match xs[i]? with
  | some x => .ok x
  | none => .error ⟨.indexError, "list index out of range"⟩

namespace SchedulerConfig
variable (c : SchedulerConfig)

def lookupTokens (request : Request) : List ℤ :=
  let tokenIds :=
    if request.mmHashes ≠ [] ∧ request.mmPositions ≠ [] then
      applyMmHashesToTokenIds c.hexHashToInt16 request.promptTokenIds request.mmHashes
        request.mmPositions
    else request.allTokenIds
  if 0 < c.skipLastNTokens then tokenIds.take (tokenIds.length - c.skipLastNTokens) else tokenIds

/-- The answer that a request gets, from the cache of answers or from a lookup. -/
def hitTokens (client : LookupAnswers) (request : Request) : Option ℕ :=
  match client.lookupCache with
  | some cached => cached
  | none =>
    client.lookup (c.lookupTokens request)
      (extractRequestConfigs request.samplingKvTransferParams)

def needToAllocate (request : Request) (numComputedTokens numExternalHitTokens : ℕ) : ℤ :=
  (numExternalHitTokens : ℤ) - numComputedTokens -
    if numExternalHitTokens = request.numTokens then 1 else 0

/-- The priority of a request is noted at its first lookup. -/
def noteLookup (client : LookupAnswers) (request : Request) (s : Scheduler) : Scheduler :=
  if client.lookupCache.isSome then s
  else { s with requestsPriority := s.requestsPriority.set request.requestId request.priority }

def getNumNewMatchedTokens (client : LookupAnswers) (request : Request) (numComputedTokens : ℕ)
    (s : Scheduler) : Option ℕ × Scheduler :=
  if isMockRequest request.requestId then (some 0, s)
  else
    let s := noteLookup client request s
    match c.hitTokens client request with
    | none => (none, s)
    | some numExternalHitTokens =>
      let need := needToAllocate request numComputedTokens numExternalHitTokens
      let s :=
        { s with
          loadSpecs :=
            s.loadSpecs.set request.requestId
              ⟨⟨numComputedTokens, numExternalHitTokens⟩, false⟩ }
      if need ≤ 0 then (some 0, s) else (some need.toNat, s)

def recalcLast (request : Request) (spec : OfferedLoad) : ℕ :=
  if spec.lmcacheCachedTokens = request.numTokens then 1 else 0

/-- The message of the assertion in `update_state_after_alloc`. -/
def mismatchMessage (request : Request) (numExternalTokens : ℕ) (spec : OfferedLoad) :
    String :=
  "Mismatch in tokens to load: " ++ toString numExternalTokens ++ " vs " ++
    toString spec.lmcacheCachedTokens ++ " (tokens in lmcache) - " ++
    toString spec.vllmCachedTokens ++ " (tokens in vllm) - " ++
      toString (recalcLast request spec) ++
    " (full lmcache hits subtracts last token to recalculate logits) for request " ++
    request.requestId

/-- The request becomes known, with the parameters of its transfer. -/
def noteRequest (request : Request) (s : Scheduler) : Scheduler :=
  { s with
    tmpDisaggTracker :=
      match request.disaggSpec with
      | none => s.tmpDisaggTracker
      | some spec => s.tmpDisaggTracker.set request.requestId spec.toDisaggSpec
    unfinishedRequests := s.unfinishedRequests.insert request.requestId }

/-- `update_state_after_alloc`, without the lookup client. -/
def updateStateAfterAlloc (request : Request) (numExternalTokens : ℕ) (s : Scheduler) :
    Except PyError Scheduler :=
  let s := noteRequest request s
  match s.loadSpecs.get? request.requestId with
  | none => .ok s
  | some spec =>
    if numExternalTokens = 0 then
      .ok { s with
        loadSpecs := s.loadSpecs.set request.requestId { spec with canLoad := false } }
    else if (numExternalTokens : ℤ) =
        spec.lmcacheCachedTokens - spec.vllmCachedTokens - recalcLast request spec then
      .ok { s with
        loadSpecs := s.loadSpecs.set request.requestId { spec with canLoad := true } }
    else .error ⟨.assertionError, mismatchMessage request numExternalTokens spec⟩

/-- The loop of `build_connector_meta` over its new requests. -/
def scheduleNew (out : SchedulerOutput) (s : Scheduler) (request : NewRequestData) :
    Except PyError (Scheduler × Option StepReqMeta) :=
  if isMockRequest request.reqId then .ok (s, none)
  else do
    let loadSpec := s.loadSpecs.get? request.reqId
    let numScheduledTokens ← getItem out.numScheduledTokens request.reqId
    let numTokensToCompute := request.numComputedTokens + numScheduledTokens
    let lmcacheCachedTokens :=
      match loadSpec with
      | none => 0
      | some spec => spec.lmcacheCachedTokens
    let requestPriority := (s.requestsPriority.get? request.reqId).getD 0
    let skipSave :=
      decide (c.kvRole = .consumer) || c.forceSkipSave ||
        match c.priorityLimit with
        | none => false
        | some limit => decide (limit < requestPriority)
    let tracker := RequestTracker.fromNewRequest request (s.tmpDisaggTracker.get? request.reqId)
      numTokensToCompute lmcacheCachedTokens skipSave
    let made := c.fromRequestTracker tracker loadSpec
    return (
      { s with
        loadSpecs := s.loadSpecs.erase request.reqId
        requestsPriority := s.requestsPriority.erase request.reqId
        tmpDisaggTracker := s.tmpDisaggTracker.erase request.reqId
        requestTrackers := s.requestTrackers.set request.reqId made.2 },
      made.1)

/-- The end of the loops over scheduled requests: the tracker is updated, the metadata made. -/
def updateTracker (s : Scheduler) (reqId : String) (tracker : RequestTracker)
    (newTokenIds : List ℤ) (newBlockIds : NewBlockIds) (preempted : Bool)
    (allTokenIds : Option (List ℤ)) : Except PyError (Scheduler × Option StepReqMeta) := do
  let loadSpec := s.loadSpecs.get? reqId
  let tracker ← tracker.update newTokenIds newBlockIds preempted
    ((loadSpec.map fun spec => spec.lmcacheCachedTokens).getD 0)
    ((loadSpec.map fun spec => spec.vllmCachedTokens).getD 0) allTokenIds
  let made := c.fromRequestTracker tracker loadSpec
  return (
    { s with
      loadSpecs := s.loadSpecs.erase reqId
      requestTrackers := s.requestTrackers.set reqId made.2 },
    made.1)

/-- `all_token_ids` of a request in the form of old versions. -/
def restoredTokenIds (requests : String → Request) (s : Scheduler) (req : CachedReq) :
    Except PyError (Option (List ℤ)) :=
  if req.resumedFromPreemption then
    if req.reqId ∈ s.unfinishedRequests then .ok (some (requests req.reqId).allTokenIds)
    else
      .error ⟨.assertionError,
        "Preempted request " ++ req.reqId ++ " not found in _unfinished_requests"⟩
  else .ok none

/-- The loop over the scheduled requests of old versions. -/
def scheduleCachedReq (requests : String → Request) (s : Scheduler) (req : CachedReq) :
    Except PyError (Scheduler × Option StepReqMeta) := do
  let tracker ← getItem s.requestTrackers req.reqId
  let allTokenIds ← restoredTokenIds requests s req
  c.updateTracker s req.reqId tracker req.newTokenIds req.newBlockIds req.resumedFromPreemption
    allTokenIds

/-- `preempted`. -/
def isPreempted (resumed : Resumed) (i : ℕ) (reqId : String) : Except PyError Bool :=
  match resumed with
  | .resumedReqIds ids => .ok (decide (reqId ∈ ids))
  | .resumedFromPreemption flags => listItem flags i
  | .missing =>
    .error ⟨.attributeError,
      "Unable to determine preemption status for request " ++ reqId ++
        ". This might be due to an unsupported vLLM version."⟩

def checkPreempted (request : Request) (reqId : String) (loadSpec : Option OfferedLoad) :
    Except PyError Unit :=
  match loadSpec with
  | none =>
    .error ⟨.assertionError,
      "Request " ++ reqId ++ " is preempted but was not given a load spec"⟩
  | some spec =>
    if request.numComputedTokens = max spec.lmcacheCachedTokens spec.vllmCachedTokens then .ok ()
    else
      .error ⟨.assertionError,
        "Preempted request " ++ reqId ++ " has num_computed_tokens " ++
          toString request.numComputedTokens ++
          " but max(lmcache_cached_tokens, vllm_cached_tokens) = " ++
          toString (max spec.lmcacheCachedTokens spec.vllmCachedTokens)⟩

/-- The loop over the scheduled requests, each with its position. -/
def scheduleCachedData (requests : String → Request) (out : SchedulerOutput)
    (cachedReqs : CachedRequestData) (s : Scheduler) (item : String × ℕ) :
    Except PyError (Scheduler × Option StepReqMeta) := do
  let (reqId, i) := item
  let tracker ← getItem s.requestTrackers reqId
  let numNewTokens ← getItem out.numScheduledTokens reqId
  if reqId ∉ s.unfinishedRequests then
    .error ⟨.valueError,
      "Request " ++ reqId ++ " is not in _unfinished_requests, but it is scheduled to be cached"⟩
  else
    let request := requests reqId
    let newTokenIds := (request.allTokenIds.drop request.numComputedTokens).take numNewTokens
    let newBlockIds ← listItem cachedReqs.newBlockIds i
    let preempted ← isPreempted cachedReqs.resumed i reqId
    if preempted then
      checkPreempted request reqId (s.loadSpecs.get? reqId)
      c.updateTracker s reqId tracker newTokenIds newBlockIds true (some request.allTokenIds)
    else c.updateTracker s reqId tracker newTokenIds newBlockIds false none

def collect {A : Type} (body : Scheduler → A → Except PyError (Scheduler × Option StepReqMeta)) :
    List A → Scheduler → Except PyError (Scheduler × List StepReqMeta)
  | [], s => .ok (s, [])
  | a :: as, s => do
    let (s, reqMeta) ← body s a
    let (s, metas) ← collect body as s
    return (s, reqMeta.toList ++ metas)

/-- The requests that `build_connector_meta` forgets. -/
def forgetFinished (out : SchedulerOutput) (s : Scheduler) : Scheduler :=
  { s with
    requestTrackers := s.requestTrackers.filterKeys fun id => decide (id ∉ out.finishedReqIds)
    unfinishedRequests := s.unfinishedRequests.filter fun id => decide (id ∉ out.finishedReqIds) }

/-- The loop of `build_connector_meta` over the requests that were scheduled before. -/
def scheduleCached (requests : String → Request) (out : SchedulerOutput) (s : Scheduler) :
    Except PyError (Scheduler × List StepReqMeta) :=
  match out.scheduledCachedReqs with
  | .list reqs => collect (c.scheduleCachedReq requests) reqs s
  | .data reqs => collect (c.scheduleCachedData requests out reqs) reqs.reqIds.zipIdx s

def buildConnectorMeta (requests : String → Request) (out : SchedulerOutput) (s : Scheduler) :
    Except PyError (Scheduler × List StepReqMeta) := do
  let (s, newMetas) ← collect (c.scheduleNew out) out.scheduledNewReqs (forgetFinished out s)
  let (s, cachedMetas) ← c.scheduleCached requests out s
  return (s, newMetas ++ cachedMetas)

end SchedulerConfig

/-! ### vLLM -/

structure Requests where
  get : String → Request
  requestId_get : ∀ id, (get id).requestId = id

/-- What has become of the answer to `get_num_new_matched_tokens`. -/
inductive OfferStatus where
  | standing
  | withdrawn
  | taken
deriving DecidableEq, Repr

/-- The last number that vLLM got for a request, and its own tokens at that time. -/
structure Offer where
  computed : ℕ
  external : ℕ
  status : OfferStatus
deriving DecidableEq, Repr

structure System where
  connector : Scheduler
  requests : Requests
  offers : String → Option Offer
  /-- Requests that were scheduled and have not finished. -/
  live : List String

inductive Event where
  | edit (requests : Requests)
  | getNumNewMatchedTokens (id : String) (numComputedTokens : ℕ) (client : LookupAnswers)
  | updateStateAfterAlloc (id : String) (numExternalTokens : ℕ)
  | buildConnectorMeta (out : SchedulerOutput)

def SchedulerOutput.isResumed (out : SchedulerOutput) (id : String) : Bool :=
  match out.scheduledCachedReqs with
  | .list reqs => reqs.any fun req => req.reqId = id && req.resumedFromPreemption
  | .data reqs =>
    reqs.reqIds.zipIdx.any fun item =>
      item.1 = id && SchedulerConfig.isPreempted reqs.resumed item.2 id matches .ok true

def SchedulerOutput.isAdmitted (out : SchedulerOutput) (id : String) : Bool :=
  out.scheduledNewReqs.any (fun request => request.reqId = id) || out.isResumed id

/-- Take an offer up, or note that there is no answer at present. -/
def setStatus (offers : String → Option Offer) (id : String) (status : OfferStatus) :
    String → Option Offer :=
  Function.update offers id ((offers id).map fun offer => { offer with status := status })

namespace System
variable (c : SchedulerConfig)

def step (s : System) : Event → Option System
  | .edit requests => some { s with requests := requests }
  | .getNumNewMatchedTokens id numComputedTokens client =>
    let (answer, connector) :=
      c.getNumNewMatchedTokens client (s.requests.get id) numComputedTokens s.connector
    some { s with
      connector := connector
      offers :=
        match answer with
        | none => setStatus s.offers id .withdrawn
        | some n => Function.update s.offers id (some ⟨numComputedTokens, n, .standing⟩) }
  | .updateStateAfterAlloc id numExternalTokens =>
    match SchedulerConfig.updateStateAfterAlloc (s.requests.get id) numExternalTokens
        s.connector with
    | .error _ => none
    | .ok connector =>
      some { s with connector := connector, offers := setStatus s.offers id .taken }
  | .buildConnectorMeta out =>
    match c.buildConnectorMeta s.requests.get out s.connector with
    | .error _ => none
    | .ok (connector, _) =>
      some { s with
        connector := connector
        offers := fun id => if out.isAdmitted id then none else s.offers id
        live :=
          (s.live.filter fun id => decide (id ∉ out.finishedReqIds)) ++
            (out.scheduledNewReqs.map NewRequestData.reqId).filter fun id =>
              !isMockRequest id }

def system : LTS System Event where
  init s :=
    s.connector = ⟨.empty, .empty, .empty, [], .empty⟩ ∧ s.offers = (fun _ => none) ∧ s.live = []
  step s e s' := step c s e = some s'

/-- The offer for a request is taken up: its tokens count as computed, at least one token is
scheduled, and there are blocks for all of them. -/
def Admitted (s : System) (out : SchedulerOutput) (id : String) (numComputedTokens numBlocks : ℕ) :
    Prop :=
  ∃ offer n, s.offers id = some offer ∧ offer.status = .taken ∧
    numComputedTokens = offer.computed + offer.external ∧
    out.numScheduledTokens.get? id = some n ∧ 0 < n ∧
    numComputedTokens + n ≤ numBlocks * c.blockSize

/-- A request that was scheduled before is scheduled again. -/
structure ScheduledAgain (s : System) (out : SchedulerOutput) (id : String)
    (newBlockIds : NewBlockIds) (preempted : Bool) : Prop where
  live : id ∈ s.live
  unfinished : id ∉ out.finishedReqIds
  old : ∀ request ∈ out.scheduledNewReqs, request.reqId ≠ id
  scheduled : ∃ n, out.numScheduledTokens.get? id = some n
  resumed : preempted = true →
    Admitted c s out id (s.requests.get id).numComputedTokens newBlockIds.first.length
  running : preempted = false → s.offers id = none

/-- What vLLM hands to `build_connector_meta`. -/
structure BuildOk (s : System) (out : SchedulerOutput) : Prop where
  finished : ∀ id ∈ out.finishedReqIds, s.offers id = none
  new : ∀ request ∈ out.scheduledNewReqs,
    request.promptTokenIds = (s.requests.get request.reqId).allTokenIds ∧
      Admitted c s out request.reqId request.numComputedTokens request.blockIds.length
  list : ∀ reqs, out.scheduledCachedReqs = .list reqs →
    (reqs.map CachedReq.reqId).Nodup ∧ ∀ req ∈ reqs,
      ScheduledAgain c s out req.reqId req.newBlockIds req.resumedFromPreemption ∧
        ∀ n, out.numScheduledTokens.get? req.reqId = some n →
          req.newTokenIds = ((s.requests.get req.reqId).allTokenIds.drop
            (s.requests.get req.reqId).numComputedTokens).take n
  data : ∀ reqs, out.scheduledCachedReqs = .data reqs →
    reqs.reqIds.Nodup ∧ ∀ item ∈ reqs.reqIds.zipIdx, ∃ newBlockIds preempted,
      reqs.newBlockIds[item.2]? = some newBlockIds ∧
        SchedulerConfig.isPreempted reqs.resumed item.2 item.1 = .ok preempted ∧
        ScheduledAgain c s out item.1 newBlockIds preempted

/-- **The contract of vLLM.**  A waiting request keeps its tokens; no more tokens are found than
it has; blocks are allocated for the number that was answered last. -/
def Contract (s : System) : Event → Prop
  | .edit requests => ∀ id, s.offers id ≠ none →
      (requests.get id).allTokenIds = (s.requests.get id).allTokenIds
  | .getNumNewMatchedTokens id _ client =>
    ∀ hit, c.hitTokens client (s.requests.get id) = some hit →
      hit ≤ (s.requests.get id).numTokens
  | .updateStateAfterAlloc id numExternalTokens =>
    ∃ computed, s.offers id = some ⟨computed, numExternalTokens, .standing⟩
  | .buildConnectorMeta out => BuildOk c s out

end System

end LMCache.VLLM
