import LMCache.VLLM.Scheduler

/-! # The asynchronous lookup client

`LMCacheAsyncLookupClient` sends the first lookup of a request to all workers and answers "not yet"
until each of them has responded; then the answer is the least number of hit tokens.  A lookup that
takes too long is answered with 0.

* **Threads.**  The scheduler's thread calls the connector: `get_num_new_matched_tokens`,
  `update_state_after_alloc`, and `request_finished`, which cancels the lookup of an aborted
  request. A second thread takes the responses of the workers.  A section is what happens under the
  lock; the scan over the cancelled lookups is outside the lock and reads one status after the
  other.
* **Sends** are put into the section before them: they touch nothing that the other thread reads.
* **Workers** respond to each lookup at most once, at any time and with any number, so the contents
  of a lookup are left out.
* **The clock** is read once in each section that needs it, and may show anything. -/

namespace LMCache.VLLM

/-- Settings of the client; `worldSize` is the number of its sockets. -/
structure AsyncLookupConfig where
  worldSize : ℕ
  timeoutMs : ℤ

/-- The variables of `LMCacheAsyncLookupClient`.  The status of a lookup is `none` while it is
ongoing. -/
structure AsyncLookupClient where
  reqsStatus : Dict String (Option ℕ)
  firstLookupTime : Dict String ℚ
  resForEachWorker : Dict String (List ℕ)
  abortedLookups : Finset String

namespace AsyncLookupClient

/-- The section of `lookup_cache`, at a reading of the clock; `none` is `-1`. -/
def lookupCache (timeoutMs : ℤ) (lookupId : String) (now : ℚ) (client : AsyncLookupClient) :
    Except PyError (Option (Option ℕ)) × AsyncLookupClient :=
  match client.reqsStatus.get? lookupId with
  | none =>
    (.ok none,
      { client with
        reqsStatus := client.reqsStatus.set lookupId none
        firstLookupTime := client.firstLookupTime.set lookupId now })
  | some none =>
    match getItem client.firstLookupTime lookupId with
    | .error e => (.error e, client)
    | .ok first =>
      if timeoutMs < (now - first) * 1000 then
        (.ok (some (some 0)),
          { client with firstLookupTime := client.firstLookupTime.erase lookupId })
      else (.ok (some none), client)
  | some (some numHitTokens) => (.ok (some (some numHitTokens)), client)

/-- The section of `process_responses_from_workers`. -/
def processResponse (worldSize : ℕ) (lookupId : String) (res : ℕ) (client : AsyncLookupClient) :
    AsyncLookupClient :=
  let before := (client.resForEachWorker.get? lookupId).getD []
  if before.length + 1 = worldSize then
    { client with
      resForEachWorker := client.resForEachWorker.erase lookupId
      reqsStatus := client.reqsStatus.set lookupId (some (before.foldl min res)) }
  else
    { client with resForEachWorker := client.resForEachWorker.set lookupId (before ++ [res]) }

def clearLookupStatus (lookupId : String) (client : AsyncLookupClient) : AsyncLookupClient :=
  { client with
    reqsStatus := client.reqsStatus.erase lookupId
    firstLookupTime := client.firstLookupTime.erase lookupId }

def cancelLookup (lookupId : String) (client : AsyncLookupClient) : AsyncLookupClient :=
  { client with abortedLookups := insert lookupId client.abortedLookups }

end AsyncLookupClient

namespace AsyncLookup

inductive WorkerMsg where
  | lookupRequest (lookupId : String)
  | lookupCleanup (lookupId : String)
deriving DecidableEq, Repr

/-- Where `_cleanup_finished_aborted_lookups` is.  After `cleanup []` comes the section of
`lookup_cache`. -/
inductive Phase where
  | scan (todo : Finset String) (finished : List String)
  | cleanup (finished : List String)

/-- A call of `get_num_new_matched_tokens` that has not returned. -/
structure Call where
  request : Request
  numComputedTokens : ℕ
  phase : Phase

structure Answered where
  request : Request
  numComputedTokens : ℕ
  result : Except PyError (Option ℕ)

structure State where
  client : AsyncLookupClient
  connector : Scheduler
  call : Option Call
  /-- The workers that have not responded to a lookup. -/
  unanswered : List (ℕ × String)
  sent : List (ℕ × WorkerMsg)
  /-- A ghost: the calls for each request since the last `update_state_after_alloc` or
  `cancel_lookup` for it. -/
  answers : List Answered

inductive Event where
  | getNumNewMatchedTokens (request : Request) (numComputedTokens : ℕ)
  | check (lookupId : String)
  | endScan
  | cleanUp
  | lookupCache (now : ℚ)
  | respond (worker : ℕ) (lookupId : String) (numHitTokens : ℕ)
  | updateStateAfterAlloc (request : Request) (numExternalTokens : ℕ)
  | cancelLookup (lookupId : String)
  | otherCall (connector : Scheduler)

namespace State
variable (a : AsyncLookupConfig) (c : SchedulerConfig)

def sendAll (msg : WorkerMsg) (s : State) : State :=
  { s with sent := s.sent ++ (List.range a.worldSize).map fun worker => (worker, msg) }

def lookup (lookupId : String) (s : State) : State :=
  { s.sendAll a (.lookupRequest lookupId) with
    unanswered :=
      s.unanswered ++ (List.range a.worldSize).map fun worker => (worker, lookupId) }

def finish (request : Request) (numComputedTokens : ℕ) (result : Except PyError (Option ℕ))
    (connector : Scheduler) (s : State) : State :=
  { s with
    connector := connector
    call := none
    answers := s.answers ++ [⟨request, numComputedTokens, result⟩] }

/-- The rest of `get_num_new_matched_tokens`, with the answer of the client. -/
def answer (request : Request) (numComputedTokens : ℕ) (cached : Option (Option ℕ)) (s : State) :
    State :=
  let (result, connector) :=
    c.getNumNewMatchedTokens ⟨cached, fun _ _ => none⟩ request numComputedTokens s.connector
  s.finish request numComputedTokens (.ok result) connector

/-- The section of `lookup_cache` and what follows. -/
def lookupCache (request : Request) (numComputedTokens : ℕ) (now : ℚ) (s : State) : State :=
  match s.client.lookupCache a.timeoutMs request.requestId now with
  | (.error e, client) =>
    { s with client := client }.finish request numComputedTokens (.error e) s.connector
  | (.ok none, client) =>
    ({ s with client := client }.lookup a request.requestId).answer c request numComputedTokens none
  | (.ok (some cached), client) =>
    { s with client := client }.answer c request numComputedTokens (some cached)

def forget (id : String) (s : State) : State :=
  { s with answers := s.answers.filter fun x => decide (x.request.requestId ≠ id) }

/-- `update_state_after_alloc`; when its assertion fails, the request is noted all the same. -/
def updateStateAfterAlloc (request : Request) (numExternalTokens : ℕ) (s : State) : State :=
  { s.forget request.requestId with
    client := s.client.clearLookupStatus request.requestId
    connector :=
      match SchedulerConfig.updateStateAfterAlloc request numExternalTokens s.connector with
      | .ok connector => connector
      | .error _ => SchedulerConfig.noteRequest request s.connector }

def check (lookupId : String) (call : Call) (s : State) : Option State :=
  match call.phase with
  | .scan todo finished =>
    if lookupId ∈ todo then
      some { s with
        call :=
          some { call with
            phase := .scan (todo.erase lookupId)
              (match s.client.reqsStatus.get? lookupId with
              | some (some _) => finished ++ [lookupId]
              | _ => finished) } }
    else none
  | .cleanup _ => none

def callStep (call : Call) (s : State) : Event → Option State
  | .check lookupId => s.check lookupId call
  | .endScan =>
    match call.phase with
    | .scan todo finished =>
      if todo = ∅ then
        some { s with
          client :=
            { s.client with
              abortedLookups := s.client.abortedLookups \ finished.toFinset }
          call := some { call with phase := .cleanup finished } }
      else none
    | .cleanup _ => none
  | .cleanUp =>
    match call.phase with
    | .cleanup (lookupId :: finished) =>
      some { s.sendAll a (.lookupCleanup lookupId) with
        client := s.client.clearLookupStatus lookupId
        call := some { call with phase := .cleanup finished } }
    | _ => none
  | .lookupCache now =>
    match call.phase with
    | .cleanup [] => some (s.lookupCache a c call.request call.numComputedTokens now)
    | _ => none
  | _ => none

/-- What the scheduler's thread does between two calls of `get_num_new_matched_tokens`. -/
def idleStep (s : State) : Event → Option State
  | .getNumNewMatchedTokens request numComputedTokens =>
    if isMockRequest request.requestId then some (s.answer c request numComputedTokens none)
    else
      some { s with
        call := some ⟨request, numComputedTokens, .scan s.client.abortedLookups []⟩ }
  | .updateStateAfterAlloc request numExternalTokens =>
    some (s.updateStateAfterAlloc request numExternalTokens)
  | .cancelLookup lookupId =>
    some { s.forget lookupId with client := s.client.cancelLookup lookupId }
  | .otherCall connector => some { s with connector := connector }
  | _ => none

def respond (worker : ℕ) (lookupId : String) (numHitTokens : ℕ) (s : State) : State :=
  { s with
    client := s.client.processResponse a.worldSize lookupId numHitTokens
    unanswered := s.unanswered.erase (worker, lookupId) }

def step (s : State) (e : Event) : Option State :=
  match e, s.call with
  | .respond worker lookupId numHitTokens, _ =>
    if (worker, lookupId) ∈ s.unanswered then some (s.respond a worker lookupId numHitTokens)
    else none
  | e, some call => s.callStep a c call e
  | e, none => s.idleStep c e

def system : LTS State Event where
  init s :=
    s.client = ⟨.empty, .empty, .empty, ∅⟩ ∧ s.call = none ∧ s.unanswered = [] ∧ s.sent = [] ∧
      s.answers = []
  step s e s' := s.step a c e = some s'

end State

end AsyncLookup

end LMCache.VLLM
