import Mathlib.Data.Rat.Defs
import LMCache.Controller.Registry

/-! # Full sync: the controller's side

After a restart the controller asks the workers for all their keys.  A worker sends a start
message, its keys in numbered batches, and an end message, and then asks for the status.  The
tracker keeps the state of a worker's sync in the worker's node.

* **Tracker.** `startSync`, `receiveBatch`, `completeSync`, `getMissingBatches` and
  `getSyncStatus` of `FullSyncTracker`.  Clock readings are left out: only `check_sync_timeout`
  reads them, and nothing in the controller calls it (its comment says "Only for testing").
* **Handlers.** The full-sync handlers of `KVController` and its handler of incremental
  operations.  The list of all workers comes from a cache; it is a parameter of the status.

`handleFullSyncStart_accepted`, `handleFullSyncBatch_accepted` and `getWorker_handleFullSyncEnd`
say what a handler does to the node of the worker, and that nothing else is touched; a message
that is refused changes nothing. -/

namespace LMCache.Controller

open RegistryTree

/-! ### Messages -/

/-- A worker announces a full sync of a location. -/
structure FullSyncStartMsg where
  instanceId : String
  workerId : ℤ
  location : String
  syncId : String
  totalKeys : ℕ
  batchCount : ℕ
deriving DecidableEq, Repr

/-- Some keys of the location. -/
structure FullSyncBatchMsg where
  instanceId : String
  workerId : ℤ
  location : String
  syncId : String
  batchId : ℕ
  keys : List ℤ
deriving DecidableEq, Repr

/-- All batches are sent. -/
structure FullSyncEndMsg where
  instanceId : String
  workerId : ℤ
  location : String
  syncId : String
  actualTotalKeys : ℕ
deriving DecidableEq, Repr

/-- The worker asks whether its sync is complete. -/
structure FullSyncStatusMsg where
  instanceId : String
  workerId : ℤ
  syncId : String
deriving DecidableEq, Repr

structure FullSyncStartRetMsg where
  syncId : String
  accepted : Bool
  errorMsg : Option String := none
deriving DecidableEq, Repr

/-- The progress, and the batches that are to be sent again. -/
structure FullSyncStatusRetMsg where
  syncId : String
  isComplete : Bool
  globalProgress : ℚ
  canExitFreeze : Bool
  missingBatches : List ℕ := []
deriving DecidableEq

/-! ### The tracker -/

namespace WorkerSyncInfo

/-- A sync of which nothing has arrived. -/
def new (syncId : String) (totalKeys batchCount : ℕ) : WorkerSyncInfo :=
  { syncId := syncId, state := .syncing, expectedTotalKeys := totalKeys,
    expectedBatchCount := batchCount }

/-- A batch that arrives twice is counted twice in the keys. -/
def addBatch (s : WorkerSyncInfo) (batchId keysCount : ℕ) : WorkerSyncInfo :=
  { s with
    receivedBatches := insert batchId s.receivedBatches
    receivedKeysCount := s.receivedKeysCount + keysCount }

end WorkerSyncInfo

namespace RegistryTree

/-- The sync of a worker, if it is registered and has one. -/
def getSyncInfo (r : RegistryTree) (instanceId : String) (workerId : ℤ) :
    Option WorkerSyncInfo :=
  match r.getWorker instanceId workerId with
  | none => none
  | some workerNode => workerNode.syncInfo

def isWorkerSyncing (r : RegistryTree) (instanceId : String) (workerId : ℤ) : Bool :=
  match r.getSyncInfo instanceId workerId with
  | none => false
  | some syncInfo => syncInfo.state = .syncing

/-- A sync in progress may be started again, but not replaced by another one. -/
def startSync (r : RegistryTree) (instanceId : String) (workerId : ℤ) (syncId : String)
    (totalKeys batchCount : ℕ) : RegistryTree × Bool :=
  let newSyncInfo := WorkerSyncInfo.new syncId totalKeys batchCount
  match r.getSyncInfo instanceId workerId with
  | none => r.setSyncInfo instanceId workerId (some newSyncInfo)
  | some existingSync =>
    if existingSync.state = .syncing ∧ existingSync.syncId ≠ syncId then (r, false)
    else r.setSyncInfo instanceId workerId (some newSyncInfo)

/-- Only a batch of the sync in progress counts. -/
def receiveBatch (r : RegistryTree) (instanceId : String) (workerId : ℤ) (syncId : String)
    (batchId keysCount : ℕ) : RegistryTree × Bool :=
  match r.getSyncInfo instanceId workerId with
  | none => (r, false)
  | some syncInfo =>
    if syncInfo.syncId ≠ syncId then (r, false)
    else if syncInfo.state ≠ .syncing then (r, false)
    else r.setSyncInfo instanceId workerId (some (syncInfo.addBatch batchId keysCount))

/-- A wrong number of keys is only logged: "Still mark as completed but log the discrepancy". -/
def completeSync (r : RegistryTree) (instanceId : String) (workerId : ℤ) (syncId : String)
    (_actualTotalKeys : ℕ) : RegistryTree × Bool :=
  match r.getSyncInfo instanceId workerId with
  | none => (r, false)
  | some syncInfo =>
    if syncInfo.syncId ≠ syncId then (r, false)
    else r.setSyncInfo instanceId workerId (some { syncInfo with state := .completed })

/-- `sorted(set(range(expected_batch_count)) - received_batches)` while the worker is syncing. -/
def getMissingBatches (r : RegistryTree) (instanceId : String) (workerId : ℤ)
    (syncId : String) : List ℕ :=
  match r.getSyncInfo instanceId workerId with
  | none => []
  | some syncInfo =>
    if syncInfo.syncId ≠ syncId then []
    else if syncInfo.state = .completed then []
    else if syncInfo.state ≠ .syncing then []
    else (List.range syncInfo.expectedBatchCount).filter fun b => b ∉ syncInfo.receivedBatches

end RegistryTree

/-! ### The handlers -/

/-- The controller: the registry and the flag that all workers have to sync. -/
structure KVController where
  registry : RegistryTree := {}
  completionThreshold : ℚ := 4 / 5
  needFullSyncAll : Bool := true

/-- `get_global_progress` over the cached list of workers. -/
def getGlobalProgress (allWorkers : List WorkerNode) : ℚ :=
  if allWorkers.length = 0 then 0
  else
    let ready := allWorkers.countP fun n =>
      match n.syncInfo with
      | none => true
      | some syncInfo => syncInfo.state = .completed
    (ready : ℚ) / allWorkers.length

namespace KVController

/-- Once the threshold is reached, the global flag is switched off. -/
def canExitFreeze (c : KVController) (progress : ℚ) : KVController × Bool :=
  let canExit := decide (c.completionThreshold ≤ progress)
  if canExit && c.needFullSyncAll then ({ c with needFullSyncAll := false }, canExit)
  else (c, canExit)

/-- `(is_complete, global_progress, can_exit_freeze, missing_batches)`. -/
def getSyncStatus (c : KVController) (allWorkers : List WorkerNode) (instanceId : String)
    (workerId : ℤ) (syncId : String) : KVController × Bool × ℚ × Bool × List ℕ :=
  let isComplete :=
    match c.registry.getSyncInfo instanceId workerId with
    | none => false
    | some syncInfo => syncInfo.syncId = syncId ∧ syncInfo.state = .completed
  let globalProgress := getGlobalProgress allWorkers
  let (c₁, canExit) := c.canExitFreeze globalProgress
  (c₁, isComplete, globalProgress, canExit,
    c.registry.getMissingBatches instanceId workerId syncId)

/-- Operations of a worker that is syncing are dropped. -/
def handleBatchedKvOperations (c : KVController) (msg : BatchedKVOperationMsg) : KVController :=
  if msg.operations = [] then c
  else if c.registry.isWorkerSyncing msg.instanceId msg.workerId then c
  else { c with registry := (c.registry.handleBatchedKvOperations msg false).1 }

/-- The keys of the location are forgotten when the sync is accepted. -/
def handleFullSyncStart (c : KVController) (msg : FullSyncStartMsg) :
    KVController × FullSyncStartRetMsg :=
  let (r, success) := c.registry.startSync msg.instanceId msg.workerId msg.syncId msg.totalKeys
    msg.batchCount
  if success then
    let existingKeys := r.getWorkerKvKeys msg.instanceId msg.workerId msg.location
    let r :=
      if existingKeys = ∅ then r
      else (r.clearWorkerKv msg.instanceId msg.workerId (some msg.location)).1
    ({ c with registry := r }, { syncId := msg.syncId, accepted := true })
  else
    (c, { syncId := msg.syncId
          accepted := false
          errorMsg := some ("Failed to start sync: worker already syncing with " ++
            "different sync_id or worker not found") })

/-- The keys of a batch as admissions. -/
def batchOperations (msg : FullSyncBatchMsg) : BatchedKVOperationMsg where
  instanceId := msg.instanceId
  workerId := msg.workerId
  location := msg.location
  operations := msg.keys.zipIdx.map fun e => ⟨.admitKey, e.1, e.2⟩

/-- The keys of a batch that counts are admitted. -/
def handleFullSyncBatch (c : KVController) (msg : FullSyncBatchMsg) : KVController :=
  let (r, success) := c.registry.receiveBatch msg.instanceId msg.workerId msg.syncId msg.batchId
    msg.keys.length
  if success then
    if (batchOperations msg).operations = [] then { c with registry := r }
    else { c with registry := (r.handleBatchedKvOperations (batchOperations msg) true).1 }
  else c

def handleFullSyncEnd (c : KVController) (msg : FullSyncEndMsg) : KVController :=
  { c with registry := (c.registry.completeSync msg.instanceId msg.workerId msg.syncId
      msg.actualTotalKeys).1 }

def handleFullSyncStatus (c : KVController) (allWorkers : List WorkerNode)
    (msg : FullSyncStatusMsg) : KVController × FullSyncStatusRetMsg :=
  let (c₁, isComplete, globalProgress, canExit, missingBatches) :=
    c.getSyncStatus allWorkers msg.instanceId msg.workerId msg.syncId
  (c₁, ⟨msg.syncId, isComplete, globalProgress, canExit, missingBatches⟩)

end KVController

/-! ### What the handlers do to the node of the worker -/

namespace WorkerNode

/-- Another sync is in progress. -/
def Blocks (n : WorkerNode) (syncId : String) : Prop :=
  ∃ s, n.syncInfo = some s ∧ s.state = .syncing ∧ s.syncId ≠ syncId

/-- The node after an accepted start. -/
def started (n : WorkerNode) (msg : FullSyncStartMsg) : WorkerNode :=
  let n₁ := { n with syncInfo := some (.new msg.syncId msg.totalKeys msg.batchCount) }
  if n₁.getKvKeys msg.location = ∅ then n₁ else n₁.clearKv (some msg.location)

/-- The node after a batch that counts. -/
def received (n : WorkerNode) (s : WorkerSyncInfo) (msg : FullSyncBatchMsg) : WorkerNode :=
  let n₁ := { n with syncInfo := some (s.addBatch msg.batchId msg.keys.length) }
  if (KVController.batchOperations msg).operations = [] then n₁
  else (n₁.handleBatchedKvOperations (KVController.batchOperations msg) true).1

section lemmas
variable {n : WorkerNode} {l : String} {msg : FullSyncStartMsg}

theorem syncInfo_started :
    (n.started msg).syncInfo = some (.new msg.syncId msg.totalKeys msg.batchCount) := by
  fun_cases started <;> rfl

theorem getKvKeys_started :
    (n.started msg).getKvKeys l = if l = msg.location then ∅ else n.getKvKeys l := by
  unfold started
  dsimp only
  split_ifs with hempty hl hl
  · rw [hl]
    exact hempty
  · rfl
  all_goals simp [getKvKeys, clearKv, hl]

theorem foldl_admitKey (keys : List ℤ) (k : ℕ) (held : Finset ℤ) :
    ((keys.zipIdx k).map fun e => (⟨.admitKey, e.1, e.2⟩ : KVOpEvent)).foldl KVOpEvent.apply held =
      held ∪ keys.toFinset := by
  induction keys generalizing k held with
  | nil => simp
  | cons key keys ih =>
    rw [List.zipIdx_cons, List.map_cons, List.foldl_cons, ih]
    ext h
    simp [KVOpEvent.apply]

theorem syncInfo_received {s : WorkerSyncInfo} {msg : FullSyncBatchMsg} :
    (n.received s msg).syncInfo = some (s.addBatch msg.batchId msg.keys.length) := by
  fun_cases received
  · rfl
  · exact syncInfo_handleBatchedKvOperations

theorem getKvKeys_received {s : WorkerSyncInfo} {msg : FullSyncBatchMsg} :
    (n.received s msg).getKvKeys l =
      if l = msg.location then n.getKvKeys l ∪ msg.keys.toFinset else n.getKvKeys l := by
  unfold received
  by_cases hops : (KVController.batchOperations msg).operations = []
  · have hkeys : msg.keys = [] := by simpa [KVController.batchOperations] using hops
    rw [if_pos hops, hkeys]
    simp [getKvKeys]
  · rw [if_neg hops, getKvKeys_handleBatchedKvOperations (by simp),
      show (KVController.batchOperations msg).location = msg.location from rfl]
    split_ifs with hl
    · rw [hl]
      exact foldl_admitKey msg.keys 0 _
    · rfl

end lemmas

end WorkerNode

namespace RegistryTree
variable {r : RegistryTree} {i : String} {w : ℤ} {n : WorkerNode}

theorem getSyncInfo_of_getWorker (h : r.getWorker i w = some n) :
    r.getSyncInfo i w = n.syncInfo := by
  rw [getSyncInfo, h]

theorem getSyncInfo_of_none (h : r.getWorker i w = none) : r.getSyncInfo i w = none := by
  rw [getSyncInfo, h]

theorem exists_of_getSyncInfo {info : WorkerSyncInfo} (h : r.getSyncInfo i w = some info) :
    ∃ n, r.getWorker i w = some n ∧ n.syncInfo = some info := by
  unfold getSyncInfo at h
  grind

theorem onWorker_of_none (h : r.getWorker i w = none) (f : WorkerNode → WorkerNode) :
    r.onWorker i w f = (r, false) := by
  rw [onWorker, h]

theorem onWorker_of_getWorker (h : r.getWorker i w = some n) (f : WorkerNode → WorkerNode) :
    r.onWorker i w f = (r.updateWorker i w f, true) := by
  rw [onWorker, h]

theorem startSync_refused {syncId : String} {totalKeys batchCount : ℕ}
    (h : ∀ n, r.getWorker i w = some n → n.Blocks syncId) :
    r.startSync i w syncId totalKeys batchCount = (r, false) := by
  unfold startSync
  cases hw : r.getWorker i w with
  | none =>
    rw [getSyncInfo_of_none hw]
    exact onWorker_of_none hw _
  | some n =>
    obtain ⟨s, hs, hstate, hid⟩ := h n hw
    rw [getSyncInfo_of_getWorker hw, hs]
    dsimp only
    rw [if_pos ⟨hstate, hid⟩]

theorem startSync_accepted {syncId : String} {totalKeys batchCount : ℕ}
    (hn : r.getWorker i w = some n) (h : ¬ n.Blocks syncId) :
    r.startSync i w syncId totalKeys batchCount = (r.updateWorker i w fun n =>
      { n with syncInfo := some (.new syncId totalKeys batchCount) }, true) := by
  unfold startSync
  rw [getSyncInfo_of_getWorker hn]
  cases hs : n.syncInfo with
  | none => exact onWorker_of_getWorker hn _
  | some s =>
    dsimp only
    rw [if_neg fun hb => h ⟨s, hs, hb⟩]
    exact onWorker_of_getWorker hn _

end RegistryTree

namespace KVController
variable {c : KVController} {i : String} {w : ℤ} {n : WorkerNode} {msg : FullSyncStartMsg}

/-- **Start, refused**: the worker is unknown, or another sync is in progress. -/
theorem handleFullSyncStart_refused
    (h : ∀ n, c.registry.getWorker msg.instanceId msg.workerId = some n → n.Blocks msg.syncId) :
    (c.handleFullSyncStart msg).1 = c ∧ (c.handleFullSyncStart msg).2.accepted = false := by
  unfold handleFullSyncStart
  rw [startSync_refused h]
  exact ⟨rfl, rfl⟩

/-- **Start, accepted**: the node starts afresh, with no keys at the location. -/
theorem handleFullSyncStart_accepted
    (hn : c.registry.getWorker msg.instanceId msg.workerId = some n) (h : ¬ n.Blocks msg.syncId) :
    (c.handleFullSyncStart msg).2.accepted = true ∧
      (c.handleFullSyncStart msg).1.registry.getWorker i w =
        if i = msg.instanceId ∧ w = msg.workerId then some (n.started msg)
        else c.registry.getWorker i w := by
  unfold handleFullSyncStart WorkerNode.started
  rw [startSync_accepted hn h]
  have hmid : (c.registry.updateWorker msg.instanceId msg.workerId fun n =>
      { n with syncInfo := some (.new msg.syncId msg.totalKeys msg.batchCount) }).getWorker
        msg.instanceId msg.workerId =
      some { n with syncInfo := some (.new msg.syncId msg.totalKeys msg.batchCount) } := by
    simp [hn]
  dsimp only
  rw [if_pos rfl, getWorkerKvKeys_of_getWorker hmid]
  refine ⟨rfl, ?_⟩
  split_ifs with hempty hiw hiw
  · rw [hiw.1, hiw.2]
    exact hmid
  · simp [hiw]
  · simp [clearWorkerKv, hiw, hn]
  · simp [clearWorkerKv, hiw]

/-- **Batch, refused**: there is no such sync in progress. -/
theorem handleFullSyncBatch_refused {msg : FullSyncBatchMsg}
    (h : ∀ n s, c.registry.getWorker msg.instanceId msg.workerId = some n →
      n.syncInfo = some s → ¬ (s.syncId = msg.syncId ∧ s.state = .syncing)) :
    c.handleFullSyncBatch msg = c := by
  have hrecv : c.registry.receiveBatch msg.instanceId msg.workerId msg.syncId msg.batchId
      msg.keys.length = (c.registry, false) := by
    fun_cases receiveBatch
    case case4 info hinfo hid hstate =>
      obtain ⟨n, hn, hs⟩ := exists_of_getSyncInfo hinfo
      exact absurd ⟨not_not.mp hid, not_not.mp hstate⟩ (h n info hn hs)
    all_goals rfl
  unfold handleFullSyncBatch
  rw [hrecv]
  rfl

/-- **Batch, accepted**: its number is recorded and its keys are admitted. -/
theorem handleFullSyncBatch_accepted {msg : FullSyncBatchMsg} {s : WorkerSyncInfo}
    (hn : c.registry.getWorker msg.instanceId msg.workerId = some n) (hs : n.syncInfo = some s)
    (hid : s.syncId = msg.syncId) (hstate : s.state = .syncing) :
    (c.handleFullSyncBatch msg).registry.getWorker i w =
      if i = msg.instanceId ∧ w = msg.workerId then some (n.received s msg)
      else c.registry.getWorker i w := by
  have hrecv : c.registry.receiveBatch msg.instanceId msg.workerId msg.syncId msg.batchId
      msg.keys.length = (c.registry.updateWorker msg.instanceId msg.workerId fun n =>
        { n with syncInfo := some (s.addBatch msg.batchId msg.keys.length) }, true) := by
    unfold receiveBatch
    rw [getSyncInfo_of_getWorker hn, hs]
    dsimp only
    rw [if_neg (not_not.mpr hid), if_neg (not_not.mpr hstate)]
    exact onWorker_of_getWorker hn _
  unfold handleFullSyncBatch WorkerNode.received
  rw [hrecv]
  dsimp only
  rw [if_pos rfl]
  split_ifs with hops hiw hiw
  · simp [hiw, hn]
  · simp [hiw]
  · simp [batchOperations, hiw, hn]
  · simp [batchOperations, hiw]

/-- **End**: the sync counts as completed, whatever was received. -/
theorem getWorker_handleFullSyncEnd {msg : FullSyncEndMsg} {s : WorkerSyncInfo}
    (hn : c.registry.getWorker msg.instanceId msg.workerId = some n) (hs : n.syncInfo = some s)
    (hid : s.syncId = msg.syncId) :
    (c.handleFullSyncEnd msg).registry.getWorker i w =
      if i = msg.instanceId ∧ w = msg.workerId then
        some { n with syncInfo := some { s with state := .completed } }
      else c.registry.getWorker i w := by
  unfold handleFullSyncEnd completeSync
  rw [getSyncInfo_of_getWorker hn, hs]
  dsimp only
  rw [if_neg (not_not.mpr hid), setSyncInfo, getWorker_onWorker, hn]
  rfl

theorem handleFullSyncEnd_refused {msg : FullSyncEndMsg}
    (h : ∀ n s, c.registry.getWorker msg.instanceId msg.workerId = some n →
      n.syncInfo = some s → s.syncId ≠ msg.syncId) : c.handleFullSyncEnd msg = c := by
  unfold handleFullSyncEnd
  fun_cases completeSync
  case case3 info hinfo hid =>
    obtain ⟨n, hn, hs⟩ := exists_of_getSyncInfo hinfo
    exact absurd (not_not.mp hid) (h n info hn hs)
  all_goals rfl

/-- **Status**: the registry is only read. -/
theorem registry_handleFullSyncStatus {allWorkers : List WorkerNode} {msg : FullSyncStatusMsg} :
    (c.handleFullSyncStatus allWorkers msg).1.registry = c.registry := by
  unfold handleFullSyncStatus getSyncStatus canExitFreeze
  dsimp only
  split_ifs <;> rfl

theorem isComplete_handleFullSyncStatus {allWorkers : List WorkerNode}
    {msg : FullSyncStatusMsg} (hn : c.registry.getWorker msg.instanceId msg.workerId = some n) :
    (c.handleFullSyncStatus allWorkers msg).2.isComplete = true ↔
      ∃ s, n.syncInfo = some s ∧ s.syncId = msg.syncId ∧ s.state = .completed := by
  unfold handleFullSyncStatus getSyncStatus
  rw [getSyncInfo_of_getWorker hn]
  cases n.syncInfo <;> simp

end KVController

end LMCache.Controller
