import LMCache.Lib.Dict

/-! # The registry of the cache controller

The controller keeps, for every worker of every instance, the chunk hashes that the worker holds
at each of its locations.  The registry is a tree: instances, their workers, their locations.

* **Nodes.** `WorkerNode`, `InstanceNode` and `RegistryTree` have the dictionaries of the source
  (`Dict`: insertion order matters for `find_kv`); a set of hashes is a `Finset ℤ`.  Addresses,
  sockets and time stamps are left out.
* **References.** The source changes a node through a reference to it; here `updateWorker` puts
  the changed node back in its place.
* **Locks.** Every method is one step.

`get?_handleBatchedKvOperations` says what a batch does to the sets of a worker, and
`getWorker_updateWorker`, `getWorker_registerWorker`, `getWorker_deregisterWorker` what an
operation does to the tree, node by node. -/

namespace LMCache.Controller

open Dict

/-! ### Messages and nodes -/

/-- Where a chunk was found. -/
structure KVChunkInfo where
  instanceId : String
  workerId : ℤ
  location : String
deriving DecidableEq, Repr

inductive FullSyncState where
  | idle
  | syncing
  | completed
  | failed
deriving DecidableEq, Repr

/-- The full sync of a worker, and what has arrived of it. -/
structure WorkerSyncInfo where
  syncId : String
  state : FullSyncState
  expectedTotalKeys : ℕ
  expectedBatchCount : ℕ
  receivedBatches : Finset ℕ := ∅
  receivedKeysCount : ℕ := 0
deriving DecidableEq

inductive OpType where
  | admitKey
  | evictKey
deriving DecidableEq, Repr

/-- A chunk was admitted or evicted; `seqNum` counts the operations of a location. -/
structure KVOpEvent where
  opType : OpType
  key : ℤ
  seqNum : ℤ
deriving DecidableEq, Repr

/-- Operations of one location of a worker. -/
structure BatchedKVOperationMsg where
  instanceId : String
  workerId : ℤ
  location : String
  operations : List KVOpEvent
deriving DecidableEq, Repr

/-- A worker: per location the keys and the last sequence number. -/
structure WorkerNode where
  workerId : ℤ
  peerInitUrl : Option String
  seqTracker : Dict String ℤ := empty
  kvStore : Dict String (Finset ℤ) := empty
  syncInfo : Option WorkerSyncInfo := none

/-- An instance with its workers. -/
structure InstanceNode where
  instanceId : String
  workers : Dict ℤ WorkerNode := empty

/-- The registry, and the number of gaps in sequence numbers. -/
structure RegistryTree where
  instances : Dict String InstanceNode := empty
  seqDiscontinuityCount : ℕ := 0

/-! ### One worker -/

/-- What the loop over a batch does with the keys of the location. -/
def KVOpEvent.apply (keys : Finset ℤ) (op : KVOpEvent) : Finset ℤ :=
  match op.opType with
  | .admitKey => insert op.key keys
  | .evictKey => keys.erase op.key

/-- Expected number, number of the operation, gap. -/
abbrev SeqWarning := ℤ × ℤ × ℤ

namespace WorkerNode

/-- A full sync of the worker is in progress. -/
def isSyncing (n : WorkerNode) : Bool :=
  match n.syncInfo with
  | none => false
  | some info => info.state = .syncing

def getKvKeys (n : WorkerNode) (location : String) : Finset ℤ :=
  (n.kvStore.get? location).getD ∅

/-- The worker has the key at the location. -/
def hasKv (n : WorkerNode) (location : String) (key : ℤ) : Bool :=
  match n.kvStore.get? location with
  | none => false
  | some keys => key ∈ keys

/-- One round of the loop over the operations: apply first, then check the sequence number,
except in a full sync. -/
def handleOperation (location : String) (isFullSync : Bool)
    (s : WorkerNode × Option SeqWarning) (op : KVOpEvent) : WorkerNode × Option SeqWarning :=
  let n := { s.1 with kvStore := s.1.kvStore.set location (op.apply (s.1.getKvKeys location)) }
  if isFullSync then (n, s.2)
  else
    let seqWarning :=
      match n.seqTracker.get? location with
      | none => s.2
      | some lastSeqNum =>
        if op.seqNum ≠ lastSeqNum + 1 ∧ s.2 = none then
          some (lastSeqNum + 1, op.seqNum, op.seqNum - (lastSeqNum + 1))
        else s.2
    ({ n with seqTracker := n.seqTracker.set location op.seqNum }, seqWarning)

/-- A location that is not there gets an empty set. -/
def ensureLocation (n : WorkerNode) (location : String) : WorkerNode :=
  if location ∈ n.kvStore.keys then n else { n with kvStore := n.kvStore.set location ∅ }

/-- A location without keys is dropped. -/
def cleanUp (n : WorkerNode) (location : String) : WorkerNode :=
  if n.getKvKeys location = ∅ then { n with kvStore := n.kvStore.erase location } else n

/-- The node, whether the batch was processed, and the first gap in the sequence numbers. -/
def handleBatchedKvOperations (n : WorkerNode) (msg : BatchedKVOperationMsg)
    (isFullSync : Bool) : WorkerNode × Bool × Option SeqWarning :=
  if n.isSyncing && !isFullSync then (n, false, none)
  else
    let s := msg.operations.foldl (handleOperation msg.location isFullSync)
      (n.ensureLocation msg.location, none)
    (s.1.cleanUp msg.location, true, s.2)

/-- All keys and all sequence numbers are dropped. -/
def clearKvStore (n : WorkerNode) : WorkerNode :=
  { n with kvStore := empty, seqTracker := empty }

/-- The part of `RegistryTree.clear_worker_kv` under the worker's lock. -/
def clearKv (n : WorkerNode) : Option String → WorkerNode
  | none => { n with kvStore := empty, seqTracker := empty }
  | some location =>
    { n with
      kvStore := n.kvStore.erase location
      seqTracker := n.seqTracker.erase location }

def getKvCount (n : WorkerNode) : ℕ := (n.kvStore.entries.map fun e => e.2.card).sum

/-- The first location with the key; the caller fills in the instance. -/
def findKeySimple (n : WorkerNode) (key : ℤ) : Option KVChunkInfo :=
  n.kvStore.entries.findSome? fun e =>
    if key ∈ e.2 then some ⟨"", n.workerId, e.1⟩ else none

/-- `findKeySimple` with the URL of the worker and the keys of the location. -/
def findKey (n : WorkerNode) (key : ℤ) : Option (KVChunkInfo × Option String × Finset ℤ) :=
  n.kvStore.entries.findSome? fun e =>
    if key ∈ e.2 then some (⟨"", n.workerId, e.1⟩, n.peerInitUrl, e.2) else none

end WorkerNode

/-! ### One instance -/

namespace InstanceNode

/-- A worker of the same number is replaced. -/
def addWorker (n : InstanceNode) (node : WorkerNode) : InstanceNode :=
  { n with workers := n.workers.set node.workerId node }

/-- `workers.pop(worker_id, None)`. -/
def removeWorker (n : InstanceNode) (workerId : ℤ) : InstanceNode :=
  { n with workers := n.workers.erase workerId }

def hasWorkers (n : InstanceNode) : Bool := n.workers.entries.length > 0

/-- The first worker with the key. -/
def findKeySimple (n : InstanceNode) (key : ℤ) : Option KVChunkInfo :=
  n.workers.entries.findSome? fun e =>
    (e.2.findKeySimple key).map fun info => ⟨n.instanceId, e.1, info.location⟩

def findKey (n : InstanceNode) (key : ℤ) : Option (KVChunkInfo × Option String × Finset ℤ) :=
  n.workers.entries.findSome? fun e =>
    (e.2.findKey key).map fun found => (⟨n.instanceId, e.1, found.1.location⟩, found.2)

def getTotalKvCount (n : InstanceNode) : ℕ := (n.workers.entries.map fun e => e.2.getKvCount).sum

end InstanceNode

/-! ### The tree -/

namespace RegistryTree

/-- The node of a worker, if it is registered. -/
def getWorker (r : RegistryTree) (instanceId : String) (workerId : ℤ) : Option WorkerNode :=
  match r.instances.get? instanceId with
  | none => none
  | some instanceNode => instanceNode.workers.get? workerId

/-- A change of one node. -/
def updateWorker (r : RegistryTree) (instanceId : String) (workerId : ℤ)
    (f : WorkerNode → WorkerNode) : RegistryTree :=
  { r with instances := r.instances.modify instanceId fun instanceNode =>
      { instanceNode with workers := instanceNode.workers.modify workerId f } }

/-- `_get_or_create_instance`: the tree with the instance, and the instance. -/
def getOrCreateInstance (r : RegistryTree) (instanceId : String) : RegistryTree × InstanceNode :=
  match r.instances.get? instanceId with
  | some instanceNode => (r, instanceNode)
  | none =>
    let instanceNode : InstanceNode := { instanceId := instanceId }
    ({ r with instances := r.instances.set instanceId instanceNode }, instanceNode)

/-- The worker gets a new node, without keys. -/
def registerWorker (r : RegistryTree) (instanceId : String) (workerId : ℤ)
    (peerInitUrl : Option String) : RegistryTree :=
  let (r₁, instanceNode) := r.getOrCreateInstance instanceId
  let workerNode : WorkerNode := { workerId := workerId, peerInitUrl := peerInitUrl }
  { r₁ with instances := r₁.instances.set instanceId (instanceNode.addWorker workerNode) }

/-- The tree without the worker, and its node; an instance without workers goes. -/
def deregisterWorker (r : RegistryTree) (instanceId : String) (workerId : ℤ) :
    RegistryTree × Option WorkerNode :=
  match r.instances.get? instanceId with
  | none => (r, none)
  | some instanceNode =>
    let workerNode := instanceNode.workers.get? workerId
    let instanceNode := instanceNode.removeWorker workerId
    if instanceNode.hasWorkers then
      ({ r with instances := r.instances.set instanceId instanceNode }, workerNode)
    else ({ r with instances := r.instances.erase instanceId }, workerNode)

/-- The tree, and whether the batch was processed. -/
def handleBatchedKvOperations (r : RegistryTree) (msg : BatchedKVOperationMsg)
    (isFullSync : Bool) : RegistryTree × Bool :=
  match r.getWorker msg.instanceId msg.workerId with
  | none => (r, false)
  | some workerNode =>
    let (workerNode, processed, seqWarning) :=
      workerNode.handleBatchedKvOperations msg isFullSync
    let r₁ := r.updateWorker msg.instanceId msg.workerId fun _ => workerNode
    ({ r₁ with
        seqDiscontinuityCount :=
          r₁.seqDiscontinuityCount + if seqWarning.isSome then 1 else 0 }, processed)

/-- The first holder of the key in an instance that is not excluded. -/
def findKv (r : RegistryTree) (key : ℤ) (excludeInstanceId : Option String) :
    Option KVChunkInfo :=
  r.instances.entries.findSome? fun e =>
    if excludeInstanceId = some e.1 then none else e.2.findKeySimple key

def findKvWithWorkerInfo (r : RegistryTree) (key : ℤ) (excludeInstanceId : Option String) :
    Option (KVChunkInfo × Option String × Finset ℤ) :=
  r.instances.entries.findSome? fun e =>
    if excludeInstanceId = some e.1 then none else e.2.findKey key

def getTotalKvCount (r : RegistryTree) : ℕ :=
  (r.instances.entries.map fun e => e.2.getTotalKvCount).sum

/-- The keys of a worker at a location; none if it is not registered. -/
def getWorkerKvKeys (r : RegistryTree) (instanceId : String) (workerId : ℤ)
    (location : String) : Finset ℤ :=
  match r.getWorker instanceId workerId with
  | none => ∅
  | some workerNode => workerNode.getKvKeys location

/-- Change a worker, if it is there, and say whether it is. -/
def onWorker (r : RegistryTree) (instanceId : String) (workerId : ℤ)
    (f : WorkerNode → WorkerNode) : RegistryTree × Bool :=
  match r.getWorker instanceId workerId with
  | none => (r, false)
  | some _ => (r.updateWorker instanceId workerId f, true)

/-- Forget the keys of one location, or of all. -/
def clearWorkerKv (r : RegistryTree) (instanceId : String) (workerId : ℤ)
    (location : Option String) : RegistryTree × Bool :=
  r.onWorker instanceId workerId fun n => n.clearKv location

def clearAllWorkerKv (r : RegistryTree) (instanceId : String) (workerId : ℤ) :
    RegistryTree × Bool :=
  r.onWorker instanceId workerId WorkerNode.clearKvStore

/-- `_set_sync_info` of the full-sync tracker. -/
def setSyncInfo (r : RegistryTree) (instanceId : String) (workerId : ℤ)
    (info : Option WorkerSyncInfo) : RegistryTree × Bool :=
  r.onWorker instanceId workerId fun n => { n with syncInfo := info }

end RegistryTree

/-! ### What a batch does to a worker -/

namespace WorkerNode
variable {n : WorkerNode} {s : WorkerNode × Option SeqWarning} {msg : BatchedKVOperationMsg}
  {location l : String} {isFullSync : Bool}

theorem get?_handleOperation (op : KVOpEvent) :
    (handleOperation location isFullSync s op).1.kvStore.get? l =
      if l = location then some (op.apply (s.1.getKvKeys location))
      else s.1.kvStore.get? l := by
  cases isFullSync <;> exact get?_set

theorem get?_foldl {keys : Finset ℤ} (ops : List KVOpEvent)
    (hs : s.1.kvStore.get? location = some keys) (l : String) :
    (ops.foldl (handleOperation location isFullSync) s).1.kvStore.get? l =
      if l = location then some (ops.foldl KVOpEvent.apply keys) else s.1.kvStore.get? l := by
  induction ops generalizing s keys with
  | nil =>
    grind
  | cons op ops ih =>
    have hkeys : s.1.getKvKeys location = keys := by simp [getKvKeys, hs]
    have hstep : (handleOperation location isFullSync s op).1.kvStore.get? location =
        some (op.apply keys) := by
      rw [get?_handleOperation, if_pos rfl, hkeys]
    rw [List.foldl_cons, ih hstep, get?_handleOperation, List.foldl_cons]
    by_cases h : l = location <;> simp [h]

theorem get?_ensureLocation :
    (n.ensureLocation location).kvStore.get? l =
      if l = location then some (n.getKvKeys location) else n.kvStore.get? l := by
  unfold ensureLocation getKvKeys
  split_ifs with hmem hl hl
  · grind
  · rfl
  · simp [hl, get?_eq_none_iff.mpr hmem]
  · simp [hl]

theorem get?_cleanUp :
    (n.cleanUp location).kvStore.get? l =
      if l = location ∧ n.getKvKeys location = ∅ then none else n.kvStore.get? l := by
  unfold cleanUp
  grind

theorem handleBatchedKvOperations_rejected (h : (n.isSyncing && !isFullSync) = true) :
    n.handleBatchedKvOperations msg isFullSync = (n, false, none) := by
  rw [handleBatchedKvOperations, if_pos h]

theorem syncInfo_handleBatchedKvOperations :
    (n.handleBatchedKvOperations msg isFullSync).1.syncInfo = n.syncInfo := by
  have hensure : (n.ensureLocation msg.location).syncInfo = n.syncInfo := by
    unfold ensureLocation
    split_ifs <;> rfl
  have hcleanUp : ∀ n' : WorkerNode, (n'.cleanUp msg.location).syncInfo = n'.syncInfo := by
    intro n'
    unfold cleanUp
    split_ifs <;> rfl
  unfold handleBatchedKvOperations
  split_ifs
  · rfl
  · refine (hcleanUp _).trans (List.foldlRecOn (motive := fun s : _ × _ =>
      WorkerNode.syncInfo s.1 = n.syncInfo) _ _ hensure fun s h op _ => ?_)
    cases isFullSync <;> exact h

/-- **A batch**: the operations are replayed on the set of the location, which is kept unless it
is empty; the other locations keep theirs. -/
theorem get?_handleBatchedKvOperations (h : (n.isSyncing && !isFullSync) = false) :
    (n.handleBatchedKvOperations msg isFullSync).1.kvStore.get? l =
      if l = msg.location then
        let keys := msg.operations.foldl KVOpEvent.apply (n.getKvKeys msg.location)
        if keys = ∅ then none else some keys
      else n.kvStore.get? l := by
  rw [handleBatchedKvOperations, if_neg (by simp [h])]
  have hopen : (n.ensureLocation msg.location).kvStore.get? msg.location =
      some (n.getKvKeys msg.location) := get?_ensureLocation.trans (if_pos rfl)
  have hloop := @get?_foldl (n.ensureLocation msg.location, none) msg.location isFullSync _
    msg.operations hopen
  rw [get?_cleanUp, getKvKeys, hloop, hloop, if_pos rfl, Option.getD_some, get?_ensureLocation]
  by_cases hl : l = msg.location <;> simp [hl]

theorem getKvKeys_handleBatchedKvOperations (h : (n.isSyncing && !isFullSync) = false) :
    (n.handleBatchedKvOperations msg isFullSync).1.getKvKeys l =
      if l = msg.location then
        msg.operations.foldl KVOpEvent.apply (n.getKvKeys msg.location)
      else n.getKvKeys l := by
  rw [getKvKeys, get?_handleBatchedKvOperations h]
  by_cases hl : l = msg.location
  · grind
  · rw [if_neg hl, if_neg hl, getKvKeys]

end WorkerNode

/-! ### What an operation does to the tree -/

namespace RegistryTree
variable {r : RegistryTree} {i i' : String} {w w' : ℤ}

@[simp, grind =] theorem getWorker_updateWorker {f : WorkerNode → WorkerNode} :
    (r.updateWorker i w f).getWorker i' w' =
      if i' = i ∧ w' = w then (r.getWorker i w).map f else r.getWorker i' w' := by
  unfold updateWorker getWorker
  grind

@[simp, grind =] theorem getWorker_registerWorker {url : Option String} :
    (r.registerWorker i w url).getWorker i' w' =
      if i' = i ∧ w' = w then some { workerId := w, peerInitUrl := url }
      else r.getWorker i' w' := by
  unfold registerWorker getOrCreateInstance getWorker
  by_cases hi : i' = i
  · subst hi
    cases hinst : r.instances.get? i' <;> simp [InstanceNode.addWorker]
  · cases hinst : r.instances.get? i <;> simp [hi]

@[simp, grind =] theorem getWorker_deregisterWorker :
    (r.deregisterWorker i w).1.getWorker i' w' =
      if i' = i ∧ w' = w then none else r.getWorker i' w' := by
  unfold deregisterWorker getWorker
  cases hinst : r.instances.get? i with
  | none =>
    grind
  | some inst =>
    have hget : ∀ w', (inst.removeWorker w).workers.get? w' =
        if w' = w then none else inst.workers.get? w' := fun w' => get?_erase
    by_cases hi : i' = i
    · subst hi
      dsimp only
      split_ifs with hworkers h h
      · simp [hget, h.2]
      · simp [hget, hinst, show w' ≠ w from fun hw => h ⟨rfl, hw⟩]
      · simp
      · -- an instance without workers has no other worker
        have hnil : (inst.removeWorker w).workers.entries = [] :=
          List.length_eq_zero_iff.mp (by simpa [InstanceNode.hasWorkers] using hworkers)
        have hnone := hget w'
        rw [if_neg fun hw => h ⟨rfl, hw⟩, get?, hnil, List.lookup_nil] at hnone
        simp [hinst, ← hnone]
    · grind

@[simp, grind =] theorem getWorker_onWorker {f : WorkerNode → WorkerNode} :
    (r.onWorker i w f).1.getWorker i' w' =
      if i' = i ∧ w' = w then (r.getWorker i w).map f else r.getWorker i' w' := by
  fun_cases onWorker <;> grind

@[simp] theorem getWorker_handleBatchedKvOperations {msg : BatchedKVOperationMsg}
    {isFullSync : Bool} :
    (r.handleBatchedKvOperations msg isFullSync).1.getWorker i' w' =
      if i' = msg.instanceId ∧ w' = msg.workerId then
        (r.getWorker msg.instanceId msg.workerId).map fun n =>
          (n.handleBatchedKvOperations msg isFullSync).1
      else r.getWorker i' w' := by
  unfold handleBatchedKvOperations
  cases hw : r.getWorker msg.instanceId msg.workerId with
  | none =>
    grind
  | some n =>
    have hget := @getWorker_updateWorker r msg.instanceId i' msg.workerId w'
      fun _ => (n.handleBatchedKvOperations msg isFullSync).1
    rw [hw] at hget
    exact hget

theorem getWorkerKvKeys_of_getWorker {n : WorkerNode} {location : String}
    (h : r.getWorker i w = some n) : r.getWorkerKvKeys i w location = n.getKvKeys location := by
  rw [getWorkerKvKeys, h]

end RegistryTree

end LMCache.Controller
