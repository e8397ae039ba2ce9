import LMCache.Controller.SyncSender

/-! # A worker and the controller

The worker's call `start_full_sync`, the channel and the controller as one system.

* **Channel.** What was sent stays in the channel: a message is handled any number of times, late
  or never.  Replies are kept likewise.
* **Worker.** It calls `start_full_sync` with a fresh sync id and a snapshot of its keys, sends
  incremental operations, and may be registered again or deregistered at any time.
* **Ghosts.** `ClusterRun.released` says that the call has returned or the worker has registered
  again, and that no start message of a call in progress has been accepted since.
  `ClusterRun.unended` is the sync whose start message was accepted last, until its end message
  is handled or the worker is deregistered.

`syncingId_deliver` says what a message does to the sync that the tracker has in `SYNCING`, and
`unended_eq` that this is the unended one.  `cluster_refines_channel`: when only sync messages are
handled, the controller takes the steps of `syncSystem`. -/

namespace LMCache.Controller

open RegistryTree WorkerNode

/-- `RegistrationController.register`: a worker that is already there only loses its keys. -/
def RegistryTree.register (r : RegistryTree) (instanceId : String) (workerId : ℤ)
    (peerInitUrl : Option String) : RegistryTree :=
  match r.getWorker instanceId workerId with
  | some _ => (r.clearWorkerKv instanceId workerId none).1
  | none => r.registerWorker instanceId workerId peerInitUrl

/-! ### Steps -/

inductive SyncReply where
  | start (ret : FullSyncStartRetMsg)
  | status (ret : FullSyncStatusRetMsg)
deriving DecidableEq

def KVController.reply (c : KVController) (a : WorkerAddress) (batches : List (List ℤ))
    (allWorkers : List WorkerNode) : SyncMsg → Option SyncReply
  | .start syncId => some (.start (c.handleFullSyncStart (startMsg a syncId batches)).2)
  | .status syncId => some (.status (c.handleFullSyncStatus allWorkers (statusMsg a syncId)).2)
  | .batch _ _ => none
  | .finish _ => none

structure ClusterRun where
  controller : KVController
  /-- the call of `start_full_sync` in progress -/
  call : Option Call := none
  /-- the messages sent so far, with the snapshot of their call -/
  sent : List (SyncMsg × List ℤ) := []
  replies : List SyncReply := []
  /-- ghost -/
  released : Bool := false
  /-- ghost -/
  unended : Option String := none

inductive ClusterEvent where
  | startFullSync (syncId : String) (keys : List ℤ)
  | sender (e : SenderEvent)
  | deliver (m : SyncMsg × List ℤ) (allWorkers : List WorkerNode)
  | kvOperations (msg : BatchedKVOperationMsg)
  | register (peerInitUrl : Option String)
  | deregister

namespace ClusterRun
variable (cfg : SenderConfig)

def advance (s : ClusterRun) (keys : List ℤ) (out : CallStep × List SyncMsg) : ClusterRun :=
  let sent := s.sent ++ out.2.map fun m => (m, keys)
  match out.1 with
  | .running call => { s with call := some call, sent := sent }
  | .returned _ => { s with call := none, sent := sent, released := true }

/-- The replies that the event claims to have received are there. -/
def Received (s : ClusterRun) : SenderEvent → Prop
  | .startReply (some ret) => .start ret ∈ s.replies
  | .statusReply (some ret) => .status ret ∈ s.replies
  | _ => True

instance (s : ClusterRun) : (e : SenderEvent) → Decidable (s.Received e)
  | .startReply none => isTrue trivial
  | .startReply (some ret) => inferInstanceAs (Decidable (.start ret ∈ s.replies))
  | .sendNext => isTrue trivial
  | .statusReply none => isTrue trivial
  | .statusReply (some ret) => inferInstanceAs (Decidable (.status ret ∈ s.replies))
  | .raise => isTrue trivial

/-- The message is the start message of the call in progress. -/
def StartsCall (s : ClusterRun) (m : SyncMsg) : Prop :=
  ∃ call, s.call = some call ∧ m = .start call.syncId

instance (s : ClusterRun) (m : SyncMsg) : Decidable (s.StartsCall m) :=
  match h : s.call with
  | none => isFalse fun ⟨_, hcall, _⟩ => by simp [h] at hcall
  | some call => decidable_of_iff (m = .start call.syncId)
      ⟨fun hm => ⟨call, h, hm⟩, fun ⟨call', hcall, hm⟩ => by
        rw [h, Option.some.injEq] at hcall
        rw [hm, hcall]⟩

def accepts (s : ClusterRun) (m : SyncMsg × List ℤ) : Bool :=
  match s.controller.reply cfg.address (cfg.batches m.2) [] m.1 with
  | some (.start ret) => ret.accepted
  | _ => false

def unendedAfter (s : ClusterRun) (m : SyncMsg × List ℤ) : Option String :=
  match m.1 with
  | .start syncId => if s.accepts cfg m then some syncId else s.unended
  | .finish syncId => if s.unended = some syncId then none else s.unended
  | .batch _ _ => s.unended
  | .status _ => s.unended

/-- One step; `none` when it cannot be taken. -/
def step (s : ClusterRun) : ClusterEvent → Option ClusterRun
  | .startFullSync syncId keys =>
    if s.call = none ∧ ∀ m ∈ s.sent, m.1.syncId ≠ syncId then
      some (s.advance keys (Call.start cfg syncId keys))
    else none
  | .sender e =>
    match s.call with
    | none => none
    | some call =>
      if s.Received e then (call.next cfg e).map (s.advance call.keys) else none
  | .deliver m allWorkers =>
    if m ∈ s.sent then
      some { s with
        controller := s.controller.deliver cfg.address (cfg.batches m.2) allWorkers m.1
        replies := s.replies ++
          (s.controller.reply cfg.address (cfg.batches m.2) allWorkers m.1).toList
        released := s.released && !(decide (s.StartsCall m.1) && s.accepts cfg m)
        unended := s.unendedAfter cfg m }
    else none
  | .kvOperations msg =>
    if msg.instanceId = cfg.address.instanceId ∧ msg.workerId = cfg.address.workerId then
      some { s with controller := s.controller.handleBatchedKvOperations msg }
    else none
  | .register peerInitUrl =>
    some { s with
      controller := { s.controller with
        registry := s.controller.registry.register cfg.address.instanceId cfg.address.workerId
          peerInitUrl }
      released := true }
  | .deregister =>
    some { s with
      controller := { s.controller with
        registry := (s.controller.registry.deregisterWorker cfg.address.instanceId
          cfg.address.workerId).1 }
      unended := none }

end ClusterRun

/-- The sync that the tracker has in `SYNCING`. -/
def WorkerNode.syncingId (n : WorkerNode) : Option String :=
  n.syncInfo.bind fun info => if info.state = .syncing then some info.syncId else none

def KVController.syncingId (c : KVController) (a : WorkerAddress) : Option String :=
  (c.registry.getWorker a.instanceId a.workerId).bind WorkerNode.syncingId

/-- The worker and the controller, from a controller in any state. -/
def clusterSystem (cfg : SenderConfig) (c : KVController) : LTS ClusterRun ClusterEvent where
  init s := s = { controller := c, unended := c.syncingId cfg.address }
  step s e s' := s.step cfg e = some s'

/-! ### The sync in progress -/

namespace WorkerNode
variable {n : WorkerNode} {syncId : String}

theorem syncingId_eq_some : n.syncingId = some syncId ↔
    ∃ info, n.syncInfo = some info ∧ info.state = .syncing ∧ info.syncId = syncId := by
  simp [syncingId, Option.bind_eq_some_iff]

theorem syncingId_eq_none : n.syncingId = none ↔ n.isSyncing = false := by
  cases hinfo : n.syncInfo <;> simp [syncingId, isSyncing, hinfo]

theorem blocks_iff : n.Blocks syncId ↔ ∃ other, n.syncingId = some other ∧ other ≠ syncId := by
  simp only [syncingId_eq_some, Blocks]
  grind

end WorkerNode

namespace KVController
variable {c : KVController} {a : WorkerAddress} {n : WorkerNode} {syncId : String}

section
variable (hn : c.registry.getWorker a.instanceId a.workerId = some n)

include hn

theorem syncingId_of_getWorker : c.syncingId a = n.syncingId := by
  rw [syncingId, hn, Option.bind_some]

omit hn in
theorem syncingId_of_none (hn : c.registry.getWorker a.instanceId a.workerId = none) :
    c.syncingId a = none := by
  rw [syncingId, hn, Option.bind_none]

omit hn in
theorem accepted_iff {batches : List (List ℤ)} :
    (c.handleFullSyncStart (startMsg a syncId batches)).2.accepted = true ↔
      ∃ n, c.registry.getWorker a.instanceId a.workerId = some n ∧ ¬ n.Blocks syncId := by
  constructor
  · intro h
    by_contra hno
    have hrefused := @handleFullSyncStart_refused c (startMsg a syncId batches)
      fun n hn => by_contra fun hb => hno ⟨n, hn, hb⟩
    cases hrefused.2.symm.trans h
  · rintro ⟨n, hn, hb⟩
    exact (@handleFullSyncStart_accepted c a.instanceId a.workerId n (startMsg a syncId batches)
      hn hb).1

theorem isWorkerSyncing_of_getWorker :
    c.registry.isWorkerSyncing a.instanceId a.workerId = n.isSyncing := by
  have hsync := getSyncInfo_of_getWorker hn
  cases hinfo : n.syncInfo with
  | none => simp [isWorkerSyncing, isSyncing, hsync, hinfo]
  | some info => simp [isWorkerSyncing, isSyncing, hsync, hinfo]

omit hn in
theorem getWorker_handleBatchedKvOperations {msg : BatchedKVOperationMsg}
    (hi : msg.instanceId = a.instanceId) (hw : msg.workerId = a.workerId)
    (hn : c.registry.getWorker a.instanceId a.workerId = some n) :
    ∃ n', (c.handleBatchedKvOperations msg).registry.getWorker a.instanceId a.workerId = some n' ∧
      n'.syncInfo = n.syncInfo ∧ (n.isSyncing = false → ∀ l, n'.getKvKeys l =
        if l = msg.location then msg.operations.foldl KVOpEvent.apply (n.getKvKeys l)
        else n.getKvKeys l) := by
  unfold handleBatchedKvOperations
  rw [hi, hw, isWorkerSyncing_of_getWorker hn]
  split_ifs with hops hsync
  · grind
  · exact ⟨n, hn, rfl, fun h => absurd (hsync.symm.trans h) (by simp)⟩
  · refine ⟨(n.handleBatchedKvOperations msg false).1, ?_,
      syncInfo_handleBatchedKvOperations, fun h l => ?_⟩
    · simp_all
    · rw [getKvKeys_handleBatchedKvOperations (by simp [h])]
      grind

omit hn in
theorem syncingId_handleBatchedKvOperations {msg : BatchedKVOperationMsg}
    (hi : msg.instanceId = a.instanceId) (hw : msg.workerId = a.workerId) :
    (c.handleBatchedKvOperations msg).syncingId a = c.syncingId a := by
  cases hn : c.registry.getWorker a.instanceId a.workerId with
  | none =>
    refine (syncingId_of_none ?_).trans (syncingId_of_none hn).symm
    unfold handleBatchedKvOperations
    split_ifs
    · exact hn
    · exact hn
    · simp_all
  | some n =>
    obtain ⟨n', hn', hsync, -⟩ := getWorker_handleBatchedKvOperations hi hw hn
    rw [syncingId_of_getWorker hn, syncingId_of_getWorker hn', WorkerNode.syncingId, hsync,
      WorkerNode.syncingId]

omit hn in
theorem syncingId_register (url : Option String) :
    syncingId { c with registry := c.registry.register a.instanceId a.workerId url } a =
      c.syncingId a := by
  unfold register
  cases hn : c.registry.getWorker a.instanceId a.workerId with
  | none =>
    have hnew : (c.registry.registerWorker a.instanceId a.workerId url).getWorker a.instanceId
        a.workerId = some { workerId := a.workerId, peerInitUrl := url } := by simp
    rw [syncingId_of_none hn]
    exact (congrArg (Option.bind · WorkerNode.syncingId) hnew).trans rfl
  | some n =>
    have hcleared : (c.registry.clearWorkerKv a.instanceId a.workerId none).1.getWorker
        a.instanceId a.workerId = some (n.clearKv none) := by
      simp [clearWorkerKv, hn]
    rw [syncingId_of_getWorker hn]
    exact (congrArg (Option.bind · WorkerNode.syncingId) hcleared).trans rfl

omit hn in
theorem syncingId_deregister :
    syncingId { c with registry := (c.registry.deregisterWorker a.instanceId a.workerId).1 } a =
      none :=
  syncingId_of_none (by simp)

omit hn in
theorem getWorker_deliver_none (hn : c.registry.getWorker a.instanceId a.workerId = none)
    (batches : List (List ℤ)) (allWorkers : List WorkerNode) (m : SyncMsg) :
    (c.deliver a batches allWorkers m).registry.getWorker a.instanceId a.workerId = none := by
  have hno : ∀ n, c.registry.getWorker a.instanceId a.workerId ≠ some n := by simp [hn]
  cases m with
  | start syncId =>
    rw [deliver, (handleFullSyncStart_refused fun n hn' => absurd hn' (hno n)).1]
    exact hn
  | batch syncId batchId =>
    rw [deliver, handleFullSyncBatch_refused fun n s hn' => absurd hn' (hno n)]
    exact hn
  | finish syncId =>
    rw [deliver, handleFullSyncEnd_refused fun n s hn' => absurd hn' (hno n)]
    exact hn
  | status syncId =>
    rw [deliver, registry_handleFullSyncStatus]
    exact hn

theorem syncingId_deliver_start
    (batches : List (List ℤ)) (allWorkers : List WorkerNode) (syncId : String) :
    (c.deliver a batches allWorkers (.start syncId)).syncingId a =
      if (c.handleFullSyncStart (startMsg a syncId batches)).2.accepted then some syncId
      else c.syncingId a := by
  by_cases hb : n.Blocks syncId
  · obtain ⟨hsame, hrefused⟩ := @handleFullSyncStart_refused c (startMsg a syncId batches)
      fun n' hn' => by rwa [← Option.some.inj (hn.symm.trans hn')]
    rw [deliver, hsame, hrefused, if_neg Bool.noConfusion]
  · obtain ⟨haccepted, hn'⟩ := @handleFullSyncStart_accepted c a.instanceId a.workerId n
      (startMsg a syncId batches) hn hb
    rw [if_pos ⟨rfl, rfl⟩] at hn'
    rw [deliver, syncingId_of_getWorker hn', haccepted, if_pos rfl, WorkerNode.syncingId,
      WorkerNode.syncInfo_started]
    rfl

theorem syncingId_deliver_finish
    (batches : List (List ℤ)) (allWorkers : List WorkerNode) (syncId : String) :
    (c.deliver a batches allWorkers (.finish syncId)).syncingId a =
      if c.syncingId a = some syncId then none else c.syncingId a := by
  rw [syncingId_of_getWorker hn]
  by_cases hmatch : ∃ info, n.syncInfo = some info ∧ info.syncId = syncId
  · obtain ⟨info, hinfo, rfl⟩ := hmatch
    have hn' :=
      @getWorker_handleFullSyncEnd c a.instanceId a.workerId n (endMsg a info.syncId batches)
      info hn hinfo rfl
    rw [if_pos ⟨rfl, rfl⟩] at hn'
    rw [deliver, syncingId_of_getWorker hn', WorkerNode.syncingId, WorkerNode.syncingId, hinfo]
    by_cases hstate : info.state = .syncing <;> simp [hstate]
  · have hother : n.syncingId ≠ some syncId := by
      rw [Ne, syncingId_eq_some]
      rintro ⟨info, hinfo, _, hid⟩
      exact hmatch ⟨info, hinfo, hid⟩
    rw [if_neg hother, deliver, handleFullSyncEnd_refused, syncingId_of_getWorker hn]
    intro n' info hn' hinfo hid
    rw [← Option.some.inj (hn.symm.trans hn')] at hinfo
    exact hmatch ⟨info, hinfo, hid⟩

end

/-- **One message**: an accepted start message begins a sync, its end message ends it, and nothing
else does. -/
theorem syncingId_deliver (batches : List (List ℤ)) (allWorkers : List WorkerNode) (m : SyncMsg) :
    (c.deliver a batches allWorkers m).syncingId a = match m with
      | .start syncId =>
        if (c.handleFullSyncStart (startMsg a syncId batches)).2.accepted then some syncId
        else c.syncingId a
      | .finish syncId => if c.syncingId a = some syncId then none else c.syncingId a
      | .batch _ _ => c.syncingId a
      | .status _ => c.syncingId a := by
  cases hn : c.registry.getWorker a.instanceId a.workerId with
  | none =>
    have hacc : ∀ syncId, (c.handleFullSyncStart (startMsg a syncId batches)).2.accepted =
        false := by
      intro syncId
      rw [← Bool.not_eq_true, accepted_iff]
      simp [hn]
    rw [syncingId_of_none hn, syncingId_of_none (getWorker_deliver_none hn batches allWorkers m)]
    grind
  | some n =>
    cases m with
    | start syncId => exact syncingId_deliver_start hn batches allWorkers syncId
    | batch syncId batchId =>
      obtain ⟨n', hn', hd⟩ := delivered hn batches allWorkers (.batch syncId batchId)
      rw [syncingId_of_getWorker hn, syncingId_of_getWorker hn']
      cases hd with
      | batch hinfo hstate =>
        rw [WorkerNode.syncingId, WorkerNode.syncInfo_received, WorkerNode.syncingId, hinfo]
        rfl
      | same => rfl
    | finish syncId => exact syncingId_deliver_finish hn batches allWorkers syncId
    | status syncId => rw [deliver, syncingId, registry_handleFullSyncStatus, syncingId]

end KVController

/-! ### Steps of the worker and of the controller -/

namespace ClusterRun
variable {cfg : SenderConfig} {s s' : ClusterRun} {keys : List ℤ} {syncId : String}

theorem controller_advance {out : CallStep × List SyncMsg} :
    (s.advance keys out).controller = s.controller := by
  obtain ⟨step, msgs⟩ := out
  cases step <;> rfl

theorem unended_advance {out : CallStep × List SyncMsg} :
    (s.advance keys out).unended = s.unended := by
  obtain ⟨step, msgs⟩ := out
  cases step <;> rfl

theorem of_step_startFullSync (hstep : s.step cfg (.startFullSync syncId keys) = some s') :
    s' = s.advance keys (Call.start cfg syncId keys) := by
  rw [step] at hstep
  grind

theorem of_step_sender {e : SenderEvent} (hstep : s.step cfg (.sender e) = some s') :
    ∃ call out, s.call = some call ∧ call.next cfg e = some out ∧
      s' = s.advance call.keys out := by
  rw [step] at hstep
  cases hcall : s.call with
  | none => simp [hcall] at hstep
  | some call =>
    rw [hcall] at hstep
    split_ifs at hstep
    obtain ⟨out, hout, rfl⟩ := Option.map_eq_some_iff.mp hstep
    exact ⟨call, out, rfl, hout, rfl⟩

theorem accepts_start : s.accepts cfg (.start syncId, keys) = (s.controller.handleFullSyncStart
        (startMsg cfg.address syncId (cfg.batches keys))).2.accepted := rfl

theorem unended_step {e : ClusterEvent} (h : s.unended = s.controller.syncingId cfg.address)
    (hstep : s.step cfg e = some s') : s'.unended = s'.controller.syncingId cfg.address := by
  cases e with
  | startFullSync syncId keys =>
    rw [of_step_startFullSync hstep, unended_advance, controller_advance, h]
  | sender e =>
    obtain ⟨call, out, -, -, rfl⟩ := of_step_sender hstep
    rw [unended_advance, controller_advance, h]
  | deliver m allWorkers =>
    obtain ⟨m, keys⟩ := m
    rw [step] at hstep
    split_ifs at hstep
    cases hstep
    rw [KVController.syncingId_deliver, ← h]
    cases m <;> rfl
  | kvOperations msg =>
    rw [step] at hstep
    split_ifs at hstep with hmsg
    cases hstep
    rw [KVController.syncingId_handleBatchedKvOperations hmsg.1 hmsg.2, ← h]
  | register url =>
    cases hstep
    rw [KVController.syncingId_register, ← h]
  | deregister =>
    cases hstep
    rw [KVController.syncingId_deregister]

/-- **The unended sync** is the one that the tracker has in `SYNCING`. -/
theorem unended_eq {c : KVController} (h : (clusterSystem cfg c).Reachable s) :
    s.unended = s.controller.syncingId cfg.address := by
  have hinv : (clusterSystem cfg c).Inductive fun s =>
      s.unended = s.controller.syncingId cfg.address :=
    { init := by
        rintro s rfl
        rfl
      step := fun s e s' h hstep => unended_step h hstep }
  exact hinv.reachable h

end ClusterRun

/-! ### The controller in a cluster -/

/-- Only sync messages are handled, and every call takes the snapshot of its sync id. -/
def SyncOnly (snapshots : String → Option (List ℤ)) (_ : ClusterRun) : ClusterEvent → Prop
  | .startFullSync syncId keys => snapshots syncId = some keys
  | .sender _ => True
  | .deliver _ _ => True
  | .kvOperations _ => False
  | .register _ => False
  | .deregister => False

section refinement
variable {cfg : SenderConfig} {snapshots : String → Option (List ℤ)}

structure OfSnapshots (snapshots : String → Option (List ℤ)) (s : ClusterRun) : Prop where
  sent : ∀ m ∈ s.sent, snapshots m.1.syncId = some m.2
  call : ∀ call, s.call = some call → snapshots call.syncId = some call.keys

theorem OfSnapshots.advance {s : ClusterRun} (h : OfSnapshots snapshots s) {call : Call}
    {out : CallStep × List SyncMsg} (hcall : snapshots call.syncId = some call.keys)
    (hown : call.Own out) : OfSnapshots snapshots (s.advance call.keys out) := by
  have hsent : ∀ m ∈ s.sent ++ out.2.map fun m => (m, call.keys),
      snapshots m.1.syncId = some m.2 := by
    intro m hm
    rcases List.mem_append.mp hm with hm | hm
    · exact h.sent m hm
    · obtain ⟨m, hmem, rfl⟩ := List.mem_map.mp hm
      rw [hown.1 m hmem]
      exact hcall
  obtain ⟨step, msgs⟩ := out
  cases step with
  | running call' =>
    refine ⟨hsent, fun call'' hcall'' => ?_⟩
    cases hcall''
    obtain ⟨hid, hkeys⟩ := hown.2 call' rfl
    rw [hid, hkeys]
    exact hcall
  | returned success => exact ⟨hsent, fun _ hcall => nomatch hcall⟩

/-- **The controller of a cluster** is a controller at the end of an unreliable channel: when only
sync messages are handled, it takes the steps of `syncSystem`. -/
theorem cluster_refines_channel {c : KVController} {n : WorkerNode}
    (hn : c.registry.getWorker cfg.address.instanceId cfg.address.workerId = some n)
    (hother : ∀ info, n.syncInfo = some info → snapshots info.syncId = none) {s : ClusterRun}
    (h : ((clusterSystem cfg c).restrict (SyncOnly snapshots)).Reachable s) :
    ∃ handled, (syncSystem cfg.address fun syncId =>
      (snapshots syncId).map cfg.batches).Reachable ⟨s.controller, handled⟩ := by
  have hinv : ((clusterSystem cfg c).restrict (SyncOnly snapshots)).Inductive fun s =>
      OfSnapshots snapshots s ∧ ∃ handled, (syncSystem cfg.address fun syncId =>
        (snapshots syncId).map cfg.batches).Reachable ⟨s.controller, handled⟩ := by
    constructor
    · rintro s rfl
      refine ⟨⟨fun _ hm => absurd hm List.not_mem_nil, fun _ hcall => nomatch hcall⟩, [], ?_⟩
      refine .init ⟨rfl, n, hn, fun info hinfo => ?_⟩
      simp [hother info hinfo]
    · rintro s e s' ⟨hown, handled, hreach⟩ ⟨hok, hstep⟩
      change s.step cfg e = some s' at hstep
      cases e with
      | startFullSync syncId keys =>
        obtain rfl := ClusterRun.of_step_startFullSync hstep
        refine ⟨@OfSnapshots.advance _ _ hown ⟨syncId, keys, .starting 0⟩ _ hok
          (Call.own_start syncId keys _), handled, ?_⟩
        rwa [ClusterRun.controller_advance]
      | sender e =>
        obtain ⟨call, out, hcall, hout, rfl⟩ := ClusterRun.of_step_sender hstep
        refine ⟨hown.advance (hown.call call hcall) (Call.own_next hout), handled, ?_⟩
        rwa [ClusterRun.controller_advance]
      | deliver m allWorkers =>
        rw [ClusterRun.step] at hstep
        split_ifs at hstep with hm
        cases hstep
        refine ⟨⟨hown.sent, hown.call⟩, m.1 :: handled, ?_⟩
        exact hreach.step (e := (m.1, allWorkers))
          ⟨cfg.batches m.2, by simp [hown.sent m hm], rfl⟩
      | kvOperations msg => exact absurd hok id
      | register url => exact absurd hok id
      | deregister => exact absurd hok id
  exact (hinv.reachable h).2

/-- The start message of a call is handled. -/
theorem cluster_refines_channel_start :
    let cfg : SenderConfig := ⟨oneWorker, 1, 1, 1⟩
    let snapshots syncId := if syncId = "s1" then some [7] else none
    ∃ handled, (syncSystem oneWorker fun syncId => (snapshots syncId).map cfg.batches).Reachable
      ⟨(syncAfter []).controller.deliver oneWorker (cfg.batches [7]) [] (.start "s1"),
        handled⟩ := by
  intro cfg snapshots
  let S := (clusterSystem cfg (syncAfter []).controller).restrict (SyncOnly snapshots)
  have h₀ : S.Reachable _ := .init rfl
  have h₁ : S.Reachable _ := h₀.step (e := .startFullSync "s1" [7]) ⟨rfl, rfl⟩
  have h₂ : S.Reachable _ := h₁.step (e := .deliver (.start "s1", [7]) []) ⟨trivial, rfl⟩
  refine cluster_refines_channel (n := { workerId := 0, peerInitUrl := none }) ?_ ?_ h₂
  · simp [cfg, syncAfter, oneWorker]
  · intro info hinfo
    cases hinfo

end refinement

end LMCache.Controller
