import LMCache.Controller.Cluster

/-! # Released workers

A worker whose call of `start_full_sync` has returned, or that has registered again, should be
served: its incremental operations are applied and a fresh start message is accepted
(`KVController.Serves`).

The tracker leaves `SYNCING` only with the end message or when the worker is deregistered.  A
worker that gives up sends no end message, and registering again does not end the sync; so a lost
reply can leave the worker in `SYNCING` for ever (`lost_reply_leaves_worker_syncing`).
`released_worker_is_served` says which steps do this, in terms of the messages handled: it holds in
every run without them, and each of them breaks it. -/

namespace LMCache.Controller

open KVController ClusterRun WorkerNode

/-! ### Serving a worker -/

namespace KVController
variable {c : KVController} {a : WorkerAddress} {n : WorkerNode}

/-- Incremental operations of the worker are applied, and a start message with a fresh sync id is
accepted. -/
structure Serves (c : KVController) (a : WorkerAddress) : Prop where
  operations : ∀ msg : BatchedKVOperationMsg, msg.instanceId = a.instanceId →
    msg.workerId = a.workerId → ∀ l,
    (c.handleBatchedKvOperations msg).registry.getWorkerKvKeys a.instanceId a.workerId l =
      if l = msg.location then msg.operations.foldl KVOpEvent.apply
        (c.registry.getWorkerKvKeys a.instanceId a.workerId l)
      else c.registry.getWorkerKvKeys a.instanceId a.workerId l
  start : ∀ msg : FullSyncStartMsg, msg.instanceId = a.instanceId → msg.workerId = a.workerId →
    (∀ info, c.registry.getSyncInfo a.instanceId a.workerId = some info →
      info.syncId ≠ msg.syncId) → (c.handleFullSyncStart msg).2.accepted = true

theorem not_blocks_of_not_syncing (h : n.isSyncing = false) (syncId : String) :
    ¬ n.Blocks syncId := by
  rw [blocks_iff, syncingId_eq_none.mpr h]
  simp

/-- **Served or syncing**: a registered worker is served unless it is in `SYNCING`. -/
theorem serves_iff (hn : c.registry.getWorker a.instanceId a.workerId = some n) :
    c.Serves a ↔ n.isSyncing = false := by
  constructor
  · intro h
    by_contra hsync
    rw [← syncingId_eq_none, ← Ne, Option.ne_none_iff_exists'] at hsync
    obtain ⟨_, hsome⟩ := hsync
    obtain ⟨info, hinfo, hstate, -⟩ := syncingId_eq_some.mp hsome
    obtain ⟨syncId, hfresh⟩ : ∃ syncId, info.syncId ≠ syncId :=
      ⟨if info.syncId = "a" then "b" else "a", by split_ifs with ha <;> simp [ha]⟩
    have haccept := h.start ⟨a.instanceId, a.workerId, a.location, syncId, 0, 1⟩ rfl rfl
      fun info' hinfo' => by
        rw [RegistryTree.getSyncInfo_of_getWorker hn, hinfo, Option.some.injEq] at hinfo'
        rw [← hinfo']
        exact hfresh
    have hrefuse := @handleFullSyncStart_refused c
      ⟨a.instanceId, a.workerId, a.location, syncId, 0, 1⟩ fun n' hn' => by
        rw [← Option.some.inj (hn.symm.trans hn')]
        exact ⟨info, hinfo, hstate, hfresh⟩
    cases hrefuse.2.symm.trans haccept
  · intro h
    constructor
    · intro msg hi hw l
      obtain ⟨n', hn', -, hkeys⟩ := getWorker_handleBatchedKvOperations hi hw hn
      rw [RegistryTree.getWorkerKvKeys_of_getWorker hn',
        RegistryTree.getWorkerKvKeys_of_getWorker hn, hkeys h]
    · intro msg hi hw _
      have hn' : c.registry.getWorker msg.instanceId msg.workerId = some n := by rw [hi, hw, hn]
      exact (@handleFullSyncStart_accepted c a.instanceId a.workerId n msg hn'
        (not_blocks_of_not_syncing h _)).1

theorem serves_iff_syncingId :
    (∀ n, c.registry.getWorker a.instanceId a.workerId = some n → c.Serves a) ↔
      c.syncingId a = none := by
  cases hn : c.registry.getWorker a.instanceId a.workerId with
  | none =>
    refine iff_of_true (fun n h => ?_) (syncingId_of_none hn)
    cases h
  | some n =>
    rw [syncingId_of_getWorker hn, syncingId_eq_none, ← serves_iff hn]
    simp

end KVController

/-! ### Released workers -/

def CallStep.isReturned : CallStep → Bool
  | .running _ => false
  | .returned _ => true

def SyncMsg.isStart : SyncMsg → Bool
  | .start _ => true
  | _ => false

namespace ClusterRun
variable {cfg : SenderConfig} {s s' : ClusterRun}

/-- A released worker is served, as long as it is registered. -/
def Fine (cfg : SenderConfig) (s : ClusterRun) : Prop :=
  s.released = true → ∀ n, s.controller.registry.getWorker cfg.address.instanceId
    cfg.address.workerId = some n → s.controller.Serves cfg.address

/-- The step does not strand the worker: when the call returns or the worker registers again, the
end message of the sync that was accepted last has been handled; and a released worker gets no
start message of another call. -/
def Keeps (cfg : SenderConfig) (s : ClusterRun) : ClusterEvent → Prop
  | .startFullSync syncId keys =>
    (Call.start cfg syncId keys).1.isReturned = true → s.unended = none
  | .sender e => (s.call.bind fun call => call.next cfg e).any (·.1.isReturned) = true →
      s.unended = none
  | .deliver m _ => s.released = true → m.1.isStart = true →
      (s.controller.registry.getWorker cfg.address.instanceId cfg.address.workerId).isSome = true →
      s.StartsCall m.1
  | .kvOperations _ => True
  | .register _ => s.unended = none
  | .deregister => True

instance (cfg : SenderConfig) (s : ClusterRun) : (e : ClusterEvent) → Decidable (Keeps cfg s e)
  | .startFullSync _ _ => inferInstanceAs (Decidable (_ → _))
  | .sender _ => inferInstanceAs (Decidable (_ → _))
  | .deliver _ _ => inferInstanceAs (Decidable (_ → _ → _ → _))
  | .kvOperations _ => isTrue trivial
  | .register _ => inferInstanceAs (Decidable (_ = none))
  | .deregister => isTrue trivial

theorem fine_iff : Fine cfg s ↔ (s.released = true → s.controller.syncingId cfg.address = none) :=
  imp_congr_right fun _ => serves_iff_syncingId

theorem fine_advance {keys : List ℤ} {out : CallStep × List SyncMsg}
    (hu : s.unended = s.controller.syncingId cfg.address) (h : Fine cfg s) :
    Fine cfg (s.advance keys out) ↔ (out.1.isReturned = true → s.unended = none) := by
  obtain ⟨step, msgs⟩ := out
  rw [fine_iff] at h ⊢
  cases step with
  | running call =>
    refine iff_of_true h ?_
    simp [CallStep.isReturned]
  | returned success => simp [advance, CallStep.isReturned, hu]

theorem fine_deliver_start {syncId : String} {keys : List ℤ} {allWorkers : List WorkerNode}
    (h : Fine cfg s) (hstep : s.step cfg (.deliver (.start syncId, keys) allWorkers) = some s') :
    Fine cfg s' ↔ s.Keeps cfg (.deliver (.start syncId, keys) allWorkers) := by
  rw [step] at hstep
  split_ifs at hstep
  cases hstep
  rw [fine_iff] at h
  rw [fine_iff, syncingId_deliver, accepts_start]
  by_cases hacc : (s.controller.handleFullSyncStart
      (startMsg cfg.address syncId (cfg.batches keys))).2.accepted = true
  · obtain ⟨n, hn, -⟩ := accepted_iff.mp hacc
    simp [hacc, Keeps, SyncMsg.isStart, hn]
  · -- the worker is unknown, or it is in `SYNCING` and was not released
    refine iff_of_true (fun hreleased => ?_) fun hreleased _ hsome => ?_
    · grind
    · obtain ⟨n, hn⟩ := Option.isSome_iff_exists.mp hsome
      have hidle := h hreleased
      rw [syncingId_of_getWorker hn, syncingId_eq_none] at hidle
      exact absurd (accepted_iff.mpr
        ⟨n, hn, not_blocks_of_not_syncing hidle syncId⟩) hacc

theorem fine_deliver_of_not_start {m : SyncMsg × List ℤ} {allWorkers : List WorkerNode}
    (hm : m.1.isStart = false) (h : Fine cfg s)
    (hstep : s.step cfg (.deliver m allWorkers) = some s') : Fine cfg s' := by
  obtain ⟨m, keys⟩ := m
  rw [step] at hstep
  split_ifs at hstep
  cases hstep
  rw [fine_iff] at h ⊢
  intro hreleased
  have hidle := h (Bool.and_eq_true_iff.mp hreleased).1
  rw [syncingId_deliver, hidle]
  cases m with
  | start syncId => cases hm
  | batch syncId batchId => rfl
  | finish syncId => rfl
  | status syncId => rfl

/-- **One step**: a released worker is still served after the step exactly when the step does not
strand it. -/
theorem fine_step_iff {e : ClusterEvent} (hu : s.unended = s.controller.syncingId cfg.address)
    (h : Fine cfg s) (hstep : s.step cfg e = some s') : Fine cfg s' ↔ s.Keeps cfg e := by
  cases e with
  | startFullSync syncId keys =>
    rw [of_step_startFullSync hstep]
    exact fine_advance hu h
  | sender e =>
    obtain ⟨call, out, hcall, hout, rfl⟩ := of_step_sender hstep
    rw [fine_advance hu h, Keeps, hcall]
    simp [hout]
  | deliver m allWorkers =>
    cases hm : m.1.isStart with
    | true =>
      obtain ⟨m, keys⟩ := m
      cases m with
      | start syncId => exact fine_deliver_start h hstep
      | batch syncId batchId => cases hm
      | finish syncId => cases hm
      | status syncId => cases hm
    | false =>
      refine iff_of_true (fine_deliver_of_not_start hm h hstep) fun _ hstart => ?_
      cases hm.symm.trans hstart
  | kvOperations msg =>
    rw [step] at hstep
    split_ifs at hstep with hmsg
    cases hstep
    rw [fine_iff] at h ⊢
    rw [syncingId_handleBatchedKvOperations hmsg.1 hmsg.2]
    exact iff_of_true h trivial
  | register url =>
    cases hstep
    rw [fine_iff, syncingId_register, Keeps, hu]
    simp
  | deregister =>
    cases hstep
    rw [fine_iff]
    exact iff_of_true (fun _ => syncingId_deregister) trivial

end ClusterRun

/-- **A released worker is served.**  In every run whose steps do not strand it, the worker is
served once its call has returned or it has registered again; and a step that does not keep this
is one that strands it. -/
theorem released_worker_is_served (cfg : SenderConfig) (c : KVController) :
    (∀ s, ((clusterSystem cfg c).restrict (ClusterRun.Keeps cfg)).Reachable s →
      s.released = true →
      ∀ n, s.controller.registry.getWorker cfg.address.instanceId cfg.address.workerId = some n →
      s.controller.Serves cfg.address) ∧
    ∀ s e s', (clusterSystem cfg c).Reachable s → (clusterSystem cfg c).step s e s' →
      ClusterRun.Fine cfg s → (ClusterRun.Fine cfg s' ↔ ClusterRun.Keeps cfg s e) := by
  refine ⟨fun s hs => ?_, fun s e s' hs hstep h =>
    fine_step_iff (unended_eq hs) h hstep⟩
  have hinv : ((clusterSystem cfg c).restrict (ClusterRun.Keeps cfg)).Inductive fun s =>
      s.unended = s.controller.syncingId cfg.address ∧ ClusterRun.Fine cfg s :=
    { init := by
        rintro s rfl
        refine ⟨rfl, fun hreleased => ?_⟩
        cases hreleased
      step := fun s e s' h hstep => ⟨unended_step h.1 hstep.2,
        (fine_step_iff h.1 h.2 hstep.2).mpr hstep.1⟩ }
  exact (hinv.reachable hs).2

/-- One start message, one status query, batches of two keys. -/
def briefConfig : SenderConfig := ⟨oneWorker, 2, 1, 1⟩

def justRegistered : ClusterRun :=
  { controller := { registry := RegistryTree.registerWorker {} "i1" 0 none } }

/-- The worker's start message is answered, its batch and its end message are handled, and the
call returns. -/
def answeredSync : List ClusterEvent :=
  [.startFullSync "s1" [7], .deliver (.start "s1", [7]) [],
    .sender (.startReply (some ⟨"s1", true, none⟩)), .sender .sendNext, .sender .sendNext,
    .deliver (.batch "s1" 0, [7]) [], .deliver (.finish "s1", [7]) [],
    .sender (.statusReply none)]

/-- After an answered sync the worker is served, and its next operation is applied. -/
theorem released_worker_is_served_answered :
    ∃ s, ((clusterSystem briefConfig justRegistered.controller).restrict
        (ClusterRun.Keeps briefConfig)).Reachable s ∧ s.released = true ∧ s.call = none ∧
      s.controller.Serves oneWorker ∧
      s.controller.registry.getWorkerKvKeys "i1" 0 "LocalCPUBackend" = {7} := by
  have hstart : ((clusterSystem briefConfig justRegistered.controller).restrict
      (ClusterRun.Keeps briefConfig)).Reachable justRegistered := .init rfl
  obtain ⟨s, hreach, hreleased, hcall, hsome, hkeys⟩ := hstart.exists_guard
    (P := fun s => s.released = true ∧ s.call = none ∧
      (s.controller.registry.getWorker "i1" 0).isSome = true ∧
      s.controller.registry.getWorkerKvKeys "i1" 0 "LocalCPUBackend" = {7})
    (fun _ _ _ => id) answeredSync (by decide +kernel)
  obtain ⟨n, hn⟩ := Option.isSome_iff_exists.mp hsome
  exact ⟨s, hreach, hreleased, hcall,
    (released_worker_is_served briefConfig justRegistered.controller).1 s hreach hreleased n hn,
    hkeys⟩

/-- The start message is handled and its reply is lost, so the call gives up. -/
def unansweredSync : List ClusterEvent :=
  [.startFullSync "s1" [7], .deliver (.start "s1", [7]) [], .sender (.startReply none)]

/-- No call is in progress, an operation of the worker is discarded, and its next sync is
refused. -/
def Stranded (s : ClusterRun) : Prop :=
  s.released = true ∧ s.call = none ∧
    (s.controller.handleBatchedKvOperations ⟨"i1", 0, "LocalCPUBackend",
      [⟨.admitKey, 9, 0⟩]⟩).registry.getWorkerKvKeys "i1" 0 "LocalCPUBackend" = ∅ ∧
    (s.controller.handleFullSyncStart ⟨"i1", 0, "LocalCPUBackend", "s2", 1, 1⟩).2.accepted = false

instance (s : ClusterRun) : Decidable (Stranded s) := inferInstanceAs (Decidable (_ ∧ _ ∧ _ ∧ _))

theorem exists_stranded {events : List ClusterEvent}
    (h : (events.foldlM (step briefConfig) justRegistered).any
      (fun s => decide (Stranded s)) = true) :
    ∃ s, (clusterSystem briefConfig justRegistered.controller).Reachable s ∧
      events.foldlM (step briefConfig) justRegistered = some s ∧ Stranded s := by
  cases hs : events.foldlM (step briefConfig) justRegistered with
  | none => simp [hs] at h
  | some s =>
    rw [hs, Option.any_some, decide_eq_true_eq] at h
    exact ⟨s, LTS.Reachable.replay (fun _ _ _ h => h) events (.init rfl) hs, rfl, h⟩

/-- After a lost reply, and also after the worker has registered again, its operations are
discarded and its next sync is refused. -/
theorem lost_reply_leaves_worker_syncing :
    (∃ s, (clusterSystem briefConfig justRegistered.controller).Reachable s ∧
      unansweredSync.foldlM (step briefConfig) justRegistered = some s ∧
      Stranded s) ∧
    ∃ s, (clusterSystem briefConfig justRegistered.controller).Reachable s ∧
      (unansweredSync ++ [ClusterEvent.register none]).foldlM (step briefConfig) justRegistered =
        some s ∧ Stranded s :=
  ⟨exists_stranded (by decide +kernel), exists_stranded (by decide +kernel)⟩

end LMCache.Controller
