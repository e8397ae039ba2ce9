import Mathlib.Data.List.GetD
import LMCache.Lib.Transition
import LMCache.Controller.FullSync

/-! # Full sync over an unreliable channel

The syncs of one worker, as the controller sees them: the messages of the worker's syncs arrive
in any order, any number of times or not at all.

* **Plan.** A sync id is used for one sync only.  `SyncPlan` gives the batches that are sent
  under an id: any snapshot of keys, split in any way.
* **Channel.** A step of `syncSystem` handles one message of a planned sync.  Nothing says that
  it is the next one, that it is handled only once or that all are handled.
* **Ghost.** `SyncRun.handled` remembers the messages that were handled.

`Tracked` is the invariant of the controller: while a sync is recorded, the keys at the location
are those of the batches it has received since its start.  The main theorem
`full_sync_complete_means_end_received` says what a status with `is_complete` is worth: the end
message has been handled, and the registry has the batches received up to then; it has the
snapshot when the end message comes after all batches. -/

namespace LMCache.Controller

open List RegistryTree WorkerNode

/-! ### Messages of a sync -/

/-- The worker and the location whose keys are synchronised. -/
structure WorkerAddress where
  instanceId : String
  workerId : ℤ
  location : String
deriving DecidableEq, Repr

def SyncPlan := String → Option (List (List ℤ))

inductive SyncMsg where
  | start (syncId : String)
  | batch (syncId : String) (batchId : ℕ)
  | finish (syncId : String)
  | status (syncId : String)
deriving DecidableEq, Repr

def SyncMsg.syncId : SyncMsg → String
  | .start syncId => syncId
  | .batch syncId _ => syncId
  | .finish syncId => syncId
  | .status syncId => syncId

section messages
variable (a : WorkerAddress) (syncId : String) (batches : List (List ℤ))

def startMsg : FullSyncStartMsg :=
  ⟨a.instanceId, a.workerId, a.location, syncId, batches.flatten.length, batches.length⟩

def batchMsg (batchId : ℕ) : FullSyncBatchMsg :=
  ⟨a.instanceId, a.workerId, a.location, syncId, batchId, batches.getD batchId []⟩

def endMsg : FullSyncEndMsg :=
  ⟨a.instanceId, a.workerId, a.location, syncId, batches.flatten.length⟩

def statusMsg : FullSyncStatusMsg := ⟨a.instanceId, a.workerId, syncId⟩

end messages

/-- The controller after it has handled a message. -/
def KVController.deliver (c : KVController) (a : WorkerAddress) (batches : List (List ℤ))
    (allWorkers : List WorkerNode) : SyncMsg → KVController
  | .start syncId => (c.handleFullSyncStart (startMsg a syncId batches)).1
  | .batch syncId batchId => c.handleFullSyncBatch (batchMsg a syncId batches batchId)
  | .finish syncId => c.handleFullSyncEnd (endMsg a syncId batches)
  | .status syncId => (c.handleFullSyncStatus allWorkers (statusMsg a syncId)).1

/-! ### Runs -/

structure SyncRun where
  controller : KVController
  /-- ghost: the messages handled so far -/
  handled : List SyncMsg

namespace SyncRun

def syncInfo (s : SyncRun) (a : WorkerAddress) : Option WorkerSyncInfo :=
  s.controller.registry.getSyncInfo a.instanceId a.workerId

/-- The keys the registry has for the worker at the location. -/
def keys (s : SyncRun) (a : WorkerAddress) : Finset ℤ :=
  s.controller.registry.getWorkerKvKeys a.instanceId a.workerId a.location

def status (s : SyncRun) (a : WorkerAddress) (allWorkers : List WorkerNode) (syncId : String) :
    FullSyncStatusRetMsg :=
  (s.controller.handleFullSyncStatus allWorkers (statusMsg a syncId)).2

end SyncRun

/-- The worker is registered, and the record of its sync, if there is one, is of another time. -/
def syncSystem (a : WorkerAddress) (plan : SyncPlan) : LTS SyncRun (SyncMsg × List WorkerNode) where
  init s := s.handled = [] ∧
    ∃ n, s.controller.registry.getWorker a.instanceId a.workerId = some n ∧
      ∀ info, n.syncInfo = some info → plan info.syncId = none
  step s e s' := ∃ batches, plan e.1.syncId = some batches ∧
    s' = ⟨s.controller.deliver a batches e.2 e.1, e.1 :: s.handled⟩

/-! ### The keys of the received batches -/

/-- The keys of the batches with the given numbers. -/
def keysOf (batches : List (List ℤ)) (received : Finset ℕ) : Finset ℤ :=
  received.biUnion fun b => (batches.getD b []).toFinset

section keysOf
variable {batches : List (List ℤ)} {received : Finset ℕ}

theorem keysOf_insert (b : ℕ) :
    keysOf batches (insert b received) =
      keysOf batches received ∪ (batches.getD b []).toFinset := by
  rw [keysOf, Finset.biUnion_insert, Finset.union_comm]
  rfl

theorem keysOf_subset : keysOf batches received ⊆ batches.flatten.toFinset := by
  intro key hkey
  obtain ⟨b, -, hb⟩ := Finset.mem_biUnion.mp hkey
  rw [mem_toFinset] at hb ⊢
  rcases lt_or_ge b batches.length with hlt | hge
  · rw [getD_eq_getElem _ _ hlt] at hb
    exact mem_flatten.mpr ⟨_, getElem_mem hlt, hb⟩
  · grind

theorem keysOf_all (h : ∀ b < batches.length, b ∈ received) :
    keysOf batches received = batches.flatten.toFinset := by
  refine Finset.Subset.antisymm keysOf_subset ?_
  intro key hkey
  obtain ⟨batch, hbatch, hmem⟩ := mem_flatten.mp (mem_toFinset.mp hkey)
  obtain ⟨b, hlt, rfl⟩ := mem_iff_getElem.mp hbatch
  refine Finset.mem_biUnion.mpr ⟨b, h b hlt, ?_⟩
  rwa [getD_eq_getElem _ _ hlt, mem_toFinset]

end keysOf

/-! ### One message -/

/-- What a message can do to the node of the worker. -/
inductive Delivered (a : WorkerAddress) (batches : List (List ℤ)) (n : WorkerNode) :
    SyncMsg → WorkerNode → Prop
  | start {syncId : String} : ¬ n.Blocks syncId →
      Delivered a batches n (.start syncId) (n.started (startMsg a syncId batches))
  | batch {info : WorkerSyncInfo} {batchId : ℕ} : n.syncInfo = some info →
      info.state = .syncing → Delivered a batches n (.batch info.syncId batchId)
        (n.received info (batchMsg a info.syncId batches batchId))
  | finish {info : WorkerSyncInfo} : n.syncInfo = some info →
      Delivered a batches n (.finish info.syncId)
        { n with syncInfo := some { info with state := .completed } }
  | same {m : SyncMsg} : Delivered a batches n m n

theorem KVController.delivered {c : KVController} {a : WorkerAddress} {n : WorkerNode}
    (hn : c.registry.getWorker a.instanceId a.workerId = some n) (batches : List (List ℤ))
    (allWorkers : List WorkerNode) (m : SyncMsg) :
    ∃ n', (c.deliver a batches allWorkers m).registry.getWorker a.instanceId a.workerId = some n' ∧
      Delivered a batches n m n' := by
  cases m with
  | start syncId =>
    by_cases hb : n.Blocks syncId
    · refine ⟨n, ?_, .same⟩
      have hrefused := @handleFullSyncStart_refused c (startMsg a syncId batches)
        fun n' hn' => by rwa [← Option.some.inj (hn.symm.trans hn')]
      rw [deliver, hrefused.1]
      exact hn
    · exact ⟨_, (handleFullSyncStart_accepted hn hb).2.trans (if_pos ⟨rfl, rfl⟩), .start hb⟩
  | batch syncId batchId =>
    by_cases hacc : ∃ info, n.syncInfo = some info ∧ info.syncId = syncId ∧ info.state = .syncing
    · obtain ⟨info, hinfo, rfl, hstate⟩ := hacc
      exact ⟨_, (handleFullSyncBatch_accepted hn hinfo rfl hstate).trans (if_pos ⟨rfl, rfl⟩),
        .batch hinfo hstate⟩
    · refine ⟨n, ?_, .same⟩
      rw [deliver, handleFullSyncBatch_refused]
      · exact hn
      · intro n' info hn' hinfo hboth
        rw [← Option.some.inj (hn.symm.trans hn')] at hinfo
        exact hacc ⟨info, hinfo, hboth⟩
  | finish syncId =>
    by_cases hacc : ∃ info, n.syncInfo = some info ∧ info.syncId = syncId
    · obtain ⟨info, hinfo, rfl⟩ := hacc
      exact ⟨_, (getWorker_handleFullSyncEnd hn hinfo rfl).trans (if_pos ⟨rfl, rfl⟩),
        .finish hinfo⟩
    · refine ⟨n, ?_, .same⟩
      rw [deliver, handleFullSyncEnd_refused]
      · exact hn
      · intro n' info hn' hinfo hid
        rw [← Option.some.inj (hn.symm.trans hn')] at hinfo
        exact hacc ⟨info, hinfo, hid⟩
  | status syncId =>
    refine ⟨n, ?_, .same⟩
    rw [deliver, registry_handleFullSyncStatus]
    exact hn

/-! ### The invariant -/

/-- What the record of a planned sync says about the run and the registry. -/
structure SyncFacts (a : WorkerAddress) (handled : List SyncMsg) (n : WorkerNode)
    (info : WorkerSyncInfo) (batches : List (List ℤ)) : Prop where
  expected : info.expectedBatchCount = batches.length
  received : ∀ b ∈ info.receivedBatches, .batch info.syncId b ∈ handled
  completed : info.state = .completed → .finish info.syncId ∈ handled
  keys : n.getKvKeys a.location = keysOf batches info.receivedBatches

/-- The worker is registered, and `P` holds of the record of a planned sync. -/
def Tracked (a : WorkerAddress) (plan : SyncPlan)
    (P : WorkerNode → WorkerSyncInfo → List (List ℤ) → Prop) (c : KVController) : Prop :=
  ∃ n, c.registry.getWorker a.instanceId a.workerId = some n ∧
    ∀ info batches, n.syncInfo = some info → plan info.syncId = some batches → P n info batches

section runs
variable {a : WorkerAddress} {plan : SyncPlan} {n : WorkerNode}

theorem SyncFacts.delivered {handled : List SyncMsg} {n' : WorkerNode} {m : SyncMsg}
    {batches : List (List ℤ)} (hbatches : plan m.syncId = some batches)
    (h : ∀ info batches, n.syncInfo = some info → plan info.syncId = some batches →
      SyncFacts a handled n info batches)
    (hd : Delivered a batches n m n') :
    ∀ info batches, n'.syncInfo = some info → plan info.syncId = some batches →
      SyncFacts a (m :: handled) n' info batches := by
  intro info' batches' hinfo' hplan'
  cases hd with
  | @start syncId hb =>
    cases syncInfo_started.symm.trans hinfo'
    cases hbatches.symm.trans hplan'
    refine ⟨rfl, fun b hb => absurd hb (by simp [WorkerSyncInfo.new]), ?_, ?_⟩
    · intro hstate
      exact absurd hstate (by simp [WorkerSyncInfo.new])
    · rw [getKvKeys_started]
      exact if_pos rfl
  | @batch info batchId hinfo hstate =>
    cases syncInfo_received.symm.trans hinfo'
    cases hbatches.symm.trans hplan'
    have hfacts := h info batches hinfo hbatches
    refine ⟨hfacts.expected, ?_, fun hc => absurd (hstate.symm.trans hc) (by simp), ?_⟩
    · intro b hb
      rcases Finset.mem_insert.mp hb with rfl | hb
      · exact mem_cons_self
      · exact mem_cons_of_mem _ (hfacts.received b hb)
    · rw [getKvKeys_received]
      refine (if_pos rfl).trans ?_
      rw [hfacts.keys]
      exact (keysOf_insert batchId).symm
  | @finish info hinfo =>
    cases hinfo'
    have hfacts := h info batches' hinfo hplan'
    exact ⟨hfacts.expected, fun b hb => mem_cons_of_mem _ (hfacts.received b hb),
      fun _ => mem_cons_self, hfacts.keys⟩
  | same =>
    have hfacts := h info' batches' hinfo' hplan'
    exact ⟨hfacts.expected, fun b hb => mem_cons_of_mem _ (hfacts.received b hb),
      fun hc => mem_cons_of_mem _ (hfacts.completed hc), hfacts.keys⟩

theorem tracked_inductive :
    (syncSystem a plan).Inductive fun s => Tracked a plan (SyncFacts a s.handled) s.controller where
  init s h := by
    obtain ⟨-, n, hn, hother⟩ := h
    refine ⟨n, hn, fun info batches hinfo hplan => ?_⟩
    cases (hother info hinfo).symm.trans hplan
  step s e s' h hstep := by
    obtain ⟨n, hn, hfacts⟩ := h
    obtain ⟨batches, hbatches, rfl⟩ := hstep
    obtain ⟨n', hn', hd⟩ := KVController.delivered hn batches e.2 e.1
    exact ⟨n', hn', SyncFacts.delivered hbatches hfacts hd⟩

/-- The end message is handled only after all batches of its sync, since the last start. -/
def EndAfterBatches (a : WorkerAddress) (plan : SyncPlan) (s : SyncRun)
    (e : SyncMsg × List WorkerNode) : Prop :=
  ∀ info batches, e.1 = .finish info.syncId → s.syncInfo a = some info →
    plan info.syncId = some batches → ∀ b < batches.length, b ∈ info.receivedBatches

theorem complete_inductive :
    ((syncSystem a plan).restrict (EndAfterBatches a plan)).Inductive fun s =>
      Tracked a plan (fun _ info batches => info.state = .completed →
        ∀ b < batches.length, b ∈ info.receivedBatches) s.controller where
  init s h := by
    obtain ⟨-, n, hn, hother⟩ := h
    refine ⟨n, hn, fun info batches hinfo hplan => ?_⟩
    cases (hother info hinfo).symm.trans hplan
  step s e s' h hstep := by
    obtain ⟨n, hn, hall⟩ := h
    obtain ⟨hok, batches, hbatches, rfl⟩ := hstep
    obtain ⟨n', hn', hd⟩ := KVController.delivered hn batches e.2 e.1
    refine ⟨n', hn', fun info' batches' hinfo' hplan' hstate => ?_⟩
    obtain ⟨m, allWorkers⟩ := e
    cases hd with
    | start hb =>
      cases syncInfo_started.symm.trans hinfo'
      exact absurd hstate (by simp [WorkerSyncInfo.new])
    | batch hinfo hsyncing =>
      cases syncInfo_received.symm.trans hinfo'
      exact absurd (hsyncing.symm.trans hstate) (by simp)
    | @finish info hinfo =>
      cases hinfo'
      have hsync : s.syncInfo a = some info :=
        (getSyncInfo_of_getWorker hn).trans hinfo
      exact hok info batches' rfl hsync hplan'
    | same => exact hall info' batches' hinfo' hplan' hstate

/-! ### What a completed sync is worth -/

theorem SyncRun.isComplete_status (s : SyncRun) {allWorkers : List WorkerNode} {syncId : String}
    (hn : s.controller.registry.getWorker a.instanceId a.workerId = some n)
    (h : (s.status a allWorkers syncId).isComplete = true) :
    ∃ info, n.syncInfo = some info ∧ info.syncId = syncId ∧ info.state = .completed :=
  (KVController.isComplete_handleFullSyncStatus hn).mp h

theorem SyncRun.missingBatches_status {s : SyncRun} {info : WorkerSyncInfo}
    {allWorkers : List WorkerNode}
    (hn : s.controller.registry.getWorker a.instanceId a.workerId = some n)
    (hinfo : n.syncInfo = some info) :
    (s.status a allWorkers info.syncId).missingBatches =
      if info.state = .syncing then
        (range info.expectedBatchCount).filter fun b => b ∉ info.receivedBatches
      else [] := by
  show s.controller.registry.getMissingBatches a.instanceId a.workerId info.syncId = _
  unfold getMissingBatches
  rw [getSyncInfo_of_getWorker hn, hinfo]
  cases hstate : info.state <;> simp [hstate]

end runs

/-- **What `is_complete` is worth.**  In every run, a completed sync has received its end message,
and the registry has the keys of the batches received from the start to then, all of them from
the snapshot; no missing batch is reported any more.  While the sync is in progress, the status
names the missing batches.  In every run in which the end message is handled after all batches of
its sync, a completed sync has received all batches and the registry has the snapshot. -/
theorem full_sync_complete_means_end_received (a : WorkerAddress) (plan : SyncPlan) :
    (∀ s, (syncSystem a plan).Reachable s → ∀ syncId batches allWorkers,
      plan syncId = some batches → (s.status a allWorkers syncId).isComplete = true →
      .finish syncId ∈ s.handled ∧ (s.status a allWorkers syncId).missingBatches = [] ∧
        ∃ info, s.syncInfo a = some info ∧ info.syncId = syncId ∧
          (∀ b ∈ info.receivedBatches, .batch syncId b ∈ s.handled) ∧
          s.keys a = keysOf batches info.receivedBatches ∧
          s.keys a ⊆ batches.flatten.toFinset) ∧
    (∀ s, (syncSystem a plan).Reachable s → ∀ info batches allWorkers,
      s.syncInfo a = some info → info.state = .syncing → plan info.syncId = some batches →
      (s.status a allWorkers info.syncId).missingBatches =
        (List.range batches.length).filter fun b => b ∉ info.receivedBatches) ∧
    (∀ s, ((syncSystem a plan).restrict (EndAfterBatches a plan)).Reachable s →
      ∀ syncId batches allWorkers, plan syncId = some batches →
      (s.status a allWorkers syncId).isComplete = true →
      (∀ b < batches.length, .batch syncId b ∈ s.handled) ∧
        s.keys a = batches.flatten.toFinset) := by
  refine ⟨?_, ?_, ?_⟩
  · intro s hs syncId batches allWorkers hplan hcomplete
    obtain ⟨n, hn, hfacts⟩ := tracked_inductive.reachable hs
    obtain ⟨info, hinfo, rfl, hstate⟩ := s.isComplete_status hn hcomplete
    have hf := hfacts info batches hinfo hplan
    have hkeys : s.keys a = keysOf batches info.receivedBatches :=
      (getWorkerKvKeys_of_getWorker hn).trans hf.keys
    refine ⟨hf.completed hstate, ?_, info, ?_, rfl, hf.received, hkeys, ?_⟩
    · rw [SyncRun.missingBatches_status hn hinfo, hstate]
      exact if_neg (by simp)
    · exact (getSyncInfo_of_getWorker hn).trans hinfo
    · rw [hkeys]
      exact keysOf_subset
  · intro s hs info batches allWorkers hsync hstate hplan
    obtain ⟨n, hn, hfacts⟩ := tracked_inductive.reachable hs
    have hinfo : n.syncInfo = some info :=
      (getSyncInfo_of_getWorker hn).symm.trans hsync
    rw [SyncRun.missingBatches_status hn hinfo, if_pos hstate,
      (hfacts info batches hinfo hplan).expected]
  · intro s hs syncId batches allWorkers hplan hcomplete
    obtain ⟨n, hn, hfacts⟩ := tracked_inductive.reachable hs.of_restrict
    obtain ⟨info, hinfo, rfl, hstate⟩ := s.isComplete_status hn hcomplete
    obtain ⟨n', hn', hall⟩ := complete_inductive.reachable hs
    cases hn.symm.trans hn'
    have hreceived := hall info batches hinfo hplan hstate
    have hf := hfacts info batches hinfo hplan
    refine ⟨fun b hb => hf.received b (hreceived b hb), ?_⟩
    rw [SyncRun.keys, getWorkerKvKeys_of_getWorker hn, hf.keys, keysOf_all hreceived]

def oneWorker : WorkerAddress := ⟨"i1", 0, "LocalCPUBackend"⟩

def oneBatch : SyncPlan := fun syncId => if syncId = "s1" then some [[7]] else none

/-- The run in which the messages are handled in this order. -/
def syncAfter (msgs : List SyncMsg) : SyncRun :=
  msgs.foldl (fun s m => ⟨s.controller.deliver oneWorker [[7]] [] m, m :: s.handled⟩)
    ⟨{ registry := registerWorker {} "i1" 0 none }, []⟩

theorem syncAfter_nil : (syncSystem oneWorker oneBatch).init (syncAfter []) := by
  refine ⟨rfl, { workerId := 0, peerInitUrl := none }, ?_, fun info hinfo => by cases hinfo⟩
  simp [syncAfter, oneWorker]

/-- The end message comes last, and the registry has the key. -/
theorem full_sync_complete_means_end_received_in_order :
    ((syncAfter [.start "s1", .batch "s1" 0, .finish "s1"]).status oneWorker [] "s1").isComplete =
        true ∧
      (syncAfter [.start "s1", .batch "s1" 0, .finish "s1"]).keys oneWorker = {7} := by
  let S := (syncSystem oneWorker oneBatch).restrict (EndAfterBatches oneWorker oneBatch)
  have h₀ : S.Reachable (syncAfter []) := .init syncAfter_nil
  have h₁ : S.Reachable (syncAfter [.start "s1"]) :=
    h₀.step (e := (.start "s1", [])) ⟨(fun _ _ h => nomatch h), [[7]], rfl, rfl⟩
  have h₂ : S.Reachable (syncAfter [.start "s1", .batch "s1" 0]) :=
    h₁.step (e := (.batch "s1" 0, [])) ⟨(fun _ _ h => nomatch h), [[7]], rfl, rfl⟩
  have hinfo : (syncAfter [.start "s1", .batch "s1" 0]).syncInfo oneWorker =
      some ⟨"s1", .syncing, 1, 1, {0}, 1⟩ := by decide +kernel
  have hall : EndAfterBatches oneWorker oneBatch (syncAfter [.start "s1", .batch "s1" 0])
      (.finish "s1", []) := by
    intro info batches _ hsync hplan b hb
    cases hinfo.symm.trans hsync
    cases hplan
    simpa using hb
  have h₃ : S.Reachable (syncAfter [.start "s1", .batch "s1" 0, .finish "s1"]) :=
    h₂.step (e := (.finish "s1", [])) ⟨hall, [[7]], rfl, rfl⟩
  have hcomplete : ((syncAfter [.start "s1", .batch "s1" 0, .finish "s1"]).status oneWorker []
      "s1").isComplete = true := by decide +kernel
  exact ⟨hcomplete,
    ((full_sync_complete_means_end_received oneWorker oneBatch).2.2 _ h₃ "s1" [[7]] [] rfl
      hcomplete).2⟩

/-- The only batch is lost: the sync is complete, and the registry has no key. -/
theorem full_sync_complete_without_batch :
    (syncSystem oneWorker oneBatch).Reachable (syncAfter [.start "s1", .finish "s1"]) ∧
      ((syncAfter [.start "s1", .finish "s1"]).status oneWorker [] "s1").isComplete = true ∧
      SyncMsg.batch "s1" 0 ∉ (syncAfter [.start "s1", .finish "s1"]).handled ∧
      (syncAfter [.start "s1", .finish "s1"]).keys oneWorker = ∅ := by
  have h₀ : (syncSystem oneWorker oneBatch).Reachable (syncAfter []) := .init syncAfter_nil
  have h₁ : (syncSystem oneWorker oneBatch).Reachable (syncAfter [.start "s1"]) :=
    h₀.step (e := (.start "s1", [])) ⟨[[7]], rfl, rfl⟩
  have h₂ : (syncSystem oneWorker oneBatch).Reachable (syncAfter [.start "s1", .finish "s1"]) :=
    h₁.step (e := (.finish "s1", [])) ⟨[[7]], rfl, rfl⟩
  exact ⟨h₂, by decide +kernel, by decide +kernel, by decide +kernel⟩

end LMCache.Controller
