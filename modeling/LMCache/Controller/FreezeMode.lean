import Mathlib.Algebra.Order.Field.Rat
import LMCache.Controller.Cluster
import LMCache.Controller.RegistryMap

/-! # The end of freeze mode

After a restart the controller asks all workers for a full sync, and a worker leaves freeze mode
when a status message tells it that enough workers have completed theirs.  The decision is taken
over a list of the workers that is kept for some time.

* **References.**  The list has references to the nodes of the workers: a node that is still in the
  registry is read as it is now, and one that was deregistered as it was then (`NodeRef`).
* **Time.**  The list may expire at any moment, and the next status message then takes a new one.
* **Ghost.**  `FreezeRun.completed` are the workers that have completed a full sync since the
  restart and were not deregistered since.

A worker without a record of a sync counts as ready in `get_global_progress`, and so freeze mode
ends at once after a restart.  **Main result**: `freeze_ends_after_syncs`.  With a list that is up
to date and a record for every worker, the threshold is one of completed syncs. -/

namespace LMCache.Controller

open List

/-! ### The list of workers -/

namespace RegistryTree

/-- The workers of `_get_all_worker_nodes_fresh`. -/
def allWorkers (r : RegistryTree) : List (String × ℤ) :=
  r.instances.entries.flatMap fun e => e.2.workers.entries.map fun f => (e.1, f.1)

theorem getWorker_of_mem_allWorkers {r : RegistryTree} {a : String × ℤ} (h : a ∈ r.allWorkers) :
    ∃ n, r.getWorker a.1 a.2 = some n := by
  obtain ⟨e, he, ha⟩ := mem_flatMap.mp h
  obtain ⟨f, hf, rfl⟩ := mem_map.mp ha
  exact ⟨f.2, getWorker_eq_some.mpr
    ⟨e.2, Dict.get?_eq_some_iff.mpr he, Dict.get?_eq_some_iff.mpr hf⟩⟩

def markFailed (r : RegistryTree) (instanceId : String) (workerId : ℤ) : RegistryTree :=
  match r.getSyncInfo instanceId workerId with
  | none => r
  | some syncInfo =>
    (r.setSyncInfo instanceId workerId (some { syncInfo with state := .failed })).1

end RegistryTree

/-- A reference to a node: in the registry, or as it was when it left. -/
inductive NodeRef where
  | live (instanceId : String) (workerId : ℤ)
  | gone (node : WorkerNode)

def NodeRef.node (r : RegistryTree) : NodeRef → Option WorkerNode
  | .live instanceId workerId => r.getWorker instanceId workerId
  | .gone n => some n

def NodeRef.detach (r : RegistryTree) (instanceId : String) (workerId : ℤ) : NodeRef → NodeRef
  | .gone n => .gone n
  | .live i w =>
    if i = instanceId ∧ w = workerId then
      match r.getWorker i w with
      | some n => .gone n
      | none => .live i w
    else .live i w

/-! ### Runs -/

/-- The controller, its list of workers unless it has expired, and the ghost. -/
structure FreezeRun where
  controller : KVController
  cached : Option (List NodeRef)
  completed : Finset (String × ℤ)

inductive FreezeEvent where
  | register (instanceId : String) (workerId : ℤ) (peerInitUrl : Option String)
  | deregister (instanceId : String) (workerId : ℤ)
  | operations (msg : BatchedKVOperationMsg)
  | start (msg : FullSyncStartMsg)
  | batch (msg : FullSyncBatchMsg)
  | finish (msg : FullSyncEndMsg)
  | fail (instanceId : String) (workerId : ℤ)
  | expire
  | status (msg : FullSyncStatusMsg)

namespace FreezeRun

variable (s : FreezeRun)

def registry : RegistryTree := s.controller.registry

/-- What `_get_all_worker_nodes_fresh` returns. -/
def freshRefs : List NodeRef := s.registry.allWorkers.map fun a => .live a.1 a.2

/-- What `get_all_worker_nodes_cached` returns. -/
def refs : List NodeRef := s.cached.getD s.freshRefs

def nodes : List WorkerNode := s.refs.filterMap (NodeRef.node s.registry)

/-- The answer to a status message, and the controller after it. -/
def answer (msg : FullSyncStatusMsg) : KVController × FullSyncStatusRetMsg :=
  s.controller.handleFullSyncStatus s.nodes msg

def withRegistry (r : RegistryTree) : FreezeRun :=
  { s with controller := { s.controller with registry := r } }

def step (s : FreezeRun) : FreezeEvent → FreezeRun
  | .register instanceId workerId peerInitUrl =>
    s.withRegistry (s.registry.register instanceId workerId peerInitUrl)
  | .deregister instanceId workerId =>
    { s.withRegistry (s.registry.deregisterWorker instanceId workerId).1 with
      cached := s.cached.map (List.map (NodeRef.detach s.registry instanceId workerId))
      completed := s.completed.erase (instanceId, workerId) }
  | .operations msg => { s with controller := s.controller.handleBatchedKvOperations msg }
  | .start msg => { s with controller := (s.controller.handleFullSyncStart msg).1 }
  | .batch msg => { s with controller := s.controller.handleFullSyncBatch msg }
  | .finish msg =>
    { s with
      controller := s.controller.handleFullSyncEnd msg
      completed :=
        if (s.registry.completeSync msg.instanceId msg.workerId msg.syncId
          msg.actualTotalKeys).2 then insert (msg.instanceId, msg.workerId) s.completed
        else s.completed }
  | .fail instanceId workerId => s.withRegistry (s.registry.markFailed instanceId workerId)
  | .expire => { s with cached := none }
  | .status msg => { s with controller := (s.answer msg).1, cached := some s.refs }

/-- The controller after a restart: no worker is registered. -/
def restarted (completionThreshold : ℚ) : FreezeRun := ⟨{ completionThreshold }, none, ∅⟩

end FreezeRun

def freezeSystem (completionThreshold : ℚ) : LTS FreezeRun FreezeEvent where
  init s := s = .restarted completionThreshold
  step s e s' := s' = s.step e

/-! ### Records of completed syncs -/

namespace RegistryTree

/-- The record of the worker says that its sync is completed. -/
def CompletedAt (r : RegistryTree) (i : String) (w : ℤ) : Prop :=
  ∃ info, r.getSyncInfo i w = some info ∧ info.state = .completed

variable {r r' : RegistryTree} {i : String} {w : ℤ} {i₀ : String} {w₀ : ℤ}

theorem CompletedAt.of_update {n : WorkerNode}
    (hget : ∀ i w, r'.getWorker i w = if i = i₀ ∧ w = w₀ then some n else r.getWorker i w)
    (hn : ∀ info, n.syncInfo = some info → info.state ≠ .completed) (h : r'.CompletedAt i w) :
    r.CompletedAt i w := by
  obtain ⟨info, hinfo, hstate⟩ := h
  unfold getSyncInfo at hinfo
  rw [hget] at hinfo
  split_ifs at hinfo
  · exact absurd hstate (hn info hinfo)
  · exact ⟨info, hinfo, hstate⟩

theorem CompletedAt.of_same (hget : r'.getSyncInfo i w = r.getSyncInfo i w)
    (h : r'.CompletedAt i w) : r.CompletedAt i w := by
  unfold CompletedAt at h ⊢
  rwa [← hget]

theorem getSyncInfo_onWorker {f : WorkerNode → WorkerNode} (hf : ∀ n, (f n).syncInfo = n.syncInfo) :
    (r.onWorker i₀ w₀ f).1.getSyncInfo i w = r.getSyncInfo i w := by
  unfold getSyncInfo
  grind

theorem CompletedAt.of_register {url : Option String} (h : (r.register i₀ w₀ url).CompletedAt i w) :
    r.CompletedAt i w := by
  revert h
  fun_cases register r i₀ w₀ url <;> intro h
  case case1 =>
    have hsame : (r.clearWorkerKv i₀ w₀ none).1.getSyncInfo i w = r.getSyncInfo i w :=
      getSyncInfo_onWorker fun n => rfl
    exact h.of_same hsame
  case case2 => exact h.of_update (fun i w => getWorker_registerWorker) nofun

theorem CompletedAt.of_deregister (h : (r.deregisterWorker i₀ w₀).1.CompletedAt i w) :
    r.CompletedAt i w ∧ (i, w) ≠ (i₀, w₀) := by
  obtain ⟨info, hinfo, hstate⟩ := h
  unfold getSyncInfo at hinfo
  rw [getWorker_deregisterWorker] at hinfo
  split_ifs at hinfo with heq
  exact ⟨⟨info, hinfo, hstate⟩, fun h => heq (Prod.mk.inj h)⟩

theorem CompletedAt.of_markFailed (h : (r.markFailed i₀ w₀).CompletedAt i w) :
    r.CompletedAt i w := by
  revert h
  fun_cases markFailed r i₀ w₀ <;> intro h
  case case1 => exact h
  case case2 info hinfo =>
    obtain ⟨n, hw, -⟩ := exists_of_getSyncInfo hinfo
    have hget : ∀ i w, (r.setSyncInfo i₀ w₀ (some { info with state := .failed })).1.getWorker
        i w = if i = i₀ ∧ w = w₀ then
          some { n with syncInfo := some { info with state := .failed } }
        else r.getWorker i w := by
      intro i w
      rw [setSyncInfo, getWorker_onWorker, hw]
      rfl
    refine CompletedAt.of_update hget ?_ h
    rintro _ ⟨⟩ h
    cases h

end RegistryTree

namespace KVController

open RegistryTree

variable {c : KVController} {i : String} {w : ℤ}

theorem completedAt_of_operations {msg : BatchedKVOperationMsg}
    (h : (c.handleBatchedKvOperations msg).registry.CompletedAt i w) :
    c.registry.CompletedAt i w := by
  refine h.of_same ?_
  unfold getSyncInfo handleBatchedKvOperations
  split_ifs
  · rfl
  · rfl
  · rw [RegistryTree.getWorker_handleBatchedKvOperations]
    split_ifs with heq
    · rw [heq.1, heq.2]
      cases c.registry.getWorker msg.instanceId msg.workerId with
      | none => rfl
      | some n => exact WorkerNode.syncInfo_handleBatchedKvOperations
    · rfl

theorem completedAt_of_start {msg : FullSyncStartMsg}
    (h : (c.handleFullSyncStart msg).1.registry.CompletedAt i w) : c.registry.CompletedAt i w := by
  by_cases hblocks : ∀ n, c.registry.getWorker msg.instanceId msg.workerId = some n →
      n.Blocks msg.syncId
  · rwa [(handleFullSyncStart_refused hblocks).1] at h
  · obtain ⟨n, hn, hfree⟩ : ∃ n, c.registry.getWorker msg.instanceId msg.workerId = some n ∧
        ¬n.Blocks msg.syncId := by
      simpa using hblocks
    refine h.of_update (fun i w => (handleFullSyncStart_accepted hn hfree).2) ?_
    rw [WorkerNode.syncInfo_started]
    rintro _ ⟨⟩
    exact nofun

theorem completedAt_of_batch {msg : FullSyncBatchMsg}
    (h : (c.handleFullSyncBatch msg).registry.CompletedAt i w) : c.registry.CompletedAt i w := by
  by_cases hsync : ∃ n s, c.registry.getWorker msg.instanceId msg.workerId = some n ∧
      n.syncInfo = some s ∧ s.syncId = msg.syncId ∧ s.state = .syncing
  · obtain ⟨n, s, hn, hs, hid, hstate⟩ := hsync
    refine h.of_update (fun i w => handleFullSyncBatch_accepted hn hs hid hstate) ?_
    rw [WorkerNode.syncInfo_received]
    rintro _ ⟨⟩
    show s.state ≠ .completed
    rw [hstate]
    exact nofun
  · rwa [handleFullSyncBatch_refused fun n s hn hs hboth => hsync ⟨n, s, hn, hs, hboth⟩] at h

/-- **An end message** completes the sync of its worker if it is accepted, and no other. -/
theorem completedAt_of_finish {msg : FullSyncEndMsg}
    (h : (c.handleFullSyncEnd msg).registry.CompletedAt i w) :
    c.registry.CompletedAt i w ∨ ((i, w) = (msg.instanceId, msg.workerId) ∧
      (c.registry.completeSync msg.instanceId msg.workerId msg.syncId
        msg.actualTotalKeys).2 = true) := by
  by_cases hsync : ∃ n s, c.registry.getWorker msg.instanceId msg.workerId = some n ∧
      n.syncInfo = some s ∧ s.syncId = msg.syncId
  · obtain ⟨n, s, hn, hs, hid⟩ := hsync
    by_cases heq : i = msg.instanceId ∧ w = msg.workerId
    · refine Or.inr ⟨Prod.ext heq.1 heq.2, ?_⟩
      unfold completeSync
      rw [getSyncInfo_of_getWorker hn, hs]
      dsimp only
      rw [if_neg (not_not.mpr hid), setSyncInfo, onWorker_of_getWorker hn]
    · refine Or.inl (h.of_same ?_)
      unfold getSyncInfo
      rw [getWorker_handleFullSyncEnd hn hs hid, if_neg heq]
  · rw [handleFullSyncEnd_refused fun n s hn hs hid => hsync ⟨n, s, hn, hs, hid⟩] at h
    exact Or.inl h

end KVController

namespace FreezeRun

/-- A completed record belongs to a worker that has completed a sync. -/
def Recorded (s : FreezeRun) : Prop :=
  ∀ i w, s.registry.CompletedAt i w → (i, w) ∈ s.completed

variable {s : FreezeRun}

/-- **Every event** keeps the ghost. -/
theorem Recorded.step (h : s.Recorded) (e : FreezeEvent) : (s.step e).Recorded := by
  cases e with
  | register i₀ w₀ url => exact fun i w hc => h i w hc.of_register
  | deregister i₀ w₀ =>
    intro i w hc
    obtain ⟨hc, hne⟩ := RegistryTree.CompletedAt.of_deregister hc
    exact Finset.mem_erase.mpr ⟨hne, h i w hc⟩
  | operations msg => exact fun i w hc => h i w (KVController.completedAt_of_operations hc)
  | start msg => exact fun i w hc => h i w (KVController.completedAt_of_start hc)
  | batch msg => exact fun i w hc => h i w (KVController.completedAt_of_batch hc)
  | finish msg =>
    intro i w hc
    show (i, w) ∈ (if _ then _ else _)
    rcases KVController.completedAt_of_finish hc with hc | ⟨heq, haccepted⟩
    · split_ifs
      · exact Finset.mem_insert_of_mem (h i w hc)
      · exact h i w hc
    · rw [show (s.registry.completeSync _ _ _ _).2 = true from haccepted, if_pos rfl, heq]
      exact Finset.mem_insert_self _ _
  | fail i₀ w₀ => exact fun i w hc => h i w hc.of_markFailed
  | expire => exact h
  | status msg =>
    intro i w hc
    refine h i w (hc.of_same ?_)
    show RegistryTree.getSyncInfo (s.answer msg).1.registry i w = _
    rw [answer, KVController.registry_handleFullSyncStatus]
    rfl

theorem recorded_reachable {completionThreshold : ℚ}
    (h : (freezeSystem completionThreshold).Reachable s) : s.Recorded := by
  refine h.invariant ?_ ?_
  · rintro s rfl i w ⟨info, hinfo, -⟩
    cases hinfo
  · rintro s e _ hs rfl
    exact hs.step e

/-! ### The decision -/

theorem canExitFreeze_answer (msg : FullSyncStatusMsg) :
    (s.answer msg).2.canExitFreeze =
      decide (s.controller.completionThreshold ≤ getGlobalProgress s.nodes) := by
  unfold answer KVController.handleFullSyncStatus KVController.getSyncStatus
    KVController.canExitFreeze
  dsimp only
  split_ifs <;> rfl

theorem needFullSyncAll_answer {msg : FullSyncStatusMsg} (hon : s.controller.needFullSyncAll = true)
    (hoff : (s.answer msg).1.needFullSyncAll = false) : (s.answer msg).2.canExitFreeze = true := by
  rw [canExitFreeze_answer]
  unfold answer KVController.handleFullSyncStatus KVController.getSyncStatus
    KVController.canExitFreeze at hoff
  grind

/-- The registered workers that have completed a sync since the restart. -/
def synced (s : FreezeRun) : ℕ := s.registry.allWorkers.countP fun a => a ∈ s.completed

theorem length_nodes (hlist : s.refs = s.freshRefs) :
    s.nodes.length = s.registry.allWorkers.length := by
  have hnodes : s.nodes = s.registry.allWorkers.filterMap fun a =>
      s.registry.getWorker a.1 a.2 := by
    rw [nodes, hlist, freshRefs, filterMap_map]
    rfl
  rw [hnodes, filterMap_length_eq_length]
  intro a ha
  exact Option.isSome_iff_exists.mpr (RegistryTree.getWorker_of_mem_allWorkers ha)

theorem countP_nodes_le (hrecorded : s.Recorded) (hlist : s.refs = s.freshRefs)
    (hrecords : ∀ a ∈ s.registry.allWorkers, s.registry.getSyncInfo a.1 a.2 ≠ none) :
    s.nodes.countP (fun n =>
      match n.syncInfo with
      | none => true
      | some syncInfo => syncInfo.state = .completed) ≤ s.synced := by
  rw [nodes, hlist, freshRefs, filterMap_map, countP_filterMap]
  refine countP_mono_left fun a ha hready => ?_
  obtain ⟨n, hn⟩ := RegistryTree.getWorker_of_mem_allWorkers ha
  have hrecord := hrecords a ha
  rw [RegistryTree.getSyncInfo_of_getWorker hn] at hrecord
  obtain ⟨info, hinfo⟩ := Option.ne_none_iff_exists'.mp hrecord
  have hnode : NodeRef.node s.registry (.live a.1 a.2) = some n := hn
  rw [Function.comp_apply, hnode] at hready
  simp only [Option.map_some, hinfo, Option.getD_some] at hready
  have hcompleted : s.registry.CompletedAt a.1 a.2 :=
    ⟨info, by rw [RegistryTree.getSyncInfo_of_getWorker hn, hinfo], by simpa using hready⟩
  simpa using hrecorded a.1 a.2 hcompleted

/-- **Freeze mode ends after syncs.**  In every history after a restart, let a status message be
answered over a list of workers that is up to date, while every registered worker has a record of a
sync.  If the answer allows to leave freeze mode, or `need_full_sync_all` is switched off, then at
least the given part of the registered workers has completed a full sync. -/
theorem freeze_ends_after_syncs {completionThreshold : ℚ}
    (h : (freezeSystem completionThreshold).Reachable s) (msg : FullSyncStatusMsg)
    (hlist : s.refs = s.freshRefs)
    (hrecords : ∀ a ∈ s.registry.allWorkers, s.registry.getSyncInfo a.1 a.2 ≠ none)
    (hexit : (s.answer msg).2.canExitFreeze = true ∨
      (s.controller.needFullSyncAll = true ∧
        (s.step (.status msg)).controller.needFullSyncAll = false)) :
    s.controller.completionThreshold * s.registry.allWorkers.length ≤ s.synced := by
  have hexit : (s.answer msg).2.canExitFreeze = true :=
    hexit.elim id fun hflag => needFullSyncAll_answer hflag.1 hflag.2
  have hready := countP_nodes_le (recorded_reachable h) hlist hrecords
  rw [canExitFreeze_answer, decide_eq_true_iff, getGlobalProgress, length_nodes hlist] at hexit
  by_cases hnone : s.registry.allWorkers.length = 0
  · simp_all
  · have hpos : (0 : ℚ) < s.registry.allWorkers.length :=
      Nat.cast_pos.mpr (Nat.pos_of_ne_zero hnone)
    rw [if_neg hnone] at hexit
    exact ((le_div_iff₀ hpos).mp hexit).trans (Nat.cast_le.mpr hready)

def history (es : List FreezeEvent) : FreezeRun := es.foldl FreezeRun.step (.restarted (4 / 5))

theorem reachable_history (es : List FreezeEvent) : (freezeSystem (4 / 5)).Reachable (history es) :=
  LTS.Reachable.foldl (fun _ _ => rfl) es (.init rfl)

/-- Worker `w` registers and starts a sync. -/
def joins (w : ℤ) : List FreezeEvent :=
  [.register "i" w none, .start ⟨"i", w, "LocalCPUBackend", "s", 0, 0⟩]

def finishes (w : ℤ) : FreezeEvent := .finish ⟨"i", w, "LocalCPUBackend", "s", 0⟩

def asks (w : ℤ) : FullSyncStatusMsg := ⟨"i", w, "s"⟩

/-- Five workers sync, and four of them have completed. -/
theorem freeze_ends_after_four_of_five :
    let s := history ((List.range 5).flatMap (fun w => joins w) ++
      (List.range 4).map fun w => finishes w)
    s.registry.allWorkers.length = 5 ∧ s.synced = 4 ∧
      (s.answer (asks 0)).2.canExitFreeze = true ∧
      s.controller.completionThreshold * s.registry.allWorkers.length ≤ s.synced := by
  refine ⟨by decide +kernel, by decide +kernel, by decide +kernel, ?_⟩
  exact freeze_ends_after_syncs (reachable_history _) (asks 0) rfl (by decide +kernel)
    (Or.inl (by decide +kernel))

/-- **Exit without syncs.**  A worker has just registered and no sync was started: the answer allows
the exit and the flag is switched off.  Or all workers have records, but the list was taken when
there was only one: the exit is allowed after one of five syncs. -/
theorem freeze_ends_without_syncs :
    (∃ s, (freezeSystem (4 / 5)).Reachable s ∧ s.controller.needFullSyncAll = true ∧
      (s.answer (asks 0)).2.canExitFreeze = true ∧
      (s.step (.status (asks 0))).controller.needFullSyncAll = false ∧
      s.synced = 0 ∧ s.registry.allWorkers.length = 1) ∧
    ∃ s, (freezeSystem (4 / 5)).Reachable s ∧
      (∀ a ∈ s.registry.allWorkers, s.registry.getSyncInfo a.1 a.2 ≠ none) ∧
      (s.answer (asks 0)).2.canExitFreeze = true ∧
      s.synced = 1 ∧ s.registry.allWorkers.length = 5 := by
  refine ⟨⟨_, reachable_history [.register "i" 0 none], by decide +kernel, by decide +kernel,
    by decide +kernel, by decide +kernel, by decide +kernel⟩, ?_⟩
  refine ⟨_, reachable_history (joins 0 ++ [.status (asks 0), finishes 0] ++ joins 1 ++ joins 2 ++
    joins 3 ++ joins 4), ?_⟩
  exact ⟨by decide +kernel, by decide +kernel, by decide +kernel, by decide +kernel⟩

end FreezeRun

end LMCache.Controller
