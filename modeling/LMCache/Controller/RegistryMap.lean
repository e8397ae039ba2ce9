import LMCache.Controller.Registry

/-! # The registry as a flat map

What the registry is for: it says which worker of which instance holds which chunk hashes at
which location.  `RegistryMap` is that map, with no tree, no lazily created sets and no order;
`RegistryMap.replay` says what an operation means for it.

* `RegistryTree.view` reads a tree as a map, and `view_apply` is the simulation: an operation on
  the tree is the operation on the map, on registered, unknown and removed workers alike.
* `RegistryTree.Tidy` is what every operation keeps of the tree: the nodes carry the names they
  are stored under, and no empty set is stored.
* `RegistryTree.Represents` collects what the queries of a tree say about a map; the main theorem
  `registry_represents_replay` has it for every sequence of operations. -/

namespace LMCache.Controller

/-! ### The abstract map -/

/-- What there is to know about a registered worker. -/
structure Holding where
  /-- the hashes at each location -/
  keys : String → Set ℤ
  /-- the worker is in the middle of a full sync -/
  syncing : Prop

/-- The worker of an instance, when it is registered. -/
def RegistryMap := String → ℤ → Option Holding

inductive RegistryOp where
  | registerWorker (instanceId : String) (workerId : ℤ) (peerInitUrl : Option String)
  | deregisterWorker (instanceId : String) (workerId : ℤ)
  | clearWorkerKv (instanceId : String) (workerId : ℤ) (location : Option String)
  | clearAllWorkerKv (instanceId : String) (workerId : ℤ)
  | handleBatchedKvOperations (msg : BatchedKVOperationMsg) (isFullSync : Bool)
  | setSyncInfo (instanceId : String) (workerId : ℤ) (info : Option WorkerSyncInfo)

namespace Holding

def empty : Holding := ⟨fun _ => ∅, False⟩

/-- Forget the hashes of one location, or of all. -/
def clear (e : Holding) (location : Option String) : Holding :=
  { e with keys := fun l => {h | h ∈ e.keys l ∧ ¬ (location = none ∨ location = some l)} }

/-- Admitting adds a hash, evicting takes it away. -/
def replayOp (keys : Set ℤ) (op : KVOpEvent) : Set ℤ :=
  match op.opType with
  | .admitKey => insert op.key keys
  | .evictKey => keys \ {op.key}

open Classical in
/-- A batch is replayed at its location; during a full sync only the batches of the sync are. -/
noncomputable def replay (e : Holding) (msg : BatchedKVOperationMsg) (isFullSync : Bool) :
    Holding :=
  if e.syncing ∧ isFullSync = false then e
  else
    { e with keys := fun l =>
        if l = msg.location then msg.operations.foldl replayOp (e.keys l) else e.keys l }

end Holding

namespace RegistryMap

def empty : RegistryMap := fun _ _ => none

/-- The hashes a worker holds at a location; an unregistered worker holds nothing. -/
def held (m : RegistryMap) (i : String) (w : ℤ) (l : String) : Set ℤ :=
  match m i w with
  | none => ∅
  | some e => e.keys l

def change (m : RegistryMap) (i : String) (w : ℤ) (f : Option Holding → Option Holding) :
    RegistryMap :=
  fun i' w' => if i' = i ∧ w' = w then f (m i w) else m i' w'

noncomputable def replay (m : RegistryMap) : RegistryOp → RegistryMap
  | .registerWorker i w _ => m.change i w fun _ => some Holding.empty
  | .deregisterWorker i w => m.change i w fun _ => none
  | .clearWorkerKv i w location => m.change i w (Option.map fun e => e.clear location)
  | .clearAllWorkerKv i w => m.change i w (Option.map fun e => e.clear none)
  | .handleBatchedKvOperations msg isFullSync =>
    m.change msg.instanceId msg.workerId (Option.map fun e => e.replay msg isFullSync)
  | .setSyncInfo i w info =>
    m.change i w (Option.map fun e =>
      { e with syncing := ∃ s, info = some s ∧ s.state = .syncing })

end RegistryMap

/-! ### The tree as a map -/

def RegistryTree.apply (r : RegistryTree) : RegistryOp → RegistryTree
  | .registerWorker i w url => r.registerWorker i w url
  | .deregisterWorker i w => (r.deregisterWorker i w).1
  | .clearWorkerKv i w location => (r.clearWorkerKv i w location).1
  | .clearAllWorkerKv i w => (r.clearAllWorkerKv i w).1
  | .handleBatchedKvOperations msg isFullSync => (r.handleBatchedKvOperations msg isFullSync).1
  | .setSyncInfo i w info => (r.setSyncInfo i w info).1

def WorkerNode.view (n : WorkerNode) : Holding := ⟨fun l => n.getKvKeys l, n.isSyncing = true⟩

def RegistryTree.view (r : RegistryTree) : RegistryMap :=
  fun i w => (r.getWorker i w).map WorkerNode.view

namespace WorkerNode
variable {n : WorkerNode}

theorem isSyncing_iff : n.isSyncing = true ↔ ∃ s, n.syncInfo = some s ∧ s.state = .syncing := by
  unfold isSyncing
  cases n.syncInfo <;> simp

theorem coe_apply (keys : Finset ℤ) (op : KVOpEvent) :
    ((op.apply keys : Finset ℤ) : Set ℤ) = Holding.replayOp keys op := by
  unfold KVOpEvent.apply Holding.replayOp
  grind

theorem coe_foldl_apply (ops : List KVOpEvent) (keys : Finset ℤ) :
    ((ops.foldl KVOpEvent.apply keys : Finset ℤ) : Set ℤ) = ops.foldl Holding.replayOp keys := by
  induction ops generalizing keys with
  | nil => rfl
  | cons op ops ih => rw [List.foldl_cons, List.foldl_cons, ih, coe_apply]

theorem view_clearKv (n : WorkerNode) (location : Option String) :
    (n.clearKv location).view = n.view.clear location := by
  cases location with
  | none =>
    unfold view Holding.clear
    congr 1
    funext l
    simp [clearKv, getKvKeys]
  | some loc =>
    unfold view Holding.clear
    congr 1
    funext l
    by_cases h : l = loc
    · simp [clearKv, getKvKeys, h]
    · simp [clearKv, getKvKeys, h, Ne.symm h]

theorem view_handleBatchedKvOperations (n : WorkerNode) (msg : BatchedKVOperationMsg)
    (isFullSync : Bool) :
    (n.handleBatchedKvOperations msg isFullSync).1.view = n.view.replay msg isFullSync := by
  unfold Holding.replay
  by_cases h : n.isSyncing = true ∧ isFullSync = false
  · rw [if_pos (show n.view.syncing ∧ _ from h),
      handleBatchedKvOperations_rejected (by simp [h.1, h.2])]
  · have hopen : (n.isSyncing && !isFullSync) = false := by
      grind
    rw [if_neg (show ¬ (n.view.syncing ∧ _) from h)]
    unfold view
    congr 1
    · funext l
      rw [getKvKeys_handleBatchedKvOperations hopen]
      split_ifs with hl
      · rw [coe_foldl_apply, hl]
      · rfl
    · rw [isSyncing, syncInfo_handleBatchedKvOperations, isSyncing]

end WorkerNode

namespace RegistryTree
variable {r : RegistryTree}

theorem view_onWorker {f : WorkerNode → WorkerNode} {g : Holding → Holding}
    (hfg : ∀ n : WorkerNode, (f n).view = g n.view) (i : String) (w : ℤ) :
    (r.onWorker i w f).1.view = r.view.change i w (Option.map g) := by
  funext i' w'
  simp only [view, RegistryMap.change, getWorker_onWorker]
  split_ifs
  · cases r.getWorker i w with
    | none => rfl
    | some n => exact congrArg some (hfg n)
  · rfl

/-- **Simulation**: an operation on the tree is the operation on the map. -/
theorem view_apply (op : RegistryOp) : (r.apply op).view = r.view.replay op := by
  cases op with
  | registerWorker i w url =>
    have hnew : WorkerNode.view { workerId := w, peerInitUrl := url } = Holding.empty := by
      unfold WorkerNode.view Holding.empty
      congr 1
      · simp [WorkerNode.getKvKeys]
      · simp [WorkerNode.isSyncing]
    funext i' w'
    simp only [view, apply, RegistryMap.replay, RegistryMap.change, getWorker_registerWorker]
    grind
  | deregisterWorker i w =>
    funext i' w'
    simp only [view, apply, RegistryMap.replay, RegistryMap.change, getWorker_deregisterWorker]
    split_ifs <;> rfl
  | clearWorkerKv i w location => exact view_onWorker (fun n => n.view_clearKv location) i w
  | clearAllWorkerKv i w => exact view_onWorker (fun n => n.view_clearKv none) i w
  | handleBatchedKvOperations msg isFullSync =>
    funext i w
    simp only [view, apply, RegistryMap.replay, RegistryMap.change,
      getWorker_handleBatchedKvOperations]
    split_ifs
    · cases r.getWorker msg.instanceId msg.workerId with
      | none => rfl
      | some n => exact congrArg some (n.view_handleBatchedKvOperations msg isFullSync)
    · rfl
  | setSyncInfo i w info =>
    refine view_onWorker (fun n => ?_) i w
    unfold WorkerNode.view
    congr 1
    exact propext WorkerNode.isSyncing_iff

end RegistryTree

/-! ### What every operation keeps -/

def WorkerNode.Tidy (n : WorkerNode) : Prop :=
  ∀ l keys, n.kvStore.get? l = some keys → keys.Nonempty

/-- Every instance carries the name it is stored under. -/
def Labelled (instances : Dict String InstanceNode) : Prop :=
  ∀ i inst, instances.get? i = some inst → inst.instanceId = i

structure RegistryTree.Tidy (r : RegistryTree) : Prop where
  labelled : Labelled r.instances
  worker : ∀ i w n, r.getWorker i w = some n → n.Tidy

namespace Labelled
variable {d : Dict String InstanceNode} {i : String}

theorem get (h : Labelled d) {inst : InstanceNode} (hget : d.get? i = some inst) :
    inst.instanceId = i := h i inst hget

theorem set (h : Labelled d) (inst : InstanceNode) (hinst : inst.instanceId = i) :
    Labelled (d.set i inst) := by
  intro i' inst' hget
  rw [Dict.get?_set] at hget
  split_ifs at hget with hi
  · rw [← Option.some.inj hget, hinst, hi]
  · exact h.get hget

theorem erase (h : Labelled d) : Labelled (d.erase i) := by
  intro i' inst' hget
  rw [Dict.get?_erase] at hget
  split_ifs at hget
  exact h.get hget

theorem modify (h : Labelled d) {f : InstanceNode → InstanceNode}
    (hf : ∀ inst, (f inst).instanceId = inst.instanceId) : Labelled (d.modify i f) := by
  intro i' inst hget
  rw [Dict.get?_modify] at hget
  split_ifs at hget with hi
  · obtain ⟨inst', hinst', rfl⟩ := Option.map_eq_some_iff.mp hget
    rw [hf, hi]
    exact h.get hinst'
  · exact h.get hget

end Labelled

namespace WorkerNode

theorem tidy_clearKv (n : WorkerNode) (h : n.Tidy) (location : Option String) :
    (n.clearKv location).Tidy := by
  intro l keys hget
  cases location with
  | none => exact absurd hget (by simp [clearKv])
  | some loc =>
    have hn : n.kvStore.get? l = some keys := by
      by_cases hl : l = loc
      · exact absurd hget (by simp [clearKv, hl])
      · simpa [clearKv, hl] using hget
    exact h l keys hn

theorem tidy_handleBatchedKvOperations (n : WorkerNode) (h : n.Tidy)
    (msg : BatchedKVOperationMsg) (isFullSync : Bool) :
    (n.handleBatchedKvOperations msg isFullSync).1.Tidy := by
  intro l keys hget
  cases hrej : n.isSyncing && !isFullSync with
  | true =>
    rw [handleBatchedKvOperations_rejected hrej] at hget
    exact h l keys hget
  | false =>
    rw [get?_handleBatchedKvOperations hrej] at hget
    split_ifs at hget with hl
    · grind
    · exact h l keys hget

end WorkerNode

namespace RegistryTree
variable {r : RegistryTree}

theorem Tidy.onWorker (h : r.Tidy) {f : WorkerNode → WorkerNode}
    (hf : ∀ n : WorkerNode, n.Tidy → (f n).Tidy) (i : String) (w : ℤ) :
    (r.onWorker i w f).1.Tidy := by
  constructor
  · fun_cases onWorker
    · exact h.labelled
    · exact h.labelled.modify fun inst => rfl
  · intro i' w' n hn
    rw [getWorker_onWorker] at hn
    split_ifs at hn with heq
    · obtain ⟨n', hn', rfl⟩ := Option.map_eq_some_iff.mp hn
      exact hf n' (h.worker i w n' hn')
    · exact h.worker i' w' n hn

theorem Tidy.registerWorker (h : r.Tidy) (i : String) (w : ℤ) (url : Option String) :
    (r.registerWorker i w url).Tidy := by
  constructor
  · unfold RegistryTree.registerWorker getOrCreateInstance
    cases hinst : r.instances.get? i with
    | none =>
      have hnew : Labelled (r.instances.set i { instanceId := i }) := h.labelled.set _ rfl
      exact hnew.set _ rfl
    | some inst =>
      have hlabel := h.labelled.get hinst
      exact h.labelled.set _ hlabel
  · intro i' w' n hn
    rw [getWorker_registerWorker] at hn
    split_ifs at hn
    · intro l keys hget
      grind
    · exact h.worker i' w' n hn

theorem Tidy.deregisterWorker (h : r.Tidy) (i : String) (w : ℤ) :
    (r.deregisterWorker i w).1.Tidy := by
  constructor
  · fun_cases RegistryTree.deregisterWorker r i w
    case case1 => exact h.labelled
    case case2 hinst _ _ _ => exact h.labelled.set _ (h.labelled.get hinst :)
    case case3 => exact h.labelled.erase
  · intro i' w' n hn
    rw [getWorker_deregisterWorker] at hn
    split_ifs at hn
    exact h.worker i' w' n hn

theorem Tidy.handleBatchedKvOperations (h : r.Tidy) (msg : BatchedKVOperationMsg)
    (isFullSync : Bool) : (r.handleBatchedKvOperations msg isFullSync).1.Tidy := by
  constructor
  · fun_cases handleBatchedKvOperations
    · exact h.labelled
    · exact h.labelled.modify fun inst => rfl
  · intro i w n hn
    rw [getWorker_handleBatchedKvOperations] at hn
    split_ifs at hn
    · obtain ⟨n', hn', rfl⟩ := Option.map_eq_some_iff.mp hn
      exact n'.tidy_handleBatchedKvOperations (h.worker _ _ n' hn') msg isFullSync
    · exact h.worker i w n hn

/-- **One operation** keeps the tree tidy. -/
theorem Tidy.apply (h : r.Tidy) (op : RegistryOp) : (r.apply op).Tidy := by
  cases op with
  | registerWorker i w url => exact h.registerWorker i w url
  | deregisterWorker i w => exact h.deregisterWorker i w
  | clearWorkerKv i w location => exact h.onWorker (fun n hn => n.tidy_clearKv hn location) i w
  | clearAllWorkerKv i w => exact h.onWorker (fun n hn => n.tidy_clearKv hn none) i w
  | handleBatchedKvOperations msg isFullSync =>
    exact h.handleBatchedKvOperations msg isFullSync
  | setSyncInfo i w info =>
    exact h.onWorker (f := fun n => { n with syncInfo := info }) (fun n hn => hn) i w

end RegistryTree

/-! ### Queries -/

namespace WorkerNode
variable {n : WorkerNode} {key : ℤ}

theorem mem_getKvKeys {l : String} :
    key ∈ n.getKvKeys l ↔ ∃ keys, n.kvStore.get? l = some keys ∧ key ∈ keys := by
  unfold getKvKeys
  cases n.kvStore.get? l <;> simp

theorem hasKv_iff {l : String} : n.hasKv l key = true ↔ key ∈ n.getKvKeys l := by
  unfold hasKv getKvKeys
  grind

theorem findKeySimple_holds {info : KVChunkInfo} (h : n.findKeySimple key = some info) :
    key ∈ n.getKvKeys info.location := by
  obtain ⟨l, keys, hget, hinfo⟩ := Dict.exists_of_findSome? h
  split_ifs at hinfo with hmem
  rw [← Option.some.inj hinfo]
  exact mem_getKvKeys.mpr ⟨keys, hget, hmem⟩

theorem isSome_findKeySimple : (n.findKeySimple key).isSome ↔ ∃ l, key ∈ n.getKvKeys l := by
  unfold findKeySimple
  rw [Dict.isSome_findSome?]
  refine exists_congr fun l => ?_
  rw [mem_getKvKeys]
  simp

theorem encard_getKvKeys : {p : String × ℤ | p.2 ∈ n.getKvKeys p.1}.encard = n.getKvCount := by
  simp only [mem_getKvKeys]
  exact Dict.encard_pairs (fun keys => Set.encard_coe_eq_coe_finsetCard keys) n.kvStore

end WorkerNode

namespace InstanceNode
variable {inst : InstanceNode} {key : ℤ}

theorem findKeySimple_holds {info : KVChunkInfo} (h : inst.findKeySimple key = some info) :
    info.instanceId = inst.instanceId ∧ ∃ n, inst.workers.get? info.workerId = some n ∧
      key ∈ n.getKvKeys info.location := by
  obtain ⟨w, n, hget, hinfo⟩ := Dict.exists_of_findSome? h
  obtain ⟨found, hfound, rfl⟩ := Option.map_eq_some_iff.mp hinfo
  have hmem : key ∈ n.getKvKeys found.location := WorkerNode.findKeySimple_holds hfound
  exact ⟨rfl, n, hget, hmem⟩

theorem isSome_findKeySimple : (inst.findKeySimple key).isSome ↔
    ∃ w n, inst.workers.get? w = some n ∧ ∃ l, key ∈ n.getKvKeys l := by
  unfold findKeySimple
  rw [Dict.isSome_findSome?]
  simp only [Option.isSome_map, WorkerNode.isSome_findKeySimple]

theorem encard_workers :
    {p : ℤ × String × ℤ | ∃ n, inst.workers.get? p.1 = some n ∧
      p.2.2 ∈ n.getKvKeys p.2.1}.encard = inst.getTotalKvCount :=
  Dict.encard_pairs (fun _ => WorkerNode.encard_getKvKeys) inst.workers

end InstanceNode

namespace RegistryTree
variable {r : RegistryTree} {key : ℤ}

theorem getWorker_eq_some {i : String} {w : ℤ} {n : WorkerNode} :
    r.getWorker i w = some n ↔
      ∃ inst, r.instances.get? i = some inst ∧ inst.workers.get? w = some n := by
  unfold getWorker
  grind

theorem mem_getWorkerKvKeys {i : String} {w : ℤ} {l : String} :
    key ∈ r.getWorkerKvKeys i w l ↔ ∃ n, r.getWorker i w = some n ∧ key ∈ n.getKvKeys l := by
  unfold getWorkerKvKeys
  grind

theorem findKv_holds (h : r.Tidy) {ex : Option String} {info : KVChunkInfo}
    (hfind : r.findKv key ex = some info) :
    ex ≠ some info.instanceId ∧
      key ∈ r.getWorkerKvKeys info.instanceId info.workerId info.location := by
  obtain ⟨i, inst, hget, hinfo⟩ := Dict.exists_of_findSome? hfind
  split_ifs at hinfo with hex
  obtain ⟨hid, n, hn, hmem⟩ := InstanceNode.findKeySimple_holds hinfo
  rw [h.labelled.get hget] at hid
  rw [hid]
  exact ⟨hex, mem_getWorkerKvKeys.mpr ⟨n, getWorker_eq_some.mpr ⟨inst, hget, hn⟩, hmem⟩⟩

theorem isSome_findKv {ex : Option String} : (r.findKv key ex).isSome ↔
    ∃ i w l, ex ≠ some i ∧ key ∈ r.getWorkerKvKeys i w l := by
  unfold findKv
  rw [Dict.isSome_findSome?]
  constructor
  · rintro ⟨i, inst, hget, hsome⟩
    split_ifs at hsome with hex
    · exact absurd hsome (by simp)
    · obtain ⟨w, n, hn, l, hmem⟩ := InstanceNode.isSome_findKeySimple.mp hsome
      exact ⟨i, w, l, hex,
        mem_getWorkerKvKeys.mpr ⟨n, getWorker_eq_some.mpr ⟨inst, hget, hn⟩, hmem⟩⟩
  · rintro ⟨i, w, l, hex, hmem⟩
    obtain ⟨n, hn, hkey⟩ := mem_getWorkerKvKeys.mp hmem
    obtain ⟨inst, hinst, hworker⟩ := getWorker_eq_some.mp hn
    refine ⟨i, inst, hinst, ?_⟩
    rw [if_neg hex]
    exact InstanceNode.isSome_findKeySimple.mpr ⟨w, n, hworker, l, hkey⟩

theorem encard_getWorkerKvKeys :
    {p : String × ℤ × String × ℤ | p.2.2.2 ∈ r.getWorkerKvKeys p.1 p.2.1 p.2.2.1}.encard =
      r.getTotalKvCount := by
  have hheld : {p : String × ℤ × String × ℤ | p.2.2.2 ∈ r.getWorkerKvKeys p.1 p.2.1 p.2.2.1} =
      {p | ∃ inst, r.instances.get? p.1 = some inst ∧
        ∃ n, inst.workers.get? p.2.1 = some n ∧ p.2.2.2 ∈ n.getKvKeys p.2.2.1} := by
    ext ⟨i, w, l, k⟩
    refine mem_getWorkerKvKeys.trans ?_
    constructor
    · rintro ⟨n, hn, hmem⟩
      obtain ⟨inst, hinst, hworker⟩ := getWorker_eq_some.mp hn
      exact ⟨inst, hinst, n, hworker, hmem⟩
    · rintro ⟨inst, hinst, n, hworker, hmem⟩
      exact ⟨n, getWorker_eq_some.mpr ⟨inst, hinst, hworker⟩, hmem⟩
  rw [hheld]
  exact Dict.encard_pairs (fun _ => InstanceNode.encard_workers) r.instances

theorem held_view (i : String) (w : ℤ) (l : String) :
    r.view.held i w l = r.getWorkerKvKeys i w l := by
  unfold view RegistryMap.held getWorkerKvKeys
  dsimp only
  cases r.getWorker i w with
  | none => simp
  | some n => rfl

/-! ### The registry represents the map -/

/-- The queries of the tree, as statements about a map. -/
structure Represents (r : RegistryTree) (m : RegistryMap) : Prop where
  getWorker : ∀ i w, (r.getWorker i w).isSome ↔ (m i w).isSome
  hasKv : ∀ i w n, r.getWorker i w = some n →
    ∀ l key, n.hasKv l key = true ↔ key ∈ m.held i w l
  getWorkerKvKeys : ∀ i w l, (r.getWorkerKvKeys i w l : Set ℤ) = m.held i w l
  getTotalKvCount : (r.getTotalKvCount : ℕ∞) =
    {p : String × ℤ × String × ℤ | p.2.2.2 ∈ m.held p.1 p.2.1 p.2.2.1}.encard
  /-- no empty set is kept -/
  nonempty : ∀ i w n, r.getWorker i w = some n →
    ∀ l keys, (l, keys) ∈ n.kvStore.entries → keys.Nonempty
  findKv_isSome : ∀ key ex, (r.findKv key ex).isSome ↔
    ∃ i w l, ex ≠ some i ∧ key ∈ m.held i w l
  /-- the result names a holder and a place where it holds the key -/
  findKv_holder : ∀ key ex info, r.findKv key ex = some info →
    ex ≠ some info.instanceId ∧ key ∈ m.held info.instanceId info.workerId info.location

theorem Tidy.represents_view (h : r.Tidy) : r.Represents r.view where
  getWorker i w := by rw [view, Option.isSome_map]
  hasKv i w n hn l key := by
    rw [WorkerNode.hasKv_iff, held_view, getWorkerKvKeys_of_getWorker hn, Finset.mem_coe]
  getWorkerKvKeys i w l := (held_view i w l).symm
  getTotalKvCount := by
    simp only [held_view, Finset.mem_coe]
    exact encard_getWorkerKvKeys.symm
  nonempty i w n hn l keys hmem := h.worker i w n hn l keys (Dict.get?_eq_some_iff.mpr hmem)
  findKv_isSome key ex := by
    simp only [held_view, Finset.mem_coe]
    exact isSome_findKv
  findKv_holder key ex info hfind := by
    rw [held_view, Finset.mem_coe]
    exact findKv_holds h hfind

theorem tidy_empty : Tidy {} where
  labelled i inst hget := absurd hget (by simp)
  worker i w n hn := absurd hn (by simp [RegistryTree.getWorker])

theorem Tidy.foldl_apply (h : r.Tidy) (ops : List RegistryOp) :
    (ops.foldl RegistryTree.apply r).Tidy ∧
      (ops.foldl RegistryTree.apply r).view = ops.foldl RegistryMap.replay r.view := by
  induction ops generalizing r with
  | nil => exact ⟨h, rfl⟩
  | cons op ops ih =>
    rw [List.foldl_cons, List.foldl_cons, ← view_apply]
    exact ih (h.apply op)

end RegistryTree

/-- **Registry refinement**: after any operations, the tree represents the map obtained by
replaying them. -/
theorem registry_represents_replay (ops : List RegistryOp) :
    (ops.foldl RegistryTree.apply {}).Represents
      (ops.foldl RegistryMap.replay RegistryMap.empty) := by
  obtain ⟨htidy, hview⟩ := RegistryTree.tidy_empty.foldl_apply ops
  have hempty : RegistryTree.view {} = RegistryMap.empty := by
    rfl
  rw [← hempty, ← hview]
  exact htidy.represents_view

end LMCache.Controller
