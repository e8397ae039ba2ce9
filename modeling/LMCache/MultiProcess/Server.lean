import LMCache.Distributed.StorageManager
import LMCache.MultiProcess.StoreLookup

/-! # The cache engine of the multiprocess server

`MPCacheEngine.lookup` asks for the objects of all workers and locks those that are there for
reading; `MPCacheEngine.retrieve` copies locked objects to the GPU and gives the locks back.

* **The GPU** is outside of the model.  `copy idx` is the exception that the copy of the chunk
  number `idx` raises, if any, and `Retrieval.copied` counts the copies that were completed.
* **Host functions.**  `launch_host_func` runs `finish_read_prefetched` on the stream, after the
  copies; an exception of it reaches nobody.
* **Lookups.**  The status of a prefetch is never `None`, so that the loop of `lookup` ends with its
  first query.

The main theorem, `lookup_locks_reported_chunks`, is about lookups of several workers: the locks
that a lookup keeps are those of the leading objects in the cache, and these are the objects of the
chunks it reports exactly if they end with a chunk. -/

namespace LMCache.MultiProcess

open List Distributed

structure MPCacheEngine where
  gpuContexts : List ℤ
  storageManager : L1Manager ObjectKey
  tokenHasher : TokenHasher
  sessions : Sessions

section model
variable (clock : ℕ → ℤ)

/-! ### Retrieving -/

/-- What `retrieve` reports for each chunk, and how many chunks were copied. -/
structure Retrieval where
  results : List Bool
  copied : ℕ
deriving DecidableEq, Repr

/-- `_retrieve_loop`, from the chunk `idx` on: the copies completed, and the exception. -/
def retrieveLoop (copy : ℕ → Option PyError) : ℕ → List (ObjectKey × ℕ) → ℕ × Option PyError
  | _, [] => (0, none)
  | idx, _ :: items =>
    match copy idx with
    | some e => (0, some e)
    | none =>
      let r := retrieveLoop copy (idx + 1) items
      (r.1 + 1, r.2)

/-- The end of a block, with or without an exception. -/
def endOfBlock : Option PyError → BodyExit
  | none => .fallThrough
  | some e => .raised e

/-- The body of the `with` statement of `retrieve`: how it is left, `prefetched_keys`, and the
copies completed. -/
def retrieveBody (copy : ℕ → Option PyError) (objKeys : List ObjectKey)
    (memoryObjs : Option (List ℕ)) : BodyExit × List ObjectKey × ℕ :=
  match memoryObjs with
  | none => (.returned, [], 0)
  | some memoryObjs =>
    if memoryObjs.isEmpty || memoryObjs.length ≠ objKeys.length then (.returned, [], 0)
    else
      let r := retrieveLoop copy 0 (objKeys.zip memoryObjs)
      (endOfBlock r.2, objKeys.take memoryObjs.length, r.1)

/-- `retrieve` from the `try` statement on. -/
def retrieveObjects (m : L1Manager ObjectKey) (copy : ℕ → Option PyError)
    (objKeys : List ObjectKey) : Retrieval × L1Manager ObjectKey :=
  let r := readPrefetchedResults clock m objKeys
  let body := retrieveBody copy objKeys r.1.yielded
  let left := r.1.exit clock r.2 body.1
  -- the `return` in the body, or the one of the `except` clause
  let success := left.1.isNone && body.1 ≠ .returned
  (⟨List.replicate objKeys.length success, body.2.2⟩,
    (finishReadPrefetched clock left.2 body.2.1).2)

def retrieve (engine : MPCacheEngine) (keys : List IPCCacheEngineKey) (instanceId : ℤ)
    (copy : ℕ → Option PyError) : Except PyError Retrieval × MPCacheEngine :=
  match transferObjectKeys engine.tokenHasher .retrieve keys engine.sessions with
  | (.error e, sessions) => (.error e, { engine with sessions })
  | (.ok objKeys, sessions) =>
    if instanceId ∉ engine.gpuContexts then
      (.error ⟨.assertionError, "KV cache not registered for GPU ID " ++ toString instanceId⟩,
        { engine with sessions })
    else
      let r := retrieveObjects clock engine.storageManager copy objKeys
      (.ok r.1, { engine with sessions, storageManager := r.2 })

/-! ### Looking up -/

def lookup (engine : MPCacheEngine) (keys : List IPCCacheEngineKey) :
    Except PyError ℕ × MPCacheEngine :=
  let ipcKeys := lookupIpcKeys engine.tokenHasher keys
  match ipcKeys with
  | [] => (.ok 0, engine)
  | firstKey :: _ =>
    match ipcKeysToObjectKeys ipcKeys with
    | .error e => (.error e, engine)
    | .ok objKeys =>
      match submitPrefetchTask clock engine.storageManager objKeys with
      | (.error e, storageManager) => (.error e, { engine with storageManager })
      | (.ok handle, storageManager) =>
        let foundCount := (queryPrefetchStatus handle).getD 0
        (if firstKey.worldSize = 0 then
          .error ⟨.zeroDivisionError, "integer division or modulo by zero"⟩
        else .ok (foundCount / firstKey.worldSize),
          { engine with storageManager })

end model

/-! ### The locks of a lookup -/

/-- The objects of all workers for the first `n` chunks. -/
def objectsOfChunks (hasher : TokenHasher) (key : IPCCacheEngineKey) (tokenIds : List ℤ) (n : ℕ) :
    List ObjectKey :=
  (List.range n).flatMap fun i => chunkObjects key (hasher.chunkHash tokenIds i)

section lookup
variable {hasher : TokenHasher} {key : IPCCacheEngineKey} {tokenIds : List ℤ}

theorem length_objectsOfChunks (hasher : TokenHasher) (key : IPCCacheEngineKey)
    (tokenIds : List ℤ) (n : ℕ) :
    (objectsOfChunks hasher key tokenIds n).length = n * key.worldSize := by
  simp [objectsOfChunks, length_flatMap, chunkObjects]

theorem take_objectsOfChunks {h n : ℕ} (hn : h ≤ n) :
    (objectsOfChunks hasher key tokenIds n).take (h * key.worldSize) =
      objectsOfChunks hasher key tokenIds h := by
  obtain ⟨d, rfl⟩ := Nat.exists_eq_add_of_le hn
  have hsplit : objectsOfChunks hasher key tokenIds (h + d) =
      objectsOfChunks hasher key tokenIds h ++ ((range d).map (h + ·)).flatMap fun i =>
        chunkObjects key (hasher.chunkHash tokenIds i) := by
    rw [objectsOfChunks, range_add, flatMap_append]
    rfl
  rw [hsplit, ← length_objectsOfChunks hasher key tokenIds h, take_left]

/-- The elements of a list in the blocks of size `n` that it fills are all its elements, each
once, exactly if the list ends with a block and has no repeats. -/
theorem count_eq_ite_blocks_iff {α : Type} [DecidableEq α] {l : List α} {n : ℕ} :
    (∀ a, l.count a = if a ∈ l.take (l.length / n * n) then 1 else 0) ↔
      n ∣ l.length ∧ l.Nodup := by
  have hle : l.length / n * n ≤ l.length := Nat.div_mul_le_self _ _
  constructor
  · intro h
    have hfull : l.length / n * n = l.length := by
      by_contra hne
      -- the first element after the blocks is counted there and before
      have hlt : l.length / n * n < l.length := by omega
      obtain ⟨k, hk⟩ : ∃ k, k = l.length / n * n := ⟨_, rfl⟩
      rw [← hk] at h hlt
      have hdrop : l[k] ∈ l.drop k := mem_drop_iff_getElem.mpr ⟨0, by omega, by simp⟩
      have hcount := h l[k]
      have hsum : l.count l[k] = (l.take k).count l[k] + (l.drop k).count l[k] := by
        rw [← count_append, take_append_drop]
      grind
    refine ⟨⟨l.length / n, by rw [Nat.mul_comm, hfull]⟩, nodup_iff_count_le_one.mpr fun a => ?_⟩
    grind
  · rintro ⟨hdvd, hnodup⟩ a
    rw [Nat.div_mul_cancel hdvd, take_length, hnodup.count]

theorem worldSize_of_mem_lookupIpcKeys (hasher : TokenHasher)
    (htokens : key.tokenIds = some tokenIds)
    {k : IPCCacheEngineKey} (hk : k ∈ lookupIpcKeys hasher [key.noWorkerIdVersion]) :
    k.worldSize = key.worldSize := by
  rw [lookupIpcKeys, flatMap_singleton,
    if_pos (by simp [IPCCacheEngineKey.noWorkerIdVersion, htokens])] at hk
  obtain ⟨_, -, rfl⟩ := mem_map.mp hk
  rfl

theorem lookup_eq_ok {clock : ℕ → ℤ} {engine engine' : MPCacheEngine} {h : ℕ}
    (htokens : key.tokenIds = some tokenIds)
    (hlookup : lookup clock engine [key.noWorkerIdVersion] = (.ok h, engine')) :
    (objectsOfChunks engine.tokenHasher key tokenIds
        (tokenIds.length / engine.tokenHasher.chunkSize) = [] ∧ h = 0 ∧ engine' = engine) ∨
      ∃ handle, submitPrefetchTask clock engine.storageManager
          (objectsOfChunks engine.tokenHasher key tokenIds
            (tokenIds.length / engine.tokenHasher.chunkSize)) =
          (.ok handle, engine'.storageManager) ∧
        h = handle.prefixHitChunks / key.worldSize := by
  have hobjs := lookupObjectKeys_eq engine.tokenHasher htokens
  have hworld := fun k => worldSize_of_mem_lookupIpcKeys (k := k) engine.tokenHasher htokens
  unfold lookupObjectKeys at hobjs
  unfold lookup at hlookup
  generalize lookupIpcKeys engine.tokenHasher [key.noWorkerIdVersion] = ipcKeys at *
  cases ipcKeys with
  | nil =>
    rw [ipcKeysToObjectKeys, Except.ok.injEq] at hobjs
    rw [Prod.mk.injEq, Except.ok.injEq] at hlookup
    exact Or.inl ⟨hobjs.symm, hlookup.1.symm, hlookup.2.symm⟩
  | cons firstKey rest =>
    right
    dsimp only at hlookup
    rw [hobjs, hworld firstKey mem_cons_self] at hlookup
    dsimp only at hlookup
    unfold objectsOfChunks
    split at hlookup
    · simp at hlookup
    · rename_i handle storageManager heq
      rw [Prod.mk.injEq] at hlookup
      split_ifs at hlookup with hzero
      · simp at hlookup
      · obtain ⟨hh, rfl⟩ := hlookup
        exact ⟨handle, heq, (Except.ok.inj hh).symm⟩

/-- The leading objects of a lookup that can be read from the cache. -/
def leadingObjects (clock : ℕ → ℤ) (engine : MPCacheEngine) (key : IPCCacheEngineKey)
    (tokenIds : List ℤ) : List ObjectKey :=
  (objectsOfChunks engine.tokenHasher key tokenIds
    (tokenIds.length / engine.tokenHasher.chunkSize)).takeWhile
      (readable clock engine.storageManager)

/-- **The locks of a lookup.**  When no lock expires and a lookup of `worldSize` workers returns
`h`, then it holds one lock more on each object of the first `h` chunks and no other lock, exactly
if the leading objects that are in the cache end with a chunk and have no repeats. -/
theorem lookup_locks_reported_chunks {clock : ℕ → ℤ} {engine engine' : MPCacheEngine} {h : ℕ}
    (htokens : key.tokenIds = some tokenIds) (hworld : 1 ≤ key.worldSize)
    (hsound : engine.storageManager.Sound clock)
    (hquiet : engine.storageManager.Quiet clock engine.storageManager.ticks
      (engine.storageManager.ticks +
        5 * (tokenIds.length / engine.tokenHasher.chunkSize * key.worldSize)))
    (hlookup : lookup clock engine [key.noWorkerIdVersion] = (.ok h, engine')) :
    (∀ o, readers clock engine'.storageManager o = readers clock engine.storageManager o +
      if o ∈ objectsOfChunks engine.tokenHasher key tokenIds h then 1 else 0) ↔
    key.worldSize ∣ (leadingObjects clock engine key tokenIds).length ∧
      (leadingObjects clock engine key tokenIds).Nodup := by
  obtain ⟨hobjs, rfl, rfl⟩ | ⟨handle, hsubmit, rfl⟩ := lookup_eq_ok htokens hlookup
  · rw [leadingObjects, hobjs]
    simp [objectsOfChunks]
  · rw [← length_objectsOfChunks engine.tokenHasher key tokenIds] at hquiet
    obtain ⟨hhits, hreaders⟩ := submitPrefetchTask_spec hsound hquiet hsubmit
    have hlead : leadingObjects clock engine key tokenIds =
        (objectsOfChunks engine.tokenHasher key tokenIds
          (tokenIds.length / engine.tokenHasher.chunkSize)).take handle.prefixHitChunks := by
      rw [hhits]
      exact prefix_iff_eq_take.mp <| takeWhile_prefix _
    have hlen : (leadingObjects clock engine key tokenIds).length = handle.prefixHitChunks :=
      hhits.symm
    -- the objects of the reported chunks are the blocks that the leading objects fill
    have hblocks : objectsOfChunks engine.tokenHasher key tokenIds
        (handle.prefixHitChunks / key.worldSize) =
        (leadingObjects clock engine key tokenIds).take
          ((leadingObjects clock engine key tokenIds).length / key.worldSize * key.worldSize) := by
      have hle : handle.prefixHitChunks ≤
          tokenIds.length / engine.tokenHasher.chunkSize * key.worldSize := by
        rw [hhits, ← length_objectsOfChunks engine.tokenHasher key tokenIds]
        exact IsPrefix.length_le <| takeWhile_prefix _
      rw [hlen, hlead, take_take, min_eq_left (Nat.div_mul_le_self _ _),
        take_objectsOfChunks ((Nat.div_le_iff_le_mul_add_pred hworld).mpr (by
          rw [Nat.mul_comm]; omega))]
    rw [hblocks, ← count_eq_ite_blocks_iff]
    constructor
    · intro hall o
      have := (hreaders o).symm.trans (hall o)
      exact Nat.add_left_cancel this
    · intro hall o
      rw [hreaders o, ← hall o]
      rfl

end lookup

/-- A clock that advances by a millisecond with each reading. -/
def slowTicks (i : ℕ) : ℤ := i

/-- An engine with one GPU, after the objects were written. -/
def engineWith (objects : List ObjectKey) : MPCacheEngine :=
  { gpuContexts := [0], storageManager := written slowTicks objects, tokenHasher := listHasher
    sessions := fun _ => none }

/-- A lookup of a request of two workers with one complete chunk. -/
def pairKey : IPCCacheEngineKey := workerKey [1, 2, 3] 2

def pairObjects : List ObjectKey := objectsOfChunks listHasher pairKey [1, 2, 3] 1

/-- Both objects of the chunk are in the cache: the lookup reports one chunk and locks its two
objects. -/
theorem lookup_locks_reported_chunks_full :
    ∃ engine', lookup slowTicks (engineWith pairObjects) [pairKey.noWorkerIdVersion] =
        (.ok 1, engine') ∧
      ∀ o, readers slowTicks engine'.storageManager o =
        readers slowTicks (engineWith pairObjects).storageManager o +
          if o ∈ objectsOfChunks (engineWith pairObjects).tokenHasher pairKey [1, 2, 3] 1
          then 1 else 0 := by
  have hlookup : (lookup slowTicks (engineWith pairObjects) [pairKey.noWorkerIdVersion]).1 =
      .ok 1 := by
    decide +kernel
  have htokens : pairKey.tokenIds = some [1, 2, 3] := rfl
  refine ⟨_, Prod.ext hlookup rfl, ?_⟩
  refine (lookup_locks_reported_chunks htokens (by decide) ?_ ?_ (Prod.ext hlookup rfl)).mpr ?_
  · exact (written_reachable slowTicks pairObjects).sound
  all_goals decide +kernel

/-- Only the object of the first worker is in the cache: the lookup reports no chunk and keeps a
lock on this object. -/
theorem lookup_locks_half_a_chunk :
    ∃ engine', lookup slowTicks (engineWith (pairObjects.take 1)) [pairKey.noWorkerIdVersion] =
        (.ok 0, engine') ∧
      ∃ o, readers slowTicks engine'.storageManager o = 1 ∧
        readers slowTicks (engineWith (pairObjects.take 1)).storageManager o = 0 ∧
        o ∉ objectsOfChunks (engineWith (pairObjects.take 1)).tokenHasher pairKey [1, 2, 3] 0 := by
  have hlookup : (lookup slowTicks (engineWith (pairObjects.take 1))
      [pairKey.noWorkerIdVersion]).1 = .ok 0 := by
    decide +kernel
  exact ⟨_, Prod.ext hlookup rfl,
    pairKey.objectKey (hashToBytes (listHasher.chunkHash [1, 2, 3] 0)) 0,
    by decide +kernel, by decide +kernel, by simp [objectsOfChunks]⟩

end LMCache.MultiProcess
