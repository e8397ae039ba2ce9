import LMCache.Engine.Retrieval
import LMCache.Lib.Dict
import LMCache.Remote.Prefetch

/-! # Releasing prefetched objects

A prefetch takes one reference for each pair of a key and an object in its result, a list of pairs
for each tier.  When all tiers are done, `prefetch_all_done_callback` tells the scheduler how many
tokens were found; then the request is retrieved, or, if it was aborted, `cleanup_memory_objs` is
called.

* **Values.** The result holds tuples.  The callback and `cleanup_memory_objs` treat its elements
  as memory objects; `PyValue` has both, and `ref_count_down` is not an attribute of a tuple.
* **Drops.** Each function returns the objects whose references it drops, in order.
* **Errors.** What the GPU connector and the removal of a key raise is given by `RetrieveCall`.  An
  error of the callback goes to the event loop; the event is `DONE` before.

**Main result**: `prefetched_released_once`. -/

namespace LMCache

open List

variable {K O : Type}

/-! ### The code -/

inductive PyValue (K O : Type) where
  | memoryObj (obj : O)
  | tuple (key : K) (obj : O)
deriving DecidableEq, Repr

/-- `ref_count_down`: the object whose reference is dropped. -/
def PyValue.refCountDown : PyValue K O → Except PyError O
  | .memoryObj obj => .ok obj
  | .tuple _ _ => .error ⟨.attributeError, "'tuple' object has no attribute 'ref_count_down'"⟩

/-- The pairs of `gather_with_keys`. -/
def tuples (res : List (List (K × O))) : List (List (PyValue K O)) :=
  res.map fun tier => tier.map fun p => .tuple p.1 p.2

/-- The loops over the values of the tiers after a gap. -/
def releaseAll : List (PyValue K O) → List O × Option PyError
  | [] => ([], none)
  | v :: vs =>
    match v.refCountDown with
    | .error e => ([], some e)
    | .ok obj =>
      let r := releaseAll vs
      (obj :: r.1, r.2)

/-- The loop of `prefetch_all_done_callback` over the tiers with the numbers of chunks that they
were expected to have; it counts the retrieved chunks. -/
def countRetrieved : List (List (PyValue K O) × ℕ) → ℕ → List O × Except PyError ℕ
  | [], totalRetrievedChunks => ([], .ok totalRetrievedChunks)
  | (tierResult, expectedChunks) :: tiers, totalRetrievedChunks =>
    let actualChunks := tierResult.length
    let totalRetrievedChunks := totalRetrievedChunks + actualChunks
    if actualChunks < expectedChunks then
      let r := releaseAll (tiers.map Prod.fst).flatten
      match r.2 with
      | some e => (r.1, .error e)
      | none => (r.1, .ok totalRetrievedChunks)
    else countRetrieved tiers totalRetrievedChunks

/-- `prefetch_all_done_callback`: the dropped references, and the length that is sent to the
scheduler. -/
def prefetchAllDoneCallback (res : List (List (PyValue K O))) (tierExpectedChunks : List ℕ)
    (cumChunkLengthsTotal : List ℕ) : List O × Except PyError ℕ :=
  let r := countRetrieved (res.zip tierExpectedChunks) 0
  match r.2 with
  | .error e => (r.1, .error e)
  | .ok totalRetrievedChunks =>
    match cumChunkLengthsTotal[totalRetrievedChunks]? with
    | none => (r.1, .error ⟨.indexError, "list index out of range"⟩)
    | some retrievedLength => (r.1, .ok retrievedLength)

/-- `cleanup_memory_objs`: the error of every single object is caught. -/
def cleanupMemoryObjs (res : List (List (PyValue K O))) : List O :=
  res.flatten.filterMap fun v => v.refCountDown.toOption

/-- A call of `retrieve`: the chunks of the token database, and what the calls to the GPU connector
and to the storage manager raise. -/
structure RetrieveCall (K O : Type) where
  isHealthy : Bool
  numTokens : ℕ
  processTokens : Except PyError (List (ChunkInfo K))
  getSize : O → ℕ
  batchedToGpu : List (ChunkInfo K × O) → Option PyError
  removeAfterRetrieve : Bool
  remove : K → Option PyError

section
variable [DecidableEq K] (call : RetrieveCall K O)

/-- `memory_obj_map`: the last object of a key. -/
def memoryObjMap (res : List (List (K × O))) : Dict K O := Dict.ofList res.flatten

/-- The chunks before the first one without an object. -/
def takeChunks (map : Dict K O) : List (ChunkInfo K) → List (ChunkInfo K × O)
  | [] => []
  | c :: cs =>
    match map.get? c.key with
    | none => []
    | some obj => (c, obj) :: takeChunks map cs

def unusedObjs (map : Dict K O) (chunks : List (ChunkInfo K × O)) : List O :=
  (map.entries.filter fun e => e.1 ∉ chunks.map fun c => c.1.key).map Prod.snd

/-- `_async_process_tokens_internal`: the dropped references, and the chunks with the total size
and the mask. -/
def asyncProcessTokensInternal (res : List (List (K × O))) :
    List O × Except PyError (Fetch K O) :=
  match call.processTokens with
  | .error e => ([], .error e)
  | .ok chunkInfos =>
    let map := memoryObjMap res
    let chunks := takeChunks map chunkInfos
    (unusedObjs map chunks, .ok
      { reorderedChunks := chunks
        totKvSize := (chunks.map fun c => call.getSize c.2).sum
        retMask := markAll (List.replicate call.numTokens false) chunks
        lastFailedBlockStart := none })

/-- The last loop of `retrieve`. -/
def releaseChunks : List (ChunkInfo K × O) → List O × Option PyError
  | [] => ([], none)
  | c :: cs =>
    match if call.removeAfterRetrieve then call.remove c.1.key else none with
    | some e => ([], some e)
    | none =>
      let r := releaseChunks cs
      (c.2 :: r.1, r.2)

/-- `retrieve` with asynchronous loading. -/
def asyncRetrieve (res : List (List (K × O))) : List O × Except PyError (List Bool) :=
  if call.isHealthy then
    match asyncProcessTokensInternal call res with
    | (drops, .error e) => (drops, .error e)
    | (drops, .ok fetch) =>
      match if fetch.reorderedChunks.isEmpty then none
        else call.batchedToGpu fetch.reorderedChunks with
      | some e => (drops, .error e)
      | none =>
        let r := releaseChunks call fetch.reorderedChunks
        match r.2 with
        | some e => (drops ++ r.1, .error e)
        | none => (drops ++ r.1, .ok fetch.retMask)
  else ([], .ok (List.replicate call.numTokens false))

end

/-- Who handles the result of a prefetch after the callback. -/
inductive Consumer (K O : Type) where
  | retrieve (call : RetrieveCall K O)
  | cleanup

/-- All references that are dropped, by the callback and by the consumer. -/
def droppedRefs [DecidableEq K] (res : List (List (K × O)))
    (tierExpectedChunks cumChunkLengthsTotal : List ℕ) (consumer : Consumer K O) : List O :=
  (prefetchAllDoneCallback (tuples res) tierExpectedChunks cumChunkLengthsTotal).1 ++
    match consumer with
    | .retrieve call => (asyncRetrieve call res).1
    | .cleanup => cleanupMemoryObjs (tuples res)

def takenRefs (res : List (List (K × O))) : List O := res.flatten.map Prod.snd

/-! ### The callback and the cleanup -/

theorem releaseAll_tuples (tiers : List (List (K × O))) :
    (releaseAll (tuples tiers).flatten).1 = [] ∧
      ((releaseAll (tuples tiers).flatten).2 = none ↔ tiers.flatten = []) := by
  rw [tuples, ← map_flatten]
  cases tiers.flatten with
  | nil => simp [releaseAll]
  | cons p ps => simp [releaseAll, PyValue.refCountDown]

/-- A tier with a gap before a tier with objects. -/
def Gap : List (List (K × O) × ℕ) → Prop
  | [] => False
  | (tierResult, expectedChunks) :: tiers =>
    if tierResult.length < expectedChunks then (tiers.map Prod.fst).flatten ≠ []
    else Gap tiers

theorem countRetrieved_tuples (tiers : List (List (K × O) × ℕ)) (n : ℕ) :
    let r := countRetrieved (tiers.map fun t => (t.1.map fun p => PyValue.tuple p.1 p.2, t.2)) n
    r.1 = [] ∧ ((∃ e, r.2 = .error e) ↔ Gap tiers) := by
  induction tiers generalizing n with
  | nil => simp [countRetrieved, Gap]
  | cons t tiers ih =>
    rw [map_cons, countRetrieved, Gap]
    rw [length_map]
    split_ifs with hlt
    · have hrel := releaseAll_tuples (tiers.map Prod.fst)
      have htiers : (tiers.map fun t => (t.1.map fun p => PyValue.tuple p.1 p.2, t.2)).map
          Prod.fst = tuples (tiers.map Prod.fst) := by
        simp [tuples, Function.comp_def]
      grind
    · exact ih _

variable (res : List (List (K × O)))

theorem zip_tuples (tierExpectedChunks : List ℕ) :
    (tuples res).zip tierExpectedChunks =
      (res.zip tierExpectedChunks).map fun t => (t.1.map fun p => PyValue.tuple p.1 p.2, t.2) := by
  rw [tuples, zip_map_left]
  rfl

theorem drops_callback (tierExpectedChunks cum : List ℕ) :
    (prefetchAllDoneCallback (tuples res) tierExpectedChunks cum).1 = [] ∧
      (Gap (res.zip tierExpectedChunks) →
        ∃ e, (prefetchAllDoneCallback (tuples res) tierExpectedChunks cum).2 = .error e) := by
  obtain ⟨hdrops, hgap⟩ := countRetrieved_tuples (res.zip tierExpectedChunks) 0
  unfold prefetchAllDoneCallback
  rw [zip_tuples]
  dsimp only
  split
  · grind
  · grind

theorem cleanupMemoryObjs_tuples : cleanupMemoryObjs (tuples res) = [] := by
  rw [cleanupMemoryObjs, tuples, ← map_flatten, filterMap_map]
  exact filterMap_eq_nil_iff.mpr fun p _ => rfl

/-! ### The retrieval -/

section retrieve
variable [DecidableEq K] {call : RetrieveCall K O} {res : List (List (K × O))}

omit [DecidableEq K] in
theorem releaseChunks_eq (chunks : List (ChunkInfo K × O))
    (h : call.removeAfterRetrieve = true → ∀ c ∈ chunks, call.remove c.1.key = none) :
    releaseChunks call chunks = (chunks.map Prod.snd, none) := by
  induction chunks with
  | nil => rfl
  | cons c chunks ih =>
    have hc : (if call.removeAfterRetrieve then call.remove c.1.key else none) = none := by
      split_ifs with hremove
      · exact h hremove c mem_cons_self
      · rfl
    rw [releaseChunks, hc, ih fun hremove c' hc' => h hremove c' (mem_cons_of_mem _ hc')]
    rfl

variable {chunkInfos : List (ChunkInfo K)}

theorem drops_asyncRetrieve (hhealthy : call.isHealthy = true)
    (hchunks : call.processTokens = .ok chunkInfos)
    (hgpu : takeChunks (memoryObjMap res) chunkInfos ≠ [] →
      call.batchedToGpu (takeChunks (memoryObjMap res) chunkInfos) = none)
    (hremove : call.removeAfterRetrieve = true →
      ∀ c ∈ takeChunks (memoryObjMap res) chunkInfos, call.remove c.1.key = none) :
    (asyncRetrieve call res).1 =
      unusedObjs (memoryObjMap res) (takeChunks (memoryObjMap res) chunkInfos) ++
        (takeChunks (memoryObjMap res) chunkInfos).map Prod.snd := by
  have hcopy : (if (takeChunks (memoryObjMap res) chunkInfos).isEmpty then none
      else call.batchedToGpu (takeChunks (memoryObjMap res) chunkInfos)) = none := by
    split_ifs with hempty
    · rfl
    · exact hgpu fun h => hempty (isEmpty_iff.mpr h)
  unfold asyncRetrieve asyncProcessTokensInternal
  simp only [hhealthy, if_true, hchunks, hcopy, releaseChunks_eq _ hremove]

theorem takeChunks_spec (map : Dict K O) (hnodup : (chunkInfos.map ChunkInfo.key).Nodup) :
    ((takeChunks map chunkInfos).map fun c => c.1.key).Nodup ∧
      (∀ c ∈ takeChunks map chunkInfos, map.get? c.1.key = some c.2) ∧
      ∀ c ∈ takeChunks map chunkInfos, c.1 ∈ chunkInfos := by
  fun_induction takeChunks map chunkInfos with
  | case1 | case2 => simp
  | case3 c cs obj hget ih =>
    obtain ⟨hnot, hcs⟩ := nodup_cons.mp hnodup
    obtain ⟨h₁, h₂, h₃⟩ := ih hcs
    refine ⟨nodup_cons.mpr ⟨fun hmem => ?_, h₁⟩, ?_, ?_⟩
    all_goals grind

theorem perm_entries (map : Dict K O) (hnodup : (chunkInfos.map ChunkInfo.key).Nodup) :
    (unusedObjs map (takeChunks map chunkInfos) ++ (takeChunks map chunkInfos).map Prod.snd).Perm
      (map.entries.map Prod.snd) := by
  obtain ⟨hkeys, hget, -⟩ := takeChunks_spec map hnodup
  generalize takeChunks map chunkInfos = chunks at hkeys hget
  have hused : (chunks.map fun c => (c.1.key, c.2)).Perm
      (map.entries.filter fun e => e.1 ∈ chunks.map fun c => c.1.key) := by
    have hleft : (chunks.map fun c => (c.1.key, c.2)).Nodup :=
      List.Nodup.of_map Prod.fst (by rwa [map_map])
    have hright : map.entries.Nodup := List.Nodup.of_map Prod.fst map.nodup
    refine (perm_ext_iff_of_nodup hleft (hright.filter _)).mpr fun e => ?_
    rw [mem_filter, decide_eq_true_eq, mem_map, mem_map]
    constructor
    · rintro ⟨c, hc, rfl⟩
      exact ⟨Dict.get?_eq_some_iff.mp (hget c hc), c, hc, rfl⟩
    · rintro ⟨he, c, hc, hkey⟩
      have hobj := hget c hc
      rw [hkey, Dict.get?_eq_some_iff.mpr he] at hobj
      exact ⟨c, hc, Prod.ext hkey (Option.some.inj hobj).symm⟩
  have hchunks : (chunks.map Prod.snd).Perm
      ((map.entries.filter fun e => e.1 ∈ chunks.map fun c => c.1.key).map Prod.snd) := by
    simpa [Function.comp_def] using hused.map Prod.snd
  rw [unusedObjs]
  refine List.Perm.trans (perm_append_comm.trans (hchunks.append_right _)) ?_
  rw [← map_append]
  refine List.Perm.map _ ?_
  simpa using filter_append_perm (fun e => e.1 ∈ chunks.map fun c => c.1.key) map.entries

theorem perm_memoryObjMap_iff (res : List (List (K × O))) :
    ((memoryObjMap res).entries.map Prod.snd).Perm (takenRefs res) ↔
      (res.flatten.map Prod.fst).Nodup := by
  constructor
  · intro hperm
    by_contra hdup
    have hlt := Dict.length_ofList_lt hdup
    have hlen := hperm.length_eq
    rw [length_map, takenRefs, length_map] at hlen
    exact absurd hlen (Nat.ne_of_lt hlt)
  · intro hnodup
    rw [memoryObjMap, Dict.entries_ofList hnodup]
    exact List.Perm.refl _

/-- **Prefetched objects.**  A request that is retrieved drops every reference of the prefetch once,
provided that no key occurs twice in the result, and only then; the copy to the GPU and the removal
of the retrieved keys may not raise.  One that is aborted drops none, and the callback never drops
any; at a gap it raises, so that the scheduler gets no answer. -/
theorem prefetched_released_once (res : List (List (K × O))) (tierExpectedChunks cum : List ℕ)
    (call : RetrieveCall K O) (chunkInfos : List (ChunkInfo K))
    (hhealthy : call.isHealthy = true) (hchunks : call.processTokens = .ok chunkInfos)
    (hnodup : (chunkInfos.map ChunkInfo.key).Nodup)
    (hgpu : takeChunks (memoryObjMap res) chunkInfos ≠ [] →
      call.batchedToGpu (takeChunks (memoryObjMap res) chunkInfos) = none)
    (hremove : call.removeAfterRetrieve = true →
      ∀ c ∈ takeChunks (memoryObjMap res) chunkInfos, call.remove c.1.key = none) :
    ((droppedRefs res tierExpectedChunks cum (.retrieve call)).Perm (takenRefs res) ↔
        (res.flatten.map Prod.fst).Nodup) ∧
      ((droppedRefs res tierExpectedChunks cum .cleanup).Perm (takenRefs res) ↔
        takenRefs res = []) ∧
      (Gap (res.zip tierExpectedChunks) →
        ∃ e, (prefetchAllDoneCallback (tuples res) tierExpectedChunks cum).2 = .error e) := by
  obtain ⟨hcallback, hgap⟩ := drops_callback res tierExpectedChunks cum
  have hentries := perm_entries (memoryObjMap res) hnodup
  refine ⟨?_, ?_, hgap⟩
  · simp only [droppedRefs, hcallback, nil_append,
      drops_asyncRetrieve hhealthy hchunks hgpu hremove]
    rw [← perm_memoryObjMap_iff]
    exact ⟨fun h => hentries.symm.trans h, fun h => hentries.trans h⟩
  · simp only [droppedRefs, hcallback, nil_append, cleanupMemoryObjs_tuples]
    exact nil_perm

end retrieve

/-! ### Two tiers -/

/-- A retrieval of the chunks with the keys `1` and `2` that does not fail. -/
def retrieveTwo : RetrieveCall ℕ ℕ where
  isHealthy := true
  numTokens := 32
  processTokens := .ok [⟨1, 0, 16⟩, ⟨2, 16, 32⟩]
  getSize _ := 16
  batchedToGpu _ := none
  removeAfterRetrieve := false
  remove _ := none

/-- Three chunks are prefetched and two are retrieved. -/
theorem released_once_two_tiers :
    droppedRefs [[(1, 10), (2, 20)], [(3, 30)]] [2, 1] [0, 16, 32, 48] (.retrieve retrieveTwo) =
        [30, 10, 20] ∧
      (droppedRefs [[(1, 10), (2, 20)], [(3, 30)]] [2, 1] [0, 16, 32, 48]
        (.retrieve retrieveTwo)).Perm [10, 20, 30] :=
  ⟨by decide +kernel, (prefetched_released_once [[(1, 10), (2, 20)], [(3, 30)]] [2, 1]
    [0, 16, 32, 48] retrieveTwo [⟨1, 0, 16⟩, ⟨2, 16, 32⟩] rfl rfl (by decide) (fun _ => rfl)
    (by decide)).1.mpr (by decide)⟩

/-- The references of an aborted request are not dropped; those of a key that occurs twice are
dropped once; and when the first tier has a gap, the callback raises and drops nothing. -/
theorem prefetched_not_released :
    droppedRefs [[(1, 10), (2, 20)]] [2] [0, 16, 32] (Consumer.cleanup : Consumer ℕ ℕ) = [] ∧
      droppedRefs [[(1, 10), (1, 11)]] [2] [0, 16, 32] (.retrieve retrieveTwo) = [11] ∧
      prefetchAllDoneCallback (tuples [[(1, 10)], [(3, 30)]]) [2, 1] [0, 16, 32, 48] =
        ([], .error ⟨.attributeError, "'tuple' object has no attribute 'ref_count_down'"⟩) := by
  decide +kernel

end LMCache
