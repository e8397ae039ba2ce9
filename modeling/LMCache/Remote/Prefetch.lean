import LMCache.Remote.BatchedGet

/-! # Prefetching pairs keys with objects

`StorageManager.async_lookup_and_prefetch` asks the backends in turn for the keys that the
backends before do not hold, starts the fetch of the keys that each one says it holds, and
`gather_with_keys` pairs the keys of each backend with the list of objects it returns, by
position.

The pairs are right as long as the list of each backend is aligned with its keys.  The
connectors for Redis, EIC and S3 close the gap of a missing object, and every later key gets
the object of another one (`prefetch_pairs_shifted`).  `prefetch_pairs_iff` states exactly
when the pairs are right. -/

namespace LMCache

open List

/-- A remote backend: the answers to its lookups, its connection (`none` also stands for a
backend without a local CPU backend) and whether the fetch runs into the timeout. -/
structure RemoteBackend (K : Type) where
  batchedAsyncContains : List K → ℕ
  connection : Option (Connector K)
  timedOut : Bool

inductive PrefetchBackend (K : Type) where
  | remote (b : RemoteBackend K)
  | other (batchedAsyncContains : List K → ℕ) (batchedGetNonBlocking : List K → List Bytes)

section model
variable {K : Type} [DecidableEq K]

/-- `RemoteBackend.batched_get_non_blocking`: without a connection, after a timeout and after
an exception there are no objects. -/
def RemoteBackend.batchedGetNonBlocking (b : RemoteBackend K) (keys : List K) : List Bytes :=
  match b.connection with
  | none => []
  | some connection =>
    if b.timedOut then []
    else
      match connection.batchedGetNonBlocking keys with
      | .ok objs => objs
      | .error _ => []

namespace PrefetchBackend

def batchedAsyncContains : PrefetchBackend K → List K → ℕ
  | remote b => b.batchedAsyncContains
  | other batchedAsyncContains _ => batchedAsyncContains

def batchedGetNonBlocking : PrefetchBackend K → List K → List Bytes
  | remote b => b.batchedGetNonBlocking
  | other _ batchedGetNonBlocking => batchedGetNonBlocking

end PrefetchBackend

/-- The loop over the backends: each started fetch with its keys. -/
def loadingTasks (numTotalChunks : ℕ) :
    List (PrefetchBackend K) → List K → ℕ → List (PrefetchBackend K × List K)
  | [], _, _ => []
  | backend :: backends, keys, numTotalHitChunks =>
    let numHitChunks := backend.batchedAsyncContains keys
    if numHitChunks = 0 then loadingTasks numTotalChunks backends keys numTotalHitChunks
    else
      (backend, keys.take numHitChunks) ::
        if numTotalHitChunks + numHitChunks = numTotalChunks then []
        else
          loadingTasks numTotalChunks backends (keys.drop numHitChunks)
            (numTotalHitChunks + numHitChunks)

/-- `gather_with_keys`; both `zip`s stop at the shorter list. -/
def gatherWithKeys (loadingTaskKeys : List (List K)) (loadingResults : List (List Bytes)) :
    List (List (K × Bytes)) :=
  (loadingTaskKeys.zip loadingResults).map fun p => p.1.zip p.2

/-- `StorageManager.async_lookup_and_prefetch`: the pairs of each backend with a fetch, `none`
when there is no hit at all. -/
def asyncLookupAndPrefetch (backends : List (PrefetchBackend K)) (keys : List K) :
    Option (List (List (K × Bytes))) :=
  let tasks := loadingTasks keys.length backends keys 0
  if tasks.isEmpty then none
  else
    some (gatherWithKeys (tasks.map Prod.snd)
      (tasks.map fun task => task.1.batchedGetNonBlocking task.2))

end model

/-! ### The pairs of one backend -/

section pairs
variable {K O : Type} {get : K → Except PyError (Option O)} {keys : List K} {objs : List O}

theorem aligned_iff_zip (h : objs.length ≤ keys.length) :
    Aligned get keys objs ↔ ∀ p ∈ keys.zip objs, get p.1 = .ok (some p.2) := by
  constructor
  · intro ha p hp
    obtain ⟨i, hi⟩ := mem_iff_getElem?.mp hp
    obtain ⟨hk, ho⟩ := getElem?_zip_eq_some.mp hi
    obtain ⟨k, hk', hget⟩ := ha i p.2 ho
    cases hk.symm.trans hk'
    exact hget
  · intro hp i o ho
    have hi : i < keys.length := by
      grind
    refine ⟨keys[i], getElem?_eq_getElem hi, ?_⟩
    apply hp (keys[i], o)
    apply mem_iff_getElem?.mpr
    exact ⟨i, getElem?_zip_eq_some.mpr ⟨getElem?_eq_getElem hi, ho⟩⟩

theorem length_dropNone_le (results : List (Option O)) :
    (dropNone results).length ≤ results.length :=
  length_filterMap_le id results

theorem length_gatherNonNone_le (h : gatherNonNone get keys = .ok objs) :
    objs.length ≤ keys.length := by
  by_cases hr : ∃ k ∈ keys, ∃ e, get k = .error e
  · obtain ⟨k, hk, e, he⟩ := hr
    obtain ⟨e', he'⟩ := mapM_eq_error hk he
    rw [gatherNonNone, he'] at h
    cases h
  · have hok : ∀ k ∈ keys, ∀ e, get k ≠ .error e := fun k hk e he => hr ⟨k, hk, e, he⟩
    obtain ⟨results, h₁, h₂⟩ := mapM_eq_ok hok
    rw [gatherNonNone, h₁] at h
    cases h
    have hlen := congrArg length h₂
    rw [length_map, length_map] at hlen
    have := length_dropNone_le results
    omega

theorem Aligned.length_le (h : Aligned get keys objs) : objs.length ≤ keys.length := by
  by_contra hlt
  obtain ⟨k, hk, -⟩ := h keys.length objs[keys.length] (getElem?_eq_getElem (by omega))
  simp at hk

end pairs

theorem prefix_loadingTasks {K : Type} (total : ℕ) (backends : List (PrefetchBackend K))
    (keys : List K) (n : ℕ) :
    ((loadingTasks total backends keys n).map Prod.snd).flatten <+: keys := by
  induction backends generalizing keys n with
  | nil => exact nil_prefix
  | cons backend backends ih =>
    unfold loadingTasks
    dsimp only
    split_ifs
    · exact ih keys n
    · simpa using take_prefix _ keys
    · rw [map_cons, flatten_cons]
      have h := (prefix_append_right_inj (keys.take (backend.batchedAsyncContains keys))).mpr
        (ih (keys.drop (backend.batchedAsyncContains keys)) (n + backend.batchedAsyncContains keys))
      rwa [take_append_drop] at h

theorem loadingTasks_sublist {K : Type} {total n : ℕ} {backends : List (PrefetchBackend K)}
    {keys : List K} {task : PrefetchBackend K × List K}
    (h : task ∈ loadingTasks total backends keys n) : task.2.Sublist keys :=
  (sublist_flatten_of_mem (mem_map_of_mem h)).trans
    (prefix_loadingTasks total backends keys n).sublist

section tiers
variable {K : Type} [DecidableEq K]

theorem Connector.length_le (c : Connector K) {keys : List K} {objs : List Bytes}
    (hkeys : keys.Nodup) (h : c.batchedGetNonBlocking keys = .ok objs) :
    objs.length ≤ keys.length := by
  cases c with
  | redis r => exact length_gatherNonNone_le h
  | eic r => exact length_gatherNonNone_le h
  | s3 c =>
    cases h
    apply (length_dropNone_le _).trans
    rw [c.batchedGet_eq_map hkeys, length_map]
  | base get =>
    cases h
    exact (takeHits_aligned get keys).length_le

/-- The fetch of the keys keeps their positions, or the backend returns nothing. -/
def RemoteBackend.KeepsOrder (b : RemoteBackend K) (keys : List K) : Prop :=
  b.timedOut = true ∨ ∀ c, b.connection = some c → c.KeepsOrder keys

/-- Every pair of a key and an object holds what the connection fetches for the key. -/
def RemoteBackend.PairsRight (b : RemoteBackend K) (pairs : List (K × Bytes)) : Prop :=
  ∀ p ∈ pairs, ∃ c, b.connection = some c ∧ c.get p.1 = .ok (some p.2)

theorem RemoteBackend.pairsRight_iff (b : RemoteBackend K) {keys : List K} (h : keys.Nodup) :
    b.PairsRight (keys.zip (b.batchedGetNonBlocking keys)) ↔ b.KeepsOrder keys := by
  unfold PairsRight KeepsOrder batchedGetNonBlocking
  cases b.connection with
  | none => simp
  | some c =>
    simp only [Option.some.injEq, exists_eq_left', forall_eq']
    cases b.timedOut with
    | true => simp
    | false =>
      rw [or_iff_right (by simp), ← c.aligned_iff h]
      cases hr : c.batchedGetNonBlocking keys with
      | error e => simp
      | ok objs =>
        have hzip : Aligned c.get keys objs ↔ _ := aligned_iff_zip (c.length_le h hr)
        simp [hzip]

end tiers

/-! ### A store that has lost a key -/

/-- A store that holds one byte for each of the keys. -/
def RemoteStore.ofKeys (held : List ℕ) : RemoteStore ℕ where
  metadata k := if k ∈ held then some ⟨1, [[1]], [⟨"uint8", 1⟩], .kv2ltd⟩ else none
  kvBytes k := if k ∈ held then some [k.toUInt8] else none
  allocate _ _ := some [0]

def S3Connector.ofKeys (held : List ℕ) : S3Connector ℕ where
  store :=
    { objectSize := fun k => if k ∈ held then 1 else 0
      allocate := fun _ => some [0]
      download := fun k => if k ∈ held then some [k.toUInt8] else none }
  connectionDisabled := false
  objectSizeCache _ := none

/-- A backend whose lookup found all keys, before the store lost some. -/
def PrefetchBackend.found (c : Connector ℕ) : PrefetchBackend ℕ :=
  .remote ⟨List.length, some c, false⟩

/-! ### The whole prefetch -/

section prefetch
variable {K : Type} [DecidableEq K]

/-- All pairs that the prefetch makes for remote backends are right. -/
def PrefetchPairsRight (backends : List (PrefetchBackend K)) (keys : List K) : Prop :=
  ∀ results, asyncLookupAndPrefetch backends keys = some results →
    ∀ (i : ℕ) (b : RemoteBackend K) (taskKeys : List K) (pairs : List (K × Bytes)),
      (loadingTasks keys.length backends keys 0)[i]? = some (.remote b, taskKeys) →
        results[i]? = some pairs → b.PairsRight pairs

theorem gatherWithKeys_map (tasks : List (PrefetchBackend K × List K)) :
    gatherWithKeys (tasks.map Prod.snd) (tasks.map fun t => t.1.batchedGetNonBlocking t.2) =
      tasks.map fun t => t.2.zip (t.1.batchedGetNonBlocking t.2) := by
  rw [gatherWithKeys, zip_map', map_map]
  rfl

theorem prefetchPairsRight_iff_tasks (backends : List (PrefetchBackend K)) (keys : List K) :
    PrefetchPairsRight backends keys ↔
      ∀ (b : RemoteBackend K) (taskKeys : List K),
        (.remote b, taskKeys) ∈ loadingTasks keys.length backends keys 0 →
          b.PairsRight (taskKeys.zip (b.batchedGetNonBlocking taskKeys)) := by
  unfold PrefetchPairsRight asyncLookupAndPrefetch
  dsimp only
  rw [gatherWithKeys_map]
  constructor
  · intro h b taskKeys hmem
    obtain ⟨i, hi⟩ := mem_iff_getElem?.mp hmem
    apply h _ (if_neg ?_) i b taskKeys _ hi
    · rw [getElem?_map, hi]
      rfl
    · grind
  · intro h results hres i b taskKeys pairs hi hp
    split_ifs at hres
    cases hres
    rw [getElem?_map, hi] at hp
    cases hp
    exact h b taskKeys (mem_of_getElem? hi)

/-- **Keys and objects match**: the list of a connector is aligned with distinct keys if and
only if the connector keeps their order, and the pairs of a prefetch over any backends are
right if and only if every remote backend keeps the order of the keys it fetches. -/
theorem prefetch_pairs_iff {keys : List K} (hkeys : keys.Nodup) :
    (∀ c : Connector K,
      (∀ objs, c.batchedGetNonBlocking keys = .ok objs → Aligned c.get keys objs) ↔
        c.KeepsOrder keys) ∧
      ∀ backends : List (PrefetchBackend K), PrefetchPairsRight backends keys ↔
        ∀ (b : RemoteBackend K) (taskKeys : List K),
          (.remote b, taskKeys) ∈ loadingTasks keys.length backends keys 0 →
            b.KeepsOrder taskKeys := by
  refine ⟨fun c => c.aligned_iff hkeys, fun backends => ?_⟩
  rw [prefetchPairsRight_iff_tasks]
  have hnodup : ∀ (b : RemoteBackend K) (taskKeys : List K),
      (.remote b, taskKeys) ∈ loadingTasks keys.length backends keys 0 → taskKeys.Nodup :=
    fun b taskKeys hmem => (loadingTasks_sublist hmem).nodup hkeys
  constructor
  · intro h b taskKeys hmem
    exact (b.pairsRight_iff (hnodup b taskKeys hmem)).mp (h b taskKeys hmem)
  · intro h b taskKeys hmem
    exact (b.pairsRight_iff (hnodup b taskKeys hmem)).mpr (h b taskKeys hmem)

end prefetch

theorem prefetch_pairs_last_lost :
    [0, 1, 2].Nodup ∧
      asyncLookupAndPrefetch [.found (.redis (.ofKeys [0, 1]))] [0, 1, 2] =
        some [[(0, [0]), (1, [1])]] ∧
      PrefetchPairsRight [.found (.redis (.ofKeys [0, 1]))] [0, 1, 2] := by
  refine ⟨by decide, by decide, ?_⟩
  refine ((prefetch_pairs_iff (by decide)).2 _).mpr ?_
  intro b taskKeys hmem
  cases mem_singleton.mp hmem
  refine Or.inr fun c hc => ?_
  cases hc
  refine Or.inr (Or.inr ?_)
  show [0, 1, 2].Pairwise _
  simp [Connector.Missing, RemoteStore.ofKeys]

/-- The store has lost key `0`; the lists of all three connectors are the object of key `1`
alone, and the prefetch pairs it with key `0`. -/
theorem prefetch_pairs_shifted :
    [0, 1].Nodup ∧
      (∀ c ∈ ([.redis (.ofKeys [1]), .eic (.ofKeys [1]), .s3 (.ofKeys [1])] : List (Connector ℕ)),
        c.get 0 = .ok none ∧ c.get 1 = .ok (some [1]) ∧
          c.batchedGetNonBlocking [0, 1] = .ok [[1]] ∧ ¬ Aligned c.get [0, 1] [[1]] ∧
          asyncLookupAndPrefetch [.found c] [0, 1] = some [[(0, [1])]]) ∧
      ¬ PrefetchPairsRight [.found (.redis (.ofKeys [1]))] [0, 1] := by
  refine ⟨by decide, ?_, ?_⟩
  · intro c hc
    have hget : c.get 0 = .ok none ∧ c.get 1 = .ok (some [1]) ∧
        c.batchedGetNonBlocking [0, 1] = .ok [[1]] ∧
        asyncLookupAndPrefetch [.found c] [0, 1] = some [[(0, [1])]] := by
      simp only [mem_cons, not_mem_nil, or_false] at hc
      obtain rfl | rfl | rfl := hc
      all_goals exact ⟨rfl, rfl, rfl, rfl⟩
    refine ⟨hget.1, hget.2.1, hget.2.2.1, fun ha => ?_, hget.2.2.2⟩
    obtain ⟨k, hk, hgk⟩ := ha 0 [1] rfl
    grind
  · intro h
    obtain ⟨c, hc, hget⟩ := h _ rfl 0 _ _ _ rfl rfl (0, [1]) mem_cons_self
    cases hc
    cases hget

end LMCache
