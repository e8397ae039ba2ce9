import LMCache.Engine.TokenDatabase

/-! # The storage manager

`StorageManager` asks its storage backends in their order.  `get_block_mapping` splits the
chunks of a request into consecutive slices, one for each backend that holds the next
chunks; `batched_get` fetches the objects of one location, some of which may be gone by
then.

A backend is what it answers: how many of the keys it holds, counted from the first one on
(`batched_contains`), and an object or `None` for the keys (`batched_get_blocking`).  The
copy that `batched_get` writes back to the local CPU backend is left out. -/

namespace LMCache

open List

/-- A storage backend for keys `K` and memory objects `O`. -/
structure StorageBackend (K O : Type) where
  name : String
  batchedContains : List K → ℕ
  batchedGetBlocking : List K → List (Option O)

/-- The fields of `StorageManager`; the backends are a dictionary by name. -/
structure StorageManager (K O : Type) where
  storageBackends : List (StorageBackend K O)
  freeze : Bool
  bypassedBackends : List String
  names_nodup : (storageBackends.map StorageBackend.name).Nodup

namespace StorageManager

variable {K O : Type} (m : StorageManager K O)

/-- `get_active_storage_backends`; the empty location stands for `None`. -/
def getActiveStorageBackends (location : String) : List (StorageBackend K O) :=
  m.storageBackends.filter fun b =>
    !(m.freeze && b.name != "LocalCPUBackend") && !m.bypassedBackends.contains b.name &&
      (location == "" || b.name == location)

/-- The loop of `batched_get`: the first answer that is not empty. -/
def firstAnswer (keys : List K) : List (StorageBackend K O) → List (Option O)
  | [] => List.replicate keys.length none
  | b :: bs =>
    let memoryObjs := b.batchedGetBlocking keys
    if memoryObjs.isEmpty then firstAnswer keys bs else memoryObjs

def batchedGet (keys : List K) (location : String) : List (Option O) :=
  firstAnswer keys (m.getActiveStorageBackends location)

/-- The loop of `get_block_mapping`; the dictionary is the list of its items. -/
def mapBlocks (chunkInfos : List (ChunkInfo K)) :
    List (StorageBackend K O) → List K → ℕ → List (String × List (ChunkInfo K))
  | [], _, _ => []
  | b :: bs, keys, totalHitChunks =>
    let hitChunks := b.batchedContains keys
    if hitChunks = 0 then mapBlocks chunkInfos bs keys totalHitChunks
    else
      (b.name, (chunkInfos.drop totalHitChunks).take hitChunks) ::
        if totalHitChunks + hitChunks = chunkInfos.length then []
        else mapBlocks chunkInfos bs (keys.drop hitChunks) (totalHitChunks + hitChunks)

def getBlockMapping (chunkInfos : List (ChunkInfo K)) : List (String × List (ChunkInfo K)) :=
  mapBlocks chunkInfos (m.getActiveStorageBackends "") (chunkInfos.map ChunkInfo.key) 0

theorem mapBlocks_append (chunkInfos : List (ChunkInfo K)) (bs : List (StorageBackend K O))
    (keys : List K) (n : ℕ) :
    ∃ rest, (mapBlocks chunkInfos bs keys n).flatMap Prod.snd ++ rest = chunkInfos.drop n := by
  induction bs generalizing keys n with
  | nil => exact ⟨_, rfl⟩
  | cons b bs ih =>
    unfold mapBlocks
    dsimp only
    split_ifs with h0 hall
    · exact ih keys n
    · refine ⟨(chunkInfos.drop n).drop (b.batchedContains keys), ?_⟩
      simp
    · obtain ⟨rest, hrest⟩ := ih (keys.drop (b.batchedContains keys))
        (n + b.batchedContains keys)
      refine ⟨rest, ?_⟩
      simp_all

theorem getBlockMapping_append (chunkInfos : List (ChunkInfo K)) :
    ∃ rest, (m.getBlockMapping chunkInfos).flatMap Prod.snd ++ rest = chunkInfos :=
  mapBlocks_append chunkInfos _ _ 0

theorem length_batchedGet {keys : List K} (location : String)
    (h : ∀ b ∈ m.storageBackends, (b.batchedGetBlocking keys).length = keys.length) :
    (m.batchedGet keys location).length = keys.length := by
  have hactive : ∀ b ∈ m.getActiveStorageBackends location,
      (b.batchedGetBlocking keys).length = keys.length := fun b hb =>
    h b (mem_of_mem_filter hb)
  unfold batchedGet
  generalize m.getActiveStorageBackends location = bs at hactive
  induction bs with
  | nil => exact length_replicate
  | cons b bs ih =>
    unfold firstAnswer
    grind

end StorageManager

end LMCache
