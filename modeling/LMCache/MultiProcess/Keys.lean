import LMCache.Python
import LMCache.Lib.HashChain

/-! # Keys of the multiprocess server

A client names KV cache chunks by `IPCCacheEngineKey`s.  A key in token mode holds the tokens of
a request and the range `[start, stop)` of them that is meant; a key in hash mode holds the hash
of one chunk.  The server turns both into `ObjectKey`s, the keys of the storage.

* **Hashes.**  A hash is `bytes` or an `int`, which `hash_to_bytes` writes as 8 bytes; an `int`
  is one of 64 bits, since for any other one `hash_to_bytes` raises.
* **The hash function** comes from a library and is a field of `TokenHasher`, as is the hash of
  the empty prefix.
* **Lookups** hash the whole list of tokens with `compute_chunk_hashes` and ask for the objects
  of all workers (`lookupObjectKeys`).

`getElem?_flatMap_chunkObjects`: the object of chunk `i` and worker `w` stands at `i * worldSize +
w`. -/

namespace LMCache.MultiProcess

open List HashChain

/-! ### Hashes -/

inductive HashVal where
  | bytes (b : List (BitVec 8))
  | int (n : BitVec 64)
deriving DecidableEq, Repr

/-- `TokenHasher.hash_to_bytes`; an `int` becomes 8 bytes, most significant first. -/
def hashToBytes : HashVal → List (BitVec 8)
  | .bytes b => b
  | .int n => (List.range 8).map fun i => (n >>> (8 * (7 - i))).setWidth 8

structure TokenHasher where
  chunkSize : ℕ
  hashFunc : HashVal → List ℤ → HashVal
  noneHash : HashVal
  chunkSize_pos : 0 < chunkSize

namespace TokenHasher

variable (hasher : TokenHasher)

def hashTokens (tokens : List ℤ) (prefixHash : Option HashVal) : HashVal :=
  hasher.hashFunc (prefixHash.getD hasher.noneHash) tokens

/-- The loop of `compute_chunk_hashes` over the chunks. -/
def rollingHashes : HashVal → List (List ℤ) → List HashVal
  | _, [] => []
  | prefixHash, chunk :: chunks =>
    let h := hasher.hashTokens chunk (some prefixHash)
    h :: rollingHashes h chunks

def computeChunkHashes (tokenIds : List ℤ) : List HashVal :=
  let numComplete := tokenIds.length - tokenIds.length % hasher.chunkSize
  hasher.rollingHashes hasher.noneHash
    ((List.range ((numComplete + hasher.chunkSize - 1) / hasher.chunkSize)).map fun i =>
      (tokenIds.drop (i * hasher.chunkSize)).take hasher.chunkSize)

/-- The hash of the chunk number `i`. -/
def chunkHash (tokenIds : List ℤ) (i : ℕ) : HashVal :=
  chainHash hasher.hashFunc hasher.noneHash hasher.chunkSize tokenIds (i + 1)

theorem rollingHashes_eq_scan (h : HashVal) (cs : List (List ℤ)) :
    hasher.rollingHashes h cs = scan hasher.hashFunc h cs := by
  induction cs generalizing h with
  | nil => rfl
  | cons c cs ih =>
    rw [rollingHashes, scan, ih]
    rfl

/-- **`compute_chunk_hashes`** yields the hashes of the complete chunks. -/
theorem computeChunkHashes_eq (tokenIds : List ℤ) :
    hasher.computeChunkHashes tokenIds =
      (range (tokenIds.length / hasher.chunkSize)).map (hasher.chunkHash tokenIds) := by
  have hpos := hasher.chunkSize_pos
  have hdiv := Nat.div_add_mod tokenIds.length hasher.chunkSize
  have hcount : (tokenIds.length - tokenIds.length % hasher.chunkSize + hasher.chunkSize - 1) /
      hasher.chunkSize = tokenIds.length / hasher.chunkSize := by
    rw [show tokenIds.length - tokenIds.length % hasher.chunkSize + hasher.chunkSize - 1 =
        hasher.chunkSize - 1 + hasher.chunkSize * (tokenIds.length / hasher.chunkSize) by omega,
      Nat.add_mul_div_left _ _ hpos, Nat.div_eq_of_lt (by omega), Nat.zero_add]
  have hscan := scan_chunks hasher.hashFunc hasher.noneHash hasher.chunkSize
    tokenIds 0 (tokenIds.length / hasher.chunkSize)
  rw [← range_eq_range'] at hscan
  unfold computeChunkHashes
  dsimp only
  rw [hcount, rollingHashes_eq_scan]
  exact hscan

theorem chunkHash_congr {tokenIds history : List ℤ} (hpre : tokenIds <+: history) {i : ℕ}
    (hi : (i + 1) * hasher.chunkSize ≤ tokenIds.length) :
    hasher.chunkHash tokenIds i = hasher.chunkHash history i := by
  apply chainHash_congr
  obtain ⟨rest, rfl⟩ := hpre
  rw [take_append_of_le_length hi]

end TokenHasher

/-! ### Keys -/

structure IPCCacheEngineKey where
  modelName : String
  worldSize : ℕ
  workerId : Option ℕ
  tokenIds : Option (List ℤ)
  start : ℕ
  stop : ℕ
  chunkHash : Option (List (BitVec 8))
  requestId : Option String
deriving DecidableEq, Repr

structure ObjectKey where
  chunkHash : List (BitVec 8)
  modelName : String
  kvRank : ℕ
deriving DecidableEq, Repr

def computeKVRank (worldSize globalRank localWorldSize localRank : ℕ) : ℕ :=
  (worldSize <<< 24) ||| (globalRank <<< 16) ||| (localWorldSize <<< 8) ||| localRank

namespace IPCCacheEngineKey

def ofHash (key : IPCCacheEngineKey) (requestId : Option String) (h : HashVal) :
    IPCCacheEngineKey :=
  { modelName := key.modelName
    worldSize := key.worldSize
    workerId := key.workerId
    tokenIds := none
    start := 0
    stop := 0
    chunkHash := some (hashToBytes h)
    requestId := requestId }

def noWorkerIdVersion (key : IPCCacheEngineKey) : IPCCacheEngineKey := { key with workerId := none }

/-- `to_hash_keys`, of a key in token mode. -/
def toHashKeys (key : IPCCacheEngineKey) (hasher : TokenHasher) : List IPCCacheEngineKey :=
  (hasher.computeChunkHashes (key.tokenIds.getD [])).map (key.ofHash key.requestId)

def objectKey (key : IPCCacheEngineKey) (chunkHash : List (BitVec 8)) (workerId : ℕ) : ObjectKey :=
  { chunkHash := chunkHash
    modelName := key.modelName
    kvRank := computeKVRank key.worldSize workerId key.worldSize workerId }

/-- One pass of the loop of `ipc_keys_to_object_keys`. -/
def objectKeys (key : IPCCacheEngineKey) : Except PyError (List ObjectKey) :=
  match key.chunkHash with
  | none => .error ⟨.assertionError,
      "ipc_keys_to_object_keys requires hash-mode keys (chunk_hash must not be None)"⟩
  | some chunkHash =>
    match key.workerId with
    | none => .ok ((List.range key.worldSize).map (key.objectKey chunkHash))
    | some workerId => .ok [key.objectKey chunkHash workerId]

end IPCCacheEngineKey

def ipcKeysToObjectKeys : List IPCCacheEngineKey → Except PyError (List ObjectKey)
  | [] => .ok []
  | key :: keys =>
    match key.objectKeys with
    | .error e => .error e
    | .ok storageKeys => (ipcKeysToObjectKeys keys).map (storageKeys ++ ·)

theorem ipcKeysToObjectKeys_ok {keys : List IPCCacheEngineKey}
    {f : IPCCacheEngineKey → List ObjectKey} (h : ∀ key ∈ keys, key.objectKeys = .ok (f key)) :
    ipcKeysToObjectKeys keys = .ok (keys.flatMap f) := by
  induction keys with
  | nil => rfl
  | cons key keys ih =>
    rw [ipcKeysToObjectKeys, h key mem_cons_self, ih (forall_mem_cons.mp h).2, flatMap_cons]
    rfl

/-! ### Lookups -/

/-- The hash-mode keys of `lookup`. -/
def lookupIpcKeys (hasher : TokenHasher) (keys : List IPCCacheEngineKey) :
    List IPCCacheEngineKey :=
  keys.flatMap fun key => if key.tokenIds.isSome then key.toHashKeys hasher else [key]

/-- The object keys of `lookup`. -/
def lookupObjectKeys (hasher : TokenHasher) (keys : List IPCCacheEngineKey) :
    Except PyError (List ObjectKey) :=
  ipcKeysToObjectKeys (lookupIpcKeys hasher keys)

def chunkObjects (key : IPCCacheEngineKey) (h : HashVal) : List ObjectKey :=
  (List.range key.worldSize).map (key.objectKey (hashToBytes h))

theorem lookupObjectKeys_eq (hasher : TokenHasher) {key : IPCCacheEngineKey} {tokenIds : List ℤ}
    (htokens : key.tokenIds = some tokenIds) :
    lookupObjectKeys hasher [key.noWorkerIdVersion] =
      .ok ((range (tokenIds.length / hasher.chunkSize)).flatMap fun i =>
        chunkObjects key (hasher.chunkHash tokenIds i)) := by
  have hkeys : lookupIpcKeys hasher [key.noWorkerIdVersion] =
      ((range (tokenIds.length / hasher.chunkSize)).map (hasher.chunkHash tokenIds)).map
        (key.noWorkerIdVersion.ofHash key.requestId) := by
    rw [lookupIpcKeys, flatMap_singleton]
    unfold IPCCacheEngineKey.toHashKeys IPCCacheEngineKey.noWorkerIdVersion
    rw [htokens, if_pos Option.isSome_some, Option.getD_some, hasher.computeChunkHashes_eq]
  unfold lookupObjectKeys
  rw [hkeys, ipcKeysToObjectKeys_ok (f := fun k => (range k.worldSize).map
    (k.objectKey (k.chunkHash.getD [])))]
  · rw [flatMap_map, flatMap_map]
    rfl
  · intro k hk
    obtain ⟨h, -, rfl⟩ := mem_map.mp hk
    rfl

/-- **The position of an object** in the keys of a lookup. -/
theorem getElem?_flatMap_chunkObjects {key : IPCCacheEngineKey} {w : ℕ} (hw : w < key.worldSize)
    (hashOf : ℕ → HashVal) {n i : ℕ} (hi : i < n) :
    ((range n).flatMap fun i => chunkObjects key (hashOf i))[i * key.worldSize + w]? =
      some (key.objectKey (hashToBytes (hashOf i)) w) := by
  induction n with
  | zero => omega
  | succ n ih =>
    have hlen : ((range n).flatMap fun i => chunkObjects key (hashOf i)).length =
        n * key.worldSize := by
      rw [length_flatMap]
      simp [chunkObjects]
    rw [range_succ, flatMap_append, flatMap_singleton]
    rcases Nat.lt_or_eq_of_le (Nat.le_of_lt_succ hi) with hlt | rfl
    · grind
    · rw [getElem?_append_right (by rw [hlen]; omega), hlen, Nat.add_sub_cancel_left,
        chunkObjects, getElem?_map, getElem?_range hw, Option.map_some]

end LMCache.MultiProcess
