import LMCache.Controller.Registry
import LMCache.Engine.CacheEngineKey
import LMCache.Lib.Transition
import LMCache.Local.MemoryAllocator
import LMCache.Local.PolicyInvariant

/-! # The CPU backend

`LocalCPUBackend` keeps memory objects under their keys in `hot_cache`, holds one reference to
each of them, and evicts entries when an allocation fails.  Every insertion is announced to the
controller by an `ADMIT` operation with the hash of the chunk, and every `remove` by an `EVICT`.

* **Objects.** The cache maps a key to the number of its object in the pool of the allocator.
* **Messages.** `ops` are the operations handed to the `BatchedMessageSender`, in order.  The
  backend is one that has a sender.
* **Lock sections.** `Event` has one constructor for each section that runs under `cpu_lock` or
  inside of the allocator, and for what the holders of objects do to them.  The calls of the source
  are functions here, too; each of them is a sequence of events (`Runs`).
* **Loops.** `allocate` and `batched_allocate` may wait for ever; their loops have fuel, and `none`
  says that the call is still waiting.
* Logging, statistics and the callbacks of the put tasks are left out. -/

namespace LMCache.Local

open Controller (OpType)

/-- What a call raises: an error of the cache policy, a missing key of `hot_cache`, or an error of
the memory allocator. -/
inductive BackendError (H : Type) where
  | policy (e : KeyError (CacheEngineKey H))
  | notCached (key : CacheEngineKey H)
  | other (e : PyError)
deriving DecidableEq, Repr

structure CPUConfig where
  useHot : Bool
  layerwise : Bool
  enableBlending : Bool
deriving DecidableEq, Repr

structure LocalCPUBackend (A H : Type) where
  config : CPUConfig
  pool : Pool A
  hotCache : Dict (CacheEngineKey H) ℕ
  cachePolicy : CachePolicy (CacheEngineKey H)
  keysInRequest : List (CacheEngineKey H)
  ops : List (OpType × H)

/-- `can_evict`: the object is not pinned and has one reference. -/
def canEvict {A : Type} (p : Pool A) (i : ℕ) : Bool :=
  p.objs[i]?.any fun o => !decide (0 < o.metadata.pinCount) && decide (o.metadata.refCount = 1)

namespace LocalCPUBackend

variable {A H : Type} [DecidableEq H] (M : MemoryAllocator A) (b : LocalCPUBackend A H)

/-! ### Looking up -/

def contains (key : CacheEngineKey H) (pin : Bool) : Bool × LocalCPUBackend A H :=
  match b.hotCache.get? key with
  | none => (false, b)
  | some i =>
    (true, if pin then
        { b with pool := b.pool.pin i, keysInRequest := b.keysInRequest ++ [key] }
      else b)

/-- The loop of `touch_cache`. -/
def touchAll : List (CacheEngineKey H) → CachePolicy (CacheEngineKey H) →
    Dict (CacheEngineKey H) ℕ → Option (KeyError (CacheEngineKey H)) ×
      CachePolicy (CacheEngineKey H) × Dict (CacheEngineKey H) ℕ
  | [], policy, cache => (none, policy, cache)
  | key :: keys, policy, cache =>
    match policy.updateOnHit key cache with
    | .error e => (some e, policy, cache)
    | .ok (policy, cache) => touchAll keys policy cache

def touchCache : Option (BackendError H) × LocalCPUBackend A H :=
  match touchAll b.keysInRequest.reverse b.cachePolicy b.hotCache with
  | (some e, policy, cache) =>
    (some (.policy e), { b with cachePolicy := policy, hotCache := cache })
  | (none, policy, cache) =>
    (none, { b with cachePolicy := policy, hotCache := cache, keysInRequest := [] })

/-- `get_blocking`: the caller gets a reference of its own. -/
def getBlocking (key : CacheEngineKey H) : Option ℕ × LocalCPUBackend A H :=
  match b.hotCache.get? key with
  | none => (none, b)
  | some i => (some i, { b with pool := M.refCountUp b.pool i })

/-- The loop of `batched_get_non_blocking`. -/
def batchedGetNonBlocking (b : LocalCPUBackend A H) : List (CacheEngineKey H) → List ℕ →
    Except (BackendError H) (List ℕ) × LocalCPUBackend A H
  | [], memObjs => (.ok memObjs, b)
  | key :: keys, memObjs =>
    match b.hotCache.get? key with
    | none => (.error (.notCached key), b)
    | some i =>
      batchedGetNonBlocking { b with pool := M.refCountUp b.pool i } keys (memObjs ++ [i])

/-- `batched_async_contains`: the number of keys before the first one that is missing. -/
def batchedAsyncContains (b : LocalCPUBackend A H) (pin : Bool) : List (CacheEngineKey H) → ℕ →
    ℕ × LocalCPUBackend A H
  | [], numHitChunks => (numHitChunks, b)
  | key :: keys, numHitChunks =>
    match b.hotCache.get? key with
    | none => (numHitChunks, b)
    | some _ => batchedAsyncContains (b.contains key pin).2 pin keys (numHitChunks + 1)

def pin (key : CacheEngineKey H) : Bool × LocalCPUBackend A H :=
  match b.hotCache.get? key with
  | none => (false, b)
  | some i => (true, { b with pool := b.pool.pin i })

def unpin (key : CacheEngineKey H) : Bool × LocalCPUBackend A H :=
  match b.hotCache.get? key with
  | none => (false, b)
  | some i => (true, { b with pool := M.unpin b.pool i })

/-! ### Putting and removing -/

def submitPutTask (key : CacheEngineKey H) (memoryObj : ℕ) : LocalCPUBackend A H :=
  match b.hotCache.get? key with
  | some _ => b
  | none =>
    { b with
      pool := M.refCountUp b.pool memoryObj
      hotCache := b.hotCache.set key memoryObj
      cachePolicy := b.cachePolicy.updateOnPut key
      ops := b.ops ++ [(.admitKey, key.chunkHash)] }

def batchedSubmitPutTask (keys : List (CacheEngineKey H)) (memoryObjs : List ℕ) :
    LocalCPUBackend A H :=
  if b.config.useHot then
    (keys.zip memoryObjs).foldl (fun b e => b.submitPutTask M e.1 e.2) b
  else b

/-- `remove`: when the policy raises, the operation is not sent. -/
def remove (key : CacheEngineKey H) (force : Bool) :
    Except (BackendError H) Bool × LocalCPUBackend A H :=
  match b.hotCache.get? key with
  | none => (.ok false, b)
  | some i =>
    let b := { b with hotCache := b.hotCache.erase key, pool := M.refCountDown b.pool i }
    let u := if force then b.cachePolicy.updateOnForceEvict key else (none, b.cachePolicy)
    let b := { b with cachePolicy := u.2 }
    match u.1 with
    | some e => (.error (.policy e), b)
    | none => (.ok true, { b with ops := b.ops ++ [(.evictKey, key.chunkHash)] })

/-- The loop of `batched_remove`. -/
def batchedRemove (b : LocalCPUBackend A H) (force : Bool) : List (CacheEngineKey H) → ℕ →
    Except (BackendError H) ℕ × LocalCPUBackend A H
  | [], numRemoved => (.ok numRemoved, b)
  | key :: keys, numRemoved =>
    match b.remove M key force with
    | (.error e, b) => (.error e, b)
    | (.ok removed, b) => batchedRemove b force keys (numRemoved + removed.toNat)

def getNumTokens (i : ℕ) : Except PyError ℕ :=
  match b.pool.objs[i]? with
  | none => .ok 0
  | some o =>
    if M.isBuffer o then .ok 1
    else
      match o.metadata.shape[o.metadata.fmt.tokenDim]? with
      | none => .error ⟨.indexError, "tuple index out of range"⟩
      | some n => .ok n

/-- The loop of `clear`: the keys to remove and the number of their tokens. -/
def collectEvictable : List (CacheEngineKey H × ℕ) → List (CacheEngineKey H) → ℕ →
    Except PyError (List (CacheEngineKey H) × ℕ)
  | [], clearKeys, numClearedTokens => .ok (clearKeys, numClearedTokens)
  | (key, i) :: entries, clearKeys, numClearedTokens =>
    if canEvict b.pool i then
      match b.getNumTokens M i with
      | .error e => .error e
      | .ok n => collectEvictable entries (clearKeys ++ [key]) (numClearedTokens + n)
    else collectEvictable entries clearKeys numClearedTokens

def clear : Except (BackendError H) ℕ × LocalCPUBackend A H :=
  if b.config.useHot then
    match b.collectEvictable M b.hotCache.entries [] 0 with
    | .error e => (.error (.other e), b)
    | .ok (clearKeys, numClearedTokens) =>
      match b.batchedRemove M true clearKeys 0 with
      | (.error e, b) => (.error e, b)
      | (.ok _, b) => (.ok numClearedTokens, b)
  else (.ok 0, b)

/-! ### Evicting -/

/-- `get_evict_candidates` for one candidate. -/
def evictKeys : Except (KeyError (CacheEngineKey H)) (List (CacheEngineKey H)) :=
  (b.cachePolicy.getEvictCandidates b.hotCache (canEvict b.pool) 1).1

/-- The backend after the policy has been asked for a candidate. -/
def asked : LocalCPUBackend A H :=
  { b with cachePolicy := (b.cachePolicy.getEvictCandidates b.hotCache (canEvict b.pool) 1).2 }

/-- The lock section of `allocate`; `false` says that there is no candidate. -/
def evictOne : Except (BackendError H) Bool × LocalCPUBackend A H :=
  match b.evictKeys with
  | .error e => (.error (.policy e), b.asked)
  | .ok [] => (.ok false, b.asked)
  | .ok evictKeys =>
    match b.asked.batchedRemove M false evictKeys 0 with
    | (.error e, b) => (.error e, b)
    | (.ok _, b) => (.ok true, b)

/-- The loop of `batched_allocate` over the layers of a chunk. -/
def takeLayers (b : LocalCPUBackend A H) : List (CacheEngineKey H) → List ℕ →
    Except (BackendError H) (List ℕ) × LocalCPUBackend A H
  | [], oldMemObjs => (.ok oldMemObjs, b)
  | key :: keys, oldMemObjs =>
    match b.hotCache.get? key with
    | none => (.error (.notCached key), b)
    | some i =>
      let u := b.cachePolicy.updateOnForceEvict key
      match u.1 with
      | some e => (.error (.policy e), { b with cachePolicy := u.2 })
      | none =>
        takeLayers { b with cachePolicy := u.2, hotCache := b.hotCache.erase key } keys
          (oldMemObjs ++ [i])

/-- The loop of `batched_allocate` over the candidates: all layers are freed, whatever their
counters are, and no operation is sent. -/
def evictChunks (batchSize : ℕ) (b : LocalCPUBackend A H) : List (CacheEngineKey H) →
    Except (BackendError H) Unit × LocalCPUBackend A H
  | [] => (.ok (), b)
  | evictKey :: evictKeys =>
    match b.takeLayers (evictKey.splitLayers batchSize) [] with
    | (.error e, b) => (.error e, b)
    | (.ok oldMemObjs, b) =>
      let f := M.batchedFree b.pool oldMemObjs
      let b := { b with pool := f.2 }
      match f.1 with
      | some e => (.error (.other e), b)
      | none => evictChunks batchSize b evictKeys

/-- The lock section of `batched_allocate`. -/
def evictLayers (batchSize : ℕ) : Except (BackendError H) Bool × LocalCPUBackend A H :=
  match b.evictKeys with
  | .error e => (.error (.policy e), b.asked)
  | .ok [] => (.ok false, b.asked)
  | .ok evictKeys =>
    match b.asked.evictChunks M batchSize evictKeys with
    | (.error e, b) => (.error e, b)
    | (.ok _, b) => (.ok true, b)

/-! ### Allocating -/

def defaultFmt (fmt : Option MemoryFormat) : MemoryFormat :=
  fmt.getD (if b.config.layerwise then if b.config.enableBlending then .kv2td else .kvT2d
    else .kv2ltd)

/-- The loop of `allocate`. -/
def allocateLoop (y : Layout) (fmt : MemoryFormat) (busyLoop : Bool) :
    ℕ → LocalCPUBackend A H → Option (Except (BackendError H) (Option ℕ) × LocalCPUBackend A H)
  | 0, _ => none
  | fuel + 1, b =>
    match if b.config.useHot then b.evictOne M else (.ok false, b) with
    | (.error e, b) => some (.error e, b)
    | (.ok evicted, b) =>
      if !evicted && !busyLoop then some (.ok none, b)
      else
        let r := M.allocate b.pool y fmt
        let b := { b with pool := r.2 }
        match r.1 with
        | .error e => some (.error (.other e), b)
        | .ok (some i) => some (.ok (some i), b)
        | .ok none => allocateLoop y fmt busyLoop fuel b

def allocate (y : Layout) (fmt : Option MemoryFormat) (eviction busyLoop : Bool) (fuel : ℕ) :
    Option (Except (BackendError H) (Option ℕ) × LocalCPUBackend A H) :=
  let r := M.allocate b.pool y (b.defaultFmt fmt)
  let b' := { b with pool := r.2 }
  match r.1 with
  | .error e => some (.error (.other e), b')
  | .ok (some i) => some (.ok (some i), b')
  | .ok none =>
    if eviction then allocateLoop M y (b.defaultFmt fmt) busyLoop fuel b'
    else some (.ok none, b')

/-- The loop of `batched_allocate`; `memoryObjs` is the result of the last attempt. -/
def batchedAllocateLoop (y : Layout) (batchSize : ℕ) (fmt : MemoryFormat) (busyLoop : Bool) :
    ℕ → Option (List ℕ) → LocalCPUBackend A H →
      Option (Except (BackendError H) (Option (List ℕ)) × LocalCPUBackend A H)
  | 0, _, _ => none
  | fuel + 1, memoryObjs, b =>
    match if b.config.useHot then b.evictLayers M batchSize else (.ok false, b) with
    | (.error e, b) => some (.error e, b)
    | (.ok evicted, b) =>
      if !evicted && !busyLoop then some (.ok memoryObjs, b)
      else
        let r := M.batchedAllocate b.pool y batchSize fmt
        let b := { b with pool := r.2 }
        match r.1 with
        | .error e => some (.error (.other e), b)
        | .ok (some (i :: is)) => some (.ok (some (i :: is)), b)
        | .ok memoryObjs => batchedAllocateLoop y batchSize fmt busyLoop fuel memoryObjs b

def batchedAllocate (y : Layout) (batchSize : ℕ) (fmt : Option MemoryFormat)
    (eviction busyLoop : Bool) (fuel : ℕ) :
    Option (Except (BackendError H) (Option (List ℕ)) × LocalCPUBackend A H) :=
  let r := M.batchedAllocate b.pool y batchSize (b.defaultFmt fmt)
  let b' := { b with pool := r.2 }
  match r.1 with
  | .error e => some (.error (.other e), b')
  | .ok (some memoryObjs) => some (.ok (some memoryObjs), b')
  | .ok none =>
    if eviction then
      if M.isMixed then batchedAllocateLoop M y batchSize (b.defaultFmt fmt) busyLoop fuel none b'
      else some (.error (.other ⟨.assertionError, ""⟩), b')
    else some (.ok none, b')

end LocalCPUBackend

/-! ### The system -/

/-- One lock section, or what a holder does to an object. -/
inductive CPUEvent (H : Type) where
  | contains (key : CacheEngineKey H) (pin : Bool)
  | touchCache
  | getBlocking (key : CacheEngineKey H)
  | batchedGetNonBlocking (keys : List (CacheEngineKey H))
  | batchedAsyncContains (keys : List (CacheEngineKey H)) (pin : Bool)
  | pin (key : CacheEngineKey H)
  | unpin (key : CacheEngineKey H)
  | submitPutTask (key : CacheEngineKey H) (memoryObj : ℕ)
  | remove (key : CacheEngineKey H)
  | evictOne
  | evictLayers (batchSize : ℕ)
  | allocateObj (y : Layout) (fmt : MemoryFormat)
  | batchedAllocateObjs (y : Layout) (batchSize : ℕ) (fmt : MemoryFormat)
  | objRefCountUp (i : ℕ)
  | objRefCountDown (i : ℕ)
  | objPin (i : ℕ)
  | objUnpin (i : ℕ)

namespace LocalCPUBackend
variable {A H : Type} [DecidableEq H] (M : MemoryAllocator A)

/-- The state after an event.  The sections that evict are entered with `use_hot` only, that of
`batched_allocate` with the mixed allocator only. -/
def step (b : LocalCPUBackend A H) : CPUEvent H → LocalCPUBackend A H
  | .contains key pin => (b.contains key pin).2
  | .touchCache => b.touchCache.2
  | .getBlocking key => (b.getBlocking M key).2
  | .batchedGetNonBlocking keys => (b.batchedGetNonBlocking M keys []).2
  | .batchedAsyncContains keys pin => (b.batchedAsyncContains pin keys 0).2
  | .pin key => (b.pin key).2
  | .unpin key => (b.unpin M key).2
  | .submitPutTask key memoryObj => b.submitPutTask M key memoryObj
  | .remove key => (b.remove M key true).2
  | .evictOne => if b.config.useHot then (b.evictOne M).2 else b
  | .evictLayers batchSize =>
    if b.config.useHot && M.isMixed then (b.evictLayers M batchSize).2 else b
  | .allocateObj y fmt => { b with pool := (M.allocate b.pool y fmt).2 }
  | .batchedAllocateObjs y batchSize fmt =>
    { b with pool := (M.batchedAllocate b.pool y batchSize fmt).2 }
  | .objRefCountUp i => { b with pool := M.refCountUp b.pool i }
  | .objRefCountDown i => { b with pool := M.refCountDown b.pool i }
  | .objPin i => { b with pool := b.pool.pin i }
  | .objUnpin i => { b with pool := M.unpin b.pool i }

def new (config : CPUConfig) (pool : Pool A) (cachePolicy : CachePolicy (CacheEngineKey H)) :
    LocalCPUBackend A H :=
  { config, pool, hotCache := Dict.empty, cachePolicy, keysInRequest := [], ops := [] }

end LocalCPUBackend

/-- `get_cache_policy`: the policies before the first call. -/
def CachePolicy.IsNew {K : Type} : CachePolicy K → Prop
  | .lfu p => p = {}
  | _ => True

def cpuSystem {A : Type} (H : Type) [DecidableEq H] (M : MemoryAllocator A) :
    LTS (LocalCPUBackend A H) (CPUEvent H) where
  init b := ∃ config pool cachePolicy, CachePolicy.IsNew cachePolicy ∧
    b = .new config pool cachePolicy
  step b e b' := b' = b.step M e

end LMCache.Local
