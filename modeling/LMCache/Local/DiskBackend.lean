import LMCache.Controller.Registry
import LMCache.Engine.CacheEngineKey
import LMCache.Lib.Transition
import LMCache.Local.PolicyInvariant

/-! # The disk backend

`LocalDiskBackend` keeps chunks in files.  Its dictionary has an entry for every chunk that was
written; a put is accepted when its size is added to `current_cache_size`, and entered when a worker
thread has written the file.

* **Sections.**  Every function is what one thread does while it holds `disk_lock`.  Some sections
  take the lock by hand, and an exception in one of them leaves it taken for ever (`locked`).
* **Messages.**  `ops` has the operations for the controller, in the order of the insertions and
  deletions they are about.
* **Files.**  `files` are the paths that exist; a file may vanish at any time.
* **Threads.**  `DiskState` has the puts and the reads that are under way, each at one of the points
  between which other threads run, and the reference counts of the memory objects that are put.  The
  field `lost` is not the backend's: the sizes of the chunks that have left the dictionary or the
  puts and are still in `current_cache_size`.

The cache size is a number here, without the rounding of floats.  The content of the files, the
usage statistics and the callbacks are left out. -/

namespace LMCache.Local

open Controller (OpType)

structure DiskMetadata where
  path : String
  size : ℕ
  shape : Shape
  dtype : Dtype
  cachedPositions : Option (List ℤ)
  fmt : MemoryFormat
  pinCount : ℤ
deriving DecidableEq, Repr

namespace DiskMetadata

def pin (m : DiskMetadata) : DiskMetadata := { m with pinCount := m.pinCount + 1 }

def unpin (m : DiskMetadata) : DiskMetadata := { m with pinCount := m.pinCount - 1 }

def isPinned (m : DiskMetadata) : Bool := decide (0 < m.pinCount)

def canEvict (m : DiskMetadata) : Bool := !m.isPinned

end DiskMetadata

structure DiskObj where
  physicalSize : ℕ
  shape : Shape
  dtype : Dtype
  cachedPositions : Option (List ℤ)
  fmt : MemoryFormat
deriving DecidableEq, Repr

inductive DiskError (H : Type) where
  | policy (e : KeyError (CacheEngineKey H))
  | noEntry (key : CacheEngineKey H)
  | fileNotFound (path : String)
  | notFoundAfterPinning (key : CacheEngineKey H)
  | allocationFailed
deriving DecidableEq, Repr

structure LocalDiskBackend (H : Type) where
  keyToPath : CacheEngineKey H → String
  maxCacheSize : ℕ
  dict : Dict (CacheEngineKey H) DiskMetadata
  cachePolicy : CachePolicy (CacheEngineKey H)
  currentCacheSize : ℤ
  keysInRequest : List (CacheEngineKey H)
  putTasks : List (CacheEngineKey H)
  files : Finset String
  locked : Bool
  ops : List (OpType × H)

namespace LocalDiskBackend

variable {H : Type} [DecidableEq H] (b : LocalDiskBackend H)

def new (keyToPath : CacheEngineKey H → String) (maxCacheSize : ℕ)
    (cachePolicy : CachePolicy (CacheEngineKey H)) (files : Finset String) : LocalDiskBackend H :=
  ⟨keyToPath, maxCacheSize, Dict.empty, cachePolicy, 0, [], [], files, false, []⟩

/-! ### Lookups and pins -/

def contains (key : CacheEngineKey H) (pin : Bool) : Bool × LocalDiskBackend H :=
  if key ∈ b.dict.keys then
    (true, if pin then
        { b with dict := b.dict.modify key .pin, keysInRequest := b.keysInRequest ++ [key] }
      else b)
  else (false, b)

/-- `batched_async_contains`: the number of keys before the first one that is missing. -/
def batchedAsyncContains (b : LocalDiskBackend H) (pin : Bool) : List (CacheEngineKey H) →
    ℕ × LocalDiskBackend H
  | [] => (0, b)
  | key :: keys =>
    let r := b.contains key pin
    if r.1 then
      let rest := r.2.batchedAsyncContains pin keys
      (rest.1 + 1, rest.2)
    else (0, b)

/-- A hit: the policy may reorder the dictionary. -/
def hit (key : CacheEngineKey H) : Option (KeyError (CacheEngineKey H)) × LocalDiskBackend H :=
  match b.cachePolicy.updateOnHit key b.dict with
  | .error e => (some e, b)
  | .ok (cachePolicy, dict) => (none, { b with cachePolicy, dict })

/-- The loop of `touch_cache`. -/
def touchAll (b : LocalDiskBackend H) : List (CacheEngineKey H) →
    Option (KeyError (CacheEngineKey H)) × LocalDiskBackend H
  | [] => (none, b)
  | key :: keys =>
    match b.hit key with
    | (some e, b) => (some e, b)
    | (none, b) => touchAll b keys

def touchCache : Option (KeyError (CacheEngineKey H)) × LocalDiskBackend H :=
  match b.touchAll b.keysInRequest.reverse with
  | (some e, b) => (some e, b)
  | (none, b) => (none, { b with keysInRequest := [] })

def pin (key : CacheEngineKey H) : Bool × LocalDiskBackend H :=
  if key ∈ b.dict.keys then (true, { b with dict := b.dict.modify key .pin }) else (false, b)

def unpin (key : CacheEngineKey H) : Bool × LocalDiskBackend H :=
  if key ∈ b.dict.keys then (true, { b with dict := b.dict.modify key .unpin }) else (false, b)

/-! ### Reads -/

/-- The section of `get_blocking`: an error leaves the lock taken. -/
def getSection (key : CacheEngineKey H) :
    Except (DiskError H) (Option DiskMetadata) × LocalDiskBackend H :=
  match b.dict.get? key with
  | none => (.ok none, b)
  | some m =>
    match b.hit key with
    | (some e, b) => (.error (.policy e), { b with locked := true })
    | (none, b) => (.ok (some m), b)

/-- The section of `batched_get_non_blocking` for one key; `allocated` says whether there was a
memory object for it. -/
def prefetchSection (key : CacheEngineKey H) (allocated : Bool) :
    Except (DiskError H) (Option DiskMetadata) × LocalDiskBackend H :=
  match b.dict.get? key with
  | none => (.error (.notFoundAfterPinning key), { b with locked := true })
  | some m =>
    if allocated then
      match hit { b with dict := b.dict.modify key .pin } key with
      | (some e, b) => (.error (.policy e), { b with locked := true })
      | (none, b) => (.ok (some m), b)
    else (.error .allocationFailed, { b with locked := true })

/-- The section of `batched_async_load_bytes_from_disk` for one key. -/
def prefetchLoaded (key : CacheEngineKey H) : Except (DiskError H) Unit × LocalDiskBackend H :=
  if key ∈ b.dict.keys then (.ok (), { b with dict := b.dict.modify key .unpin })
  else (.error (.noEntry key), { b with locked := true })

/-- `read_file` when the file is missing; the lock is not taken. -/
def readMissing (key : CacheEngineKey H) : LocalDiskBackend H :=
  { b with dict := b.dict.erase key }

/-! ### Removal and eviction -/

/-- `remove`: with `force` it takes the lock itself, and an exception leaves it taken. -/
def remove (key : CacheEngineKey H) (force : Bool) :
    Except (DiskError H) Bool × LocalDiskBackend H :=
  match b.dict.get? key with
  | none => (.ok false, b)
  | some m =>
    let b := { b with dict := b.dict.erase key }
    if m.path ∈ b.files then
      let b := { b with files := b.files.erase m.path }
      let u := if force then b.cachePolicy.updateOnForceEvict key else (none, b.cachePolicy)
      let b := { b with cachePolicy := u.2 }
      match u.1 with
      | some e => (.error (.policy e), { b with locked := true })
      | none => (.ok true, { b with ops := b.ops ++ [(.evictKey, key.chunkHash)] })
    else (.error (.fileNotFound m.path), { b with locked := b.locked || force })

/-- The loop of `batched_remove`. -/
def batchedRemove (b : LocalDiskBackend H) (force : Bool) : List (CacheEngineKey H) →
    Except (DiskError H) ℕ × LocalDiskBackend H
  | [] => (.ok 0, b)
  | key :: keys =>
    match b.remove key force with
    | (.error e, b) => (.error e, b)
    | (.ok removed, b) =>
      match batchedRemove b force keys with
      | (.error e, b) => (.error e, b)
      | (.ok n, b) => (.ok (removed.toNat + n), b)

/-- The loop that takes the sizes of the candidates off. -/
def lowerAll (b : LocalDiskBackend H) : List (CacheEngineKey H) →
    Option (DiskError H) × LocalDiskBackend H
  | [] => (none, b)
  | key :: keys =>
    match b.dict.get? key with
    | none => (some (.noEntry key), b)
    | some m => lowerAll { b with currentCacheSize := b.currentCacheSize - m.size } keys

/-- `get_evict_candidates` for one candidate. -/
def evictKeys : Except (KeyError (CacheEngineKey H)) (List (CacheEngineKey H)) :=
  (b.cachePolicy.getEvictCandidates b.dict DiskMetadata.canEvict 1).1

/-- The backend after the policy has been asked for a candidate. -/
def asked : LocalDiskBackend H :=
  { b with cachePolicy := (b.cachePolicy.getEvictCandidates b.dict DiskMetadata.canEvict 1).2 }

/-- One round of the loop in `submit_put_task` that makes room: its result, or the backend after an
eviction. -/
def evictRound : (Except (DiskError H) Bool × LocalDiskBackend H) ⊕ LocalDiskBackend H :=
  match b.evictKeys with
  | .error e => .inl (.error (.policy e), b.asked)
  | .ok [] => .inl (.ok false, b.asked)
  | .ok (key :: keys) =>
    match b.asked.lowerAll (key :: keys) with
    | (some e, b) => .inl (.error e, b)
    | (none, b) =>
      match b.batchedRemove false (key :: keys) with
      | (.error e, b) => .inl (.error e, b)
      | (.ok _, b) => .inr b

/-- At most `n` rounds; the loop ends before (`makeRoom_eq`). -/
def makeRoomLoop (requiredSize : ℕ) :
    ℕ → LocalDiskBackend H → Except (DiskError H) Bool × LocalDiskBackend H
  | 0, b => (.ok false, b)
  | n + 1, b =>
    if b.currentCacheSize + requiredSize > b.maxCacheSize then
      match b.evictRound with
      | .inl r => r
      | .inr b => makeRoomLoop requiredSize n b
    else (.ok true, b)

/-- The loop: there are no more evictions than entries. -/
def makeRoom (requiredSize : ℕ) : Except (DiskError H) Bool × LocalDiskBackend H :=
  makeRoomLoop requiredSize (b.dict.entries.length + 1) b

/-! ### Puts -/

/-- The section of `submit_put_task`: whether the put is accepted. -/
def reserve (requiredSize : ℕ) : Except (DiskError H) Bool × LocalDiskBackend H :=
  match b.makeRoom requiredSize with
  | (.ok true, b) => (.ok true, { b with currentCacheSize := b.currentCacheSize + requiredSize })
  | r => r

/-- The section of `insert_key`. -/
def insertKey (key : CacheEngineKey H) (obj : DiskObj) :
    Option (KeyError (CacheEngineKey H)) × LocalDiskBackend H :=
  if key ∈ b.dict.keys then b.hit key
  else
    (none, { b with
      dict := b.dict.set key ⟨b.keyToPath key, obj.physicalSize, obj.shape, obj.dtype,
        obj.cachedPositions, obj.fmt, 0⟩
      ops := b.ops ++ [(.admitKey, key.chunkHash)] })

end LocalDiskBackend

/-! ### The system -/

/-- Where a put is: after `submitted`, the check of the put tasks, the registration, the section of
`submit_put_task`, the notice to the policy, the write of the file, and the section of `insert_key`.
A put has ended when it was finished, skipped or refused, or has raised. -/
inductive PutStage where
  | submitted
  | checked
  | registered
  | accepted
  | scheduled
  | written
  | inserted
  | ended
deriving DecidableEq, Repr

/-- The size of the put is in `current_cache_size`, and its key is not entered. -/
def PutStage.inFlight : PutStage → Bool
  | .accepted | .scheduled | .written => true
  | _ => false

/-- A put of the memory object with number `id`. -/
structure DiskPut (H : Type) where
  key : CacheEngineKey H
  obj : DiskObj
  id : ℕ
  stage : PutStage
deriving DecidableEq, Repr

/-- A thread that has looked a key up and reads its file; `missing` when it was not found. -/
structure DiskReader (H : Type) where
  key : CacheEngineKey H
  path : String
  missing : Bool
deriving DecidableEq, Repr

structure DiskState (H : Type) where
  backend : LocalDiskBackend H
  puts : List (DiskPut H)
  readers : List (DiskReader H)
  refCounts : ℕ → ℤ
  lost : ℕ

inductive DiskEvent (H : Type) where
  | submit (key : CacheEngineKey H) (obj : DiskObj) (id : ℕ)
  | put (i : ℕ)
  | writeFails (i : ℕ)
  | contains (key : CacheEngineKey H) (pin : Bool)
  | batchedAsyncContains (keys : List (CacheEngineKey H)) (pin : Bool)
  | touchCache
  | pin (key : CacheEngineKey H)
  | unpin (key : CacheEngineKey H)
  | get (key : CacheEngineKey H)
  | prefetch (key : CacheEngineKey H) (allocated : Bool)
  | prefetchLoaded (key : CacheEngineKey H)
  | openFails (i : ℕ)
  | readMissing (i : ℕ)
  | vanish (path : String)
  | remove (key : CacheEngineKey H)
deriving DecidableEq, Repr

namespace DiskState

variable {H : Type} [DecidableEq H]

def setStage (s : DiskState H) (i : ℕ) (p : DiskPut H) (stage : PutStage) : DiskState H :=
  { s with puts := s.puts.set i { p with stage } }

/-- The size of an entry, or `0`. -/
def sizeOf (s : DiskState H) (key : CacheEngineKey H) : ℕ :=
  match s.backend.dict.get? key with
  | none => 0
  | some m => m.size

def inSection (s : DiskState H) (b : LocalDiskBackend H) : Option (DiskState H) :=
  if s.backend.locked then none else some { s with backend := b }

/-- A section that looks a key up; the thread goes on with its file. -/
def lookup (s : DiskState H) (key : CacheEngineKey H)
    (r : Except (DiskError H) (Option DiskMetadata) × LocalDiskBackend H) : Option (DiskState H) :=
  (s.inSection r.2).map fun s' =>
    match r.1 with
    | .ok (some m) => { s' with readers := s.readers ++ [⟨key, m.path, false⟩] }
    | _ => s'

/-- The section of `submit_put_task`. -/
def reserve (s : DiskState H) (i : ℕ) (p : DiskPut H) : DiskState H :=
  match s.backend.reserve p.obj.physicalSize with
  | (.ok true, b) => { s.setStage i p .accepted with backend := b }
  | (_, b) => { s.setStage i p .ended with backend := b }

/-- The section of `insert_key`, after the reference to the memory object was given back: a put of a
key that is stored loses its size. -/
def insertKey (s : DiskState H) (i : ℕ) (p : DiskPut H) : DiskState H :=
  let r := s.backend.insertKey p.key p.obj
  { s.setStage i p (if r.1.isSome then .ended else .inserted) with
    backend := r.2
    refCounts := Function.update s.refCounts p.id (s.refCounts p.id - 1)
    lost := if p.key ∈ s.backend.dict.keys then s.lost + p.obj.physicalSize else s.lost }

/-- The next step of a put; `none` when there is none, or when it waits for the lock. -/
def putStep (s : DiskState H) (i : ℕ) (p : DiskPut H) : Option (DiskState H) :=
  let b := s.backend
  match p.stage with
  | .submitted => some (s.setStage i p (if p.key ∈ b.putTasks then .ended else .checked))
  | .checked =>
    some { s.setStage i p .registered with
      backend := { b with putTasks := b.putTasks ++ [p.key] } }
  | .registered => if b.locked then none else some (s.reserve i p)
  | .accepted =>
    some { s.setStage i p .scheduled with
      backend := { b with cachePolicy := b.cachePolicy.updateOnPut p.key }
      refCounts := Function.update s.refCounts p.id (s.refCounts p.id + 1) }
  | .scheduled =>
    some { s.setStage i p .written with
      backend := { b with files := insert (b.keyToPath p.key) b.files } }
  | .written => if b.locked then none else some (s.insertKey i p)
  | .inserted =>
    some { s.setStage i p .ended with backend := { b with putTasks := b.putTasks.erase p.key } }
  | .ended => none

/-- A step of a thread; `none` when it waits for the lock, or is not there. -/
def step (s : DiskState H) : DiskEvent H → Option (DiskState H)
  | .submit key obj id => some { s with puts := s.puts ++ [⟨key, obj, id, .submitted⟩] }
  | .put i => s.puts[i]?.bind (s.putStep i)
  | .writeFails i => s.puts[i]?.bind fun p =>
    if p.stage = .scheduled then
      some { s.setStage i p .ended with lost := s.lost + p.obj.physicalSize }
    else none
  | .contains key pin => s.inSection (s.backend.contains key pin).2
  | .batchedAsyncContains keys pin => s.inSection (s.backend.batchedAsyncContains pin keys).2
  | .touchCache => s.inSection s.backend.touchCache.2
  | .pin key => s.inSection (s.backend.pin key).2
  | .unpin key => s.inSection (s.backend.unpin key).2
  | .get key => s.lookup key (s.backend.getSection key)
  | .prefetch key allocated => s.lookup key (s.backend.prefetchSection key allocated)
  | .prefetchLoaded key => s.inSection (s.backend.prefetchLoaded key).2
  | .openFails i => s.readers[i]?.bind fun r =>
    if r.path ∈ s.backend.files then none
    else some { s with readers := s.readers.set i { r with missing := true } }
  | .readMissing i => s.readers[i]?.bind fun r =>
    if r.missing then
      some { s with
        backend := s.backend.readMissing r.key
        readers := s.readers.eraseIdx i
        lost := s.lost + s.sizeOf r.key }
    else none
  | .vanish path =>
    some { s with backend := { s.backend with files := s.backend.files.erase path } }
  | .remove key =>
    (s.inSection (s.backend.remove key true).2).map fun s' =>
      { s' with lost := s.lost + s.sizeOf key }

def start (b : LocalDiskBackend H) : DiskState H := ⟨b, [], [], fun _ => 1, 0⟩

end DiskState

/-- All runs of a backend; the directory may have files already. -/
def diskSystem {H : Type} [DecidableEq H] (keyToPath : CacheEngineKey H → String)
    (maxCacheSize : ℕ) (cachePolicy : CachePolicy (CacheEngineKey H)) :
    LTS (DiskState H) (DiskEvent H) where
  init s := ∃ files, s = .start (.new keyToPath maxCacheSize cachePolicy files)
  step s e s' := s.step e = some s'

/-! ### A small disk -/

namespace SmallDisk

def key (n : ℕ) : CacheEngineKey ℕ :=
  { modelName := "m", worldSize := 1, workerId := 0, chunkHash := n, dtype := ⟨"uint8", 1⟩ }

def keyToPath (key : CacheEngineKey ℕ) : String := toString key.chunkHash

def obj : DiskObj := ⟨4, [4], ⟨"uint8", 1⟩, none, .kv2ltd⟩

/-- `n` steps of the put with number `i`. -/
def steps (i n : ℕ) : List (DiskEvent ℕ) := List.replicate n (.put i)

/-- The whole put with number `i`. -/
def put (i n : ℕ) : List (DiskEvent ℕ) := .submit (key n) obj i :: steps i 7

abbrev system (cachePolicy : CachePolicy (CacheEngineKey ℕ)) : LTS (DiskState ℕ) (DiskEvent ℕ) :=
  diskSystem keyToPath 6 cachePolicy

def start (cachePolicy : CachePolicy (CacheEngineKey ℕ)) : DiskState ℕ :=
  .start (.new keyToPath 6 cachePolicy ∅)

theorem exists_run (cachePolicy : CachePolicy (CacheEngineKey ℕ)) {P : DiskState ℕ → Prop}
    (es : List (DiskEvent ℕ)) (h : ∃ s ∈ es.foldlM DiskState.step (start cachePolicy), P s) :
    ∃ s, (system cachePolicy).Reachable s ∧ P s :=
  LTS.Reachable.exists_replay (S := system cachePolicy) (fun _ _ _ => id) es
    (.init ⟨∅, rfl⟩) h

end SmallDisk

end LMCache.Local
