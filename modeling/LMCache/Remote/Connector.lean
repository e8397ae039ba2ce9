import LMCache.Memory.MemoryObj

/-! # Remote connectors

A remote connector fetches the objects of a list of keys from a store on another machine.
Between the lookup and the fetch the store may have dropped some of the keys, and the local
backend may have no memory left for an object; the fetch of such a key gives `None`.

* **Stores.**  A store is what it holds at fetch time: Redis and EIC keep the metadata and
  the bytes of a key apart, S3 keeps one object and its size.  The memory that the local
  backend allocates for a key is given by its bytes before the download.
* **`batched_get_non_blocking`.**  The connectors for Redis, EIC and S3 drop the `None`s
  from the list of results.  The default of `RemoteConnector` returns the results in front
  of the first failure and releases the others.

The downloads of a batch run concurrently; their results are listed in the order of the
keys.  Left out are the reference counts of objects given up on the way, and the deletion of
Redis metadata whose bytes are gone. -/

namespace LMCache

abbrev Bytes := List UInt8

structure RemoteMetadata where
  length : ℕ
  shapes : List Shape
  dtypes : List Dtype
  fmt : MemoryFormat
deriving DecidableEq, Repr

def overwrite (view data : Bytes) : Bytes := data.take view.length ++ view.drop data.length

/-! ### Redis and EIC -/

/-- The contents of a store that keeps metadata and bytes apart, and the memory allocated for
a key with its metadata. -/
structure RemoteStore (K : Type) where
  metadata : K → Option RemoteMetadata
  kvBytes : K → Option Bytes
  allocate : K → RemoteMetadata → Option Bytes

/-- The list without its `None`s: `[r for r in results if r is not None]`. -/
def dropNone {O : Type} (results : List (Option O)) : List O := results.filterMap id

/-- `asyncio.gather` of the fetches of the keys, without the `None`s. -/
def gatherNonNone {K O : Type} (get : K → Except PyError (Option O)) (keys : List K) :
    Except PyError (List O) := do
  let results ← keys.mapM get
  return dropNone results

namespace RedisConnector

variable {K : Type} (r : RemoteStore K)

/-- `RedisConnector._get`; assigning bytes of another length to the view raises. -/
def get (key : K) : Except PyError (Option Bytes) :=
  match r.metadata key with
  | none => .ok none
  | some metadata =>
    match r.allocate key metadata with
    | none => .ok none
    | some view =>
      match r.kvBytes key with
      | none => .ok none
      | some kvBytes =>
        if kvBytes.length = min metadata.length view.length then
          .ok (some (kvBytes ++ view.drop metadata.length))
        else
          .error ⟨.valueError,
            "memoryview assignment: lvalue and rvalue have different structures"⟩

def batchedGetNonBlocking (keys : List K) : Except PyError (List Bytes) :=
  gatherNonNone (get r) keys

end RedisConnector

namespace EICConnector

variable {K : Type} (r : RemoteStore K)

def getData (key : K) (metadata : RemoteMetadata) : Option Bytes :=
  match r.allocate key metadata with
  | none => none
  | some view => (r.kvBytes key).map (overwrite view)

def get (key : K) : Except PyError (Option Bytes) :=
  match r.metadata key with
  | none => .ok none
  | some metadata => .ok (getData r key metadata)

def batchedGetNonBlocking (keys : List K) : Except PyError (List Bytes) :=
  gatherNonNone (get r) keys

end EICConnector

/-! ### S3 -/

/-- `objectSize` is the answer to a `HEAD` request, `0` for a missing object; `download` is
`none` when the request fails. -/
structure S3Store (K : Type) where
  objectSize : K → ℤ
  allocate : K → Option Bytes
  download : K → Option Bytes

/-- The connector with its cache of object sizes. -/
structure S3Connector (K : Type) where
  store : S3Store K
  connectionDisabled : Bool
  objectSizeCache : K → Option ℤ

namespace S3Connector

variable {K : Type}

/-- The variables of the first loop of `batched_get`; a future is the result it will have. -/
structure Batch (K : Type) where
  objectSizeCache : K → Option ℤ
  memoryObjs : List (Option Bytes)
  futures : List (Option Bytes)
  futureToMemobjIdx : List ℕ

/-- The rest of the body of the first loop, once the size is known. -/
def Batch.download (s : S3Store K) (b : Batch K) (key : K) (objSize : ℤ) : Batch K :=
  match s.allocate key with
  | none => { b with memoryObjs := b.memoryObjs ++ [none] }
  | some view =>
    if objSize ≠ view.length then { b with memoryObjs := b.memoryObjs ++ [none] }
    else
      { b with
        memoryObjs := b.memoryObjs ++ [some view]
        futures := b.futures ++ [s.download key]
        futureToMemobjIdx := b.futureToMemobjIdx ++ [b.memoryObjs.length] }

def Batch.step [DecidableEq K] (s : S3Store K) (b : Batch K) (key : K) : Batch K :=
  match b.objectSizeCache key with
  | some objSize => b.download s key objSize
  | none =>
    let objSize := s.objectSize key
    if objSize ≤ 0 then
      { b with
        objectSizeCache := Function.update b.objectSizeCache key (some 0)
        memoryObjs := b.memoryObjs ++ [none] }
    else
      Batch.download s
        { b with objectSizeCache := Function.update b.objectSizeCache key (some objSize) }
        key objSize

/-- The second loop: a failed download gives its object up. -/
def settle (memoryObjs : List (Option Bytes)) : List (Option Bytes × ℕ) → List (Option Bytes)
  | [] => memoryObjs
  | (none, memobjIdx) :: results => settle (memoryObjs.set memobjIdx none) results
  | (some data, memobjIdx) :: results =>
    settle (memoryObjs.modify memobjIdx (Option.map fun view => overwrite view data)) results

def batchedGet [DecidableEq K] (c : S3Connector K) (keys : List K) : List (Option Bytes) :=
  if c.connectionDisabled then List.replicate keys.length none
  else
    let b := keys.foldl (Batch.step c.store) ⟨c.objectSizeCache, [], [], []⟩
    settle b.memoryObjs (b.futures.zip b.futureToMemobjIdx)

def batchedGetNonBlocking [DecidableEq K] (c : S3Connector K) (keys : List K) : List Bytes :=
  dropNone (c.batchedGet keys)

/-- The rest of `get`, once the size is known. -/
def fetchSized (s : S3Store K) (key : K) (objSize : ℤ) : Option Bytes :=
  match s.allocate key with
  | none => none
  | some view =>
    if objSize ≠ view.length then none
    else (s.download key).map fun data => overwrite view data

/-- `S3Connector.get`: the fetch of one key. -/
def get (c : S3Connector K) (key : K) : Option Bytes :=
  if c.connectionDisabled then none
  else
    match c.objectSizeCache key with
    | some objSize => fetchSized c.store key objSize
    | none =>
      let objSize := c.store.objectSize key
      if objSize ≤ 0 then none else fetchSized c.store key objSize

end S3Connector

/-! ### The default -/

namespace RemoteConnector

/-- The loop of the default `batched_get_non_blocking`: the objects returned and those
released. -/
def takeHits {O : Type} : Bool → List (Except PyError (Option O)) → List O × List O
  | _, [] => ([], [])
  | true, result :: results =>
    let r := takeHits true results
    match result with
    | .ok (some o) => (r.1, o :: r.2)
    | _ => r
  | false, .ok (some o) :: results =>
    let r := takeHits false results
    (o :: r.1, r.2)
  | false, _ :: results => takeHits true results

/-- `RemoteConnector.batched_get_non_blocking` over the connector's `get`. -/
def batchedGetNonBlocking {K : Type} (get : K → Except PyError (Option Bytes)) (keys : List K) :
    List Bytes :=
  (takeHits false (keys.map get)).1

end RemoteConnector

/-! ### All connectors -/

/-- A connector with the store behind it; `base` is any connector that inherits the
default. -/
inductive Connector (K : Type) where
  | redis (r : RemoteStore K)
  | eic (r : RemoteStore K)
  | s3 (c : S3Connector K)
  | base (get : K → Except PyError (Option Bytes))

namespace Connector

variable {K : Type}

/-- The object that the connector fetches for one key. -/
def get : Connector K → K → Except PyError (Option Bytes)
  | redis r, key => RedisConnector.get r key
  | eic r, key => EICConnector.get r key
  | s3 c, key => .ok (c.get key)
  | base get, key => get key

def batchedGetNonBlocking [DecidableEq K] : Connector K → List K → Except PyError (List Bytes)
  | redis r, keys => RedisConnector.batchedGetNonBlocking r keys
  | eic r, keys => EICConnector.batchedGetNonBlocking r keys
  | s3 c, keys => .ok (c.batchedGetNonBlocking keys)
  | base get, keys => .ok (RemoteConnector.batchedGetNonBlocking get keys)

end Connector

end LMCache
