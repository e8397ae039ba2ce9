import LMCache.Lib.ByteStore
import LMCache.Lib.Dict
import LMCache.Memory.MemoryObj

/-! # The raw block backend

`RustRawBlockBackend` stores chunks in the slots of a block device.  A slot begins with a header and
goes on with the payload.  The index gives the slot of every chunk that was written; a chunk that is
being written is in flight.

* **Slots.**  `allocateSlot` takes a slot that was given back, or the next one of the device; when
  there is none, `reserveSlot` evicts chunks until there is.
* **Sections.**  Each definition is what one thread does while it holds the lock: `beginPut` and
  `finishWrite` are the two ends of a put, between which the device is written without the lock.
* **The manifest.**  `saveManifest` is the content of the file, `loadManifest` what a new backend
  makes of it.  A format and a shape stand for their JSON texts.

A capacity is a natural number, `0` stands for the whole device.  The reference counts of the memory
objects, debug statistics, the path and the pin count of `DiskCacheMetadata` are left out. -/

namespace LMCache

def roundUp (x align : ℕ) : ℕ := (x + align - 1) / align * align

/-- What the backend reads of a memory object: its bytes and its metadata. -/
structure ObjData where
  byteArray : List UInt8
  shape : Shape
  dtype : Dtype
  cachedPositions : Option (List ℤ)
  fmt : MemoryFormat
deriving DecidableEq, Repr

structure DiskCacheMetadata where
  size : ℕ
  shape : Shape
  dtype : Dtype
  cachedPositions : Option (List ℤ)
  fmt : MemoryFormat
deriving DecidableEq, Repr

/-- `_Entry`. -/
structure BlockEntry where
  offset : ℕ
  size : ℕ
  metadata : DiskCacheMetadata
deriving DecidableEq, Repr

structure Inflight where
  offset : ℕ
  metadata : DiskCacheMetadata
  canceled : Bool
deriving DecidableEq, Repr

/-- What the backend reads of a key: its texts, its dtype, and `int(key.chunk_hash)`, which is
`none` when that raises. -/
structure KeyCodec (K : Type) where
  toText : K → String
  fromText : String → Option K
  dtype : K → Dtype
  chunkHash : K → Option ℤ

/-- The options of the backend; `slotBytes` may be missing. -/
structure RawBlockConfig where
  devicePath : String
  capacityBytes : ℕ
  blockAlign : ℕ
  headerBytes : ℕ
  slotBytes : Option ℕ
  useOdirect : Bool
  manifestWriteInterval : ℕ
  fullChunkBytes : ℕ
deriving DecidableEq, Repr

structure RawBlockBackend (K : Type) where
  devicePath : String
  capacityBytes : ℕ
  blockAlign : ℕ
  headerBytes : ℕ
  slotBytes : ℕ
  useOdirect : Bool
  manifestWriteInterval : ℕ
  index : Dict K BlockEntry := .empty
  pinned : Finset K := ∅
  inflight : Dict K Inflight := .empty
  lru : Dict K Unit := .empty
  nextSlot : ℕ := 0
  freeSlots : List ℕ := []
  maxSlots : ℕ := 0
  writesSinceManifestSave : ℕ := 0
  putTasks : Finset K := ∅

namespace RawBlockBackend

variable {K : Type}

/-- `__init__`, without the manifest. -/
def new (c : RawBlockConfig) : Except PyError (RawBlockBackend K) :=
  if c.devicePath = "" then
    .error ⟨.valueError, "extra_config['rust_raw_block.device_path'] is required"⟩
  else if c.blockAlign = 0 then .error ⟨.zeroDivisionError, "integer division or modulo by zero"⟩
  else
    let slotBytes := c.slotBytes.getD (roundUp (c.headerBytes + c.fullChunkBytes) c.blockAlign)
    if slotBytes < c.headerBytes + 1 then
      .error ⟨.valueError, "rust_raw_block.slot_bytes too small"⟩
    else if slotBytes % c.blockAlign ≠ 0 then
      .error ⟨.valueError, "rust_raw_block.slot_bytes must be multiple of block_align"⟩
    else if c.headerBytes % c.blockAlign ≠ 0 then
      .error ⟨.valueError, "rust_raw_block.header_bytes must be multiple of block_align"⟩
    else
      .ok
        { devicePath := c.devicePath
          capacityBytes := c.capacityBytes
          blockAlign := c.blockAlign
          headerBytes := c.headerBytes
          slotBytes
          useOdirect := c.useOdirect
          manifestWriteInterval := c.manifestWriteInterval }

/-! ### Slots -/

/-- The last part of `_allocate_slot`: the slots that were given back are a stack. -/
def takeSlot (b : RawBlockBackend K) : Except PyError ℕ × RawBlockBackend K :=
  match b.freeSlots.getLast? with
  | some slot => (.ok (slot * b.slotBytes), { b with freeSlots := b.freeSlots.dropLast })
  | none =>
    if b.nextSlot < b.maxSlots then
      (.ok (b.nextSlot * b.slotBytes), { b with nextSlot := b.nextSlot + 1 })
    else (.error ⟨.runtimeError, "No free slots available; eviction required"⟩, b)

/-- `_allocate_slot`; `sizeBytes` is what `_rawdev().size_bytes()` gives. -/
def allocateSlot (sizeBytes : Except PyError ℕ) (b : RawBlockBackend K) :
    Except PyError ℕ × RawBlockBackend K :=
  match if b.capacityBytes = 0 then sizeBytes else .ok b.capacityBytes with
  | .error e => (.error e, b)
  | .ok capacityBytes =>
    let maxSlots := if b.maxSlots = 0 then capacityBytes / b.slotBytes else b.maxSlots
    let b := { b with capacityBytes, maxSlots }
    if maxSlots = 0 then
      (.error ⟨.runtimeError, "raw block capacity too small for slot size"⟩, b)
    else b.takeSlot

variable [DecidableEq K]

def touch (b : RawBlockBackend K) (key : K) : RawBlockBackend K :=
  { b with lru := (b.lru.erase key).set key () }

/-- The loop of `_evict_one` over the keys in LRU order. -/
def evictFrom (b : RawBlockBackend K) : List K → Bool × RawBlockBackend K
  | [] => (false, b)
  | victim :: victims =>
    if victim ∈ b.pinned ∨ victim ∈ b.inflight.keys then b.evictFrom victims
    else
      match b.index.get? victim with
      | none => evictFrom { b with lru := b.lru.erase victim } victims
      | some entry =>
        (true,
          { b with
            index := b.index.erase victim
            lru := b.lru.erase victim
            pinned := b.pinned.erase victim
            freeSlots := b.freeSlots ++ [entry.offset / b.slotBytes] })

def evictOne (b : RawBlockBackend K) : Bool × RawBlockBackend K := b.evictFrom b.lru.keys

/-- One round of the loop in `batched_submit_put_task` that allocates a slot: its result, or the
backend after an eviction. -/
def reserveRound (sizeBytes : Except PyError ℕ) (b : RawBlockBackend K) :
    (Except PyError ℕ × RawBlockBackend K) ⊕ RawBlockBackend K :=
  match b.allocateSlot sizeBytes with
  | (.ok offset, b) => .inl (.ok offset, b)
  | (.error e, b) =>
    if e.kind = .runtimeError then
      match b.evictOne with
      | (true, b) => .inr b
      | (false, b) => .inl (.error e, b)
    else .inl (.error e, b)

/-- At most `n` rounds; the loop ends before (`reserveSlot_eq`). -/
def reserveLoop (sizeBytes : Except PyError ℕ) :
    ℕ → RawBlockBackend K → Except PyError ℕ × RawBlockBackend K
  | 0, b => (.error ⟨.runtimeError, "No free slots available; eviction required"⟩, b)
  | n + 1, b =>
    match b.reserveRound sizeBytes with
    | .inl r => r
    | .inr b => reserveLoop sizeBytes n b

/-- The loop: there are no more evictions than entries. -/
def reserveSlot (sizeBytes : Except PyError ℕ) (b : RawBlockBackend K) :
    Except PyError ℕ × RawBlockBackend K := reserveLoop sizeBytes (b.index.entries.length + 1) b

/-! ### Lookups, pins and removal -/

def contains (b : RawBlockBackend K) (key : K) (pin : Bool) : Bool × RawBlockBackend K :=
  if key ∈ b.index.keys then
    (true, if pin then { b with pinned := insert key b.pinned } else b)
  else (false, b)

/-- `batched_async_contains`: the number of hits before the first miss. -/
def batchedAsyncContains (b : RawBlockBackend K) (pin : Bool) : List K → ℕ × RawBlockBackend K
  | [] => (0, b)
  | key :: keys =>
    let r := b.contains key pin
    if r.1 then
      let rest := r.2.batchedAsyncContains pin keys
      (rest.1 + 1, rest.2)
    else (0, b)

def pin (b : RawBlockBackend K) (key : K) : Bool × RawBlockBackend K :=
  if key ∈ b.index.keys then (true, { b with pinned := insert key b.pinned }) else (false, b)

def unpin (b : RawBlockBackend K) (key : K) : Bool × RawBlockBackend K :=
  if key ∈ b.pinned then (true, { b with pinned := b.pinned.erase key })
  else (decide (key ∈ b.index.keys), b)

/-- `remove`: the slot of a chunk in flight is given back when the write is over. -/
def remove (b : RawBlockBackend K) (key : K) : Bool × RawBlockBackend K :=
  let freed :=
    match b.index.get? key with
    | none => []
    | some entry => [entry.offset / b.slotBytes]
  (decide (key ∈ b.index.keys ∨ key ∈ b.inflight.keys),
    { b with
      index := b.index.erase key
      pinned := b.pinned.erase key
      lru := b.lru.erase key
      freeSlots := b.freeSlots ++ freed
      inflight := b.inflight.modify key fun x => { x with canceled := true } })

/-! ### Puts -/

def metadataOf (obj : ObjData) : DiskCacheMetadata :=
  { size := obj.byteArray.length
    shape := obj.shape
    dtype := obj.dtype
    cachedPositions := obj.cachedPositions
    fmt := obj.fmt }

/-- The section of `batched_submit_put_task` under the lock: the offset of the slot, or `none` when
the chunk is stored or in flight already. -/
def beginPut (sizeBytes : Except PyError ℕ) (b : RawBlockBackend K) (key : K) (obj : ObjData) :
    Except PyError (Option ℕ) × RawBlockBackend K :=
  if key ∈ b.index.keys ∨ key ∈ b.inflight.keys then
    (.ok none, { b with putTasks := b.putTasks.erase key })
  else
    match b.reserveSlot sizeBytes with
    | (.error e, b) =>
      (.error e,
        if e.kind = .runtimeError then { b with putTasks := b.putTasks.erase key } else b)
    | (.ok offset, b) =>
      (.ok (some offset),
        { b with inflight := b.inflight.set key ⟨offset, metadataOf obj, false⟩ })

/-- The section of `_submit_write` under the lock, after the write. -/
def finishWrite (b : RawBlockBackend K) (key : K) : RawBlockBackend K :=
  match b.inflight.get? key with
  | none => b
  | some x =>
    let b := { b with inflight := b.inflight.erase key }
    if x.canceled then { b with freeSlots := b.freeSlots ++ [x.offset / b.slotBytes] }
    else touch { b with index := b.index.set key ⟨x.offset, x.metadata.size, x.metadata⟩ } key

/-- `l[i:j] = v` for `i ≤ j`; a short list grows. -/
def assignSlice (l : List UInt8) (i j : ℕ) (v : List UInt8) : List UInt8 :=
  l.take i ++ v ++ l.drop j

/-- `to_bytes(n, "little")` of a number below `2 ^ (8 * n)`. -/
def littleEndian : ℕ → ℕ → List UInt8
  | 0, _ => []
  | n + 1, x => UInt8.ofNat x :: littleEndian n (x / 256)

/-- `_encode_header`; `none` when the hash of the key is no number. -/
def encodeHeader (codec : KeyCodec K) (b : RawBlockBackend K) (key : K) (payloadLen : ℕ) :
    Option (List UInt8) :=
  (codec.chunkHash key).map fun chunkHash =>
    let hdr := List.replicate b.headerBytes 0
    let hdr := assignSlice hdr 0 8 [76, 77, 67, 66, 76, 75, 48, 49]
    let hdr := assignSlice hdr 8 16 (littleEndian 8 (chunkHash % 2 ^ 64).toNat)
    assignSlice hdr 16 24 (littleEndian 8 payloadLen)

/-- The buffer of `pwrite_from_buffer`: zeros after the payload. -/
def padded (payload : List UInt8) (totalLen : ℕ) : List UInt8 :=
  payload ++ List.replicate (totalLen - payload.length) 0

def transferLen (b : RawBlockBackend K) (len : ℕ) : ℕ :=
  if b.useOdirect then roundUp len b.blockAlign else len

/-- The writes of `_submit_write`; `none` when a payload with `O_DIRECT` is too long. -/
def writesOf (b : RawBlockBackend K) (offset : ℕ) (header payload : List UInt8) :
    Option (List (ℕ × List UInt8)) :=
  let totalLen := b.transferLen payload.length
  if b.useOdirect ∧ b.slotBytes < b.headerBytes + totalLen then none
  else
    some [(offset, padded header (b.transferLen header.length)),
      (offset + b.headerBytes, padded payload totalLen)]

/-! ### Reads -/

/-- `get_blocking`; `allocate` gives the buffer of a new memory object. -/
def getBlocking (allocate : Shape → Dtype → MemoryFormat → Option (List UInt8)) (device : ℕ → UInt8)
    (b : RawBlockBackend K) (key : K) : Except PyError (Option (List UInt8)) × RawBlockBackend K :=
  match b.index.get? key with
  | none => (.ok none, b)
  | some entry =>
    let payloadLen := entry.metadata.size
    match allocate entry.metadata.shape entry.metadata.dtype entry.metadata.fmt with
    | none => (.error ⟨.assertionError, ""⟩, b)
    | some buf =>
      if buf.length < payloadLen then
        (.error ⟨.valueError, "output buffer too small: cap=" ++ toString buf.length ++
          " need=" ++ toString payloadLen⟩, b)
      else
        (.ok (some (ByteStore.read device (entry.offset + b.headerBytes) payloadLen ++
          buf.drop payloadLen)), b.touch key)

end RawBlockBackend

/-! ### The manifest -/

/-- A value of `entries` in the manifest. -/
structure ManifestEntry where
  offset : ℕ
  size : ℕ
  shape : Shape
  fmt : MemoryFormat
  cachedPositions : Option (List ℤ)
deriving DecidableEq, Repr

structure Manifest where
  devicePath : String
  capacityBytes : ℕ
  blockAlign : ℕ
  headerBytes : ℕ
  slotBytes : ℕ
  nextSlot : ℕ
  freeSlots : List ℕ
  lruKeys : List String
  entries : Dict String ManifestEntry

namespace RawBlockBackend

variable {K : Type} [DecidableEq K]

/-- The data of `_save_manifest`. -/
def saveManifest (codec : KeyCodec K) (b : RawBlockBackend K) : Manifest where
  devicePath := b.devicePath
  capacityBytes := b.capacityBytes
  blockAlign := b.blockAlign
  headerBytes := b.headerBytes
  slotBytes := b.slotBytes
  nextSlot := b.nextSlot
  freeSlots := b.freeSlots
  lruKeys := b.lru.keys.map codec.toText
  entries := Dict.ofList (b.index.entries.map fun p =>
    (codec.toText p.1, ⟨p.2.offset, p.2.metadata.size, p.2.metadata.shape, p.2.metadata.fmt,
      p.2.metadata.cachedPositions⟩))

/-- The entry that is restored for a key; its dtype is that of the key. -/
def restoreEntry (codec : KeyCodec K) (key : K) (e : ManifestEntry) : BlockEntry :=
  ⟨e.offset, e.size, ⟨e.size, e.shape, codec.dtype key, e.cachedPositions, e.fmt⟩⟩

/-- The entries of the manifest whose texts are those of keys. -/
def restoreIndex (codec : KeyCodec K) (entries : List (String × ManifestEntry)) :
    Dict K BlockEntry :=
  Dict.ofList (entries.filterMap fun p =>
    (codec.fromText p.1).map fun key => (key, restoreEntry codec key p.2))

/-- The LRU order of the manifest, or the order of the entries. -/
def restoreLru (codec : KeyCodec K) (lruKeys : List String) (index : Dict K BlockEntry) :
    Dict K Unit :=
  let keys :=
    if lruKeys.isEmpty then index.keys
    else (lruKeys.filterMap codec.fromText).filter fun key => key ∈ index.keys
  Dict.ofList (keys.map fun key => (key, ()))

def loadManifest (codec : KeyCodec K) (data : Manifest) (b : RawBlockBackend K) :
    RawBlockBackend K :=
  if data.devicePath ≠ "" ∧ data.devicePath ≠ b.devicePath then b
  else if data.slotBytes ≠ b.slotBytes then b
  else
    let index := restoreIndex codec data.entries.entries
    { b with
      capacityBytes := data.capacityBytes
      blockAlign := data.blockAlign
      headerBytes := data.headerBytes
      slotBytes := data.slotBytes
      nextSlot := data.nextSlot
      freeSlots := data.freeSlots
      index
      lru := restoreLru codec data.lruKeys index }

/-- `__init__`, with the manifest file if there is one. -/
def restart (codec : KeyCodec K) (c : RawBlockConfig) (file : Option Manifest) :
    Except PyError (RawBlockBackend K) :=
  (new c).map fun b =>
    match file with
    | none => b
    | some data => b.loadManifest codec data

end RawBlockBackend

end LMCache
