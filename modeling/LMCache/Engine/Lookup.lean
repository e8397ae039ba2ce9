import LMCache.Engine.CacheEngineKey
import LMCache.Engine.TokenDatabase
import LMCache.Lib.Dict
import LMCache.Lib.Transition

/-! # Lookups that pin

`LMCacheEngine.lookup` asks the storage backends for the chunks of a request and pins the ones it
finds, so that they are not evicted before they are retrieved.  What was pinned is recorded in
`lookup_pins` under the id of the lookup; `lookup_unpin` drops the pins of a record.

* **Backends.** A backend is the set of keys it holds, which no lookup changes, and the way its
  `contains` and `unpin` treat pins: the memory objects of the CPU backend count them and never go
  below zero, the disk and NIXL backends count them, the raw block backend keeps a set of pinned
  keys, the PD and the shared disk backend take a reference that `unpin` does not drop, and the
  others have no pins.
* **Ghost.** `outstanding` are the pins taken by lookups and not unpinned since, each with the id of
  its lookup.
* The health check, the statistics and `touch_cache` are left out: they change no pin. -/

namespace LMCache

/-! ### Backends -/

inductive PinMode where
  | counted
  | signed
  | flagged
  | refCounted
  | ignored
deriving DecidableEq, Repr

namespace PinMode

/-- The pin count after `contains` with `pin`. -/
def pin : PinMode → ℤ → ℤ
  | .flagged, _ => 1
  | .ignored, n => n
  | _, n => n + 1

/-- The pin count after `unpin`. -/
def unpin : PinMode → ℤ → ℤ
  | .counted, n => if n - 1 < 0 then 0 else n - 1
  | .signed, n => n - 1
  | .flagged, _ => 0
  | _, n => n

end PinMode

structure PinBackend (H : Type) where
  name : String
  mode : PinMode
  holds : CacheEngineKey H → Bool

namespace PinBackend
variable {H : Type} (b : PinBackend H)

/-- `pin_in_backend`: there are no pins for the PD backend. -/
def pinned (pin : Bool) : Bool := pin && b.name != "PDBackend"

def takesPins : Bool := b.pinned true && b.mode != .ignored

def counts : Bool := b.mode == .counted || b.mode == .signed

end PinBackend

/-- The parts of the engine and the storage manager that do not change. -/
structure LookupConfig (H : Type) where
  storageBackends : List (PinBackend H)
  useLayerwise : Bool
  numLayers : ℕ
  names_nodup : (storageBackends.map PinBackend.name).Nodup
  pd_mode : ∀ b ∈ storageBackends, b.name = "PDBackend" → b.mode = .refCounted

/-- The items of a dictionary from locations to keys. -/
abbrev BlockMapping (H : Type) := List (String × List (CacheEngineKey H))

structure LookupState (H : Type) where
  freeze : Bool
  bypassedBackends : List String
  pinCount : String → CacheEngineKey H → ℤ
  lookupPins : Dict String (Dict String (List (CacheEngineKey H)))
  outstanding : List (Option String × String × CacheEngineKey H)

namespace LookupState

variable {H : Type} [DecidableEq H] (c : LookupConfig H) (s : LookupState H)

/-! ### Looking up -/

/-- `get_active_storage_backends`; an empty search range is none. -/
def activeBackends (searchRange : List String) : List (PinBackend H) :=
  c.storageBackends.filter fun b =>
    !(s.freeze && b.name != "LocalCPUBackend") && !s.bypassedBackends.contains b.name &&
      (searchRange.isEmpty || searchRange.contains b.name)

def pinKey (owner : Option String) (b : PinBackend H) (key : CacheEngineKey H) : LookupState H :=
  { s with
    pinCount := fun n k =>
      if n = b.name ∧ k = key then b.mode.pin (s.pinCount n k) else s.pinCount n k
    outstanding :=
      if b.mode = .ignored then s.outstanding else s.outstanding ++ [(owner, b.name, key)] }

/-- `batched_contains` of a backend, which pins the keys it finds. -/
def pinKeys (owner : Option String) (pin : Bool) (b : PinBackend H)
    (keys : List (CacheEngineKey H)) : LookupState H :=
  if b.pinned pin then keys.foldl (fun s key => s.pinKey owner b key) s else s

/-- `StorageManager.batched_contains`: the block mapping. -/
def batchedContains (owner : Option String) (pin : Bool) :
    List (PinBackend H) → List (CacheEngineKey H) → LookupState H → BlockMapping H × LookupState H
  | [], _, s => ([], s)
  | b :: bs, keys, s =>
    let hits := keys.takeWhile b.holds
    let s := s.pinKeys owner pin b hits
    if hits = [] then batchedContains owner pin bs keys s
    else if keys.drop hits.length = [] then ([(b.name, hits)], s)
    else
      let r := batchedContains owner pin bs (keys.drop hits.length) s
      ((b.name, hits) :: r.1, r.2)

/-- `total_hit_chunks`. -/
def hitChunks (mapping : BlockMapping H) : ℕ := (mapping.map fun e => e.2.length).sum

def isFullHit (mapping : BlockMapping H) : Bool :=
  hitChunks mapping == c.numLayers && mapping.length == 1

/-- `self.lookup_pins[lookup_id][location].extend(keys)`. -/
def extendPins (lookupId location : String) (keys : List (CacheEngineKey H)) : LookupState H :=
  let pins := (s.lookupPins.get? lookupId).getD Dict.empty
  let pins := pins.set location ((pins.get? location).getD [] ++ keys)
  { s with lookupPins := s.lookupPins.set lookupId pins }

def noLookupId : PyError := ⟨.assertionError, "lookup_id is required when pin is True"⟩

/-- The loop of `lookup` over the chunks, layer-wise. -/
def lookupLayers (active : List (PinBackend H)) (lookupId : Option String) (pin : Bool) :
    List (ChunkInfo (CacheEngineKey H)) → ℕ → LookupState H → Except PyError ℕ × LookupState H
  | [], res, s => (.ok res, s)
  | chunk :: chunks, res, s =>
    let keyAllLayers := chunk.key.splitLayers c.numLayers
    let r := batchedContains lookupId pin active keyAllLayers s
    match isFullHit c r.1, r.1 with
    | true, (location, _) :: _ =>
      if pin then
        match lookupId with
        | none => (.error noLookupId, r.2)
        | some id =>
          lookupLayers active lookupId pin chunks chunk.stop
            (r.2.extendPins id location keyAllLayers)
      else lookupLayers active lookupId pin chunks chunk.stop r.2
    | _, _ => (.ok res, r.2)

/-- `lookup` with whole chunks: the record is replaced. -/
def lookupChunks (active : List (PinBackend H)) (lookupId : Option String) (pin : Bool)
    (chunks : List (ChunkInfo (CacheEngineKey H))) (s : LookupState H) :
    Except PyError ℕ × LookupState H :=
  let r := batchedContains lookupId pin active (chunks.map ChunkInfo.key) s
  let res := ((chunks.take (hitChunks r.1)).getLast?.map ChunkInfo.stop).getD 0
  if pin && !r.1.isEmpty then
    match lookupId with
    | none => (.error noLookupId, r.2)
    | some id => (.ok res, { r.2 with lookupPins := r.2.lookupPins.set id (Dict.ofList r.1) })
  else (.ok res, r.2)

def lookup (chunks : List (ChunkInfo (CacheEngineKey H))) (searchRange : List String)
    (lookupId : Option String) (pin : Bool) : Except PyError ℕ × LookupState H :=
  let active := s.activeBackends c searchRange
  if c.useLayerwise then lookupLayers c active lookupId pin chunks 0 s
  else lookupChunks active lookupId pin chunks s

/-! ### Unpinning -/

/-- `unpin` of a backend. -/
def unpinKey (b : PinBackend H) (key : CacheEngineKey H) : LookupState H :=
  { s with pinCount := fun n k =>
      if n = b.name ∧ k = key ∧ b.holds key = true then b.mode.unpin (s.pinCount n k)
      else s.pinCount n k }

/-- `StorageManager.batched_unpin` in one location. -/
def batchedUnpin (keys : List (CacheEngineKey H)) (location : String) : LookupState H :=
  (c.storageBackends.filter fun b => b.name = location).foldl
    (fun s b => keys.foldl (fun s key => s.unpinKey b key) s) s

def lookupUnpin (lookupId : String) : LookupState H :=
  match s.lookupPins.get? lookupId with
  | none => { s with outstanding := s.outstanding.filter fun p => p.1 ≠ some lookupId }
  | some pins =>
    let s := pins.entries.foldl (fun s e => s.batchedUnpin c e.2 e.1) s
    { s with
      lookupPins := s.lookupPins.erase lookupId
      outstanding := s.outstanding.filter fun p => p.1 ≠ some lookupId }

end LookupState

/-! ### The system -/

inductive LookupEvent (H : Type) where
  | lookup (chunks : List (ChunkInfo (CacheEngineKey H))) (searchRange : List String)
      (lookupId : String) (pin : Bool)
  | unpin (lookupId : String)
  | setFreeze (freeze : Bool)
  | setBypassed (bypassedBackends : List String)

variable {H : Type} [DecidableEq H]

def LookupState.step (c : LookupConfig H) (s : LookupState H) : LookupEvent H → LookupState H
  | .lookup chunks searchRange lookupId pin => (s.lookup c chunks searchRange (some lookupId) pin).2
  | .unpin lookupId => s.lookupUnpin c lookupId
  | .setFreeze freeze => { s with freeze := freeze }
  | .setBypassed bypassedBackends => { s with bypassedBackends := bypassedBackends }

def LookupState.new : LookupState H :=
  { freeze := false, bypassedBackends := [], pinCount := fun _ _ => 0, lookupPins := Dict.empty
    outstanding := [] }

def lookupSystem (c : LookupConfig H) : LTS (LookupState H) (LookupEvent H) where
  init s := s = .new
  step s e s' := s' = s.step c e

end LMCache
