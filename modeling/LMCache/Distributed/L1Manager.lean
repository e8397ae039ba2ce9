import LMCache.Distributed.MemoryManager
import LMCache.Distributed.TTLLock
import Mathlib.Data.List.AList

/-! # The manager of the L1 cache

`L1Manager` maps keys to memory objects with a write lock and a read lock each.  Clients
reserve keys for reading or writing and finish their reservations; a lock that is held too
long expires.

* **The clock.**  Every `lock` and every `is_locked` reads the clock.  `clock i` is the
  answer to the `i`-th reading and `ticks` counts the readings, so that time may pass inside
  a call as well as between calls.
* **Answers.**  A call goes through its keys in order and assigns a result to each
  (`ret[key] = …`).  `Answer` is one such assignment, with the last reading of the clock;
  the returned dictionary holds the last assignment of every key.
* **Outcomes.**  A call also notifies the listeners, and it may raise in
  `L1MemoryManager.free` after it has changed its entries.

Each public function runs under the manager's mutex and is one step. -/

namespace LMCache

inductive L1Error where
  | success
  | keyNotExist
  | keyNotReadable
  | keyNotWritable
  | keyInWrongState
  | keyIsLocked
  | outOfMemory
deriving DecidableEq, Repr

structure L1ObjectState where
  memoryObj : ℕ
  writeLock : TTLLock
  readLock : TTLLock
  isTemporary : Bool
deriving DecidableEq, Repr

abbrev L1OperationResult := L1Error × Option ℕ

/-- A callback of the registered listeners with its argument. -/
inductive Notification (K : Type) where
  | onKeysReservedRead (keys : List K)
  | onKeysReadFinished (keys : List K)
  | onKeysReservedWrite (keys : List K)
  | onKeysWriteFinished (keys : List K)
  | onKeysDeletedByManager (keys : List K)
deriving DecidableEq, Repr

inductive WriteMode where
  | new
  | update
  | all
deriving DecidableEq, Repr

/-- One assignment to the returned dictionary, and the last reading of the clock. -/
structure Answer (I R : Type) where
  item : I
  result : R
  time : ℤ
deriving DecidableEq, Repr

structure L1Manager (K : Type) where
  objects : AList fun _ : K => L1ObjectState
  memoryManager : L1MemoryManager
  writeTtlSeconds : ℕ
  readTtlSeconds : ℕ
  ticks : ℕ

/-- What a call does: its answers, the exception it raises instead of returning them, the
notifications and the manager afterwards. -/
structure Outcome (K R : Type) where
  answers : List (Answer K R)
  raised : Option PyError
  notified : List (Notification K)
  manager : L1Manager K

namespace L1ObjectState

/-- `available_for_read`; it reads the clock once. -/
def availableForRead (entry : L1ObjectState) (now : ℤ) : Bool := !entry.writeLock.isLocked now

/-- `available_for_write`: the answer and the number of readings; the read lock is looked at
only if the write lock is free. -/
def availableForWrite (entry : L1ObjectState) (now now' : ℤ) : Bool × ℕ :=
  if entry.writeLock.isLocked now then (false, 1)
  else (!entry.readLock.isLocked now' && !entry.isTemporary, 2)

end L1ObjectState

namespace L1Manager

variable {K : Type} [DecidableEq K] (clock : ℕ → ℤ)

def tick (m : L1Manager K) (n : ℕ) : L1Manager K := { m with ticks := m.ticks + n }

def setEntry (m : L1Manager K) (key : K) (entry : L1ObjectState) : L1Manager K :=
  { m with objects := m.objects.insert key entry }

def delEntry (m : L1Manager K) (key : K) : L1Manager K :=
  { m with objects := m.objects.erase key }

def forItems {I R : Type} (f : L1Manager K → I → R × L1Manager K) :
    L1Manager K → List I → List (Answer I R) × L1Manager K
  | m, [] => ([], m)
  | m, item :: items =>
    let r := f m item
    let rest := forItems f r.2 items
    (⟨item, r.1, clock (r.2.ticks - 1)⟩ :: rest.1, rest.2)

/-- `_memory_manager.free`. -/
def freeMemory (m : L1Manager K) (memObjs : List ℕ) : Option PyError × L1Manager K :=
  let r := m.memoryManager.free memObjs
  (r.1, { m with memoryManager := r.2 })

/-- The keys of the answers that satisfy `p`. -/
def keysOf {R : Type} (p : R → Bool) (answers : List (Answer K R)) : List K :=
  (answers.filter fun a => p a.result).map fun a => a.item

/-! ### Reading -/

/-- The body of the loop of `reserve_read`. -/
def reserveReadKey (m : L1Manager K) (key : K) : L1OperationResult × L1Manager K :=
  match m.objects.lookup key with
  | none => ((.keyNotExist, none), m)
  | some entry =>
    if !entry.availableForRead (clock m.ticks) then ((.keyNotReadable, none), m.tick 1)
    else
      ((.success, some entry.memoryObj),
        (m.setEntry key
          { entry with readLock := entry.readLock.lock (clock (m.ticks + 1)) }).tick 2)

def reserveRead (m : L1Manager K) (keys : List K) : Outcome K L1OperationResult :=
  let r := m.forItems clock (reserveReadKey clock) keys
  { answers := r.1
    raised := none
    notified := [.onKeysReservedRead (keysOf (fun r => r.1 = .success) r.1)]
    manager := r.2 }

/-- The body of the loop of `unsafe_read`. -/
def unsafeReadKey (m : L1Manager K) (key : K) : L1OperationResult × L1Manager K :=
  match m.objects.lookup key with
  | none => ((.keyNotExist, none), m)
  | some entry =>
    if !entry.readLock.isLocked (clock m.ticks) then ((.keyNotReadable, none), m.tick 1)
    else ((.success, some entry.memoryObj), m.tick 1)

def unsafeRead (m : L1Manager K) (keys : List K) : Outcome K L1OperationResult :=
  let r := m.forItems clock (unsafeReadKey clock) keys
  { answers := r.1, raised := none, notified := [], manager := r.2 }

/-- The body of the loop of `finish_read`: the error, and the memory object that has to be
freed because it was temporary. -/
def finishReadKey (m : L1Manager K) (key : K) : (L1Error × Option ℕ) × L1Manager K :=
  match m.objects.lookup key with
  | none => ((.keyNotExist, none), m)
  | some entry =>
    if entry.writeLock.isLocked (clock m.ticks) then ((.keyInWrongState, none), m.tick 1)
    else if !entry.readLock.isLocked (clock (m.ticks + 1)) then
      ((.keyInWrongState, none), m.tick 2)
    else
      let entry := { entry with readLock := entry.readLock.unlock }
      if entry.isTemporary then
        if !entry.readLock.isLocked (clock (m.ticks + 2)) then
          ((.success, some entry.memoryObj), (m.delEntry key).tick 3)
        else ((.success, none), (m.setEntry key entry).tick 3)
      else ((.success, none), (m.setEntry key entry).tick 2)

def finishRead (m : L1Manager K) (keys : List K) : Outcome K L1Error :=
  let r := m.forItems clock (finishReadKey clock) keys
  let freed := r.2.freeMemory (r.1.filterMap fun a => a.result.2)
  { answers := r.1.map fun a => { a with result := a.result.1 }
    raised := freed.1
    notified :=
      if freed.1.isSome then []
      else
        [.onKeysReadFinished (keysOf (fun r => r.1 = .success) r.1),
          .onKeysDeletedByManager (keysOf (fun r => r.2.isSome) r.1)]
    manager := freed.2 }

/-! ### Writing -/

/-- The body of the first loop of `reserve_write`; `none` for a key that needs a new object. -/
def reserveWriteKey (mode : WriteMode) (m : L1Manager K) (item : K × Bool) :
    Option L1OperationResult × L1Manager K :=
  match m.objects.lookup item.1 with
  | none => (none, m)
  | some entry =>
    if mode = .new then (some (.keyNotWritable, none), m)
    else
      let available := entry.availableForWrite (clock m.ticks) (clock (m.ticks + 1))
      if !available.1 then (some (.keyNotWritable, none), m.tick available.2)
      else
        (some (.success, some entry.memoryObj),
          (m.setEntry item.1
            { entry with writeLock := entry.writeLock.lock (clock (m.ticks + 2)) }).tick 3)

/-- The body of the last loop of `reserve_write`: a new entry, locked for writing. -/
def insertNew (m : L1Manager K) (item : (K × Bool) × ℕ) : L1OperationResult × L1Manager K :=
  ((.success, some item.2),
    (m.setEntry item.1.1
      { memoryObj := item.2
        writeLock := (TTLLock.new m.writeTtlSeconds).lock (clock m.ticks)
        readLock := TTLLock.new m.readTtlSeconds
        isTemporary := item.1.2 }).tick 1)

def answerAll (m : L1Manager K) (keys : List K) (result : L1OperationResult) :
    List (Answer K L1OperationResult) :=
  keys.map fun key => ⟨key, result, clock (m.ticks - 1)⟩

/-- The answers of the first loop of `reserve_write`. -/
def answered (answers : List (Answer (K × Bool) (Option L1OperationResult))) :
    List (Answer K L1OperationResult) :=
  answers.filterMap fun a => a.result.map fun r => ⟨a.item.1, r, a.time⟩

/-- The keys that the first loop of `reserve_write` leaves to be allocated. -/
def needToAllocate (answers : List (Answer (K × Bool) (Option L1OperationResult))) :
    List (K × Bool) :=
  (answers.filter fun a => a.result.isNone).map fun a => a.item

/-- The allocation of `reserve_write` and its new entries. -/
def allocateNew (m : L1Manager K) (layoutDesc : Layout) (need : List (K × Bool)) :
    List (Answer K L1OperationResult) × L1Manager K :=
  let allocated := m.memoryManager.allocate layoutDesc need.length
  let m := { m with memoryManager := allocated.2 }
  match allocated.1 with
  | none => (m.answerAll clock (need.map Prod.fst) (.outOfMemory, none), m)
  | some memObjs =>
    let r := m.forItems clock (insertNew clock) (need.zip memObjs)
    (r.1.map fun a => ⟨a.item.1.1, a.result, a.time⟩, r.2)

/-- `reserve_write`; the listeners hear of it only if an allocation was tried. -/
def reserveWrite (m : L1Manager K) (keys : List K) (isTemporary : List Bool) (layoutDesc : Layout)
    (mode : WriteMode) : Outcome K L1OperationResult :=
  let r := m.forItems clock (reserveWriteKey clock mode) (keys.zip isTemporary)
  let ret := answered r.1
  let need := needToAllocate r.1
  let m := r.2
  if need.isEmpty then { answers := ret, raised := none, notified := [], manager := m }
  else if mode = .update then
    { answers := ret ++ m.answerAll clock (need.map Prod.fst) (.keyNotWritable, none)
      raised := none
      notified := []
      manager := m }
  else
    let r := m.allocateNew clock layoutDesc need
    { answers := ret ++ r.1
      raised := none
      notified := [.onKeysReservedWrite (keysOf (fun r => r.1 = .success) (ret ++ r.1))]
      manager := r.2 }

/-- The body of the loop of `finish_write`. -/
def finishWriteKey (m : L1Manager K) (key : K) : L1Error × L1Manager K :=
  match m.objects.lookup key with
  | none => (.keyNotExist, m)
  | some entry =>
    if !entry.writeLock.isLocked (clock m.ticks) then (.keyInWrongState, m.tick 1)
    else if entry.readLock.isLocked (clock (m.ticks + 1)) then (.keyInWrongState, m.tick 2)
    else
      (.success, (m.setEntry key { entry with writeLock := entry.writeLock.unlock }).tick 2)

def finishWrite (m : L1Manager K) (keys : List K) : Outcome K L1Error :=
  let r := m.forItems clock (finishWriteKey clock) keys
  { answers := r.1
    raised := none
    notified := [.onKeysWriteFinished (keysOf (fun r => r = .success) r.1)]
    manager := r.2 }

/-! ### Deleting -/

/-- The body of the loop of `delete`: the error, and the memory object to be freed. -/
def deleteKey (m : L1Manager K) (key : K) : (L1Error × Option ℕ) × L1Manager K :=
  match m.objects.lookup key with
  | none => ((.keyNotExist, none), m)
  | some entry =>
    if entry.readLock.isLocked (clock m.ticks) then ((.keyIsLocked, none), m.tick 1)
    else if entry.writeLock.isLocked (clock (m.ticks + 1)) then
      ((.keyIsLocked, none), m.tick 2)
    else ((.success, some entry.memoryObj), (m.delEntry key).tick 2)

def delete (m : L1Manager K) (keys : List K) : Outcome K L1Error :=
  let r := m.forItems clock (deleteKey clock) keys
  let freed := r.2.freeMemory (r.1.filterMap fun a => a.result.2)
  { answers := r.1.map fun a => { a with result := a.result.1 }
    raised := freed.1
    notified :=
      if freed.1.isSome then []
      else [.onKeysDeletedByManager (keysOf (fun r => r.1 = .success) r.1)]
    manager := freed.2 }

/-- `clear` frees the objects before it forgets them. -/
def clear (m : L1Manager K) : Outcome K L1Error :=
  let freed := m.freeMemory (m.objects.entries.map fun e => e.2.memoryObj)
  if freed.1.isSome then
    { answers := [], raised := freed.1, notified := [], manager := freed.2 }
  else
    { answers := []
      raised := none
      notified := [.onKeysDeletedByManager m.objects.keys]
      manager := { freed.2 with objects := ∅ } }

end L1Manager

end LMCache
