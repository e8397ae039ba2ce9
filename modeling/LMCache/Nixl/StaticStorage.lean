import LMCache.Lib.CountedPages
import LMCache.Lib.Dict
import LMCache.Lib.Transition

/-! # The static storage of NIXL

`NixlStaticStorageBackend` has a pool of descriptors in its storage, one for each object.  A put
queues the coroutine `mem_to_storage`, which the event loop runs later.  For each key the coroutine
takes a descriptor from the pool and enters the key in `key_dict`; then it copies all pages to the
storage, in one transfer that may fail.  The put takes no reference on the pages, and
`StorageManager.batched_put` drops the one that it was given as soon as the put has returned.

* **Threads**: the event loop runs one coroutine after the other; in between its sections other
  threads put, remove, look keys up and use pages of the same buffer.  A section is what happens
  under one lock.
* **Exceptions**: an assertion that fails or a transfer that fails ends the coroutine where it is.
* **Pages**: `others` has a page for each reference that a thread holds.  A thread that holds a page
  may write to it, share it and release it.
* **Eviction**: the policy chooses any keys that are not pinned, at most as many as are missing. -/

namespace LMCache.Nixl

open CountedPages (writeAll)

/-- `NixlKeyMetadata`, without the layout of the object. -/
structure NixlKeyMetadata where
  index : ℕ
  pinCount : ℤ
deriving DecidableEq, Repr

def NixlKeyMetadata.canEvict (m : NixlKeyMetadata) : Bool := ¬ 0 < m.pinCount

/-- A key of a put and the page of its object; the bytes are those at the time of the put. -/
structure Item (K B : Type) where
  key : K
  page : ℕ
  bytes : B
deriving DecidableEq

/-- The coroutine `mem_to_storage` of a put. -/
structure MemToStorage (K B : Type) where
  /-- The keys that were entered, with their descriptors. -/
  done : List (Item K B × ℕ)
  todo : List (Item K B)
  popped : Option ℕ
deriving DecidableEq

/-- The backend, the event loop and the other threads.  `completed` is a ghost: the bytes that each
key had at the time of the put whose transfer was completed last. -/
structure State (K B : Type) where
  pages : CountedPages
  mem : ℕ → B
  others : List ℕ
  /-- `pool.indices`, the last one first. -/
  pool : List ℕ
  keyDict : Dict K NixlKeyMetadata
  /-- Descriptors that `remove` will push to the pool. -/
  pushing : List ℕ
  progress : Finset K
  storage : ℕ → B
  queue : List (List (Item K B))
  running : Option (MemToStorage K B)
  completed : K → Option B

inductive Event (K B : Type) where
  | allocate
  | share (i : ℕ)
  | release (i : ℕ)
  | write (i : ℕ) (b : B)
  | batchedSubmitPutTask (objs : List (K × ℕ)) (evictKeys : List K)
  | start
  | pop
  | addKeyToDict
  | transfer (success : Bool)
  | remove (k : K)
  | push (index : ℕ)
  | pin (k : K)
  | unpin (k : K)

namespace State
variable {K B : Type} [DecidableEq K]

/-- `remove` in the section of a put. -/
def evict (s : State K B) (k : K) : State K B :=
  match s.keyDict.get? k with
  | none => s
  | some m => { s with keyDict := s.keyDict.erase k, pool := m.index :: s.pool }

def enqueue (s : State K B) (objs : List (K × ℕ)) : State K B :=
  { s with
    progress := s.progress ∪ (objs.map Prod.fst).toFinset
    queue := s.queue ++ [objs.map fun x => ⟨x.1, x.2, s.mem x.2⟩] }

def Candidates (s : State K B) (numEvict : ℕ) (evictKeys : List K) : Prop :=
  evictKeys.length ≤ numEvict ∧ ∀ k ∈ evictKeys, ∃ m ∈ s.keyDict.get? k, m.canEvict = true

instance (s : State K B) (numEvict : ℕ) (evictKeys : List K) :
    Decidable (s.Candidates numEvict evictKeys) := inferInstanceAs (Decidable (_ ∧ _))

def batchedSubmitPutTask (s : State K B) (objs : List (K × ℕ)) (evictKeys : List K) :
    Option (State K B) :=
  if ∀ x ∈ objs, x.2 ∈ s.others then
    if s.pool.length < objs.length then
      if s.Candidates (objs.length - s.pool.length) evictKeys then
        -- Without candidates the put is given up.
        if evictKeys = [] then some s
        else some ((evictKeys.foldl evict s).enqueue objs)
      else none
    else some (s.enqueue objs)
  else none

def stop (s : State K B) : State K B := { s with running := none }

def coroutineStep (s : State K B) (r : MemToStorage K B) : Event K B → Option (State K B)
  | .pop =>
    match r.todo, r.popped, s.pool with
    | _ :: _, none, index :: pool =>
      some { s with pool := pool, running := some { r with popped := some index } }
    | _ :: _, none, [] => some s.stop
    | _, _, _ => none
  | .addKeyToDict =>
    match r.todo, r.popped with
    | x :: todo, some index =>
      match s.keyDict.get? x.key with
      | some _ => some s.stop
      | none =>
        some { s with
          keyDict := s.keyDict.set x.key ⟨index, 0⟩
          running := some ⟨r.done ++ [(x, index)], todo, none⟩ }
    | _, _ => none
  | .transfer success =>
    match r.todo, success with
    | [], true =>
      some { s with
        storage := writeAll s.storage (r.done.map fun x => (x.2, s.mem x.1.page))
        progress := s.progress \ (r.done.map fun x => x.1.key).toFinset
        running := none
        completed := writeAll s.completed (r.done.map fun x => (x.1.key, some x.1.bytes)) }
    | [], false => some s.stop
    | _, _ => none
  | _ => none

def step (s : State K B) : Event K B → Option (State K B)
  | .allocate =>
    match s.pages.take with
    | none => none
    | some (page, pages) => some { s with pages := pages, others := page :: s.others }
  | .share i =>
    if i ∈ s.others then some { s with pages := s.pages.retain i, others := i :: s.others }
    else none
  | .release i =>
    if i ∈ s.others then
      some { s with pages := s.pages.release i, others := s.others.erase i }
    else none
  | .write i b =>
    if i ∈ s.others then some { s with mem := Function.update s.mem i b } else none
  | .batchedSubmitPutTask objs evictKeys => s.batchedSubmitPutTask objs evictKeys
  | .start =>
    match s.running, s.queue with
    | none, items :: queue =>
      some { s with queue := queue, running := some ⟨[], items, none⟩ }
    | _, _ => none
  | .remove k =>
    match s.keyDict.get? k with
    | none => some s
    | some m => some { s with keyDict := s.keyDict.erase k, pushing := m.index :: s.pushing }
  | .push index =>
    if index ∈ s.pushing then
      some { s with pool := index :: s.pool, pushing := s.pushing.erase index }
    else none
  | .pin k =>
    some { s with keyDict := s.keyDict.modify k fun m => { m with pinCount := m.pinCount + 1 } }
  | .unpin k =>
    some { s with keyDict := s.keyDict.modify k fun m => { m with pinCount := m.pinCount - 1 } }
  | e =>
    match s.running with
    | none => none
    | some r => s.coroutineStep r e

def contains (s : State K B) (k : K) : Bool := (s.keyDict.get? k).isSome

/-- A backend with `size` descriptors and without keys; threads hold pages. -/
def system (size : ℕ) : LTS (State K B) (Event K B) where
  init s :=
    s.pages.Owned s.others.count ∧ s.pool = List.range size ∧ s.keyDict = .empty ∧
      s.pushing = [] ∧ s.progress = ∅ ∧ s.queue = [] ∧ s.running = none ∧
        s.completed = fun _ => none
  step s e s' := s.step e = some s'

end State

end LMCache.Nixl
