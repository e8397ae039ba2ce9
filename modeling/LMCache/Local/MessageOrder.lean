import LMCache.Lib.Outbox
import LMCache.Local.CPUSteps
import LMCache.Local.DiskSteps

/-! # The order of the messages to the controller

Both backends tell the controller of every chunk that they take in or drop.  A put of the CPU
backend and an eviction enqueue their operation while they hold the lock.  A forced `remove` and the
`insert_key` of the disk backend release the lock first, and another thread may come in between.

* `cpuAnnouncer`, `diskAnnouncer`: the backends as announcers of the changes of their dictionaries.
* Some sections drop an entry without an operation: the eviction of all layers of a chunk, a read
  whose file is missing, and a section that raises because of a missing file.  They are not steps of
  the outbox.

**Main result**: `messages_in_cache_order`, for a key that no section changes while a thread still
has an operation about it to enqueue. -/

namespace LMCache.Local

open Controller (OpType)
open SmallBackend (chunk)
open SmallDisk (key start keyToPath)

variable {A H : Type} [DecidableEq H]

/-- The operation that a change is announced with. -/
def kvOp : Change (CacheEngineKey H) → OpType × H
  | .add key => (.admitKey, key.chunkHash)
  | .drop key => (.evictKey, key.chunkHash)

/-! ### The CPU backend -/

namespace LocalCPUBackend

theorem length_ops_remove (M : MemoryAllocator A) (b : LocalCPUBackend A H)
    (key : CacheEngineKey H) : (b.remove M key true).2.ops.length ≤ b.ops.length + 1 := by
  unfold remove
  grind

end LocalCPUBackend

/-- The operation of a forced `remove` is enqueued after the lock is released. -/
def CPUEvent.deferred : CPUEvent H → Bool
  | .remove _ => true
  | _ => false

def cpuAnnouncer (H : Type) [DecidableEq H] (M : MemoryAllocator A) :
    Announcer (LocalCPUBackend A H) (CPUEvent H) (CacheEngineKey H) (OpType × H) where
  system := cpuSystem H M
  keys b := b.hotCache.keys.toFinset
  messages b := b.ops
  message := kvOp
  deferred _ e := e.deferred
  init_keys := by
    rintro b ⟨config, pool, cachePolicy, -, rfl⟩
    rfl
  init_messages := by
    rintro b ⟨config, pool, cachePolicy, -, rfl⟩
    rfl
  single := by
    rintro b e b' rfl hd
    cases e with
    | remove key => exact b.length_ops_remove M key
    | _ => cases hd

/-- **Every section** of the CPU backend but the eviction of all layers announces what it does. -/
theorem cpu_step_emits {M : MemoryAllocator A} {b : LocalCPUBackend A H}
    (hp : b.cachePolicy.Tracks) {e : CPUEvent H} (he : ∀ n, e ≠ .evictLayers n) :
    ∃ l, (cpuAnnouncer H M).Emits b (b.step M e) l := by
  unfold Announcer.Emits cpuAnnouncer
  cases (LocalCPUBackend.step_effect (M := M) hp e).1 with
  | same hkeys hops => exact ⟨[], by simp [Change.applyAll, Finset.ext_iff, hkeys], by simp [hops]⟩
  | put key hnew hkeys hops =>
    exact ⟨[.add key], by simp [Change.applyAll, Change.apply, hnew, Finset.ext_iff, hkeys], hops⟩
  | drop _ key hold hkeys hops =>
    exact ⟨[.drop key], by simp [Change.applyAll, Change.apply, hold, Finset.ext_iff, hkeys], hops⟩
  | silent => exact absurd rfl (he _)

/-! ### The disk backend -/

namespace LocalDiskBackend

theorem length_ops_remove (b : LocalDiskBackend H) (key : CacheEngineKey H) :
    (b.remove key true).2.ops.length ≤ b.ops.length + 1 := by
  cases hm : b.dict.get? key with
  | none =>
    unfold remove
    rw [hm]
    exact Nat.le_succ _
  | some m =>
    obtain ⟨cachePolicy, files, locked, ops, heq, hcases⟩ := remove_cases hm
    grind

theorem length_ops_insertKey (b : LocalDiskBackend H) (key : CacheEngineKey H) (obj : DiskObj) :
    (b.insertKey key obj).2.ops.length ≤ b.ops.length + 1 := by
  unfold insertKey
  split_ifs
  · rw [(Looks.refl.hit key : Looks b (b.hit key).2).keys.2]
    exact Nat.le_succ _
  · simp

end LocalDiskBackend

/-- The operations of a forced `remove` and of `insert_key` are enqueued after the lock is
released. -/
def DiskState.deferred (s : DiskState H) : DiskEvent H → Bool
  | .remove _ => true
  | .put i => s.puts[i]?.any fun p => p.stage = .written
  | _ => false

def diskAnnouncer (keyToPath : CacheEngineKey H → String) (maxCacheSize : ℕ)
    (cachePolicy : CachePolicy (CacheEngineKey H)) :
    Announcer (DiskState H) (DiskEvent H) (CacheEngineKey H) (OpType × H) where
  system := diskSystem keyToPath maxCacheSize cachePolicy
  keys s := s.backend.dict.keys.toFinset
  messages s := s.backend.ops
  message := kvOp
  deferred := DiskState.deferred
  init_keys := by
    rintro s ⟨files, rfl⟩
    rfl
  init_messages := by
    rintro s ⟨files, rfl⟩
    rfl
  single := by
    intro s e s' hstep hd
    rcases DiskState.step_cases hstep with hquiet | ⟨i, p, rfl, hp, hput⟩ | ⟨i, p, rfl, -⟩ |
      ⟨i, r, rfl, -⟩ | ⟨path, rfl, -⟩ | ⟨key, rfl, -, rfl⟩
    · rw [hquiet.looks.keys.2]
      exact Nat.le_succ _
    · have hstage : p.stage = .written := by simpa [DiskState.deferred, hp] using hd
      simp only [DiskState.putStep, hstage] at hput
      split_ifs at hput
      cases hput
      exact s.backend.length_ops_insertKey p.key p.obj
    · cases hd
    · cases hd
    · cases hd
    · exact s.backend.length_ops_remove key

/-! ### Both backends -/

/-- **Messages in cache order.**  Take any run of a backend and of the threads that enqueue its
operations, in which no section takes in or drops `key` while a thread still has an operation about
it.  The operations about `key` are enqueued in the order in which it was taken in and dropped, and
once none is outstanding the last one tells whether the key is there.  Of the sections of the CPU
backend, only the eviction of all layers is not part of such runs. -/
theorem messages_in_cache_order (M : MemoryAllocator A) (keyToPath : CacheEngineKey H → String)
    (maxCacheSize : ℕ) (cachePolicy : CachePolicy (CacheEngineKey H)) (key : CacheEngineKey H) :
    (∀ o, ((cpuAnnouncer H M).outbox.restrict (Announcer.Unrivalled key)).Reachable o →
      (cpuAnnouncer H M).Announced key o) ∧
    (∀ o, ((diskAnnouncer keyToPath maxCacheSize cachePolicy).outbox.restrict
        (Announcer.Unrivalled key)).Reachable o →
      (diskAnnouncer keyToPath maxCacheSize cachePolicy).Announced key o) ∧
    ∀ b, (cpuSystem H M).Reachable b → ∀ e : CPUEvent H, (∀ n, e ≠ .evictLayers n) →
      ∃ l, (cpuAnnouncer H M).Emits b (b.step M e) l :=
  ⟨fun _ ho => Announcer.announced_reachable ho, fun _ ho => Announcer.announced_reachable ho,
    fun _ hb _ he => cpu_step_emits (LocalCPUBackend.tracks_reachable hb) he⟩

/-- The first steps of a put of the CPU backend: an object is there, and the key is taken in. -/
def cpuPut : List (OutboxEvent (CPUEvent ℤ) (CacheEngineKey ℤ)) :=
  [.run (.allocateObj SmallBackend.layout .kvT2d) [],
    .run (.submitPutTask chunk 0) [.add chunk]]

/-- A put of the disk backend up to the end of `insert_key`. -/
def diskPut : List (OutboxEvent (DiskEvent ℕ) (CacheEngineKey ℕ)) :=
  .run (.submit (key 0) SmallDisk.obj 0) [] ::
    List.replicate 5 (.run (.put 0) []) ++ [.run (.put 0) [.add (key 0)]]

theorem cpu_outbox_init : (cpuAnnouncer ℤ mixed).outbox.init ⟨SmallBackend.start, [], [], []⟩ :=
  ⟨_, SmallBackend.start_init, rfl⟩

theorem disk_outbox_init : (diskAnnouncer keyToPath 6 .lru).outbox.init
    ⟨start .lru, [], [], []⟩ := ⟨_, ⟨∅, rfl⟩, rfl⟩

/-- One thread after the other: a chunk is put, removed and put on the CPU, and put and removed on
the disk. -/
theorem messages_in_cache_order_sequential :
    (∃ o, ((cpuAnnouncer ℤ mixed).outbox.restrict
        (Announcer.Unrivalled chunk)).Reachable o ∧
      o.queue = [.add chunk, .drop chunk, .add chunk] ∧
      (cpuAnnouncer ℤ mixed).Announced chunk o) ∧
    ∃ o, ((diskAnnouncer keyToPath 6 .lru).outbox.restrict
        (Announcer.Unrivalled (key 0))).Reachable o ∧
      o.queue = [.add (key 0), .drop (key 0)] ∧
      (diskAnnouncer keyToPath 6 .lru).Announced (key 0) o := by
  have hcpu : ((cpuAnnouncer ℤ mixed).outbox.restrict
      (Announcer.Unrivalled chunk)).Reachable ⟨SmallBackend.start, [], [], []⟩ :=
    .init cpu_outbox_init
  have hdisk : ((diskAnnouncer keyToPath 6 .lru).outbox.restrict
      (Announcer.Unrivalled (key 0))).Reachable ⟨start .lru, [], [], []⟩ :=
    .init disk_outbox_init
  obtain ⟨o, ho, hqueue⟩ := hcpu.exists_guard
    (P := fun o => o.queue = [.add chunk, .drop chunk, .add chunk])
    ((cpuAnnouncer ℤ mixed).next_step (f := fun b e => some (b.step mixed e))
      fun _ _ _ h => (Option.some.inj h).symm)
    (cpuPut ++ [.run (.remove chunk) [.drop chunk], .send 0,
      .run (.submitPutTask chunk 0) [.add chunk]]) (by decide +kernel)
  obtain ⟨o', ho', hqueue'⟩ := hdisk.exists_guard
    (P := fun o => o.queue = [.add (key 0), .drop (key 0)])
    ((diskAnnouncer keyToPath 6 .lru).next_step (f := DiskState.step) fun _ _ _ h => h)
    (diskPut ++ [.send 0, .run (.remove (key 0)) [.drop (key 0)], .send 0])
    (by decide +kernel)
  exact ⟨⟨o, ho, hqueue, (messages_in_cache_order mixed (fun _ => "") 0 .lru
      chunk).1 o ho⟩,
    o', ho', hqueue', (messages_in_cache_order mixed keyToPath 6 .lru
      (key 0)).2.1 o' ho'⟩

/-- **Swapped messages**: a removal has left its section when the chunk is put again, and its
operation comes last, although the chunk is in the cache; on the disk a removal overtakes the
operation of the put before it. -/
theorem messages_out_of_order :
    (∃ o, (cpuAnnouncer ℤ mixed).outbox.Reachable o ∧ o.pending = [] ∧
      o.state.hotCache.keys = [chunk] ∧
      o.queue = [.add chunk, .add chunk, .drop chunk]) ∧
    ∃ o, (diskAnnouncer keyToPath 6 .lru).outbox.Reachable o ∧ o.pending = [] ∧
      o.state.backend.dict.keys = [] ∧
      o.queue = [.drop (key 0), .add (key 0)] := by
  refine ⟨?_, ?_⟩
  · exact LTS.Reachable.exists_replay
      ((cpuAnnouncer ℤ mixed).next_step (f := fun b e => some (b.step mixed e))
        fun _ _ _ h => (Option.some.inj h).symm)
      (cpuPut ++ [.run (.remove chunk) [.drop chunk],
        .run (.submitPutTask chunk 0) [.add chunk], .send 0])
      (.init cpu_outbox_init) (by decide +kernel)
  · exact LTS.Reachable.exists_replay
      ((diskAnnouncer keyToPath 6 .lru).next_step (f := DiskState.step) fun _ _ _ h => h)
      (diskPut ++ [.run (.remove (key 0)) [.drop (key 0)], .send 1, .send 0])
      (.init disk_outbox_init) (by decide +kernel)

end LMCache.Local
