import LMCache.Distributed.ReservedObjects
import LMCache.Lib.Dict
import LMCache.Memory.LazyMemoryAllocator

/-! # Objects that nobody refers to

A memory object of the L1 cache is referred to by the entries of the manager and by the clients that
got it in an answer.  When the last reference is gone, the object is collected and `__del__` frees
it; this is how the objects of a key that occurs twice in a `reserve_write` go back.

* **Configurations.** `createMemoryAllocator` makes the allocator that a configuration asks for,
  with the expansion thread of the lazy one.
* **Collection.** A call ends with a collection: `collect` frees the objects that no entry has and
  no client holds.  The clients may hold any of the objects that were handed out to them, in this
  call or before.

`Balanced` is the invariant: the entries have distinct valid objects, and every valid object is in
an entry.  `Collectable` is what a call has to do to the objects for `Collectable.balanced`, that
the collection restores the invariant. -/

namespace LMCache

open List TensorMemoryAllocator

variable {K : Type} [DecidableEq K]

/-! ### The code -/

structure L1MemoryManagerConfig where
  sizeInBytes : ℕ
  useLazy : Bool
  initSizeInBytes : ℕ
  alignBytes : ℕ
deriving DecidableEq, Repr

/-- `__post_init__` and `create_memory_allocator`; the mixed allocator has the default alignment. -/
def createMemoryAllocator (c : L1MemoryManagerConfig) :
    Except PyError (L1MemoryManager × Option Expander) :=
  if c.useLazy then
    (LazyMemoryAllocator.new (min c.initSizeInBytes c.sizeInBytes) c.sizeInBytes c.alignBytes).map
      fun a => (⟨true, a.pool⟩, some a.expander)
  else .ok (⟨false, ⟨.new c.sizeInBytes 4096 none, [], []⟩⟩, none)

/-- `get_memory_usage`: the used and the total memory in bytes. -/
def L1MemoryManager.getMemoryUsage (a : L1MemoryManager) : ℤ × ℕ :=
  let addressManager := a.pool.allocator.addressManager
  (addressManager.getHeapSize - addressManager.getFreeSize, addressManager.getHeapSize)

/-- The objects in the dictionary that a call returns; it has the last answer to each key. -/
def returnedObjs (answers : List (Answer K L1OperationResult)) : List ℕ :=
  (Dict.ofList (answers.map fun a => (a.item, a.result))).entries.filterMap fun e => e.2.2

def L1Call.returned (clock : ℕ → ℤ) (m : L1Manager K) : L1Call K → List ℕ
  | reserveRead _ keys => returnedObjs (m.reserveRead clock keys).answers
  | unsafeRead keys => returnedObjs (m.unsafeRead clock keys).answers
  | reserveWrite _ keys isTemporary layoutDesc mode =>
    returnedObjs (m.reserveWrite clock keys isTemporary layoutDesc mode).answers
  | _ => []

/-- `__del__` of the objects that no entry has and that are not in `held`. -/
def L1Manager.collect (m : L1Manager K) (held : List ℕ) : L1Manager K :=
  let referenced := m.objects.entries.map (fun e => e.2.memoryObj) ++ held
  let garbage := (List.range m.memoryManager.pool.objs.length).filter fun i => i ∉ referenced
  { m with memoryManager.pool := garbage.foldl free m.memoryManager.pool }

/-- The manager, the expansion thread of the lazy allocator and the objects that were handed out. -/
structure MemoryRun (K : Type) where
  manager : L1Manager K
  expander : Option Expander
  handedOut : List ℕ

/-- A call, after which the clients hold some objects, or a step of the expansion thread. -/
inductive MemoryEvent (K : Type) where
  | call (c : L1Call K) (held : List ℕ)
  | expand

namespace MemoryRun

def run (clock : ℕ → ℤ) (s : MemoryRun K) : MemoryEvent K → MemoryRun K
  | .call c held =>
    { s with
      manager := (c.run clock ⟨s.manager, []⟩).manager.collect held
      handedOut := s.handedOut ++ c.returned clock s.manager }
  | .expand =>
    match s.expander with
    | none => s
    | some x =>
      { s with
        manager :=
          match x.step.2 with
          | none => s.manager
          | some n => { s.manager with
              memoryManager := s.manager.memoryManager.commitExpansion n }
        expander := some x.step.1 }

/-- Only the thread commits expansions, and clients hold only what they got. -/
def Allowed (clock : ℕ → ℤ) (s : MemoryRun K) : MemoryEvent K → Prop
  | .call (.commitExpansion _) _ => False
  | .call c held => ∀ i ∈ held, i ∈ s.handedOut ++ c.returned clock s.manager
  | .expand => True

end MemoryRun

/-- All runs of a manager of the given configuration. -/
def memorySystem (K : Type) [DecidableEq K] (clock : ℕ → ℤ) (config : L1MemoryManagerConfig) :
    LTS (MemoryRun K) (MemoryEvent K) where
  init s := ∃ memoryManager expander writeTtlSeconds readTtlSeconds,
    createMemoryAllocator config = .ok (memoryManager, expander) ∧
      s = ⟨⟨∅, memoryManager, writeTtlSeconds, readTtlSeconds, 0⟩, expander, []⟩
  step s e s' := s.Allowed clock e ∧ s' = s.run clock e

/-! ### Collection -/

open L1Manager

def L1Manager.Owns (m : L1Manager K) (i : ℕ) : Prop := ∃ key l, m.view key = some (i, l)

section collection
variable {m : L1Manager K} {held : List ℕ} {i : ℕ}

theorem mem_memoryObjs_iff : i ∈ m.objects.entries.map (fun e => e.2.memoryObj) ↔ m.Owns i := by
  constructor
  · intro h
    obtain ⟨e, he, rfl⟩ := mem_map.mp h
    exact ⟨e.1, e.2.writeLock, view_of_lookup (AList.mem_lookup_iff.mpr he)⟩
  · rintro ⟨key, l, hl⟩
    obtain ⟨e, he, heq⟩ := Option.map_eq_some_iff.mp hl
    obtain ⟨rfl, -⟩ := Prod.mk.inj heq
    exact mem_map.mpr ⟨⟨key, e⟩, AList.mem_lookup_iff.mp he, rfl⟩

@[simp] theorem view_collect : (m.collect held).view = m.view := rfl

/-- **Collection** leaves the objects alone that are referred to. -/
theorem live_collect : (m.collect held).memoryManager.pool.Live i ↔
    m.memoryManager.pool.Live i ∧ (m.Owns i ∨ i ∈ held) := by
  unfold L1Manager.collect Pool.Live
  rw [objs_foldl_free]
  by_cases href : m.Owns i ∨ i ∈ held
  · have hmem : i ∉ (range m.memoryManager.pool.objs.length).filter fun i =>
        i ∉ m.objects.entries.map (fun e => e.2.memoryObj) ++ held := by
      rw [mem_filter, decide_eq_true_eq, mem_append, mem_memoryObjs_iff]
      exact fun h => h.2 href
    rw [if_neg hmem]
    simp [href]
  · refine iff_of_false ?_ fun h => href h.2
    rintro ⟨o, ho, hv⟩
    split_ifs at ho with hmem
    · obtain ⟨o', -, rfl⟩ := Option.map_eq_some_iff.mp ho
      cases hv
    · refine hmem (mem_filter.mpr ⟨mem_range.mpr ?_, ?_⟩)
      · exact Pool.Live.lt_length ⟨o, ho, hv⟩
      · rwa [decide_eq_true_eq, mem_append, mem_memoryObjs_iff]

omit [DecidableEq K] in
theorem length_collect : (m.collect held).memoryManager.pool.objs.length =
    m.memoryManager.pool.objs.length :=
  length_invalidated (objs_foldl_free _ _)

omit [DecidableEq K] in
theorem uniform_collect (h : m.memoryManager.Uniform) (held : List ℕ) :
    (m.collect held).memoryManager.Uniform := by
  intro o ho
  obtain ⟨j, hj⟩ := mem_iff_getElem?.mp ho
  unfold L1Manager.collect at hj
  rw [objs_foldl_free] at hj
  split_ifs at hj
  · obtain ⟨o', ho', rfl⟩ := Option.map_eq_some_iff.mp hj
    exact h o' (mem_of_getElem? ho')
  · exact h o (mem_of_getElem? hj)

end collection

/-! ### The invariant -/

/-- The entries have distinct valid objects, and every valid object is in an entry. -/
structure Balanced (m : L1Manager K) : Prop where
  uniform : m.memoryManager.Uniform
  live : ∀ key i l, m.view key = some (i, l) → m.memoryManager.pool.Live i
  distinct : ∀ key key' i l l', m.view key = some (i, l) → m.view key' = some (i, l') → key = key'
  owned : ∀ i, m.memoryManager.pool.Live i → m.Owns i

/-- What a call has to do before the collection: `m'` is as balanced as `m`, apart from new objects,
and the objects that the call returns are in entries. -/
structure Collectable (m m' : L1Manager K) (returned : List ℕ) : Prop where
  live : ∀ key i l, m'.view key = some (i, l) → m'.memoryManager.pool.Live i
  distinct : ∀ key key' i l l', m'.view key = some (i, l) → m'.view key' = some (i, l') → key = key'
  old : ∀ i < m.memoryManager.pool.objs.length, m'.memoryManager.pool.Live i → m'.Owns i
  grows : m.memoryManager.pool.objs.length ≤ m'.memoryManager.pool.objs.length
  returned : ∀ i ∈ returned, m'.Owns i

variable {m m' : L1Manager K} {clock : ℕ → ℤ}

/-- **The collection at the end of a call.** -/
theorem Collectable.balanced {returned held : List ℕ} (h : Collectable m m' returned)
    (hu : m'.memoryManager.Uniform)
    (hheld : ∀ i ∈ held, i < m.memoryManager.pool.objs.length ∨ i ∈ returned) :
    Balanced (m'.collect held) := by
  refine ⟨uniform_collect hu held, fun key i l hl => ?_, h.distinct, fun i hi => ?_⟩
  · exact live_collect.mpr ⟨h.live key i l hl, Or.inl ⟨key, l, hl⟩⟩
  · obtain ⟨hlive, hown | hmem⟩ := live_collect.mp hi
    · exact hown
    · rcases hheld i hmem with hlt | hret
      · exact h.old i hlt hlive
      · exact h.returned i hret

/-- The entries of `m'` are those of `m`, with other locks perhaps. -/
def SameObjects (m m' : L1Manager K) : Prop :=
  m'.memoryManager = m.memoryManager ∧
    ∀ key i, (∃ l, m'.view key = some (i, l)) ↔ ∃ l, m.view key = some (i, l)

theorem sameObjects_of_view (hmemory : m'.memoryManager = m.memoryManager)
    (hview : m'.view = m.view) : SameObjects m m' := ⟨hmemory, fun key i => by rw [hview]⟩

theorem SameObjects.of_relocked (h : Relocked clock m m') : SameObjects m m' := by
  refine ⟨h.memory, fun key i => ⟨fun ⟨l, hl⟩ => ?_, fun ⟨l, hl⟩ => ?_⟩⟩
  · cases hm : m.view key with
    | none =>
      cases (h.absent key hm).symm.trans hl
    | some p =>
      obtain ⟨l', hl', -⟩ := h.old key p.1 p.2 hm
      grind
  · obtain ⟨l', hl', -⟩ := h.old key i l hl
    exact ⟨l', hl'⟩

theorem Balanced.sameObjects (h : Balanced m) (hs : SameObjects m m') : Balanced m' := by
  refine ⟨hs.1.symm ▸ h.uniform, fun key i l hl => ?_, fun key key' i l l' hl hl' => ?_,
    fun i hi => ?_⟩
  · obtain ⟨l', hl'⟩ := (hs.2 key i).mp ⟨l, hl⟩
    exact hs.1.symm ▸ h.live key i l' hl'
  · obtain ⟨l₁, hl₁⟩ := (hs.2 key i).mp ⟨l, hl⟩
    obtain ⟨l₂, hl₂⟩ := (hs.2 key' i).mp ⟨l', hl'⟩
    exact h.distinct key key' i l₁ l₂ hl₁ hl₂
  · obtain ⟨key, l, hl⟩ := h.owned i (hs.1 ▸ hi)
    obtain ⟨l', hl'⟩ := (hs.2 key i).mpr ⟨l, hl⟩
    exact ⟨key, l', hl'⟩

theorem SameObjects.collectable (hs : SameObjects m m') (h : Balanced m) {returned : List ℕ}
    (hret : ∀ i ∈ returned, m'.Owns i) : Collectable m m' returned :=
  ⟨(h.sameObjects hs).live, (h.sameObjects hs).distinct, fun i _ hi =>
    (h.sameObjects hs).owned i hi,
    by rw [hs.1], hret⟩

/-- **A removal**: the objects that leave are freed, all others stay. -/
theorem Balanced.removal (h : Balanced m) {removed : List (K × ℕ)} (hr : Removal m m' removed) :
    Collectable m { m' with
      memoryManager := (m.memoryManager.free (removed.map Prod.snd)).2 } [] := by
  have hex : ∀ i ∈ removed.map Prod.snd, i < m.memoryManager.pool.objs.length := by
    intro i hi
    obtain ⟨p, hp, rfl⟩ := mem_map.mp hi
    obtain ⟨l, hl⟩ := hr.held p hp
    exact (h.live p.1 p.2 l hl).lt_length
  have hlive : ∀ i, (m.memoryManager.free (removed.map Prod.snd)).2.pool.Live i ↔
      m.memoryManager.pool.Live i ∧ i ∉ removed.map Prod.snd := by
    intro i
    rw [L1MemoryManager.free_eq h.uniform hex]
    unfold Pool.Live
    rw [objs_batchedFree]
    by_cases hi : i ∈ removed.map Prod.snd
    · refine iff_of_false ?_ fun h => h.2 hi
      rintro ⟨o, ho, hv⟩
      rw [if_pos hi] at ho
      obtain ⟨o', -, rfl⟩ := Option.map_eq_some_iff.mp ho
      cases hv
    · grind
  have hstay : ∀ key i l, m'.view key = some (i, l) ↔
      m.view key = some (i, l) ∧ key ∉ removed.map Prod.fst := by
    intro key i l
    rw [hr.view]
    by_cases hk : key ∈ removed.map Prod.fst <;> simp [hk]
  refine ⟨fun key i l hl => ?_, fun key key' i l l' hl hl' => ?_, fun i _ hi => ?_, ?_, by simp⟩
  · obtain ⟨hl, hk⟩ := (hstay key i l).mp hl
    refine (hlive i).mpr ⟨h.live key i l hl, fun hi => hk ?_⟩
    obtain ⟨p, hp, rfl⟩ := mem_map.mp hi
    obtain ⟨l', hl'⟩ := hr.held p hp
    exact mem_map.mpr ⟨p, hp, h.distinct _ _ _ _ _ hl' hl⟩
  · exact h.distinct key key' i l l' ((hstay ..).mp hl).1 ((hstay ..).mp hl').1
  · obtain ⟨hi, hnot⟩ := (hlive i).mp hi
    obtain ⟨key, l, hl⟩ := h.owned i hi
    refine ⟨key, l, (hstay key i l).mpr ⟨hl, fun hk => hnot ?_⟩⟩
    obtain ⟨p, hp, rfl⟩ := mem_map.mp hk
    obtain ⟨l', hl'⟩ := hr.held p hp
    grind
  · rw [L1MemoryManager.free_eq h.uniform hex, length_batchedFree]

end LMCache
