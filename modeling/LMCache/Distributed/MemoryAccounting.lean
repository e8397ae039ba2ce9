import LMCache.Distributed.BalancedObjects

/-! # Memory accounting

`get_memory_usage` reports what the address manager has handed out and not got back.  In a sound
pool these are the ranges of the valid objects, and the valid objects are those of the entries, so
the report is the sum of the physical sizes of the entries.

* **Sound pools.**  `Sound` is the invariant of the tensor memory allocator, together with that of
  the expansion thread of the lazy allocator.
* **Alignment.**  A batch takes the aligned size of its total, and its objects take their own
  aligned sizes.  The two may differ when the alignment is not a power of two, and what is between
  is never given back.

**Main result**: `memory_accounted`. -/

namespace LMCache

open List TensorMemoryAllocator

variable {K : Type} [DecidableEq K] {clock : ℕ → ℤ}

/-! ### Physical sizes -/

/-- `get_physical_size` of an object of the pool. -/
def physicalSize (objs : List TensorMemoryObj) (i : ℕ) : ℕ :=
  (objs[i]?.map fun o => o.metadata.phySize).getD 0

def liveObjs (objs : List TensorMemoryObj) : List ℕ :=
  (List.range objs.length).filter fun i => objs[i]?.any fun o => o.valid

theorem liveObjs_cons (o : TensorMemoryObj) (objs : List TensorMemoryObj) :
    liveObjs (o :: objs) =
      if o.valid then 0 :: (liveObjs objs).map Nat.succ else (liveObjs objs).map Nat.succ := by
  unfold liveObjs
  rw [length_cons, range_succ_eq_map, filter_cons, filter_map]
  rfl

theorem total_live (objs : List TensorMemoryObj) :
    Extent.total (Pool.live objs) = ((liveObjs objs).map (physicalSize objs)).sum := by
  induction objs with
  | nil => rfl
  | cons o objs ih =>
    have hsucc : ((liveObjs objs).map Nat.succ).map (physicalSize (o :: objs)) =
        (liveObjs objs).map (physicalSize objs) := by
      rw [map_map]
      rfl
    rw [Pool.live_cons, liveObjs_cons]
    split_ifs
    · rw [map_cons, sum_cons, hsucc, ← ih]
      rfl
    · rw [hsucc, ih]

theorem mem_liveObjs {p : Pool TensorMemoryAllocator} {i : ℕ} : i ∈ liveObjs p.objs ↔ p.Live i := by
  rw [liveObjs, mem_filter, mem_range, Option.any_eq_true]
  exact ⟨fun h => h.2, fun h => ⟨Pool.Live.lt_length h, h⟩⟩

def L1Manager.memoryObjs (m : L1Manager K) : List ℕ := m.objects.entries.map fun e => e.2.memoryObj

theorem Balanced.nodup_memoryObjs {m : L1Manager K} (h : Balanced m) : m.memoryObjs.Nodup := by
  refine (nodup_map_iff_inj_on (List.Nodup.of_map _ m.objects.nodupKeys)).mpr ?_
  intro e he e' he' heq
  have hl := AList.mem_lookup_iff.mpr he
  have hl' := AList.mem_lookup_iff.mpr he'
  have hview' := L1Manager.view_of_lookup hl'
  rw [← heq] at hview'
  have hkey := h.distinct _ _ _ _ _ (L1Manager.view_of_lookup hl) hview'
  rw [Option.mem_def, ← hkey, hl] at hl'
  exact Sigma.ext hkey (heq_of_eq (Option.some.inj hl'))

theorem Balanced.perm_liveObjs {m : L1Manager K} (h : Balanced m) :
    m.memoryObjs.Perm (liveObjs m.memoryManager.pool.objs) := by
  have hnodup : (liveObjs m.memoryManager.pool.objs).Nodup := nodup_range.filter _
  refine (perm_ext_iff_of_nodup h.nodup_memoryObjs hnodup).mpr fun i => ?_
  rw [mem_liveObjs]
  constructor
  · intro hi
    obtain ⟨key, l, hl⟩ := mem_memoryObjs_iff.mp hi
    exact h.live key i l hl
  · exact fun hi => mem_memoryObjs_iff.mpr (h.owned i hi)

/-! ### Sound pools -/

/-- The pool lives in its buffer, in the part that the expansion thread has committed. -/
def Sound (k : ℕ) (p : Pool TensorMemoryAllocator) : Option Expander → Prop
  | none => TensorMemoryAllocator.Inv p
  | some x => Backed k x p

section sound
variable {k : ℕ} {p p' : Pool TensorMemoryAllocator} {x : Option Expander}

theorem Sound.inv (h : Sound k p x) : TensorMemoryAllocator.Inv p := by
  cases x with
  | none => exact h
  | some x => exact Backed.pool h

theorem Sound.setPool (h : Sound k p x) (hp : TensorMemoryAllocator.Inv p')
    (hspace : space p' = space p) : Sound k p' x := by
  cases x with
  | none => exact hp
  | some x => exact Backed.setPool h hp hspace

theorem poolSound_rule (k : ℕ) (x : Option Expander) : MemoryRule fun a => Sound k a.pool x where
  allocate a y n hn h := h.setPool (inv_batchedAllocate h.inv y hn _)
    (space_batchedAllocate ..)
  free a memObjs h := by
    rcases L1MemoryManager.free_pool a memObjs with heq | heq
    · exact heq.symm ▸ h
    · rw [heq]
      exact h.setPool (inv_batchedFree h.inv memObjs)
        (space_batchedFree ..)

theorem Sound.foldl_free (h : Sound k p x) (is : List ℕ) : Sound k (is.foldl free p) x := by
  induction is generalizing p with
  | nil => exact h
  | cons i is ih =>
    exact ih (h.setPool (inv_free h.inv i)
      (space_free p i))

end sound

/-- A new allocator is sound if its alignment is a power of two and at most a chunk; the mixed
allocator always is. -/
theorem sound_createMemoryAllocator {config : L1MemoryManagerConfig} {k : ℕ}
    (halign : config.useLazy = true → config.alignBytes = 2 ^ k) {a : L1MemoryManager}
    {x : Option Expander} (h : createMemoryAllocator config = .ok (a, x)) : Sound k a.pool x := by
  unfold createMemoryAllocator at h
  split_ifs at h with hlazy
  · obtain ⟨s, hs, hbacked⟩ := LazyMemoryAllocator.exists_new (k := k)
      (min_le_right config.initSizeInBytes config.sizeInBytes)
    rw [halign hlazy, hs] at h
    cases h
    exact hbacked
  · cases h
    exact inv_new (k := 12) nofun

namespace MemoryRun

/-- **A step** of a client or of the expansion thread. -/
theorem sound_run {s : MemoryRun K} {k : ℕ} (hk : k ≤ 26)
    (h : Sound k s.manager.memoryManager.pool s.expander) {e : MemoryEvent K}
    (he : s.Allowed clock e) :
    Sound k (s.run clock e).manager.memoryManager.pool (s.run clock e).expander := by
  fun_cases MemoryRun.run clock s e
  case case1 c held =>
    have hc : ∀ n, c ≠ .commitExpansion n := by
      rintro n rfl
      exact he
    have hcall : Sound k (c.run clock ⟨s.manager, []⟩).manager.memoryManager.pool s.expander :=
      (poolSound_rule k s.expander).run h hc
    exact hcall.foldl_free _
  case case2 => exact h
  case case3 x hx =>
    rw [hx] at h
    have hstep := Backed.step h hk
    cases hn : x.step.2 with
    | none =>
      rw [hn] at hstep
      exact hstep
    | some n =>
      rw [hn] at hstep
      exact hstep

theorem sound_reachable {config : L1MemoryManagerConfig} {k : ℕ} (hk : k ≤ 26)
    (halign : config.useLazy = true → config.alignBytes = 2 ^ k) {s : MemoryRun K}
    (h : (memorySystem K clock config).Reachable s) :
    Sound k s.manager.memoryManager.pool s.expander := by
  refine h.invariant (I := fun s => Sound k s.manager.memoryManager.pool s.expander) ?_ ?_
  · rintro s ⟨a, x, w, r, hnew, rfl⟩
    exact sound_createMemoryAllocator halign hnew
  · rintro s e s' hs ⟨he, rfl⟩
    exact sound_run hk hs he

/-! ### The report -/

/-- The entries have distinct valid objects, the report is the sum of their physical sizes, and no
memory was given back twice. -/
structure Accounted (s : MemoryRun K) : Prop where
  distinct : s.manager.memoryObjs.Nodup
  valid : ∀ i ∈ s.manager.memoryObjs, s.manager.memoryManager.pool.Live i
  used : s.manager.memoryManager.getMemoryUsage.1 =
    (s.manager.memoryObjs.map (physicalSize s.manager.memoryManager.pool.objs)).sum
  once : s.manager.memoryManager.pool.returned.Nodup

/-- **Memory is accounted for**, in every run of a configuration with the mixed allocator, or whose
alignment is a power of two and at most a chunk of the lazy allocator. -/
theorem memory_accounted {config : L1MemoryManagerConfig}
    (halign : config.useLazy = true → ∃ k ≤ 26, config.alignBytes = 2 ^ k) {s : MemoryRun K}
    (h : (memorySystem K clock config).Reachable s) : s.Accounted := by
  obtain ⟨k, hk, hpow⟩ : ∃ k ≤ 26, config.useLazy = true → config.alignBytes = 2 ^ k := by
    cases hlazy : config.useLazy with
    | false => exact ⟨0, Nat.zero_le _, by simp⟩
    | true =>
      grind
  have hbalanced := (settled_reachable h).balanced
  have hinv := (sound_reachable hk hpow h).inv
  have hperm := hbalanced.perm_liveObjs
  refine ⟨hbalanced.nodup_memoryObjs, fun i hi => ?_, ?_, hinv.objs.nodup⟩
  · exact mem_liveObjs.mp (hperm.mem_iff.mp hi)
  · rw [(hperm.map _).sum_eq, ← total_live, ← hinv.accounts.total]
    exact sub_sub_cancel _ _

/-! ### Batches of three -/

/-- The lazy allocator of one chunk, all of it committed. -/
def oneChunkConfig (alignBytes : ℕ) : L1MemoryManagerConfig := ⟨2 ^ 26, true, 2 ^ 26, alignBytes⟩

/-- Its manager after the calls of clients that keep nothing. -/
def after (alignBytes : ℕ) (calls : List (L1Call ℕ)) : MemoryRun ℕ :=
  calls.foldl (fun s c => s.run (fun _ => 0) (.call c []))
    ⟨⟨∅, ⟨true, ⟨.new (2 ^ 26) alignBytes (some (2 ^ 26)), [], []⟩⟩, 600, 300, 0⟩,
      some ⟨2 ^ 26, 2 ^ 26, 2 ^ 26, [⟨0, 2 ^ 26⟩], .check⟩, []⟩

theorem reachable_after (alignBytes : ℕ) {calls : List (L1Call ℕ)}
    (hcalls : ∀ c ∈ calls, ∀ n, c ≠ .commitExpansion n) :
    (memorySystem ℕ (fun _ => 0) (oneChunkConfig alignBytes)).Reachable
      (after alignBytes calls) := by
  have hinit : createMemoryAllocator (oneChunkConfig alignBytes) =
      .ok (⟨true, ⟨.new (2 ^ 26) alignBytes (some (2 ^ 26)), [], []⟩⟩,
        some ⟨2 ^ 26, 2 ^ 26, 2 ^ 26, [⟨0, 2 ^ 26⟩], .check⟩) := by
    have hnew : Expander.new (min (2 ^ 26) (2 ^ 26)) (2 ^ 26) =
        .ok ⟨2 ^ 26, 2 ^ 26, 2 ^ 26, [⟨0, 2 ^ 26⟩], .check⟩ := by decide +kernel
    show (LazyMemoryAllocator.new (min (2 ^ 26) (2 ^ 26)) (2 ^ 26) alignBytes).map _ = _
    rw [LazyMemoryAllocator.new, hnew]
    rfl
  refine foldlRecOn calls _ (.init ⟨_, _, 600, 300, hinit, rfl⟩) fun s hs c hc =>
    hs.step (e := .call c []) ⟨?_, rfl⟩
  cases c with
  | commitExpansion n => exact hcalls _ hc n rfl
  | _ => exact fun i hi => absurd hi not_mem_nil

def threeKeys : L1Call ℕ :=
  .reserveWrite 0 [0, 1, 2] [false, false, false] ⟨[[1]], [⟨"uint8", 1⟩], by decide, rfl⟩ .all

/-- With the default alignment three pages are used, and none after the keys are deleted. -/
theorem memory_accounted_three_keys :
    (after 4096 [threeKeys]).Accounted ∧
      (after 4096 [threeKeys]).manager.memoryManager.getMemoryUsage.1 = 3 * 4096 ∧
      (after 4096 [threeKeys, .finishWrite 0 [0, 1, 2], .delete [0, 1, 2]]).Accounted :=
  ⟨memory_accounted (fun _ => ⟨12, by decide, rfl⟩)
      (reachable_after 4096 (by simp [threeKeys])),
    by decide +kernel,
    memory_accounted (fun _ => ⟨12, by decide, rfl⟩)
      (reachable_after 4096 (by simp [threeKeys]))⟩

/-- With an alignment of 48 bytes, three objects of 16 bytes take 80, and 32 of them stay in use
after the keys are deleted. -/
theorem memory_not_accounted :
    let s := after 48 [threeKeys, .finishWrite 0 [0, 1, 2], .delete [0, 1, 2]]
    (memorySystem ℕ (fun _ => 0) (oneChunkConfig 48)).Reachable s ∧ s.manager.memoryObjs = [] ∧
      s.manager.memoryManager.getMemoryUsage.1 = 32 ∧ ¬ s.Accounted := by
  refine ⟨reachable_after 48 (by simp [threeKeys]), by decide +kernel, by decide +kernel,
    fun h => ?_⟩
  exact absurd h.used (by decide +kernel)

end MemoryRun

end LMCache
