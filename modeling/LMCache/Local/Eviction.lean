import LMCache.Local.CPUSteps

/-! # Evictions of the CPU backend

An eviction gives memory back to the allocator.  It is safe when no object that is pinned or has
more than one reference is given back, and when it finds all layers of the chunk it evicts.

* **`allocate`** removes the candidate of the policy, which was checked: always safe.
* **`batched_allocate`** checks one layer, and frees all layers of the chunk whatever their
  counters are.  This is safe when all of them are in the cache and none is in use
  (`LayersFree`), and, as long as it frees tensors, only then.

**Main result**: `eviction_safe`. -/

namespace LMCache.Local

open List LocalCPUBackend SmallBackend

variable {A H : Type} [DecidableEq H] {M : MemoryAllocator A} {b : LocalCPUBackend A H}

/-- The object is pinned or has more than one reference. -/
def InUse (p : Pool A) (i : ℕ) : Prop :=
  ∃ o, p.objs[i]? = some o ∧ (0 < o.metadata.pinCount ∨ 1 < o.metadata.refCount)

instance (p : Pool A) (i : ℕ) : Decidable (InUse p i) :=
  decidable_of_iff ((p.objs[i]?.any fun o =>
      decide (0 < o.metadata.pinCount ∨ 1 < o.metadata.refCount)) = true)
    (by simp [InUse, Option.any_eq_true])

/-- The eviction with result `r` gives back nothing that is in use, and does not raise because of a
missing layer. -/
structure SafeEviction (b : LocalCPUBackend A H)
    (r : Except (BackendError H) Bool × LocalCPUBackend A H) : Prop where
  returned : ∃ l, r.2.pool.returned = b.pool.returned ++ l ∧ ∀ i ∈ l, ¬ InUse b.pool i
  layers : ∀ key, r.1 ≠ .error (.notCached key)

/-- The layers of the chunk that `batched_allocate` would evict are all cached, and none of those
with memory is in use. -/
def LayersFree (b : LocalCPUBackend A H) (batchSize : ℕ) : Prop :=
  ∀ evictKeys, b.evictKeys = .ok evictKeys → ∀ key ∈ evictKeys, ∀ k ∈ key.splitLayers batchSize,
    ∃ i, b.hotCache.get? k = some i ∧ (b.pool.Live i → ¬ InUse b.pool i)

/-- The first layer of the candidate is a tensor, in a format that the allocator knows. -/
def FreesTensors (M : MemoryAllocator A) (b : LocalCPUBackend A H) : Prop :=
  ∀ evictKeys, b.evictKeys = .ok evictKeys → ∀ key ∈ evictKeys, ∀ i,
    b.hotCache.get? (key.layer 0) = some i → ∃ o, b.pool.objs[i]? = some o ∧
      M.isBuffer o = false ∧ o.metadata.fmt.unsupported = none

/-! ### The eviction of `allocate` -/

theorem refCountDown_returned (p : Pool A) (i : ℕ) :
    ∃ l, (M.refCountDown p i).returned = p.returned ++ l ∧ ∀ j ∈ l, j = i := by
  have hnone : ∃ l, p.returned = p.returned ++ l ∧ ∀ j ∈ l, j = i := ⟨[], by simp, by simp⟩
  unfold MemoryAllocator.refCountDown
  split_ifs
  · exact hnone
  · fun_cases Pool.refCountDown <;> first | exact hnone | exact M.free_returned _ i

theorem not_inUse_of_canEvict {p : Pool A} {i : ℕ} (h : canEvict p i = true) : ¬ InUse p i := by
  rintro ⟨o, ho, huse⟩
  rw [canEvict, ho, Option.any_some, Bool.and_eq_true, Bool.not_eq_true', decide_eq_false_iff_not,
    decide_eq_true_iff] at h
  omega

theorem safe_asked {e : Except (BackendError H) Bool} (he : ∀ key, e ≠ .error (.notCached key)) :
    SafeEviction b (e, b.asked) :=
  ⟨⟨[], (append_nil _).symm, by simp⟩, he⟩

section
variable (hp : b.cachePolicy.Tracks)

include hp

theorem safe_evictOne : SafeEviction b (b.evictOne M) := by
  rcases evictOne_cases (M := M) hp with ⟨e, -, he⟩ | ⟨-, hnone⟩ | ⟨key, i, hi, hevict, -, hkey⟩
  · rw [he]
    exact safe_asked fun key => nofun
  · rw [hnone]
    exact safe_asked fun key => nofun
  · obtain ⟨-, -, -, hpool, -⟩ := remove_of_mem (M := M)
      (tracks_asked hp) (b := b.asked) hi false
    obtain ⟨l, hl, hmem⟩ := refCountDown_returned (M := M) b.pool i
    rw [hkey]
    refine ⟨⟨l, ?_, fun j hj => ?_⟩, fun key => nofun⟩
    · rw [hpool]
      exact hl
    · rw [hmem j hj]
      exact not_inUse_of_canEvict hevict

/-! ### The eviction of `batched_allocate` -/

variable {batchSize : ℕ}

theorem evictChunks_missing {key : CacheEngineKey H}
    (h : ∃ k ∈ key.splitLayers batchSize, k ∉ b.hotCache.keys) :
    ∃ k, (b.evictChunks M batchSize [key]).1 = .error (.notCached k) := by
  obtain ⟨k, hk⟩ := takeLayers_error hp h []
  refine ⟨k, ?_⟩
  rw [evictChunks]
  rcases hr : b.takeLayers (key.splitLayers batchSize) [] with ⟨r, b'⟩
  rw [hr] at hk
  obtain rfl : r = .error (.notCached k) := hk
  rfl

theorem evictChunks_present {key : CacheEngineKey H}
    (h : ∀ k ∈ key.splitLayers batchSize, k ∈ b.hotCache.keys) :
    (b.evictChunks M batchSize [key]).2.pool =
        (M.batchedFree b.pool ((key.splitLayers batchSize).filterMap b.hotCache.get?)).2 ∧
      ∀ k, (b.evictChunks M batchSize [key]).1 ≠ .error (.notCached k) := by
  have hok := takeLayers_ok hp (key.nodup_splitLayers batchSize) h []
  obtain ⟨-, hpool, -, -⟩ := takeLayers_frame hp (key.splitLayers batchSize) []
  rw [evictChunks]
  rcases hr : b.takeLayers (key.splitLayers batchSize) [] with ⟨r, b'⟩
  rw [hr] at hok hpool
  obtain rfl : r = _ := hok
  dsimp only at hpool ⊢
  rw [nil_append, hpool]
  cases (M.batchedFree b.pool ((key.splitLayers batchSize).filterMap b.hotCache.get?)).1 with
  | none => exact ⟨rfl, fun k hk => by cases hk⟩
  | some e => exact ⟨rfl, fun k hk => by cases hk⟩

theorem safe_evictLayers (hfree : LayersFree b batchSize) :
    SafeEviction b (b.evictLayers M batchSize) := by
  rcases evictLayers_cases (M := M) b batchSize with
    ⟨e, -, he⟩ | ⟨-, hnone⟩ | ⟨key, hkey, hlayers⟩
  · rw [he]
    exact safe_asked fun key => nofun
  · rw [hnone]
    exact safe_asked fun key => nofun
  · have hfree := hfree [key] hkey key mem_cons_self
    obtain ⟨hpool, hok⟩ := evictChunks_present (M := M) (tracks_asked hp)
      (b := b.asked) fun k hk => Dict.mem_keys_iff.mpr ((hfree k hk).imp fun i hi => hi.1)
    obtain ⟨l, hl, hmem⟩ := M.batchedFree_returned b.pool
      ((key.splitLayers batchSize).filterMap b.hotCache.get?)
    rw [hlayers]
    refine ⟨⟨l, by rw [hpool]; exact hl, fun i hi => ?_⟩, fun k hk => ?_⟩
    · obtain ⟨hi, hlive⟩ := hmem i hi
      obtain ⟨k, hk, hget⟩ := mem_filterMap.mp hi
      obtain ⟨i', hi', huse⟩ := hfree k hk
      cases hget.symm.trans hi'
      exact huse hlive
    · cases hr : (b.asked.evictChunks M batchSize [key]).1 with
      | ok _ => simp [hr, Except.map] at hk
      | error e =>
        rw [hr] at hk
        exact hok k (hr.trans (congrArg _ (Except.error.inj hk)))

theorem layersFree_of_safe (hmixed : M.isMixed = true)
    (htensors : FreesTensors M b) (hsafe : SafeEviction b (b.evictLayers M batchSize)) :
    LayersFree b batchSize := by
  intro evictKeys hevict key hkey k hk
  rcases evictLayers_cases (M := M) b batchSize with
    ⟨e, he, -⟩ | ⟨hnone, -⟩ | ⟨key', hkey', hlayers⟩
  · exact absurd (hevict.symm.trans he) nofun
  · rw [Except.ok.inj (hevict.symm.trans hnone)] at hkey
    exact absurd hkey not_mem_nil
  · cases hevict.symm.trans hkey'
    obtain rfl := mem_singleton.mp hkey
    rw [hlayers] at hsafe
    have hpresent : ∀ k ∈ key.splitLayers batchSize, k ∈ b.hotCache.keys := by
      by_contra hmissing
      push Not at hmissing
      obtain ⟨k', hk'⟩ := evictChunks_missing (M := M) (tracks_asked hp)
        (b := b.asked) hmissing
      exact hsafe.layers k' (by rw [hk']; rfl)
    obtain ⟨i, hi⟩ := Dict.mem_keys_iff.mp (hpresent k hk)
    refine ⟨i, hi, fun hlive => ?_⟩
    -- There is a layer, so there is a layer 0, which decides what the allocator does.
    obtain ⟨n, rfl⟩ : ∃ n, batchSize = n + 1 := by
      cases batchSize with
      | zero => exact absurd hk not_mem_nil
      | succ n => exact ⟨n, rfl⟩
    have hsplit : key.splitLayers (n + 1) = key.layer 0 ::
        (range n).map fun i => key.layer (i + 1) := by
      simp [CacheEngineKey.splitLayers, range_succ_eq_map, Function.comp_def]
    obtain ⟨i₀, hi₀⟩ := Dict.mem_keys_iff.mp (hpresent (key.layer 0) (by simp [hsplit]))
    obtain ⟨o, ho, hbuf, hfmt⟩ := htensors [key] hkey' key mem_cons_self i₀ hi₀
    obtain ⟨hpool, -⟩ := evictChunks_present (M := M) (tracks_asked hp)
      (b := b.asked) hpresent
    have hmem : i ∈ (key.splitLayers (n + 1)).filterMap b.hotCache.get? :=
      mem_filterMap.mpr ⟨k, hk, hi⟩
    have hcons : (key.splitLayers (n + 1)).filterMap b.hotCache.get? =
        i₀ :: ((range n).map fun i => key.layer (i + 1)).filterMap b.hotCache.get? := by
      rw [hsplit, filterMap_cons_some hi₀]
    obtain ⟨l, hl, hall⟩ := M.batchedFree_live hmixed b.pool i₀ _ o ho hbuf hfmt
    rw [← hcons] at hl hall
    obtain ⟨l', hl', hsafe⟩ := hsafe.returned
    rw [hpool] at hl'
    obtain rfl := append_cancel_left (hl.symm.trans hl')
    exact hsafe i (hall i hmem hlive)

end

/-- **Evictions.**  Those of `allocate` are safe.  Those of `batched_allocate` are safe when the
layers of the chunk are free; with the mixed allocator and tensors, only then. -/
theorem eviction_safe (hb : (cpuSystem H M).Reachable b) :
    SafeEviction b (b.evictOne M) ∧
      (∀ batchSize, LayersFree b batchSize → SafeEviction b (b.evictLayers M batchSize)) ∧
      (M.isMixed = true → FreesTensors M b → ∀ batchSize,
        SafeEviction b (b.evictLayers M batchSize) → LayersFree b batchSize) := by
  have hp := tracks_reachable hb
  exact ⟨safe_evictOne hp, fun n => safe_evictLayers hp, fun hmixed htensors n =>
    layersFree_of_safe hp hmixed htensors⟩

/-- Two layers that nobody uses are evicted together. -/
theorem free_layers_evicted :
    let b := SmallBackend.after SmallBackend.putLayers
    b.evictKeys = .ok [SmallBackend.chunk.layer 0] ∧
      (b.evictLayers mixed 2).2.pool.returned = [0, 1] ∧
      SafeEviction b (b.evictOne mixed) ∧ SafeEviction b (b.evictLayers mixed 2) := by
  have hkeys : (after putLayers).evictKeys =
      .ok [chunk.layer 0] := by decide +kernel
  have hsafe := eviction_safe (reachable_after putLayers)
  refine ⟨hkeys, by decide +kernel, hsafe.1, hsafe.2.1 2 ?_⟩
  intro evictKeys hevict key hkey k hk
  cases hevict.symm.trans hkeys
  obtain rfl := mem_singleton.mp hkey
  have hcases : k = chunk.layer 0 ∨ k = chunk.layer 1 := by
    simpa [CacheEngineKey.splitLayers, CacheEngineKey.layer, range_succ] using hk
  rcases hcases with rfl | rfl
  · exact ⟨0, by decide +kernel, fun _ => by decide +kernel⟩
  · exact ⟨1, by decide +kernel, fun _ => by decide +kernel⟩

/-- A reader has pinned layer 1 of a chunk, and `batched_allocate` gives its memory back; layer 1
of a chunk is not there, and `batched_allocate` raises. -/
theorem batched_eviction_unsafe :
    (∃ b, (cpuSystem ℤ mixed).Reachable b ∧ InUse b.pool 1 ∧ b.pool.returned = [] ∧
      (b.evictLayers mixed 2).2.pool.returned = [0, 1] ∧
      ¬ SafeEviction b (b.evictLayers mixed 2)) ∧
    ∃ b, (cpuSystem ℤ mixed).Reachable b ∧
      (b.evictLayers mixed 2).1 = .error (.notCached (SmallBackend.chunk.layer 1)) ∧
      ¬ SafeEviction b (b.evictLayers mixed 2) := by
  constructor
  · have huse : InUse (SmallBackend.after (SmallBackend.putLayers ++
        [.contains (SmallBackend.chunk.layer 1) true])).pool 1 := by decide +kernel
    have hback : ((SmallBackend.after (SmallBackend.putLayers ++
        [.contains (SmallBackend.chunk.layer 1) true])).evictLayers mixed 2).2.pool.returned =
        [0, 1] := by decide +kernel
    have hnone : (SmallBackend.after (SmallBackend.putLayers ++
        [.contains (SmallBackend.chunk.layer 1) true])).pool.returned = [] := by decide +kernel
    refine ⟨_, reachable_after _, huse, hnone, hback, fun hsafe => ?_⟩
    obtain ⟨l, hl, hfree⟩ := hsafe.returned
    rw [hback, hnone, nil_append] at hl
    exact hfree 1 (by simp [← hl]) huse
  · have hraise : ((after (put (chunk.layer 0)
        (chunk'.layer 0))).evictLayers mixed 2).1 =
        .error (.notCached (chunk.layer 1)) := by decide +kernel
    exact ⟨_, reachable_after _, hraise, fun hsafe => hsafe.layers _ hraise⟩

end LMCache.Local
