import LMCache.Local.CPUSteps

/-! # The controller's view of the CPU cache

The controller replays the operations of a backend: `ADMIT` adds the hash of a chunk to a set,
`EVICT` takes it away.  `Mirrored` says that the set is that of the hashes of the cached keys.

An operation names a chunk while the cache has one entry for each key, and keys of several layers
share the hash of their chunk.

* An `EVICT` is right exactly when the key was the last one of its chunk.
* The section of `batched_allocate` sends nothing, which is right exactly when the chunk has a key
  left.

`Announced` is this condition for one event, and `taken` are the keys that the event removes.
**Main result**: `mirrored_of_announced`. -/

namespace LMCache.Local

open SmallBackend

variable {A H : Type} [DecidableEq H] {M : MemoryAllocator A}

/-! ### Replaying -/

def applyOp (hashes : Finset H) (op : Controller.OpType × H) : Finset H :=
  match op.1 with
  | .admitKey => insert op.2 hashes
  | .evictKey => hashes.erase op.2

def replay (ops : List (Controller.OpType × H)) : Finset H := ops.foldl applyOp ∅

theorem mem_replay_admit {ops : List (Controller.OpType × H)} {h h' : H} :
    h' ∈ replay (ops ++ [(.admitKey, h)]) ↔ h' = h ∨ h' ∈ replay ops := by
  simp [replay, List.foldl_append, applyOp]

theorem mem_replay_evict {ops : List (Controller.OpType × H)} {h h' : H} :
    h' ∈ replay (ops ++ [(.evictKey, h)]) ↔ h' ≠ h ∧ h' ∈ replay ops := by
  simp [replay, List.foldl_append, applyOp]

/-! ### The mirror -/

def Cached (b : LocalCPUBackend A H) (h : H) : Prop := ∃ k ∈ b.hotCache.keys, k.chunkHash = h

instance (b : LocalCPUBackend A H) (h : H) : Decidable (Cached b h) :=
  inferInstanceAs (Decidable (∃ k ∈ b.hotCache.keys, _))

/-- The replayed set is that of the cached chunks. -/
def Mirrored (b : LocalCPUBackend A H) : Prop := ∀ h, h ∈ replay b.ops ↔ Cached b h

/-- The event is a section of `batched_allocate`. -/
def CPUEvent.isSilent : CPUEvent H → Bool
  | .evictLayers _ => true
  | _ => false

/-- What is sent fits what is removed: a removal with an `EVICT` takes the last key of a chunk, a
silent removal leaves one. -/
def Announced (M : MemoryAllocator A) (b : LocalCPUBackend A H) (e : CPUEvent H) : Prop :=
  ∀ k ∈ b.hotCache.keys, k ∉ (b.step M e).hotCache.keys →
    (Cached (b.step M e) k.chunkHash ↔ e.isSilent = true)

instance (b : LocalCPUBackend A H) (e : CPUEvent H) : Decidable (Announced M b e) :=
  inferInstanceAs (Decidable (∀ k ∈ b.hotCache.keys, _ → (_ ↔ _)))

omit [DecidableEq H] in
theorem not_isSilent {e : CPUEvent H} (he : ∀ n, e ≠ .evictLayers n) : e.isSilent = false := by
  cases e with
  | evictLayers n => exact absurd rfl (he n)
  | _ => rfl

section effects
variable {b b' : LocalCPUBackend A H}

theorem mirrored_put (hb : Mirrored b) {key : CacheEngineKey H}
    (hkeys : ∀ k, k ∈ b'.hotCache.keys ↔ k = key ∨ k ∈ b.hotCache.keys)
    (hops : b'.ops = b.ops ++ [(.admitKey, key.chunkHash)]) : Mirrored b' := by
  intro h
  rw [hops, mem_replay_admit, hb h]
  constructor
  · rintro (rfl | ⟨k, hk, rfl⟩)
    · exact ⟨key, (hkeys key).mpr (.inl rfl), rfl⟩
    · exact ⟨k, (hkeys k).mpr (.inr hk), rfl⟩
  · rintro ⟨k, hk, rfl⟩
    rcases (hkeys k).mp hk with rfl | hk
    · exact .inl rfl
    · exact .inr ⟨k, hk, rfl⟩

theorem mirrored_drop_iff (hb : Mirrored b) {key : CacheEngineKey H}
    (hkeys : ∀ k, k ∈ b'.hotCache.keys ↔ k ≠ key ∧ k ∈ b.hotCache.keys)
    (hops : b'.ops = b.ops ++ [(.evictKey, key.chunkHash)]) :
    Mirrored b' ↔ ¬ Cached b' key.chunkHash := by
  constructor
  · intro hb' hcached
    have hmem := (hb' key.chunkHash).mpr hcached
    rw [hops, mem_replay_evict] at hmem
    exact hmem.1 rfl
  · intro hnot h
    rw [hops, mem_replay_evict, hb h]
    constructor
    · rintro ⟨hne, k, hk, rfl⟩
      exact ⟨k, (hkeys k).mpr ⟨fun heq => hne (heq ▸ rfl), hk⟩, rfl⟩
    · rintro ⟨k, hk, rfl⟩
      exact ⟨fun heq => hnot ⟨k, hk, heq⟩, k, ((hkeys k).mp hk).2, rfl⟩

theorem mirrored_silent_iff (hb : Mirrored b)
    (hkeys : ∀ k, k ∈ b'.hotCache.keys → k ∈ b.hotCache.keys) (hops : b'.ops = b.ops) :
    Mirrored b' ↔ ∀ k ∈ b.hotCache.keys, k ∉ b'.hotCache.keys → Cached b' k.chunkHash := by
  constructor
  · intro hb' k hk _
    rw [← hb' k.chunkHash, hops, hb]
    exact ⟨k, hk, rfl⟩
  · intro hleft h
    rw [hops, hb h]
    constructor
    · rintro ⟨k, hk, rfl⟩
      by_cases hk' : k ∈ b'.hotCache.keys
      · exact ⟨k, hk', rfl⟩
      · exact hleft k hk hk'
    · rintro ⟨k, hk, rfl⟩
      exact ⟨k, hkeys k hk, rfl⟩

end effects

/-- **One event** keeps the mirror when it is announced, and only then. -/
theorem mirrored_step_iff {b : LocalCPUBackend A H} (hp : b.cachePolicy.Tracks) (hb : Mirrored b)
    (e : CPUEvent H) : Mirrored (b.step M e) ↔ Announced M b e := by
  cases (LocalCPUBackend.step_effect (M := M) hp e).1 with
  | same hkeys hops =>
    have hb' : Mirrored (b.step M e) :=
      (mirrored_silent_iff hb (fun k => (hkeys k).mp) hops).mpr fun k hk hnot =>
        absurd ((hkeys k).mpr hk) hnot
    exact ⟨fun _ k hk hnot => absurd ((hkeys k).mpr hk) hnot, fun _ => hb'⟩
  | put key hnew hkeys hops =>
    exact ⟨fun _ k hk hnot => absurd ((hkeys k).mpr (.inr hk)) hnot, fun _ =>
      mirrored_put hb hkeys hops⟩
  | drop he key hold hkeys hops =>
    rw [mirrored_drop_iff hb hkeys hops, Announced, not_isSilent he]
    grind
  | silent hkeys hops =>
    rw [mirrored_silent_iff hb hkeys hops, Announced]
    simp [CPUEvent.isSilent]

/-! ### The keys an event takes -/

/-- The keys that an event takes out of the cache, by the state before it.  The loop over the layers
of a chunk stops at the first one that is not cached. -/
def taken (M : MemoryAllocator A) (b : LocalCPUBackend A H) : CPUEvent H → List (CacheEngineKey H)
  | .remove key => [key]
  | .evictOne => if b.config.useHot then b.evictKeys.toOption.getD [] else []
  | .evictLayers batchSize =>
    if b.config.useHot && M.isMixed then
      (b.evictKeys.toOption.getD []).flatMap fun key =>
        (key.splitLayers batchSize).takeWhile fun k => (b.hotCache.get? k).isSome
    else []
  | _ => []

section
open LocalCPUBackend Dict

theorem mem_takeLayers {b : LocalCPUBackend A H} (hp : b.cachePolicy.Tracks)
    {keys : List (CacheEngineKey H)} (hkeys : keys.Nodup) {p : CacheEngineKey H → Bool}
    (hcached : ∀ k ∈ keys, p k = true ↔ k ∈ b.hotCache.keys) (oldMemObjs : List ℕ)
    {k : CacheEngineKey H} : k ∈ (b.takeLayers keys oldMemObjs).2.hotCache.keys ↔
      k ∈ b.hotCache.keys ∧ k ∉ keys.takeWhile p := by
  induction keys generalizing b oldMemObjs with
  | nil => simp [takeLayers]
  | cons key keys ih =>
    obtain ⟨hok, htracks⟩ := hp.updateOnForceEvict key
    obtain ⟨hnew, hkeys⟩ := List.nodup_cons.mp hkeys
    obtain ⟨hkey, hcached⟩ := List.forall_mem_cons.mp hcached
    rw [takeLayers]
    cases hi : b.hotCache.get? key with
    | none => simp [hkey, get?_eq_none_iff.mp hi]
    | some i =>
      simp only [hok]
      rw [ih htracks hkeys fun k hk => ?_, mem_keys_erase, List.takeWhile_cons_of_pos]
      · grind
      · exact hkey.mpr (mem_keys_iff.mpr ⟨i, hi⟩)
      · -- the keys still to come are not the one that is taken
        have hne : k ≠ key := fun heq => hnew (heq ▸ hk)
        rw [hcached k hk, mem_keys_erase, and_iff_right hne]

theorem hotCache_evictChunks (b : LocalCPUBackend A H) (batchSize : ℕ) (key : CacheEngineKey H) :
    (b.evictChunks M batchSize [key]).2.hotCache =
      (b.takeLayers (key.splitLayers batchSize) []).2.hotCache := by
  rw [evictChunks]
  rcases b.takeLayers (key.splitLayers batchSize) [] with ⟨_ | oldMemObjs, b'⟩
  · rfl
  · dsimp only
    cases (M.batchedFree b'.pool oldMemObjs).1 <;> rfl

/-- **The cache after an event** that puts nothing. -/
theorem mem_step_iff {b : LocalCPUBackend A H} (hp : b.cachePolicy.Tracks) {e : CPUEvent H}
    (he : ∀ key i, e ≠ .submitPutTask key i) {k : CacheEngineKey H} :
    k ∈ (b.step M e).hotCache.keys ↔ k ∈ b.hotCache.keys ∧ k ∉ taken M b e := by
  cases e with
  | remove key =>
    change k ∈ (b.remove M key true).2.hotCache.keys ↔ _
    cases hkey : b.hotCache.get? key with
    | none =>
      rw [remove_of_notMem hkey, taken]
      have := get?_eq_none_iff.mp hkey
      grind
    | some i =>
      rw [(remove_of_mem (M := M) hp hkey true).2.2.1, mem_keys_erase, taken, List.mem_singleton]
      exact and_comm
  | evictOne =>
    rw [step_evictOne, taken]
    split_ifs
    · rcases evictOne_cases (M := M) hp with ⟨e, he, hb⟩ | ⟨hnone, hb⟩ | ⟨key, i, hi, -, hkey, hb⟩
      · simp [hb, he, Except.toOption, asked]
      · simp [hb, hnone, Except.toOption, asked]
      · have hcache := (remove_of_mem (M := M) (tracks_asked hp) (b := b.asked) hi false).2.2.1
        rw [hb, hcache, mem_keys_erase, hkey]
        simp [Except.toOption, asked, and_comm]
    · simp
  | evictLayers batchSize =>
    rw [step_evictLayers, taken]
    split_ifs
    · rcases evictLayers_cases (M := M) b batchSize with ⟨e, he, hb⟩ | ⟨hnone, hb⟩ | ⟨key, hkey, hb⟩
      · simp [hb, he, Except.toOption, asked]
      · simp [hb, hnone, Except.toOption, asked]
      · rw [hb, hotCache_evictChunks, mem_takeLayers (tracks_asked hp)
          (key.nodup_splitLayers batchSize) (p := fun k => (b.hotCache.get? k).isSome)
          (by simp [asked, Option.isSome_iff_exists, mem_keys_iff]), hkey]
        simp [Except.toOption, asked]
    · simp
  | submitPutTask key i => exact absurd rfl (he key i)
  | touchCache =>
    obtain ⟨-, hget, -⟩ := touchCache_spec hp
    change k ∈ b.touchCache.2.hotCache.keys ↔ _
    rw [mem_keys_iff, mem_keys_iff, hget]
    simp [taken]
  | _ =>
    rw [(sameCache_step rfl).hotCache]
    simp [taken]

end

/-- **What is announced**, by the state before the event: a removal that is not silent takes the
last keys of a chunk, a silent one leaves a key of it. -/
theorem announced_iff {b : LocalCPUBackend A H} (hp : b.cachePolicy.Tracks) (e : CPUEvent H) :
    Announced M b e ↔ ∀ k ∈ b.hotCache.keys, k ∈ taken M b e →
      ((∃ k' ∈ b.hotCache.keys, k' ∉ taken M b e ∧ k'.chunkHash = k.chunkHash) ↔
        e.isSilent = true) := by
  by_cases he : ∀ key i, e ≠ .submitPutTask key i
  · simp only [Announced, Cached, mem_step_iff hp he]
    grind
  · push Not at he
    obtain ⟨key, i, rfl⟩ := he
    have hstay : ∀ k ∈ b.hotCache.keys, k ∈ (b.submitPutTask M key i).hotCache.keys := by
      fun_cases LocalCPUBackend.submitPutTask
      · exact fun k hk => hk
      · exact fun k hk => Dict.mem_keys_set.mpr (.inr hk)
    exact iff_of_true (fun k hk hnot => absurd (hstay k hk) hnot) (by simp [taken])

/-- **The controller mirrors the cache** along every run whose events are announced; from a state
of such a run, an event that is not breaks the mirror.  Which events are announced is decided by the
keys before the event. -/
theorem mirrored_of_announced {b : LocalCPUBackend A H}
    (h : ((cpuSystem H M).restrict (Announced M)).Reachable b) :
    Mirrored b ∧ ∀ e, (Mirrored (b.step M e) ↔ Announced M b e) ∧
      (Announced M b e ↔ ∀ k ∈ b.hotCache.keys, k ∈ taken M b e →
        ((∃ k' ∈ b.hotCache.keys, k' ∉ taken M b e ∧ k'.chunkHash = k.chunkHash) ↔
          e.isSilent = true)) := by
  have hmirrored : Mirrored b := by
    induction h with
    | init hinit =>
      obtain ⟨config, pool, cachePolicy, -, rfl⟩ := hinit
      intro h
      simp [LocalCPUBackend.new, replay, Cached, Dict.keys, Dict.empty]
    | step hprev hstep ih =>
      obtain ⟨hann, rfl⟩ := hstep
      exact (mirrored_step_iff (LocalCPUBackend.tracks_reachable hprev.of_restrict) ih _).mpr hann
  have hp := LocalCPUBackend.tracks_reachable h.of_restrict
  exact ⟨hmirrored, fun e => ⟨mirrored_step_iff hp hmirrored e, announced_iff hp e⟩⟩

/-- A whole chunk is put and removed again, and another one stays. -/
theorem mirrored_whole_chunks :
    let b := after (putWhole ++ [.remove chunk])
    b.hotCache.keys = [chunk'] ∧ replay b.ops = {8} ∧ Mirrored b := by
  exact ⟨by decide +kernel, by decide +kernel, (mirrored_of_announced
    (LTS.Reachable.replay_restrict (fun _ _ => rfl) _ (.init start_init)
      (by decide +kernel))).1⟩

/-- Two layers of a chunk are put.  When one of them is removed, the controller forgets the chunk
although the other one is there; when `batched_allocate` evicts both, it is not told. -/
theorem layers_not_mirrored :
    (∃ b, (cpuSystem ℤ mixed).Reachable b ∧ b.hotCache.keys = [chunk.layer 1] ∧
      replay b.ops = ∅ ∧ ¬ Mirrored b) ∧
    ∃ b, (cpuSystem ℤ mixed).Reachable b ∧ b.hotCache.keys = [] ∧ replay b.ops = {7} ∧
      ¬ Mirrored b := by
  constructor
  · refine ⟨_, reachable_after
      (putLayers ++ [.remove (chunk.layer 0)]), by decide +kernel,
      by decide +kernel, fun h => absurd ((h 7).mpr (by decide +kernel)) (by decide +kernel)⟩
  · refine ⟨_, reachable_after (putLayers ++ [.evictLayers 2]),
      by decide +kernel, by decide +kernel, fun h =>
      absurd ((h 7).mp (by decide +kernel)) (by decide +kernel)⟩

end LMCache.Local
