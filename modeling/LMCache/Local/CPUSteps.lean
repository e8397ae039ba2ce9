import LMCache.Local.CPUBackend

/-! # What the lock sections of the CPU backend do

`Effect` says what one event may do to the keys of `hot_cache` and to the operations that were
sent: nothing, one insertion with its `ADMIT`, one removal with its `EVICT`, or the silent removal
of `batched_allocate`.  `step_effect` is the inversion lemma of the system, and `Runs` shows that
the calls of the source are sequences of events. -/

namespace LMCache.Local.LocalCPUBackend

open List Dict

variable {A H : Type} [DecidableEq H] {M : MemoryAllocator A} {b : LocalCPUBackend A H}

/-- The effect of an event on the cache and on the operations. -/
inductive Effect (b b' : LocalCPUBackend A H) : CPUEvent H → Prop
  | same {e : CPUEvent H} (hkeys : ∀ k, k ∈ b'.hotCache.keys ↔ k ∈ b.hotCache.keys)
      (hops : b'.ops = b.ops) : Effect b b' e
  | put {e : CPUEvent H} (key : CacheEngineKey H) (hnew : key ∉ b.hotCache.keys)
      (hkeys : ∀ k, k ∈ b'.hotCache.keys ↔ k = key ∨ k ∈ b.hotCache.keys)
      (hops : b'.ops = b.ops ++ [(.admitKey, key.chunkHash)]) : Effect b b' e
  | drop {e : CPUEvent H} (he : ∀ n, e ≠ .evictLayers n) (key : CacheEngineKey H)
      (hold : key ∈ b.hotCache.keys)
      (hkeys : ∀ k, k ∈ b'.hotCache.keys ↔ k ≠ key ∧ k ∈ b.hotCache.keys)
      (hops : b'.ops = b.ops ++ [(.evictKey, key.chunkHash)]) : Effect b b' e
  | silent {batchSize : ℕ} (hkeys : ∀ k, k ∈ b'.hotCache.keys → k ∈ b.hotCache.keys)
      (hops : b'.ops = b.ops) : Effect b b' (.evictLayers batchSize)

/-! ### Sections that change no key -/

/-- The keys, the operations and the policy are the same. -/
structure SameCache (b b' : LocalCPUBackend A H) : Prop where
  hotCache : b'.hotCache = b.hotCache
  cachePolicy : b'.cachePolicy = b.cachePolicy
  ops : b'.ops = b.ops

omit [DecidableEq H] in
theorem SameCache.trans {b₁ b₂ b₃ : LocalCPUBackend A H} (h : SameCache b₁ b₂)
    (h' : SameCache b₂ b₃) : SameCache b₁ b₃ :=
  ⟨h'.hotCache.trans h.hotCache, h'.cachePolicy.trans h.cachePolicy, h'.ops.trans h.ops⟩

theorem sameCache_contains (key : CacheEngineKey H) (pin : Bool) :
    SameCache b (b.contains key pin).2 := by
  fun_cases contains
  · exact ⟨rfl, rfl, rfl⟩
  · cases pin <;> exact ⟨rfl, rfl, rfl⟩

theorem sameCache_batchedGetNonBlocking (keys : List (CacheEngineKey H)) (memObjs : List ℕ) :
    SameCache b (b.batchedGetNonBlocking M keys memObjs).2 := by
  fun_induction b.batchedGetNonBlocking M keys memObjs
  case case3 ih =>
    refine SameCache.trans ?_ ih
    exact ⟨rfl, rfl, rfl⟩
  all_goals exact ⟨rfl, rfl, rfl⟩

theorem sameCache_batchedAsyncContains (pin : Bool) (keys : List (CacheEngineKey H)) (n : ℕ) :
    SameCache b (b.batchedAsyncContains pin keys n).2 := by
  fun_induction b.batchedAsyncContains pin keys n
  case case3 ih => exact (sameCache_contains _ pin).trans ih
  all_goals exact ⟨rfl, rfl, rfl⟩

theorem touchAll_spec (keys : List (CacheEngineKey H)) {policy : CachePolicy (CacheEngineKey H)}
    (hp : policy.Tracks) (cache : Dict (CacheEngineKey H) ℕ) :
    (touchAll keys policy cache).2.1.Tracks ∧
      ∀ k, (touchAll keys policy cache).2.2.get? k = cache.get? k := by
  fun_induction touchAll keys policy cache
  case case3 hhit ih =>
    obtain ⟨htracks, hget⟩ := CachePolicy.updateOnHit_spec hhit
    grind
  all_goals exact ⟨hp, fun k => rfl⟩

section
variable (hp : b.cachePolicy.Tracks)

include hp

theorem touchCache_spec :
    b.touchCache.2.cachePolicy.Tracks ∧ (∀ k, b.touchCache.2.hotCache.get? k = b.hotCache.get? k) ∧
      b.touchCache.2.ops = b.ops := by
  have htouch := touchAll_spec b.keysInRequest.reverse hp b.hotCache
  unfold touchCache
  grind

/-! ### Removing -/

theorem remove_of_mem {key : CacheEngineKey H} {i : ℕ}
    (hkey : b.hotCache.get? key = some i) (force : Bool) :
    (b.remove M key force).1 = .ok true ∧ (b.remove M key force).2.cachePolicy.Tracks ∧
      (b.remove M key force).2.hotCache = b.hotCache.erase key ∧
      (b.remove M key force).2.pool = M.refCountDown b.pool i ∧
      (b.remove M key force).2.ops = b.ops ++ [(.evictKey, key.chunkHash)] := by
  obtain ⟨hok, htracks⟩ := hp.updateOnForceEvict key
  unfold remove
  grind

omit hp in
theorem remove_of_notMem {key : CacheEngineKey H} (hkey : b.hotCache.get? key = none)
    (force : Bool) : b.remove M key force = (.ok false, b) := by
  unfold remove
  rw [hkey]

variable {e : CPUEvent H}

theorem effect_remove (key : CacheEngineKey H) (force : Bool) (he : ∀ n, e ≠ .evictLayers n) :
    Effect b (b.remove M key force).2 e ∧ (b.remove M key force).2.cachePolicy.Tracks := by
  cases hkey : b.hotCache.get? key with
  | none =>
    rw [remove_of_notMem hkey]
    exact ⟨.same (fun k => Iff.rfl) rfl, hp⟩
  | some i =>
    obtain ⟨-, htracks, hcache, -, hops⟩ := remove_of_mem (M := M) hp hkey force
    refine ⟨.drop he key (mem_keys_iff.mpr ⟨i, hkey⟩) (fun k => ?_) hops, htracks⟩
    rw [hcache, mem_keys_erase]

/-! ### Evicting -/

theorem tracks_asked : b.asked.cachePolicy.Tracks :=
  hp.getEvictCandidates b.hotCache (canEvict b.pool) 1

theorem evictOne_cases :
    (∃ e, b.evictKeys = .error e ∧ b.evictOne M = (.error (.policy e), b.asked)) ∨
      (b.evictKeys = .ok [] ∧ b.evictOne M = (.ok false, b.asked)) ∨
      ∃ key i, b.hotCache.get? key = some i ∧ canEvict b.pool i = true ∧ b.evictKeys = .ok [key] ∧
        b.evictOne M = (.ok true, (b.asked.remove M key false).2) := by
  unfold evictOne
  rcases b.cachePolicy.getEvictCandidates_one b.hotCache (canEvict b.pool) with
    ⟨e, he⟩ | hnone | ⟨key, i, hkey, hi, hevict⟩
  · exact .inl ⟨e, he, by rw [evictKeys, he]⟩
  · exact .inr (.inl ⟨hnone, by rw [evictKeys, hnone]⟩)
  · have hrem := (remove_of_mem (M := M) (tracks_asked hp) (b := b.asked) hi false).1
    refine .inr (.inr ⟨key, i, hi, hevict, hkey, ?_⟩)
    rw [evictKeys, hkey]
    dsimp only [batchedRemove]
    grind

theorem takeLayers_frame (keys : List (CacheEngineKey H)) (oldMemObjs : List ℕ) :
    (b.takeLayers keys oldMemObjs).2.cachePolicy.Tracks ∧
      (b.takeLayers keys oldMemObjs).2.pool = b.pool ∧
      (b.takeLayers keys oldMemObjs).2.ops = b.ops ∧
      ∀ k, k ∈ (b.takeLayers keys oldMemObjs).2.hotCache.keys → k ∈ b.hotCache.keys := by
  fun_induction b.takeLayers keys oldMemObjs with
  | case1 | case2 => exact ⟨hp, rfl, rfl, fun k hk => hk⟩
  | case3 b key | case4 b key =>
    obtain ⟨hok, htracks⟩ := hp.updateOnForceEvict key
    grind

theorem takeLayers_ok {keys : List (CacheEngineKey H)}
    (hnodup : keys.Nodup) (hmem : ∀ k ∈ keys, k ∈ b.hotCache.keys) (oldMemObjs : List ℕ) :
    (b.takeLayers keys oldMemObjs).1 = .ok (oldMemObjs ++ keys.filterMap b.hotCache.get?) := by
  induction keys generalizing b oldMemObjs with
  | nil => simp [takeLayers]
  | cons key keys ih =>
    obtain ⟨hnot, hnodup⟩ := nodup_cons.mp hnodup
    obtain ⟨i, hi⟩ := mem_keys_iff.mp (hmem key mem_cons_self)
    obtain ⟨hok, htracks⟩ := hp.updateOnForceEvict key
    have hne : ∀ k ∈ keys, k ≠ key := fun k hk heq => hnot (heq ▸ hk)
    rw [takeLayers, hi]
    simp only [hok]
    rw [ih htracks hnodup fun k hk => mem_keys_erase.mpr
      ⟨hne k hk, hmem k (mem_cons_of_mem _ hk)⟩]
    have hget : keys.filterMap (b.hotCache.erase key).get? = keys.filterMap b.hotCache.get? :=
      filterMap_congr fun k hk => by rw [get?_erase, if_neg (hne k hk)]
    rw [hget, filterMap_cons_some hi, append_assoc, singleton_append]

theorem takeLayers_error {keys : List (CacheEngineKey H)}
    (hmem : ∃ k ∈ keys, k ∉ b.hotCache.keys) (oldMemObjs : List ℕ) :
    ∃ key, (b.takeLayers keys oldMemObjs).1 = .error (.notCached key) := by
  fun_induction takeLayers b keys oldMemObjs
  case case1 => simp at hmem
  case case2 => exact ⟨_, rfl⟩
  case case3 he => cases (hp.updateOnForceEvict _).1.symm.trans he
  case case4 ih =>
    obtain ⟨k, hk, hnot⟩ := hmem
    refine ih (hp.updateOnForceEvict _).2 ⟨k, (mem_cons.mp hk).resolve_left ?_, fun hk' =>
      hnot (mem_keys_erase.mp hk').2⟩
    grind

theorem evictChunks_frame (batchSize : ℕ) (evictKeys : List (CacheEngineKey H)) :
    (b.evictChunks M batchSize evictKeys).2.cachePolicy.Tracks ∧
      (b.evictChunks M batchSize evictKeys).2.ops = b.ops ∧
      ∀ k, k ∈ (b.evictChunks M batchSize evictKeys).2.hotCache.keys → k ∈ b.hotCache.keys := by
  induction evictKeys generalizing b with
  | nil => exact ⟨hp, rfl, fun k hk => hk⟩
  | cons evictKey evictKeys ih =>
    obtain ⟨htracks, -, hops, hkeys⟩ := takeLayers_frame hp (evictKey.splitLayers batchSize) []
    rw [evictChunks]
    grind

omit hp in
theorem evictLayers_cases (b : LocalCPUBackend A H) (batchSize : ℕ) :
    (∃ e, b.evictKeys = .error e ∧ b.evictLayers M batchSize = (.error (.policy e), b.asked)) ∨
      (b.evictKeys = .ok [] ∧ b.evictLayers M batchSize = (.ok false, b.asked)) ∨
      ∃ key, b.evictKeys = .ok [key] ∧
        b.evictLayers M batchSize = ((b.asked.evictChunks M batchSize [key]).1.map fun _ => true,
            (b.asked.evictChunks M batchSize [key]).2) := by
  unfold evictLayers
  rcases b.cachePolicy.getEvictCandidates_one b.hotCache (canEvict b.pool) with
    ⟨e, he⟩ | hnone | ⟨key, i, hkey, -, -⟩
  · exact .inl ⟨e, he, by rw [evictKeys, he]⟩
  · exact .inr (.inl ⟨hnone, by rw [evictKeys, hnone]⟩)
  · refine .inr (.inr ⟨key, hkey, ?_⟩)
    rw [evictKeys, hkey]
    dsimp only
    rcases b.asked.evictChunks M batchSize [key] with ⟨r, b'⟩
    cases r <;> rfl

/-! ### One event -/

omit hp in
theorem SameCache.effect {b' : LocalCPUBackend A H} (h : SameCache b b')
    (hp : b.cachePolicy.Tracks) : Effect b b' e ∧ b'.cachePolicy.Tracks :=
  ⟨.same (fun k => by rw [h.hotCache]) h.ops, h.cachePolicy ▸ hp⟩

theorem effect_submitPutTask (key : CacheEngineKey H) (i : ℕ) :
    Effect b (b.submitPutTask M key i) e ∧ (b.submitPutTask M key i).cachePolicy.Tracks := by
  fun_cases submitPutTask
  · exact ⟨.same (fun k => Iff.rfl) rfl, hp⟩
  next hkey =>
    exact ⟨.put key (get?_eq_none_iff.mp hkey) (fun k => mem_keys_set) rfl, hp.updateOnPut key⟩

theorem effect_evictOne :
    Effect b (b.evictOne M).2 .evictOne ∧ (b.evictOne M).2.cachePolicy.Tracks := by
  have hasked := tracks_asked hp
  rcases evictOne_cases (M := M) hp with ⟨e, -, he⟩ | ⟨-, hnone⟩ | ⟨key, i, hi, -, -, hkey⟩
  · rw [he]
    exact ⟨.same (fun k => Iff.rfl) rfl, hasked⟩
  · rw [hnone]
    exact ⟨.same (fun k => Iff.rfl) rfl, hasked⟩
  · obtain ⟨-, htracks, hcache, -, hops⟩ := remove_of_mem (M := M) hasked (b := b.asked) hi false
    rw [hkey]
    refine ⟨.drop (fun n => nofun) key (mem_keys_iff.mpr ⟨i, hi⟩) (fun k => ?_) hops, htracks⟩
    rw [hcache, mem_keys_erase]
    rfl

theorem effect_evictLayers (batchSize : ℕ) :
    Effect b (b.evictLayers M batchSize).2 (.evictLayers batchSize) ∧
      (b.evictLayers M batchSize).2.cachePolicy.Tracks := by
  have hasked := tracks_asked hp
  rcases evictLayers_cases (M := M) b batchSize with ⟨e, -, he⟩ | ⟨-, hnone⟩ | ⟨key, -, hkey⟩
  · rw [he]
    exact ⟨.same (fun k => Iff.rfl) rfl, hasked⟩
  · rw [hnone]
    exact ⟨.same (fun k => Iff.rfl) rfl, hasked⟩
  · obtain ⟨htracks, hops, hkeys⟩ := evictChunks_frame (M := M) hasked batchSize [key]
    rw [hkey]
    exact ⟨.silent hkeys hops, htracks⟩

end

theorem step_evictOne :
    b.step M .evictOne = if b.config.useHot then (b.evictOne M).2 else b := rfl

theorem step_evictLayers (batchSize : ℕ) : b.step M (.evictLayers batchSize) =
    if b.config.useHot && M.isMixed then (b.evictLayers M batchSize).2 else b := rfl

/-- The sections that may change the cache or the policy. -/
def Changes : CPUEvent H → Bool
  | .touchCache | .submitPutTask .. | .remove _ | .evictOne | .evictLayers _ => true
  | _ => false

theorem sameCache_step (he : Changes e = false) : SameCache b (b.step M e) := by
  cases e with
  | contains key pin => exact sameCache_contains key pin
  | getBlocking key =>
    change SameCache b (b.getBlocking M key).2
    fun_cases getBlocking <;> exact ⟨rfl, rfl, rfl⟩
  | batchedGetNonBlocking keys => exact sameCache_batchedGetNonBlocking keys []
  | batchedAsyncContains keys pin => exact sameCache_batchedAsyncContains pin keys 0
  | pin key =>
    change SameCache b (b.pin key).2
    fun_cases pin <;> exact ⟨rfl, rfl, rfl⟩
  | unpin key =>
    change SameCache b (b.unpin M key).2
    fun_cases unpin <;> exact ⟨rfl, rfl, rfl⟩
  | allocateObj | batchedAllocateObjs | objRefCountUp | objRefCountDown | objPin | objUnpin =>
    exact ⟨rfl, rfl, rfl⟩
  | touchCache | submitPutTask | remove | evictOne | evictLayers => cases he

/-- **Inversion**: every event has one of the effects and keeps the invariant of the policy. -/
theorem step_effect (hp : b.cachePolicy.Tracks) (e : CPUEvent H) :
    Effect b (b.step M e) e ∧ (b.step M e).cachePolicy.Tracks := by
  cases e with
  | touchCache =>
    obtain ⟨htracks, hget, hops⟩ := touchCache_spec hp
    refine ⟨.same (fun k => ?_) hops, htracks⟩
    change k ∈ b.touchCache.2.hotCache.keys ↔ _
    rw [mem_keys_iff, mem_keys_iff, hget]
  | submitPutTask key i => exact effect_submitPutTask hp key i
  | remove key => exact effect_remove hp key true fun n => nofun
  | evictOne =>
    rw [step_evictOne]
    split_ifs
    · exact effect_evictOne hp
    · exact ⟨.same (fun k => Iff.rfl) rfl, hp⟩
  | evictLayers batchSize =>
    rw [step_evictLayers]
    split_ifs
    · exact effect_evictLayers hp batchSize
    · exact ⟨.same (fun k => Iff.rfl) rfl, hp⟩
  | _ => exact (sameCache_step rfl).effect hp

theorem tracks_reachable {b : LocalCPUBackend A H} (h : (cpuSystem H M).Reachable b) :
    b.cachePolicy.Tracks := by
  refine h.invariant (I := fun b => b.cachePolicy.Tracks) ?_ ?_
  · rintro _ ⟨config, pool, cachePolicy, hnew, rfl⟩
    cases cachePolicy with
    | lfu p =>
      obtain rfl : p = {} := hnew
      exact fun k f hk => nomatch hk
    | _ => trivial
  · rintro b e _ hp rfl
    exact (step_effect hp e).2

/-! ### The calls as runs -/

/-- The state `b'` is reached from `b` by some events. -/
def Runs (M : MemoryAllocator A) (b b' : LocalCPUBackend A H) : Prop :=
  ∃ es : List (CPUEvent H), es.foldl (step M) b = b'

variable (b : LocalCPUBackend A H) {y : Layout} {busyLoop : Bool} {fuel : ℕ}

theorem Runs.refl : Runs M b b := ⟨[], rfl⟩

theorem Runs.trans {b₁ b₂ b₃ : LocalCPUBackend A H} (h : Runs M b₁ b₂) (h' : Runs M b₂ b₃) :
    Runs M b₁ b₃ := by
  obtain ⟨es, rfl⟩ := h
  obtain ⟨es', rfl⟩ := h'
  exact ⟨es ++ es', foldl_append⟩

theorem Runs.step (e : CPUEvent H) : Runs M b (b.step M e) := ⟨[e], rfl⟩

theorem runs_batchedSubmitPutTask (keys : List (CacheEngineKey H))
    (memoryObjs : List ℕ) : Runs M b (b.batchedSubmitPutTask M keys memoryObjs) := by
  unfold batchedSubmitPutTask
  split_ifs
  · exact ⟨(keys.zip memoryObjs).map fun e => .submitPutTask e.1 e.2, foldl_map⟩
  · exact .refl b

theorem runs_batchedRemove (keys : List (CacheEngineKey H)) (n : ℕ) :
    Runs M b (b.batchedRemove M true keys n).2 := by
  induction keys generalizing b n with
  | nil => exact .refl b
  | cons key keys ih =>
    have hstep : Runs M b (b.remove M key true).2 := .step b (.remove key)
    rw [batchedRemove]
    rcases hr : b.remove M key true with ⟨r, b'⟩
    rw [hr] at hstep
    cases r with
    | error e => exact hstep
    | ok removed => exact hstep.trans (ih b' _)

theorem runs_clear : Runs M b (b.clear M).2 := by
  unfold clear
  split_ifs
  · cases b.collectEvictable M b.hotCache.entries [] 0 with
    | error e => exact .refl b
    | ok r =>
      have hruns := runs_batchedRemove (M := M) b r.1 0
      grind
  · exact .refl b

theorem runs_evictOne : Runs M b (if b.config.useHot then b.evictOne M else (.ok false, b)).2 := by
  have hstep := Runs.step (M := M) b .evictOne
  rw [step_evictOne] at hstep
  split_ifs at hstep ⊢ <;> exact hstep

theorem runs_evictLayers (hmixed : M.isMixed = true) (b : LocalCPUBackend A H) (batchSize : ℕ) :
    Runs M b (if b.config.useHot then b.evictLayers M batchSize else (.ok false, b)).2 := by
  have hstep := Runs.step (M := M) b (.evictLayers batchSize)
  rw [step_evictLayers, hmixed, Bool.and_true] at hstep
  split_ifs at hstep ⊢ <;> exact hstep

theorem runs_allocateLoop {fmt : MemoryFormat} {b : LocalCPUBackend A H}
    {r : Except (BackendError H) (Option ℕ) × LocalCPUBackend A H}
    (h : allocateLoop M y fmt busyLoop fuel b = some r) : Runs M b r.2 := by
  have hevict := runs_evictOne (M := M) b
  fun_induction allocateLoop M y fmt busyLoop fuel b
  case case1 => cases h
  case case2 hr | case3 hr _ =>
    rw [hr] at hevict
    cases h
    exact hevict
  case case4 b' hr _ _ _ _ _ | case5 b' hr _ _ _ _ _ =>
    rw [hr] at hevict
    cases h
    exact hevict.trans (.step b' (.allocateObj y fmt))
  case case6 b' hr _ _ b₁ _ ih =>
    rw [hr] at hevict
    exact (hevict.trans (.step b' (.allocateObj y fmt))).trans (ih h (runs_evictOne b₁))

/-- **`allocate`** is a run of the system. -/
theorem runs_allocate {fmt : Option MemoryFormat} {eviction : Bool}
    {r : Except (BackendError H) (Option ℕ) × LocalCPUBackend A H}
    (h : b.allocate M y fmt eviction busyLoop fuel = some r) : Runs M b r.2 := by
  have halloc : Runs M b { b with pool := (M.allocate b.pool y (b.defaultFmt fmt)).2 } :=
    .step b (.allocateObj y (b.defaultFmt fmt))
  revert h
  fun_cases allocate M b y fmt eviction busyLoop fuel <;> intro h
  case case3 => exact halloc.trans (runs_allocateLoop h)
  all_goals exact Option.some.inj h ▸ halloc

theorem runs_batchedAllocateLoop (hmixed : M.isMixed = true) {batchSize : ℕ} {fmt : MemoryFormat}
    {memoryObjs : Option (List ℕ)} {b : LocalCPUBackend A H}
    {r : Except (BackendError H) (Option (List ℕ)) × LocalCPUBackend A H}
    (h : batchedAllocateLoop M y batchSize fmt busyLoop fuel memoryObjs b = some r) :
    Runs M b r.2 := by
  have hevict := runs_evictLayers hmixed b batchSize
  fun_induction batchedAllocateLoop M y batchSize fmt busyLoop fuel memoryObjs b
  case case1 => cases h
  case case2 hr | case3 hr _ =>
    rw [hr] at hevict
    cases h
    exact hevict
  case case4 b' hr _ _ _ _ _ | case5 b' hr _ _ _ _ _ _ =>
    rw [hr] at hevict
    cases h
    exact hevict.trans (.step b' (.batchedAllocateObjs y batchSize fmt))
  case case6 b' hr _ _ b₁ _ _ _ ih =>
    rw [hr] at hevict
    exact (hevict.trans (.step b' (.batchedAllocateObjs y batchSize fmt))).trans
      (ih h (runs_evictLayers hmixed b₁ batchSize))

/-- **`batched_allocate`** is a run of the system. -/
theorem runs_batchedAllocate {batchSize : ℕ} {fmt : Option MemoryFormat} {eviction : Bool}
    {r : Except (BackendError H) (Option (List ℕ)) × LocalCPUBackend A H}
    (h : b.batchedAllocate M y batchSize fmt eviction busyLoop fuel = some r) : Runs M b r.2 := by
  have halloc : Runs M b
      { b with pool := (M.batchedAllocate b.pool y batchSize (b.defaultFmt fmt)).2 } :=
    .step b (.batchedAllocateObjs y batchSize (b.defaultFmt fmt))
  revert h
  fun_cases batchedAllocate M b y batchSize fmt eviction busyLoop fuel <;> intro h
  case case3 hmixed => exact halloc.trans (runs_batchedAllocateLoop hmixed h)
  all_goals exact Option.some.inj h ▸ halloc

/-- **Every call is a run**, also when it raises. -/
theorem calls_are_runs (fmt : Option MemoryFormat) (eviction : Bool) :
    (∀ keys memoryObjs, Runs M b (b.batchedSubmitPutTask M keys memoryObjs)) ∧
      (∀ keys n, Runs M b (b.batchedRemove M true keys n).2) ∧ Runs M b (b.clear M).2 ∧
      (∀ r, b.allocate M y fmt eviction busyLoop fuel = some r → Runs M b r.2) ∧
      ∀ batchSize r, b.batchedAllocate M y batchSize fmt eviction busyLoop fuel = some r →
        Runs M b r.2 :=
  ⟨runs_batchedSubmitPutTask b, runs_batchedRemove b, runs_clear b, fun _ => runs_allocate b,
    fun _ _ => runs_batchedAllocate b⟩

end LMCache.Local.LocalCPUBackend

/-! ### A small backend -/

namespace LMCache.Local.SmallBackend

def layout : Layout := ⟨[[16]], [⟨"torch.uint8", 1⟩], by decide, rfl⟩

def chunk : CacheEngineKey ℤ :=
  { modelName := "m", worldSize := 1, workerId := 0, chunkHash := 7, dtype := ⟨"torch.uint8", 1⟩ }

def chunk' : CacheEngineKey ℤ := { chunk with chunkHash := 8 }

def start : LocalCPUBackend TensorMemoryAllocator ℤ :=
  .new ⟨true, true, false⟩ ⟨.new 8192 4096 none, [], []⟩ .lru

theorem start_init : (cpuSystem ℤ mixed).init start :=
  ⟨⟨true, true, false⟩, ⟨.new 8192 4096 none, [], []⟩, .lru, trivial, rfl⟩

/-- Two objects are allocated, put under two keys, and released by the caller. -/
def put (key key' : CacheEngineKey ℤ) : List (CPUEvent ℤ) :=
  [.allocateObj layout .kvT2d, .allocateObj layout .kvT2d, .submitPutTask key 0,
    .submitPutTask key' 1, .objRefCountDown 0, .objRefCountDown 1]

def putLayers : List (CPUEvent ℤ) := put (chunk.layer 0) (chunk.layer 1)

def putWhole : List (CPUEvent ℤ) := put chunk chunk'

def after (es : List (CPUEvent ℤ)) : LocalCPUBackend TensorMemoryAllocator ℤ :=
  es.foldl (LocalCPUBackend.step mixed) start

theorem reachable_after (es : List (CPUEvent ℤ)) : (cpuSystem ℤ mixed).Reachable (after es) :=
  LTS.Reachable.foldl (fun _ _ => rfl) es (.init start_init)

end LMCache.Local.SmallBackend
