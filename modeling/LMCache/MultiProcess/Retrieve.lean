import LMCache.MultiProcess.Server

/-! # What a retrieval reports and releases

The locks of a prefetch are given back at two places: by the context manager when it is left
without all objects or with an exception, and by the host function that `retrieve` launches in its
`finally` clause.  A retrieval of distinct keys in a quiet time has three outcomes:

* `retrieveObjects_missing`: an object is not locked; the others are released by the context
  manager.
* `retrieveObjects_copied`: all chunks are copied and released by the host function.
* `retrieveObjects_raised`: a copy raises.  The context manager swallows the exception and releases
  the objects, the host function releases them again, and every chunk is reported as retrieved;
  with the mixed allocator the first release raises an exception of its own, and no chunk is.

`retrieve_honest_and_balanced` says when a retrieval reports only what it copied and releases each
lock once; `retrieve_with_repeats` that it works for lists without repeats only. -/

namespace LMCache.MultiProcess

open List Distributed L1Manager

/-! ### The copies -/

section copies
variable {copy : ℕ → Option PyError}

theorem retrieveLoop_of_none {idx : ℕ} {items : List (ObjectKey × ℕ)}
    (h : ∀ i < items.length, copy (idx + i) = none) :
    retrieveLoop copy idx items = (items.length, none) := by
  induction items generalizing idx with
  | nil => rfl
  | cons item items ih =>
    have hfirst : copy idx = none := h 0 (by simp)
    have hrest : ∀ i < items.length, copy (idx + 1 + i) = none := fun i hi => by
      rw [Nat.add_assoc, Nat.add_comm 1 i]
      exact h (i + 1) (by simpa using hi)
    simp [retrieveLoop, hfirst, ih hrest]

theorem retrieveLoop_of_some (idx : ℕ) (items : List (ObjectKey × ℕ))
    (h : ∃ i < items.length, copy (idx + i) ≠ none) :
    ∃ n e, n < items.length ∧ retrieveLoop copy idx items = (n, some e) := by
  induction items generalizing idx with
  | nil => simp at h
  | cons item items ih =>
    cases hfirst : copy idx with
    | some e => exact ⟨0, e, by simp, by simp [retrieveLoop, hfirst]⟩
    | none =>
      obtain ⟨i, hi, hne⟩ := h
      cases i with
      | zero => exact absurd hfirst hne
      | succ i =>
        obtain ⟨n, e, hn, heq⟩ := ih (idx + 1)
          ⟨i, by simpa using hi, by rwa [Nat.add_assoc, Nat.add_comm 1 i]⟩
        exact ⟨n + 1, e, by simpa using hn, by simp [retrieveLoop, hfirst, heq]⟩

variable {keys : List ObjectKey} {objs : List ℕ}

theorem retrieveBody_of_length (hne : keys ≠ []) (hlen : objs.length = keys.length) :
    retrieveBody copy keys (some objs) = (endOfBlock (retrieveLoop copy 0 (keys.zip objs)).2, keys,
        (retrieveLoop copy 0 (keys.zip objs)).1) := by
  have hobjs : objs ≠ [] := fun h => hne (length_eq_zero_iff.mp (by rw [← hlen, h]; rfl))
  simp [retrieveBody, hobjs, hlen]

theorem retrieveBody_copied (hne : keys ≠ []) (hlen : objs.length = keys.length)
    (hcopy : ∀ i < keys.length, copy i = none) :
    retrieveBody copy keys (some objs) = (.fallThrough, keys, keys.length) := by
  have hzip : (keys.zip objs).length = keys.length := by simp [hlen]
  rw [retrieveBody_of_length hne hlen, retrieveLoop_of_none (by simpa [hlen] using hcopy), hzip]
  rfl

theorem retrieveBody_raised (hlen : objs.length = keys.length)
    (hcopy : ∃ i < keys.length, copy i ≠ none) :
    ∃ n e, n < keys.length ∧ retrieveBody copy keys (some objs) = (.raised e, keys, n) := by
  have hne : keys ≠ [] := by
    rintro rfl
    simp at hcopy
  obtain ⟨n, e, hn, heq⟩ := retrieveLoop_of_some 0 (keys.zip objs)
    (by simpa [hlen] using hcopy)
  refine ⟨n, e, by simpa [hlen] using hn, ?_⟩
  rw [retrieveBody_of_length hne hlen, heq]
  rfl

end copies

/-! ### The locks -/

section locks
variable {clock : ℕ → ℤ} {lo hi : ℕ} {m : L1Manager ObjectKey} {keys : List ObjectKey}
  {copy : ℕ → Option PyError}

/-- A manager in a quiet time, with the readers of its objects; no object is locked for reading
and for writing. -/
structure Counts (clock : ℕ → ℤ) (lo hi : ℕ) (m : L1Manager ObjectKey) (count : ObjectKey → ℕ) :
    Prop where
  steady : m.Steady clock lo hi
  exclusive : ∀ key, (m.cells (clock lo)).Exclusive key
  count_eq : ∀ key, (m.cells (clock lo)).readers key = count key

variable {count : ObjectKey → ℕ} (h : Counts clock lo hi m count)

include h

theorem Counts.readers_now (hhi : m.ticks ≤ hi) (key : ObjectKey) :
    readers clock m key = count key := by
  rw [Distributed.readers, h.steady.quiet.cells_eq h.steady.le hhi, h.count_eq]

theorem Counts.finishRead (keys : List ObjectKey) (hhi : m.ticks + 3 * keys.length ≤ hi) :
    Counts clock lo hi (m.finishRead clock keys).manager (fun key => count key - keys.count key) ∧
      (m.finishRead clock keys).manager.ticks ≤ m.ticks + 3 * keys.length := by
  obtain ⟨hcells, hsteady, hticks⟩ := h.steady.finishRead keys hhi
  refine ⟨⟨hsteady, fun key => ?_, fun key => ?_⟩, hticks⟩
  · rw [hcells]
    exact (h.exclusive key).forKeys_finish keys
  · rw [hcells, Cells.readers_forKeys_finish fun key' _ => h.exclusive key', h.count_eq]

theorem Counts.unsafeRead (keys : List ObjectKey) (hhi : m.ticks + keys.length ≤ hi) :
    Counts clock lo hi (m.unsafeRead clock keys).manager count ∧
      (m.unsafeRead clock keys).manager.ticks ≤ m.ticks + keys.length := by
  obtain ⟨-, hcells, hsteady, hticks⟩ := h.steady.unsafeRead keys hhi
  refine ⟨⟨hsteady, fun key => ?_, fun key => ?_⟩, hticks⟩
  · rw [hcells]
    exact h.exclusive key
  · rw [hcells, h.count_eq]

/-- The results for distinct keys. -/
theorem Counts.results (hhi : m.ticks + keys.length ≤ hi) (hnodup : keys.Nodup) :
    (readPrefetchedResults clock m keys).1 =
      { goodKeys := keys.filter fun key => count key ≠ 0
        goodObjs := keys.filterMap fun key => ((m.cells (clock lo)).peek key).1.2
        allGood := keys.all fun key => count key ≠ 0 } := by
  rw [readPrefetchedResults_of_nodup h.steady hhi hnodup]
  simp [h.count_eq]

omit h in
theorem retrieveObjects_of {r : PrefetchedResults ObjectKey} (body : BodyExit × List ObjectKey × ℕ)
    (hr : (readPrefetchedResults clock m keys).1 = r)
    (hb : retrieveBody copy keys r.yielded = body) :
    retrieveObjects clock m copy keys = (⟨replicate keys.length
          ((r.exit clock (m.unsafeRead clock keys).manager body.1).1.isNone && body.1 ≠ .returned),
        body.2.2⟩,
        ((r.exit clock (m.unsafeRead clock keys).manager body.1).2.finishRead clock
          body.2.1).manager) := by
  subst hr hb
  rfl

omit h in
/-- **A missing object**: the context manager releases the others. -/
theorem retrieveObjects_missing (copy : ℕ → Option PyError) (h : Counts clock lo hi m count)
    (hhi : m.ticks + 7 * keys.length ≤ hi) (hnodup : keys.Nodup)
    (hmissing : ∃ key ∈ keys, count key = 0) :
    (retrieveObjects clock m copy keys).1 = ⟨replicate keys.length false, 0⟩ ∧
      Counts clock lo hi (retrieveObjects clock m copy keys).2
        (fun key => count key - keys.count key) ∧
      (retrieveObjects clock m copy keys).2.ticks ≤ hi := by
  have hall : (keys.all fun key => decide (count key ≠ 0)) = false := by simpa using hmissing
  have hgood := h.results (by omega) hnodup
  rw [hall] at hgood
  rw [retrieveObjects_of (.returned, [], 0) hgood rfl]
  simp only [PrefetchedResults.exit, Bool.not_false, Bool.true_or, if_true]
  obtain ⟨hread, hticks⟩ := h.unsafeRead keys (by omega)
  have hlen : (keys.filter fun key => decide (count key ≠ 0)).length ≤ keys.length :=
    length_filter_le _ _
  obtain ⟨hexit, hticks'⟩ := hread.finishRead
    (keys.filter fun key => decide (count key ≠ 0)) (by omega)
  obtain ⟨hhost, hticks''⟩ := hexit.finishRead [] (by rw [length_nil]; omega)
  rw [length_nil] at hticks''
  refine ⟨by simp, { hhost with count_eq := fun key => ?_ }, by omega⟩
  rw [hhost.count_eq, count_nil, Nat.sub_zero]
  by_cases hz : count key = 0
  · simp [hz]
  · rw [count_filter (by simpa using hz)]

theorem Counts.yielded (hhi : m.ticks + keys.length ≤ hi)
    (hnodup : keys.Nodup) (hlocked : ∀ key ∈ keys, count key ≠ 0) :
    ∃ objs, (readPrefetchedResults clock m keys).1 = ⟨keys, objs, true⟩ ∧
      objs.map some = keys.map (m.cells (clock lo)).object := by
  have hgood := h.results hhi hnodup
  have hall : (keys.all fun key => decide (count key ≠ 0)) = true := by simpa using hlocked
  have hfilter : keys.filter (fun key => decide (count key ≠ 0)) = keys := by
    simpa [filter_eq_self] using hlocked
  rw [hall, hfilter] at hgood
  refine ⟨_, hgood, ?_⟩
  have hpeek : ∀ key ∈ keys, ((m.cells (clock lo)).peek key).1.2 =
      (m.cells (clock lo)).object key := fun key hkey => by
    rw [Cells.peek_fst_snd, if_neg (by rw [h.count_eq]; exact hlocked key hkey)]
  clear hgood hall hfilter hnodup hhi
  induction keys with
  | nil => rfl
  | cons key keys ih =>
    have hne : ((m.cells (clock lo)).peek key).1.2 ≠ none := fun hnone =>
      hlocked key mem_cons_self (by rw [← h.count_eq, ← Cells.peek_eq_none_iff, hnone])
    grind

/-- **All chunks are copied**: the host function releases their objects. -/
theorem retrieveObjects_copied (hhi : m.ticks + 7 * keys.length ≤ hi) (hnodup : keys.Nodup)
    (hlocked : ∀ key ∈ keys, count key ≠ 0) (hcopy : ∀ i < keys.length, copy i = none) :
    (retrieveObjects clock m copy keys).1 = ⟨replicate keys.length true, keys.length⟩ ∧
      Counts clock lo hi (retrieveObjects clock m copy keys).2
        (fun key => count key - keys.count key) ∧
      (retrieveObjects clock m copy keys).2.ticks ≤ hi := by
  obtain ⟨hread, hticks⟩ := h.unsafeRead keys (by omega)
  obtain ⟨objs, hgood, hobjs⟩ := h.yielded (by omega) hnodup hlocked
  have hlen : objs.length = keys.length := by simpa using congrArg length hobjs
  obtain ⟨hhost, hticks'⟩ := hread.finishRead keys (by omega)
  by_cases hne : keys = []
  · -- nothing is asked for, and the body returns at once
    subst hne
    rw [length_eq_zero_iff.mp hlen] at hgood
    rw [retrieveObjects_of (.returned, [], 0) hgood rfl]
    exact ⟨rfl, hhost, hticks'.trans (by omega)⟩
  · rw [retrieveObjects_of (.fallThrough, keys, keys.length) hgood
      (retrieveBody_copied hne hlen hcopy)]
    exact ⟨by simp [PrefetchedResults.exit], hhost, hticks'.trans (by omega)⟩

/-- **A copy raises**: the objects are released twice. -/
theorem retrieveObjects_raised (hhi : m.ticks + 7 * keys.length ≤ hi) (hnodup : keys.Nodup)
    (hperm : (m.cells (clock lo)).Permanent) (hlocked : ∀ key ∈ keys, count key ≠ 0)
    (hcopy : ∃ i < keys.length, copy i ≠ none) :
    (∃ n < keys.length, (retrieveObjects clock m copy keys).1 =
        ⟨replicate keys.length m.memoryManager.useLazy, n⟩) ∧
      Counts clock lo hi (retrieveObjects clock m copy keys).2
        (fun key => count key - keys.count key - keys.count key) ∧
      (retrieveObjects clock m copy keys).2.ticks ≤ hi := by
  obtain ⟨hread, hticks⟩ := h.unsafeRead keys (by omega)
  obtain ⟨objs, hgood, hobjs⟩ := h.yielded (by omega) hnodup hlocked
  have hlen : objs.length = keys.length := by simpa using congrArg length hobjs
  obtain ⟨n, e, hn, hbody⟩ := retrieveBody_raised hlen hcopy
  obtain ⟨hexit, hticks'⟩ := hread.finishRead keys (by omega)
  obtain ⟨hhost, hticks''⟩ := hexit.finishRead keys (by omega)
  have hcells := (h.steady.unsafeRead keys (by omega)).2.1
  have hraised : ((m.unsafeRead clock keys).manager.finishRead clock keys).raised.isNone =
      m.memoryManager.useLazy := by
    have hmemory := ((keepsView_unsafeReadKey clock).loop clock keys m).1
    rw [hread.steady.raised_finishRead keys (by omega) (hcells ▸ hperm),
      L1Manager.unsafeRead, hmemory]
    unfold L1MemoryManager.free
    cases m.memoryManager.useLazy <;> rfl
  rw [retrieveObjects_of (.raised e, keys, n) hgood hbody]
  refine ⟨⟨n, hn, ?_⟩, hhost, hticks''.trans (by omega)⟩
  simp [PrefetchedResults.exit, hraised]

end locks

/-! ### A small engine -/

/-- The object of worker 1 for the chunk of the small request. -/
def ownPart : ObjectKey := pairKey.objectKey (hashToBytes (listHasher.chunkHash [1, 2, 3] 0)) 1

/-- An engine whose only object was prefetched by `n` clients. -/
def prefetchedBy (n : ℕ) : MPCacheEngine :=
  { engineWith [ownPart] with
    storageManager :=
      (fun m => (submitPrefetchTask slowTicks m [ownPart]).2)^[n] (written slowTicks [ownPart]) }

theorem prefetchedBy_reachable (n : ℕ) : Reachable slowTicks (prefetchedBy n).storageManager := by
  induction n with
  | zero => exact written_reachable slowTicks [ownPart]
  | succ n ih =>
    unfold prefetchedBy
    rw [Function.iterate_succ_apply']
    exact ih.submitPrefetchTask

theorem slowTicks_mono : Monotone slowTicks := fun _ _ h => Int.ofNat_le.mpr h

def outOfMemory : PyError := ⟨.runtimeError, "CUDA error: out of memory"⟩

/-! ### Retrievals -/

section retrieve
variable {clock : ℕ → ℤ} {engine : MPCacheEngine} {keys : List IPCCacheEngineKey} {instanceId : ℤ}
  {copy : ℕ → Option PyError} {objKeys : List ObjectKey} {sessions : Sessions}

theorem retrieve_eq_ok
    (hkeys : transferObjectKeys engine.tokenHasher .retrieve keys engine.sessions =
      (.ok objKeys, sessions))
    (hgpu : instanceId ∈ engine.gpuContexts) :
    retrieve clock engine keys instanceId copy =
      (.ok (retrieveObjects clock engine.storageManager copy objKeys).1,
        { engine with
          sessions
          storageManager := (retrieveObjects clock engine.storageManager copy objKeys).2 }) := by
  unfold retrieve
  grind

theorem counts_of_sound {m : L1Manager ObjectKey} {hi : ℕ} (hc : Monotone clock)
    (hsound : m.Sound clock) (hquiet : m.Quiet clock m.ticks hi) :
    Counts clock m.ticks hi m (readers clock m) :=
  ⟨hsound.steady hquiet, hsound.exclusive hc, fun _ => rfl⟩

/-- **Honest and balanced retrievals.**  A retrieval of distinct keys during which no lock expires
reports only copied chunks and releases each lock once, exactly if an object is missing, or no copy
raises, or the mixed allocator is used and nobody else reads the objects. -/
theorem retrieve_honest_and_balanced (hc : Monotone clock)
    (hkeys : transferObjectKeys engine.tokenHasher .retrieve keys engine.sessions =
      (.ok objKeys, sessions))
    (hgpu : instanceId ∈ engine.gpuContexts) (hnodup : objKeys.Nodup)
    (hsound : engine.storageManager.Sound clock)
    (hperm : (engine.storageManager.cells (clock engine.storageManager.ticks)).Permanent)
    (hquiet : engine.storageManager.Quiet clock engine.storageManager.ticks
      (engine.storageManager.ticks + 7 * objKeys.length)) :
    ∃ r engine', retrieve clock engine keys instanceId copy = (.ok r, engine') ∧
      (((∀ i, r.results[i]? = some true → i < r.copied) ∧
          ∀ o, readers clock engine'.storageManager o =
            readers clock engine.storageManager o - if o ∈ objKeys then 1 else 0) ↔
        (∃ o ∈ objKeys, readers clock engine.storageManager o = 0) ∨
          (∀ i < objKeys.length, copy i = none) ∨
          (engine.storageManager.memoryManager.useLazy = false ∧
            ∀ o ∈ objKeys, readers clock engine.storageManager o = 1)) := by
  refine ⟨_, _, retrieve_eq_ok hkeys hgpu, ?_⟩
  have hcounts := counts_of_sound hc hsound hquiet
  have hcount : ∀ o, objKeys.count o = if o ∈ objKeys then 1 else 0 := fun o => hnodup.count
  by_cases hmissing : ∃ o ∈ objKeys, readers clock engine.storageManager o = 0
  · obtain ⟨hresults, hafter, hticks⟩ :=
      retrieveObjects_missing copy hcounts le_rfl hnodup hmissing
    refine iff_of_true ⟨fun i hi => ?_, fun o => ?_⟩ (Or.inl hmissing)
    · simp [hresults, getElem?_replicate] at hi
    · rw [hafter.readers_now hticks, hcount]
  have hlocked : ∀ o ∈ objKeys, readers clock engine.storageManager o ≠ 0 := fun o ho hz =>
    hmissing ⟨o, ho, hz⟩
  by_cases hcopy : ∀ i < objKeys.length, copy i = none
  · obtain ⟨hresults, hafter, hticks⟩ := retrieveObjects_copied hcounts le_rfl hnodup hlocked hcopy
    refine iff_of_true ⟨fun i hi => ?_, fun o => ?_⟩ (Or.inr (Or.inl hcopy))
    · grind
    · rw [hafter.readers_now hticks, hcount]
  · obtain ⟨⟨n, hn, hresults⟩, hafter, hticks⟩ :=
      retrieveObjects_raised hcounts le_rfl hnodup hperm hlocked (by push Not at hcopy; exact hcopy)
    rw [or_iff_right hmissing, or_iff_right hcopy]
    rw [hresults]
    simp only [hafter.readers_now hticks, hcount]
    constructor
    · rintro ⟨hhonest, hbalanced⟩
      have hlazy : engine.storageManager.memoryManager.useLazy = false := by
        by_contra hlazy
        have := hhonest n (by simp [hn, hlazy])
        omega
      grind
    · grind

/-- The chunk is copied, reported and released. -/
theorem retrieve_honest_and_balanced_copied :
    ∃ r engine', retrieve slowTicks (prefetchedBy 1) [pairKey] 0 (fun _ => none) =
      (.ok r, engine') ∧
      (∀ i, r.results[i]? = some true → i < r.copied) ∧
      ∀ o, readers slowTicks engine'.storageManager o =
        readers slowTicks (prefetchedBy 1).storageManager o - if o ∈ [ownPart] then 1 else 0 := by
  have hkeys : (transferObjectKeys (prefetchedBy 1).tokenHasher .retrieve [pairKey]
      (prefetchedBy 1).sessions).1 = .ok [ownPart] := by
    decide +kernel
  obtain ⟨r, engine', heq, hiff⟩ := @retrieve_honest_and_balanced slowTicks (prefetchedBy 1)
    [pairKey] 0 (fun _ => none) _ _ slowTicks_mono (Prod.ext hkeys rfl) (by decide) (by decide)
    (prefetchedBy_reachable 1).sound ((prefetchedBy_reachable 1).permanent _) (by decide +kernel)
  grind

/-- The copy raises: the chunk is reported, and the lock of the other client is released too. -/
theorem retrieve_reports_failed_copy :
    ∃ engine', retrieve slowTicks (prefetchedBy 2) [pairKey] 0 (fun _ => some outOfMemory) =
        (.ok ⟨[true], 0⟩, engine') ∧
      readers slowTicks (prefetchedBy 2).storageManager ownPart = 2 ∧
      readers slowTicks engine'.storageManager ownPart = 0 := by
  have hresult : (retrieve slowTicks (prefetchedBy 2) [pairKey] 0
      fun _ => some outOfMemory).1 = .ok ⟨[true], 0⟩ := by
    decide +kernel
  exact ⟨_, Prod.ext hresult rfl, by decide +kernel, by decide +kernel⟩

/-- **Retrievals with repeats.**  With enough locks on each object and copies that succeed, a
retrieval yields the object of every position, succeeds everywhere and releases as many locks as an
object has positions, exactly if no key is repeated. -/
theorem retrieve_with_repeats (hc : Monotone clock)
    (hkeys : transferObjectKeys engine.tokenHasher .retrieve keys engine.sessions =
      (.ok objKeys, sessions))
    (hgpu : instanceId ∈ engine.gpuContexts)
    (hlocks : ∀ o, objKeys.count o ≤ readers clock engine.storageManager o)
    (hcopy : ∀ i < objKeys.length, copy i = none)
    (hsound : engine.storageManager.Sound clock)
    (hquiet : engine.storageManager.Quiet clock engine.storageManager.ticks
      (engine.storageManager.ticks + 7 * objKeys.length)) :
    ((∃ objs, (readPrefetchedResults clock engine.storageManager objKeys).1.yielded = some objs ∧
        objs.map some = objKeys.map
          (engine.storageManager.cells (clock engine.storageManager.ticks)).object) ∧
      ∃ r engine', retrieve clock engine keys instanceId copy = (.ok r, engine') ∧
        r.results = List.replicate objKeys.length true ∧
        ∀ o, readers clock engine'.storageManager o + objKeys.count o =
          readers clock engine.storageManager o) ↔ objKeys.Nodup := by
  have hcounts := counts_of_sound hc hsound hquiet
  constructor
  · rintro ⟨⟨objs, hyielded, hobjs⟩, -⟩
    by_contra hdup
    have hlt := length_goodObjs_lt hcounts.steady (by omega) hdup
    unfold PrefetchedResults.yielded at hyielded
    split_ifs at hyielded
    have hlen : objs.length = objKeys.length := by simpa using congrArg length hobjs
    grind
  · intro hnodup
    have hlocked : ∀ o ∈ objKeys, readers clock engine.storageManager o ≠ 0 := by
      grind
    obtain ⟨objs, hgood, hobjs⟩ := hcounts.yielded (by omega) hnodup hlocked
    obtain ⟨hresults, hafter, hticks⟩ := retrieveObjects_copied hcounts le_rfl hnodup hlocked hcopy
    refine ⟨⟨objs, by rw [hgood]; rfl, hobjs⟩, _, _, retrieve_eq_ok hkeys hgpu, ?_, fun o => ?_⟩
    · rw [hresults]
    · have := hlocks o
      rw [hafter.readers_now hticks]
      omega

/-- One chunk of one request. -/
theorem retrieve_with_repeats_single :
    ∃ r engine', retrieve slowTicks (prefetchedBy 1) [pairKey] 0 (fun _ => none) =
      (.ok r, engine') ∧
      r.results = [true] ∧
      ∀ o, readers slowTicks engine'.storageManager o + [ownPart].count o =
        readers slowTicks (prefetchedBy 1).storageManager o := by
  have hkeys : (transferObjectKeys (prefetchedBy 1).tokenHasher .retrieve [pairKey]
      (prefetchedBy 1).sessions).1 = .ok [ownPart] := by
    decide +kernel
  have hlocks : ∀ o, [ownPart].count o ≤ readers slowTicks (prefetchedBy 1).storageManager o := by
    intro o
    by_cases ho : o = ownPart
    · subst ho
      decide +kernel
    · grind
  exact ((@retrieve_with_repeats slowTicks (prefetchedBy 1) [pairKey] 0 (fun _ => none) _ _
    slowTicks_mono (Prod.ext hkeys rfl) (by decide) hlocks (fun _ _ => rfl)
      (prefetchedBy_reachable 1).sound
    (by decide +kernel)).mpr (by decide)).2

/-- Two requests with a common chunk, each with its lock: nothing is retrieved or released. -/
theorem retrieve_twice_fails :
    ∃ engine', retrieve slowTicks (prefetchedBy 2) [pairKey, pairKey] 0 (fun _ => none) =
        (.ok ⟨[false, false], 0⟩, engine') ∧
      (readPrefetchedResults slowTicks (prefetchedBy 2).storageManager
        [ownPart, ownPart]).1.yielded =
        some [0] ∧
      readers slowTicks (prefetchedBy 2).storageManager ownPart = 2 ∧
      readers slowTicks engine'.storageManager ownPart = 2 := by
  have hresult : (retrieve slowTicks (prefetchedBy 2) [pairKey, pairKey] 0 fun _ => none).1 =
      .ok ⟨[false, false], 0⟩ := by
    decide +kernel
  exact ⟨_, Prod.ext hresult rfl, by decide +kernel, by decide +kernel, by decide +kernel⟩

end retrieve

end LMCache.MultiProcess
