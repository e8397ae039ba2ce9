import LMCache.Controller.Registry

/-! # Looking a peer up

`batched_p2p_lookup` looks for a worker of another instance that has the first chunk, and counts the
chunks that it has from there on.  The search ends at the first holder, and only then does the
lookup see whether that worker has a URL.

**Main result**: `p2p_lookup_finds`, exactly for the registries in which the holder that is found
first has a URL or no holder has one.  `p2p_lookup_misses` is a registry in which it has none, and
another holder has one. -/

namespace LMCache.Controller.RegistryTree

variable {r : RegistryTree} {instanceId : String} {key : ℤ} {keys : Finset ℤ} {hashes : List ℤ}
  {found : KVChunkInfo × Option String × Finset ℤ}

/-- The loop over the hashes. -/
def countHits (currentKeys : Finset ℤ) : List ℤ → ℕ
  | [] => 0
  | key :: hashes => if key ∈ currentKeys then countHits currentKeys hashes + 1 else 0

/-- The instance, the location, the number of hits and the URL. -/
def batchedP2pLookup (r : RegistryTree) (hashes : List ℤ) (instanceId : String) :
    String × String × ℕ × String :=
  match hashes with
  | [] => ("", "", 0, "")
  | key :: _ =>
    match r.findKvWithWorkerInfo key (some instanceId) with
    | none => ("", "", 0, "")
    | some (_, none, _) => ("", "", 0, "")
    | some (kvInfo, some peerInitUrl, currentKeys) =>
      (kvInfo.instanceId, kvInfo.location, countHits currentKeys hashes, peerInitUrl)

/-- What is found is a worker of another instance, one of its locations, and the keys there, the
given one among them. -/
def Holds (r : RegistryTree) (instanceId : String) (key : ℤ)
    (found : KVChunkInfo × Option String × Finset ℤ) : Prop :=
  ∃ id node worker, r.instances.get? id = some node ∧ id ≠ instanceId ∧
    node.workers.get? found.1.workerId = some worker ∧
    worker.kvStore.get? found.1.location = some found.2.2 ∧ key ∈ found.2.2 ∧
    found.1.instanceId = node.instanceId ∧ found.2.1 = worker.peerInitUrl

theorem holds_of_find (h : r.findKvWithWorkerInfo key (some instanceId) = some found) :
    r.Holds instanceId key found := by
  obtain ⟨id, node, hnode, hfound⟩ := Dict.exists_of_findSome? h
  split_ifs at hfound with hid
  obtain ⟨w, worker, hworker, hmap⟩ := Dict.exists_of_findSome? hfound
  obtain ⟨found', hkey, rfl⟩ := Option.map_eq_some_iff.mp hmap
  obtain ⟨location, keys, hkeys, heq⟩ := Dict.exists_of_findSome? hkey
  split_ifs at heq with hmem
  cases heq
  exact ⟨id, node, worker, hnode, fun heq => hid (heq ▸ rfl), hworker, hkeys, hmem, rfl, rfl⟩

theorem isSome_find_of_holds (h : r.Holds instanceId key found) :
    (r.findKvWithWorkerInfo key (some instanceId)).isSome := by
  obtain ⟨id, node, worker, hnode, hid, hworker, hkeys, hmem, -⟩ := h
  refine Dict.isSome_findSome?.mpr ⟨id, node, hnode, ?_⟩
  rw [if_neg fun heq => hid (Option.some.inj heq).symm]
  refine Dict.isSome_findSome?.mpr ⟨_, worker, hworker, ?_⟩
  rw [Option.isSome_map]
  exact Dict.isSome_findSome?.mpr ⟨_, _, hkeys, by rw [if_pos hmem]; rfl⟩

/-- The hits are the longest prefix of the hashes that is held. -/
theorem le_countHits_iff {m : ℕ} (hm : m ≤ hashes.length) :
    m ≤ countHits keys hashes ↔ ∀ k ∈ hashes.take m, k ∈ keys := by
  induction hashes generalizing m with
  | nil => simp_all [countHits]
  | cons key hashes ih =>
    cases m with
    | zero => simp
    | succ m =>
      rw [countHits, List.take_succ_cons, List.forall_mem_cons, ← ih (Nat.le_of_succ_le_succ hm)]
      split_ifs with hkey
      all_goals simp [hkey]

/-- **A peer is found** if there is one, exactly if the first holder that is found has a URL or no
holder has one.  A hit is always the longest prefix that the reported worker holds at the reported
location. -/
theorem p2p_lookup_finds (r : RegistryTree) (instanceId : String) (hashes : List ℤ) :
    (((r.batchedP2pLookup hashes instanceId).2.2.1 ≠ 0 ↔
        ∃ key ∈ hashes.head?, ∃ found, r.Holds instanceId key found ∧ found.2.1.isSome) ↔
      ∀ key ∈ hashes.head?, ∀ found, r.findKvWithWorkerInfo key (some instanceId) = some found →
        found.2.1.isSome ∨ ∀ found', r.Holds instanceId key found' → ¬ found'.2.1.isSome) ∧
    ∀ id location n url, r.batchedP2pLookup hashes instanceId = (id, location, n, url) → n ≠ 0 →
      ∃ key ∈ hashes.head?, ∃ workerId keys,
        r.Holds instanceId key (⟨id, workerId, location⟩, some url, keys) ∧
        ∀ m ≤ hashes.length, m ≤ n ↔ ∀ k ∈ hashes.take m, k ∈ keys := by
  have hzero : ∀ {id location n url}, ("", "", 0, "") = ((id, location, n, url) :
      String × String × ℕ × String) → n = 0 := fun heq => by cases heq; rfl
  cases hashes with
  | nil => exact ⟨by simp [batchedP2pLookup], fun id location n url heq hn => absurd (hzero heq) hn⟩
  | cons key hashes =>
    simp only [List.head?_cons, Option.mem_some_iff, exists_eq_left', forall_eq']
    cases hfind : r.findKvWithWorkerInfo key (some instanceId) with
    | none =>
      simp only [batchedP2pLookup, hfind]
      refine ⟨iff_of_true (iff_of_false (fun h => h rfl) ?_) (fun _ h => by cases h),
        fun id location n url heq hn => absurd (hzero heq) hn⟩
      rintro ⟨found, hholds, -⟩
      simpa [hfind] using isSome_find_of_holds hholds
    | some found =>
      have hholds := holds_of_find hfind
      obtain ⟨kvInfo, _ | peerInitUrl, currentKeys⟩ := found
      · -- the first holder hides the others
        simp only [batchedP2pLookup, hfind]
        refine ⟨?_, fun id location n url heq hn => absurd (hzero heq) hn⟩
        simp
      · have hmem : key ∈ currentKeys := by
          obtain ⟨-, -, -, -, -, -, -, hmem, -⟩ := hholds
          exact hmem
        have hpos : countHits currentKeys (key :: hashes) ≠ 0 := by
          rw [countHits, if_pos hmem]
          exact Nat.succ_ne_zero _
        simp only [batchedP2pLookup, hfind]
        refine ⟨iff_of_true (iff_of_true hpos ⟨_, hholds, rfl⟩) fun found hfound => ?_,
          fun id location n url heq _ => ?_⟩
        · cases hfound
          exact .inl rfl
        · cases heq
          exact ⟨kvInfo.workerId, currentKeys, hholds, fun m hm => le_countHits_iff hm⟩

/-! ### A small registry -/

/-- Two instances with one worker each; both hold the chunks `1` and `2`, and the worker of the
second one has a URL. -/
def twoHolders (peerInitUrl : Option String) : RegistryTree where
  instances := .ofList [("a", ⟨"a", .ofList [(0, worker peerInitUrl)]⟩),
    ("b", ⟨"b", .ofList [(0, worker (some "b"))]⟩)]
where
  worker (peerInitUrl : Option String) : WorkerNode :=
    { workerId := 0, peerInitUrl, kvStore := .ofList [("LocalCPUBackend", {1, 2})] }

/-- Both workers have a URL, and the first one is reported with two hits. -/
theorem p2p_lookup_finds_first : let r := twoHolders (some "a")
    r.batchedP2pLookup [1, 2, 3] "c" = ("a", "LocalCPUBackend", 2, "a") ∧
      ∃ key ∈ [1, 2, 3].head?, ∃ found, r.Holds "c" key found ∧ found.2.1.isSome := by
  have hfind : (twoHolders (some "a")).findKvWithWorkerInfo 1 (some "c") =
    some (⟨"a", 0, "LocalCPUBackend"⟩, some "a", {1, 2}) := by decide +kernel
  have hfirst : ∀ key ∈ ([1, 2, 3] : List ℤ).head?, ∀ found,
      (twoHolders (some "a")).findKvWithWorkerInfo key (some "c") = some found →
        found.2.1.isSome := by
    rintro _ ⟨⟩ found hfound
    cases hfind.symm.trans hfound
    rfl
  exact ⟨by decide +kernel, ((p2p_lookup_finds _ _ _).1.mpr fun key hkey found hfound =>
    .inl (hfirst key hkey found hfound)).mp (by decide +kernel)⟩

/-- **A peer is missed**: the first holder has no URL, and the lookup reports no hit although the
second one has a URL and holds the first chunk. -/
theorem p2p_lookup_misses : let r := twoHolders none
    (r.batchedP2pLookup [1, 2, 3] "c").2.2.1 = 0 ∧
      r.Holds "c" 1 (⟨"b", 0, "LocalCPUBackend"⟩, some "b", {1, 2}) :=
  ⟨by decide +kernel, "b", ⟨"b", .ofList [(0, twoHolders.worker (some "b"))]⟩,
    twoHolders.worker (some "b"), rfl, by decide, rfl, rfl, by decide, rfl, rfl⟩

end LMCache.Controller.RegistryTree
