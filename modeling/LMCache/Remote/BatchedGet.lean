import LMCache.Remote.Connector

/-! # Fetching a batch of keys

`batched_get_non_blocking` returns a list of objects without gaps.  The caller matches it
with the keys by position, so every object has to stand at the position of its key
(`Aligned`).

* **The default** returns the objects in front of the first failure and is always aligned
  (`takeHits_aligned`).
* **Redis, EIC and S3** drop the failures.  Their list is aligned if and only if no key whose
  object is there comes after a key whose object is missing, or a fetch raises and there is
  no list (`gatherNonNone_aligned_iff`).  For S3 this rests on `batchedGet_eq_map`: a batch
  of distinct keys is fetched as its keys are one by one.

`Connector.aligned_iff` puts the connectors together, with a condition on the contents of the
store (`Connector.KeepsOrder`). -/

namespace LMCache

open List RemoteConnector

/-! ### Lists without their gaps -/

section dropNone
variable {K O : Type}

theorem dropNone_aligned_iff (results : List (Option O)) :
    (∀ (i : ℕ) (o : O), (dropNone results)[i]? = some o → results[i]? = some (some o)) ↔
      results.Pairwise fun a b => a = none → b = none := by
  induction results with
  | nil => simp [dropNone]
  | cons r results ih =>
    rw [pairwise_cons]
    cases r with
    | none =>
      have hempty : (∀ (i : ℕ) (o : O), (dropNone results)[i]? = some o →
          (none :: results)[i]? = some (some o)) ↔ dropNone results = [] := by
        constructor
        · intro h
          cases hd : dropNone results with
          | nil => rfl
          | cons o os => simpa using h 0 o (by simp [hd])
        · intro hd
          simp [hd]
      refine hempty.trans ?_
      simp only [dropNone, filterMap_eq_nil_iff, id_eq, true_imp_iff]
      exact ⟨fun hall => ⟨hall, pairwise_of_forall_mem_list fun _ _ b hb _ => hall b hb⟩, And.left⟩
    | some o =>
      rw [← ih]
      constructor
      · intro h
        refine ⟨by simp, fun i o' ho' => ?_⟩
        simpa using h (i + 1) o' ho'
      · rintro ⟨-, h⟩ (_ | i) o' ho'
        · simpa [dropNone] using ho'
        · simpa using h i o' ho'

variable {get : K → Except PyError (Option O)} {keys : List K}

theorem mapM_eq_ok (h : ∀ k ∈ keys, ∀ e, get k ≠ .error e) :
    ∃ results, keys.mapM get = .ok results ∧ keys.map get = results.map .ok := by
  induction keys with
  | nil => exact ⟨[], rfl, rfl⟩
  | cons k keys ih =>
    obtain ⟨results, h₁, h₂⟩ := ih (forall_mem_cons.mp h).2
    cases hk : get k with
    | error e => exact absurd hk (h k mem_cons_self e)
    | ok o =>
      refine ⟨o :: results, ?_, ?_⟩
      · rw [mapM_cons, hk, h₁]
        rfl
      · rw [map_cons, map_cons, hk, h₂]

theorem mapM_eq_error {k : K} {e : PyError} (hk : k ∈ keys) (he : get k = .error e) :
    ∃ e', keys.mapM get = .error e' := by
  induction keys with
  | nil => simp at hk
  | cons k' keys ih =>
    cases hk' : get k' with
    | error e' => exact ⟨e', by rw [mapM_cons, hk']; rfl⟩
    | ok o =>
      have hmem : k ∈ keys := by
        refine (mem_cons.mp hk).resolve_left ?_
        rintro rfl
        cases he.symm.trans hk'
      obtain ⟨e', he'⟩ := ih hmem
      exact ⟨e', by rw [mapM_cons, hk', he']; rfl⟩

/-- The objects stand at the positions of their keys. -/
def Aligned (get : K → Except PyError (Option O)) (keys : List K) (objs : List O) : Prop :=
  ∀ (i : ℕ) (o : O), objs[i]? = some o → ∃ k, keys[i]? = some k ∧ get k = .ok (some o)

/-- Behind a key whose fetch gives `None` there are only such keys. -/
def HolesAtEnd (get : K → Except PyError (Option O)) (keys : List K) : Prop :=
  keys.Pairwise fun k k' => get k = .ok none → get k' = .ok none

theorem aligned_dropNone_iff {results : List (Option O)} (h : keys.map get = results.map .ok) :
    Aligned get keys (dropNone results) ↔ HolesAtEnd get keys := by
  have hget : ∀ i, keys[i]?.map get = results[i]?.map .ok := fun i => by
    rw [← getElem?_map, h, getElem?_map]
  have hholes : HolesAtEnd get keys ↔ results.Pairwise fun a b => a = none → b = none := by
    have hmap : HolesAtEnd get keys ↔
        (keys.map get).Pairwise fun a b => a = .ok none → b = .ok none := by
      rw [pairwise_map]
      rfl
    rw [hmap, h, pairwise_map]
    simp
  rw [hholes, ← dropNone_aligned_iff]
  constructor
  · intro ha i o ho
    obtain ⟨k, hk, hgk⟩ := ha i o ho
    have := hget i
    rw [hk, Option.map_some, hgk] at this
    cases hr : results[i]? with
    | none => simp [hr] at this
    | some r =>
      rw [hr, Option.map_some] at this
      simpa using this.symm
  · intro ha i o ho
    have := hget i
    rw [ha i o ho, Option.map_some] at this
    exact Option.map_eq_some_iff.mp this

/-- What the gather without `None`s returns is aligned, if and only if a fetch raises (then
there is nothing) or the holes are at the end. -/
theorem gatherNonNone_aligned_iff (get : K → Except PyError (Option O)) (keys : List K) :
    (∀ objs, gatherNonNone get keys = .ok objs → Aligned get keys objs) ↔
      (∃ k ∈ keys, ∃ e, get k = .error e) ∨ HolesAtEnd get keys := by
  by_cases hr : ∃ k ∈ keys, ∃ e, get k = .error e
  · obtain ⟨k, hk, e, he⟩ := hr
    obtain ⟨e', he'⟩ := mapM_eq_error hk he
    refine iff_of_true (fun objs hobjs => ?_) (Or.inl ⟨k, hk, e, he⟩)
    rw [gatherNonNone, he'] at hobjs
    cases hobjs
  · have hok : ∀ k ∈ keys, ∀ e, get k ≠ .error e := fun k hk e he => hr ⟨k, hk, e, he⟩
    obtain ⟨results, h₁, h₂⟩ := mapM_eq_ok hok
    have hg : gatherNonNone get keys = .ok (dropNone results) := by
      rw [gatherNonNone, h₁]
      rfl
    rw [or_iff_right hr, ← aligned_dropNone_iff h₂, hg]
    constructor
    · intro h
      exact h _ rfl
    · intro h objs hobjs
      cases hobjs
      exact h

end dropNone

/-! ### The batch of the S3 connector -/

namespace S3Connector

variable {K : Type}

theorem modify_append_of_lt {α : Type} (f : α → α) {l₁ : List α} (l₂ : List α) {i : ℕ}
    (h : i < l₁.length) : (l₁ ++ l₂).modify i f = l₁.modify i f ++ l₂ := by
  induction l₁ generalizing i with
  | nil => simp at h
  | cons a l₁ ih =>
    cases i with
    | zero => rfl
    | succ i => exact congrArg (a :: ·) (ih (by simpa using h))

theorem settle_append (memoryObjs tail : List (Option Bytes)) (results : List (Option Bytes × ℕ))
    (h : ∀ r ∈ results, r.2 < memoryObjs.length) :
    settle (memoryObjs ++ tail) results = settle memoryObjs results ++ tail := by
  induction results generalizing memoryObjs with
  | nil => rfl
  | cons r results ih =>
    obtain ⟨data, i⟩ := r
    have hi : i < memoryObjs.length := h _ mem_cons_self
    have hrest : ∀ r ∈ results, r.2 < memoryObjs.length := (forall_mem_cons.mp h).2
    cases data with
    | none =>
      simp only [settle]
      rw [set_append_left _ _ hi]
      exact ih _ (by simpa using hrest)
    | some data =>
      simp only [settle]
      rw [modify_append_of_lt _ _ hi]
      exact ih _ (by simpa using hrest)

theorem settle_concat (memoryObjs : List (Option Bytes)) (results : List (Option Bytes × ℕ))
    (r : Option Bytes × ℕ) : settle memoryObjs (results ++ [r]) =
      settle (settle memoryObjs results) [r] := by
  induction results generalizing memoryObjs with
  | nil => rfl
  | cons r' results ih =>
    obtain ⟨data, i⟩ := r'
    cases data <;> exact ih _

/-- The loop has seen the keys `ks`: its results are those of single fetches, and the sizes of
other keys are as they were. -/
structure Batch.Seen (c : S3Connector K) (ks : List K) (b : Batch K) : Prop where
  result : settle b.memoryObjs (b.futures.zip b.futureToMemobjIdx) = ks.map c.get
  length : b.memoryObjs.length = ks.length
  futures : b.futures.length = b.futureToMemobjIdx.length
  index : ∀ i ∈ b.futureToMemobjIdx, i < b.memoryObjs.length
  cache : ∀ k, k ∉ ks → b.objectSizeCache k = c.objectSizeCache k

section seen
variable {c : S3Connector K} {ks : List K} {b : Batch K} {key : K} (h : b.Seen c ks)

include h

theorem Batch.Seen.index_lt :
    ∀ r ∈ b.futures.zip b.futureToMemobjIdx, r.2 < b.memoryObjs.length := fun r hr =>
  h.index r.2 (of_mem_zip hr).2

variable {cache : K → Option ℤ}

/-- A key without an object. -/
theorem Batch.Seen.none (hget : c.get key = none)
    (hc : ∀ k, k ∉ ks ++ [key] → cache k = c.objectSizeCache k) :
    Batch.Seen c (ks ++ [key])
      { b with objectSizeCache := cache, memoryObjs := b.memoryObjs ++ [Option.none] } where
  result := by
    rw [settle_append _ _ _ h.index_lt, h.result, map_append, map_singleton, hget]
  length := by simp [h.length]
  futures := h.futures
  index := fun i hi => by
    have := h.index i hi
    simp only [length_append, length_singleton]
    omega
  cache := hc

/-- A key whose object is allocated and downloaded. -/
theorem Batch.Seen.some {view : Bytes}
    (hget : c.get key = (c.store.download key).map fun data => overwrite view data)
    (hc : ∀ k, k ∉ ks ++ [key] → cache k = c.objectSizeCache k) :
    Batch.Seen c (ks ++ [key])
      { objectSizeCache := cache
        memoryObjs := b.memoryObjs ++ [Option.some view]
        futures := b.futures ++ [c.store.download key]
        futureToMemobjIdx := b.futureToMemobjIdx ++ [b.memoryObjs.length] } where
  result := by
    have hlen : b.memoryObjs.length = (ks.map c.get).length := by rw [h.length, length_map]
    rw [zip_append h.futures, zip_cons_cons, zip_nil_right, settle_concat,
      settle_append _ _ _ h.index_lt, h.result, map_append, map_singleton, hget, hlen]
    cases c.store.download key with
    | none => simp [settle]
    | some data =>
      exact modifyTailIdx_add _ 0 (ks.map c.get) [Option.some view]
  length := by simp [h.length]
  futures := by simp [h.futures]
  index := fun i hi => by
    simp only [length_append, length_singleton]
    rcases mem_append.mp hi with hi | hi
    · have := h.index i hi
      omega
    · rw [mem_singleton.mp hi]
      omega
  cache := hc

theorem Batch.Seen.download {objSize : ℤ}
    (hget : c.get key = fetchSized c.store key objSize)
    (hc : ∀ k, k ∉ ks ++ [key] → cache k = c.objectSizeCache k) :
    Batch.Seen c (ks ++ [key])
      (Batch.download c.store { b with objectSizeCache := cache } key objSize) := by
  unfold Batch.download
  unfold fetchSized at hget
  cases ha : c.store.allocate key with
  | none =>
    rw [ha] at hget
    exact h.none hget hc
  | some view =>
    simp only [ha] at hget
    dsimp only
    split_ifs at hget ⊢ with hs
    · exact h.none hget hc
    · exact h.some hget hc

variable [DecidableEq K]

/-- The body of the loop fetches the next key as `get` does. -/
theorem Batch.Seen.step (hdis : c.connectionDisabled = false)
    (hkey : key ∉ ks) : Batch.Seen c (ks ++ [key]) (b.step c.store key) := by
  have hcache := h.cache key hkey
  have hother : ∀ v k, k ∉ ks ++ [key] →
      Function.update b.objectSizeCache key v k = c.objectSizeCache k := fun v k hk => by
    rw [mem_append, mem_singleton, not_or] at hk
    rw [Function.update_of_ne hk.2, h.cache k hk.1]
  unfold Batch.step
  rw [hcache]
  cases hs : c.objectSizeCache key with
  | some objSize =>
    refine Batch.Seen.download h ?_ fun k hk => h.cache k fun hk' => hk (mem_append_left _ hk')
    simp only [get, hdis, Bool.false_eq_true, if_false, hs]
  | none =>
    dsimp only
    split_ifs with h0
    · refine h.none ?_ (hother _)
      simp only [get, hdis, Bool.false_eq_true, if_false, hs, if_pos h0]
    · refine Batch.Seen.download h ?_ (hother _)
      simp only [get, hdis, Bool.false_eq_true, if_false, hs, if_neg h0]

theorem Batch.Seen.foldl {keys : List K} (hdis : c.connectionDisabled = false)
    (hkeys : (ks ++ keys).Nodup) :
    Batch.Seen c (ks ++ keys) (keys.foldl (Batch.step c.store) b) := by
  induction keys generalizing ks b with
  | nil =>
    rw [append_nil]
    exact h
  | cons key keys ih =>
    have hkey : key ∉ ks := fun hk =>
      (nodup_append.mp hkeys).2.2 key hk key mem_cons_self rfl
    rw [append_cons] at hkeys ⊢
    exact ih (h.step hdis hkey) hkeys

end seen

/-- **A batch of distinct keys** is fetched as its keys are one by one. -/
theorem batchedGet_eq_map [DecidableEq K] (c : S3Connector K) {keys : List K} (h : keys.Nodup) :
    c.batchedGet keys = keys.map c.get := by
  unfold batchedGet
  split_ifs with hdis
  · have hnone : c.get = fun _ => none := funext fun k => if_pos hdis
    rw [hnone, map_const']
  · have hdis : c.connectionDisabled = false := Bool.eq_false_iff.mpr hdis
    have h₀ : Batch.Seen c [] ⟨c.objectSizeCache, [], [], []⟩ :=
      ⟨rfl, rfl, rfl, by simp, fun _ _ => rfl⟩
    exact (h₀.foldl hdis h).result

end S3Connector

/-! ### The default -/

section takeHits
variable {K O : Type}

theorem takeHits_true (results : List (Except PyError (Option O))) :
    (takeHits true results).1 = [] := by
  induction results with
  | nil => rfl
  | cons r results ih =>
    unfold takeHits
    split <;> exact ih

theorem takeHits_aligned (get : K → Except PyError (Option O)) (keys : List K) :
    Aligned get keys (takeHits false (keys.map get)).1 := by
  induction keys with
  | nil =>
    intro i o ho
    simp [takeHits] at ho
  | cons k keys ih =>
    intro i o ho
    rw [map_cons] at ho
    rcases hk : get k with e | _ | o'
    case ok.some =>
      rw [hk, takeHits] at ho
      cases i with
      | zero =>
        refine ⟨k, rfl, ?_⟩
        rw [hk, ← ho]
        rfl
      | succ i => exact ih i o ho
    all_goals
      rw [hk, takeHits, takeHits_true] at ho
      · simp at ho
      · simp

end takeHits

/-! ### All connectors -/

namespace Connector

variable {K : Type}

/-- The store has no object for the key, or there is no memory to put it in. -/
def Missing : Connector K → K → Prop
  | redis r, key | eic r, key =>
    ∀ metadata, r.metadata key = some metadata →
      r.allocate key metadata = none ∨ r.kvBytes key = none
  | s3 c, key =>
    c.connectionDisabled = true ∨
      (c.objectSizeCache key = none ∧ c.store.objectSize key ≤ 0) ∨
      ∀ view, c.store.allocate key = some view →
        (c.objectSizeCache key).getD (c.store.objectSize key) ≠ view.length ∨
          c.store.download key = none
  | base get, key => get key = .ok none

/-- Redis returns bytes of another length than its metadata says. -/
def Raises : Connector K → K → Prop
  | redis r, key =>
    ∃ metadata view kvBytes, r.metadata key = some metadata ∧
      r.allocate key metadata = some view ∧ r.kvBytes key = some kvBytes ∧
      kvBytes.length ≠ min metadata.length view.length
  | eic _, _ | s3 _, _ => False
  | base get, key => ∃ e, get key = .error e

theorem fetchSized_eq_none_iff (s : S3Store K) (key : K) (objSize : ℤ) :
    S3Connector.fetchSized s key objSize = none ↔
      ∀ view, s.allocate key = some view → objSize ≠ view.length ∨ s.download key = none := by
  unfold S3Connector.fetchSized
  cases s.allocate key with
  | none => simp
  | some view =>
    simp only [Option.some.injEq, forall_eq']
    split_ifs with h <;> simp [h]

theorem s3_get_eq_none_iff (c : S3Connector K) (key : K) :
    c.get key = none ↔ (s3 c).Missing key := by
  unfold S3Connector.get Missing
  cases hd : c.connectionDisabled with
  | true => simp [hd]
  | false =>
    cases hs : c.objectSizeCache key with
    | some objSize => simp [hd, hs, fetchSized_eq_none_iff]
    | none =>
      by_cases h0 : c.store.objectSize key ≤ 0
      · simp [hs, h0]
      · simp [hd, hs, h0, fetchSized_eq_none_iff]

variable (r : RemoteStore K) (c : Connector K) (key : K)

theorem redis_get_iff : (RedisConnector.get r key = .ok none ↔ (redis r).Missing key) ∧
    ((∃ e, RedisConnector.get r key = .error e) ↔ (redis r).Raises key) := by
  fun_cases RedisConnector.get r key
  all_goals simp [Missing, Raises, *]

theorem eic_get_eq_none_iff : EICConnector.get r key = .ok none ↔ (eic r).Missing key := by
  unfold EICConnector.get EICConnector.getData Missing
  cases hm : r.metadata key with
  | none => simp [hm]
  | some metadata =>
    cases ha : r.allocate key metadata <;> simp [hm, ha]

theorem get_eq_none_iff : c.get key = .ok none ↔ c.Missing key := by
  cases c with
  | redis r => exact (redis_get_iff r key).1
  | eic r => exact eic_get_eq_none_iff r key
  | s3 c => rw [← s3_get_eq_none_iff, get, Except.ok.injEq]
  | base get => rfl

theorem get_eq_error_iff : (∃ e, c.get key = .error e) ↔ c.Raises key := by
  cases c with
  | redis r => exact (redis_get_iff r key).2
  | eic r =>
    refine iff_of_false ?_ id
    rintro ⟨e, he⟩
    simp only [get, EICConnector.get] at he
    split at he <;> cases he
  | s3 c =>
    refine iff_of_false ?_ id
    rintro ⟨e, he⟩
    cases he
  | base get => rfl

theorem holesAtEnd_iff (keys : List K) :
    HolesAtEnd c.get keys ↔ keys.Pairwise fun k k' => c.Missing k → c.Missing k' := by
  simp [HolesAtEnd, get_eq_none_iff]

/-- The batch keeps the positions of the keys: the connector inherits the default, or a fetch
raises, or behind a missing object there are only missing objects. -/
def KeepsOrder (c : Connector K) (keys : List K) : Prop :=
  (∃ get, c = base get) ∨ (∃ k ∈ keys, c.Raises k) ∨
    keys.Pairwise fun k k' => c.Missing k → c.Missing k'

/-- **The list of a connector is aligned** exactly as far as it keeps the order. -/
theorem aligned_iff [DecidableEq K] {keys : List K} (h : keys.Nodup) :
    (∀ objs, c.batchedGetNonBlocking keys = .ok objs → Aligned c.get keys objs) ↔
      c.KeepsOrder keys := by
  unfold KeepsOrder
  rw [← holesAtEnd_iff]
  simp only [← get_eq_error_iff]
  cases c with
  | redis r | eic r =>
    rw [or_iff_right (by simp)]
    exact gatherNonNone_aligned_iff _ keys
  | s3 c =>
    have hok : ¬ ∃ k ∈ keys, ∃ e, (s3 c).get k = .error e := by
      rintro ⟨k, -, e, he⟩
      cases he
    have hmap : keys.map (s3 c).get = (c.batchedGet keys).map .ok := by
      rw [c.batchedGet_eq_map h, map_map]
      rfl
    rw [or_iff_right (by simp), or_iff_right hok, ← aligned_dropNone_iff hmap]
    constructor
    · intro ha
      exact ha _ rfl
    · intro ha objs hobjs
      cases hobjs
      exact ha
  | base get =>
    refine iff_of_true (fun objs hobjs => ?_) (Or.inl ⟨get, rfl⟩)
    cases hobjs
    exact takeHits_aligned get keys

end Connector

end LMCache
