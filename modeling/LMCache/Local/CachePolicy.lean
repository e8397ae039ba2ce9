import LMCache.Lib.Dict

/-! # Cache policies

A cache policy orders the entries of a cache for eviction.  The LRU, FIFO and MRU policies keep
their order in the cache itself, an insertion-ordered dictionary; the LFU policy counts the hits of
every key and keeps the keys of one frequency in a bucket.

* **Errors.** A missing key of a dictionary is a `KeyError`, with the key that is missing.  A
  function that may raise after it has changed something also returns what it has changed.
* **Evictability.** A policy is given the cache and asks every entry whether it can be evicted.
* The time stamps that the LRU policy collects for the statistics are left out.

`getEvictCandidates_spec`: what a policy proposes is in the cache and can be evicted. -/

namespace LMCache.Local

open List

/-- The key that was not found: one of the cache, or a frequency. -/
inductive KeyError (K : Type) where
  | key (k : K)
  | freq (f : ℕ)
deriving DecidableEq, Repr

variable {K V : Type} [DecidableEq K]

/-! ### Least frequently used -/

/-- `freqToKeys` is a `SortedDict` of dictionaries without values. -/
structure LFUCachePolicy (K : Type) where
  freqToKeys : List (ℕ × List K) := []
  keyToFreq : Dict K ℕ := Dict.empty

namespace LFUCachePolicy

def setBucket (f : ℕ) (ks : List K) : List (ℕ × List K) → List (ℕ × List K)
  | [] => [(f, ks)]
  | b :: bs =>
    if f < b.1 then (f, ks) :: b :: bs
    else if f = b.1 then (f, ks) :: bs
    else b :: setBucket f ks bs

/-- `freq_to_keys[f][key] = None`, in a new bucket if there is none. -/
def addToBucket (bs : List (ℕ × List K)) (f : ℕ) (key : K) : List (ℕ × List K) :=
  match bs.lookup f with
  | none => setBucket f [key] bs
  | some ks => setBucket f (if key ∈ ks then ks else ks ++ [key]) bs

/-- `freq_to_keys[f].pop(key)`; an empty bucket is removed. -/
def popFromBucket (bs : List (ℕ × List K)) (f : ℕ) (key : K) :
    Except (KeyError K) (List (ℕ × List K)) :=
  match bs.lookup f with
  | none => .error (.freq f)
  | some ks =>
    if key ∈ ks then
      let ks := ks.erase key
      .ok (if ks = [] then bs.filter fun b => b.1 ≠ f else setBucket f ks bs)
    else .error (.key key)

def updateOnHit (p : LFUCachePolicy K) (key : K) : Except (KeyError K) (LFUCachePolicy K) :=
  match p.keyToFreq.get? key with
  | none => .error (.key key)
  | some currFreq =>
    match popFromBucket p.freqToKeys currFreq key with
    | .error e => .error e
    | .ok bs => .ok ⟨addToBucket bs (currFreq + 1) key, p.keyToFreq.set key (currFreq + 1)⟩

def updateOnPut (p : LFUCachePolicy K) (key : K) : LFUCachePolicy K :=
  ⟨addToBucket p.freqToKeys 1 key, p.keyToFreq.set key 1⟩

def updateOnForceEvict (p : LFUCachePolicy K) (key : K) :
    Option (KeyError K) × LFUCachePolicy K :=
  match p.keyToFreq.get? key with
  | none => (none, p)
  | some freq =>
    let p := { p with keyToFreq := p.keyToFreq.erase key }
    if freq = 0 then (none, p)
    else
      match popFromBucket p.freqToKeys freq key with
      | .error e => (some e, p)
      | .ok bs => (none, { p with freqToKeys := bs })

/-- The loops of `get_evict_candidates` over the keys of all buckets. -/
def collect (cache : Dict K V) (canEvict : V → Bool) (numCandidates : ℕ) :
    List (ℕ × K) → List (ℕ × K) → Dict K ℕ →
      Except (KeyError K) (List (ℕ × K)) × Dict K ℕ
  | [], evict, keyToFreq => (.ok evict, keyToFreq)
  | (freq, key) :: rest, evict, keyToFreq =>
    match cache.get? key with
    | none => (.error (.key key), keyToFreq)
    | some v =>
      if canEvict v then
        if key ∈ keyToFreq.keys then
          let evict := evict ++ [(freq, key)]
          let keyToFreq := keyToFreq.erase key
          if evict.length = numCandidates then (.ok evict, keyToFreq)
          else collect cache canEvict numCandidates rest evict keyToFreq
        else (.error (.key key), keyToFreq)
      else collect cache canEvict numCandidates rest evict keyToFreq

/-- The loop that takes the candidates out of their buckets. -/
def popAll : List (ℕ × K) → List (ℕ × List K) →
    Option (KeyError K) × List (ℕ × List K)
  | [], bs => (none, bs)
  | (freq, key) :: rest, bs =>
    match popFromBucket bs freq key with
    | .error e => (some e, bs)
    | .ok bs => popAll rest bs

def getEvictCandidates (p : LFUCachePolicy K) (cache : Dict K V) (canEvict : V → Bool)
    (numCandidates : ℕ) : Except (KeyError K) (List K) × LFUCachePolicy K :=
  let keys := p.freqToKeys.flatMap fun b => b.2.map fun k => (b.1, k)
  match collect cache canEvict numCandidates keys [] p.keyToFreq with
  | (.error e, keyToFreq) => (.error e, { p with keyToFreq := keyToFreq })
  | (.ok evict, keyToFreq) =>
    match popAll evict p.freqToKeys with
    | (some e, bs) => (.error e, ⟨bs, keyToFreq⟩)
    | (none, bs) => (.ok (evict.map Prod.snd), ⟨bs, keyToFreq⟩)

end LFUCachePolicy

/-! ### All policies -/

/-- The policies of `POLICY_MAPPING`. -/
inductive CachePolicy (K : Type) where
  | lru
  | lfu (p : LFUCachePolicy K)
  | fifo
  | mru

/-- The loop of `get_evict_candidates` over the entries of the cache. -/
def takeEvictable (canEvict : V → Bool) (numCandidates : ℕ) : List (K × V) → List K → List K
  | [], evictKeys => evictKeys
  | (key, v) :: rest, evictKeys =>
    if canEvict v then
      let evictKeys := evictKeys ++ [key]
      if evictKeys.length = numCandidates then evictKeys
      else takeEvictable canEvict numCandidates rest evictKeys
    else takeEvictable canEvict numCandidates rest evictKeys

namespace CachePolicy

def updateOnHit (p : CachePolicy K) (key : K) (cache : Dict K V) :
    Except (KeyError K) (CachePolicy K × Dict K V) :=
  let moved : Except (KeyError K) (CachePolicy K × Dict K V) :=
    match cache.moveToEnd key with
    | none => .error (.key key)
    | some cache => .ok (p, cache)
  match p with
  | .lru => moved
  | .mru => moved
  | .fifo => .ok (p, cache)
  | .lfu q =>
    match q.updateOnHit key with
    | .error e => .error e
    | .ok q => .ok (.lfu q, cache)

def updateOnPut (p : CachePolicy K) (key : K) : CachePolicy K :=
  match p with
  | .lfu q => .lfu (q.updateOnPut key)
  | p => p

def updateOnForceEvict (p : CachePolicy K) (key : K) : Option (KeyError K) × CachePolicy K :=
  match p with
  | .lfu q =>
    let r := q.updateOnForceEvict key
    (r.1, .lfu r.2)
  | p => (none, p)

def getEvictCandidates (p : CachePolicy K) (cache : Dict K V) (canEvict : V → Bool)
    (numCandidates : ℕ) : Except (KeyError K) (List K) × CachePolicy K :=
  match p with
  | .lru => (.ok (takeEvictable canEvict numCandidates cache.entries []), p)
  | .fifo => (.ok (takeEvictable canEvict numCandidates cache.entries []), p)
  | .mru => (.ok (takeEvictable canEvict numCandidates cache.entries.reverse []), p)
  | .lfu q =>
    let r := q.getEvictCandidates cache canEvict numCandidates
    (r.1, .lfu r.2)

end CachePolicy

/-! ### What the policies propose -/

section candidates
variable {cache : Dict K V} {canEvict : V → Bool} {numCandidates : ℕ}

def Evictable (cache : Dict K V) (canEvict : V → Bool) (key : K) : Prop :=
  ∃ v, cache.get? key = some v ∧ canEvict v = true

theorem evictable_append {evictKeys : List K} {key : K}
    (hkeys : ∀ k ∈ evictKeys, Evictable cache canEvict k) (hkey : Evictable cache canEvict key) :
    ∀ k ∈ evictKeys ++ [key], Evictable cache canEvict k := by
  intro k hk
  grind

theorem evictable_takeEvictable {entries : List (K × V)} {evictKeys : List K}
    (hentries : ∀ e ∈ entries, cache.get? e.1 = some e.2)
    (hkeys : ∀ k ∈ evictKeys, Evictable cache canEvict k) :
    ∀ k ∈ takeEvictable canEvict numCandidates entries evictKeys, Evictable cache canEvict k := by
  fun_induction takeEvictable canEvict numCandidates entries evictKeys
  case case1 => exact hkeys
  case case2 key v rest evictKeys hv keys hlen =>
    exact evictable_append hkeys ⟨v, hentries _ mem_cons_self, hv⟩
  case case3 key v rest evictKeys hv keys hlen ih =>
    exact ih (forall_mem_cons.mp hentries).2
      (evictable_append hkeys ⟨v, hentries _ mem_cons_self, hv⟩)
  case case4 ih => exact ih (forall_mem_cons.mp hentries).2 hkeys

omit [DecidableEq K] in
theorem length_takeEvictable_one {entries : List (K × V)} :
    (takeEvictable canEvict 1 entries []).length ≤ 1 := by
  induction entries with
  | nil => exact Nat.zero_le 1
  | cons e entries ih =>
    obtain ⟨key, v⟩ := e
    rw [takeEvictable]
    grind

theorem LFUCachePolicy.evictable_collect {keys evict evict' : List (ℕ × K)}
    {keyToFreq keyToFreq' : Dict K ℕ}
    (h : collect cache canEvict numCandidates keys evict keyToFreq = (.ok evict', keyToFreq'))
    (hkeys : ∀ k ∈ evict.map Prod.snd, Evictable cache canEvict k) :
    ∀ k ∈ evict'.map Prod.snd, Evictable cache canEvict k := by
  fun_induction collect cache canEvict numCandidates keys evict keyToFreq
  case case1 =>
    cases h
    exact hkeys
  case case3 v hv hevict hmem evict₁ _ hn =>
    rw [← Except.ok.inj (Prod.mk.inj h).1, map_append]
    exact evictable_append hkeys ⟨v, hv, hevict⟩
  case case4 v hv hevict hmem evict₁ _ hn ih =>
    refine ih h ?_
    rw [map_append]
    exact evictable_append hkeys ⟨v, hv, hevict⟩
  case case6 ih => exact ih h hkeys
  all_goals cases h

theorem LFUCachePolicy.length_collect_one {keys evict : List (ℕ × K)}
    {keyToFreq keyToFreq' : Dict K ℕ}
    (h : collect cache canEvict 1 keys [] keyToFreq = (.ok evict, keyToFreq')) :
    evict.length ≤ 1 := by
  induction keys with
  | nil =>
    obtain ⟨hok, -⟩ := Prod.mk.inj h
    grind
  | cons e keys ih =>
    obtain ⟨freq, key⟩ := e
    rw [collect] at h
    grind

theorem LFUCachePolicy.collect_of_getEvictCandidates {p p' : LFUCachePolicy K} {keys : List K}
    (h : p.getEvictCandidates cache canEvict numCandidates = (.ok keys, p')) :
    ∃ evict keyToFreq, keys = evict.map Prod.snd ∧
      collect cache canEvict numCandidates
        (p.freqToKeys.flatMap fun b => b.2.map fun k => (b.1, k)) [] p.keyToFreq =
        (.ok evict, keyToFreq) := by
  unfold getEvictCandidates at h
  grind

/-- **Candidates** are in the cache and can be evicted, under every policy. -/
theorem CachePolicy.getEvictCandidates_spec {p p' : CachePolicy K} {keys : List K}
    (h : p.getEvictCandidates cache canEvict numCandidates = (.ok keys, p')) :
    ∀ k ∈ keys, Evictable cache canEvict k := by
  have hentries : ∀ e ∈ cache.entries, cache.get? e.1 = some e.2 := fun e he =>
    Dict.get?_eq_some_iff.mpr he
  cases p with
  | lru | fifo =>
    cases h
    exact evictable_takeEvictable hentries (by simp)
  | mru =>
    cases h
    exact evictable_takeEvictable (fun e he => hentries e (mem_reverse.mp he)) (by simp)
  | lfu q =>
    obtain ⟨evict, keyToFreq, rfl, hcollect⟩ :=
      LFUCachePolicy.collect_of_getEvictCandidates (Prod.ext (Prod.mk.inj h).1 rfl)
    exact LFUCachePolicy.evictable_collect hcollect (by simp)

theorem CachePolicy.length_getEvictCandidates_one {p p' : CachePolicy K} {keys : List K}
    (h : p.getEvictCandidates cache canEvict 1 = (.ok keys, p')) : keys.length ≤ 1 := by
  cases p with
  | lru | fifo | mru =>
    cases h
    exact length_takeEvictable_one
  | lfu q =>
    obtain ⟨evict, keyToFreq, rfl, hcollect⟩ :=
      LFUCachePolicy.collect_of_getEvictCandidates (Prod.ext (Prod.mk.inj h).1 rfl)
    rw [length_map]
    exact LFUCachePolicy.length_collect_one hcollect

/-- **One candidate** is asked for: an error, nothing, or one key that can be evicted. -/
theorem CachePolicy.getEvictCandidates_one (p : CachePolicy K) (cache : Dict K V)
    (canEvict : V → Bool) :
    (∃ e, (p.getEvictCandidates cache canEvict 1).1 = .error e) ∨
      (p.getEvictCandidates cache canEvict 1).1 = .ok [] ∨
      ∃ key v, (p.getEvictCandidates cache canEvict 1).1 = .ok [key] ∧
        cache.get? key = some v ∧ canEvict v = true := by
  rcases hr : p.getEvictCandidates cache canEvict 1 with ⟨r, p'⟩
  cases r with
  | error e => exact .inl ⟨e, rfl⟩
  | ok keys =>
    cases keys with
    | nil => exact .inr (.inl rfl)
    | cons key keys =>
      have hlen := length_getEvictCandidates_one hr
      obtain rfl : keys = [] := length_eq_zero_iff.mp (by simpa using hlen)
      obtain ⟨v, hv, hevict⟩ := getEvictCandidates_spec hr key mem_cons_self
      exact .inr (.inr ⟨key, v, rfl, hv, hevict⟩)

end candidates

end LMCache.Local
