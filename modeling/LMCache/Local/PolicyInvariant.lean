import LMCache.Local.CachePolicy

/-! # What a cache policy keeps

The LFU policy has two tables, the frequency of every key and the keys of every frequency.  A
forced eviction raises when a key has a frequency but is not in the bucket of it.

* `Tracks`: every counted key is in the bucket of its frequency.  All updates keep this, also one
  that raises halfway.
* `CachePolicy.Tracks.updateOnForceEvict`: under `Tracks`, a forced eviction does not raise.
* `CachePolicy.updateOnHit_spec`: a hit changes no entry of the cache. -/

namespace LMCache.Local

open List

variable {K V : Type} [DecidableEq K]

namespace LFUCachePolicy

/-- The key is in the bucket of frequency `f`. -/
def InBucket (bs : List (ℕ × List K)) (f : ℕ) (k : K) : Prop :=
  ∃ ks, bs.lookup f = some ks ∧ k ∈ ks

/-- Every counted key is in the bucket of its frequency. -/
def Tracks (p : LFUCachePolicy K) : Prop :=
  ∀ k f, p.keyToFreq.get? k = some f → ∃ ks, p.freqToKeys.lookup f = some ks ∧ k ∈ ks

variable {f f' : ℕ} {ks : List K} {bs : List (ℕ × List K)} {p : LFUCachePolicy K}

omit [DecidableEq K] in
theorem lookup_setBucket :
    (setBucket f ks bs).lookup f' = if f' = f then some ks else bs.lookup f' := by
  induction bs with
  | nil =>
    by_cases h : f' = f <;> simp [setBucket, h]
  | cons b bs ih =>
    obtain ⟨g, gs⟩ := b
    rw [setBucket]
    by_cases hlt : f < g
    · grind
    · grind

omit [DecidableEq K] in
theorem lookup_filter_ne (h : f' ≠ f) (bs : List (ℕ × List K)) :
    (bs.filter fun b => b.1 ≠ f).lookup f' = bs.lookup f' := by
  induction bs with
  | nil => rfl
  | cons b bs ih =>
    grind

theorem inBucket_addToBucket {g : ℕ} {key k : K} :
    InBucket (addToBucket bs f key) g k ↔ (g = f ∧ k = key) ∨ InBucket bs g k := by
  unfold addToBucket InBucket
  by_cases hg : g = f
  · subst hg
    cases hf : bs.lookup g with
    | none => simp [lookup_setBucket]
    | some ks =>
      simp only [lookup_setBucket, if_true, Option.some.injEq, exists_eq_left', true_and]
      grind
  · cases bs.lookup f with
    | none => simp [lookup_setBucket, hg]
    | some ks => simp [lookup_setBucket, hg]

theorem mem_popFromBucket {bs' : List (ℕ × List K)} {key k : K}
    (hpop : popFromBucket bs f key = .ok bs') (h : bs.lookup f' = some ks) (hk : k ∈ ks)
    (hne : k ≠ key) : ∃ ks', bs'.lookup f' = some ks' ∧ k ∈ ks' := by
  revert hpop
  fun_cases popFromBucket bs f key <;> rintro ⟨⟩
  next hf hmem erased =>
    by_cases hf' : f' = f
    · subst hf'
      cases h.symm.trans hf
      have hk' : k ∈ erased := (mem_erase_of_ne hne).mpr hk
      rw [if_neg (ne_nil_of_mem hk')]
      exact ⟨erased, by simp [lookup_setBucket], hk'⟩
    · refine ⟨ks, ?_, hk⟩
      split_ifs
      · rw [lookup_filter_ne hf', h]
      · simp [lookup_setBucket, hf', h]

theorem popFromBucket_ok {key : K} (h : bs.lookup f = some ks) (hk : key ∈ ks) :
    ∃ bs', popFromBucket bs f key = .ok bs' := by
  simp [popFromBucket, h, hk]

theorem Tracks.updateOnPut (hp : p.Tracks) (key : K) : (p.updateOnPut key).Tracks := by
  intro k f hk
  unfold LFUCachePolicy.updateOnPut at hk ⊢
  rw [Dict.get?_set] at hk
  split_ifs at hk with heq
  · exact inBucket_addToBucket.mpr (.inl ⟨(Option.some.inj hk).symm, heq⟩)
  · exact inBucket_addToBucket.mpr (.inr (hp k f hk))

theorem Tracks.updateOnHit {p' : LFUCachePolicy K} {key : K} (hp : p.Tracks)
    (h : p.updateOnHit key = .ok p') : p'.Tracks := by
  revert h
  fun_cases LFUCachePolicy.updateOnHit p key <;> rintro ⟨⟩
  next bs hpop =>
    intro k f hk
    rw [Dict.get?_set] at hk
    split_ifs at hk with heq
    · exact inBucket_addToBucket.mpr (.inl ⟨(Option.some.inj hk).symm, heq⟩)
    · obtain ⟨ks, hks, hmem⟩ := hp k f hk
      exact inBucket_addToBucket.mpr (.inr (mem_popFromBucket hpop hks hmem heq))

/-- **A forced eviction** does not raise, and the policy goes on tracking its keys. -/
theorem Tracks.updateOnForceEvict (hp : p.Tracks) (key : K) :
    (p.updateOnForceEvict key).1 = none ∧ (p.updateOnForceEvict key).2.Tracks := by
  unfold LFUCachePolicy.updateOnForceEvict
  cases hfreq : p.keyToFreq.get? key with
  | none => exact ⟨rfl, hp⟩
  | some freq =>
    have hrest : ∀ k f, (p.keyToFreq.erase key).get? k = some f →
        k ≠ key ∧ p.keyToFreq.get? k = some f := by
      simp
    dsimp only
    split_ifs
    · exact ⟨rfl, fun k f hk => hp k f (hrest k f hk).2⟩
    · obtain ⟨ks, hks, hmem⟩ := hp key freq hfreq
      obtain ⟨bs, hbs⟩ := popFromBucket_ok hks hmem
      simp only [hbs, true_and]
      intro k f hk
      obtain ⟨hne, hk⟩ := hrest k f hk
      obtain ⟨ks', hks', hmem'⟩ := hp k f hk
      exact mem_popFromBucket hbs hks' hmem' hne

theorem get?_collect {cache : Dict K V} {canEvict : V → Bool} {numCandidates : ℕ}
    {keys evict : List (ℕ × K)} {keyToFreq : Dict K ℕ} {k : K}
    (h : (collect cache canEvict numCandidates keys evict keyToFreq).2.get? k = some f) :
    keyToFreq.get? k = some f ∧
      ∀ evict', (collect cache canEvict numCandidates keys evict keyToFreq).1 = .ok evict' →
        k ∉ evict.map Prod.snd → k ∉ evict'.map Prod.snd := by
  fun_induction collect cache canEvict numCandidates keys evict keyToFreq
  case case1 =>
    refine ⟨h, fun evict' hok hnot => ?_⟩
    cases hok
    exact hnot
  case case2 | case5 => exact ⟨h, fun _ hok => by cases hok⟩
  case case6 ih => exact ih h
  all_goals grind

theorem mem_popAll {evict : List (ℕ × K)} {k : K} (h : bs.lookup f = some ks) (hk : k ∈ ks)
    (hnot : k ∉ evict.map Prod.snd) : ∃ ks', (popAll evict bs).2.lookup f = some ks' ∧ k ∈ ks' := by
  fun_induction popAll evict bs generalizing ks
  case case1 => exact ⟨ks, h, hk⟩
  case case2 => exact ⟨ks, h, hk⟩
  case case3 hpop ih =>
    rw [map_cons, mem_cons, not_or] at hnot
    obtain ⟨ks', hks', hmem'⟩ := mem_popFromBucket hpop h hk hnot.1
    exact ih hks' hmem' hnot.2

theorem Tracks.getEvictCandidates (hp : p.Tracks) (cache : Dict K V) (canEvict : V → Bool)
    (numCandidates : ℕ) : (p.getEvictCandidates cache canEvict numCandidates).2.Tracks := by
  unfold LFUCachePolicy.getEvictCandidates
  dsimp only
  split
  · rename_i e keyToFreq hcollect
    intro k f hk
    exact hp k f (get?_collect (by rw [hcollect]; exact hk)).1
  · rename_i evict keyToFreq hcollect
    have hkeep : ∀ k f, keyToFreq.get? k = some f →
        ∃ ks, (popAll evict p.freqToKeys).2.lookup f = some ks ∧ k ∈ ks := by
      intro k f hk
      have hget := get?_collect (by rw [hcollect]; exact hk)
      rw [hcollect] at hget
      obtain ⟨ks, hks, hmem⟩ := hp k f hget.1
      exact mem_popAll hks hmem (hget.2 evict rfl (by simp))
    split
    · rename_i e bs hpop
      intro k f hk
      simpa [hpop] using hkeep k f hk
    · rename_i bs hpop
      intro k f hk
      simpa [hpop] using hkeep k f hk

end LFUCachePolicy

namespace CachePolicy

def Tracks : CachePolicy K → Prop
  | .lfu p => p.Tracks
  | _ => True

variable {p : CachePolicy K}

theorem Tracks.updateOnPut (hp : p.Tracks) (key : K) : (p.updateOnPut key).Tracks := by
  cases p with
  | lfu q => exact LFUCachePolicy.Tracks.updateOnPut hp key
  | _ => trivial

section hit
variable {key : K} {cache : Dict K V} {r : CachePolicy K × Dict K V}

/-- **Inversion of a hit**: the LFU policy counts it, the others at most move the entry. -/
theorem updateOnHit_cases (h : p.updateOnHit key cache = .ok r) :
    (∃ q q', p = .lfu q ∧ q.updateOnHit key = .ok q' ∧ r = (.lfu q', cache)) ∨
      r.1 = p ∧ (r.2 = cache ∨ cache.moveToEnd key = some r.2) := by
  revert h
  fun_cases updateOnHit p key cache
  case case1 moved | case2 moved =>
    intro h
    unfold moved at h
    split at h <;> cases h
    exact .inr ⟨rfl, .inr ‹_›⟩
  all_goals rintro ⟨⟩
  case case3 => exact .inr ⟨rfl, .inl rfl⟩
  case case5 hq => exact .inl ⟨_, _, rfl, hq, rfl⟩

theorem updateOnHit_spec (h : p.updateOnHit key cache = .ok r) :
    (p.Tracks → r.1.Tracks) ∧ ∀ k, r.2.get? k = cache.get? k := by
  obtain ⟨q, q', rfl, hq, rfl⟩ | ⟨hpolicy, hcache | hmove⟩ := updateOnHit_cases h
  · exact ⟨fun hp => LFUCachePolicy.Tracks.updateOnHit hp hq, fun k => rfl⟩
  · exact ⟨hpolicy ▸ id, fun k => by rw [hcache]⟩
  · exact ⟨hpolicy ▸ id, fun k => Dict.get?_moveToEnd hmove⟩

theorem perm_updateOnHit (h : p.updateOnHit key cache = .ok r) :
    r.2.entries.Perm cache.entries := by
  obtain ⟨q, q', rfl, hq, rfl⟩ | ⟨-, hcache | hmove⟩ := updateOnHit_cases h
  · exact .refl _
  · rw [hcache]
  · exact Dict.perm_moveToEnd hmove

end hit

theorem Tracks.updateOnForceEvict (hp : p.Tracks) (key : K) :
    (p.updateOnForceEvict key).1 = none ∧ (p.updateOnForceEvict key).2.Tracks := by
  cases p with
  | lfu q => exact LFUCachePolicy.Tracks.updateOnForceEvict hp key
  | _ => exact ⟨rfl, trivial⟩

theorem Tracks.getEvictCandidates (hp : p.Tracks) (cache : Dict K V) (canEvict : V → Bool)
    (numCandidates : ℕ) : (p.getEvictCandidates cache canEvict numCandidates).2.Tracks := by
  cases p with
  | lfu q => exact LFUCachePolicy.Tracks.getEvictCandidates hp cache canEvict numCandidates
  | _ => trivial

end CachePolicy

end LMCache.Local
