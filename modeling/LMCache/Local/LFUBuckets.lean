import LMCache.Local.PolicyInvariant

/-! # The two tables of the LFU policy

A key of the LFU policy has a frequency and is in the bucket of it.  As long as no key that is
counted is put once more, the two tables say the same: a key is in one bucket only, that of its
frequency.  The policy is then its table of frequencies, and every update is one of that table.

* `Consistent`: the buckets are the inverse of the table of frequencies.
* `Consistent.updateOnPut`, `Consistent.updateOnHit`, `Consistent.updateOnForceEvict`,
  `Consistent.getEvictCandidates_one`: what each call does to the table. -/

namespace LMCache.Local

open List Dict LFUCachePolicy

variable {K V : Type} [DecidableEq K]

namespace LFUCachePolicy

/-! ### Buckets -/

/-- The buckets are in the order of their frequencies, and no key is twice in one. -/
structure Regular (bs : List (ℕ × List K)) : Prop where
  sorted : bs.Pairwise fun b c => b.1 < c.1
  nodup : ∀ f ks, bs.lookup f = some ks → ks.Nodup

variable {bs : List (ℕ × List K)} {f : ℕ} {p : LFUCachePolicy K}

omit [DecidableEq K] in
theorem lookup_of_mem (hbs : bs.Pairwise fun b c => b.1 < c.1) {ks : List K} (h : (f, ks) ∈ bs) :
    bs.lookup f = some ks := by
  induction bs with
  | nil => cases h
  | cons b bs ih =>
    obtain ⟨g, gs⟩ := b
    obtain ⟨hlt, hbs⟩ := pairwise_cons.mp hbs
    grind

omit [DecidableEq K] in
theorem mem_setBucket {ks : List K} {b : ℕ × List K} (h : b ∈ setBucket f ks bs) :
    b = (f, ks) ∨ b ∈ bs := by
  induction bs with
  | nil => exact Or.inl (mem_singleton.mp h)
  | cons c bs ih =>
    rw [setBucket] at h
    grind

omit [DecidableEq K] in
theorem sorted_setBucket (hbs : bs.Pairwise fun b c => b.1 < c.1) (f : ℕ) (ks : List K) :
    (setBucket f ks bs).Pairwise fun b c => b.1 < c.1 := by
  induction bs with
  | nil => exact pairwise_singleton _ _
  | cons c bs ih =>
    obtain ⟨hlt, hrest⟩ := pairwise_cons.mp hbs
    rw [setBucket]
    split_ifs with hf heq
    · refine pairwise_cons.mpr ⟨fun b hb => ?_, hbs⟩
      grind
    · exact pairwise_cons.mpr ⟨fun b hb => heq ▸ hlt b hb, hrest⟩
    · refine pairwise_cons.mpr ⟨fun b hb => ?_, ih hrest⟩
      rcases mem_setBucket hb with rfl | hb
      · exact lt_of_le_of_ne (not_lt.mp hf) (Ne.symm heq)
      · exact hlt b hb

omit [DecidableEq K] in
theorem Regular.setBucket (hbs : Regular bs) {ks : List K} (hks : ks.Nodup) :
    Regular (setBucket f ks bs) := by
  refine ⟨sorted_setBucket hbs.sorted f ks, fun g gs hg => ?_⟩
  rw [lookup_setBucket] at hg
  split_ifs at hg
  · exact Option.some.inj hg ▸ hks
  · exact hbs.nodup g gs hg

theorem Regular.addToBucket (hbs : Regular bs) (f : ℕ) (key : K) :
    Regular (addToBucket bs f key) := by
  fun_cases addToBucket
  · exact hbs.setBucket (nodup_singleton key)
  next ks hf =>
    refine hbs.setBucket ?_
    split_ifs with hmem
    · exact hbs.nodup f ks hf
    · rw [← concat_eq_append]
      exact (hbs.nodup f ks hf).concat hmem

/-- **Taking a key out**: it is no longer in the bucket, and nothing else changes. -/
theorem Regular.popFromBucket (hbs : Regular bs) {key : K} (h : InBucket bs f key) :
    ∃ bs', popFromBucket bs f key = .ok bs' ∧ Regular bs' ∧
      ∀ g k, InBucket bs' g k ↔ InBucket bs g k ∧ ¬(g = f ∧ k = key) := by
  obtain ⟨ks, hks, hmem⟩ := h
  have hnodup := hbs.nodup f ks hks
  have hother : ∀ {g k}, g ≠ f → ((∃ gs, bs.lookup g = some gs ∧ k ∈ gs) ↔
      (∃ gs, bs.lookup g = some gs ∧ k ∈ gs) ∧ ¬(g = f ∧ k = key)) :=
    fun hg => ⟨fun h => ⟨h, fun hf => hg hf.1⟩, And.left⟩
  unfold LFUCachePolicy.popFromBucket
  simp only [hks, if_pos hmem, Except.ok.injEq, exists_eq_left']
  split_ifs with hempty
  · have hfilter : (bs.filter fun b => b.1 ≠ f).lookup f = none := by
      grind
    refine ⟨⟨hbs.sorted.filter _, fun g gs hg => ?_⟩, fun g k => ?_⟩
    · by_cases hgf : g = f
      · rw [hgf, hfilter] at hg
        cases hg
      · exact hbs.nodup g gs (by rwa [lookup_filter_ne hgf] at hg)
    · unfold InBucket
      by_cases hgf : g = f
      · subst hgf
        have honly : ∀ k ∈ ks, k = key := fun k hk => by
          by_contra hne
          exact not_mem_nil (hempty ▸ (mem_erase_of_ne hne).mpr hk)
        grind
      · rw [lookup_filter_ne hgf]
        exact hother hgf
  · refine ⟨hbs.setBucket (hnodup.erase key), fun g k => ?_⟩
    unfold InBucket
    by_cases hgf : g = f
    · subst hgf
      simp [lookup_setBucket, hks, hnodup.mem_erase_iff, and_comm]
    · simp only [lookup_setBucket, if_neg hgf]
      exact hother hgf

/-! ### The policy -/

/-- The keys of all buckets: those that `get_evict_candidates` goes through. -/
def keys (p : LFUCachePolicy K) : List K := p.freqToKeys.flatMap Prod.snd

/-- The buckets are the inverse of the table of frequencies. -/
structure Consistent (p : LFUCachePolicy K) : Prop where
  regular : Regular p.freqToKeys
  inBucket : ∀ f k, InBucket p.freqToKeys f k ↔ p.keyToFreq.get? k = some f
  pos : ∀ k f, p.keyToFreq.get? k = some f → 0 < f

theorem Consistent.empty : Consistent ({} : LFUCachePolicy K) :=
  ⟨⟨List.Pairwise.nil, nofun⟩, fun _ _ => by simp [InBucket], nofun⟩

variable (hp : p.Consistent)

include hp

theorem Consistent.get?_of_mem {k : K}
    (h : (f, k) ∈ p.freqToKeys.flatMap fun b => b.2.map fun k => (b.1, k)) :
    p.keyToFreq.get? k = some f := by
  obtain ⟨b, hb, hmem⟩ := mem_flatMap.mp h
  obtain ⟨k', hk, heq⟩ := mem_map.mp hmem
  cases heq
  exact (hp.inBucket b.1 k).mp ⟨b.2, lookup_of_mem hp.regular.sorted hb, hk⟩

theorem Consistent.mem_keys {k : K} (h : k ∈ p.keys) : k ∈ p.keyToFreq.keys := by
  obtain ⟨b, hb, hk⟩ := mem_flatMap.mp h
  have hget := (hp.inBucket b.1 k).mp ⟨b.2, lookup_of_mem hp.regular.sorted hb, hk⟩
  grind

theorem Consistent.updateOnPut {key : K} (hkey : key ∉ p.keyToFreq.keys) :
    (p.updateOnPut key).Consistent := by
  have hnone := get?_eq_none_iff.mpr hkey
  refine ⟨hp.regular.addToBucket 1 key, fun f k => ?_, fun k f hk => ?_⟩
  · unfold LFUCachePolicy.updateOnPut
    rw [inBucket_addToBucket, hp.inBucket, get?_set]
    grind
  · simp only [LFUCachePolicy.updateOnPut, get?_set] at hk
    split_ifs at hk
    · exact Option.some.inj hk ▸ Nat.one_pos
    · exact hp.pos k f hk

/-- **A hit** raises for a key that is not counted, and counts the others once more. -/
theorem Consistent.updateOnHit (key : K) :
    (key ∉ p.keyToFreq.keys ∧ p.updateOnHit key = .error (.key key)) ∨
      ∃ f p', p.keyToFreq.get? key = some f ∧ p.updateOnHit key = .ok p' ∧ p'.Consistent ∧
        p'.keyToFreq = p.keyToFreq.set key (f + 1) := by
  unfold LFUCachePolicy.updateOnHit
  cases hfreq : p.keyToFreq.get? key with
  | none => exact Or.inl ⟨get?_eq_none_iff.mp hfreq, rfl⟩
  | some f =>
    obtain ⟨bs, hbs, hregular, hpop⟩ :=
      hp.regular.popFromBucket ((hp.inBucket f key).mpr hfreq)
    refine Or.inr ⟨f, ⟨addToBucket bs (f + 1) key, p.keyToFreq.set key (f + 1)⟩, rfl,
      by simp [hbs], ⟨hregular.addToBucket (f + 1) key, fun g k => ?_, fun k g hk => ?_⟩, rfl⟩
    · show InBucket (addToBucket bs (f + 1) key) g k ↔ _
      rw [inBucket_addToBucket, hpop, hp.inBucket, get?_set]
      grind
    · rw [get?_set] at hk
      split_ifs at hk
      · exact Option.some.inj hk ▸ Nat.succ_pos f
      · exact hp.pos k g hk

/-- A counted key leaves both tables. -/
theorem Consistent.pop {key : K} (hf : p.keyToFreq.get? key = some f) :
    ∃ bs, popFromBucket p.freqToKeys f key = .ok bs ∧
      Consistent ⟨bs, p.keyToFreq.erase key⟩ := by
  obtain ⟨bs, hbs, hregular, hpop⟩ := hp.regular.popFromBucket ((hp.inBucket f key).mpr hf)
  refine ⟨bs, hbs, hregular, fun g k => ?_, fun k g hk => ?_⟩
  · show InBucket bs g k ↔ (p.keyToFreq.erase key).get? k = some g
    rw [hpop, hp.inBucket, get?_erase]
    grind
  · rw [get?_erase] at hk
    split_ifs at hk
    exact hp.pos k g hk

/-- **A forced eviction** takes the key out. -/
theorem Consistent.updateOnForceEvict (key : K) :
    (p.updateOnForceEvict key).2.Consistent ∧
      (p.updateOnForceEvict key).2.keyToFreq = p.keyToFreq.erase key := by
  unfold LFUCachePolicy.updateOnForceEvict
  cases hfreq : p.keyToFreq.get? key with
  | none => exact ⟨hp, (erase_of_notMem (get?_eq_none_iff.mp hfreq)).symm⟩
  | some f =>
    obtain ⟨bs, hbs, hpop⟩ := hp.pop hfreq
    simp only [if_neg (hp.pos key f hfreq).ne', hbs, and_true]
    exact hpop

omit hp in
/-- The search for one candidate ends at the first key that is not in the cache, or that can be
evicted. -/
theorem collect_one (cache : Dict K V) (canEvict : V → Bool) {keys : List (ℕ × K)}
    {keyToFreq : Dict K ℕ} (hkeys : ∀ e ∈ keys, e.2 ∈ keyToFreq.keys) :
    (∃ e ∈ keys, cache.get? e.2 = none ∧
        collect cache canEvict 1 keys [] keyToFreq = (.error (.key e.2), keyToFreq)) ∨
      collect cache canEvict 1 keys [] keyToFreq = (.ok [], keyToFreq) ∨
      ∃ e ∈ keys,
        collect cache canEvict 1 keys [] keyToFreq = (.ok [e], keyToFreq.erase e.2) := by
  induction keys with
  | nil => exact Or.inr (Or.inl rfl)
  | cons e keys ih =>
    obtain ⟨freq, key⟩ := e
    rw [collect]
    cases hv : cache.get? key with
    | none => exact Or.inl ⟨(freq, key), mem_cons_self, hv, rfl⟩
    | some v =>
      dsimp only
      by_cases hevict : canEvict v
      · rw [if_pos hevict, if_pos (hkeys _ mem_cons_self)]
        exact Or.inr (Or.inr ⟨(freq, key), mem_cons_self, rfl⟩)
      · grind

/-- **One candidate** is asked for: a counted key that is not in the cache raises, no key can be
evicted, or one key is taken out. -/
theorem Consistent.getEvictCandidates_one (cache : Dict K V) (canEvict : V → Bool) :
    (∃ k ∈ p.keyToFreq.keys, k ∉ cache.keys ∧
        p.getEvictCandidates cache canEvict 1 = (.error (.key k), p)) ∨
      p.getEvictCandidates cache canEvict 1 = (.ok [], p) ∨
      ∃ key p', p.getEvictCandidates cache canEvict 1 = (.ok [key], p') ∧ p'.Consistent ∧
        p'.keyToFreq = p.keyToFreq.erase key := by
  have hcounted : ∀ e ∈ p.freqToKeys.flatMap fun b => b.2.map fun k => (b.1, k),
      e.2 ∈ p.keyToFreq.keys := by
    rintro ⟨f, k⟩ he
    by_contra hnot
    have := hp.get?_of_mem he
    grind
  unfold getEvictCandidates
  rcases collect_one cache canEvict hcounted with
    ⟨e, he, hnone, heq⟩ | heq | ⟨e, he, heq⟩
  · refine Or.inl ⟨e.2, hcounted e he, get?_eq_none_iff.mp hnone, ?_⟩
    simp [heq]
  · refine Or.inr (Or.inl ?_)
    simp [heq, popAll]
  · obtain ⟨bs, hbs, hpop⟩ := hp.pop (hp.get?_of_mem he)
    refine Or.inr (Or.inr ⟨e.2, ⟨bs, p.keyToFreq.erase e.2⟩, ?_, hpop, rfl⟩)
    obtain ⟨f, k⟩ := e
    simp [heq, popAll, hbs]

end LFUCachePolicy

/-! ### All policies -/

namespace CachePolicy

def counted : CachePolicy K → List K
  | .lfu p => p.keyToFreq.keys
  | _ => []

def Consistent : CachePolicy K → Prop
  | .lfu p => p.Consistent
  | _ => True

variable {p : CachePolicy K}

theorem Consistent.updateOnPut (hp : p.Consistent) {key : K} (hkey : key ∉ p.counted) :
    (p.updateOnPut key).Consistent ∧
      ∀ k ∈ (p.updateOnPut key).counted, k = key ∨ k ∈ p.counted := by
  cases p with
  | lfu q =>
    refine ⟨LFUCachePolicy.Consistent.updateOnPut hp hkey, fun k hk => ?_⟩
    exact mem_keys_set.mp hk
  | _ => exact ⟨trivial, nofun⟩

theorem Consistent.updateOnHit (hp : p.Consistent) {key : K} {cache : Dict K V}
    {r : CachePolicy K × Dict K V} (h : p.updateOnHit key cache = .ok r) :
    r.1.Consistent ∧ ∀ k ∈ r.1.counted, k ∈ p.counted := by
  obtain ⟨q, q', rfl, hok, rfl⟩ | ⟨hpolicy, -⟩ := updateOnHit_cases h
  · rcases LFUCachePolicy.Consistent.updateOnHit hp key with
      ⟨-, heq⟩ | ⟨f, q'', hf, heq, hq, htable⟩
    · cases heq.symm.trans hok
    · obtain rfl := Except.ok.inj (heq.symm.trans hok)
      refine ⟨hq, fun k hk => ?_⟩
      have hk : k ∈ q''.keyToFreq.keys := hk
      rw [htable, mem_keys_set] at hk
      exact hk.elim (fun heq => heq ▸ mem_keys_iff.mpr ⟨f, hf⟩) id
  · rw [hpolicy]
    exact ⟨hp, fun k hk => hk⟩

theorem Consistent.updateOnForceEvict (hp : p.Consistent) (key : K) :
    (p.updateOnForceEvict key).2.Consistent ∧
      ∀ k ∈ (p.updateOnForceEvict key).2.counted, k ≠ key ∧ k ∈ p.counted := by
  cases p with
  | lfu q =>
    obtain ⟨hq, htable⟩ := LFUCachePolicy.Consistent.updateOnForceEvict hp key
    refine ⟨hq, fun k hk => ?_⟩
    have hk : k ∈ (q.updateOnForceEvict key).2.keyToFreq.keys := hk
    rwa [htable, mem_keys_erase] at hk
  | _ => exact ⟨trivial, nofun⟩

/-- **One candidate** is asked for: it is no longer counted, and only a counted key that is not in
the cache raises. -/
theorem Consistent.getEvictCandidates_one (hp : p.Consistent) (cache : Dict K V)
    (canEvict : V → Bool) :
    (p.getEvictCandidates cache canEvict 1).2.Consistent ∧
      (∀ k ∈ (p.getEvictCandidates cache canEvict 1).2.counted, k ∈ p.counted ∧
        ∀ key, (p.getEvictCandidates cache canEvict 1).1 = .ok [key] → k ≠ key) ∧
      ∀ e, (p.getEvictCandidates cache canEvict 1).1 = .error e →
        ∃ k ∈ p.counted, k ∉ cache.keys ∧ e = .key k := by
  cases p with
  | lfu q =>
    show LFUCachePolicy.Consistent (q.getEvictCandidates cache canEvict 1).2 ∧
      (∀ k ∈ (q.getEvictCandidates cache canEvict 1).2.keyToFreq.keys, _ ∧
        ∀ key, (q.getEvictCandidates cache canEvict 1).1 = .ok [key] → k ≠ key) ∧
      ∀ e, (q.getEvictCandidates cache canEvict 1).1 = .error e → _
    rcases LFUCachePolicy.Consistent.getEvictCandidates_one hp cache canEvict with
      ⟨k, hk, hnot, heq⟩ | heq | ⟨key, q', heq, hq, htable⟩
    · rw [heq]
      refine ⟨hp, fun k hk => ⟨hk, nofun⟩, fun e he => ⟨k, hk, hnot, ?_⟩⟩
      exact (Except.error.inj he).symm
    · rw [heq]
      exact ⟨hp, fun k hk => ⟨hk, nofun⟩, nofun⟩
    · rw [heq]
      refine ⟨hq, fun k hk => ?_, nofun⟩
      rw [htable, mem_keys_erase] at hk
      refine ⟨hk.2, fun key' heq' => ?_⟩
      grind
  | _ => exact ⟨trivial, nofun, nofun⟩

end CachePolicy

end LMCache.Local
