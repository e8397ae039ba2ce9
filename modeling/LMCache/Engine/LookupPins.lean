import LMCache.Engine.ProbedPins

/-! # The books of the lookups

The record under an id need not have all pins taken under it.  With whole chunks, a second lookup
under an id replaces the record of the first one; layer-wise, the last chunk that is probed may be
pinned in part, or in several locations, and is then not recorded.

`Books c s owed` keeps count: the pin counts are the numbers of outstanding pins (`Balanced`), and
`owed` are the pins taken under an id that its record does not have.  `books_lookupLayers` and
`books_lookupChunks` say what a lookup leaves owed. -/

namespace LMCache.LookupState

open List LookupState Dict

variable {H : Type} [DecidableEq H] {c : LookupConfig H} {s s' : LookupState H}

/-- The pin counts of every backend are the numbers of outstanding pins. -/
def Balanced (c : LookupConfig H) (s : LookupState H) : Prop :=
  ∀ b ∈ c.storageBackends, ∀ key, s.pinCount b.name key = pinsOf s.outstanding b.name key

/-- The books of the engine, with what is owed to the records. -/
structure Books (c : LookupConfig H) (s : LookupState H)
    (owed : String → String → CacheEngineKey H → ℕ) : Prop where
  balanced : Balanced c s
  record : ∀ id location key, c.takes location = true →
    s.outstanding.count (some id, location, key) =
      (s.record id location).count key + owed id location key
  held : ∀ id, ∀ b ∈ c.storageBackends, ∀ k ∈ s.record id b.name, b.holds k = true
  counted : ∀ p ∈ s.outstanding, c.takes p.2.1 = true ∧ c.counting p.2.1

abbrev Settled (c : LookupConfig H) (s : LookupState H) : Prop := Books c s fun _ _ _ => 0

def owing (id : String) (mapping : BlockMapping H) (id' location : String)
    (key : CacheEngineKey H) : ℕ :=
  if id' = id then mappedPins mapping location key else 0

theorem settled_iff {owed : String → String → CacheEngineKey H → ℕ} (h : Books c s owed) :
    Settled c s ↔ ∀ id location key, c.takes location = true → owed id location key = 0 := by
  constructor
  · intro hs id location key ht
    have h₁ := h.record id location key ht
    have h₂ := hs.record id location key ht
    omega
  · intro hzero
    refine { h with record := fun id location key ht => ?_ }
    rw [h.record id location key ht, hzero id location key ht]

/-! ### Recording -/

theorem books_pinned {id : String} {mapping : BlockMapping H} (h : Settled c s)
    (hp : Pinned c (some id) mapping s s') (hc : Counting c mapping) :
    Books c s' (owing id mapping) where
  balanced := fun b hb key => by
    rw [hp.pinCount hc, hp.outstanding, pinsOf_append,
      pinsOf_eq_count (fun p hp => (owner_of_mem_taken hp).1), count_taken, h.balanced b hb]
    by_cases ht : c.takes b.name = true <;> simp [ht]
  record := fun id' location key ht => by
    rw [hp.outstanding, count_append, count_taken, h.record id' location key ht, owing]
    simp only [record, hp.lookupPins, ht, Option.some.injEq, and_true, Nat.add_zero]
  held := fun id' b hb k hk => by
    simp only [record, hp.lookupPins] at hk
    exact h.held id' b hb k hk
  counted := fun p hmem => by
    rw [hp.outstanding, mem_append] at hmem
    rcases hmem with hmem | hmem
    · exact h.counted p hmem
    · obtain ⟨-, ht, e, he, heq⟩ := owner_of_mem_taken hmem
      exact ⟨ht, heq ▸ hc e he⟩

omit [DecidableEq H] in
theorem record_extendPins (id id' location location' : String) (keys : List (CacheEngineKey H)) :
    (s.extendPins id location keys).record id' location' =
      s.record id' location' ++ if id' = id ∧ location' = location then keys else [] := by
  unfold record extendPins
  by_cases hid : id' = id
  · subst hid
    by_cases hl : location' = location
    · subst hl
      cases s.lookupPins.get? id' <;> simp
    · cases s.lookupPins.get? id' <;> simp [hl]
  · simp [hid]

theorem books_extendPins {id : String} {b : PinBackend H} {keys : List (CacheEngineKey H)}
    (h : Books c s (owing id [(b.name, keys)])) (hb : b ∈ c.storageBackends)
    (hheld : ∀ k ∈ keys, b.holds k = true) : Settled c (s.extendPins id b.name keys) where
  balanced := h.balanced
  record := fun id' location key ht => by
    change s.outstanding.count _ = _
    rw [h.record id' location key ht, record_extendPins, count_append, owing]
    by_cases hid : id' = id
    · by_cases hl : location = b.name
      · simp [hid, hl, mappedPins]
      · simp [hid, hl, Ne.symm hl, mappedPins]
    · simp [hid]
  held := fun id' b' hb' k hk => by
    rw [record_extendPins, mem_append] at hk
    rcases hk with hk | hk
    · exact h.held id' b' hb' k hk
    · split_ifs at hk with heq
      · rw [LookupConfig.eq_of_name hb' hb heq.2]
        exact hheld k hk
      · exact absurd hk not_mem_nil
  counted := h.counted

theorem mappedPins_entries (d : Dict String (List (CacheEngineKey H))) (location : String)
    (key : CacheEngineKey H) :
    mappedPins d.entries location key = ((d.get? location).getD []).count key := by
  obtain ⟨entries, hnodup⟩ := d
  unfold Dict.get?
  induction entries with
  | nil => simp [mappedPins]
  | cons e entries ih =>
    obtain ⟨hnot, hrest⟩ := nodup_cons.mp hnodup
    obtain ⟨n, ks⟩ := e
    rw [mappedPins_cons, ih hrest, lookup_cons]
    by_cases hl : n = location
    · subst hl
      have hnone : entries.lookup n = none := by
        grind
      simp [hnone]
    · simp [hl, beq_eq_false_iff_ne.mpr (Ne.symm hl)]

theorem books_replace {id : String} {mapping : BlockMapping H} (h : Books c s (owing id mapping))
    (hnodup : (mapping.map Prod.fst).Nodup)
    (hheld : ∀ e ∈ mapping, ∀ b ∈ c.storageBackends, b.name = e.1 → ∀ k ∈ e.2, b.holds k = true) :
    Books c { s with lookupPins := s.lookupPins.set id (Dict.ofList mapping) }
      fun id' location key => if id' = id then (s.record id location).count key else 0 where
  balanced := h.balanced
  record := fun id' location key ht => by
    change s.outstanding.count _ = _
    rw [h.record id' location key ht, owing, record, record, get?_set]
    by_cases hid : id' = id
    · subst hid
      have hnew := mappedPins_entries (Dict.ofList mapping) location key
      rw [entries_ofList hnodup] at hnew
      simp only [if_true, Option.bind_some, ← hnew, record]
      exact Nat.add_comm _ _
    · simp [hid]
  held := fun id' b hb k hk => by
    rw [record, get?_set] at hk
    split_ifs at hk with hid
    · rw [Option.bind_some] at hk
      cases hget : (Dict.ofList mapping).get? b.name with
      | none => simp [hget] at hk
      | some ks =>
        rw [hget, Option.getD_some] at hk
        rw [get?_eq_some_iff, entries_ofList hnodup] at hget
        exact hheld _ hget b hb rfl k hk
    · exact h.held id' b hb k hk
  counted := h.counted

/-! ### Lookups -/

/-- The mappings of the chunks that a layer-wise lookup probes. -/
def probed (c : LookupConfig H) (active : List (PinBackend H)) :
    List (ChunkInfo (CacheEngineKey H)) → List (BlockMapping H)
  | [] => []
  | chunk :: chunks =>
    let mapping := blockMapping active (chunk.key.splitLayers c.numLayers)
    if isFullHit c mapping then mapping :: probed c active chunks else [mapping]

/-- The mapping of the chunk at which a layer-wise lookup stops. -/
def stopMapping (c : LookupConfig H) (active : List (PinBackend H)) :
    List (ChunkInfo (CacheEngineKey H)) → BlockMapping H
  | [] => []
  | chunk :: chunks =>
    let mapping := blockMapping active (chunk.key.splitLayers c.numLayers)
    if isFullHit c mapping then stopMapping c active chunks else mapping

omit [DecidableEq H] in
theorem prefix_of_blockMapping {bs : List (PinBackend H)} {keys : List (CacheEngineKey H)}
    {e : String × List (CacheEngineKey H)} {rest : BlockMapping H}
    (h : blockMapping bs keys = e :: rest) : e.2 <+: keys := by
  induction bs with
  | nil => exact absurd h nofun
  | cons b bs ih =>
    rw [blockMapping] at h
    grind

omit [DecidableEq H] in
theorem blockMapping_of_isFullHit {bs : List (PinBackend H)} {key : CacheEngineKey H}
    (h : isFullHit c (blockMapping bs (key.splitLayers c.numLayers)) = true) :
    ∃ b ∈ bs, blockMapping bs (key.splitLayers c.numLayers) =
        [(b.name, key.splitLayers c.numLayers)] ∧
      ∀ k ∈ key.splitLayers c.numLayers, b.holds k = true := by
  rw [isFullHit, Bool.and_eq_true, beq_iff_eq, beq_iff_eq] at h
  obtain ⟨e, he⟩ := length_eq_one_iff.mp h.2
  have hlen : e.2.length = (key.splitLayers c.numLayers).length := by
    have hhits := h.1
    rw [he] at hhits
    simpa [hitChunks, CacheEngineKey.splitLayers] using hhits
  have hall : e.2 = key.splitLayers c.numLayers :=
    (prefix_of_blockMapping he).eq_of_length hlen
  obtain ⟨-, b, hb, hname, hheld⟩ :=
    mem_blockMapping (show e ∈ blockMapping bs (key.splitLayers c.numLayers) by simp [he])
  exact ⟨b, hb, by rw [he, hname, ← hall], hall ▸ hheld⟩

theorem books_lookupLayers {active : List (PinBackend H)}
    (hactive : ∀ b ∈ active, b ∈ c.storageBackends) (id : String)
    (chunks : List (ChunkInfo (CacheEngineKey H))) (res : ℕ) {s : LookupState H} (h : Settled c s)
    (hc : ∀ mapping ∈ probed c active chunks, Counting c mapping) :
    Books c (lookupLayers c active (some id) true chunks res s).2
      (owing id (stopMapping c active chunks)) := by
  induction chunks generalizing res s with
  | nil =>
    rw [show owing id (stopMapping c active []) = fun _ _ _ => 0 by
      funext id' location key
      simp [owing, stopMapping, mappedPins]]
    exact h
  | cons chunk chunks ih =>
    have hfst := batchedContains_fst (some id) true active
      (chunk.key.splitLayers c.numLayers) s
    have hpin := pinned_batchedContains hactive (some id)
      (chunk.key.splitLayers c.numLayers) s
    rw [lookupLayers, stopMapping]
    rw [probed] at hc
    rw [hfst]
    cases hfull : isFullHit c (blockMapping active (chunk.key.splitLayers c.numLayers)) with
    | false =>
      simp only [hfull, Bool.false_eq_true, if_false] at hc ⊢
      exact books_pinned h hpin (hc _ mem_cons_self)
    | true =>
      simp only [hfull, if_true] at hc ⊢
      obtain ⟨b, hb, heq, hheld⟩ := blockMapping_of_isFullHit hfull
      have hbooks := books_pinned h hpin (hc _ mem_cons_self)
      rw [heq] at hbooks ⊢
      exact ih chunk.stop (books_extendPins hbooks (hactive b hb) hheld) (forall_mem_cons.mp hc).2

theorem books_lookupChunks {active : List (PinBackend H)}
    (hactive : active.Sublist c.storageBackends) (id : String)
    (chunks : List (ChunkInfo (CacheEngineKey H))) (h : Settled c s)
    (hc : Counting c (blockMapping active (chunks.map ChunkInfo.key))) :
    Books c (lookupChunks active (some id) true chunks s).2 fun id' location key =>
      if blockMapping active (chunks.map ChunkInfo.key) ≠ [] ∧ id' = id then
        (s.record id location).count key else 0 := by
  have hfst := batchedContains_fst (some id) true active (chunks.map ChunkInfo.key) s
  have hpin := pinned_batchedContains (fun b hb => hactive.subset hb) (some id)
    (chunks.map ChunkInfo.key) s
  have hbooks := books_pinned h hpin hc
  rw [lookupChunks]
  rw [hfst]
  cases hm : blockMapping active (chunks.map ChunkInfo.key) with
  | nil =>
    simp only [isEmpty_nil, Bool.not_true, Bool.and_false, Bool.false_eq_true, if_false,
      ne_eq, not_true_eq_false, false_and]
    rw [hm] at hbooks
    exact (settled_iff hbooks).mpr fun id' location key _ => by simp [owing, mappedPins]
  | cons e rest =>
    have hnodup : ((blockMapping active (chunks.map ChunkInfo.key)).map Prod.fst).Nodup :=
      c.names_nodup.sublist ((sublist_blockMapping _ _).trans (hactive.map _))
    have hreplace := books_replace hbooks hnodup fun e he b hb hname k hk => by
      obtain ⟨-, b', hb', hname', hheld⟩ := mem_blockMapping he
      rw [LookupConfig.eq_of_name hb (hactive.subset hb') (hname.trans hname'.symm)]
      exact hheld k hk
    have hrecord : ∀ location,
        (batchedContains (some id) true active (chunks.map ChunkInfo.key) s).2.record id location =
          s.record id location := fun location => by
      rw [record, record, hpin.lookupPins]
    grind

omit [DecidableEq H] in
theorem activeBackends_sublist (s : LookupState H) (searchRange : List String) :
    (s.activeBackends c searchRange).Sublist c.storageBackends :=
  filter_sublist

end LMCache.LookupState
