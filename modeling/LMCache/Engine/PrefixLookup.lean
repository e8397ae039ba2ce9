import LMCache.Engine.ProbedPins
import LMCache.Engine.StorageManager

/-! # Prefix lookups over the tiers

`StorageManager.batched_contains` and `get_block_mapping` ask the active backends in their order,
each one for the keys that the ones before it have left.  The first re-slices the keys, the second
has absolute offsets into the chunks; both give the same partition of a prefix of the keys.

A backend counts its pins here, and pins the keys that it finds, as the loop of
`StorageBackendInterface.batched_contains` does.

**Main result**: `prefix_lookup_exact`. -/

namespace LMCache.LookupState

open List ChunkInfo StorageManager PinBackend

variable {H O : Type} [DecidableEq H] {c : LookupConfig H} {bs : List (PinBackend H)}
  {keys : List (CacheEngineKey H)}

omit [DecidableEq H] in
theorem flatMap_blockMapping (bs : List (PinBackend H)) (keys : List (CacheEngineKey H)) :
    (blockMapping bs keys).flatMap Prod.snd = keys.take (hitChunks (blockMapping bs keys)) := by
  have hpre : (blockMapping bs keys).flatMap Prod.snd <+: keys := by
    induction bs generalizing keys with
    | nil => exact nil_prefix
    | cons b bs ih =>
      have hsplit := takeWhile_append_dropWhile (p := b.holds) (l := keys)
      have hdrop := @List.drop_left _ (keys.takeWhile b.holds) (keys.dropWhile b.holds)
      rw [hsplit] at hdrop
      rw [blockMapping]
      split_ifs
      · exact ih keys
      · simpa using takeWhile_prefix b.holds
      · rw [flatMap_cons, hdrop]
        conv_rhs => rw [← hsplit]
        exact (prefix_append_right_inj _).mpr (ih _)
  have hlen : ((blockMapping bs keys).flatMap Prod.snd).length =
      hitChunks (blockMapping bs keys) := by
    rw [length_flatMap, hitChunks]
  rw [← hlen]
  exact prefix_iff_eq_take.mp hpre

/-- The backend as `get_block_mapping` sees it. -/
def asStorage (get : List (CacheEngineKey H) → List (Option O)) (b : PinBackend H) :
    StorageBackend (CacheEngineKey H) O where
  name := b.name
  batchedContains keys := (keys.takeWhile b.holds).length
  batchedGetBlocking := get

omit [DecidableEq H] in
/-- **The same partition**: the loop of `get_block_mapping` from the chunk at `n` on. -/
theorem mapBlocks_eq (get : List (CacheEngineKey H) → List (Option O))
    (infos : List (ChunkInfo (CacheEngineKey H))) (bs : List (PinBackend H)) {n : ℕ}
    (hn : n < infos.length) :
    (mapBlocks infos (bs.map (asStorage get)) ((infos.drop n).map key)
        n).map (fun e => (e.1, e.2.map key)) = blockMapping bs ((infos.drop n).map key) := by
  induction bs generalizing n with
  | nil => rfl
  | cons b bs ih =>
    rw [map_cons, mapBlocks, blockMapping]
    have hhits : (asStorage get b).batchedContains ((infos.drop n).map key) =
        (((infos.drop n).map key).takeWhile b.holds).length := rfl
    rw [hhits]
    have htake := prefix_iff_eq_take.mp <| takeWhile_prefix (l := (infos.drop n).map key) b.holds
    generalize hk : (((infos.drop n).map key).takeWhile b.holds).length = k at htake ⊢
    rw [htake]
    have hle : k ≤ infos.length - n := by
      grind
    by_cases hzero : k = 0
    · rw [if_pos hzero, hzero, take_zero, if_pos rfl, ih hn]
    · have hne : ((infos.drop n).map key).take k ≠ [] := by
        grind
      rw [if_neg hzero, if_neg hne, ← map_drop, drop_drop]
      by_cases hall : n + k = infos.length
      · simp [hall, map_take, asStorage]
      · have hend : (infos.drop (n + k)).map key ≠ [] := by
          rw [ne_eq, map_eq_nil_iff, drop_eq_nil_iff]
          omega
        rw [if_neg hall, if_neg hend, map_cons, ih (by omega), map_take]
        rfl

omit [DecidableEq H] in
theorem mapBlocks_nil {K : Type} (bs : List (StorageBackend K O))
    (h : ∀ b ∈ bs, b.batchedContains [] = 0) (n : ℕ) : mapBlocks [] bs [] n = [] := by
  induction bs with
  | nil => rfl
  | cons b bs ih =>
    rw [mapBlocks, h b mem_cons_self]
    exact ih (forall_mem_cons.mp h).2

omit [DecidableEq H] in
theorem blockMapping_nil (bs : List (PinBackend H)) : blockMapping bs [] = [] := by
  induction bs with
  | nil => rfl
  | cons b bs ih => simpa [blockMapping] using ih

theorem mappedPins_eq (hkeys : keys.Nodup) (location : String) (key : CacheEngineKey H) :
    mappedPins (blockMapping bs keys) location key =
      if ∃ e ∈ blockMapping bs keys, e.1 = location ∧ key ∈ e.2 then 1 else 0 := by
  have hnodup : ((blockMapping bs keys).flatMap Prod.snd).Nodup := by
    rw [flatMap_blockMapping]
    exact hkeys.sublist (take_sublist _ _)
  generalize blockMapping bs keys = mapping at hnodup
  induction mapping with
  | nil => simp [mappedPins]
  | cons e mapping ih =>
    rw [flatMap_cons, nodup_append] at hnodup
    obtain ⟨he, hrest, hapart⟩ := hnodup
    rw [mappedPins_cons, ih hrest]
    by_cases hmem : key ∈ e.2
    · have hnone : ¬ ∃ e' ∈ mapping, e'.1 = location ∧ key ∈ e'.2 := by
        grind
      rw [if_neg hnone, count_eq_one_of_mem he hmem]
      by_cases hl : e.1 = location <;> simp [hl, hmem, hnone]
    · have hiff : (∃ e' ∈ e :: mapping, e'.1 = location ∧ key ∈ e'.2) ↔
          ∃ e' ∈ mapping, e'.1 = location ∧ key ∈ e'.2 := by simp [hmem]
      rw [count_eq_zero_of_not_mem hmem, ite_self, Nat.zero_add]
      simp only [hiff]

/-- **A lookup** finds the leading keys, where a retrieval finds them, and pins each of them
once. -/
theorem prefix_lookup_exact (c : LookupConfig H)
    (hcounts : ∀ b ∈ c.storageBackends, b.name ≠ "PDBackend" → b.counts = true)
    {bs : List (PinBackend H)} (hbs : ∀ b ∈ bs, b ∈ c.storageBackends)
    (owner : Option String) (pin : Bool) {keys : List (CacheEngineKey H)} (hkeys : keys.Nodup)
    (s : LookupState H) :
    let r := batchedContains owner pin bs keys s
    (r.1.flatMap Prod.snd = keys.take (hitChunks r.1) ∧
        (r.1.map Prod.fst).Sublist (bs.map name) ∧
        ∀ e ∈ r.1, ∃ b ∈ bs, b.name = e.1 ∧ ∀ k ∈ e.2, b.holds k = true) ∧
      (∀ (get : List (CacheEngineKey H) → List (Option O))
          (infos : List (ChunkInfo (CacheEngineKey H))), infos.map key = keys →
        (mapBlocks infos (bs.map (asStorage get)) keys 0).map
          (fun e => (e.1, e.2.map key)) = r.1) ∧
      ∀ location key, r.2.pinCount location key = s.pinCount location key +
        if pin = true ∧ location ≠ "PDBackend" ∧ ∃ e ∈ r.1, e.1 = location ∧ key ∈ e.2 then 1
        else 0 := by
  intro r
  have hfst : r.1 = blockMapping bs keys := batchedContains_fst owner pin bs keys s
  rw [hfst]
  refine ⟨⟨flatMap_blockMapping bs keys, sublist_blockMapping bs keys, fun e he =>
    (mem_blockMapping he).2⟩, fun get infos hinfos => ?_, fun location key => ?_⟩
  · subst hinfos
    cases infos with
    | nil => rw [map_nil, blockMapping_nil, mapBlocks_nil, map_nil]; simp [asStorage]
    | cons info infos => exact mapBlocks_eq get (info :: infos) bs (n := 0) (Nat.succ_pos _)
  · cases pin with
    | false =>
      rw [show r.2 = s from batchedContains_unpinned owner bs keys s]
      simp
    | true =>
      have hcounting : Counting c (blockMapping bs keys) := by
        intro e _ b hb _ htakes
        refine hcounts b hb fun hpd => ?_
        simp [takesPins, pinned, hpd] at htakes
      rw [(pinned_batchedContains hbs owner keys s).pinCount hcounting, mappedPins_eq hkeys]
      by_cases hex : ∃ e ∈ blockMapping bs keys, e.1 = location ∧ key ∈ e.2
      · obtain ⟨e, he, rfl, hkey⟩ := hex
        obtain ⟨b, hb, hname, -⟩ := (mem_blockMapping he).2
        have htakes : c.takes e.1 = true ↔ e.1 ≠ "PDBackend" := by
          rw [← hname, LookupConfig.takes_name (hbs b hb), takesPins]
          have hmode : b.name ≠ "PDBackend" → b.mode ≠ .ignored := fun hne hm => by
            simpa [counts, hm] using hcounts b (hbs b hb) hne
          simp [pinned]
          exact fun hne => hmode hne
        have hmapped : ∃ e' ∈ blockMapping bs keys, e'.1 = e.1 ∧ key ∈ e'.2 := ⟨e, he, rfl, hkey⟩
        grind
      · simp [hex]

def hashKey (chunkHash : ℤ) : CacheEngineKey ℤ :=
  { modelName := "m", worldSize := 1, workerId := 0, chunkHash, dtype := ⟨"torch.uint8", 1⟩ }

/-- Chunk 1 is in the memory, chunk 2 on the disk, chunk 3 nowhere. -/
def twoTiers : LookupConfig ℤ where
  storageBackends := [⟨"LocalCPUBackend", .counted, (· = hashKey 1)⟩,
    ⟨"LocalDiskBackend", .signed, (· = hashKey 2)⟩]
  useLayerwise := false
  numLayers := 1
  names_nodup := by decide
  pd_mode := by decide

theorem prefix_lookup_exact_two_tiers :
    let r := batchedContains (some "r") true twoTiers.storageBackends
      [hashKey 1, hashKey 2, hashKey 3] .new
    r.1 = [("LocalCPUBackend", [hashKey 1]), ("LocalDiskBackend", [hashKey 2])] ∧
      r.2.pinCount "LocalDiskBackend" (hashKey 2) = 1 := by
  have h := prefix_lookup_exact (O := Unit) twoTiers (by decide) (fun _ hb => hb) (some "r") true
    (by decide : [hashKey 1, hashKey 2, hashKey 3].Nodup) .new
  refine ⟨by decide +kernel, (h.2.2 "LocalDiskBackend" (hashKey 2)).trans ?_⟩
  decide +kernel

end LMCache.LookupState
