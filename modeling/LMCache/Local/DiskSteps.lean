import LMCache.Local.DiskBackend

/-! # What the sections of the disk backend do

* `Looks`: a section that looks chunks up pins and unpins entries and tells the policy of hits.
* `evictRound_cases`: the policy raises or has no candidate, or one entry is evicted; its file may
  be missing, which ends the put.
* `makeRoom_eq`: the loop that makes room ends, and `makeRoom` is what the source computes.
* `makeRoom_rule`: what every eviction keeps, holds where the loop ends. -/

namespace LMCache.Local.LocalDiskBackend

variable {H : Type} [DecidableEq H] {b b' : LocalDiskBackend H} {key : CacheEngineKey H}

/-! ### Hits -/

/-- **A hit** changes the policy and the order of the entries. -/
theorem hit_spec (b : LocalDiskBackend H) (key : CacheEngineKey H) :
    ∃ cachePolicy dict, (b.hit key).2 = { b with cachePolicy, dict } ∧
      dict.entries.Perm b.dict.entries ∧
      ((cachePolicy = b.cachePolicy ∧ dict = b.dict) ∨
        b.cachePolicy.updateOnHit key b.dict = .ok (cachePolicy, dict)) := by
  unfold hit
  cases hhit : b.cachePolicy.updateOnHit key b.dict with
  | error e => exact ⟨_, _, rfl, List.Perm.refl _, Or.inl ⟨rfl, rfl⟩⟩
  | ok r => exact ⟨r.1, r.2, rfl, CachePolicy.perm_updateOnHit hhit, Or.inr rfl⟩

omit [DecidableEq H] in
theorem keys_of_perm {d d' : Dict (CacheEngineKey H) DiskMetadata}
    (h : d'.entries.Perm d.entries) (k : CacheEngineKey H) : k ∈ d'.keys ↔ k ∈ d.keys :=
  (h.map Prod.fst).mem_iff

theorem mem_keys_modify {d : Dict (CacheEngineKey H) DiskMetadata}
    {f : DiskMetadata → DiskMetadata} (k : CacheEngineKey H) :
    k ∈ (d.modify key f).keys ↔ k ∈ d.keys := by
  have hmap : (d.modify key f).keys = d.keys :=
    Dict.map_entries_modify (g := Prod.fst) fun _ => rfl
  rw [hmap]

theorem mem_keys_hit (b : LocalDiskBackend H) (key k : CacheEngineKey H) :
    k ∈ (b.hit key).2.dict.keys ↔ k ∈ b.dict.keys := by
  obtain ⟨cachePolicy, dict, heq, hperm, -⟩ := b.hit_spec key
  rw [heq]
  exact keys_of_perm hperm k

/-! ### Lookups -/

/-- From `b` to `b'` entries were pinned, unpinned and hit. -/
inductive Looks (b : LocalDiskBackend H) : LocalDiskBackend H → Prop
  | refl : Looks b b
  | pin {b' : LocalDiskBackend H} (key : CacheEngineKey H) (h : Looks b b') :
      Looks b { b' with dict := b'.dict.modify key .pin }
  | unpin {b' : LocalDiskBackend H} (key : CacheEngineKey H) (h : Looks b b') :
      Looks b { b' with dict := b'.dict.modify key .unpin }
  | hit {b' : LocalDiskBackend H} (key : CacheEngineKey H) (h : Looks b b') :
      Looks b (b'.hit key).2
  | fields {b' : LocalDiskBackend H} (keysInRequest : List (CacheEngineKey H)) (locked : Bool)
      (h : Looks b b') : Looks b { b' with keysInRequest, locked }

theorem Looks.trans {b₁ b₂ b₃ : LocalDiskBackend H} (h : Looks b₁ b₂) (h' : Looks b₂ b₃) :
    Looks b₁ b₃ := by
  induction h' with
  | refl => exact h
  | pin key _ ih => exact ih.pin key
  | unpin key _ ih => exact ih.unpin key
  | hit key _ ih => exact ih.hit key
  | fields keysInRequest locked _ ih => exact ih.fields keysInRequest locked

/-- Lookups neither enter nor drop a key, and send nothing. -/
theorem Looks.keys (h : Looks b b') :
    (∀ k, k ∈ b'.dict.keys ↔ k ∈ b.dict.keys) ∧ b'.ops = b.ops := by
  induction h with
  | refl => exact ⟨fun _ => Iff.rfl, rfl⟩
  | pin key _ ih | unpin key _ ih => exact ⟨fun k => (mem_keys_modify k).trans (ih.1 k), ih.2⟩
  | hit key _ ih =>
    rename_i b₁ _
    obtain ⟨cachePolicy, dict, heq, -⟩ := b₁.hit_spec key
    refine ⟨fun k => (b₁.mem_keys_hit key k).trans (ih.1 k), ?_⟩
    rw [heq]
    exact ih.2
  | fields keysInRequest locked _ ih => exact ih

section
variable (b : LocalDiskBackend H)

theorem looks_contains (key : CacheEngineKey H) (pin : Bool) : Looks b (b.contains key pin).2 := by
  unfold contains
  split_ifs
  · exact (Looks.refl.pin key).fields (b.keysInRequest ++ [key]) b.locked
  all_goals exact .refl

theorem looks_batchedAsyncContains (pin : Bool)
    (keys : List (CacheEngineKey H)) : Looks b (b.batchedAsyncContains pin keys).2 := by
  fun_induction b.batchedAsyncContains pin keys with
  | case1 | case3 => exact .refl
  | case2 b key keys _ _ _ ih => exact (looks_contains b key pin).trans ih

theorem looks_touchAll (keys : List (CacheEngineKey H)) : Looks b (b.touchAll keys).2 := by
  fun_induction touchAll b keys
  case case1 => exact .refl
  case case2 hr => exact hr ▸ Looks.refl.hit _
  case case3 hr ih => exact (hr ▸ Looks.refl.hit _).trans ih

theorem looks_touchCache : Looks b b.touchCache.2 := by
  have htouch := looks_touchAll b b.keysInRequest.reverse
  fun_cases touchCache b <;> rename_i hr <;> rw [hr] at htouch
  · exact htouch
  · exact htouch.fields [] _

section
variable (key : CacheEngineKey H)

theorem looks_pin : Looks b (b.pin key).2 := by
  unfold pin
  split_ifs
  · exact Looks.refl.pin key
  · exact .refl

theorem looks_unpin : Looks b (b.unpin key).2 := by
  unfold unpin
  split_ifs
  · exact Looks.refl.unpin key
  · exact .refl

theorem looks_getSection : Looks b (b.getSection key).2 := by
  have hhit : Looks b (b.hit key).2 := Looks.refl.hit key
  fun_cases getSection b key
  · exact .refl
  all_goals
    rename_i hr
    rw [hr] at hhit
  · exact hhit.fields _ true
  · exact hhit

theorem looks_prefetchSection (allocated : Bool) : Looks b (b.prefetchSection key allocated).2 := by
  have hhit : Looks b (hit { b with dict := b.dict.modify key .pin } key).2 :=
    (Looks.refl.pin key).hit key
  fun_cases prefetchSection b key allocated
  case case2 hr =>
    rw [hr] at hhit
    exact hhit.fields _ true
  case case3 hr =>
    rw [hr] at hhit
    exact hhit
  all_goals exact Looks.refl.fields _ true

theorem looks_prefetchLoaded : Looks b (b.prefetchLoaded key).2 := by
  unfold prefetchLoaded
  split_ifs
  · exact Looks.refl.unpin key
  · exact Looks.refl.fields b.keysInRequest true

end

end

/-! ### Evictions -/

/-- The backend when the entry of `key` is on its way out: it is not counted and not in the
dictionary. -/
def dropped (b : LocalDiskBackend H) (key : CacheEngineKey H) (m : DiskMetadata) :
    LocalDiskBackend H :=
  { b with
    currentCacheSize := b.currentCacheSize - m.size
    dict := b.dict.erase key }

/-- The file of an entry is removed, and the controller is told. -/
def evicted (b : LocalDiskBackend H) (key : CacheEngineKey H) (m : DiskMetadata) :
    LocalDiskBackend H :=
  { b with
    files := b.files.erase m.path
    ops := b.ops ++ [(.evictKey, key.chunkHash)] }

theorem remove_candidate {m : DiskMetadata} (hm : b.dict.get? key = some m) :
    b.remove key false =
      if m.path ∈ b.files then (.ok true, evicted { b with dict := b.dict.erase key } key m)
      else (.error (.fileNotFound m.path), { b with dict := b.dict.erase key }) := by
  unfold remove
  rw [hm]
  by_cases hpath : m.path ∈ b.files
  · simp [hpath, evicted]
  · simp [hpath]

/-- **One round** of the loop that makes room. -/
theorem evictRound_cases (b : LocalDiskBackend H) :
    (∃ e, b.evictKeys = .error e ∧ b.evictRound = .inl (.error (.policy e), b.asked)) ∨
    (b.evictKeys = .ok [] ∧ b.evictRound = .inl (.ok false, b.asked)) ∨
    ∃ key m, b.evictKeys = .ok [key] ∧ b.dict.get? key = some m ∧ m.canEvict = true ∧
      b.evictRound =
        if m.path ∈ b.files then .inr ((b.asked.dropped key m).evicted key m)
        else .inl (.error (.fileNotFound m.path), b.asked.dropped key m) := by
  unfold evictRound
  rcases b.cachePolicy.getEvictCandidates_one b.dict DiskMetadata.canEvict with
    ⟨e, he⟩ | hnone | ⟨key, m, hkey, hm, hcan⟩
  · refine Or.inl ⟨e, he, ?_⟩
    rw [show b.evictKeys = .error e from he]
  · refine Or.inr (Or.inl ⟨hnone, ?_⟩)
    rw [show b.evictKeys = .ok [] from hnone]
  · refine Or.inr (Or.inr ⟨key, m, hkey, hm, hcan, ?_⟩)
    rw [show b.evictKeys = .ok [key] from hkey]
    have hm' : b.asked.dict.get? key = some m := hm
    have hlower : b.asked.lowerAll [key] =
        (none, { b.asked with currentCacheSize := b.asked.currentCacheSize - m.size }) := by
      rw [lowerAll, hm']
      rfl
    dsimp only
    rw [hlower]
    dsimp only [batchedRemove]
    rw [remove_candidate (b := { b.asked with
      currentCacheSize := b.asked.currentCacheSize - m.size }) hm']
    by_cases hpath : m.path ∈ b.files
    · rw [if_pos hpath, if_pos (show m.path ∈ b.asked.files from hpath)]
      rfl
    · rw [if_neg hpath, if_neg (show m.path ∉ b.asked.files from hpath)]
      rfl

theorem length_evictRound (h : b.evictRound = .inr b') :
    b'.dict.entries.length < b.dict.entries.length := by
  rcases b.evictRound_cases with ⟨e, -, heq⟩ | ⟨-, heq⟩ | ⟨key, m, -, hm, -, heq⟩
  · cases heq.symm.trans h
  · cases heq.symm.trans h
  · rw [heq] at h
    split_ifs at h
    cases h
    rw [(Dict.perm_erase hm).length_eq, List.length_cons]
    exact Nat.lt_succ_self _

theorem makeRoomLoop_of_lt {requiredSize n n' : ℕ} (h : b.dict.entries.length < n)
    (h' : b.dict.entries.length < n') :
    makeRoomLoop requiredSize n b = makeRoomLoop requiredSize n' b := by
  induction n generalizing b n' with
  | zero => exact absurd h (Nat.not_lt_zero _)
  | succ n ih =>
    obtain ⟨n', rfl⟩ := Nat.exists_eq_succ_of_ne_zero (Nat.ne_zero_of_lt h')
    rw [makeRoomLoop, makeRoomLoop]
    split_ifs
    · rcases hr : b.evictRound with r | b₁
      · rfl
      · have hlt := length_evictRound hr
        exact ih (by omega) (by omega)
    · rfl

/-- **The loop ends**: `makeRoom` is what the source computes round by round. -/
theorem makeRoom_eq (b : LocalDiskBackend H) (requiredSize : ℕ) :
    b.makeRoom requiredSize =
      if b.currentCacheSize + requiredSize > b.maxCacheSize then
        match b.evictRound with
        | .inl r => r
        | .inr b => b.makeRoom requiredSize
      else (.ok true, b) := by
  rw [makeRoom, makeRoomLoop]
  split_ifs
  · rcases hr : b.evictRound with r | b₁
    · rfl
    · exact makeRoomLoop_of_lt (length_evictRound hr) (Nat.lt_succ_self _)
  · rfl

/-- **Rule for the loop**: what every eviction keeps, holds where the loop ends. -/
theorem makeRoom_rule {I : LocalDiskBackend H → Prop}
    {P : Except (DiskError H) Bool × LocalDiskBackend H → Prop} (requiredSize : ℕ)
    (hroom : ∀ b, I b → b.currentCacheSize + requiredSize ≤ b.maxCacheSize → P (.ok true, b))
    (hraise : ∀ b e, I b → b.evictKeys = .error e → P (.error (.policy e), b.asked))
    (hnone : ∀ b, I b → b.evictKeys = .ok [] → P (.ok false, b.asked))
    (hmissing : ∀ b key m, I b → b.evictKeys = .ok [key] → b.dict.get? key = some m →
      P (.error (.fileNotFound m.path), b.asked.dropped key m))
    (hevict : ∀ b key m, I b → b.evictKeys = .ok [key] → b.dict.get? key = some m →
      I ((b.asked.dropped key m).evicted key m)) (h : I b) : P (b.makeRoom requiredSize) := by
  generalize hn : b.dict.entries.length = n
  induction n using Nat.strong_induction_on generalizing b with
  | _ n ih =>
    rw [makeRoom_eq]
    by_cases hgt : b.currentCacheSize + requiredSize > b.maxCacheSize
    · rw [if_pos hgt]
      rcases b.evictRound_cases with ⟨e, he, heq⟩ | ⟨hno, heq⟩ | ⟨key, m, hkey, hm, -, heq⟩
      · rw [heq]
        exact hraise b e h he
      · rw [heq]
        exact hnone b h hno
      · by_cases hpath : m.path ∈ b.files
        · rw [if_pos hpath] at heq
          rw [heq]
          exact ih _ (hn ▸ length_evictRound heq) (hevict b key m h hkey hm) rfl
        · grind
    · grind

theorem makeRoom_ok (b : LocalDiskBackend H) (requiredSize : ℕ)
    (h : (b.makeRoom requiredSize).1 = .ok true) :
    (b.makeRoom requiredSize).2.currentCacheSize + requiredSize ≤
      (b.makeRoom requiredSize).2.maxCacheSize := by
  revert h
  refine makeRoom_rule (I := fun _ => True) (P := fun r => r.1 = .ok true →
    r.2.currentCacheSize + requiredSize ≤ r.2.maxCacheSize) requiredSize (fun b _ hle _ => hle)
    (fun _ _ _ _ => nofun) (fun _ _ _ => nofun) (fun _ _ _ _ _ _ => nofun)
    (fun _ _ _ _ _ _ => trivial) trivial

/-! ### Forced removal -/

/-- **A forced removal** of an entry: the policy is told when the file was there. -/
theorem remove_cases {m : DiskMetadata} (hm : b.dict.get? key = some m) :
    ∃ cachePolicy files locked ops, (b.remove key true).2 =
        { b with dict := b.dict.erase key, cachePolicy, files, locked, ops } ∧
      ((cachePolicy = b.cachePolicy ∧ locked = true ∧ ops = b.ops) ∨
        (cachePolicy = (b.cachePolicy.updateOnForceEvict key).2 ∧
          ((locked = true ∧ ops = b.ops) ∨
            (locked = b.locked ∧ ops = b.ops ++ [(.evictKey, key.chunkHash)])))) := by
  fun_cases b.remove key true
  case case1 hnone => cases hm.symm.trans hnone
  case case2 => exact ⟨_, _, _, _, rfl, Or.inr ⟨rfl, Or.inl ⟨rfl, rfl⟩⟩⟩
  case case3 => exact ⟨_, _, _, _, rfl, Or.inr ⟨rfl, Or.inr ⟨rfl, rfl⟩⟩⟩
  case case4 => exact ⟨_, _, _, _, rfl, Or.inl ⟨rfl, Bool.or_true _, rfl⟩⟩

end LMCache.Local.LocalDiskBackend

/-! ### Steps -/

namespace LMCache.Local.DiskState

open LocalDiskBackend

variable {H : Type} [DecidableEq H] {s s' : DiskState H}

/-- A step of lookups and pins, or of a put that is submitted: it waits for the lock, or does not
touch the backend. -/
structure Quiet (s s' : DiskState H) : Prop where
  looks : Looks s.backend s'.backend
  locked : s.backend.locked = true → s'.backend = s.backend
  lost : s'.lost = s.lost
  refCounts : s'.refCounts = s.refCounts
  puts : s'.puts = s.puts ∨ ∃ key obj id, s'.puts = s.puts ++ [⟨key, obj, id, .submitted⟩]

theorem quiet_inSection {b : LocalDiskBackend H} (hlooks : Looks s.backend b)
    (h : s.inSection b = some s') : Quiet s s' := by
  unfold inSection at h
  split_ifs at h with hlocked
  cases h
  exact ⟨hlooks, fun hl => absurd hl hlocked, rfl, rfl, Or.inl rfl⟩

theorem quiet_lookup {key : CacheEngineKey H}
    {r : Except (DiskError H) (Option DiskMetadata) × LocalDiskBackend H}
    (hlooks : Looks s.backend r.2) (h : s.lookup key r = some s') : Quiet s s' := by
  obtain ⟨s₁, hs₁, rfl⟩ := Option.map_eq_some_iff.mp h
  have hquiet := quiet_inSection hlooks hs₁
  split
  · exact { hquiet with }
  · exact hquiet

/-- **What a step can do.** -/
theorem step_cases {e : DiskEvent H} (h : s.step e = some s') :
    Quiet s s' ∨
    (∃ i p, e = .put i ∧ s.puts[i]? = some p ∧ s.putStep i p = some s') ∨
    (∃ i p, e = .writeFails i ∧ s.puts[i]? = some p ∧ p.stage = .scheduled ∧
      s' = { s.setStage i p .ended with lost := s.lost + p.obj.physicalSize }) ∨
    (∃ i r, e = .readMissing i ∧ s.readers[i]? = some r ∧ s' = { s with
      backend := s.backend.readMissing r.key
      readers := s.readers.eraseIdx i
      lost := s.lost + s.sizeOf r.key }) ∨
    (∃ path, e = .vanish path ∧
      s' = { s with backend := { s.backend with files := s.backend.files.erase path } }) ∨
    ∃ key, e = .remove key ∧ s.backend.locked = false ∧
      s' = { s with backend := (s.backend.remove key true).2, lost := s.lost + s.sizeOf key } := by
  cases e with
  | submit key obj id =>
    cases h
    exact Or.inl ⟨.refl, fun _ => rfl, rfl, rfl, Or.inr ⟨key, obj, id, rfl⟩⟩
  | put i =>
    obtain ⟨p, hp, hstep⟩ := Option.bind_eq_some_iff.mp h
    exact Or.inr (Or.inl ⟨i, p, rfl, hp, hstep⟩)
  | writeFails i =>
    obtain ⟨p, hp, hif⟩ := Option.bind_eq_some_iff.mp h
    grind
  | contains key pin => exact Or.inl (quiet_inSection (looks_contains _ key pin) h)
  | batchedAsyncContains keys pin =>
    exact Or.inl (quiet_inSection (looks_batchedAsyncContains _ pin keys) h)
  | touchCache => exact Or.inl (quiet_inSection (looks_touchCache _) h)
  | pin key => exact Or.inl (quiet_inSection (looks_pin _ key) h)
  | unpin key => exact Or.inl (quiet_inSection (looks_unpin _ key) h)
  | get key => exact Or.inl (quiet_lookup (looks_getSection _ key) h)
  | prefetch key allocated =>
    exact Or.inl (quiet_lookup (looks_prefetchSection _ key allocated) h)
  | prefetchLoaded key => exact Or.inl (quiet_inSection (looks_prefetchLoaded _ key) h)
  | openFails i =>
    obtain ⟨r, -, hif⟩ := Option.bind_eq_some_iff.mp h
    split_ifs at hif
    cases hif
    exact Or.inl ⟨.refl, fun _ => rfl, rfl, rfl, Or.inl rfl⟩
  | readMissing i =>
    obtain ⟨r, hr, hif⟩ := Option.bind_eq_some_iff.mp h
    grind
  | vanish path =>
    cases h
    exact Or.inr (Or.inr (Or.inr (Or.inr (Or.inl ⟨path, rfl, rfl⟩))))
  | remove key =>
    obtain ⟨s₁, hs₁, rfl⟩ := Option.map_eq_some_iff.mp h
    unfold inSection at hs₁
    grind

end LMCache.Local.DiskState
