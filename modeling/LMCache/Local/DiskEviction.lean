import LMCache.Local.DiskSteps
import LMCache.Local.LFUBuckets

/-! # Evictions of the disk backend under the LFU policy

The LFU policy goes through its own keys for a candidate and looks each of them up in the
dictionary.  It is told of a key when the put is accepted, and the entry is made when the file has
been written.

* `Covers`: every key that the policy counts is in the dictionary or is expected there.
* `Orderly`: no key is put while it is stored or on its way, every write succeeds, and no entry is
  dropped because its file is missing.  Otherwise the policy keeps a key that nobody will enter.

**Main result**: `lfu_eviction_finds_entries`.  In an orderly run, while no put is between the
policy and the dictionary, every key that the policy goes through is in the dictionary, and an
eviction raises no `KeyError`. -/

namespace LMCache.Local

open List Dict

variable {H : Type} [DecidableEq H]

namespace LocalDiskBackend

variable {b b' : LocalDiskBackend H} {key : CacheEngineKey H} {F : CacheEngineKey H → Prop}

/-! ### Sections -/

/-- The policy counts keys of the dictionary and of `F`. -/
structure Covers (F : CacheEngineKey H → Prop) (b : LocalDiskBackend H) : Prop where
  consistent : b.cachePolicy.Consistent
  known : ∀ k ∈ b.cachePolicy.counted, k ∈ b.dict.keys ∨ F k

variable (h : Covers F b)

include h

theorem Covers.mono {G : CacheEngineKey H → Prop}
    (hG : ∀ k, F k → k ∈ b.dict.keys ∨ G k) : Covers G b :=
  ⟨h.consistent, fun k hk => (h.known k hk).elim Or.inl (hG k)⟩

theorem Covers.hit (key : CacheEngineKey H) : Covers F (b.hit key).2 := by
  have hkeys := b.mem_keys_hit key
  obtain ⟨cachePolicy, dict, heq, -, hpolicy⟩ := b.hit_spec key
  rw [heq] at hkeys ⊢
  rcases hpolicy with ⟨rfl, -⟩ | hhit
  · exact ⟨h.consistent, fun k hk => (h.known k hk).imp_left (hkeys k).mpr⟩
  · obtain ⟨hconsistent, hcounted⟩ := h.consistent.updateOnHit hhit
    exact ⟨hconsistent, fun k hk => (h.known k (hcounted k hk)).imp_left (hkeys k).mpr⟩

/-- **Lookups** neither count a new key nor drop an entry. -/
theorem Covers.looks (hlooks : Looks b b') : Covers F b' := by
  induction hlooks with
  | refl => exact h
  | pin key _ ih | unpin key _ ih =>
    exact ⟨ih.consistent, fun k hk => (ih.known k hk).imp_left (mem_keys_modify k).mpr⟩
  | hit key _ ih => exact ih.hit key
  | fields keysInRequest locked _ ih => exact ⟨ih.consistent, ih.known⟩

theorem Covers.asked : Covers F b.asked := by
  obtain ⟨hconsistent, hcounted, -⟩ :=
    h.consistent.getEvictCandidates_one b.dict DiskMetadata.canEvict
  exact ⟨hconsistent, fun k hk => h.known k (hcounted k hk).1⟩

/-- The candidate is counted no more: its entry can go. -/
theorem Covers.dropped (hkey : b.evictKeys = .ok [key]) (m : DiskMetadata) :
    Covers F (b.asked.dropped key m) := by
  obtain ⟨hconsistent, hcounted, -⟩ :=
    h.consistent.getEvictCandidates_one b.dict DiskMetadata.canEvict
  refine ⟨hconsistent, fun k hk => ?_⟩
  obtain ⟨hk, hne⟩ := hcounted k hk
  exact (h.known k hk).imp_left fun hmem => mem_keys_erase.mpr ⟨hne key hkey, hmem⟩

theorem Covers.evictKeys_error {e : KeyError (CacheEngineKey H)}
    (he : b.evictKeys = .error e) : ∃ k, F k ∧ e = .key k := by
  obtain ⟨-, -, herror⟩ := h.consistent.getEvictCandidates_one b.dict DiskMetadata.canEvict
  obtain ⟨k, hk, hnot, rfl⟩ := herror e he
  exact ⟨k, (h.known k hk).resolve_left hnot, rfl⟩

/-- **The section of a put**: an error is about a missing file or about a key that is expected. -/
theorem Covers.reserve (requiredSize : ℕ) :
    Covers F (b.reserve requiredSize).2 ∧ ∀ e, (b.reserve requiredSize).1 = .error e →
      (∃ path, e = .fileNotFound path) ∨ ∃ k, F k ∧ e = .policy (.key k) := by
  let P (r : Except (DiskError H) Bool × LocalDiskBackend H) : Prop := Covers F r.2 ∧
    ∀ e, r.1 = .error e → (∃ path, e = .fileNotFound path) ∨ ∃ k, F k ∧ e = .policy (.key k)
  have hroom : P (b.makeRoom requiredSize) := by
    refine makeRoom_rule (I := Covers F) (P := P) requiredSize ?_ ?_ ?_ ?_ ?_ h
    · intro b hb _
      exact ⟨hb, nofun⟩
    · intro b e hb he
      obtain ⟨k, hk, rfl⟩ := hb.evictKeys_error he
      exact ⟨hb.asked, fun e he => Or.inr ⟨k, hk, (Except.error.inj he).symm⟩⟩
    · intro b hb _
      exact ⟨hb.asked, nofun⟩
    · intro b key m hb hkey _
      exact ⟨hb.dropped hkey m, fun e he => Or.inl ⟨m.path, (Except.error.inj he).symm⟩⟩
    · intro b key m hb hkey _
      exact ⟨(hb.dropped hkey m).consistent, (hb.dropped hkey m).known⟩
  unfold LocalDiskBackend.reserve
  generalize b.makeRoom requiredSize = r at hroom
  obtain ⟨_ | _ | _, b₁⟩ := r
  · exact hroom
  · exact hroom
  · exact ⟨⟨hroom.1.consistent, hroom.1.known⟩, nofun⟩

omit h in
theorem Covers.insertKey (h : Covers (fun k => k = key ∨ F k) b) (obj : DiskObj) :
    Covers F (b.insertKey key obj).2 := by
  unfold LocalDiskBackend.insertKey
  split_ifs with hkey
  · refine (h.hit key).mono fun k hk => hk.imp_left ?_
    rintro rfl
    exact (b.mem_keys_hit k k).mpr hkey
  · refine ⟨h.consistent, fun k hk => ?_⟩
    rcases h.known k hk with hmem | rfl | hF
    · exact Or.inl (mem_keys_set.mpr (Or.inr hmem))
    · exact Or.inl (mem_keys_set.mpr (Or.inl rfl))
    · exact Or.inr hF

/-- **A forced removal** tells the policy, or raises and keeps the lock. -/
theorem Covers.remove (key : CacheEngineKey H) :
    (b.remove key true).2.locked = true ∨ Covers F (b.remove key true).2 := by
  cases hm : b.dict.get? key with
  | none =>
    have hremove : (b.remove key true).2 = b := by
      unfold LocalDiskBackend.remove
      rw [hm]
    rw [hremove]
    exact Or.inr h
  | some m =>
    obtain ⟨cachePolicy, files, locked, ops, heq, hcases⟩ := remove_cases hm
    rw [heq]
    rcases hcases with ⟨-, hlocked, -⟩ | ⟨rfl, -⟩
    · exact Or.inl hlocked
    · obtain ⟨hconsistent, hcounted⟩ := h.consistent.updateOnForceEvict key
      refine Or.inr ⟨hconsistent, fun k hk => ?_⟩
      obtain ⟨hne, hk⟩ := hcounted k hk
      exact (h.known k hk).imp_left fun hmem => mem_keys_erase.mpr ⟨hne, hmem⟩

end LocalDiskBackend

/-- The policy was told of the put, and its key is not entered. -/
def PutStage.told : PutStage → Bool
  | .scheduled | .written => true
  | _ => false

namespace DiskState

open LocalDiskBackend SmallDisk

variable {s s' : DiskState H}

/-! ### Steps -/

/-- A put of the key is between the policy and the dictionary. -/
def Told (s : DiskState H) (key : CacheEngineKey H) : Prop :=
  ∃ p ∈ s.puts, p.stage.told = true ∧ p.key = key

/-- No key is put while it is stored or on its way, every write succeeds, and no entry is dropped
because its file is missing. -/
def Orderly (s : DiskState H) : DiskEvent H → Prop
  | .put i => ∀ p ∈ s.puts[i]?, p.stage = .accepted →
      p.key ∉ s.backend.dict.keys ∧ ∀ q ∈ s.puts, q.key = p.key → q.stage.told = false
  | .writeFails _ => False
  | .readMissing i => ∀ r ∈ s.readers[i]?, r.key ∉ s.backend.dict.keys
  | _ => True

instance (s : DiskState H) : (e : DiskEvent H) → Decidable (s.Orderly e)
  | .put i => inferInstanceAs (Decidable (∀ p ∈ s.puts[i]?, p.stage = .accepted →
      p.key ∉ s.backend.dict.keys ∧ ∀ q ∈ s.puts, q.key = p.key → q.stage.told = false))
  | .readMissing i =>
    inferInstanceAs (Decidable (∀ r ∈ s.readers[i]?, r.key ∉ s.backend.dict.keys))
  | .writeFails _ => inferInstanceAs (Decidable False)
  | .submit .. | .contains .. | .batchedAsyncContains .. | .touchCache | .pin .. | .unpin ..
  | .get .. | .prefetch .. | .prefetchLoaded .. | .openFails .. | .vanish .. | .remove .. =>
    inferInstanceAs (Decidable True)

/-- Every key that the policy counts is stored or on its way, unless the lock is lost. -/
def Known (s : DiskState H) : Prop := s.backend.locked = true ∨ Covers s.Told s.backend

variable {i : ℕ} {p : DiskPut H}

section
variable (hp : s.puts[i]? = some p)

include hp

omit [DecidableEq H] in
theorem Told.setStage (stage : PutStage) {key : CacheEngineKey H}
    (h : s.Told key) : (p.stage.told = true ∧ p.key = key) ∨ (s.setStage i p stage).Told key := by
  obtain ⟨q, hq, htold, hkey⟩ := h
  obtain ⟨j, hj⟩ := mem_iff_getElem?.mp hq
  by_cases hij : i = j
  · grind
  · refine Or.inr ⟨q, mem_iff_getElem?.mpr ⟨j, ?_⟩, htold, hkey⟩
    exact (getElem?_set_ne hij).trans hj

omit [DecidableEq H] in
theorem told_setStage_self {stage : PutStage}
    (hstage : stage.told = true) : (s.setStage i p stage).Told p.key := by
  obtain ⟨hi, -⟩ := List.getElem?_eq_some_iff.mp hp
  exact ⟨{ p with stage }, List.mem_set hi _, hstage, rfl⟩

theorem covers_setStage {stage : PutStage}
    (hstage : p.stage.told = true → stage.told = true) {b : LocalDiskBackend H}
    (h : Covers s.Told b) : Covers (s.setStage i p stage).Told b := by
  refine h.mono fun k hk => Or.inr ?_
  rcases hk.setStage hp stage with ⟨htold, rfl⟩ | htold
  · exact told_setStage_self hp (hstage htold)
  · exact htold

theorem covers_reserve (hstage : p.stage = .registered)
    (h : Covers s.Told s.backend) : Covers (s.reserve i p).Told (s.reserve i p).backend := by
  have hcovers := (h.reserve p.obj.physicalSize).1
  have hnot : ∀ {stage : PutStage}, p.stage.told = true → stage.told = true := by
    rw [hstage]
    nofun
  unfold reserve
  generalize s.backend.reserve p.obj.physicalSize = r at hcovers
  obtain ⟨_ | _ | _, b⟩ := r
  all_goals exact covers_setStage hp hnot hcovers

theorem covers_updateOnPut (hstage : p.stage = .accepted)
    (hdict : p.key ∉ s.backend.dict.keys) (htold : ¬s.Told p.key) (h : Covers s.Told s.backend) :
    Covers (s.setStage i p .scheduled).Told
      { s.backend with cachePolicy := s.backend.cachePolicy.updateOnPut p.key } := by
  have hcounted : p.key ∉ s.backend.cachePolicy.counted := fun hmem =>
    (h.known p.key hmem).elim hdict htold
  obtain ⟨hconsistent, hnew⟩ := h.consistent.updateOnPut hcounted
  refine ⟨hconsistent, fun k hk => ?_⟩
  rcases hnew k hk with rfl | hk
  · exact Or.inr (told_setStage_self hp rfl)
  · refine (h.known k hk).imp_right fun hk => ?_
    rcases hk.setStage hp .scheduled with ⟨hput, -⟩ | hk
    · rw [hstage] at hput
      cases hput
    · exact hk

end

theorem Known.putStep (h : s.Known) (hp : s.puts[i]? = some p) (hok : s.Orderly (.put i))
    (hstep : s.putStep i p = some s') : s'.Known := by
  revert hstep
  fun_cases DiskState.putStep s i p <;> rintro ⟨⟩
  case case1 b hstage =>
    exact h.imp_right fun h => covers_setStage hp (by rw [hstage]; nofun) h
  case case4 hstage hlocked => exact Or.inr (covers_reserve hp hstage (h.resolve_left hlocked))
  case case5 b hstage =>
    obtain ⟨hdict, hputs⟩ := hok p hp hstage
    refine h.imp_right fun h => covers_updateOnPut hp hstage hdict ?_ h
    rintro ⟨q, hq, htold, hkey⟩
    grind
  case case6 =>
    exact h.imp_right fun h => covers_setStage hp (fun _ => rfl) ⟨h.consistent, h.known⟩
  case case8 hlocked =>
    refine Or.inr (Covers.insertKey ((h.resolve_left hlocked).mono fun k hk => Or.inr ?_) p.obj)
    exact (hk.setStage hp _).imp_left fun hput => hput.2.symm
  case case2 b hstage | case9 b hstage =>
    refine h.imp_right fun h => ?_
    exact covers_setStage hp (by rw [hstage]; nofun) ⟨h.consistent, h.known⟩

/-- **Every orderly step** keeps the policy's keys known. -/
theorem Known.step (h : s.Known) {e : DiskEvent H} (hok : s.Orderly e)
    (hstep : s.step e = some s') : s'.Known := by
  rcases step_cases hstep with hquiet | ⟨i, p, rfl, hp, hput⟩ | ⟨i, p, rfl, -⟩ |
    ⟨i, r, rfl, hr, rfl⟩ | ⟨path, rfl, rfl⟩ | ⟨key, rfl, hlocked, rfl⟩
  · rcases h with hlocked | h
    · exact Or.inl (by rw [hquiet.locked hlocked, hlocked])
    · refine Or.inr ((h.looks hquiet.looks).mono fun k hk => Or.inr ?_)
      obtain ⟨p, hp, htold⟩ := hk
      rcases hquiet.puts with heq | ⟨key, obj, id, heq⟩
      · exact ⟨p, heq ▸ hp, htold⟩
      · exact ⟨p, heq ▸ mem_append_left _ hp, htold⟩
  · exact h.putStep hp hok hput
  · exact absurd hok id
  · have hdict : s.backend.dict.erase r.key = s.backend.dict := Dict.erase_of_notMem (hok r hr)
    refine h.imp_right fun h => ⟨h.consistent, fun k hk => ?_⟩
    show k ∈ (s.backend.dict.erase r.key).keys ∨ s.Told k
    rw [hdict]
    exact h.known k hk
  · exact h.imp_right fun h => ⟨h.consistent, h.known⟩
  · have hunlocked : ¬s.backend.locked = true := by simp [hlocked]
    exact (h.resolve_left hunlocked).remove key

/-! ### Runs -/

theorem known_reachable {keyToPath : CacheEngineKey H → String} {maxCacheSize : ℕ}
    (h : ((diskSystem keyToPath maxCacheSize (.lfu {})).restrict Orderly).Reachable s) :
    s.Known := by
  refine h.invariant ?_ fun _ _ _ hs hstep => hs.step hstep.1 hstep.2
  rintro s ⟨files, rfl⟩
  exact Or.inr ⟨LFUCachePolicy.Consistent.empty, nofun⟩

/-- **Evictions find their entries.**  In an orderly run, while no put is between the policy and the
dictionary, every key that the LFU policy goes through is in the dictionary, and a section that
makes room for any size raises no `KeyError`: only a file may be missing. -/
theorem lfu_eviction_finds_entries {keyToPath : CacheEngineKey H → String} {maxCacheSize : ℕ}
    (h : ((diskSystem keyToPath maxCacheSize (.lfu {})).restrict Orderly).Reachable s)
    (hlocked : s.backend.locked = false) (hputs : ∀ p ∈ s.puts, p.stage.told = false) :
    (∀ q, s.backend.cachePolicy = .lfu q → ∀ k ∈ q.keys, k ∈ s.backend.dict.keys) ∧
      ∀ requiredSize e, (s.backend.reserve requiredSize).1 = .error e →
        ∃ path, e = .fileNotFound path := by
  have htold : ∀ k, ¬s.Told k := by
    rintro k ⟨p, hp, hput, -⟩
    cases (hputs p hp).symm.trans hput
  have hcovers := (known_reachable h).resolve_left (by simp [hlocked])
  refine ⟨fun q hq k hk => ?_, fun requiredSize e he => ?_⟩
  · have hconsistent := hcovers.consistent
    have hknown := hcovers.known k
    rw [hq] at hconsistent hknown
    exact (hknown (LFUCachePolicy.Consistent.mem_keys hconsistent hk)).resolve_right (htold k)
  · refine ((hcovers.reserve requiredSize).2 e he).resolve_right ?_
    rintro ⟨k, hk, -⟩
    exact htold k hk

/-- The number of entries, the number of keys in the buckets, and whether the lock is free and no
put is on its way. -/
def lfuView (s : DiskState H) : ℕ × Option ℕ × Bool :=
  (s.backend.dict.entries.length,
    match s.backend.cachePolicy with
    | .lfu q => some q.keys.length
    | _ => none,
    !s.backend.locked && s.puts.all fun p => !p.stage.told)

/-- Chunks are put, hit, evicted and removed, and one of them is put once more. -/
theorem lfu_eviction_finds_entries_mixed :
    ∃ s, ((diskSystem keyToPath 8 (.lfu {})).restrict Orderly).Reachable s ∧
      s.lfuView = (1, some 1, true) ∧
      (∀ q, s.backend.cachePolicy = .lfu q → ∀ k ∈ q.keys, k ∈ s.backend.dict.keys) ∧
      ∀ requiredSize e, (s.backend.reserve requiredSize).1 = .error e →
        ∃ path, e = .fileNotFound path := by
  have hstart : ((diskSystem keyToPath 8 (.lfu {})).restrict Orderly).Reachable
      (.start (.new keyToPath 8 (.lfu {}) ∅)) := .init ⟨∅, rfl⟩
  obtain ⟨s, hs, hview⟩ := hstart.exists_guard (P := fun s => s.lfuView = (1, some 1, true))
    (fun _ _ _ => id)
    (put 0 0 ++ put 1 1 ++ [.get (key 0)] ++ put 2 2 ++
      .remove (key 0) :: put 3 0)
    (by decide +kernel)
  have hfree := (Prod.mk.inj (Prod.mk.inj hview).2).2
  rw [Bool.and_eq_true, Bool.not_eq_true', all_eq_true] at hfree
  refine ⟨s, hs, hview, lfu_eviction_finds_entries hs hfree.1 fun p hp => ?_⟩
  simpa using hfree.2 p hp

/-- What the section of a put of four bytes raises. -/
def raised (s : DiskState H) : Option (DiskError H) :=
  match (s.backend.reserve 4).1 with
  | .error e => some e
  | .ok _ => none

/-- **Missing entries**: the policy goes through the key of a put whose file is not written yet, and
through a key whose entry was dropped because its file was missing.  Both times the eviction raises
a `KeyError`. -/
theorem lfu_eviction_raises :
    (∃ s, (system (.lfu {})).Reachable s ∧
      s.raised = some (.policy (.key (key 0)))) ∧
    ∃ s, (system (.lfu {})).Reachable s ∧ s.puts.all (fun p => !p.stage.told) = true ∧
      s.raised = some (.policy (.key (key 0))) := by
  refine ⟨exists_run (.lfu {})
    (.submit (key 0) obj 0 :: steps 0 4) (by decide +kernel), ?_⟩
  exact exists_run (.lfu {})
    (put 0 0 ++ [.get (key 0), .vanish "0", .openFails 0, .readMissing 0]) (by decide +kernel)

end DiskState

end LMCache.Local
