import LMCache.RawBlock.DeviceContents

/-! # Recovery of the raw block backend

After a crash a new backend loads the manifest file; the device is as the crash has left it.  The
manifest is a snapshot of the index, while slots go on being evicted and written, and nothing in a
slot is compared with the key that is read.

* `SavedInv`: a manifest is what some backend of the run has saved.
* `Recovers`: what the recovered backend serves, and where its slots are.

**Main result**: `recovery_serves_last_put`: a key whose entry in the manifest is still its entry in
the index at the crash is served its last completed put, and, for keys that can be read back from
their texts, the slots that are neither free nor in the index are those that were in flight when the
manifest was made.  When the entry has been evicted
and its slot written again, the key is served what was written for another one
(`recovery_serves_foreign_data`). -/

namespace LMCache

open List RawBlockBackend

namespace RawBlockState

variable {K : Type} [DecidableEq K] {codec : KeyCodec K} {s s' : RawBlockState K}
  {b₀ : RawBlockBackend K}

/-! ### What a manifest is -/

theorem static_place (hs : s.SlotInv) (sizeBytes : Except PyError ℕ) (i : ℕ) (key : K)
    (obj : ObjData) (items : List (K × ObjData)) :
    (place codec sizeBytes s i key obj items).backend.static = s.backend.static := by
  obtain ⟨hstatic, -⟩ := hs.backend.beginPut_frame sizeBytes key obj
  unfold place
  grind

variable {t : WriteTask K} {saved : Saved}

theorem static_taskStep {i : ℕ} {e : TaskEvent} (h : s.taskStep codec i t e = some s') :
    s'.backend.static = s.backend.static := by
  revert h
  fun_cases taskStep codec s i t e <;> rintro ⟨⟩
  case case3 => exact static_finishWrite s.backend t.key
  case case4 =>
    fun_cases maybeSave <;> rfl
  all_goals rfl

theorem static_step (hs : s.SlotInv) {e : RawBlockEvent K} (hstep : s.step codec e = some s') :
    s'.backend.static = s.backend.static := by
  revert hstep
  fun_cases step codec s e <;> intro hstep
  case case6 =>
    obtain ⟨t, -, htask⟩ := Option.bind_eq_some_iff.mp hstep
    exact static_taskStep htask
  all_goals cases hstep
  case case2 =>
    unfold register
    split_ifs <;> rfl
  case case4 => exact static_place hs ..
  case case7 key pin => exact (s.backend.places_contains key pin).2
  case case8 keys pin => exact (s.backend.places_batchedAsyncContains keys pin).2
  case case9 key => exact (s.backend.places_pin key).2
  case case10 key => exact (s.backend.places_unpin key).2
  all_goals rfl

/-- A manifest that is in the file, or on the way to it. -/
def Saving (s : RawBlockState K) (saved : Saved) : Prop :=
  s.file = some saved ∨ ∃ t ∈ s.tasks, t.stage = .saving saved

omit [DecidableEq K] in
theorem Saving.of_setStage {i : ℕ} {stage : WriteStage} (h : (s.setStage i t stage).Saving saved) :
    s.Saving saved ∨ stage = .saving saved := by
  rcases h with hfile | ⟨t', ht', hstage⟩
  · exact Or.inl (Or.inl hfile)
  · rcases mem_or_eq_of_mem_set ht' with hmem | rfl
    · exact Or.inl (Or.inr ⟨t', hmem, hstage⟩)
    · exact Or.inr hstage

theorem Saving.of_taskStep {i : ℕ} {e : TaskEvent} (h : s'.Saving saved)
    (ht : s.tasks[i]? = some t) (hstep : s.taskStep codec i t e = some s') :
    s.Saving saved ∨ saved = ⟨s.backend.saveManifest codec, s.backend.inflightSlots⟩ := by
  -- a task that goes on to another stage than `saving`
  have hother : ∀ stage, (s.setStage i t stage).Saving saved → (∀ saved, stage ≠ .saving saved) →
      s.Saving saved := fun stage h hne => h.of_setStage.resolve_right (hne saved)
  revert hstep
  fun_cases taskStep codec s i t e <;> rintro ⟨⟩
  case case3 => exact Or.inl (hother .stored h (by simp))
  case case4 =>
    unfold maybeSave at h
    dsimp only at h
    split_ifs at h
    · exact Or.inl (hother _ h (by simp))
    · exact Or.inl (hother .ending h (by simp))
    · rcases Saving.of_setStage (s := s) (t := t) (i := i) h with hold | hnew
      · exact Or.inl hold
      · cases hnew
        exact Or.inr rfl
  case case5 hstage =>
    rcases h with hfile | htask
    · cases hfile
      exact Or.inl (Or.inr ⟨t, mem_of_getElem? ht, hstage⟩)
    · exact Or.inl (hother .ending (Or.inr htask) (by simp))
  case case7 => exact Or.inl (hother .ended h (by simp))
  all_goals exact Or.inl (hother _ h (by simp))

/-- **A manifest is a snapshot** of the backend in some step. -/
theorem Saving.of_step {e : RawBlockEvent K} (h : s'.Saving saved)
    (hstep : s.step codec e = some s') :
    s.Saving saved ∨ saved = ⟨s.backend.saveManifest codec, s.backend.inflightSlots⟩ := by
  rcases step_cases hstep with ⟨i, t, e', rfl, ht, htask⟩ | ⟨-, hfile, -, htasks⟩
  · exact h.of_taskStep ht htask
  · refine Or.inl ?_
    rcases h with h | ⟨t, ht, hstage⟩
    · exact Or.inl (hfile ▸ h)
    · rcases htasks with heq | ⟨t', heq, hnew⟩
      · exact Or.inr ⟨t, heq ▸ ht, hstage⟩
      · rw [heq, mem_append, mem_singleton] at ht
        rcases ht with ht | rfl
        · exact Or.inr ⟨t, ht, hstage⟩
        · exact absurd hstage (hnew saved)

/-- A key that has been put stays one. -/
theorem isSome_lastPut_step {e : RawBlockEvent K} (hstep : s.step codec e = some s') {key : K}
    (h : (s.lastPut key).isSome) : (s'.lastPut key).isSome := by
  rcases step_cases hstep with ⟨i, t, e', rfl, -, htask⟩ | ⟨-, -, hlast, -⟩
  · revert htask
    fun_cases taskStep codec s i t e' <;> rintro ⟨⟩
    case case3 =>
      change (s.completes t key).isSome
      fun_cases completes s t
      case case2 =>
        by_cases hkey : key = t.key
        · rw [hkey, Function.update_self]
          rfl
        · rwa [Function.update_of_ne hkey]
      all_goals exact h
    case case4 => fun_cases maybeSave <;> exact h
    all_goals exact h
  · rwa [hlast]

/-- A manifest is what a backend with the static fields of `b₀` has saved, and its keys are those of
completed puts. -/
structure SavedInv (codec : KeyCodec K) (b₀ : RawBlockBackend K) (s : RawBlockState K) : Prop where
  static : s.backend.static = b₀.static
  saved : ∀ saved, s.Saving saved → ∃ b : RawBlockBackend K, b.static = b₀.static ∧ b.Conserved [] ∧
    saved = ⟨b.saveManifest codec, b.inflightSlots⟩ ∧ ∀ key ∈ b.index.keys, (s.lastPut key).isSome

theorem savedInv_reachable {config : RawBlockConfig} (hb : new config = .ok b₀)
    (h : ((rawBlockSystem codec config).restrict Fitting).Reachable s) : s.SavedInv codec b₀ := by
  induction h with
  | init hinit =>
    obtain ⟨b, device, hb', rfl⟩ := hinit
    cases hb'.symm.trans hb
    exact ⟨rfl, fun saved hsaved => by rcases hsaved with h | ⟨t, ht, -⟩ <;> contradiction⟩
  | @step s s' e hs hstep hinv =>
    have hslots := slotInv_reachable hs.of_restrict
    refine ⟨(static_step hslots hstep.2).trans hinv.static, fun saved hsaved => ?_⟩
    rcases hsaved.of_step hstep.2 with hold | rfl
    · obtain ⟨b, hstatic, hcons, hsave, hput⟩ := hinv.saved saved hold
      exact ⟨b, hstatic, hcons, hsave, fun key hkey => isSome_lastPut_step hstep.2 (hput key hkey)⟩
    · refine ⟨s.backend, hinv.static, hslots.backend, rfl, fun key hkey => ?_⟩
      obtain ⟨e, he⟩ := Dict.mem_keys_iff.mp hkey
      obtain ⟨payload, hlast, -⟩ := (deviceInv_reachable hs).index key e he
      exact isSome_lastPut_step hstep.2 (Option.isSome_iff_exists.mpr ⟨payload, hlast⟩)

end RawBlockState

/-! ### Loading a manifest -/

namespace RawBlockBackend

variable {K : Type} [DecidableEq K] {codec : KeyCodec K} {b b₀ : RawBlockBackend K}

theorem loadManifest_saveManifest (codec : KeyCodec K) (h : b.static = b₀.static) :
    b₀.loadManifest codec (b.saveManifest codec) =
      { b₀ with
        capacityBytes := b.capacityBytes
        nextSlot := b.nextSlot
        freeSlots := b.freeSlots
        index := restoreIndex codec (b.saveManifest codec).entries.entries
        lru := restoreLru codec (b.saveManifest codec).lruKeys
          (restoreIndex codec (b.saveManifest codec).entries.entries) } := by
  simp only [static, Prod.mk.injEq] at h
  obtain ⟨hpath, halign, hheader, hslot, -, -⟩ := h
  unfold loadManifest
  rw [if_neg (fun hne => hne.2 hpath), if_neg (fun hne => hne hslot)]
  simp only [saveManifest, halign, hheader, hslot]

/-- **The index is restored**, entry by entry, when the texts of its keys can be read back. -/
theorem entries_restoreIndex
    (hcodec : ∀ key ∈ b.index.keys, codec.fromText (codec.toText key) = some key) :
    (restoreIndex codec (b.saveManifest codec).entries.entries).entries =
      b.index.entries.map fun p => (p.1, restoreEntry codec p.1 ⟨p.2.offset, p.2.metadata.size,
        p.2.metadata.shape, p.2.metadata.fmt, p.2.metadata.cachedPositions⟩) := by
  have hinj : ∀ k ∈ b.index.keys, ∀ k' ∈ b.index.keys, codec.toText k = codec.toText k' → k = k' :=
    fun k hk k' hk' heq =>
      Option.some.inj
        ((hcodec k hk).symm.trans ((congrArg codec.fromText heq).trans (hcodec k' hk')))
  have htexts : (b.saveManifest codec).entries.entries = b.index.entries.map fun p =>
      (codec.toText p.1, ⟨p.2.offset, p.2.metadata.size, p.2.metadata.shape, p.2.metadata.fmt,
        p.2.metadata.cachedPositions⟩) := by
    refine Dict.entries_ofList ?_
    rw [map_map]
    change (b.index.entries.map (codec.toText ∘ Prod.fst)).Nodup
    rw [← map_map]
    exact b.index.nodup.map_on hinj
  rw [htexts, restoreIndex, filterMap_map]
  have hread : ∀ p ∈ b.index.entries, codec.fromText (codec.toText p.1) = some p.1 := fun p hp =>
    hcodec p.1 (mem_map_of_mem hp)
  rw [filterMap_congr fun p hp => by rw [Function.comp_apply, hread p hp, Option.map_some],
    filterMap_eq_map']
  refine Dict.entries_ofList ?_
  rw [map_map]
  exact b.index.nodup

omit [DecidableEq K] in
theorem nextSlot_new {config : RawBlockConfig} (h : new config = .ok b) : b.nextSlot = 0 := by
  unfold new at h
  grind

theorem indexSlots_load
    (hcodec : ∀ key ∈ b.index.keys, codec.fromText (codec.toText key) = some key)
    (h : b.static = b₀.static) :
    (b₀.loadManifest codec (b.saveManifest codec)).indexSlots = b.indexSlots := by
  have hslot : b.slotBytes = b₀.slotBytes := congrArg (fun p => p.2.2.2.1) h
  rw [loadManifest_saveManifest codec h, indexSlots, indexSlots]
  rw [entries_restoreIndex hcodec, map_map, hslot]
  rfl

/-- **Reading a stored chunk.** -/
theorem getBlocking_of_stored {allocate : Shape → Dtype → MemoryFormat → Option (List UInt8)}
    (halloc : ∀ shape dtype fmt buf, allocate shape dtype fmt = some buf →
      buf.length = shape.numel * dtype.itemsize)
    {device : ℕ → UInt8} {key : K} {e : BlockEntry} {payload : List UInt8}
    (he : b.index.get? key = some e) (h : b.Stored device e.offset e.metadata payload) :
    (b.getBlocking allocate device key).1 =
      if (allocate e.metadata.shape e.metadata.dtype e.metadata.fmt).isSome then .ok (some payload)
      else .error ⟨.assertionError, ""⟩ := by
  unfold getBlocking
  rw [he]
  dsimp only
  cases hbuf : allocate e.metadata.shape e.metadata.dtype e.metadata.fmt with
  | none => rfl
  | some buf =>
    have hlen : buf.length = e.metadata.size := (halloc _ _ _ _ hbuf).trans h.numel.symm
    dsimp only
    rw [if_neg (by omega), h.size, h.read, drop_eq_nil_of_le (by rw [hlen, h.size]), append_nil]
    rfl

end RawBlockBackend

namespace RawBlockState

variable {K : Type} [DecidableEq K] {codec : KeyCodec K} {s : RawBlockState K}
  {b : RawBlockBackend K}

/-- The slots that were in flight when the manifest of the file was made. -/
def savedInflight (s : RawBlockState K) : List ℕ := s.file.elim [] Saved.inflightSlots

/-- What the backend `b`, recovered after a crash in the state `s`, serves, and where its slots
are. -/
structure Recovers (codec : KeyCodec K)
    (allocate : Shape → Dtype → MemoryFormat → Option (List UInt8)) (s : RawBlockState K)
    (b : RawBlockBackend K) : Prop where
  /-- A key whose entry is the one of the crash is served its last completed put. -/
  served : ∀ key, (∀ e, b.index.get? key = some e → s.backend.index.get? key = some e) →
    (b.getBlocking allocate s.device key).1 =
      match b.index.get? key with
      | none => .ok none
      | some e =>
        if (allocate e.metadata.shape e.metadata.dtype e.metadata.fmt).isSome then
          .ok (s.lastPut key)
        else .error ⟨.assertionError, ""⟩
  /-- A slot is free, or in one entry, or was in flight, when the keys of completed puts can be
  read back from their texts. -/
  slots : (∀ key, (s.lastPut key).isSome → codec.fromText (codec.toText key) = some key) →
    ∀ slot < b.nextSlot,
      b.freeSlots.count slot + b.indexSlots.count slot + s.savedInflight.count slot = 1

theorem recovers_of_static {allocate : Shape → Dtype → MemoryFormat → Option (List UInt8)}
    (halloc : ∀ shape dtype fmt buf, allocate shape dtype fmt = some buf →
      buf.length = shape.numel * dtype.itemsize)
    (h : s.DeviceInv) (hstatic : b.static = s.backend.static)
    (hslots : (∀ key, (s.lastPut key).isSome → codec.fromText (codec.toText key) = some key) →
      ∀ slot < b.nextSlot,
        b.freeSlots.count slot + b.indexSlots.count slot + s.savedInflight.count slot = 1) :
    s.Recovers codec allocate b := by
  refine ⟨fun key hkey => ?_, hslots⟩
  cases he : b.index.get? key with
  | none =>
    unfold getBlocking
    rw [he]
  | some e =>
    obtain ⟨payload, hlast, hstored⟩ := h.index key e (hkey e he)
    rw [getBlocking_of_stored halloc he (hstored.of_static hstatic), hlast]

/-- **Recovery.**  In every run of puts that fit, after a crash in any state, the recovered backend
serves a key its last completed put, if its entry in the manifest is still the one in the index; and
its slots are all accounted for, up to those that were in flight when the manifest was made, if the
keys that were put can be read back.  The text of a layer's key cannot (`from_string` raises), so
that its slot is lost. -/
theorem recovery_serves_last_put {config : RawBlockConfig}
    {allocate : Shape → Dtype → MemoryFormat → Option (List UInt8)}
    (halloc : ∀ shape dtype fmt buf, allocate shape dtype fmt = some buf →
      buf.length = shape.numel * dtype.itemsize)
    (h : ((rawBlockSystem codec config).restrict Fitting).Reachable s)
    (hb : restart codec config (s.file.map Saved.manifest) = .ok b) :
    s.Recovers codec allocate b := by
  unfold restart at hb
  cases hnew : (new config : Except PyError (RawBlockBackend K)) with
  | error e =>
    rw [hnew] at hb
    cases hb
  | ok b₀ =>
    rw [hnew] at hb
    have hsaved := savedInv_reachable hnew h
    have hdevice := deviceInv_reachable h
    cases hfile : s.file with
    | none =>
      rw [hfile] at hb
      obtain rfl : b₀ = b := Except.ok.inj hb
      refine recovers_of_static halloc hdevice hsaved.static.symm fun _ slot hslot => ?_
      rw [nextSlot_new hnew] at hslot
      exact absurd hslot (Nat.not_lt_zero _)
    | some saved =>
      obtain ⟨b₁, hstatic, hcons, hsave, hput⟩ := hsaved.saved saved (Or.inl hfile)
      rw [hfile, hsave] at hb
      obtain rfl : b₀.loadManifest codec (b₁.saveManifest codec) = b := Except.ok.inj hb
      have hload := loadManifest_saveManifest codec hstatic
      refine recovers_of_static halloc hdevice ?_ fun hcodec slot hslot => ?_
      · rw [hload]
        exact hsaved.static.symm
      · have hcount := hcons.slots.count_eq slot
        rw [nil_append, count_append, count_append] at hcount
        rw [indexSlots_load (fun key hkey => hcodec key (hput key hkey)) hstatic,
          savedInflight, hfile,
          hsave]
        grind

def zeroBuffer (shape : Shape) (dtype : Dtype) (_ : MemoryFormat) : Option (List UInt8) :=
  some (List.replicate (shape.numel * dtype.itemsize) 0)

theorem length_zeroBuffer (shape : Shape) (dtype : Dtype) (fmt : MemoryFormat) (buf : List UInt8)
    (h : zeroBuffer shape dtype fmt = some buf) : buf.length = shape.numel * dtype.itemsize := by
  rw [← Option.some.inj h, length_replicate]

/-- The backend that is recovered after a crash in the state `s`. -/
def recovered (n : ℕ) (s : RawBlockState String) : RawBlockBackend String :=
  match s.file with
  | none => smallBackend n
  | some saved => (smallBackend n).loadManifest textCodec saved.manifest

theorem restart_small (n : ℕ) (s : RawBlockState String) :
    restart textCodec (smallConfig n) (s.file.map Saved.manifest) = .ok (recovered n s) := by
  rw [restart, new_smallConfig, recovered]
  cases s.file <;> rfl

def recoveredGet (n : ℕ) (key : String) (s : RawBlockState String) : Option (Option (List UInt8)) :=
  ((recovered n s).getBlocking zeroBuffer s.device key).1.toOption

/-- A chunk is stored and in the manifest, another one is being written. -/
theorem recovery_serves_stored_chunk : ∃ s,
    ((rawBlockSystem textCodec (smallConfig 2)).restrict Fitting).Reachable s ∧
    recoveredGet 2 "a" s = some (some [1]) ∧
    s.Recovers textCodec zeroBuffer (recovered 2 s) := by
  obtain ⟨s, hs, hget⟩ := exists_fitting_run textCodec 0 (new_smallConfig 2)
    (P := fun s => recoveredGet 2 "a" s = some (some [1]))
    (beginsPut 0 "a" 1 ++ completesPut 0 ++ beginsPut 1 "b" 2 ++ [.task 1 (.write 24)])
    (by decide +kernel)
  exact ⟨s, hs, hget, recovery_serves_last_put length_zeroBuffer hs (restart_small 2 s)⟩

/-- **Foreign data**: on a device of one slot, the second put evicts the first chunk and writes its
slot; after a crash before the next save the first key is served the second payload.  A manifest
that is saved while a chunk is in flight loses the slot of that chunk. -/
theorem recovery_serves_foreign_data :
    (∃ s, ((rawBlockSystem textCodec (smallConfig 1)).restrict Fitting).Reachable s ∧
      recoveredGet 1 "a" s = some (some [2]) ∧ s.lastPut "a" = some [1]) ∧
    ∃ s, ((rawBlockSystem textCodec (smallConfig 2)).restrict Fitting).Reachable s ∧
      (recovered 2 s).nextSlot = 2 ∧ (recovered 2 s).freeSlots = [] ∧
      (recovered 2 s).indexSlots = [1] := by
  constructor
  · exact exists_fitting_run textCodec 0 (new_smallConfig 1)
      (beginsPut 0 "a" 1 ++ completesPut 0 ++ beginsPut 1 "b" 2 ++
        [.task 1 (.write 24), .task 1 (.write 1)]) (by decide +kernel)
  · exact exists_fitting_run textCodec 0 (new_smallConfig 2)
      (beginsPut 0 "a" 1 ++ beginsPut 1 "b" 2 ++ completesPut 1) (by decide +kernel)

end RawBlockState

end LMCache
