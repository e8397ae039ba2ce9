import LMCache.RawBlock.Slots

/-! # Slot conservation

A slot moves between the free slots, the index and the chunks in flight in different sections of
different threads.  A chunk in flight stays in flight until its own task has written it, also when
it is removed and put again meanwhile; so a task that writes has its slot to itself (`SlotInv`).

**Main result**: `slots_conserved`. -/

namespace LMCache

open List Dict

namespace RawBlockState

variable {K : Type} [DecidableEq K] {codec : KeyCodec K} {s s' : RawBlockState K}

/-- The task `t` at position `i` is writing. -/
def Writing (s : RawBlockState K) (i : ℕ) (t : WriteTask K) : Prop :=
  s.tasks[i]? = some t ∧ ∃ pending, t.stage = .writing pending

/-- A task that writes has its chunk in flight, and no other task writes a chunk of that key. -/
structure SlotInv (s : RawBlockState K) : Prop where
  backend : s.backend.Conserved []
  inflight : ∀ i t, s.Writing i t →
    ∃ x, s.backend.inflight.get? t.key = some x ∧ x.offset = t.offset
  unique : ∀ i j t t', s.Writing i t → s.Writing j t' → t.key = t'.key → i = j

section
variable (h : s.SlotInv)

include h

theorem SlotInv.setBackend {b : RawBlockBackend K} (hb : b.Conserved [])
    (hinflight : ∀ key x, s.backend.inflight.get? key = some x →
      ∃ x', b.inflight.get? key = some x' ∧ x'.offset = x.offset) :
    SlotInv { s with backend := b } := by
  refine ⟨hb, fun i t ht => ?_, h.unique⟩
  obtain ⟨x, hx, hoffset⟩ := h.inflight i t ht
  grind

theorem SlotInv.of_places {b : RawBlockBackend K} (hb : b.places = s.backend.places) :
    SlotInv { s with backend := b } := by
  refine h.setBackend (h.backend.of_places hb) fun key x hx => ⟨x, ?_, rfl⟩
  rw [show b.inflight = s.backend.inflight from congrArg (fun p => p.2.1) hb]
  exact hx

variable {i : ℕ} {t : WriteTask K}

omit h in
omit [DecidableEq K] in
theorem Writing.of_setStage {j : ℕ} {t' : WriteTask K} {stage : WriteStage}
    (h : (s.setStage i t stage).Writing j t') (ht : s.tasks[i]? = some t)
    (hstage : (∃ p, stage = .writing p) → ∃ p, t.stage = .writing p) :
    ∃ t₀, s.Writing j t₀ ∧ t₀.key = t'.key ∧ t₀.offset = t'.offset ∧ t₀.payload = t'.payload := by
  obtain ⟨ht', p, hp⟩ := h
  rw [setStage, getElem?_set] at ht'
  split_ifs at ht' with hij hlt
  · cases ht'
    exact ⟨t, ⟨hij ▸ ht, hstage ⟨p, hp⟩⟩, rfl, rfl, rfl⟩
  · exact ⟨t', ⟨ht', p, hp⟩, rfl, rfl, rfl⟩

theorem SlotInv.setStage (ht : s.tasks[i]? = some t) (stage : WriteStage)
    (hstage : (∃ p, stage = .writing p) → ∃ p, t.stage = .writing p) :
    (s.setStage i t stage).SlotInv := by
  refine ⟨h.backend, fun j t' ht' => ?_, fun j j' t₁ t₂ ht₁ ht₂ hkey => ?_⟩
  · obtain ⟨t₀, ht₀, hkey, hoffset, -⟩ := ht'.of_setStage ht hstage
    obtain ⟨x, hx, heq⟩ := h.inflight j t₀ ht₀
    exact ⟨x, hkey ▸ hx, heq.trans hoffset⟩
  · obtain ⟨t₁', ht₁', hkey₁, -⟩ := ht₁.of_setStage ht hstage
    obtain ⟨t₂', ht₂', hkey₂, -⟩ := ht₂.of_setStage ht hstage
    exact h.unique j j' t₁' t₂' ht₁' ht₂' (hkey₁.trans (hkey.trans hkey₂.symm))

/-- **A chunk is entered** in the index or given back: the other tasks have other keys. -/
theorem SlotInv.finishWrite (ht : s.Writing i t) :
    SlotInv { s.setStage i t .stored with backend := s.backend.finishWrite t.key } := by
  have hset := h.setStage ht.1 .stored nofun
  refine ⟨h.backend.finishWrite t.key, fun j t' ht' => ?_, hset.unique⟩
  obtain ⟨x, hx, heq⟩ := hset.inflight j t' ht'
  have hne : t'.key ≠ t.key := by
    intro hkey
    obtain ⟨t₀, ht₀, hkey₀, -⟩ := Writing.of_setStage ht' ht.1 nofun
    obtain rfl := h.unique j i t₀ t ht₀ ht (hkey₀.trans hkey)
    obtain ⟨hget, p, hp⟩ := ht'
    rw [RawBlockState.setStage,
      List.getElem?_set_self (List.getElem?_eq_some_iff.mp ht.1).1] at hget
    grind
  refine ⟨x, ?_, heq⟩
  rw [RawBlockBackend.inflight_finishWrite, if_neg hne]
  exact hx

omit h in
omit [DecidableEq K] in
theorem Writing.of_append {t' : WriteTask K} (h : Writing { s with tasks := s.tasks ++ [t] } i t') :
    s.Writing i t' ∨ i = s.tasks.length ∧ t' = t := by
  obtain ⟨hget, hp⟩ := h
  rw [getElem?_append] at hget
  split_ifs at hget with hlt
  · exact Or.inl ⟨hget, hp⟩
  · grind

theorem SlotInv.append
    (hx : ∃ x, s.backend.inflight.get? t.key = some x ∧ x.offset = t.offset)
    (hnew : ∀ i t', s.Writing i t' → t'.key ≠ t.key) :
    SlotInv { s with tasks := s.tasks ++ [t] } := by
  refine ⟨h.backend, fun i t' ht' => ?_, fun i j t₁ t₂ ht₁ ht₂ hkey => ?_⟩
  · rcases ht'.of_append with hold | ⟨-, rfl⟩
    · exact h.inflight i t' hold
    · exact hx
  · rcases ht₁.of_append with hold₁ | ⟨hi, rfl⟩
    · rcases ht₂.of_append with hold₂ | ⟨-, rfl⟩
      · exact h.unique i j t₁ t₂ hold₁ hold₂ hkey
      · exact absurd hkey (hnew i t₁ hold₁)
    · rcases ht₂.of_append with hold₂ | ⟨hj, -⟩
      · exact absurd hkey.symm (hnew j t₂ hold₂)
      · exact hi.trans hj.symm

/-- **A put begins**: its key was not in flight, so no task writes a chunk of it. -/
theorem SlotInv.place (sizeBytes : Except PyError ℕ) (i : ℕ) (key : K)
    (obj : ObjData) (items : List (K × ObjData)) :
    (s.place codec sizeBytes i key obj items).SlotInv := by
  obtain ⟨hcons, b₁, -, heffect⟩ := h.backend.beginPut sizeBytes key obj
  obtain ⟨-, -, hkeep⟩ := h.backend.beginPut_frame sizeBytes key obj
  have hb := h.setBackend hcons fun k x hx => ⟨x, hkeep k x hx, rfl⟩
  fun_cases RawBlockState.place codec sizeBytes s i key obj items
  case case4 offset b hput header _ stage =>
    simp only [hput] at hb heffect
    rcases heffect with ⟨-, -, hnone⟩ | ⟨_, heq, -, hnew, hb₁⟩
    · exact absurd rfl (hnone offset)
    · cases heq
      have hx : b.inflight.get? key =
          some ⟨offset, RawBlockBackend.metadataOf obj, false⟩ := by
        rw [hb₁, get?_set, if_pos rfl]
      have hnew' : ∀ j t', s.Writing j t' → t'.key ≠ key := by
        rintro j t' ht' rfl
        obtain ⟨x, hx, -⟩ := h.inflight j t' ht'
        exact hnew (mem_keys_iff.mpr ⟨x, hx⟩)
      have happend := hb.append (t := ⟨key, offset, obj.byteArray, stage⟩) ⟨_, hx, rfl⟩ hnew'
      exact { happend with }
  all_goals
    rw [‹s.backend.beginPut sizeBytes key obj = _›] at hb
    exact { hb with }

theorem SlotInv.taskStep (ht : s.tasks[i]? = some t) {e : TaskEvent}
    (hstep : s.taskStep codec i t e = some s') : s'.SlotInv := by
  revert hstep
  fun_cases RawBlockState.taskStep codec s i t e <;> rintro ⟨⟩
  case case1 n a bytes pending hstage =>
    have hset := h.setStage ht (.writing (if (bytes.drop n).isEmpty then pending else
      (a + n, bytes.drop n) :: pending)) fun _ => ⟨_, hstage⟩
    exact { hset with }
  case case3 hstage =>
    have hfinish := h.finishWrite ⟨ht, _, hstage⟩
    exact { hfinish with }
  case case4 =>
    fun_cases maybeSave
    · exact h.setStage ht _ nofun
    · exact (h.setStage ht .ending nofun).of_places rfl
    · exact (h.setStage ht (.saving _) nofun).of_places rfl
  case case5 =>
    have hset := h.setStage ht .ending nofun
    exact { hset with }
  case case7 => exact (h.setStage ht .ended nofun).of_places rfl
  all_goals exact h.setStage ht _ nofun

/-- **Every step** keeps the invariant. -/
theorem SlotInv.step {e : RawBlockEvent K} (hstep : s.step codec e = some s') : s'.SlotInv := by
  revert hstep
  fun_cases RawBlockState.step codec s e <;> intro hstep
  case case6 =>
    obtain ⟨t, ht, htask⟩ := Option.bind_eq_some_iff.mp hstep
    exact h.taskStep ht htask
  all_goals cases hstep
  case case1 => exact { h with }
  case case2 key obj items _ =>
    unfold register
    split_ifs
    · exact { h with }
    · have hb := h.of_places
        (b := { s.backend with putTasks := insert key s.backend.putTasks }) rfl
      exact { hb with }
  case case4 i sizeBytes _ _ _ _ => exact h.place sizeBytes i _ _ _
  case case7 key pin => exact h.of_places (s.backend.places_contains key pin).1
  case case8 keys pin => exact h.of_places (s.backend.places_batchedAsyncContains keys pin).1
  case case9 key => exact h.of_places (s.backend.places_pin key).1
  case case10 key => exact h.of_places (s.backend.places_unpin key).1
  case case11 key =>
    refine h.setBackend (h.backend.remove key) fun k x hx => ?_
    show ∃ x', (s.backend.inflight.modify key _).get? k = some x' ∧ _
    rw [get?_modify]
    grind
  case case12 => exact h.of_places rfl

end

theorem slotInv_reachable {config : RawBlockConfig}
    (h : (rawBlockSystem codec config).Reachable s) : s.SlotInv := by
  refine h.invariant ?_ fun _ _ _ hs hstep => hs.step hstep
  rintro s ⟨b, device, hb, rfl⟩
  exact ⟨RawBlockBackend.conserved_new hb, fun _ _ ht => (nomatch ht.1),
    fun _ _ _ _ ht => (nomatch ht.1)⟩

/-! ### What the invariant means -/

end RawBlockState

namespace RawBlockBackend

variable {K : Type} [DecidableEq K] {b : RawBlockBackend K}

def owners (b : RawBlockBackend K) : List (K × ℕ) :=
  b.index.entries.map (fun p => (p.1, p.2.offset)) ++
    b.inflight.entries.map fun p => (p.1, p.2.offset)

/-- Two owners are different keys, and their regions of the device are disjoint. -/
def Apart (b : RawBlockBackend K) (p q : K × ℕ) : Prop :=
  p.1 ≠ q.1 ∧ (p.2 + b.slotBytes ≤ q.2 ∨ q.2 + b.slotBytes ≤ p.2)

omit [DecidableEq K] in
theorem map_slot_owners (b : RawBlockBackend K) :
    b.owners.map (fun p => p.2 / b.slotBytes) = b.indexSlots ++ b.inflightSlots := by
  simp [owners, indexSlots, inflightSlots, Function.comp_def]

omit [DecidableEq K] in
theorem map_fst_owners (b : RawBlockBackend K) :
    b.owners.map Prod.fst = b.index.keys ++ b.inflight.keys := by
  simp [owners, Dict.keys, Function.comp_def]

theorem Conserved.nodup_slots (h : b.Conserved []) :
    (b.freeSlots ++ (b.indexSlots ++ b.inflightSlots)).Nodup := by
  rw [← append_assoc]
  exact h.slots.nodup_iff.mpr nodup_range

theorem Conserved.owners_dvd (h : b.Conserved []) {p : K × ℕ} (hp : p ∈ b.owners) :
    b.slotBytes ∣ p.2 := by
  rcases mem_append.mp hp with hp | hp
  · obtain ⟨q, hq, rfl⟩ := mem_map.mp hp
    exact h.index_dvd q.1 q.2 (get?_eq_some_iff.mpr hq)
  · obtain ⟨q, hq, rfl⟩ := mem_map.mp hp
    exact h.inflight_dvd q.1 q.2 (get?_eq_some_iff.mpr hq)

/-- **No two keys own the same region.** -/
theorem Conserved.owners_apart (h : b.Conserved []) : b.owners.Pairwise b.Apart := by
  have hkeys : (b.owners.map Prod.fst).Nodup := by
    rw [map_fst_owners]
    refine nodup_append.mpr ⟨b.index.nodup, b.inflight.nodup, fun k hk k' hk' heq => ?_⟩
    exact h.apart k' hk' (heq ▸ hk)
  have hslots : (b.owners.map fun p => p.2 / b.slotBytes).Nodup := by
    rw [map_slot_owners]
    exact (nodup_append.mp h.nodup_slots).2.1
  refine ((pairwise_map.mp hkeys).and (pairwise_map.mp hslots)).imp_of_mem ?_
  intro p q hp hq hpq
  refine ⟨hpq.1, ?_⟩
  obtain ⟨m, hm⟩ := h.owners_dvd hp
  obtain ⟨n, hn⟩ := h.owners_dvd hq
  have hne : m ≠ n := by
    rintro rfl
    exact hpq.2 (by rw [hm, hn])
  rcases Nat.lt_or_gt_of_ne hne with hlt | hlt
  · exact Or.inl (by rw [hm, hn]; exact Nat.mul_le_mul_left b.slotBytes hlt)
  · exact Or.inr (by rw [hm, hn]; exact Nat.mul_le_mul_left b.slotBytes hlt)

theorem Conserved.apart_of_ne (h : b.Conserved []) {p q : K × ℕ} (hp : p ∈ b.owners)
    (hq : q ∈ b.owners) (hne : p.1 ≠ q.1) : p.2 + b.slotBytes ≤ q.2 ∨ q.2 + b.slotBytes ≤ p.2 := by
  have hsymm : Std.Symm b.Apart := ⟨fun _ _ hpq => ⟨hpq.1.symm, hpq.2.symm⟩⟩
  exact (h.owners_apart.forall hp hq fun heq => hne (congrArg Prod.fst heq)).2

theorem mem_owners_index {key : K} {e : BlockEntry} (h : b.index.get? key = some e) :
    (key, e.offset) ∈ b.owners :=
  mem_append_left _ (mem_map.mpr ⟨(key, e), get?_eq_some_iff.mp h, rfl⟩)

theorem mem_owners_inflight {key : K} {x : Inflight} (h : b.inflight.get? key = some x) :
    (key, x.offset) ∈ b.owners :=
  mem_append_right _ (mem_map.mpr ⟨(key, x), get?_eq_some_iff.mp h, rfl⟩)

end RawBlockBackend

namespace RawBlockState

variable {K : Type} [DecidableEq K] {codec : KeyCodec K} {s : RawBlockState K}

structure SlotsConserved (s : RawBlockState K) : Prop where
  /-- A slot below `_next_slot` is free once, or in one entry of the index, or in one in flight. -/
  once : ∀ slot < s.backend.nextSlot, s.backend.freeSlots.count slot +
    s.backend.indexSlots.count slot + s.backend.inflightSlots.count slot = 1
  /-- No other slot is anywhere. -/
  below : ∀ slot, slot ∈ s.backend.freeSlots ∨ slot ∈ s.backend.indexSlots ∨
    slot ∈ s.backend.inflightSlots → slot < s.backend.nextSlot
  capacity : s.backend.nextSlot ≤ s.backend.capacityBytes / s.backend.slotBytes
  regions : s.backend.owners.Pairwise s.backend.Apart
  /-- While a slot is written it is not free, it is in flight for the key of the write and for no
  other, it is not in the index, and no other task writes it. -/
  writing : ∀ i t, s.Writing i t →
    t.offset / s.backend.slotBytes ∉ s.backend.freeSlots ∧
    (∀ key x, s.backend.inflight.get? key = some x → (x.offset = t.offset ↔ key = t.key)) ∧
    (∀ key e, s.backend.index.get? key = some e → e.offset ≠ t.offset) ∧
    ∀ j t', s.Writing j t' → t'.offset = t.offset → j = i

theorem mem_inflightSlots {key : K} {x : Inflight} (h : s.backend.inflight.get? key = some x) :
    x.offset / s.backend.slotBytes ∈ s.backend.inflightSlots :=
  mem_map.mpr ⟨(key, x), get?_eq_some_iff.mp h, rfl⟩

theorem mem_indexSlots {key : K} {e : BlockEntry} (h : s.backend.index.get? key = some e) :
    e.offset / s.backend.slotBytes ∈ s.backend.indexSlots :=
  mem_map.mpr ⟨(key, e), get?_eq_some_iff.mp h, rfl⟩

theorem SlotInv.inflight_inj (h : s.SlotInv) {key key' : K} {x x' : Inflight}
    (hx : s.backend.inflight.get? key = some x) (hx' : s.backend.inflight.get? key' = some x')
    (heq : x.offset = x'.offset) : key = key' := by
  have hnodup : s.backend.inflightSlots.Nodup :=
    (nodup_append.mp (nodup_append.mp h.backend.nodup_slots).2.1).2.1
  have hpair := inj_on_of_nodup_map hnodup (get?_eq_some_iff.mp hx)
    (get?_eq_some_iff.mp hx') (by dsimp only; rw [heq])
  exact congrArg Prod.fst hpair

/-- **A slot is not reused while it is written.** -/
theorem SlotInv.writing (h : s.SlotInv) {i : ℕ} {t : WriteTask K} (ht : s.Writing i t) :
    t.offset / s.backend.slotBytes ∉ s.backend.freeSlots ∧
    (∀ key x, s.backend.inflight.get? key = some x → (x.offset = t.offset ↔ key = t.key)) ∧
    (∀ key e, s.backend.index.get? key = some e → e.offset ≠ t.offset) ∧
    ∀ j t', s.Writing j t' → t'.offset = t.offset → j = i := by
  obtain ⟨x, hx, hoffset⟩ := h.inflight i t ht
  have hmem := mem_inflightSlots hx
  rw [hoffset] at hmem
  obtain ⟨-, hnodup, hfree⟩ := nodup_append.mp h.backend.nodup_slots
  refine ⟨fun hin => hfree _ hin _ (mem_append_right _ hmem) rfl,
    fun key x' hx' => ⟨fun heq => ?_, ?_⟩,
    fun key e he heq => ?_, fun j t' ht' heq => ?_⟩
  · exact h.inflight_inj hx' hx (heq.trans hoffset.symm)
  · grind
  · have hindex := mem_indexSlots he
    grind
  · obtain ⟨x', hx', hoffset'⟩ := h.inflight j t' ht'
    have hkey := h.inflight_inj hx' hx (hoffset'.trans (heq.trans hoffset.symm))
    exact h.unique j i t' t ht' ht hkey

/-- **The slots** are conserved in every run. -/
theorem slots_conserved {config : RawBlockConfig} (h : (rawBlockSystem codec config).Reachable s) :
    s.SlotsConserved := by
  have hinv := slotInv_reachable h
  have hperm := hinv.backend.slots
  rw [nil_append] at hperm
  refine ⟨fun slot hslot => ?_, fun slot hslot => ?_, ?_, hinv.backend.owners_apart,
    fun i t ht => hinv.writing ht⟩
  · have hcount := hperm.count_eq slot
    grind
  · refine mem_range.mp (hperm.subset ?_)
    grind
  · have hle := hinv.backend.next_le
    rcases hinv.backend.max_eq with hmax | ⟨-, hmax⟩
    · grind
    · exact hmax ▸ hle

/-- Two chunks fill a device; one is removed while it is written, the other is stored and then
evicted by two more puts, of which one is under way. -/
def fullDevice : List (RawBlockEvent String) :=
  beginsPut 0 "a" 1 ++ beginsPut 1 "b" 2 ++ [.remove "a", .contains "b" true, .unpin "b"] ++
    completesPut 0 ++ completesPut 1 ++ beginsPut 2 "c" 3 ++ completesPut 2 ++ beginsPut 3 "a" 4 ++
    [.task 3 (.write 10)]

theorem slots_conserved_full : ∃ s, (rawBlockSystem textCodec (smallConfig 2)).Reachable s ∧
    (s.backend.indexSlots = [0] ∧ s.backend.inflightSlots = [1]) ∧ s.SlotsConserved := by
  obtain ⟨s, hs, hslots⟩ := exists_run textCodec 0 (new_smallConfig 2)
    (P := fun s => s.backend.indexSlots = [0] ∧ s.backend.inflightSlots = [1]) fullDevice
    (by decide +kernel)
  exact ⟨s, hs, hslots, slots_conserved hs⟩

end RawBlockState

end LMCache
