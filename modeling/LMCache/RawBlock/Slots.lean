import LMCache.RawBlock.Runs

/-! # Slots under the lock

A slot of the device is free, in the index or in flight.  `Conserved` says that the slots below
`_next_slot` are each in one place; `held` is the slot that a thread has taken and not yet entered
anywhere.  Every section under the lock keeps it:

* `Conserved.reserveLoop`: allocating a slot, with evictions if there is none.  The loop ends
  (`reserveSlot_eq`), and it takes nothing but evicted chunks out of the index (`Shrinks`).
* `Conserved.beginPut`, `Conserved.finishWrite`: the two ends of a put.
* `Conserved.remove`: the slot of a chunk in flight stays where it is. -/

namespace LMCache.RawBlockBackend

open List Dict

variable {K : Type} [DecidableEq K] {b b' b'' : RawBlockBackend K} {held : List ℕ}

def static (b : RawBlockBackend K) : String × ℕ × ℕ × ℕ × Bool × ℕ :=
  (b.devicePath, b.blockAlign, b.headerBytes, b.slotBytes, b.useOdirect, b.manifestWriteInterval)

def places (b : RawBlockBackend K) :
    Dict K BlockEntry × Dict K Inflight × List ℕ × ℕ × ℕ × ℕ × ℕ :=
  (b.index, b.inflight, b.freeSlots, b.nextSlot, b.maxSlots, b.capacityBytes, b.slotBytes)

/-- Every slot below `_next_slot` is in one place, apart from those that are held. -/
structure Conserved (b : RawBlockBackend K) (held : List ℕ) : Prop where
  slots : (held ++ b.freeSlots ++ b.indexSlots ++ b.inflightSlots).Perm (List.range b.nextSlot)
  index_dvd : ∀ key e, b.index.get? key = some e → b.slotBytes ∣ e.offset
  inflight_dvd : ∀ key x, b.inflight.get? key = some x → b.slotBytes ∣ x.offset
  apart : ∀ key ∈ b.inflight.keys, key ∉ b.index.keys
  pos : 0 < b.slotBytes
  next_le : b.nextSlot ≤ b.maxSlots
  max_eq : b.maxSlots = 0 ∨ b.capacityBytes ≠ 0 ∧ b.maxSlots = b.capacityBytes / b.slotBytes

theorem conserved_new {c : RawBlockConfig} (h : new c = .ok b) : b.Conserved [] := by
  unfold new at h
  dsimp only at h
  split_ifs at h with hpath halign hslot
  cases h
  exact ⟨List.Perm.refl _, nofun, nofun, nofun, by dsimp only; omega, le_rfl, Or.inl rfl⟩

theorem Conserved.of_places (h : b.Conserved held) (heq : b'.places = b.places) :
    b'.Conserved held := by
  obtain ⟨hindex, hinflight, hfree, hnext, hmax, hcap, hslot⟩ :
      b'.index = b.index ∧ b'.inflight = b.inflight ∧ b'.freeSlots = b.freeSlots ∧
        b'.nextSlot = b.nextSlot ∧ b'.maxSlots = b.maxSlots ∧
        b'.capacityBytes = b.capacityBytes ∧ b'.slotBytes = b.slotBytes := by
    simpa [places] using heq
  refine ⟨?_, ?_, ?_, ?_, ?_, ?_, ?_⟩
  · rw [indexSlots, inflightSlots, hindex, hinflight, hfree, hnext, hslot]
    exact h.slots
  · rw [hindex, hslot]
    exact h.index_dvd
  · rw [hinflight, hslot]
    exact h.inflight_dvd
  · rw [hindex, hinflight]
    exact h.apart
  · rw [hslot]
    exact h.pos
  · rw [hnext, hmax]
    exact h.next_le
  · rw [hmax, hcap, hslot]
    exact h.max_eq

/-- From `b` to `b'` chunks were evicted, at most. -/
structure Shrinks (b b' : RawBlockBackend K) : Prop where
  static : b'.static = b.static
  inflight : b'.inflight = b.inflight
  index : ∀ key e, b'.index.get? key = some e → b.index.get? key = some e
  length_le : b'.index.entries.length ≤ b.index.entries.length

theorem Shrinks.refl (b : RawBlockBackend K) : Shrinks b b := ⟨rfl, rfl, fun _ _ h => h, le_rfl⟩

theorem Shrinks.trans (h : Shrinks b b') (h' : Shrinks b' b'') : Shrinks b b'' :=
  ⟨h'.static.trans h.static, h'.inflight.trans h.inflight,
    fun key e he => h.index key e (h'.index key e he), h'.length_le.trans h.length_le⟩

theorem Shrinks.slotBytes (h : Shrinks b b') : b'.slotBytes = b.slotBytes :=
  congrArg (fun p => p.2.2.2.1) h.static

theorem Shrinks.notMem (h : Shrinks b b') {key : K} (hkey : key ∉ b.index.keys) :
    key ∉ b'.index.keys := fun hmem => by
  obtain ⟨e, he⟩ := mem_keys_iff.mp hmem
  exact hkey (mem_keys_iff.mpr ⟨e, h.index key e he⟩)

theorem Conserved.erase (h : b.Conserved held) {key : K} {e : BlockEntry}
    (he : b.index.get? key = some e) :
    Conserved { b with
      index := b.index.erase key
      freeSlots := b.freeSlots ++ [e.offset / b.slotBytes] } held := by
  have hsub : ∀ k e', (b.index.erase key).get? k = some e' → b.index.get? k = some e' := by
    simp
  refine { h with slots := ?_, index_dvd := fun k e' hk => h.index_dvd k e' (hsub k e' hk), apart :=
    fun k hk hmem => ?_ }
  · refine List.Perm.trans (perm_iff_count.mpr fun a => ?_) h.slots
    have hcount := ((perm_erase he).map fun p => p.2.offset / b.slotBytes).count_eq a
    simp only [map_cons, count_cons] at hcount
    simp only [count_append, count_singleton, indexSlots, inflightSlots]
    omega
  · obtain ⟨e', he'⟩ := mem_keys_iff.mp hmem
    exact h.apart k hk (mem_keys_iff.mpr ⟨e', hsub k e' he'⟩)

theorem shrinks_evictFrom (b : RawBlockBackend K) (victims : List K) :
    Shrinks b (b.evictFrom victims).2 ∧ ((b.evictFrom victims).1 = true →
      (b.evictFrom victims).2.index.entries.length < b.index.entries.length) := by
  fun_induction b.evictFrom victims with
  | case1 b => exact ⟨.refl b, nofun⟩
  | case2 b victim victims hskip ih => exact ih
  | case3 b victim victims hskip he ih =>
    obtain ⟨hshrinks, hlt⟩ := ih
    exact ⟨{ hshrinks with }, hlt⟩
  | case4 b victim victims hskip e he =>
    have hlen : (b.index.erase victim).entries.length < b.index.entries.length := by
      rw [(perm_erase he).length_eq, length_cons]
      exact Nat.lt_succ_self _
    refine ⟨⟨rfl, rfl, fun key e' hkey => ?_, hlen.le⟩, fun _ => hlen⟩
    rw [get?_erase] at hkey
    split_ifs at hkey
    exact hkey

theorem Conserved.evictFrom (h : b.Conserved held) (victims : List K) :
    (b.evictFrom victims).2.Conserved held := by
  fun_induction b.evictFrom victims with
  | case1 => exact h
  | case2 b victim victims hskip ih => exact ih h
  | case3 b victim victims hskip he ih => exact ih (h.of_places rfl)
  | case4 b victim victims hskip e he => exact (h.erase he).of_places rfl

theorem shrinks_takeSlot (b : RawBlockBackend K) : Shrinks b b.takeSlot.2 := by
  fun_cases takeSlot
  · exact ⟨rfl, rfl, fun _ _ he => he, le_rfl⟩
  · exact ⟨rfl, rfl, fun _ _ he => he, le_rfl⟩
  · exact .refl b

theorem shrinks_allocateSlot (b : RawBlockBackend K) (sizeBytes : Except PyError ℕ) :
    Shrinks b (b.allocateSlot sizeBytes).2 := by
  fun_cases b.allocateSlot sizeBytes
  · exact .refl b
  · exact ⟨rfl, rfl, fun _ _ he => he, le_rfl⟩
  case case3 b' _ =>
    have h := shrinks_takeSlot b'
    exact { h with }

variable {sizeBytes : Except PyError ℕ}

theorem shrinks_reserveRound (h : b.reserveRound sizeBytes = .inr b') :
    Shrinks b b' ∧ b'.index.entries.length < b.index.entries.length := by
  have hall := shrinks_allocateSlot b sizeBytes
  revert h
  fun_cases b.reserveRound sizeBytes <;> rintro ⟨⟩
  case case2 e b₁ halloc hkind hevict =>
    obtain ⟨hshrinks, hlt⟩ := shrinks_evictFrom b₁ b₁.lru.keys
    rw [halloc] at hall
    rw [← evictOne, hevict] at hshrinks hlt
    exact ⟨hall.trans hshrinks, (hlt rfl).trans_le hall.length_le⟩

theorem reserveLoop_of_lt {n n' : ℕ} (h : b.index.entries.length < n)
    (h' : b.index.entries.length < n') :
    reserveLoop sizeBytes n b = reserveLoop sizeBytes n' b := by
  induction n generalizing b n' with
  | zero => exact absurd h (Nat.not_lt_zero _)
  | succ n ih =>
    obtain ⟨n', rfl⟩ := Nat.exists_eq_succ_of_ne_zero (Nat.ne_zero_of_lt h')
    rw [reserveLoop, reserveLoop]
    cases hr : b.reserveRound sizeBytes with
    | inl r => rfl
    | inr b₁ =>
      have hlt := (shrinks_reserveRound hr).2
      exact ih (by omega) (by omega)

/-- **The loop ends**: `reserveSlot` is what the source computes round by round. -/
theorem reserveSlot_eq (b : RawBlockBackend K) (sizeBytes : Except PyError ℕ) :
    b.reserveSlot sizeBytes =
      match b.reserveRound sizeBytes with
      | .inl r => r
      | .inr b => b.reserveSlot sizeBytes := by
  rw [reserveSlot, reserveLoop]
  cases hr : b.reserveRound sizeBytes with
  | inl r => rfl
  | inr b₁ => exact reserveLoop_of_lt (shrinks_reserveRound hr).2 (Nat.lt_succ_self _)

/-- The slot that an allocation has taken. -/
def heldSlots (slotBytes : ℕ) : Except PyError ℕ → List ℕ
  | .ok offset => [offset / slotBytes]
  | .error _ => []

/-- What an allocation leaves behind, with or without evictions. -/
structure Reserved (b : RawBlockBackend K) (r : Except PyError ℕ × RawBlockBackend K) : Prop where
  conserved : r.2.Conserved (heldSlots b.slotBytes r.1)
  shrinks : Shrinks b r.2
  dvd : ∀ offset, r.1 = .ok offset → b.slotBytes ∣ offset

theorem Reserved.of_shrinks {r : Except PyError ℕ × RawBlockBackend K} (h : Reserved b' r)
    (hb : Shrinks b b') : Reserved b r := by
  have hslot := hb.slotBytes
  exact ⟨hslot ▸ h.conserved, hb.trans h.shrinks, hslot ▸ h.dvd⟩

section
variable (h : b.Conserved [])

include h

theorem Conserved.takeSlot : Reserved b b.takeSlot := by
  suffices hmoved : b.takeSlot.2.Conserved (heldSlots b.slotBytes b.takeSlot.1) ∧
      ∀ offset, b.takeSlot.1 = .ok offset → b.slotBytes ∣ offset from
    ⟨hmoved.1, shrinks_takeSlot b, hmoved.2⟩
  fun_cases takeSlot
  next slot hlast =>
    obtain ⟨ys, hys⟩ := getLast?_eq_some_iff.mp hlast
    have hdiv : slot * b.slotBytes / b.slotBytes = slot := Nat.mul_div_cancel _ h.pos
    refine ⟨{ h with slots := ?_ },
      fun offset ho => ?_⟩
    · refine List.Perm.trans (perm_iff_count.mpr fun a => ?_) h.slots
      simp only [heldSlots, hdiv, hys, dropLast_concat, count_append, nil_append,
        count_singleton, indexSlots, inflightSlots]
      omega
    · cases ho
      exact Nat.dvd_mul_left _ _
  next hlt =>
    have hdiv : b.nextSlot * b.slotBytes / b.slotBytes = b.nextSlot :=
      Nat.mul_div_cancel _ h.pos
    refine ⟨{ h with slots := ?_, next_le := hlt },
      fun offset ho => ?_⟩
    · rw [range_succ]
      refine perm_iff_count.mpr fun a => ?_
      have hcount := h.slots.count_eq a
      simp only [count_append, nil_append, indexSlots, inflightSlots] at hcount
      simp only [heldSlots, hdiv, count_append, count_singleton, indexSlots, inflightSlots]
      omega
    · cases ho
      exact Nat.dvd_mul_left _ _
  · exact ⟨h, nofun⟩

omit h in
theorem Conserved.setCapacity (h : b.Conserved held) {capacityBytes : ℕ}
    (hcap : (if b.capacityBytes = 0 then sizeBytes else .ok b.capacityBytes) = .ok capacityBytes) :
    Conserved { b with
      capacityBytes
      maxSlots := if b.maxSlots = 0 then capacityBytes / b.slotBytes else b.maxSlots } held := by
  refine { h with next_le := ?_, max_eq := ?_ }
  · dsimp only
    split_ifs with hzero
    · exact (h.next_le.trans hzero.le).trans (Nat.zero_le _)
    · exact h.next_le
  · dsimp only
    split_ifs with hzero
    · by_cases hne : capacityBytes = 0
      · exact Or.inl (by rw [hne, Nat.zero_div])
      · exact Or.inr ⟨hne, rfl⟩
    · obtain ⟨hb, hdiv⟩ := h.max_eq.resolve_left hzero
      grind

variable (sizeBytes : Except PyError ℕ)

theorem Conserved.allocateSlot : Reserved b (b.allocateSlot sizeBytes) := by
  suffices hmoved : (b.allocateSlot sizeBytes).2.Conserved
      (heldSlots b.slotBytes (b.allocateSlot sizeBytes).1) ∧
      ∀ offset, (b.allocateSlot sizeBytes).1 = .ok offset → b.slotBytes ∣ offset from
    ⟨hmoved.1, shrinks_allocateSlot b sizeBytes, hmoved.2⟩
  fun_cases b.allocateSlot sizeBytes with
  | case1 => exact ⟨h, nofun⟩
  | case2 capacityBytes hcap => exact ⟨h.setCapacity hcap, nofun⟩
  | case3 capacityBytes hcap =>
    have hset := h.setCapacity hcap
    exact ⟨hset.takeSlot.conserved, hset.takeSlot.dvd⟩

theorem Conserved.reserveRound :
    (∀ r, b.reserveRound sizeBytes = .inl r → Reserved b r) ∧
      ∀ b', b.reserveRound sizeBytes = .inr b' → b'.Conserved [] := by
  have hall := h.allocateSlot sizeBytes
  unfold RawBlockBackend.reserveRound
  generalize b.allocateSlot sizeBytes = r at hall
  obtain ⟨e | offset, b₁⟩ := r
  · have hcons : b₁.Conserved [] := hall.conserved
    dsimp only
    split_ifs
    · have hevict := hcons.evictFrom b₁.lru.keys
      have hshrinks := (shrinks_evictFrom b₁ b₁.lru.keys).1
      rw [← evictOne] at hevict hshrinks
      generalize b₁.evictOne = r at hevict hshrinks
      obtain ⟨_ | _, b₂⟩ := r
      · refine ⟨fun r hr => ?_, nofun⟩
        cases hr
        exact ⟨hevict, hall.shrinks.trans hshrinks, nofun⟩
      · grind
    · grind
  · grind

/-- **The loop that allocates a slot.** -/
theorem Conserved.reserveLoop (n : ℕ) : Reserved b (reserveLoop sizeBytes n b) := by
  fun_induction RawBlockBackend.reserveLoop sizeBytes n b with
  | case1 b => exact ⟨h, .refl b, nofun⟩
  | case2 n b r hr => exact (h.reserveRound sizeBytes).1 r hr
  | case3 n b b₁ hr ih =>
    exact (ih ((h.reserveRound sizeBytes).2 b₁ hr)).of_shrinks (shrinks_reserveRound hr).1

omit h in
theorem Conserved.setInflight {key : K} {x : Inflight} (h : b.Conserved [x.offset / b.slotBytes])
    (hdvd : b.slotBytes ∣ x.offset) (hindex : key ∉ b.index.keys) (hnew : key ∉ b.inflight.keys) :
    Conserved { b with inflight := b.inflight.set key x } [] := by
  refine ⟨?_, h.index_dvd, fun k x' hx' => ?_, fun k hk => ?_, h.pos, h.next_le, h.max_eq⟩
  · refine List.Perm.trans (perm_iff_count.mpr fun a => ?_) h.slots
    simp only [inflightSlots, indexSlots, entries_set_of_notMem hnew, map_append,
      map_cons, map_nil, count_append, count_singleton, nil_append]
    omega
  · rw [get?_set] at hx'
    split_ifs at hx'
    · cases hx'
      exact hdvd
    · exact h.inflight_dvd k x' hx'
  · rcases mem_keys_set.mp hk with heq | hmem
    · exact heq ▸ hindex
    · exact h.apart k hmem

/-- **The section that begins a put**: what it leaves behind, by its result. -/
theorem Conserved.beginPut (key : K) (obj : ObjData) :
    (b.beginPut sizeBytes key obj).2.Conserved [] ∧
      ∃ b₁, Shrinks b b₁ ∧
        ((b.beginPut sizeBytes key obj).2.places = b₁.places ∧
          (b.beginPut sizeBytes key obj).2.static = b₁.static ∧
          (∀ offset, (b.beginPut sizeBytes key obj).1 ≠ .ok (some offset)) ∨
        ∃ offset, (b.beginPut sizeBytes key obj).1 = .ok (some offset) ∧
          key ∉ b.index.keys ∧ key ∉ b.inflight.keys ∧
          (b.beginPut sizeBytes key obj).2 =
            { b₁ with inflight := b₁.inflight.set key ⟨offset, metadataOf obj, false⟩ }) := by
  have hres := h.reserveLoop sizeBytes (b.index.entries.length + 1)
  rw [← reserveSlot] at hres
  fun_cases b.beginPut sizeBytes key obj with
  | case1 => exact ⟨h.of_places rfl, b, .refl b, Or.inl ⟨rfl, rfl, nofun⟩⟩
  | case2 hskip e b₁ hr =>
    rw [hr] at hres
    dsimp only
    split_ifs
    all_goals exact ⟨hres.conserved.of_places rfl, b₁, hres.shrinks, Or.inl ⟨rfl, rfl, nofun⟩⟩
  | case3 hskip offset b₁ hr =>
    rw [hr] at hres
    rw [not_or] at hskip
    have hslot : b₁.slotBytes = b.slotBytes := hres.shrinks.slotBytes
    have hinflight : b₁.inflight = b.inflight := hres.shrinks.inflight
    refine ⟨Conserved.setInflight ?_ ?_ (hres.shrinks.notMem hskip.1) (hinflight ▸ hskip.2), b₁,
      hres.shrinks, Or.inr ⟨offset, rfl, hskip.1, hskip.2, rfl⟩⟩
    · rw [hslot]
      exact hres.conserved
    · rw [hslot]
      exact hres.dvd offset rfl

theorem Conserved.beginPut_frame (key : K) (obj : ObjData) :
    (b.beginPut sizeBytes key obj).2.static = b.static ∧
      (∀ k e, (b.beginPut sizeBytes key obj).2.index.get? k = some e → b.index.get? k = some e) ∧
      ∀ k x, b.inflight.get? k = some x →
        (b.beginPut sizeBytes key obj).2.inflight.get? k = some x := by
  obtain ⟨-, b₁, hshrinks, heffect⟩ := h.beginPut sizeBytes key obj
  rcases heffect with ⟨hplaces, hstatic, -⟩ | ⟨offset, -, -, hnew, heq⟩
  · have hindex : (b.beginPut sizeBytes key obj).2.index = b₁.index :=
      congrArg (fun p => p.1) hplaces
    have hinflight : (b.beginPut sizeBytes key obj).2.inflight = b₁.inflight :=
      congrArg (fun p => p.2.1) hplaces
    refine ⟨hstatic.trans hshrinks.static, ?_, ?_⟩
    · rw [hindex]
      exact hshrinks.index
    · rw [hinflight, hshrinks.inflight]
      exact fun _ _ hx => hx
  · rw [heq]
    refine ⟨hshrinks.static, hshrinks.index, fun k x hx => ?_⟩
    rw [get?_set, hshrinks.inflight, if_neg]
    · exact hx
    · rintro rfl
      exact hnew (mem_keys_iff.mpr ⟨x, hx⟩)

/-- **The section after the write.** -/
theorem Conserved.finishWrite (key : K) : (b.finishWrite key).Conserved [] := by
  unfold RawBlockBackend.finishWrite
  cases hx : b.inflight.get? key with
  | none => exact h
  | some x =>
    have hsub : ∀ k x', (b.inflight.erase key).get? k = some x' → b.inflight.get? k = some x' := by
      simp
    have hkeys : ∀ k ∈ (b.inflight.erase key).keys, k ≠ key ∧ k ∈ b.inflight.keys := fun k hk =>
      mem_keys_erase.mp hk
    have hcount := fun a =>
      ((perm_erase hx).map fun p => p.2.offset / b.slotBytes).count_eq a
    simp only [map_cons, count_cons] at hcount
    dsimp only
    split_ifs
    · refine ⟨?_, h.index_dvd, fun k x' hk => h.inflight_dvd k x' (hsub k x' hk), fun k hk =>
        h.apart k (hkeys k hk).2, h.pos, h.next_le, h.max_eq⟩
      refine List.Perm.trans (perm_iff_count.mpr fun a => ?_) h.slots
      have := hcount a
      simp only [count_append, count_singleton, indexSlots, inflightSlots, nil_append]
      omega
    · have hnew : key ∉ b.index.keys := h.apart key (mem_keys_iff.mpr ⟨x, hx⟩)
      refine Conserved.of_places (b := { b with
        inflight := b.inflight.erase key
        index := b.index.set key ⟨x.offset, x.metadata.size, x.metadata⟩ }) ?_ rfl
      refine ⟨?_, fun k e he => ?_, fun k x' hk => h.inflight_dvd k x' (hsub k x' hk),
        fun k hk hmem => ?_, h.pos, h.next_le, h.max_eq⟩
      · refine List.Perm.trans (perm_iff_count.mpr fun a => ?_) h.slots
        have := hcount a
        simp only [count_append, count_singleton, indexSlots, inflightSlots,
          nil_append, entries_set_of_notMem hnew, map_append, map_cons,
          map_nil]
        omega
      · rw [get?_set] at he
        split_ifs at he
        · cases he
          exact h.inflight_dvd key x hx
        · exact h.index_dvd k e he
      · obtain ⟨hne, hk⟩ := hkeys k hk
        rcases mem_keys_set.mp hmem with heq | hmem
        · exact hne heq
        · exact h.apart k hk hmem

omit h in
theorem inflight_finishWrite (b : RawBlockBackend K) (key k : K) :
    (b.finishWrite key).inflight.get? k = if k = key then none else b.inflight.get? k := by
  fun_cases finishWrite
  · grind
  all_goals exact get?_erase

omit h in
theorem Conserved.modifyInflight (h : b.Conserved held) (key : K) {f : Inflight → Inflight}
    (hf : ∀ x, (f x).offset = x.offset) :
    Conserved { b with inflight := b.inflight.modify key f } held := by
  have hslots : (b.inflight.modify key f).entries.map (fun p => p.2.offset / b.slotBytes) =
      b.inflight.entries.map fun p => p.2.offset / b.slotBytes :=
    map_entries_modify fun x => by rw [hf]
  refine ⟨?_, h.index_dvd, fun k x hk => ?_, fun k hk => ?_, h.pos, h.next_le, h.max_eq⟩
  · rw [inflightSlots, hslots]
    exact h.slots
  · rw [get?_modify] at hk
    split_ifs at hk with heq
    · obtain ⟨x', hx', rfl⟩ := Option.map_eq_some_iff.mp hk
      rw [hf]
      exact h.inflight_dvd key x' hx'
    · exact h.inflight_dvd k x hk
  · obtain ⟨x, hx⟩ := mem_keys_iff.mp hk
    rw [get?_modify] at hx
    refine h.apart k (mem_keys_iff.mpr ?_)
    split_ifs at hx with heq
    · obtain ⟨x', hx', -⟩ := Option.map_eq_some_iff.mp hx
      exact ⟨x', heq ▸ hx'⟩
    · exact ⟨x, hx⟩

theorem Conserved.remove (key : K) : (b.remove key).2.Conserved [] := by
  unfold RawBlockBackend.remove
  cases he : b.index.get? key with
  | none =>
    have hindex := erase_of_notMem (get?_eq_none_iff.mp he)
    refine Conserved.of_places (h.modifyInflight key (f := fun x => { x with canceled := true })
      fun _ => rfl) ?_
    simp [places, hindex]
  | some e =>
    exact ((h.erase he).modifyInflight key (f := fun x => { x with canceled := true })
      fun _ => rfl).of_places rfl

end

section
variable (b : RawBlockBackend K)

theorem places_contains (key : K) (pin : Bool) :
    (b.contains key pin).2.places = b.places ∧ (b.contains key pin).2.static = b.static := by
  unfold contains
  split_ifs <;> exact ⟨rfl, rfl⟩

theorem places_batchedAsyncContains (keys : List K) (pin : Bool) :
    (b.batchedAsyncContains pin keys).2.places = b.places ∧
      (b.batchedAsyncContains pin keys).2.static = b.static := by
  induction keys generalizing b with
  | nil => exact ⟨rfl, rfl⟩
  | cons key keys ih =>
    obtain ⟨hplaces, hstatic⟩ := places_contains b key pin
    unfold batchedAsyncContains
    grind

theorem places_pin (key : K) :
    (b.pin key).2.places = b.places ∧ (b.pin key).2.static = b.static := by
  unfold pin
  split_ifs <;> exact ⟨rfl, rfl⟩

theorem places_unpin (key : K) :
    (b.unpin key).2.places = b.places ∧ (b.unpin key).2.static = b.static := by
  unfold unpin
  split_ifs <;> exact ⟨rfl, rfl⟩

end

end LMCache.RawBlockBackend
