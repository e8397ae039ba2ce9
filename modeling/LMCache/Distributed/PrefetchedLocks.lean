import LMCache.Distributed.StorageManager

/-! # The locks of a prefetch

`submit_prefetch_task` locks all keys of the list that are readable and gives the locks behind the
first miss back.  The locks that stay are those of the keys it reports, for lists with repeated keys
as well, since both loops run over the list and not over the dictionary of the answers.

To give locks back it calls `finish_read`, which frees the temporary objects.  There are none, and
the mixed allocator raises on an empty batch (`l1_raises_iff`): then the caller gets an exception in
place of the handle, with the reported locks taken.

**Main result**: `prefetch_locks_reported`. -/

namespace LMCache.Distributed

open List L1Manager

variable {K : Type} [DecidableEq K] {clock : ℕ → ℤ} {s : L1Run K} {keys : List K}

theorem sound_reachable (h : (l1System K clock).Reachable s) : s.manager.Sound clock := by
  refine h.invariant (I := fun s => s.manager.Sound clock) ?_ ?_
  · rintro s ⟨useLazy, buffer, k, initAddressSpace, w, r, rfl⟩ key e hl
    simp [L1Manager.new] at hl
  · rintro s c s' hs rfl
    refine Entrywise.run (sound_rule clock fun _ => True) hs ?_
    cases c <;> simp [L1Call.Creates]

theorem permanent_reserveAll {c : Cells K} (h : c.Permanent) (keys : List K) :
    (c.reserveAll keys).Permanent := by
  intro key cell hcell
  obtain ⟨cell', hcell', rfl⟩ := Option.map_eq_some_iff.mp hcell
  have := h key cell' hcell'
  grind

theorem raised_giveBack (h : (l1System K clock).Reachable s)
    (hperm : ∀ key e, s.manager.objects.lookup key = some e → e.isTemporary = false)
    (hq : s.manager.Quiet clock s.manager.ticks (s.manager.ticks + 5 * keys.length))
    (skipped : List K) (hlen : skipped.length ≤ keys.length) :
    ((s.manager.reserveRead clock keys).manager.finishRead clock skipped).raised.isSome = true ↔
      s.manager.memoryManager.useLazy = false := by
  obtain ⟨-, hcells, hsteady, hticks⟩ :=
    ((sound_reachable h).steady hq).reserveRead keys (by omega)
  have hcperm : (s.manager.cells (clock s.manager.ticks)).Permanent := by
    intro key cell hcell
    obtain ⟨e, hl, rfl⟩ := Option.map_eq_some_iff.mp hcell
    exact hperm key e hl
  have hmemory : (s.manager.reserveRead clock keys).manager.memoryManager =
      s.manager.memoryManager := ((keepsView_reserveReadKey clock).loop clock keys s.manager).1
  rw [hsteady.raised_finishRead skipped (by omega) (hcells ▸ permanent_reserveAll hcperm keys),
    hmemory, L1MemoryManager.free_raises_iff (uniform_reachable h)]
  simp

/-- **Read locks of a prefetch**: one for each of the leading keys that are readable, none for the
others.  Their number is returned unless the mixed allocator is used and a later key is readable. -/
theorem prefetch_locks_reported (h : (l1System K clock).Reachable s) (keys : List K)
    (hperm : ∀ key e, s.manager.objects.lookup key = some e → e.isTemporary = false)
    (hq : s.manager.Quiet clock s.manager.ticks (s.manager.ticks + 5 * keys.length)) :
    let r := submitPrefetchTask clock s.manager keys
    let hits := (keys.takeWhile (readable clock s.manager)).length
    (∀ key, readers clock r.2 key = readers clock s.manager key + (keys.take hits).count key) ∧
      (r.1 = .ok ⟨hits⟩ ↔ s.manager.memoryManager.useLazy = true ∨
        ∀ key ∈ keys.drop hits, readable clock s.manager key = false) := by
  intro r hits
  obtain ⟨hresult, hreaders⟩ := submitPrefetchTask_effect (sound_reachable h) hq
  refine ⟨fun key => ?_, ?_⟩
  · have htake :=
      List.prefix_iff_eq_take.mp <| takeWhile_prefix (l := keys) (readable clock s.manager)
    rw [hreaders, ← htake]
  · show (submitPrefetchTask clock s.manager keys).1 = _ ↔ _
    rw [hresult]
    have hskip : ((keys.drop hits).filter (readable clock s.manager)).isEmpty = true ↔
        ∀ key ∈ keys.drop hits, readable clock s.manager key = false := by
      simp
    have hraised := raised_giveBack h hperm hq ((keys.drop hits).filter (readable clock s.manager))
      ((length_filter_le _ _).trans (by simp))
    rw [← hskip]
    grind

/-- Keys 0 and 1 are written and key 2 is missing; key 0 is asked for twice. -/
def prefetchAround (useLazy : Bool) : L1Run ℕ :=
  ([.reserveWrite 0 [0, 1] [false, false] smallLayout .new, .finishWrite 0 [0, 1]] :
    List (L1Call ℕ)).foldl (L1Call.run fun _ => 0) ⟨.new useLazy (.new 64 4 none) 1 1, []⟩

theorem reachable_prefetchAround (useLazy : Bool) :
    (l1System ℕ fun _ => 0).Reachable (prefetchAround useLazy) :=
  LTS.Reachable.foldl (fun _ _ => rfl) _ (.init ⟨useLazy, 64, 2, none, 1, 1, rfl⟩)

theorem permanent_prefetchAround (useLazy : Bool) :
    ∀ key e, (prefetchAround useLazy).manager.objects.lookup key = some e →
      e.isTemporary = false := by
  have hall : ∀ x ∈ (prefetchAround useLazy).manager.objects.entries, x.2.isTemporary = false := by
    cases useLazy <;> decide +kernel
  exact fun key e hl => hall ⟨key, e⟩ (AList.mem_lookup_iff.mp hl)

theorem prefetch_locks_reported_lazy :
    let s := prefetchAround true
    let r := submitPrefetchTask (fun _ => 0) s.manager [0, 2, 0, 1]
    r.1 = .ok ⟨1⟩ ∧ readers (fun _ => 0) r.2 0 = 1 ∧ readers (fun _ => 0) r.2 1 = 0 := by
  have h := prefetch_locks_reported (reachable_prefetchAround true) [0, 2, 0, 1]
    (permanent_prefetchAround true) (by decide +kernel)
  have hhits : ([0, 2, 0, 1].takeWhile (readable (fun _ => 0) (prefetchAround true).manager)).length
      = 1 := by decide +kernel
  rw [hhits] at h
  refine ⟨h.2.mpr (Or.inl (by decide +kernel)), (h.1 0).trans ?_, (h.1 1).trans ?_⟩
  all_goals decide +kernel

/-- With the mixed allocator the caller gets an exception, and key 0 stays locked. -/
theorem prefetch_raises :
    let r := submitPrefetchTask (fun _ => 0) (prefetchAround false).manager [0, 2, 0, 1]
    r.1 = .error ⟨.indexError, "list index out of range"⟩ ∧ readers (fun _ => 0) r.2 0 = 1 := by
  decide +kernel

end LMCache.Distributed
