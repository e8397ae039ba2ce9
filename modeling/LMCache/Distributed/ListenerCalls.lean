import LMCache.Distributed.LRUEvictionPolicy

/-! # What the listeners hear

Each call of the L1 manager tells the registered listeners of its successes through one callback;
`finish_read` tells them of the temporary objects it has deleted as well.  A success is an
assignment of `SUCCESS` to the returned dictionary.

`reserve_write` has two silent exits: it returns before the callback when no key needs a new object,
and in mode `update`, although it may have locked keys for writing by then.  A call that raises
tells nothing; `delete` and `clear` raise only when they have nothing to tell.

**Main result**: `listeners_told`. -/

namespace LMCache

open Notification List L1Manager

variable {K : Type} [DecidableEq K] {clock : ℕ → ℤ} {s : L1Run K} {m : L1Manager K}

/-- The callbacks of `L1ManagerListener`. -/
inductive Callback where
  | reservedRead
  | readFinished
  | reservedWrite
  | writeFinished
  | deletedByManager
deriving DecidableEq, Repr

/-- The keys that a notification hands to a callback. -/
def Notification.through (c : Callback) : Notification K → List K
  | .onKeysReservedRead keys => if c = .reservedRead then keys else []
  | .onKeysReadFinished keys => if c = .readFinished then keys else []
  | .onKeysReservedWrite keys => if c = .reservedWrite then keys else []
  | .onKeysWriteFinished keys => if c = .writeFinished then keys else []
  | .onKeysDeletedByManager keys => if c = .deletedByManager then keys else []

/-- What each listener receives through a callback during a call. -/
def Outcome.told {R : Type} (o : Outcome K R) (c : Callback) : List K :=
  o.notified.flatMap (·.through c)

/-- The keys that a call reports as `SUCCESS`, once per success. -/
def succeeded (answers : List (Answer K L1Error)) : List K := keysOf (· = .success) answers

def succeededWith (answers : List (Answer K L1OperationResult)) : List K :=
  keysOf (fun r => r.1 = .success) answers

omit [DecidableEq K] in
theorem succeeded_map {R : Type} (answers : List (Answer K (L1Error × R))) :
    succeeded (answers.map fun a => { a with result := a.result.1 }) =
      keysOf (fun r => r.1 = .success) answers := by
  unfold succeeded keysOf
  rw [filter_map, map_map]
  rfl

/-- **`finish_read`** that returns. -/
theorem told_finishRead {keys : List K} (h : (m.finishRead clock keys).raised = none) :
    (m.finishRead clock keys).told .readFinished = succeeded (m.finishRead clock keys).answers ∧
      ((m.finishRead clock keys).told .deletedByManager).Nodup ∧
      ∀ key, key ∈ (m.finishRead clock keys).told .deletedByManager ↔
        key ∈ m.objects.keys ∧ key ∉ (m.finishRead clock keys).manager.objects.keys := by
  have hloop := (removing_finishReadKey clock).loop clock keys m
  have hanswers : succeeded (m.finishRead clock keys).answers =
      keysOf (fun r : L1Error × Option ℕ => r.1 = .success)
        (m.forItems clock (finishReadKey clock) keys).1 := succeeded_map _
  have hnotified : (m.finishRead clock keys).notified =
      [.onKeysReadFinished (succeeded (m.finishRead clock keys).answers),
        .onKeysDeletedByManager
          ((removedBy (m.forItems clock (finishReadKey clock) keys).1).map Prod.fst)] := by
    rw [map_fst_removedBy, hanswers]
    show (if (m.finishRead clock keys).raised.isSome then _ else _) = _
    rw [h]
    rfl
  simp only [Outcome.told, hnotified, flatMap_cons, flatMap_nil, through, if_true,
    reduceCtorEq, if_false, nil_append, append_nil]
  exact ⟨trivial, hloop.nodup, hloop.mem_keys⟩

/-- **`delete`**: it raises only if no key was deleted. -/
theorem told_delete (hu : m.memoryManager.Uniform) (keys : List K) :
    (m.delete clock keys).told .deletedByManager = succeeded (m.delete clock keys).answers := by
  have hanswers : succeeded (m.delete clock keys).answers =
      keysOf (fun r : L1Error × Option ℕ => r.1 = .success)
        (m.forItems clock (deleteKey clock) keys).1 := succeeded_map _
  have hnotified : (m.delete clock keys).notified =
      if (m.delete clock keys).raised.isSome then []
      else [.onKeysDeletedByManager (succeeded (m.delete clock keys).answers)] := by
    rw [hanswers]
    rfl
  rw [Outcome.told, hnotified]
  split_ifs with hraised
  · rw [raised_delete, L1MemoryManager.free_raises_iff hu] at hraised
    rw [hanswers, keysOf_delete, keysOf_eq_nil_of_frees hraised.2]
    rfl
  · simp [through]

omit [DecidableEq K] in
/-- **`clear`**: it raises only if there is no key. -/
theorem told_clear (hu : m.memoryManager.Uniform) :
    m.clear.told .deletedByManager = m.objects.keys := by
  have hfree := L1MemoryManager.free_raises_iff hu (m.objects.entries.map fun e => e.2.memoryObj)
  unfold Outcome.told clear
  dsimp only
  split_ifs with hraised
  · have hempty := (hfree.mp hraised).2
    rw [map_eq_nil_iff] at hempty
    simp [AList.keys, List.keys, hempty]
  · simp [through]

/-! ### `reserve_write` -/

/-- What the first loop of `reserve_write` does at a key: a key that it locks is a hit. -/
def writeProbe (clock : ℕ → ℤ) (mode : WriteMode) (m : L1Manager K) (now : ℕ) (item : K × Bool) :
    Option ℕ :=
  match m.objects.lookup item.1 with
  | none => some 0
  | some e =>
    if mode = .new then some 0
    else if !(e.availableForWrite (clock now) (clock (now + 1))).1 then
      some (e.availableForWrite (clock now) (clock (now + 1))).2
    else none

/-- One of the keys has an entry that `reserve_write` locks. -/
def SomeWritable (clock : ℕ → ℤ) (mode : WriteMode) (m : L1Manager K) (items : List (K × Bool)) :
    Prop :=
  SomeHit (writeProbe clock mode m) m.ticks items

section
variable (clock) (m) (mode : WriteMode) (items : List (K × Bool))

/-- **The first loop succeeds**, by the entries before the call. -/
theorem succeeded_answered_eq_nil_iff :
    succeededWith (answered (m.forItems clock (reserveWriteKey clock mode) items).1) = [] ↔
      ¬ SomeWritable clock mode m items := by
  have h : (∃ a ∈ (m.forItems clock (reserveWriteKey clock mode) items).1,
      a.result.map Prod.fst = some .success) ↔ SomeHit (writeProbe clock mode m) m.ticks items := by
    refine exists_hit_iff clock
      (p := fun r : Option L1OperationResult => r.map Prod.fst = some .success)
      (J := fun now _ m' => m' = { m with ticks := now }) ?_ ?_ ?_
    · rintro now item items _ rfl hprobe
      revert hprobe
      fun_cases writeProbe <;> simp_all [reserveWriteKey, tick]
    · rintro now item items _ n rfl hprobe
      revert hprobe
      fun_cases writeProbe <;> simp_all [reserveWriteKey, tick]
    · rfl
  rw [SomeWritable, ← h, succeededWith, keysOf, map_eq_nil_iff, filter_eq_nil_iff, answered]
  simp only [forall_mem_filterMap, Option.map_eq_some_iff, decide_eq_true_eq, not_exists, not_and]
  constructor
  · intro hnone a ha r hr
    exact hnone a ha _ ⟨r, hr, rfl⟩
  · rintro hnone a ha _ ⟨r, hr, rfl⟩
    exact hnone a ha r hr

/-- **Keys that need an object** are those without an entry before the call. -/
theorem needToAllocate_eq_nil_iff :
    needToAllocate (m.forItems clock (reserveWriteKey clock mode) items).1 = [] ↔
      ∀ item ∈ items, item.1 ∈ m.objects.keys := by
  constructor
  · intro hnil item hitem
    obtain ⟨done, rest, rfl⟩ := append_of_mem hitem
    by_contra hkey
    rw [mem_keys_iff_view, Option.not_isSome_iff_eq_none] at hkey
    -- the loop makes no entries, so the key is still without one when the loop comes to it
    have hview := (relocked_loop clock mode done m).absent _ hkey
    rw [view, Option.map_eq_none_iff] at hview
    have hneed : item ∈ needToAllocate
        (m.forItems clock (reserveWriteKey clock mode) (done ++ item :: rest)).1 := by
      refine mem_map.mpr
        ⟨_, mem_filter.mpr ⟨mem_forItems.mpr ⟨done, item, rest, rfl, rfl⟩, ?_⟩, rfl⟩
      simp [answerOf, reserveWriteKey, hview]
    exact not_mem_nil (hnil ▸ hneed)
  · intro hall
    refine eq_nil_iff_forall_not_mem.mpr fun item hitem => ?_
    have hnone := view_of_mem_needToAllocate hitem
    obtain ⟨a, ha, rfl⟩ := mem_map.mp hitem
    obtain ⟨done, item, rest, hitems, rfl⟩ := mem_forItems.mp (mem_filter.mp ha).1
    have hkey := mem_keys_iff_view.mp (hall item (by simp [hitems]))
    simp_all [answerOf]

end

/-- **`reserve_write`** is silent unless it tries to allocate. -/
theorem told_reserveWrite (keys : List K) (isTemporary : List Bool) (y : Layout)
    (mode : WriteMode) :
    let o := m.reserveWrite clock keys isTemporary y mode
    o.told .reservedWrite = succeededWith o.answers ↔
      mode ≠ .update ∧ (∃ item ∈ keys.zip isTemporary, item.1 ∉ m.objects.keys) ∨
        ¬ SomeWritable clock mode m (keys.zip isTemporary) := by
  have hneed := needToAllocate_eq_nil_iff clock m mode (keys.zip isTemporary)
  have hnew : (∃ item ∈ keys.zip isTemporary, item.1 ∉ m.objects.keys) ↔
      needToAllocate
        (m.forItems clock (reserveWriteKey clock mode) (keys.zip isTemporary)).1 ≠ [] := by
    rw [ne_eq, hneed, not_forall]
    simp
  rw [hnew, ← succeeded_answered_eq_nil_iff]
  unfold Outcome.told reserveWrite
  generalize m.forItems clock (reserveWriteKey clock mode) (keys.zip isTemporary) = r
  by_cases hneed : needToAllocate r.1 = []
  · simp only [hneed, isEmpty_nil, if_true, flatMap_nil, ne_eq, not_true, and_false, false_or]
    exact eq_comm
  · by_cases hmode : mode = .update
    · simp [hneed, hmode, succeededWith, keysOf, answerAll]
    · simp [hneed, hmode, through, succeededWith]

/-- **What the listeners are told**: the successes of each call.  The exception is `reserve_write`:
it tells its successes exactly if one of the keys is without an entry and the mode is not `update`,
or if there is no entry that it locks. -/
theorem listeners_told (h : (l1System K clock).Reachable s) (keys : List K)
    (isTemporary : List Bool) (y : Layout) (mode : WriteMode) :
    let m := s.manager
    let o := m.reserveWrite clock keys isTemporary y mode
    ((m.reserveRead clock keys).told .reservedRead =
        succeededWith (m.reserveRead clock keys).answers) ∧
      ((m.finishRead clock keys).raised = none →
        (m.finishRead clock keys).told .readFinished = succeeded (m.finishRead clock keys).answers ∧
        ((m.finishRead clock keys).told .deletedByManager).Nodup ∧
        ∀ key, key ∈ (m.finishRead clock keys).told .deletedByManager ↔
          key ∈ m.objects.keys ∧ key ∉ (m.finishRead clock keys).manager.objects.keys) ∧
      (o.told .reservedWrite = succeededWith o.answers ↔
        mode ≠ .update ∧ (∃ item ∈ keys.zip isTemporary, item.1 ∉ m.objects.keys) ∨
          ¬ SomeWritable clock mode m (keys.zip isTemporary)) ∧
      ((m.finishWrite clock keys).told .writeFinished =
        succeeded (m.finishWrite clock keys).answers) ∧
      ((m.delete clock keys).told .deletedByManager = succeeded (m.delete clock keys).answers) ∧
      m.clear.told .deletedByManager = m.objects.keys := by
  have hu := uniform_reachable h
  refine ⟨?_, told_finishRead, told_reserveWrite .., ?_, told_delete hu keys, told_clear hu⟩
  · simp [Outcome.told, L1Manager.reserveRead, through, succeededWith]
  · simp [Outcome.told, L1Manager.finishWrite, through, succeeded]

def oneWritten : L1Run ℕ :=
  ([.reserveWrite 0 [0] [false] sixBytes .all, .finishWrite 0 [0]] :
    List (L1Call ℕ)).foldl (L1Call.run fun _ => 0) ⟨.new true (.new 64 4 none) 1 1, []⟩

theorem reachable_oneWritten : (l1System ℕ fun _ => 0).Reachable oneWritten :=
  LTS.Reachable.foldl (fun _ _ => rfl) _ (.init ⟨true, 64, 2, none, 1, 1, rfl⟩)

/-- A new key next to the written one: both are reserved, and the listeners hear of both. -/
theorem listeners_told_new_key :
    let o := oneWritten.manager.reserveWrite (fun _ => 0) [0, 1] [false, false]
      ⟨[[6]], [⟨"uint8", 1⟩], by decide, rfl⟩ .all
    succeededWith o.answers = [0, 1] ∧ o.told .reservedWrite = [0, 1] := by
  have h := (listeners_told reachable_oneWritten [0, 1] [false, false]
    ⟨[[6]], [⟨"uint8", 1⟩], by decide, rfl⟩ .all).2.2.1.mpr (Or.inl (by decide +kernel))
  refine ⟨by decide +kernel, h.trans ?_⟩
  decide +kernel

/-- The written key is reserved again in mode `all`, and in mode `update` next to a missing one:
it is reported as `SUCCESS`, and the listeners hear nothing. -/
theorem reserve_write_silent :
    let o := oneWritten.manager.reserveWrite (fun _ => 0) [0] [false]
      ⟨[[6]], [⟨"uint8", 1⟩], by decide, rfl⟩ .all
    let o' := oneWritten.manager.reserveWrite (fun _ => 0) [0, 1] [false, false]
      ⟨[[6]], [⟨"uint8", 1⟩], by decide, rfl⟩ .update
    (succeededWith o.answers = [0] ∧ o.notified = []) ∧
      succeededWith o'.answers = [0] ∧ o'.notified = [] := by
  decide +kernel

end LMCache
