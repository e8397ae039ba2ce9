import LMCache.Distributed.ReservedObjects
import LMCache.Lib.Dict

/-! # The eviction policy of the L1 cache

`LRUEvictionPolicy` listens to the manager and keeps the keys that may be evicted, the least
recently used one first.  It learns of a key when a write is finished, not when the key is reserved,
and it forgets a key when the manager has deleted it.

* **Runs.** `EvictionRun` is a manager with the policy as its listener from the start.  The eviction
  controller deletes keys that the policy has named some time before, so that its calls are among
  the calls of `delete`.
* **Unfinished keys.** As a ghost, `unfinished` has the keys that a `reserve_write` has created and
  that no `finish_write` has finished since, with the expiration of the lock under which they were
  created.

**Main result**: `finished_keys_tracked`.  The policy tracks exactly the finished keys; a key whose
write lock expires before its first write is finished can be deleted, but is never evicted. -/

namespace LMCache

open List

variable {K : Type} [DecidableEq K]

/-! ### The code -/

/-- `LRUEvictionPolicy`: the keys of `_order`. -/
structure LRUEvictionPolicy (K : Type) where
  order : Dict K Unit

namespace LRUEvictionPolicy

def onKeysCreated (p : LRUEvictionPolicy K) (keys : List K) : LRUEvictionPolicy K :=
  keys.foldl (fun p key => ⟨(p.order.moveToEnd key).getD (p.order.set key ())⟩) p

def onKeysTouched (p : LRUEvictionPolicy K) (keys : List K) : LRUEvictionPolicy K :=
  keys.foldl (fun p key => ⟨(p.order.moveToEnd key).getD p.order⟩) p

def onKeysRemoved (p : LRUEvictionPolicy K) (keys : List K) : LRUEvictionPolicy K :=
  keys.foldl (fun p key => ⟨p.order.erase key⟩) p

/-- `EvictionPolicy` as a listener of the manager. -/
def notify (p : LRUEvictionPolicy K) : Notification K → LRUEvictionPolicy K
  | .onKeysReservedRead _ => p
  | .onKeysReadFinished keys => p.onKeysTouched keys
  | .onKeysReservedWrite _ => p
  | .onKeysWriteFinished keys => p.onKeysCreated keys
  | .onKeysDeletedByManager keys => p.onKeysRemoved keys

end LRUEvictionPolicy

def L1Call.notified (clock : ℕ → ℤ) (m : L1Manager K) : L1Call K → List (Notification K)
  | reserveRead _ keys => (m.reserveRead clock keys).notified
  | unsafeRead keys => (m.unsafeRead clock keys).notified
  | finishRead _ keys => (m.finishRead clock keys).notified
  | reserveWrite _ keys isTemporary layoutDesc mode =>
    (m.reserveWrite clock keys isTemporary layoutDesc mode).notified
  | finishWrite _ keys => (m.finishWrite clock keys).notified
  | delete keys => (m.delete clock keys).notified
  | clear => m.clear.notified
  | commitExpansion _ => []

def L1Call.finished (clock : ℕ → ℤ) (m : L1Manager K) : L1Call K → List K
  | finishWrite _ keys =>
    L1Manager.keysOf (fun r => r = .success) (m.finishWrite clock keys).answers
  | _ => []

/-- The manager with its policy, and the keys whose first write is not finished. -/
structure EvictionRun (K : Type) where
  manager : L1Manager K
  policy : LRUEvictionPolicy K
  unfinished : List (K × ℤ)

/-- The keys that are new in `m'`, with the expiration of their write locks. -/
def createdKeys (m m' : L1Manager K) : List (K × ℤ) :=
  (m'.objects.entries.filter fun e => e.1 ∉ m.objects.keys).map fun e =>
    (e.1, e.2.writeLock.expirationMs)

def EvictionRun.run (clock : ℕ → ℤ) (s : EvictionRun K) (c : L1Call K) : EvictionRun K :=
  let m := (c.run clock ⟨s.manager, []⟩).manager
  { manager := m
    policy := (c.notified clock s.manager).foldl .notify s.policy
    unfinished :=
      (s.unfinished.filter fun p => p.1 ∈ m.objects.keys ∧ p.1 ∉ c.finished clock s.manager) ++
        createdKeys s.manager m }

def evictionSystem (K : Type) [DecidableEq K] (clock : ℕ → ℤ) : LTS (EvictionRun K) (L1Call K) where
  init s := ∃ useLazy buffer k initAddressSpace writeTtlSeconds readTtlSeconds,
    s = ⟨.new useLazy (.new buffer (2 ^ k) initAddressSpace) writeTtlSeconds readTtlSeconds,
      ⟨.empty⟩, []⟩
  step s c s' := s' = s.run clock c

/-! ### The policy -/

namespace LRUEvictionPolicy

variable {p : LRUEvictionPolicy K} {key : K}

theorem mem_keys_moveToEnd (d : Dict K Unit) (key key' : K) :
    key' ∈ ((d.moveToEnd key).getD d).keys ↔ key' ∈ d.keys := by
  cases h : d.moveToEnd key with
  | none => rfl
  | some d' => rw [Option.getD_some, Dict.mem_keys_iff, Dict.mem_keys_iff, Dict.get?_moveToEnd h]

variable {keys : List K}

theorem mem_onKeysTouched : key ∈ (p.onKeysTouched keys).order.keys ↔ key ∈ p.order.keys := by
  unfold onKeysTouched
  induction keys generalizing p with
  | nil => rfl
  | cons k keys ih => rw [foldl_cons, ih, mem_keys_moveToEnd]

theorem mem_onKeysCreated :
    key ∈ (p.onKeysCreated keys).order.keys ↔ key ∈ p.order.keys ∨ key ∈ keys := by
  unfold onKeysCreated
  induction keys generalizing p with
  | nil => simp
  | cons k keys ih =>
    have hstep : key ∈ ((p.order.moveToEnd k).getD (p.order.set k ())).keys ↔
        key = k ∨ key ∈ p.order.keys := by
      cases h : p.order.moveToEnd k with
      | none => rw [Option.getD_none, Dict.mem_keys_set]
      | some d' =>
        obtain ⟨v, hv, -⟩ := Option.map_eq_some_iff.mp h
        have hk : k ∈ p.order.keys := Dict.mem_keys_iff.mpr ⟨v, hv⟩
        rw [Option.getD_some, Dict.mem_keys_iff, Dict.get?_moveToEnd h, ← Dict.mem_keys_iff]
        grind
    grind

theorem mem_onKeysRemoved :
    key ∈ (p.onKeysRemoved keys).order.keys ↔ key ∈ p.order.keys ∧ key ∉ keys := by
  unfold onKeysRemoved
  induction keys generalizing p with
  | nil => simp
  | cons k keys ih =>
    grind

end LRUEvictionPolicy

/-! ### The invariant -/

open L1Manager

variable {clock : ℕ → ℤ}

theorem mem_createdKeys {m m' : L1Manager K} {p : K × ℤ} : p ∈ createdKeys m m' ↔
    m.view p.1 = none ∧ ∃ i l, m'.view p.1 = some (i, l) ∧ l.expirationMs = p.2 := by
  have hlookup : ∀ e : (_ : K) × L1ObjectState,
      e ∈ m'.objects.entries ↔ m'.objects.lookup e.1 = some e.2 := fun e =>
    (AList.mem_lookup_iff (s := m'.objects)).symm
  constructor
  · intro hp
    obtain ⟨e, he, rfl⟩ := mem_map.mp hp
    obtain ⟨he, hnew⟩ := mem_filter.mp he
    rw [decide_eq_true_eq, mem_keys_iff_view, Bool.not_eq_true, Option.isSome_eq_false_iff,
      Option.isNone_iff_eq_none] at hnew
    exact ⟨hnew, e.2.memoryObj, e.2.writeLock, view_of_lookup ((hlookup e).mp he), rfl⟩
  · rintro ⟨hnew, i, l, hl, hexp⟩
    obtain ⟨e, he, heq⟩ := Option.map_eq_some_iff.mp hl
    refine mem_map.mpr ⟨⟨p.1, e⟩, mem_filter.mpr ⟨(hlookup ⟨p.1, e⟩).mpr he, ?_⟩, ?_⟩
    · rw [decide_eq_true_eq, mem_keys_iff_view, hnew]
      simp
    · grind

structure EvictionRun.Tracks (clock : ℕ → ℤ) (s : EvictionRun K) : Prop where
  uniform : s.manager.memoryManager.Uniform
  order : ∀ key, key ∈ s.policy.order.keys ↔
    (s.manager.view key).isSome = true ∧ key ∉ s.unfinished.map Prod.fst
  present : ∀ p ∈ s.unfinished, (s.manager.view p.1).isSome = true
  locked : ∀ p ∈ s.unfinished, Ahead clock s.manager.ticks p.2 →
    ∃ i l, s.manager.view p.1 = some (i, l) ∧ 0 < l.counter ∧ l.expirationMs = p.2

namespace EvictionRun

variable {s : EvictionRun K} {c : L1Call K}

theorem mem_unfinished_run {p : K × ℤ} : p ∈ (s.run clock c).unfinished ↔
    (p ∈ s.unfinished ∧ ((s.run clock c).manager.view p.1).isSome = true ∧
      p.1 ∉ c.finished clock s.manager) ∨ p ∈ createdKeys s.manager (s.run clock c).manager := by
  have hrun : (s.run clock c).unfinished = (s.unfinished.filter fun p =>
      p.1 ∈ (s.run clock c).manager.objects.keys ∧ p.1 ∉ c.finished clock s.manager) ++
        createdKeys s.manager (s.run clock c).manager := rfl
  rw [hrun, mem_append, mem_filter, decide_eq_true_eq, mem_keys_iff_view]

/-- **Calls that take entries away**, if any: the policy forgets them. -/
theorem Tracks.shrink (h : s.Tracks clock) (gone : List K)
    (hfinished : c.finished clock s.manager = [])
    (hticks : s.manager.ticks ≤ (s.run clock c).manager.ticks)
    (hview : ∀ key, (s.run clock c).manager.view key =
      if key ∈ gone then none else s.manager.view key)
    (horder : ∀ key, key ∈ (s.run clock c).policy.order.keys ↔
      key ∈ s.policy.order.keys ∧ key ∉ gone) : (s.run clock c).Tracks clock := by
  have hmem : ∀ p, p ∈ (s.run clock c).unfinished ↔ p ∈ s.unfinished ∧ p.1 ∉ gone := by
    intro p
    have := h.present p
    rw [mem_unfinished_run, hfinished, mem_createdKeys, hview]
    grind
  refine ⟨uniform_run h.uniform c, fun key => ?_, fun p hp => ?_, fun p hp ha => ?_⟩
  · rw [horder, h.order, hview]
    simp only [mem_map, hmem]
    grind
  · obtain ⟨hp, hg⟩ := (hmem p).mp hp
    rw [hview, if_neg hg]
    exact h.present p hp
  · obtain ⟨hp, hg⟩ := (hmem p).mp hp
    rw [hview, if_neg hg]
    exact h.locked p hp (ha.of_le hticks)

end EvictionRun

/-! ### Reading and deleting -/

section removal
variable {m : L1Manager K} {p : LRUEvictionPolicy K}

omit [DecidableEq K] in
theorem keysOf_eq_nil_of_frees {R : Type} {answers : List (Answer K (R × Option ℕ))}
    (h : (answers.filterMap fun a => a.result.2) = []) :
    keysOf (fun r : R × Option ℕ => r.2.isSome) answers = [] := by
  rw [← map_snd_removedBy, map_eq_nil_iff] at h
  rw [← map_fst_removedBy, h, map_nil]

variable (hu : m.memoryManager.Uniform)

include hu

/-- A call that frees what it takes away tells nothing when `free` raises; then nothing was taken
away. -/
theorem mem_notify_freed {R : Type}
    {answers : List (Answer K (R × Option ℕ))} {raised : Option PyError}
    (hraised : raised = (m.memoryManager.free (answers.filterMap fun a => a.result.2)).1)
    {calls : List (Notification K)} {key : K} (hcalls : key ∈ (calls.foldl .notify p).order.keys ↔
      key ∈ p.order.keys ∧ key ∉ keysOf (fun r : R × Option ℕ => r.2.isSome) answers) :
    key ∈ ((if raised.isSome then [] else calls).foldl .notify p).order.keys ↔
      key ∈ p.order.keys ∧ key ∉ keysOf (fun r : R × Option ℕ => r.2.isSome) answers := by
  by_cases hr : raised.isSome = true
  · rw [if_pos hr]
    rw [hraised, L1MemoryManager.free_raises_iff hu] at hr
    rw [keysOf_eq_nil_of_frees hr.2]
    simp
  · rw [if_neg hr, hcalls]

omit hu in
theorem keysOf_delete (m : L1Manager K) (keys : List K) :
    keysOf (fun r : L1Error × Option ℕ => r.1 = .success)
        (m.forItems clock (deleteKey clock) keys).1 =
      keysOf (fun r => r.2.isSome) (m.forItems clock (deleteKey clock) keys).1 := by
  have hanswers : ∀ a ∈ (m.forItems clock (deleteKey clock) keys).1,
      decide (a.result.1 = .success) = a.result.2.isSome := by
    intro a ha
    obtain ⟨done, key, rest, -, rfl⟩ := mem_forItems.mp ha
    unfold answerOf deleteKey
    grind
  unfold keysOf
  rw [filter_congr hanswers]

theorem clear_effect (key : K) :
    (m.clear.manager.view key = none) ∧
      (key ∈ (m.clear.notified.foldl .notify p).order.keys ↔
        key ∈ p.order.keys ∧ key ∉ m.objects.keys) := by
  have hfree := L1MemoryManager.free_raises_iff hu
    (m.objects.entries.map fun e => e.2.memoryObj)
  fun_cases clear
  next hr =>
    have hempty : m.objects = ∅ := AList.ext (map_eq_nil_iff.mp (hfree.mp hr).2)
    refine ⟨?_, ?_⟩
    · show (m.objects.lookup key).map _ = none
      rw [hempty, AList.lookup_empty, Option.map_none]
    · rw [hempty]
      simp
  · refine ⟨rfl, ?_⟩
    simp only [foldl_cons, foldl_nil, LRUEvictionPolicy.notify, LRUEvictionPolicy.mem_onKeysRemoved]

end removal

/-! ### Finishing a write -/

/-- **The loop of `finish_write`** unlocks the finished keys and leaves the others alone. -/
theorem finishWrite_effect (clock : ℕ → ℤ) (keys : List K) (m : L1Manager K) :
    let r := m.forItems clock (finishWriteKey clock) keys
    m.ticks ≤ r.2.ticks ∧ (∀ key, (r.2.view key).isSome = (m.view key).isSome) ∧
      (∀ key, key ∉ keysOf (fun e => e = .success) r.1 → r.2.view key = m.view key) ∧
      ∀ key ∈ keysOf (fun e => e = .success) r.1, (m.view key).isSome = true := by
  induction keys generalizing m with
  | nil => exact ⟨le_rfl, fun _ => rfl, fun _ _ => rfl, by simp [forItems, keysOf]⟩
  | cons key keys ih =>
    obtain ⟨hticks', hsome, hsame, hkeys⟩ := ih (finishWriteKey clock m key).2
    rw [forItems]
    obtain ⟨-, hticks, ⟨hfail, hview⟩ | ⟨hok, i, l, l', hl, hview⟩⟩ :=
      view_finishWriteKey clock m key
    · rw [hview] at hsome hsame hkeys
      simp only [keysOf, filter_cons, hfail, decide_false, Bool.false_eq_true, if_false]
      exact ⟨hticks.trans hticks', hsome, hsame, hkeys⟩
    · have hpresent : ∀ k, ((finishWriteKey clock m key).2.view k).isSome = (m.view k).isSome := by
        intro k
        by_cases hk : k = key <;> simp [hview, hk, hl]
      simp only [keysOf, filter_cons, hok, decide_true, if_true, map_cons, mem_cons, not_or]
      refine ⟨hticks.trans hticks', fun k => (hsome k).trans (hpresent k), fun k hk => ?_, ?_⟩
      · rw [hsame k hk.2, hview, Function.update_of_ne hk.1]
      · rintro k (rfl | hk)
        · rw [hl, Option.isSome_some]
        · exact (hpresent k).symm.trans (hkeys k hk)

/-! ### Every call -/

namespace EvictionRun

variable {s : EvictionRun K}

/-- **`finish_write`**: the policy learns of the finished keys. -/
theorem Tracks.finishWrite (h : s.Tracks clock) (client : ℕ) (keys : List K) :
    (s.run clock (.finishWrite client keys)).Tracks clock := by
  obtain ⟨hticks, hsome, hsame, hfin⟩ := finishWrite_effect clock keys s.manager
  have horder : ∀ key, key ∈ (s.run clock (.finishWrite client keys)).policy.order.keys ↔
      key ∈ s.policy.order.keys ∨
        key ∈ L1Call.finished clock s.manager (.finishWrite client keys) :=
    fun key => LRUEvictionPolicy.mem_onKeysCreated
  have hsome' : ∀ key, ((s.run clock (.finishWrite client keys)).manager.view key).isSome =
    (s.manager.view key).isSome := hsome
  have hfin : ∀ key ∈ L1Call.finished clock s.manager (.finishWrite client keys),
    (s.manager.view key).isSome = true := hfin
  have hmem : ∀ p, p ∈ (s.run clock (.finishWrite client keys)).unfinished ↔ p ∈ s.unfinished ∧
      p.1 ∉ L1Call.finished clock s.manager (.finishWrite client keys) := by
    intro p
    have := h.present p
    have := hsome' p.1
    rw [mem_unfinished_run, mem_createdKeys]
    grind
  refine ⟨uniform_run h.uniform _, fun key => ?_, fun p hp => ?_, fun p hp ha => ?_⟩
  · rw [horder, h.order, hsome']
    simp only [mem_map, hmem]
    grind
  · exact (hsome p.1).trans (h.present p ((hmem p).mp hp).1)
  · obtain ⟨hp, hf⟩ := (hmem p).mp hp
    obtain ⟨i, l, hl, hlocked⟩ := h.locked p hp (ha.of_le hticks)
    exact ⟨i, l, (hsame p.1 hf).trans hl, hlocked⟩

/-- **`reserve_write`**: the new keys are unfinished, and an unfinished key whose lock has not
expired is left alone. -/
theorem Tracks.reserveWrite (h : s.Tracks clock) (client : ℕ) (keys : List K)
    (isTemporary : List Bool) (y : Layout) (mode : WriteMode) :
    (s.run clock (.reserveWrite client keys isTemporary y mode)).Tracks clock := by
  set s' := s.run clock (.reserveWrite client keys isTemporary y mode) with hrun
  obtain ⟨hticks, hold, hnew⟩ := reserveWrite_effect clock s.manager keys isTemporary y mode
  have hpolicy : s'.policy = s.policy := by
    show (s.manager.reserveWrite clock keys isTemporary y mode).notified.foldl _ _ = _
    fun_cases L1Manager.reserveWrite <;> rfl
  have hview : s'.manager.view =
      (s.manager.reserveWrite clock keys isTemporary y mode).manager.view := rfl
  have hsome : ∀ key, (s.manager.view key).isSome = true →
      (s'.manager.view key).isSome = true := by
    intro key hv
    obtain ⟨⟨i, l⟩, hl⟩ := Option.isSome_iff_exists.mp hv
    obtain ⟨l', hl', -⟩ := hold key i l hl
    rw [hview, hl', Option.isSome_some]
  have hmem : ∀ p, p ∈ s'.unfinished ↔
      p ∈ s.unfinished ∨ p ∈ createdKeys s.manager s'.manager := by
    intro p
    rw [hrun, mem_unfinished_run]
    refine or_congr_left ⟨And.left, fun hp => ⟨hp, hsome p.1 (h.present p hp), not_mem_nil⟩⟩
  refine ⟨uniform_run h.uniform _, fun key => ?_, fun p hp => ?_, fun p hp ha => ?_⟩
  · have hcreated : (s.manager.view key).isSome = false →
        (s'.manager.view key).isSome = true →
        ∃ x, (key, x) ∈ createdKeys s.manager s'.manager := by
      intro hnone hv
      obtain ⟨⟨i, l⟩, hl⟩ := Option.isSome_iff_exists.mp hv
      exact ⟨l.expirationMs, mem_createdKeys.mpr ⟨by simpa using hnone, i, l, hl, rfl⟩⟩
    have := hsome key
    rw [hpolicy, h.order]
    simp only [mem_map, hmem]
    grind [mem_createdKeys]
  · rcases (hmem p).mp hp with hp | hp
    · exact hsome p.1 (h.present p hp)
    · obtain ⟨-, i, l, hl, -⟩ := mem_createdKeys.mp hp
      rw [hl, Option.isSome_some]
  · rcases (hmem p).mp hp with hp | hp
    · obtain ⟨i, l, hl, hcounter, hexp⟩ := h.locked p hp (ha.of_le hticks)
      obtain ⟨l', hl', rfl | ⟨t, ht, hfree⟩⟩ := hold p.1 i l hl
      · exact ⟨i, l', hl', hcounter, hexp⟩
      · -- a lock that is held cannot be found free before it expires
        have hlt : clock t < p.2 := ha t ht
        rw [TTLLock.isLocked_eq_false_iff, hexp] at hfree
        omega
    · obtain ⟨hnone, i, l, hl, hexp⟩ := mem_createdKeys.mp hp
      exact ⟨i, l, hl, (hnew p.1 i l hnone hl).symm ▸ Int.one_pos, hexp⟩

/-- **Every call.** -/
theorem Tracks.run (h : s.Tracks clock) (c : L1Call K) : (s.run clock c).Tracks clock := by
  cases c with
  | reserveRead client keys =>
    obtain ⟨-, hticks, hview⟩ := (keepsView_reserveReadKey clock).loop clock keys s.manager
    refine h.shrink [] rfl hticks (fun key => ?_) fun key => by simp; rfl
    exact congrFun hview key
  | unsafeRead keys =>
    obtain ⟨-, hticks, hview⟩ := (keepsView_unsafeReadKey clock).loop clock keys s.manager
    refine h.shrink [] rfl hticks (fun key => ?_) fun key => by simp; rfl
    exact congrFun hview key
  | finishRead client keys =>
    have hloop := (removing_finishReadKey clock).loop clock keys s.manager
    refine h.shrink _ rfl hloop.ticks hloop.view fun key => ?_
    rw [map_fst_removedBy]
    refine mem_notify_freed h.uniform (raised_finishRead clock s.manager keys) ?_
    simp only [foldl_cons, foldl_nil, LRUEvictionPolicy.notify,
      LRUEvictionPolicy.mem_onKeysRemoved, LRUEvictionPolicy.mem_onKeysTouched]
  | reserveWrite client keys isTemporary y mode => exact h.reserveWrite ..
  | finishWrite client keys => exact h.finishWrite client keys
  | delete keys =>
    have hloop := (removing_deleteKey clock).loop clock keys s.manager
    refine h.shrink _ rfl hloop.ticks hloop.view fun key => ?_
    rw [map_fst_removedBy]
    refine mem_notify_freed h.uniform (raised_delete clock s.manager keys) ?_
    rw [keysOf_delete]
    simp only [foldl_cons, foldl_nil, LRUEvictionPolicy.notify, LRUEvictionPolicy.mem_onKeysRemoved]
  | clear =>
    refine h.shrink s.manager.objects.keys rfl ?_ (fun key => ?_) fun key =>
      (clear_effect h.uniform key).2
    · show s.manager.ticks ≤ s.manager.clear.manager.ticks
      fun_cases L1Manager.clear <;> exact le_rfl
    · rw [show (s.run clock .clear).manager.view key = none from
        (clear_effect (p := s.policy) h.uniform key).1]
      split_ifs with hk
      · rfl
      · rw [mem_keys_iff_view, Bool.not_eq_true, Option.isSome_eq_false_iff,
          Option.isNone_iff_eq_none] at hk
        exact hk.symm
  | commitExpansion n =>
    exact h.shrink [] rfl le_rfl (fun key => rfl) fun key => by simp; rfl

theorem tracks_reachable {s : EvictionRun K} (h : (evictionSystem K clock).Reachable s) :
    s.Tracks clock := by
  refine h.invariant ?_ ?_
  · rintro s ⟨useLazy, buffer, k, initAddressSpace, w, r, rfl⟩
    refine ⟨fun o ho => absurd ho not_mem_nil, fun key => ?_,
      fun p hp => absurd hp not_mem_nil, fun p hp => absurd hp not_mem_nil⟩
    simp [L1Manager.new, view, Dict.keys, Dict.empty]
  · rintro s c s' hs rfl
    exact hs.run c

/-- `delete` would accept the key. -/
def Deletable (clock : ℕ → ℤ) (m : L1Manager K) (key : K) : Prop :=
  (deleteKey clock m key).1.1 = .success

instance (m : L1Manager K) (key : K) : Decidable (Deletable clock m key) :=
  inferInstanceAs (Decidable ((deleteKey clock m key).1.1 = .success))

theorem Deletable.view {m : L1Manager K} {key : K} (h : Deletable clock m key) :
    ∃ i l, m.view key = some (i, l) ∧ l.isLocked (clock (m.ticks + 1)) = false := by
  revert h
  unfold Deletable
  fun_cases deleteKey clock m key <;> rintro ⟨⟩
  next e hl _ hwrite =>
    exact ⟨e.memoryObj, e.writeLock, view_of_lookup hl, Bool.not_eq_true _ ▸ hwrite⟩

/-- **Tracked keys.**  The policy tracks keys of the manager only, namely those whose first write
has been finished.  So a key that `delete` would accept is tracked, provided that no key is
unfinished when the lock under which it was created expires. -/
theorem finished_keys_tracked (hc : Monotone clock) {s : EvictionRun K}
    (h : (evictionSystem K clock).Reachable s) :
    (∀ key ∈ s.policy.order.keys, key ∈ s.manager.objects.keys) ∧
      (∀ key ∈ s.manager.objects.keys,
        key ∈ s.policy.order.keys ↔ key ∉ s.unfinished.map Prod.fst) ∧
      ((∀ p ∈ s.unfinished, clock (s.manager.ticks + 1) < p.2) →
        ∀ key, Deletable clock s.manager key → key ∈ s.policy.order.keys) := by
  have ht := tracks_reachable h
  refine ⟨fun key hkey => ?_, fun key hkey => ?_, fun htimely key hdel => ?_⟩
  · exact mem_keys_iff_view.mpr ((ht.order key).mp hkey).1
  · rw [ht.order, ← mem_keys_iff_view]
    exact and_iff_right hkey
  · obtain ⟨i, l, hl, hfree⟩ := hdel.view
    rw [ht.order, hl]
    refine ⟨rfl, fun hmap => ?_⟩
    obtain ⟨p, hp, rfl⟩ := mem_map.mp hmap
    have hlt := htimely p hp
    have hahead : Ahead clock s.manager.ticks p.2 := fun t htt =>
      (hc (by omega : t ≤ s.manager.ticks + 1)).trans_lt hlt
    obtain ⟨i', l', hl', hcounter, hexp⟩ := ht.locked p hp hahead
    cases hl.symm.trans hl'
    rw [TTLLock.isLocked_eq_false_iff, hexp] at hfree
    omega

/-- A manager over 64 bytes whose locks live for one second, after the calls. -/
def after (clock : ℕ → ℤ) (calls : List (L1Call ℕ)) : EvictionRun ℕ :=
  calls.foldl (run clock) ⟨.new true (.new 64 4 none) 1 1, ⟨.empty⟩, []⟩

theorem reachable_after (clock : ℕ → ℤ) (calls : List (L1Call ℕ)) :
    (evictionSystem ℕ clock).Reachable (after clock calls) :=
  LTS.Reachable.foldl (fun _ _ => rfl) _ (.init ⟨true, 64, 2, none, 1, 1, rfl⟩)

/-- A key that was written in time can be deleted, and is tracked. -/
theorem finished_keys_tracked_in_time :
    let s := after (fun _ => 0) [.reserveWrite 0 [7] [false]
      ⟨[[6]], [⟨"uint8", 1⟩], by decide, rfl⟩ .all, .finishWrite 0 [7]]
    Deletable (fun _ => 0) s.manager 7 ∧ 7 ∈ s.policy.order.keys :=
  ⟨by decide +kernel, (finished_keys_tracked (fun _ _ _ => le_rfl) (reachable_after _ _)).2.2
    (by decide +kernel) 7 (by decide +kernel)⟩

/-- The writer of a key does not finish within five seconds: the key can be deleted, but the policy
does not know it, and does not learn of it when the writer finishes late or the key is read. -/
theorem expired_key_not_tracked :
    let clock : ℕ → ℤ := fun i => if i = 0 then 0 else 5000
    let s := after clock [.reserveWrite 0 [7] [false]
      ⟨[[6]], [⟨"uint8", 1⟩], by decide, rfl⟩ .all, .finishWrite 0 [7], .reserveRead 1 [7],
      .finishRead 1 [7]]
    Monotone clock ∧ (evictionSystem ℕ clock).Reachable s ∧ Deletable clock s.manager 7 ∧
      7 ∉ s.policy.order.keys := by
  refine ⟨fun i j hij => ?_, reachable_after _ _, by decide +kernel, by decide +kernel⟩
  grind

end EvictionRun

end LMCache
