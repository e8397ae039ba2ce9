import LMCache.Lib.Dict
import LMCache.Lib.Transition
import LMCache.Memory.TensorMemoryAllocator
import Mathlib.Algebra.Order.Ring.Rat

/-! # The pin monitor

`TensorMemoryObj.pin` registers the object in `PinMonitor`, and `unpin` takes it out when the pin
count comes down to 0; both keep the gauge of pinned objects.  The monitor calls `unpin` itself for
objects that were pinned too long ago.

**Main result**: `pin_monitor_exact`, for allocators whose `free` leaves pin counts alone. -/

namespace LMCache

open List Function Dict

namespace Pool
variable {A : Type} {free : Pool A → ℕ → Pool A} {p : Pool A} {i : ℕ}

def pinCount (p : Pool A) (i : ℕ) : ℤ := (p.objs[i]?.map fun o => o.metadata.pinCount).getD 0

def KeepsPins (free : Pool A → ℕ → Pool A) : Prop := ∀ p i, (free p i).pinCount = p.pinCount

theorem pinCount_modify (f : TensorMemoryObj → TensorMemoryObj) :
    (p.modify i f).pinCount = update p.pinCount i
      ((p.objs[i]?.map fun o => (f o).metadata.pinCount).getD 0) := by
  funext j
  rw [pinCount, modify, getElem?_modify, update_apply]
  by_cases hj : j = i
  · simp [hj, Function.comp_def]
  · simp [hj, Ne.symm hj, pinCount]

theorem keepsPins_tensor : KeepsPins TensorMemoryAllocator.free := by
  intro p i
  fun_cases TensorMemoryAllocator.free p i
  case case1 | case3 => rfl
  case case2 => exact (pinCount_modify (p := p) _).trans (update_eq_self i p.pinCount)

theorem pinCount_pin (hi : i < p.objs.length) :
    (p.pin i).pinCount = update p.pinCount i (p.pinCount i + 1) := by
  rw [pin, pinCount_modify]
  simp [hi, pinCount, TensorMemoryObj.setPinCount]

/-- **Unpinning** takes one pin away if there is one. -/
theorem pinCount_unpin (hfree : KeepsPins free) :
    (p.unpin free i).pinCount = update p.pinCount i (max (p.pinCount i - 1) 0) := by
  have hkeep : ∀ (c : Prop) [Decidable c] (q : Pool A),
      (if c then free q i else q).pinCount = q.pinCount := by
    intro c _ q
    split_ifs
    · exact hfree q i
    · rfl
  have hzero : ∀ q : Pool A,
      (q.modify i fun o => o.setPinCount 0).pinCount = update q.pinCount i 0 := by
    intro q
    rw [pinCount_modify]
    cases q.objs[i]? <;> rfl
  rw [unpin]
  cases ho : p.objs[i]? with
  | none =>
    have hnone : p.pinCount i = 0 := by simp [pinCount, ho]
    rw [hnone]
    exact (hnone ▸ update_eq_self i p.pinCount).symm
  | some o =>
    have hcount : p.pinCount i = o.metadata.pinCount := by simp [pinCount, ho]
    dsimp only
    by_cases hneg : o.metadata.pinCount - 1 < 0
    · rw [if_pos hneg, hzero, hkeep, pinCount_modify, update_idem, hcount, max_eq_right hneg.le]
    · rw [if_neg hneg, hkeep, pinCount_modify, ho, hcount, max_eq_left (not_lt.mp hneg)]
      rfl

end Pool

/-- The objects, when the registered ones were pinned, and the gauge. -/
structure PinnedPool (A : Type) where
  pool : Pool A
  pinnedObjects : Dict ℕ ℚ
  pinnedMemoryObjsCount : ℤ

inductive PinEvent where
  | pin (i : ℕ) (now : ℚ)
  | unpin (i : ℕ)
  | checkTimeouts (now : ℚ)

namespace PinnedPool
variable {A : Type} (free : Pool A → ℕ → Pool A) (s : PinnedPool A)

def pin (i : ℕ) (now : ℚ) : PinnedPool A where
  pool := s.pool.pin i
  pinnedObjects := s.pinnedObjects.set i now
  pinnedMemoryObjsCount := s.pinnedMemoryObjsCount + if s.pool.pinCount i = 0 then 1 else 0

def unpin (i : ℕ) : PinnedPool A where
  pool := s.pool.unpin free i
  pinnedObjects := if s.pool.pinCount i - 1 = 0 then s.pinnedObjects.erase i else s.pinnedObjects
  pinnedMemoryObjsCount := s.pinnedMemoryObjsCount - if s.pool.pinCount i - 1 = 0 then 1 else 0

/-- The loop of `_force_unpin_timeout_object`. -/
def unpinAll (i : ℕ) : ℕ → PinnedPool A → PinnedPool A
  | 0, s => s
  | n + 1, s => if 0 < s.pool.pinCount i then unpinAll i n (s.unpin free i) else s

def forceUnpinTimeoutObject (i : ℕ) : PinnedPool A := unpinAll free i (s.pool.pinCount i).toNat s

def checkTimeouts (pinTimeoutSec now : ℚ) : PinnedPool A :=
  (s.pinnedObjects.entries.filter fun e =>
    0 < s.pool.pinCount e.1 ∧ pinTimeoutSec < now - e.2).foldl
      (fun s e => s.forceUnpinTimeoutObject free e.1) s

def step (pinTimeoutSec : ℚ) : PinEvent → Option (PinnedPool A)
  | .pin i now => if i < s.pool.objs.length then some (s.pin i now) else none
  | .unpin i => some (s.unpin free i)
  | .checkTimeouts now => some (s.checkTimeouts free pinTimeoutSec now)

/-- A monitor over any objects without pins. -/
def system (pinTimeoutSec : ℚ) : LTS (PinnedPool A) PinEvent where
  init s := (∀ o ∈ s.pool.objs, o.metadata.pinCount = 0) ∧ s.pinnedObjects = .empty ∧
    s.pinnedMemoryObjsCount = 0
  step s e s' := s.step free pinTimeoutSec e = some s'

structure Inv : Prop where
  nonneg : ∀ i, 0 ≤ s.pool.pinCount i
  registered : ∀ i, i ∈ s.pinnedObjects.keys ↔ 0 < s.pool.pinCount i
  count : s.pinnedMemoryObjsCount = s.pinnedObjects.entries.length

variable {free s} {i : ℕ}

theorem Inv.pin (h : s.Inv) (hi : i < s.pool.objs.length) (now : ℚ) : (s.pin i now).Inv := by
  have hnonneg := h.nonneg i
  have hcount : (s.pin i now).pool.pinCount = _ := Pool.pinCount_pin hi
  refine ⟨fun j => ?_, fun j => ?_, ?_⟩
  · have := h.nonneg j
    rw [hcount, update_apply]
    split_ifs <;> omega
  · rw [hcount, PinnedPool.pin, mem_keys_set, h.registered, update_apply]
    split_ifs with hj
    · subst hj
      simp only [true_or, true_iff]
      omega
    · simp [hj]
  · simp only [PinnedPool.pin, h.count]
    split_ifs with hzero
    · have hnew : i ∉ s.pinnedObjects.keys := by rw [h.registered]; omega
      rw [entries_set_of_notMem hnew, length_append]
      rfl
    · rw [length_set_of_mem ((h.registered i).mpr (by omega)), Int.add_zero]

section
variable (hfree : Pool.KeepsPins free)

include hfree

theorem Inv.unpin (h : s.Inv) (i : ℕ) : (s.unpin free i).Inv := by
  have hnonneg := h.nonneg
  have hregistered := h.registered
  have hcount := Pool.pinCount_unpin (p := s.pool) (i := i) hfree
  refine ⟨fun j => ?_, fun j => ?_, ?_⟩
  · have := hnonneg j
    rw [PinnedPool.unpin, hcount, update_apply]
    split_ifs <;> omega
  · rw [PinnedPool.unpin, hcount, update_apply]
    grind
  · rw [PinnedPool.unpin, h.count]
    dsimp only
    split_ifs with hlast
    · obtain ⟨t, ht⟩ := mem_keys_iff.mp ((hregistered i).mpr (by omega))
      rw [(perm_erase ht).length_eq, length_cons]
      push_cast
      omega
    · rw [Int.sub_zero]

/-- **The loop** of a forced unpin ends: no pin is left. -/
theorem Inv.unpinAll {n : ℕ} (h : s.Inv) (hn : s.pool.pinCount i ≤ n) :
    (PinnedPool.unpinAll free i n s).Inv ∧
      (PinnedPool.unpinAll free i n s).pool.pinCount i = 0 := by
  induction n generalizing s with
  | zero => exact ⟨h, le_antisymm hn (h.nonneg i)⟩
  | succ n ih =>
    rw [unpinAll]
    split_ifs with hpos
    · refine ih (h.unpin hfree i) ?_
      rw [PinnedPool.unpin, Pool.pinCount_unpin hfree, update_self]
      omega
    · exact ⟨h, le_antisymm (not_lt.mp hpos) (h.nonneg i)⟩

/-- **The monitor is exact**: after every sequence of pins, unpins and checks it has the objects
that are pinned, each once, and the gauge is their number. -/
theorem pin_monitor_exact {pinTimeoutSec : ℚ} (h : (system free pinTimeoutSec).Reachable s) :
    (∀ i, i ∈ s.pinnedObjects.keys ↔ 0 < s.pool.pinCount i) ∧ s.pinnedObjects.keys.Nodup ∧
      s.pinnedMemoryObjsCount = s.pinnedObjects.keys.length := by
  have hinv : s.Inv := by
    refine h.invariant ?_ ?_
    · rintro s ⟨hpins, hnone, hzero⟩
      have hcount : ∀ i, s.pool.pinCount i = 0 := fun i => by
        cases ho : s.pool.objs[i]? with
        | none => simp [Pool.pinCount, ho]
        | some o => simp [Pool.pinCount, ho, hpins o (mem_of_getElem? ho)]
      exact ⟨fun i => (hcount i).ge, by simp [hnone, hcount, Dict.keys, Dict.empty],
        by simp [hnone, hzero, Dict.empty]⟩
    · intro s e s' hs hstep
      change s.step free pinTimeoutSec e = some s' at hstep
      revert hstep
      fun_cases step free s pinTimeoutSec e <;> rintro ⟨⟩
      case case1 now hi => exact hs.pin hi now
      case case3 i => exact hs.unpin hfree i
      case case4 now =>
        unfold checkTimeouts
        generalize s.pinnedObjects.entries.filter _ = timeoutObjects
        induction timeoutObjects generalizing s with
        | nil => exact hs
        | cons e es ih => exact ih _ (hs.unpinAll hfree (Int.self_le_toNat _)).1
  exact ⟨hinv.registered, s.pinnedObjects.nodup, by rw [hinv.count, Dict.keys, length_map]⟩

end

/-- Two objects: a redundant unpin, and a check that unpins the object that was pinned twice. -/
theorem pin_monitor_exact_two : ∃ s, (system TensorMemoryAllocator.free 3).Reachable s ∧
    s.pinnedObjects.keys = [1] ∧ s.pinnedMemoryObjsCount = 1 ∧ 0 < s.pool.pinCount 1 := by
  let y : Layout := ⟨[[2, 3]], [⟨"uint8", 1⟩], by decide, rfl⟩
  have hstart : (system TensorMemoryAllocator.free 3).Reachable
      ⟨(TensorMemoryAllocator.batchedAllocate ⟨.new 20 4 none, [], []⟩ y 2 .kv2ltd).2, .empty, 0⟩ :=
    .init ⟨by decide +kernel, rfl, rfl⟩
  obtain ⟨s, hs, hkeys, hcount⟩ := hstart.exists_replay (fun _ _ _ => id)
    (P := fun s => s.pinnedObjects.keys = [1] ∧ s.pinnedMemoryObjsCount = 1)
    [.pin 0 0, .pin 0 1, .unpin 1, .pin 1 5, .checkTimeouts 6] (by decide +kernel)
  have hexact := pin_monitor_exact Pool.keepsPins_tensor hs
  exact ⟨s, hs, hkeys, hcount, (hexact.1 1).mp (by simp [hkeys])⟩

end PinnedPool

end LMCache
