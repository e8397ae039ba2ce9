import LMCache.Lib.Clock
import Mathlib.Data.Int.Init

/-! # Locks with a time to live

`TTLLock` is a counter with one expiration time for all its holders.  Every `lock` moves the
expiration time; a `lock` that finds the lock expired forgets the holders before it.

The atomic operations with their retry loops are modelled by their effect: the manager calls
them under its own mutex, so that no loop ever retries.  The 64-bit counter and times are
integers; neither can come near its bounds. -/

namespace LMCache

structure TTLLock where
  counter : ℤ
  expirationMs : ℤ
  ttlMs : ℤ
deriving DecidableEq, Repr

namespace TTLLock

/-- `TTLLock(ttl_sec)`. -/
def new (ttlSec : ℕ) : TTLLock := { counter := 0, expirationMs := 0, ttlMs := (ttlSec : ℤ) * 1000 }

def lock (l : TTLLock) (currentTime : ℤ) : TTLLock :=
  if l.expirationMs ≤ currentTime then
    { l with counter := 1, expirationMs := currentTime + l.ttlMs }
  else { l with counter := l.counter + 1, expirationMs := currentTime + l.ttlMs }

def unlock (l : TTLLock) : TTLLock :=
  if l.counter ≤ 0 then l else { l with counter := l.counter - 1 }

def isLocked (l : TTLLock) (currentTime : ℤ) : Bool :=
  decide (0 < l.counter) && decide (currentTime < l.expirationMs)

section lemmas
variable {l : TTLLock} {now : ℤ}

theorem isLocked_iff : l.isLocked now = true ↔ 0 < l.counter ∧ now < l.expirationMs := by
  simp [isLocked]

theorem isLocked_eq_false_iff : l.isLocked now = false ↔ l.counter ≤ 0 ∨ l.expirationMs ≤ now := by
  rw [← Bool.not_eq_true, isLocked_iff, not_and_or, not_lt, not_lt]

@[simp, grind =] theorem lock_expirationMs : (l.lock now).expirationMs = now + l.ttlMs := by
  unfold lock
  split_ifs <;> rfl

@[simp, grind =] theorem lock_ttlMs : (l.lock now).ttlMs = l.ttlMs := by
  unfold lock
  split_ifs <;> rfl

theorem lock_counter_of_expired (h : l.expirationMs ≤ now) : (l.lock now).counter = 1 := by
  rw [lock, if_pos h]

theorem lock_counter (h : now < l.expirationMs) : (l.lock now).counter = l.counter + 1 := by
  rw [lock, if_neg (not_le.mpr h)]

@[simp, grind =] theorem unlock_expirationMs : l.unlock.expirationMs = l.expirationMs := by
  unfold unlock
  split_ifs <;> rfl

@[simp, grind =] theorem unlock_ttlMs : l.unlock.ttlMs = l.ttlMs := by
  unfold unlock
  split_ifs <;> rfl

theorem unlock_counter (h : 0 < l.counter) : l.unlock.counter = l.counter - 1 := by
  rw [unlock, if_neg (not_le.mpr h)]

end lemmas

end TTLLock

end LMCache
