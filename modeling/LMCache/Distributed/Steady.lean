import LMCache.Distributed.FreedObjects
import LMCache.Distributed.ReadLocks

/-! # Calls during which no lock expires

`L1Manager.cells` is the manager as a map of cells, read at one instant: an expired lock has no
readers.  `Quiet clock lo hi` says that no lock expires between the readings `lo` and `hi`,
neither one that is there nor one that is taken in the meantime; the view then is the same at all
these readings, and the calls on read locks do to it what `Cells.reserve`, `Cells.peek` and
`Cells.finish` do (`Simulates`).

`Steady.reserveRead`, `Steady.unsafeRead` and `Steady.finishRead` are the calls on lists of keys,
with repeats. -/

namespace LMCache

open L1ObjectState

variable {K : Type} {clock : ℕ → ℤ} {lo hi : ℕ}

/-! ### The view -/

def L1ObjectState.cell (e : L1ObjectState) (now : ℤ) : Cell :=
  { memoryObj := e.memoryObj
    writeLocked := e.writeLock.isLocked now
    readers := if now < e.readLock.expirationMs then e.readLock.counter.toNat else 0
    isTemporary := e.isTemporary }

/-- No lock of the entry expires between the readings `lo` and `hi`, nor would a read lock that is
taken in between. -/
structure L1ObjectState.Quiet (clock : ℕ → ℤ) (lo hi : ℕ) (e : L1ObjectState) : Prop where
  cell_eq : ∀ i, lo ≤ i → i ≤ hi → e.cell (clock i) = e.cell (clock lo)
  ttl : ∀ i j, lo ≤ i → i ≤ hi → lo ≤ j → j ≤ hi → clock j < clock i + e.readLock.ttlMs

instance {e : L1ObjectState} : Decidable (e.Quiet clock lo hi) :=
  decidable_of_iff ((∀ i ≤ hi, lo ≤ i → e.cell (clock i) = e.cell (clock lo)) ∧
      ∀ i ≤ hi, ∀ j ≤ hi, lo ≤ i → lo ≤ j → clock j < clock i + e.readLock.ttlMs)
    ⟨fun h => ⟨fun i hlo hhi => h.1 i hhi hlo, fun i j hi hi' hj hj' => h.2 i hi' j hj' hi hj⟩,
      fun h => ⟨fun i hhi hlo => h.cell_eq i hlo hhi,
        fun i hi' j hj' hi hj => h.ttl i j hi hi' hj hj'⟩⟩

theorem L1ObjectState.isLocked_readLock (e : L1ObjectState) (now : ℤ) :
    e.readLock.isLocked now = !decide ((e.cell now).readers = 0) := by
  rw [Bool.eq_iff_iff, TTLLock.isLocked_iff, Bool.not_eq_true', decide_eq_false_iff_not, cell]
  grind

section lock
variable {e : L1ObjectState} {i : ℕ}

theorem L1ObjectState.Quiet.of_cell {e' : L1ObjectState} {c : Cell} (h : e.Quiet clock lo hi)
    (hcell : ∀ j, lo ≤ j → j ≤ hi → e'.cell (clock j) = c)
    (httl : e'.readLock.ttlMs = e.readLock.ttlMs) : e'.Quiet clock lo hi :=
  ⟨fun j hj hj' => (hcell j hj hj').trans (hcell lo le_rfl (hj.trans hj')).symm, httl ▸ h.ttl⟩

/-- Locking adds a reader. -/
theorem L1ObjectState.Quiet.lock (h : e.Quiet clock lo hi) (hnonneg : 0 ≤ e.readLock.counter)
    (hlo : lo ≤ i) (hhi : i ≤ hi) (j : ℕ) (hj : lo ≤ j) (hj' : j ≤ hi) :
    cell { e with readLock := e.readLock.lock (clock i) } (clock j) =
      { e.cell (clock lo) with readers := (e.cell (clock lo)).readers + 1 } := by
  have hcount : (e.readLock.lock (clock i)).counter.toNat = (e.cell (clock lo)).readers + 1 := by
    rw [← h.cell_eq i hlo hhi]
    simp only [cell]
    by_cases hexp : clock i < e.readLock.expirationMs
    · rw [TTLLock.lock_counter hexp, if_pos hexp]
      omega
    · rw [TTLLock.lock_counter_of_expired (not_lt.mp hexp), if_neg hexp]
      rfl
  have hwrite := congrArg Cell.writeLocked (h.cell_eq j hj hj')
  have hahead := h.ttl i j hlo hhi hj hj'
  simp only [cell] at hwrite hcount ⊢
  rw [TTLLock.lock_expirationMs, if_pos hahead, hcount, hwrite]

/-- Unlocking takes a reader away. -/
theorem L1ObjectState.Quiet.unlock (h : e.Quiet clock lo hi)
    (hpos : (e.cell (clock lo)).readers ≠ 0) (j : ℕ) (hj : lo ≤ j) (hj' : j ≤ hi) :
    cell { e with readLock := e.readLock.unlock } (clock j) =
      { e.cell (clock lo) with readers := (e.cell (clock lo)).readers - 1 } := by
  rw [← h.cell_eq j hj hj'] at hpos ⊢
  simp only [cell] at hpos ⊢
  by_cases hexp : clock j < e.readLock.expirationMs
  · rw [if_pos hexp] at hpos
    rw [TTLLock.unlock_expirationMs, if_pos hexp, if_pos hexp, TTLLock.unlock_counter (by omega)]
    congr 1
    omega
  · grind

end lock

namespace L1Manager

variable [DecidableEq K]

def cells (m : L1Manager K) (now : ℤ) : Cells K := fun key =>
  (m.objects.lookup key).map fun e => e.cell now

/-- No lock expires between the readings `lo` and `hi`. -/
def Quiet (clock : ℕ → ℤ) (lo hi : ℕ) (m : L1Manager K) : Prop :=
  ∀ key e, m.objects.lookup key = some e → e.Quiet clock lo hi

instance {m : L1Manager K} : Decidable (m.Quiet clock lo hi) :=
  decidable_of_iff (∀ s ∈ m.objects.entries, s.2.Quiet clock lo hi)
    ⟨fun h key e hl => h ⟨key, e⟩ (AList.mem_lookup_iff.mp hl),
      fun h s hs => h s.1 s.2 (AList.mem_lookup_iff.mpr hs)⟩

/-- The state of the manager during a quiet time. -/
structure Steady (clock : ℕ → ℤ) (lo hi : ℕ) (m : L1Manager K) : Prop where
  le : lo ≤ m.ticks
  quiet : m.Quiet clock lo hi
  nonneg : ∀ key e, m.objects.lookup key = some e → 0 ≤ e.readLock.counter

section cells
variable {m : L1Manager K} {key : K} {e : L1ObjectState} {now : ℤ} {n : ℕ}

@[simp] theorem cells_tick : (m.tick n).cells now = m.cells now := rfl

theorem cells_of_lookup (h : m.objects.lookup key = some e) :
    m.cells now key = some (e.cell now) := by
  simp [cells, h]

theorem cells_of_none (h : m.objects.lookup key = none) : m.cells now key = none := by
  simp [cells, h]

@[simp] theorem cells_setEntry :
    (m.setEntry key e).cells now = Function.update (m.cells now) key (some (e.cell now)) := by
  funext k
  by_cases hk : k = key
  · subst hk
    simp [cells]
  · simp [cells, lookup_setEntry_of_ne hk, hk]

@[simp] theorem cells_delEntry :
    (m.delEntry key).cells now = Function.update (m.cells now) key none := by
  funext k
  by_cases hk : k = key
  · subst hk
    simp [cells]
  · simp [cells, lookup_delEntry_of_ne hk, hk]

theorem Quiet.cells_eq (h : m.Quiet clock lo hi) {i : ℕ} (hlo : lo ≤ i) (hhi : i ≤ hi) :
    m.cells (clock i) = m.cells (clock lo) := by
  funext key
  unfold cells
  cases hl : m.objects.lookup key with
  | none => rfl
  | some e => simp [(h key e hl).cell_eq i hlo hhi]

theorem Steady.tick (h : m.Steady clock lo hi) (n : ℕ) : (m.tick n).Steady clock lo hi :=
  { h with le := h.le.trans (Nat.le_add_right _ n) }

theorem Steady.setEntry (h : m.Steady clock lo hi) (key : K) (hq : e.Quiet clock lo hi)
    (hn : 0 ≤ e.readLock.counter) : (m.setEntry key e).Steady clock lo hi := by
  refine ⟨h.le, fun k e' hl => ?_, fun k e' hl => ?_⟩
  · rcases lookup_setEntry_eq_some.mp hl with ⟨-, rfl⟩ | ⟨-, hl⟩
    · exact hq
    · exact h.quiet k e' hl
  · rcases lookup_setEntry_eq_some.mp hl with ⟨-, rfl⟩ | ⟨-, hl⟩
    · exact hn
    · exact h.nonneg k e' hl

theorem Steady.delEntry (h : m.Steady clock lo hi) : (m.delEntry key).Steady clock lo hi :=
  ⟨h.le, fun k e' hl => h.quiet k e' (lookup_of_delEntry hl),
    fun k e' hl => h.nonneg k e' (lookup_of_delEntry hl)⟩

end cells

/-! ### One key -/

/-- The body `f` of a loop, with at most `n` readings, does to the manager what `g` does to its
cells. -/
def Simulates {R : Type} (clock : ℕ → ℤ) (lo hi n : ℕ) (f : L1Manager K → K → R × L1Manager K)
    (g : Cells K → K → R × Cells K) : Prop :=
  ∀ m key, m.Steady clock lo hi → m.ticks + n ≤ hi →
    ((f m key).1, (f m key).2.cells (clock lo)) = g (m.cells (clock lo)) key ∧
      (f m key).2.Steady clock lo hi ∧ (f m key).2.ticks ≤ m.ticks + n

theorem simulates_reserveReadKey :
    Simulates clock lo hi 2 (reserveReadKey (K := K) clock) Cells.reserve := by
  intro m key hm hhi
  have hlo := hm.le
  unfold reserveReadKey Cells.reserve
  cases hl : m.objects.lookup key with
  | none =>
    rw [cells_of_none hl]
    exact ⟨rfl, hm, Nat.le_add_right _ _⟩
  | some e =>
    have hq := hm.quiet key e hl
    have hw : e.writeLock.isLocked (clock m.ticks) = (e.cell (clock lo)).writeLocked :=
      congrArg Cell.writeLocked (hq.cell_eq m.ticks hlo (by omega))
    rw [cells_of_lookup hl]
    dsimp only
    rw [availableForRead, hw, Bool.not_not]
    split_ifs with hlocked
    · exact ⟨rfl, hm.tick 1, Nat.add_le_add_left (by decide) _⟩
    · have hcell := hq.lock (hm.nonneg key e hl) (i := m.ticks + 1) (by omega) (by omega)
      refine ⟨?_, (hm.setEntry key (hq.of_cell hcell (by simp)) ?_).tick 2, le_rfl⟩
      · rw [cells_tick, cells_setEntry, hcell lo le_rfl (by omega)]
        rfl
      · have hnonneg := hm.nonneg key e hl
        unfold TTLLock.lock
        grind

theorem simulates_unsafeReadKey :
    Simulates clock lo hi 1 (unsafeReadKey (K := K) clock) Cells.peek := by
  intro m key hm hhi
  have hlo := hm.le
  unfold unsafeReadKey Cells.peek
  cases hl : m.objects.lookup key with
  | none =>
    rw [cells_of_none hl]
    exact ⟨rfl, hm, Nat.le_add_right _ _⟩
  | some e =>
    rw [cells_of_lookup hl]
    dsimp only
    rw [e.isLocked_readLock, (hm.quiet key e hl).cell_eq m.ticks hlo (by omega), Bool.not_not]
    by_cases hz : (e.cell (clock lo)).readers = 0
    · rw [if_pos (by simp [hz]), if_pos hz]
      exact ⟨rfl, hm.tick 1, le_rfl⟩
    · rw [if_neg (by simp [hz]), if_neg hz]
      exact ⟨rfl, hm.tick 1, le_rfl⟩

theorem simulates_finishReadKey :
    Simulates clock lo hi 3 (finishReadKey (K := K) clock) Cells.finish := by
  intro m key hm hhi
  have hlo := hm.le
  unfold finishReadKey Cells.finish
  cases hl : m.objects.lookup key with
  | none =>
    rw [cells_of_none hl]
    exact ⟨rfl, hm, Nat.le_add_right _ _⟩
  | some e =>
    have hq := hm.quiet key e hl
    have hw : e.writeLock.isLocked (clock m.ticks) = (e.cell (clock lo)).writeLocked :=
      congrArg Cell.writeLocked (hq.cell_eq m.ticks hlo (by omega))
    rw [cells_of_lookup hl]
    dsimp only
    rw [hw, e.isLocked_readLock, hq.cell_eq (m.ticks + 1) (by omega) (by omega), Bool.not_not,
      isLocked_readLock { e with readLock := e.readLock.unlock }, Bool.not_not]
    by_cases hlocked : (e.cell (clock lo)).writeLocked = true
    · rw [if_pos hlocked, if_pos hlocked]
      exact ⟨rfl, hm.tick 1, Nat.add_le_add_left (by decide) _⟩
    rw [if_neg hlocked, if_neg hlocked]
    by_cases hz : (e.cell (clock lo)).readers = 0
    · rw [if_pos (by simp [hz]), if_pos hz]
      exact ⟨rfl, hm.tick 2, Nat.add_le_add_left (by decide) _⟩
    rw [if_neg (by simp [hz]), if_neg hz]
    have hcell := hq.unlock hz
    have hset := hm.setEntry key (hq.of_cell hcell (by simp)) (by
      have := hm.nonneg key e hl
      unfold TTLLock.unlock
      split_ifs
      · exact this
      · dsimp only
        omega)
    rw [hcell (m.ticks + 2) (by omega) (by omega)]
    have hview := hcell lo le_rfl (by omega)
    -- the entry is gone, or it is there with one reader less
    by_cases ht : e.isTemporary = true
    · have ht' : (e.cell (clock lo)).isTemporary = true := ht
      rw [if_pos ht, if_pos ht']
      by_cases hlast : (e.cell (clock lo)).readers = 1
      · rw [if_pos (by simp [hlast]), if_pos hlast]
        exact ⟨by rw [cells_tick, cells_delEntry]; rfl, hm.delEntry.tick 3, le_rfl⟩
      · have hne : (e.cell (clock lo)).readers - 1 ≠ 0 := by omega
        rw [if_neg (by simp [hne]), if_neg hlast]
        exact ⟨by rw [cells_tick, cells_setEntry, hview], hset.tick 3, le_rfl⟩
    · have ht' : ¬ (e.cell (clock lo)).isTemporary = true := ht
      rw [if_neg ht, if_neg ht']
      exact ⟨by rw [cells_tick, cells_setEntry, hview], hset.tick 2,
        Nat.add_le_add_left (by decide) _⟩

/-! ### Lists of keys -/

/-- The loop over the keys of a call. -/
theorem Simulates.loop {R : Type} {n : ℕ} {f : L1Manager K → K → R × L1Manager K}
    {g : Cells K → K → R × Cells K} (h : Simulates clock lo hi n f g) (keys : List K)
    {m : L1Manager K} (hm : m.Steady clock lo hi) (hhi : m.ticks + n * keys.length ≤ hi) :
    ((m.forItems clock f keys).1.map fun a => (a.item, a.result)) =
        ((m.cells (clock lo)).forKeys g keys).1 ∧
      (m.forItems clock f keys).2.cells (clock lo) = ((m.cells (clock lo)).forKeys g keys).2 ∧
      (m.forItems clock f keys).2.Steady clock lo hi ∧
      (m.forItems clock f keys).2.ticks ≤ m.ticks + n * keys.length := by
  induction keys generalizing m with
  | nil => exact ⟨rfl, rfl, hm, Nat.le_add_right _ _⟩
  | cons key keys ih =>
    rw [List.length_cons, Nat.mul_succ] at hhi ⊢
    obtain ⟨hstep, hm', hticks⟩ := h m key hm (by omega)
    obtain ⟨hanswers, hcells, hm'', hticks'⟩ := ih hm' (by omega)
    rw [forItems, Cells.forKeys, ← hstep]
    grind

section calls
variable {m : L1Manager K} (keys : List K) (hm : m.Steady clock lo hi)

include hm

/-- **`reserve_read`** in a quiet time. -/
theorem Steady.reserveRead (hhi : m.ticks + 2 * keys.length ≤ hi) :
    ((m.reserveRead clock keys).answers.map fun a => (a.item, a.result)) =
        keys.map (fun key => (key, ((m.cells (clock lo)).reserve key).1)) ∧
      (m.reserveRead clock keys).manager.cells (clock lo) = (m.cells (clock lo)).reserveAll keys ∧
      (m.reserveRead clock keys).manager.Steady clock lo hi ∧
      (m.reserveRead clock keys).manager.ticks ≤ m.ticks + 2 * keys.length := by
  have h := simulates_reserveReadKey.loop keys hm hhi
  rwa [Cells.forKeys_reserve] at h

/-- **`unsafe_read`** in a quiet time. -/
theorem Steady.unsafeRead (hhi : m.ticks + keys.length ≤ hi) :
    ((m.unsafeRead clock keys).answers.map fun a => (a.item, a.result)) =
        keys.map (fun key => (key, ((m.cells (clock lo)).peek key).1)) ∧
      (m.unsafeRead clock keys).manager.cells (clock lo) = m.cells (clock lo) ∧
      (m.unsafeRead clock keys).manager.Steady clock lo hi ∧
      (m.unsafeRead clock keys).manager.ticks ≤ m.ticks + keys.length := by
  have h := simulates_unsafeReadKey.loop keys hm (by omega)
  rwa [Cells.forKeys_peek, Nat.one_mul] at h

/-- **`finish_read`** in a quiet time. -/
theorem Steady.finishRead (hhi : m.ticks + 3 * keys.length ≤ hi) :
    (m.finishRead clock keys).manager.cells (clock lo) =
        ((m.cells (clock lo)).forKeys Cells.finish keys).2 ∧
      (m.finishRead clock keys).manager.Steady clock lo hi ∧
      (m.finishRead clock keys).manager.ticks ≤ m.ticks + 3 * keys.length := by
  obtain ⟨-, hcells, hm', hticks⟩ := simulates_finishReadKey.loop keys hm hhi
  exact ⟨hcells, { hm' with }, hticks⟩

theorem Steady.raised_finishRead
    (hhi : m.ticks + 3 * keys.length ≤ hi) (hperm : (m.cells (clock lo)).Permanent) :
    (m.finishRead clock keys).raised = (m.memoryManager.free []).1 := by
  obtain ⟨hanswers, -⟩ := simulates_finishReadKey.loop keys hm hhi
  have hnone : finishReadFrees clock m keys = [] := by
    rw [finishReadFrees, List.filterMap_eq_nil_iff]
    intro a ha
    have hmem := List.mem_map_of_mem (f := fun a => (a.item, a.result)) ha
    rw [hanswers] at hmem
    exact (hperm.forKeys_finish keys).1 _ hmem
  rw [L1Manager.raised_finishRead, hnone]

end calls

end L1Manager

end LMCache
