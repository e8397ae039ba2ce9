import LMCache.Distributed.FreedObjects

/-! # What `reserve_write` does to the objects

The first loop of `reserve_write` takes write locks of entries that exist, and leaves over the keys
that have no entry.  The last loop makes an entry for each of these, with a new object and a fresh
write lock; of the objects of a key that occurs twice, the entry has the last one.

* `Relocked` is the effect of the first loop: an entry keeps its object, and its write lock is taken
  only if it was free at some reading of the clock.
* `allocateNew_effect` is the effect of the allocation and the last loop. -/

namespace LMCache.L1Manager

open List

variable {K : Type} [DecidableEq K] {clock : ℕ → ℤ} {m m' m'' : L1Manager K}

/-- From `m` to `m'` some write locks were taken. -/
structure Relocked (clock : ℕ → ℤ) (m m' : L1Manager K) : Prop where
  memory : m'.memoryManager = m.memoryManager
  ticks : m.ticks ≤ m'.ticks
  old : ∀ key i l, m.view key = some (i, l) → ∃ l', m'.view key = some (i, l') ∧
    (l' = l ∨ ∃ t < m'.ticks, l.isLocked (clock t) = false)
  absent : ∀ key, m.view key = none → m'.view key = none

theorem Relocked.refl (clock : ℕ → ℤ) (m : L1Manager K) : Relocked clock m m :=
  ⟨rfl, le_rfl, fun _ _ l hl => ⟨l, hl, Or.inl rfl⟩, fun _ h => h⟩

theorem Relocked.trans (h : Relocked clock m m') (h' : Relocked clock m' m'') :
    Relocked clock m m'' := by
  refine ⟨h'.memory.trans h.memory, h.ticks.trans h'.ticks, fun key i l hl => ?_, fun key hl =>
    h'.absent key (h.absent key hl)⟩
  obtain ⟨l₁, hl₁, hold⟩ := h.old key i l hl
  obtain ⟨l₂, hl₂, hold'⟩ := h'.old key i l₁ hl₁
  refine ⟨l₂, hl₂, ?_⟩
  rcases hold with rfl | ⟨t, ht, hfree⟩
  · exact hold'
  · exact Or.inr ⟨t, ht.trans_le h'.ticks, hfree⟩

theorem relocked_tick (clock : ℕ → ℤ) (m : L1Manager K) (n : ℕ) : Relocked clock m (m.tick n) :=
  ⟨rfl, Nat.le_add_right _ _, fun _ _ l hl => ⟨l, hl, Or.inl rfl⟩, fun _ h => h⟩

theorem relocked_reserveWriteKey (clock : ℕ → ℤ) (mode : WriteMode) (m : L1Manager K)
    (item : K × Bool) : Relocked clock m (reserveWriteKey clock mode m item).2 := by
  fun_cases reserveWriteKey
  · exact .refl clock m
  · exact .refl clock m
  · exact relocked_tick clock m _
  next hl _ _ havail =>
    have hfree := (L1ObjectState.not_locked_of_available havail).1
    have hview := view_of_lookup hl
    refine ⟨rfl, Nat.le_add_right _ _, fun key i l hkey => ?_, fun key hkey => ?_⟩
    · rw [view_tick, view_setEntry]
      by_cases hk : key = item.1
      · rw [hk, hview] at hkey
        cases hkey
        rw [hk, Function.update_self]
        exact ⟨_, rfl, Or.inr ⟨m.ticks, Nat.lt_add_of_pos_right (by decide), hfree⟩⟩
      · grind
    · have hk : key ≠ item.1 := fun hk => by
        rw [hk, hview] at hkey
        cases hkey
      rw [view_tick, view_setEntry, Function.update_of_ne hk, hkey]

/-- **The first loop.** -/
theorem relocked_loop (clock : ℕ → ℤ) (mode : WriteMode) (items : List (K × Bool))
    (m : L1Manager K) : Relocked clock m (m.forItems clock (reserveWriteKey clock mode) items).2 :=
  forItems_keeps clock (Relocked clock m)
    (fun m' item h => h.trans (relocked_reserveWriteKey clock mode m' item)) items (.refl clock m)

theorem view_of_mem_needToAllocate {mode : WriteMode} {items : List (K × Bool)} {item : K × Bool}
    (h : item ∈ needToAllocate (m.forItems clock (reserveWriteKey clock mode) items).1) :
    m.view item.1 = none := by
  obtain ⟨a, ha, rfl⟩ := mem_map.mp h
  obtain ⟨ha, hnone⟩ := mem_filter.mp ha
  obtain ⟨done, item, rest, -, rfl⟩ := mem_forItems.mp ha
  have hloop := relocked_loop clock mode done m
  generalize (m.forItems clock (reserveWriteKey clock mode) done).2 = m' at *
  have hview : m'.view item.1 = none := by
    cases hl : m'.objects.lookup item.1 with
    | none => rw [view, hl, Option.map_none]
    | some e =>
      simp only [answerOf, reserveWriteKey, hl] at hnone
      split_ifs at hnone <;> simp at hnone
  by_contra hsome
  obtain ⟨⟨i, l⟩, hl⟩ := Option.ne_none_iff_exists'.mp hsome
  obtain ⟨l', hl', -⟩ := hloop.old _ i l hl
  rw [answerOf, hview] at hl'
  cases hl'

/-! ### New entries -/

theorem counter_lock_new (ttlSec : ℕ) (now : ℤ) : ((TTLLock.new ttlSec).lock now).counter = 1 := by
  unfold TTLLock.lock
  split_ifs <;> rfl

section
variable (clock : ℕ → ℤ)

theorem view_insertNew (m : L1Manager K) (item : (K × Bool) × ℕ) :
    (insertNew clock m item).2.view = Function.update m.view item.1.1
      (some (item.2, (TTLLock.new m.writeTtlSeconds).lock (clock m.ticks))) :=
  view_setEntry m item.1.1 _

/-- **The last loop**: a key has the last of its new objects. -/
theorem insertNew_effect (items : List ((K × Bool) × ℕ)) (m : L1Manager K) :
    m.ticks ≤ (m.forItems clock (insertNew clock) items).2.ticks ∧
      ∀ key, (m.forItems clock (insertNew clock) items).2.view key = m.view key ∨
        ∃ item ∈ items, item.1.1 = key ∧ ∃ l, l.counter = 1 ∧
          (m.forItems clock (insertNew clock) items).2.view key = some (item.2, l) := by
  induction items generalizing m with
  | nil => exact ⟨le_rfl, fun key => Or.inl rfl⟩
  | cons item items ih =>
    obtain ⟨hticks, hview⟩ := ih (insertNew clock m item).2
    refine ⟨(Nat.le_add_right _ _).trans hticks, fun key => ?_⟩
    rw [forItems]
    rcases hview key with hsame | ⟨item', hitem', hkey, hl⟩
    · rw [hsame, view_insertNew]
      by_cases hk : key = item.1.1
      · right
        rw [hk, Function.update_self]
        exact ⟨item, mem_cons_self, rfl, _, counter_lock_new _ _, rfl⟩
      · exact Or.inl (Function.update_of_ne hk ..)
    · exact Or.inr ⟨item', mem_cons_of_mem _ hitem', hkey, hl⟩

/-- **The allocation and the new entries.**  Without memory, nothing changes. -/
theorem allocateNew_effect (m : L1Manager K) (y : Layout) (need : List (K × Bool)) :
    (m.allocateNew clock y need).2.memoryManager = (m.memoryManager.allocate y need.length).2 ∧
      m.ticks ≤ (m.allocateNew clock y need).2.ticks ∧
      ∀ key, (m.allocateNew clock y need).2.view key = m.view key ∨
        ∃ ids, (m.memoryManager.allocate y need.length).1 = some ids ∧
          ∃ item ∈ need.zip ids, item.1.1 = key ∧ ∃ l, l.counter = 1 ∧
            (m.allocateNew clock y need).2.view key = some (item.2, l) := by
  fun_cases allocateNew
  case case1 => exact ⟨rfl, le_rfl, fun _ => Or.inl rfl⟩
  case case2 allocated m₁ ids hids _ =>
    obtain ⟨hticks, hview⟩ := insertNew_effect clock (need.zip ids) m₁
    exact ⟨memoryManager_forItems (fun _ _ => rfl) clock _ _, hticks, fun key =>
      (hview key).imp_right fun hnew => ⟨ids, hids, hnew⟩⟩

/-- **`reserve_write`** keeps the objects of the entries, takes write locks that were free, and
locks the new entries once. -/
theorem reserveWrite_effect (m : L1Manager K) (keys : List K)
    (isTemporary : List Bool) (y : Layout) (mode : WriteMode) :
    let m' := (m.reserveWrite clock keys isTemporary y mode).manager
    m.ticks ≤ m'.ticks ∧
      (∀ key i l, m.view key = some (i, l) → ∃ l', m'.view key = some (i, l') ∧
        (l' = l ∨ ∃ t < m'.ticks, l.isLocked (clock t) = false)) ∧
      ∀ key i l, m.view key = none → m'.view key = some (i, l) → l.counter = 1 := by
  have hloop := relocked_loop clock mode (keys.zip isTemporary) m
  have hrelocked : ∀ {m₁}, Relocked clock m m₁ →
      ∀ key i l, m.view key = none → m₁.view key = some (i, l) → l.counter = 1 := by
    intro m₁ h key i l hnone hsome
    cases (h.absent key hnone).symm.trans hsome
  unfold reserveWrite
  dsimp only
  split_ifs
  · exact ⟨hloop.ticks, hloop.old, hrelocked hloop⟩
  · exact ⟨hloop.ticks, hloop.old, hrelocked hloop⟩
  · have hneed : ∀ item ∈ needToAllocate (m.forItems clock (reserveWriteKey clock mode)
        (keys.zip isTemporary)).1, m.view item.1 = none := fun item =>
      view_of_mem_needToAllocate
    generalize needToAllocate (m.forItems clock (reserveWriteKey clock mode)
      (keys.zip isTemporary)).1 = need at *
    generalize (m.forItems clock (reserveWriteKey clock mode) (keys.zip isTemporary)).2 = m₁ at *
    obtain ⟨-, hticks, hview⟩ := allocateNew_effect clock m₁ y need
    refine ⟨hloop.ticks.trans hticks, fun key i l hl => ?_, fun key i l hnone hsome => ?_⟩
    · obtain ⟨l', hl', hold⟩ := hloop.old key i l hl
      have hsame : (m₁.allocateNew clock y need).2.view key = m₁.view key := by
        rcases hview key with hsame | ⟨ids, -, item, hitem, rfl, -⟩
        · exact hsame
        · rw [hneed item.1 (of_mem_zip hitem).1] at hl
          cases hl
      refine ⟨l', hsame.trans hl', hold.imp_right ?_⟩
      grind
    · grind

end

end LMCache.L1Manager
