import LMCache.Distributed.Steady

/-! # Invariants of single entries

`EntryRule P` collects what the calls of the manager do to one entry: lock and unlock it for
reading or writing, each under the check that the code makes before, and create it.  A property
of entries with these closure conditions holds of every entry in every run, whatever the clients
do (`EntryRule.reachable`).

* `Sound`: no counter of a read lock is negative, and an entry is never locked for reading and
  for writing at the same time.
* **Permanent objects**: the storage manager reserves no temporary ones, so that there are none
  (`permanent_of_reachable`). -/

namespace LMCache

open List L1Manager TTLLock

variable {K : Type} [DecidableEq K] {clock : ℕ → ℤ} {ok : Bool → Prop}

/-- The closure conditions; `P t e` is about the entry after `t` readings, and `ok` says which
objects are created. -/
structure EntryRule (clock : ℕ → ℤ) (ok : Bool → Prop) (P : ℕ → L1ObjectState → Prop) : Prop where
  later : ∀ t t' e, P t e → t ≤ t' → P t' e
  lockRead : ∀ t e, P t e → e.writeLock.isLocked (clock t) = false →
    P (t + 2) { e with readLock := e.readLock.lock (clock (t + 1)) }
  unlockRead : ∀ t e, P t e → P t { e with readLock := e.readLock.unlock }
  lockWrite : ∀ t e, P t e → e.readLock.isLocked (clock (t + 1)) = false →
    P (t + 3) { e with writeLock := e.writeLock.lock (clock (t + 2)) }
  unlockWrite : ∀ t e, P t e → P t { e with writeLock := e.writeLock.unlock }
  create : ∀ t memoryObj writeTtl readTtl isTemporary, ok isTemporary →
    P (t + 1)
      { memoryObj
        writeLock := (TTLLock.new writeTtl).lock (clock t)
        readLock := TTLLock.new readTtl
        isTemporary }

def Entrywise (P : ℕ → L1ObjectState → Prop) (m : L1Manager K) : Prop :=
  ∀ key e, m.objects.lookup key = some e → P m.ticks e

/-- The calls that create only the objects that `ok` allows. -/
def L1Call.Creates (ok : Bool → Prop) : L1Call K → Prop
  | .reserveWrite _ _ isTemporary _ _ => ∀ b ∈ isTemporary, ok b
  | _ => True

section rule
variable {P : ℕ → L1ObjectState → Prop} {m : L1Manager K} {key : K} {e : L1ObjectState}

theorem Entrywise.delEntry (h : Entrywise P m) : Entrywise P (m.delEntry key) := fun k e' hl =>
  h k e' (lookup_of_delEntry hl)

section keys
variable (hP : EntryRule clock ok P) (h : Entrywise P m)
include hP h

theorem Entrywise.tick (n : ℕ) : Entrywise P (m.tick n) := fun key e hl =>
  hP.later _ _ e (h key e hl) (Nat.le_add_right _ n)

theorem Entrywise.setEntry {n : ℕ}
    (he : P (m.ticks + n) e) : Entrywise P ((m.setEntry key e).tick n) := by
  intro k e' hl
  rcases lookup_setEntry_eq_some.mp hl with ⟨-, rfl⟩ | ⟨-, hl⟩
  · exact he
  · exact hP.later _ _ e' (h k e' hl) (Nat.le_add_right _ n)

variable (key : K)

theorem Entrywise.reserveReadKey : Entrywise P (reserveReadKey clock m key).2 := by
  fun_cases L1Manager.reserveReadKey clock m key
  case case1 => exact h
  case case2 => exact h.tick hP 1
  case case3 e hl hw =>
    refine h.setEntry hP (hP.lockRead _ e (h key e hl) ?_)
    simpa [L1ObjectState.availableForRead] using hw

theorem Entrywise.unsafeReadKey : Entrywise P (unsafeReadKey clock m key).2 := by
  fun_cases L1Manager.unsafeReadKey clock m key
  case case1 => exact h
  case case2 | case3 => exact h.tick hP 1

theorem Entrywise.finishReadKey : Entrywise P (finishReadKey clock m key).2 := by
  fun_cases L1Manager.finishReadKey clock m key with
  | case1 => exact h
  | case2 => exact h.tick hP 1
  | case3 => exact h.tick hP 2
  | case4 => exact h.delEntry.tick hP 3
  | case5 e hl =>
    exact h.setEntry hP (hP.later _ _ _ (hP.unlockRead _ e (h key e hl)) (Nat.le_add_right _ 3))
  | case6 e hl =>
    exact h.setEntry hP (hP.later _ _ _ (hP.unlockRead _ e (h key e hl)) (Nat.le_add_right _ 2))

theorem Entrywise.reserveWriteKey (mode : WriteMode)
    (item : K × Bool) : Entrywise P (reserveWriteKey clock mode m item).2 := by
  fun_cases reserveWriteKey
  · exact h
  · exact h
  · exact h.tick hP _
  next e hl _ _ havailable =>
    exact h.setEntry hP (hP.lockWrite _ e (h item.1 e hl)
      (L1ObjectState.not_locked_of_available havailable).2)

theorem Entrywise.insertNew (item : (K × Bool) × ℕ) (hitem : ok item.1.2) :
    Entrywise P (insertNew clock m item).2 :=
  h.setEntry hP (hP.create _ _ _ _ _ hitem)

theorem Entrywise.finishWriteKey : Entrywise P (finishWriteKey clock m key).2 := by
  fun_cases L1Manager.finishWriteKey clock m key
  case case1 => exact h
  case case2 => exact h.tick hP 1
  case case3 => exact h.tick hP 2
  case case4 e hl _ _ =>
    exact h.setEntry hP (hP.later _ _ _ (hP.unlockWrite _ e (h key e hl)) (Nat.le_add_right _ 2))

theorem Entrywise.deleteKey : Entrywise P (deleteKey clock m key).2 := by
  fun_cases L1Manager.deleteKey clock m key
  case case1 => exact h
  case case2 => exact h.tick hP 1
  case case3 => exact h.tick hP 2
  case case4 => exact h.delEntry.tick hP 2

theorem Entrywise.allocateNew {need : List (K × Bool)}
    (hneed : ∀ item ∈ need, ok item.2) (y : Layout) :
    Entrywise P (m.allocateNew clock y need).2 := by
  have hinsert : ∀ (m : L1Manager K) (items : List ((K × Bool) × ℕ)), Entrywise P m →
      (∀ item ∈ items, ok item.1.2) →
      Entrywise P (m.forItems clock (L1Manager.insertNew clock) items).2 := by
    intro m items
    induction items generalizing m with
    | nil => exact fun h _ => h
    | cons item items ih =>
      intro h hitems
      exact ih _ (h.insertNew hP item (hitems item mem_cons_self)) (forall_mem_cons.mp hitems).2
  fun_cases allocateNew
  · exact h
  · exact hinsert _ _ h fun item hitem => hneed _ (of_mem_zip hitem).1

theorem Entrywise.reserveWrite (keys : List K)
    {isTemporary : List Bool} (hok : ∀ b ∈ isTemporary, ok b) (y : Layout) (mode : WriteMode) :
    Entrywise P (m.reserveWrite clock keys isTemporary y mode).manager := by
  have hfirst : Entrywise P
      (m.forItems clock (L1Manager.reserveWriteKey clock mode) (keys.zip isTemporary)).2 :=
    forItems_keeps clock (Entrywise P) (fun m item h => h.reserveWriteKey hP mode item) _ h
  have hneed : ∀ item ∈ needToAllocate
      (m.forItems clock (L1Manager.reserveWriteKey clock mode) (keys.zip isTemporary)).1,
      ok item.2 := by
    intro item hitem
    obtain ⟨a, ha, rfl⟩ := mem_map.mp hitem
    have hmem := mem_map_of_mem (f := fun a => a.item) (mem_of_mem_filter ha)
    rw [items_forItems] at hmem
    exact hok _ (of_mem_zip hmem).2
  fun_cases reserveWrite
  · exact hfirst
  · exact hfirst
  · exact hfirst.allocateNew hP hneed y

end keys

/-- One call. -/
theorem Entrywise.run (hP : EntryRule clock ok P) {s : L1Run K} (h : Entrywise P s.manager)
    {c : L1Call K} (hc : c.Creates ok) : Entrywise P (c.run clock s).manager := by
  cases c with
  | reserveRead client keys =>
    exact forItems_keeps clock (Entrywise P) (fun m key h => h.reserveReadKey hP key) keys h
  | unsafeRead keys =>
    exact forItems_keeps clock (Entrywise P) (fun m key h => h.unsafeReadKey hP key) keys h
  | finishRead client keys =>
    exact forItems_keeps clock (Entrywise P) (fun m key h => h.finishReadKey hP key) keys h
  | reserveWrite client keys isTemporary y mode => exact h.reserveWrite hP keys hc y mode
  | finishWrite client keys =>
    exact forItems_keeps clock (Entrywise P) (fun m key h => h.finishWriteKey hP key) keys h
  | delete keys =>
    exact forItems_keeps clock (Entrywise P) (fun m key h => h.deleteKey hP key) keys h
  | clear =>
    unfold L1Call.run clear
    dsimp only
    split_ifs
    · exact h
    · intro key e hl
      simp at hl
  | commitExpansion expandSize => exact h

/-- **The rule**: the property holds of every entry in every run. -/
theorem EntryRule.reachable (hP : EntryRule clock ok P) {s : L1Run K}
    (h : ((l1System K clock).restrict fun _ c => c.Creates ok).Reachable s) :
    Entrywise P s.manager := by
  refine h.invariant (I := fun s => Entrywise P s.manager) ?_ ?_
  · rintro s ⟨useLazy, buffer, k, initAddressSpace, w, r, rfl⟩ key e hl
    simp [L1Manager.new] at hl
  · rintro s c s' hs ⟨hc, rfl⟩
    exact hs.run hP hc

end rule

/-! ### Sound locks -/

/-- After `t` readings, the counter of the read lock is not negative, and from now on the entry
is not locked for reading and for writing. -/
structure L1ObjectState.Sound (clock : ℕ → ℤ) (t : ℕ) (e : L1ObjectState) : Prop where
  nonneg : 0 ≤ e.readLock.counter
  exclusive : ∀ now, (∀ i < t, clock i ≤ now) →
    e.readLock.isLocked now = true → e.writeLock.isLocked now = false

theorem TTLLock.isLocked_mono {l : TTLLock} {now now' : ℤ} (h : l.isLocked now = false)
    (hle : now ≤ now') : l.isLocked now' = false := by
  rw [isLocked_eq_false_iff] at h ⊢
  omega

theorem TTLLock.isLocked_of_unlock {l : TTLLock} {now : ℤ} (h : l.unlock.isLocked now = true) :
    l.isLocked now = true := by
  rw [isLocked_iff] at h ⊢
  rw [unlock_expirationMs] at h
  refine ⟨?_, h.2⟩
  by_contra hle
  unfold unlock at h
  grind

theorem sound_rule (clock : ℕ → ℤ) (ok : Bool → Prop) :
    EntryRule clock ok (L1ObjectState.Sound clock) where
  later := fun t t' e h ht => ⟨h.nonneg, fun now hnow =>
    h.exclusive now fun i hi => hnow i (hi.trans_le ht)⟩
  lockRead := by
    intro t e h hw
    refine ⟨?_, fun now hnow _ => isLocked_mono hw (hnow t (by omega))⟩
    have hnonneg := h.nonneg
    unfold lock
    split_ifs
    · exact Int.one_nonneg
    · exact Int.add_nonneg hnonneg Int.one_nonneg
  unlockRead := by
    intro t e h
    refine ⟨?_, fun now hnow hr => h.exclusive now hnow (isLocked_of_unlock hr)⟩
    have hnonneg := h.nonneg
    unfold unlock
    split_ifs
    · exact hnonneg
    · dsimp only
      omega
  lockWrite := by
    intro t e h hr
    refine ⟨h.nonneg, fun now hnow hlocked => ?_⟩
    have hfree := isLocked_mono hr (hnow (t + 1) (by omega))
    cases hfree.symm.trans hlocked
  unlockWrite := by
    intro t e h
    refine ⟨h.nonneg, fun now hnow hr => ?_⟩
    cases hw : e.writeLock.unlock.isLocked now with
    | false => rfl
    | true =>
      have := h.exclusive now hnow hr
      cases (TTLLock.isLocked_of_unlock hw).symm.trans this
  create := by
    intro t memoryObj w r isTemporary _
    refine ⟨le_rfl, fun now _ hr => ?_⟩
    simp [TTLLock.new, TTLLock.isLocked] at hr

def L1Manager.Sound (clock : ℕ → ℤ) (m : L1Manager K) : Prop :=
  Entrywise (L1ObjectState.Sound clock) m

/-- **Sound locks in every run.** -/
theorem sound_of_reachable {s : L1Run K}
    (h : ((l1System K clock).restrict fun _ c => c.Creates ok).Reachable s) :
    s.manager.Sound clock :=
  (sound_rule clock ok).reachable h

/-- **No temporary objects** in a run that creates none. -/
theorem permanent_of_reachable {s : L1Run K}
    (h : ((l1System K clock).restrict fun _ c => c.Creates (· = false)).Reachable s) (now : ℤ) :
    (s.manager.cells now).Permanent := by
  have hP : EntryRule clock (· = false) fun _ e => e.isTemporary = false :=
    ⟨fun _ _ _ h _ => h, fun _ _ h _ => h, fun _ _ h => h, fun _ _ h _ => h, fun _ _ h => h,
      fun _ _ _ _ _ h => h⟩
  intro key cell hcell
  obtain ⟨e, hl, rfl⟩ := Option.map_eq_some_iff.mp hcell
  exact hP.reachable h key e hl

section view
variable {m : L1Manager K} {hi : ℕ}

theorem L1Manager.Sound.steady (h : m.Sound clock) (hq : m.Quiet clock m.ticks hi) :
    m.Steady clock m.ticks hi :=
  ⟨le_rfl, hq, fun key e hl => (h key e hl).nonneg⟩

theorem L1Manager.Sound.exclusive (h : m.Sound clock) (hc : Monotone clock) (key : K) :
    (m.cells (clock m.ticks)).Exclusive key := by
  intro cell hcell hw
  obtain ⟨e, hl, rfl⟩ := Option.map_eq_some_iff.mp hcell
  by_contra hne
  have hr : e.readLock.isLocked (clock m.ticks) = true := by simp [e.isLocked_readLock, hne]
  have := (h key e hl).exclusive _ (fun i hi => hc hi.le) hr
  exact absurd hw (by simp [L1ObjectState.cell, this])

end view

end LMCache
