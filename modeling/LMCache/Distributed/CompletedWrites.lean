import LMCache.Distributed.StaleFinish
import LMCache.Distributed.WriteLog

/-! # Writes that are not finished

An entry is readable when its write lock is not held, be it released or expired.
`L1Manager.Recorded` ties the write locks to the log: the counter is 0 if the write is
completed, and 1 if it is pending, with the same expiration.

`l1_completed_writes`: `reserve_read` succeeds on completed writes only, unless one of its keys
has a pending write that has expired.  In `l1_unfinished_write_read` a reader gets the object
of a writer that never finished. -/

namespace LMCache

open TTLLock L1Manager

variable {K : Type} [DecidableEq K] {clock : ℕ → ℤ}

/-! ### Write locks and the log -/

namespace L1Manager

def Recorded (m : L1Manager K) (log : List (WriteEvent K)) : Prop :=
  ∀ key e, m.objects.lookup key = some e → e.writeLock.ttlMs = m.ttlMs .write ∧
    (e.writeLock.counter = 0 ∧ Completed log key ∨
      e.writeLock.counter = 1 ∧ Pending log key e.writeLock.expirationMs)

variable {m : L1Manager K} {log : List (WriteEvent K)} {key : K} {e e' : L1ObjectState}

section
variable (h : Recorded m log)

include h

theorem Recorded.setEntry (hl : m.objects.lookup key = some e)
    (he : e'.writeLock = e.writeLock) : Recorded (m.setEntry key e') log := by
  intro key' e'' hl'
  rcases lookup_setEntry_eq_some.mp hl' with ⟨rfl, rfl⟩ | ⟨-, hl'⟩
  · exact he ▸ h key' e hl
  · exact h key' e'' hl'

variable (key : K)

theorem Recorded.delEntry : Recorded (m.delEntry key) log :=
  fun key' e' hl' => h key' e' (lookup_of_delEntry hl')

/-- Entries of other keys are not concerned by an event. -/
theorem Recorded.event (ev : WriteEvent K) (he : e.writeLock.ttlMs = m.ttlMs .write ∧
      (e.writeLock.counter = 0 ∧ Completed (ev :: log) ev.key ∨
        e.writeLock.counter = 1 ∧ Pending (ev :: log) ev.key e.writeLock.expirationMs)) :
    Recorded (m.setEntry ev.key e) (ev :: log) := by
  intro key' e' hl'
  rcases lookup_setEntry_eq_some.mp hl' with ⟨rfl, rfl⟩ | ⟨hk, hl'⟩
  · exact he
  · obtain ⟨httl, hdone | hpend⟩ := h key' e' hl'
    · exact ⟨httl, Or.inl ⟨hdone.1, hdone.2.cons (Ne.symm hk)⟩⟩
    · exact ⟨httl, Or.inr ⟨hpend.1, hpend.2.cons (Ne.symm hk)⟩⟩

theorem Recorded.reserve {l : TTLLock} {now : ℤ}
    (httl : l.ttlMs = m.ttlMs .write) (hfree : l.expirationMs ≤ now ∨ l.counter = 0)
    (he : e.writeLock = l.lock now) :
    Recorded (m.setEntry key e) (.reserved key (now + m.ttlMs .write) :: log) := by
  refine h.event (.reserved key _) ⟨?_, Or.inr ⟨?_, ?_⟩⟩
  · rw [he, lock_ttlMs, httl]
  · rw [he]
    by_cases hexp : l.expirationMs ≤ now
    · exact lock_counter_of_expired hexp
    · rw [lock_counter (not_le.mp hexp), hfree.resolve_left hexp, zero_add]
  · rw [he, lock_expirationMs, httl]
    exact pending_reserved log key _

theorem Recorded.finishWriteKey :
    Recorded (finishWriteKey clock m key).2
      (logFinished log (answerOf clock (finishWriteKey clock) m key)) := by
  unfold answerOf
  fun_cases L1Manager.finishWriteKey clock m key
  case case1 | case2 | case3 => exact h
  case case4 e hl hw _ =>
    obtain ⟨httl, hcases⟩ := h key e hl
    have hw : e.writeLock.isLocked (clock m.ticks) = true := by simpa using hw
    have hpos := (isLocked_iff.mp hw).1
    have hpend := hcases.resolve_left (by omega)
    refine h.event (.finished key) ⟨?_, Or.inl ⟨?_, hpend.2.finish⟩⟩
    · rw [unlock_ttlMs, httl]
    · rw [unlock_counter hpos, hpend.1, sub_self]

omit h in
theorem Recorded.reserveWriteKey (hc : Monotone clock) (h : Recorded m log) (mode : WriteMode)
    (item : K × Bool) :
    Recorded (reserveWriteKey clock mode m item).2
      (logAnswered (m.ttlMs .write) log (answerOf clock (reserveWriteKey clock mode) m item)) := by
  unfold answerOf L1Manager.reserveWriteKey
  cases hl : m.objects.lookup item.1 with
  | none => exact h
  | some e =>
    dsimp only
    split_ifs with hmode havail
    · exact h
    · exact h
    · obtain ⟨httl, hcases⟩ := h item.1 e hl
      refine h.reserve item.1 httl ?_ rfl
      have hw := (L1ObjectState.not_locked_of_available havail).1
      have hlater : clock m.ticks ≤ clock (m.ticks + 2) := hc (Nat.le_add_right _ _)
      have := isLocked_eq_false_iff.mp hw
      show e.writeLock.expirationMs ≤ clock (m.ticks + 2) ∨ e.writeLock.counter = 0
      omega

/-! ### Calls -/

theorem Recorded.reserveReadKey : Recorded (reserveReadKey clock m key).2 log := by
  fun_cases L1Manager.reserveReadKey clock m key
  case case1 | case2 => exact h
  case case3 hl _ => exact h.setEntry hl rfl

theorem Recorded.unsafeReadKey : Recorded (unsafeReadKey clock m key).2 log := by
  fun_cases L1Manager.unsafeReadKey clock m key
  case case1 | case2 | case3 => exact h

theorem Recorded.finishReadKey : Recorded (finishReadKey clock m key).2 log := by
  fun_cases L1Manager.finishReadKey clock m key
  case case1 | case2 | case3 => exact h
  case case4 => exact h.delEntry key
  case case5 hl _ _ _ _ _ => exact h.setEntry hl rfl
  case case6 hl _ _ _ _ => exact h.setEntry hl rfl

theorem Recorded.deleteKey : Recorded (deleteKey clock m key).2 log := by
  fun_cases L1Manager.deleteKey clock m key
  case case1 | case2 | case3 => exact h
  case case4 => exact h.delEntry key

theorem Recorded.allocateNew (y : Layout) (need : List (K × Bool)) :
    Recorded (m.allocateNew clock y need).2
      ((m.allocateNew clock y need).1.foldl (logReserved (m.ttlMs .write)) log) := by
  fun_cases allocateNew
  case case1 =>
    rw [foldl_answerAll logReserved_of_ne _ _ (by simp)]
    exact h
  case case2 allocated _ ids _ _ =>
    rw [List.foldl_map]
    have h : Recorded { m with memoryManager := allocated.2 } log := h
    refine (forItems_induct clock
      (fun log' (a : Answer ((K × Bool) × ℕ) L1OperationResult) =>
        logReserved (m.ttlMs .write) log' ⟨a.item.1.1, a.result, a.time⟩)
      (fun m' log' _ => Recorded m' log' ∧ m'.ttlMs = m.ttlMs) (fun _ => True)
      (fun m' log' item _ h' => ⟨trivial, ?_⟩) (need.zip ids) ⟨h, rfl⟩).2.1
    refine ⟨?_, h'.2⟩
    rw [← h'.2]
    exact h'.1.reserve item.1.1 (l := .new m'.writeTtlSeconds) rfl (Or.inr rfl) rfl

end

theorem ttlMs_reserveWriteKey (m : L1Manager K) (mode : WriteMode) (item : K × Bool) :
    (reserveWriteKey clock mode m item).2.ttlMs = m.ttlMs := by
  fun_cases reserveWriteKey <;> rfl

theorem Recorded.reserveWrite (hc : Monotone clock) (h : Recorded m log) (keys : List K)
    (isTemporary : List Bool) (y : Layout) (mode : WriteMode) :
    Recorded (m.reserveWrite clock keys isTemporary y mode).manager
      ((m.reserveWrite clock keys isTemporary y mode).answers.foldl
        (logReserved (m.ttlMs .write)) log) := by
  obtain ⟨-, hrec, httl⟩ := forItems_induct clock (logAnswered (m.ttlMs .write))
    (fun m' log' _ => Recorded m' log' ∧ m'.ttlMs = m.ttlMs) (fun _ => True)
    (fun m' log' item _ h' => ⟨trivial, h'.2 ▸ h'.1.reserveWriteKey hc mode item,
      (ttlMs_reserveWriteKey m' mode item).trans h'.2⟩) (keys.zip isTemporary) ⟨h, rfl⟩
  rw [← foldl_answered] at hrec
  fun_cases reserveWrite
  · exact hrec
  · rw [List.foldl_append, foldl_answerAll logReserved_of_ne _ _ (by simp)]
    exact hrec
  · rw [List.foldl_append, ← httl]
    rw [← httl] at hrec
    exact hrec.allocateNew y _

/-- **Every call** that names its keys once keeps the locks tied to the log. -/
theorem Recorded.run (hc : Monotone clock) {s : LoggedRun K} (h : Recorded s.manager s.log)
    {c : L1Call K} (hok : DistinctKeys s c) :
    Recorded (c.run clock s.toL1Run).manager (c.logged clock s.manager s.log) := by
  cases c with
  | reserveRead client keys =>
    exact forItems_keeps clock (Recorded · s.log) (fun _ key h' => h'.reserveReadKey key) keys h
  | unsafeRead keys =>
    exact forItems_keeps clock (Recorded · s.log) (fun _ key h' => h'.unsafeReadKey key) keys h
  | finishRead client keys =>
    exact forItems_keeps clock (Recorded · s.log) (fun _ key h' => h'.finishReadKey key) keys h
  | reserveWrite client keys isTemporary y mode =>
    show Recorded _ ((returned _).foldl _ _)
    rw [returned_eq_self (nodup_reserveWrite s.manager hok isTemporary y mode)]
    exact h.reserveWrite hc keys isTemporary y mode
  | finishWrite client keys =>
    have hitems := items_forItems clock (L1Manager.finishWriteKey clock) s.manager keys
    show Recorded _ ((returned _).foldl _ _)
    rw [returned_eq_self]
    · exact (forItems_induct clock logFinished (fun m' log' _ => Recorded m' log')
        (fun _ => True) (fun _ _ key _ h' => ⟨trivial, h'.finishWriteKey key⟩) keys h).2
    · exact hitems.symm ▸ hok
  | delete keys =>
    exact forItems_keeps clock (Recorded · s.log) (fun _ key h' => h'.deleteKey key) keys h
  | clear =>
    show Recorded s.manager.clear.manager s.log
    fun_cases clear
    · exact h
    · intro key e hl
      cases hl
  | commitExpansion n => exact h

end L1Manager

theorem recorded_inductive (hc : Monotone clock) :
    ((l1LogSystem K clock).restrict DistinctKeys).Inductive fun s => Recorded s.manager s.log where
  init := by
    rintro ⟨s, log⟩ ⟨⟨useLazy, buffer, k, start, writeTtl, readTtl, rfl⟩, rfl⟩ key e hl
    cases hl
  step := by
    rintro s c s' h ⟨hok, rfl⟩
    exact h.run hc hok

/-! ### Reading -/

theorem reserveReadKey_success {m : L1Manager K} {key : K} :
    (reserveReadKey clock m key).1.1 = .success ↔
      ∃ e, m.objects.lookup key = some e ∧ e.writeLock.isLocked (clock m.ticks) = false := by
  unfold reserveReadKey
  cases m.objects.lookup key with
  | none => simp
  | some e =>
    cases hw : e.writeLock.isLocked (clock m.ticks) <;>
      simp [L1ObjectState.availableForRead, hw]

theorem reserveReadKey_completed_iff {m : L1Manager K} {log : List (WriteEvent K)}
    (h : Recorded m log) (key : K) :
    ((reserveReadKey clock m key).1.1 = .success → Completed log key) ↔
      m.objects.lookup key = none ∨ Completed log key ∨
        ∃ expires, Pending log key expires ∧ clock m.ticks < expires := by
  rw [reserveReadKey_success]
  cases hl : m.objects.lookup key with
  | none => simp
  | some e =>
    obtain ⟨-, hdone | hpend⟩ := h key e hl
    · exact iff_of_true (fun _ => hdone.2) (Or.inr (Or.inl hdone.2))
    · have hnot := hpend.2.not_completed
      constructor
      · intro hread
        refine Or.inr (Or.inr ⟨_, hpend.2, ?_⟩)
        by_contra hexp
        apply hnot
        apply hread
        exact ⟨e, rfl, isLocked_eq_false_iff.mpr (Or.inr (not_lt.mp hexp))⟩
      · rintro (hnone | hdone | ⟨expires, hpend', hnow⟩) ⟨e', he', hfree⟩
        · cases hnone
        · exact hdone
        · cases he'
          rw [hpend'.expires_eq hpend.2] at hnow
          have := isLocked_eq_false_iff.mp hfree
          omega

theorem lookup_reserveReadKey (m : L1Manager K) (key key' : K) :
    (reserveReadKey clock m key).2.objects.lookup key' = none ↔
      m.objects.lookup key' = none := by
  fun_cases reserveReadKey clock m key
  case case1 | case2 => rfl
  case case3 hl _ =>
    by_cases hk : key' = key
    · subst hk
      show (m.setEntry key' _).objects.lookup key' = none ↔ _
      simp [hl]
    · show (m.setEntry key _).objects.lookup key' = none ↔ _
      rw [lookup_setEntry_of_ne hk]

/-- **Completed writes.**  In every run in which the calls name their keys once, the answers of
`reserve_read` are successes on completed writes only, if and only if none of its keys has, when
it is looked at, an entry with an unfinished write that has expired. -/
theorem l1_completed_writes (hc : Monotone clock) {s : LoggedRun K}
    (h : ((l1LogSystem K clock).restrict DistinctKeys).Reachable s) (keys : List K) :
    (∀ a ∈ (s.manager.reserveRead clock keys).answers, a.result.1 = .success →
      Completed s.log a.item) ↔
    ∀ done key rest, keys = done ++ key :: rest →
      s.manager.objects.lookup key = none ∨ Completed s.log key ∨
        ∃ expires, Pending s.log key expires ∧
          clock (s.manager.reserveRead clock done).manager.ticks < expires := by
  have hrec := (recorded_inductive hc).reachable h
  have hdone : ∀ done, Recorded (s.manager.reserveRead clock done).manager s.log ∧
      ∀ key, (s.manager.reserveRead clock done).manager.objects.lookup key = none ↔
        s.manager.objects.lookup key = none := by
    intro done
    apply forItems_keeps clock (fun m => Recorded m s.log ∧ ∀ key,
      m.objects.lookup key = none ↔ s.manager.objects.lookup key = none)
    · intro m key h'
      exact ⟨h'.1.reserveReadKey key, fun key' =>
        (lookup_reserveReadKey m key key').trans (h'.2 key')⟩
    · exact ⟨hrec, fun _ => Iff.rfl⟩
  have hkey : ∀ done key, ((reserveReadKey clock (s.manager.reserveRead clock done).manager
      key).1.1 = .success → Completed s.log key) ↔ s.manager.objects.lookup key = none ∨
        Completed s.log key ∨ ∃ expires, Pending s.log key expires ∧
          clock (s.manager.reserveRead clock done).manager.ticks < expires := by
    intro done key
    rw [reserveReadKey_completed_iff (hdone done).1, (hdone done).2]
  constructor
  · intro hall done key rest heq
    rw [← hkey]
    exact hall _ (mem_forItems.mpr ⟨done, key, rest, heq, rfl⟩)
  · intro hall a ha
    obtain ⟨done, key, rest, heq, rfl⟩ := mem_forItems.mp ha
    exact (hkey done key).mpr (hall done key rest heq)

instance {s : LoggedRun K} : (c : L1Call K) → Decidable (DistinctKeys s c)
  | .reserveWrite _ keys _ _ _ | .finishWrite _ keys => inferInstanceAs (Decidable keys.Nodup)
  | .reserveRead _ _ | .unsafeRead _ | .finishRead _ _ | .delete _ | .clear
  | .commitExpansion _ => inferInstanceAs (Decidable True)

/-- A write in progress, and a write that is completed: the reader gets the second only. -/
theorem l1_completed_writes_one_of_two :
    ∃ s : LoggedRun ℕ, ((l1LogSystem ℕ slowClock).restrict DistinctKeys).Reachable s ∧
      (s.manager.reserveRead slowClock [7, 8]).answers.map (fun a => a.result.1) =
        [.keyNotReadable, .success] ∧
      ∀ a ∈ (s.manager.reserveRead slowClock [7, 8]).answers, a.result.1 = .success →
        Completed s.log a.item := by
  have h₀ : ((l1LogSystem ℕ slowClock).restrict DistinctKeys).Reachable ⟨smallRun, []⟩ :=
    .init ⟨⟨true, 64, 2, none, 1, 1, rfl⟩, rfl⟩
  have hs := h₀.replay_restrict (fun _ _ => rfl)
    [.reserveWrite 0 [7, 8] [false, false] smallLayout .all, .finishWrite 0 [8]] (by decide +kernel)
  refine ⟨_, hs, by decide +kernel, (l1_completed_writes slowClock_monotone hs [7, 8]).mpr ?_⟩
  intro done key rest heq
  refine Or.inr ?_
  cases done with
  | nil =>
    cases heq
    refine Or.inr ⟨1000, ⟨[.finished 8, .reserved 8 1200], ⟨⟨[], ?_⟩, by simp⟩, by simp⟩, ?_⟩
    all_goals decide +kernel
  | cons first done =>
    cases done with
    | nil =>
      cases heq
      refine Or.inl ⟨1200, [.finished 8], ⟨⟨[.reserved 7 1000], ?_⟩, by simp⟩, by simp⟩
      decide +kernel
    | cons second done => simp at heq

/-- The writer never finishes.  When its lock has expired, a reader gets the object. -/
theorem l1_unfinished_write_read :
    ∃ s : LoggedRun ℕ, ((l1LogSystem ℕ slowClock).restrict DistinctKeys).Reachable s ∧
      (s.manager.reserveRead slowClock [7]).answers.map (fun a => a.result.1) = [.success] ∧
      ¬ Completed s.log 7 := by
  have h₀ : ((l1LogSystem ℕ slowClock).restrict DistinctKeys).Reachable ⟨smallRun, []⟩ :=
    .init ⟨⟨true, 64, 2, none, 1, 1, rfl⟩, rfl⟩
  have hs := h₀.replay_restrict (fun _ _ => rfl)
    [.reserveWrite 0 [7] [false] smallLayout .all, .unsafeRead [7, 7, 7, 7]] (by decide +kernel)
  refine ⟨_, hs, by decide +kernel, ?_⟩
  exact @Pending.not_completed ℕ _ 7 1000 ⟨[], ⟨⟨[], by decide +kernel⟩, by simp⟩, by simp⟩

end LMCache
