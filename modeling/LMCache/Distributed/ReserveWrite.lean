import LMCache.Distributed.CallInvariant

/-! # Reserving for writing

`reserve_write` locks the entries that exist in a first loop and creates the others after one
allocation for all of them.  The keys that the first loop leaves over are still absent when
the allocation is done, and the new objects belong to no entry; so the invariant is kept, as
long as the keys of the call are distinct.

`inv_run` puts all calls together. -/

namespace LMCache

open List

variable {K : Type} [DecidableEq K] {clock : ℕ → ℤ}

namespace L1Manager

variable {m : L1Manager K} {rs : List (Reservation K)}

theorem zip_sublist {α β : Type} (l : List α) (l' : List β) :
    ((l.zip l').map Prod.fst).Sublist l ∧ ((l.zip l').map Prod.snd).Sublist l' := by
  induction l generalizing l' with
  | nil => simp
  | cons a l ih =>
    cases l' with
    | nil => simp
    | cons b l' => exact ⟨(ih l').1.cons_cons a, (ih l').2.cons_cons b⟩

/-! ### Entries that exist -/

/-- What the first loop keeps, with the reservations and the keys left over. -/
structure Locking (clock : ℕ → ℤ) (ttl : LockKind → ℤ) (m : L1Manager K)
    (p : List (Reservation K) × List (K × Bool)) (items : List (K × Bool)) : Prop where
  inv : Inv clock m p.1
  ttl : m.ttlMs = ttl
  absent : ∀ item ∈ p.2, m.objects.lookup item.1 = none
  nodup : ((p.2 ++ items).map Prod.fst).Nodup

/-- The reservations and the keys left over after an answer of the first loop. -/
def lockingStep (client : ℕ) (ttl : ℤ) (p : List (Reservation K) × List (K × Bool))
    (a : Answer (K × Bool) (Option L1OperationResult)) : List (Reservation K) × List (K × Bool) :=
  match a.result with
  | none => (p.1, p.2 ++ [a.item])
  | some r => (reservedBy client .write ttl p.1 ⟨a.item.1, r, a.time⟩, p.2)

theorem foldl_lockingStep (client : ℕ) (ttl : ℤ)
    (answers : List (Answer (K × Bool) (Option L1OperationResult)))
    (p : List (Reservation K) × List (K × Bool)) :
    answers.foldl (lockingStep client ttl) p =
      ((answered answers).foldl (reservedBy client .write ttl) p.1,
        p.2 ++ needToAllocate answers) := by
  induction answers generalizing p with
  | nil => simp [answered, needToAllocate]
  | cons a answers ih =>
    rw [foldl_cons, ih]
    cases hr : a.result <;> simp [lockingStep, answered, needToAllocate, hr]

theorem Locking.step (hc : Monotone clock) (client : ℕ) {ttl : LockKind → ℤ} (mode : WriteMode)
    {p : List (Reservation K) × List (K × Bool)} {item : K × Bool} {items : List (K × Bool)}
    (h : Locking clock ttl m p (item :: items)) :
    Locking clock ttl (reserveWriteKey clock mode m item).2
      (lockingStep client (ttl .write) p (answerOf clock (reserveWriteKey clock mode) m item))
      items := by
  have hrest : ((p.2 ++ items).map Prod.fst).Nodup := by
    refine h.nodup.sublist (List.Sublist.map _ ?_)
    exact (List.Sublist.refl _).append (sublist_cons_self _ _)
  have hfail : ∀ n, Locking clock ttl (m.tick n) p items := fun n =>
    ⟨h.inv.tick n, h.ttl, h.absent, hrest⟩
  unfold answerOf reserveWriteKey
  cases hl : m.objects.lookup item.1 with
  | none =>
    refine ⟨h.inv, h.ttl, fun item' hitem' => ?_, ?_⟩
    · rcases mem_append.mp hitem' with hmem | hmem
      · exact h.absent item' hmem
      · exact mem_singleton.mp hmem ▸ hl
    · show (((p.2 ++ [item]) ++ items).map Prod.fst).Nodup
      rw [append_assoc]
      exact h.nodup
  | some e =>
    dsimp only
    split_ifs with hmode havail
    · exact hfail 0
    · exact hfail _
    · have havail := L1ObjectState.not_locked_of_available havail
      have hinv := h.inv.tick 3
      have hwrite : holders clock (m.ticks + 3) p.1 item.1 .write = 0 :=
        hinv.holders_eq_zero_of_not_locked hl (i := m.ticks) (by rw [ticks_tick]; omega) havail.1
      have hread : holders clock (m.ticks + 3) p.1 item.1 .read = 0 :=
        hinv.holders_eq_zero_of_not_locked hl (i := m.ticks + 1) (by rw [ticks_tick]; omega)
          havail.2
      refine ⟨?_, h.ttl, fun item' hitem' => ?_, hrest⟩
      · have := hinv.reserve hc .write hl (j := m.ticks + 2) rfl hwrite (fun _ => hread) client
          (clock (m.ticks + 2))
        rw [show (m.tick 3).ttlMs = ttl from h.ttl] at this
        exact this
      · have hne : item'.1 ≠ item.1 := by
          intro heq
          have := h.absent item' hitem'
          rw [heq, hl] at this
          cases this
        exact (lookup_setEntry_of_ne hne m _).trans (h.absent item' hitem')

/-! ### New entries -/

/-- What the last loop keeps: the keys to come are absent, and their objects are live and
belong to no entry. -/
structure Inserting (clock : ℕ → ℤ) (ttl : LockKind → ℤ) (m : L1Manager K)
    (rs : List (Reservation K)) (items : List ((K × Bool) × ℕ)) : Prop where
  inv : Inv clock m rs
  ttl : m.ttlMs = ttl
  absent : ∀ item ∈ items, m.objects.lookup item.1.1 = none
  live : ∀ item ∈ items, m.memoryManager.pool.Live item.2
  unused : ∀ item ∈ items, ∀ key e, m.objects.lookup key = some e → e.memoryObj ≠ item.2
  keys : (items.map fun item => item.1.1).Nodup
  objs : (items.map Prod.snd).Nodup

theorem Inserting.step (hc : Monotone clock) (client : ℕ) {ttl : LockKind → ℤ}
    {item : (K × Bool) × ℕ} {items : List ((K × Bool) × ℕ)}
    (h : Inserting clock ttl m rs (item :: items)) :
    Inserting clock ttl (insertNew clock m item).2 (reservedBy client .write (ttl .write) rs
        ⟨item.1.1, (insertNew clock m item).1, clock ((insertNew clock m item).2.ticks - 1)⟩)
      items := by
  have hl := h.absent item mem_cons_self
  have hinv := (h.inv.tick 1).insert hl (h.live item mem_cons_self)
    (h.unused item mem_cons_self) item.1.2
  have hkeys := nodup_cons.mp h.keys
  have hobjs := nodup_cons.mp h.objs
  refine ⟨?_, h.ttl, fun item' hitem' => ?_, fun item' hitem' => ?_, fun item' hitem' => ?_,
    hkeys.2, hobjs.2⟩
  · have hz : ∀ kind, holders clock (m.ticks + 1) rs item.1.1 kind = 0 := fun kind =>
      (h.inv.tick 1).holders_eq_zero hl
    have hres := hinv.reserve hc .write (lookup_setEntry ..) (j := m.ticks) rfl (hz .write)
      (fun _ => hz .read) client (clock m.ticks)
    have hset : ∀ e e' : L1ObjectState, ((m.tick 1).setEntry item.1.1 e).setEntry item.1.1 e' =
        (m.tick 1).setEntry item.1.1 e' := by
      intro e e'
      unfold setEntry
      congr 1
      exact AList.insert_insert _
    rw [hset] at hres
    rw [show ((m.tick 1).setEntry item.1.1 _).ttlMs = ttl from h.ttl] at hres
    exact hres
  · have hne : item'.1.1 ≠ item.1.1 := fun heq => hkeys.1 (mem_map.mpr ⟨item', hitem', heq⟩)
    exact (lookup_setEntry_of_ne hne m _).trans (h.absent item' (mem_cons_of_mem _ hitem'))
  · exact h.live item' (mem_cons_of_mem _ hitem')
  · intro key e hl'
    rcases lookup_setEntry_eq_some.mp hl' with hnew | hold
    · grind
    · exact h.unused item' (mem_cons_of_mem _ hitem') key e hold.2

theorem reservedBy_of_ne {client : ℕ} {kind : LockKind} {ttl : ℤ} {a : Answer K L1OperationResult}
    (h : a.result.1 ≠ .success) (rs : List (Reservation K)) :
    reservedBy client kind ttl rs a = rs := by
  unfold reservedBy
  grind

theorem inv_allocateNew (hc : Monotone clock) (h : Inv clock m rs) (client : ℕ) (y : Layout)
    {need : List (K × Bool)} (habsent : ∀ item ∈ need, m.objects.lookup item.1 = none)
    (hnodup : (need.map Prod.fst).Nodup) :
    Inv clock (m.allocateNew clock y need).2
      ((m.allocateNew clock y need).1.foldl (reservedBy client .write (m.ttlMs .write)) rs) := by
  unfold allocateNew
  cases ha : m.memoryManager.allocate y need.length with
  | mk ids a =>
    cases ids with
    | none =>
      rw [foldl_answerAll (fun rs _ h => reservedBy_of_ne h rs) _ _ (by simp),
        L1MemoryManager.allocate_eq_none ha]
      exact h
    | some ids =>
      obtain ⟨hids, hnew, hold⟩ := L1MemoryManager.allocate_eq_some ha
      have hlt : ∀ key e, m.objects.lookup key = some e →
          e.memoryObj < m.memoryManager.pool.objs.length := by
        intro key e hl
        exact (h.live key e hl).lt_length
      have hinv : Inv clock { m with memoryManager := a } rs := by
        apply h.setMemory
        intro key e hl
        obtain ⟨o, ho, hv⟩ := h.live key e hl
        exact ⟨o, by rw [hold _ (hlt key e hl), ho], hv⟩
      have h₀ : Inserting clock m.ttlMs { m with memoryManager := a } rs (need.zip ids) := by
        refine ⟨hinv, rfl, fun item hitem => ?_, fun item hitem => ?_, fun item hitem => ?_, ?_, ?_⟩
        · exact habsent item.1 (of_mem_zip hitem).1
        · exact (hnew item.2 (of_mem_zip hitem).2).2
        · intro key e hl
          have := hlt key e hl
          have := (hnew item.2 (of_mem_zip hitem).2).1
          omega
        · have hsub : ((need.zip ids).map fun item => item.1.1).Sublist (need.map Prod.fst) := by
            rw [show (fun item : (K × Bool) × ℕ => item.1.1) = Prod.fst ∘ Prod.fst from rfl,
              ← map_map]
            exact (zip_sublist need ids).1.map Prod.fst
          exact hnodup.sublist hsub
        · exact hids.sublist (zip_sublist need ids).2
      obtain ⟨-, hp⟩ := forItems_induct clock
        (fun rs (a : Answer ((K × Bool) × ℕ) L1OperationResult) =>
          reservedBy client .write (m.ttlMs .write) rs ⟨a.item.1.1, a.result, a.time⟩)
        (Inserting clock m.ttlMs) (fun _ => True)
        (fun _ _ _ _ h' => ⟨trivial, h'.step hc client⟩) (need.zip ids) h₀
      rw [foldl_map]
      exact hp.inv

/-- **`reserve_write`** of distinct keys keeps the invariant. -/
theorem inv_reserveWrite (hc : Monotone clock) (h : Inv clock m rs) (client : ℕ) {keys : List K}
    (hkeys : keys.Nodup) (isTemporary : List Bool) (y : Layout) (mode : WriteMode) :
    Inv clock (m.reserveWrite clock keys isTemporary y mode).manager
      ((m.reserveWrite clock keys isTemporary y mode).answers.foldl
        (reservedBy client .write (m.ttlMs .write)) rs) := by
  have h₀ : Locking clock m.ttlMs m (rs, []) (keys.zip isTemporary) :=
    ⟨h, rfl, by simp, by simpa using hkeys.sublist (zip_sublist keys isTemporary).1⟩
  obtain ⟨-, hp⟩ := forItems_induct clock (lockingStep client (m.ttlMs .write))
    (Locking clock m.ttlMs) (fun _ => True) (fun _ _ _ _ h' => ⟨trivial, h'.step hc client mode⟩)
    (keys.zip isTemporary) h₀
  rw [foldl_lockingStep] at hp
  fun_cases reserveWrite
  · exact hp.inv
  · rw [foldl_append, foldl_answerAll (fun rs _ h => reservedBy_of_ne h rs) _ _ (by simp)]
    exact hp.inv
  · rw [foldl_append]
    have hnodup := hp.nodup
    have habsent := hp.absent
    rw [append_nil, nil_append] at hnodup
    rw [nil_append] at habsent
    have := inv_allocateNew hc hp.inv client y habsent hnodup
    rw [hp.ttl] at this
    exact this

end L1Manager

/-! ### All calls -/

open L1Manager

/-- A client finishes only what it owns, unless nobody else has a reservation in force on it;
and the keys of a `reserve_write` are distinct. -/
def Considerate (clock : ℕ → ℤ) (s : L1Run K) : L1Call K → Prop
  | .finishRead client keys =>
    OwnOrAlone clock s.manager.ticks s.reservations client .read keys
  | .finishWrite client keys =>
    OwnOrAlone clock s.manager.ticks s.reservations client .write keys
  | .reserveWrite _ keys _ _ _ => keys.Nodup
  | _ => True

theorem inv_clear {s : L1Run K} (h : Inv clock s.manager s.reservations) :
    Inv clock (L1Call.run clock s .clear).manager (L1Call.run clock s .clear).reservations := by
  by_cases hr : (s.manager.freeMemory (s.manager.objects.entries.map
      fun e => e.2.memoryObj)).1.isSome = true
  · have hfree : (s.manager.freeMemory (s.manager.objects.entries.map
        fun e => e.2.memoryObj)).2 = s.manager :=
      congrArg (fun a => { s.manager with memoryManager := a }) (L1MemoryManager.free_of_raised hr)
    simp only [L1Call.run, clear, if_pos hr, hfree]
    exact h
  · simp only [L1Call.run, clear, if_neg hr, Option.isSome_none, Bool.false_eq_true, if_false]
    exact ⟨by simp, by simp, fun _ => Or.inl rfl, by simp, by simp, by simp⟩

/-- **Every considerate call keeps the invariant.** -/
theorem inv_run (hc : Monotone clock) {s : L1Run K}
    (h : Inv clock s.manager s.reservations) {c : L1Call K} (hok : Considerate clock s c) :
    Inv clock (c.run clock s).manager (c.run clock s).reservations := by
  cases c with
  | reserveRead client keys => exact inv_reserveRead hc h client keys
  | unsafeRead keys => exact inv_unsafeRead h keys
  | finishRead client keys => exact (inv_finishRead hc h hok).1
  | reserveWrite client keys isTemporary y mode =>
    exact inv_reserveWrite hc h client hok isTemporary y mode
  | finishWrite client keys => exact (inv_finishWrite hc h hok).1
  | delete keys => exact inv_delete h keys
  | clear => exact inv_clear h
  | commitExpansion n => exact h.setMemory h.live

end LMCache
