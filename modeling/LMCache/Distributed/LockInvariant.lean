import LMCache.Distributed.Reservations

/-! # Locks and reservations

`L1Manager.Inv` ties the locks to the reservations in force:

* the entry of a reservation in force is there, with the same memory object, and its lock
  expires when the reservation does;
* the counter of a lock that has not expired is the number of reservations in force on it;
* a write reservation in force is the only one on its key.

Time may pass (`Inv.tick`), entries come and go (`Inv.insert`, `Inv.delete`), reservations are
taken and given up (`Inv.reserve`, `Inv.unlock`), and memory that no entry uses is freed;
each of these keeps the invariant.  Where one entry changes, `Inv.setEntry` says what is left to
show about it. -/

namespace LMCache

open TTLLock L1ObjectState

variable {K : Type} [DecidableEq K]

/-- What ties the reservations in force to the locks. -/
structure L1Manager.Inv (clock : ℕ → ℤ) (m : L1Manager K) (rs : List (Reservation K)) : Prop where
  held : ∀ r ∈ rs, Ahead clock m.ticks r.expires →
    ∃ e, m.objects.lookup r.key = some e ∧ e.memoryObj = r.memoryObj ∧
      (e.lock r.kind).expirationMs = r.expires
  count : ∀ key e kind, m.objects.lookup key = some e →
    Ahead clock m.ticks (e.lock kind).expirationMs →
      (e.lock kind).counter = holders clock m.ticks rs key kind
  exclusive : ∀ key, holders clock m.ticks rs key .write = 0 ∨
    holders clock m.ticks rs key .write = 1 ∧ holders clock m.ticks rs key .read = 0
  ttl : ∀ key e kind, m.objects.lookup key = some e → (e.lock kind).ttlMs = m.ttlMs kind
  live : ∀ key e, m.objects.lookup key = some e → m.memoryManager.pool.Live e.memoryObj
  distinct : ∀ key key' e e', m.objects.lookup key = some e → m.objects.lookup key' = some e' →
    e.memoryObj = e'.memoryObj → key = key'

namespace L1Manager

variable {clock : ℕ → ℤ} {m : L1Manager K} {rs : List (Reservation K)} {key : K}
  {kind : LockKind} {e : L1ObjectState}

@[simp, grind =] theorem lookup_setEntry (m : L1Manager K) (key : K) (e : L1ObjectState) :
    (m.setEntry key e).objects.lookup key = some e := AList.lookup_insert _

theorem lookup_setEntry_of_ne {key' : K} (h : key' ≠ key) (m : L1Manager K) (e : L1ObjectState) :
    (m.setEntry key e).objects.lookup key' = m.objects.lookup key' := AList.lookup_insert_ne h

@[simp, grind =] theorem lookup_delEntry (m : L1Manager K) (key : K) :
    (m.delEntry key).objects.lookup key = none := AList.lookup_erase _ _

theorem lookup_delEntry_of_ne {key' : K} (h : key' ≠ key) (m : L1Manager K) :
    (m.delEntry key).objects.lookup key' = m.objects.lookup key' := AList.lookup_erase_ne h

theorem lookup_setEntry_eq_some {key' : K} {e' : L1ObjectState} :
    (m.setEntry key e).objects.lookup key' = some e' ↔
      key' = key ∧ e' = e ∨ key' ≠ key ∧ m.objects.lookup key' = some e' := by
  by_cases hk : key' = key
  · subst hk
    simp [eq_comm]
  · simp [lookup_setEntry_of_ne hk, hk]

theorem lookup_of_delEntry {k : K} {e' : L1ObjectState}
    (hl : (m.delEntry key).objects.lookup k = some e') : m.objects.lookup k = some e' := by
  by_cases hk : k = key
  · subst hk
    simp at hl
  · rwa [lookup_delEntry_of_ne hk] at hl

variable (h : Inv clock m rs)

include h

theorem Inv.expires_eq (hl : m.objects.lookup key = some e)
    {r : Reservation K} (hr : r ∈ rs) (hkey : r.key = key) (hkind : r.kind = kind)
    (ha : Ahead clock m.ticks r.expires) : r.expires = (e.lock kind).expirationMs := by
  obtain ⟨e', hl', -, he⟩ := h.held r hr ha
  grind

theorem Inv.holders_eq_zero (hl : m.objects.lookup key = none) :
    holders clock m.ticks rs key kind = 0 := by
  rw [holders_eq_zero_iff]
  intro r hr hkey _ ha
  obtain ⟨e, hl', -⟩ := h.held r hr ha
  rw [hkey, hl] at hl'
  cases hl'

theorem Inv.holders_later (kind : LockKind)
    (hl : m.objects.lookup key = some e) {t : ℕ} (ht : m.ticks ≤ t) : holders clock t rs key kind =
      if Ahead clock t (e.lock kind).expirationMs then holders clock m.ticks rs key kind
        else 0 := by
  split_ifs with ha
  · apply le_antisymm (holders_le_of_le clock rs key kind ht)
    apply List.countP_mono_left
    intro r hr hp
    simp only [decide_eq_true_eq] at hp ⊢
    refine ⟨hp.1, hp.2.1, ?_⟩
    rw [h.expires_eq hl hr hp.1 hp.2.1 hp.2.2]
    exact ha
  · rw [holders_eq_zero_iff]
    intro r hr hkey hkind hr'
    apply ha
    rw [← h.expires_eq hl hr hkey hkind (hr'.of_le ht)]
    exact hr'

/-- **Time passes.** -/
theorem Inv.tick (n : ℕ) : Inv clock (m.tick n) rs where
  held := fun r hr ha => h.held r hr (ha.of_le (Nat.le_add_right _ _))
  count := fun key e kind hl ha => by
    rw [ticks_tick] at ha ⊢
    rw [h.count key e kind hl (ha.of_le (Nat.le_add_right _ _)),
      h.holders_later kind hl (Nat.le_add_right m.ticks n), if_pos ha]
  exclusive := fun key => by
    have hread := holders_le_of_le clock rs key .read (Nat.le_add_right m.ticks n)
    have hwrite := holders_le_of_le clock rs key .write (Nat.le_add_right m.ticks n)
    have := h.exclusive key
    rw [ticks_tick]
    omega
  ttl := h.ttl
  live := h.live
  distinct := h.distinct

/-! ### Entries -/

theorem Inv.holders_eq_zero_of_not_locked
    (hl : m.objects.lookup key = some e) {i : ℕ} (hi : i < m.ticks)
    (hlock : (e.lock kind).isLocked (clock i) = false) : holders clock m.ticks rs key kind = 0 := by
  by_contra hne
  obtain ⟨r, hr, hkey, hkind, ha⟩ := holders_pos_iff.mp (Nat.pos_of_ne_zero hne)
  rw [h.expires_eq hl hr hkey hkind ha] at ha
  have hcount := h.count key e kind hl ha
  have := ha i hi
  rw [isLocked_eq_false_iff] at hlock
  omega

/-- An entry without reservations in force may be deleted. -/
theorem Inv.delete (key : K)
    (hz : ∀ kind, holders clock m.ticks rs key kind = 0) : Inv clock (m.delEntry key) rs := by
  refine ⟨fun r hr ha => ?_, fun key' e' kind hl => h.count key' e' kind (lookup_of_delEntry hl),
    h.exclusive, fun key' e' kind hl => h.ttl key' e' kind (lookup_of_delEntry hl),
    fun key' e' hl => h.live key' e' (lookup_of_delEntry hl), fun key₁ key₂ e₁ e₂ hl₁ hl₂ =>
      h.distinct key₁ key₂ e₁ e₂ (lookup_of_delEntry hl₁) (lookup_of_delEntry hl₂)⟩
  have hk : r.key ≠ key := fun hk => holders_eq_zero_iff.mp (hz r.kind) r hr hk rfl ha
  rw [lookup_delEntry_of_ne hk]
  exact h.held r hr ha

/-- **One entry changes**, with the reservations on its key. -/
theorem Inv.setEntry {rs' : List (Reservation K)} {e' : L1ObjectState}
    (hheld : ∀ r ∈ rs', Ahead clock m.ticks r.expires →
      r.key = key ∧ e'.memoryObj = r.memoryObj ∧ (e'.lock r.kind).expirationMs = r.expires ∨
        r.key ≠ key ∧ r ∈ rs) (hcount : ∀ kind, Ahead clock m.ticks (e'.lock kind).expirationMs →
      (e'.lock kind).counter = holders clock m.ticks rs' key kind)
    (hother : ∀ key', key' ≠ key → ∀ kind,
      holders clock m.ticks rs' key' kind = holders clock m.ticks rs key' kind)
    (hexcl : holders clock m.ticks rs' key .write = 0 ∨
      holders clock m.ticks rs' key .write = 1 ∧ holders clock m.ticks rs' key .read = 0)
    (httl : ∀ kind, (e'.lock kind).ttlMs = m.ttlMs kind)
    (hlive : m.memoryManager.pool.Live e'.memoryObj)
    (hunused : ∀ key' e'', key' ≠ key → m.objects.lookup key' = some e'' →
      e''.memoryObj ≠ e'.memoryObj) : Inv clock (m.setEntry key e') rs' where
  held := fun r hr ha => by
    rcases hheld r hr ha with ⟨rfl, hobj, hexp⟩ | ⟨hk, hr⟩
    · exact ⟨e', lookup_setEntry .., hobj, hexp⟩
    · rw [lookup_setEntry_of_ne hk]
      exact h.held r hr ha
  count := fun key' e'' kind hl ha => by
    rcases lookup_setEntry_eq_some.mp hl with ⟨rfl, rfl⟩ | ⟨hk, hl⟩
    · exact hcount kind ha
    · show _ = (holders clock m.ticks rs' key' kind : ℤ)
      rw [hother key' hk]
      exact h.count key' e'' kind hl ha
  exclusive := fun key' => by
    show holders clock m.ticks rs' key' .write = 0 ∨ holders clock m.ticks rs' key' .write = 1 ∧
      holders clock m.ticks rs' key' .read = 0
    by_cases hk : key' = key
    · exact hk ▸ hexcl
    · rw [hother key' hk, hother key' hk]
      exact h.exclusive key'
  ttl := fun key' e'' kind hl => by
    rcases lookup_setEntry_eq_some.mp hl with ⟨rfl, rfl⟩ | ⟨-, hl⟩
    · exact httl kind
    · exact h.ttl key' e'' kind hl
  live := fun key' e'' hl => by
    rcases lookup_setEntry_eq_some.mp hl with ⟨rfl, rfl⟩ | ⟨-, hl⟩
    · exact hlive
    · exact h.live key' e'' hl
  distinct := fun key₁ key₂ e₁ e₂ hl₁ hl₂ hobj => by
    rcases lookup_setEntry_eq_some.mp hl₁ with ⟨rfl, rfl⟩ | ⟨hk₁, hold₁⟩ <;>
      rcases lookup_setEntry_eq_some.mp hl₂ with ⟨rfl, rfl⟩ | ⟨hk₂, hold₂⟩
    · rfl
    · exact absurd hobj.symm (hunused key₂ e₂ hk₂ hold₂)
    · exact absurd hobj (hunused key₁ e₁ hk₁ hold₁)
    · exact h.distinct key₁ key₂ e₁ e₂ hold₁ hold₂ hobj

theorem Inv.insert (hl : m.objects.lookup key = none) {i : ℕ} (hlive : m.memoryManager.pool.Live i)
    (hunused : ∀ key' e', m.objects.lookup key' = some e' → e'.memoryObj ≠ i) (temp : Bool) :
    Inv clock (m.setEntry key ⟨i, .new m.writeTtlSeconds, .new m.readTtlSeconds, temp⟩) rs := by
  refine h.setEntry (fun r hr ha => Or.inr ⟨?_, hr⟩) (fun kind _ => ?_) (fun _ _ _ => rfl)
    (h.exclusive key) (fun kind => ?_) hlive fun key' e' _ hl' => hunused key' e' hl'
  · obtain ⟨e, hl', -⟩ := h.held r hr ha
    rintro rfl
    cases hl.symm.trans hl'
  · rw [h.holders_eq_zero hl]
    cases kind <;> rfl
  · cases kind <;> rfl

/-! ### Locks -/

theorem Inv.setLock {rs' : List (Reservation K)} {l : TTLLock}
    (hl : m.objects.lookup key = some e) (httl : l.ttlMs = (e.lock kind).ttlMs)
    (hheld : ∀ r ∈ rs', Ahead clock m.ticks r.expires →
      (r.key = key ∧ r.kind = kind) ∧ r.memoryObj = e.memoryObj ∧ r.expires = l.expirationMs ∨
        ¬ (r.key = key ∧ r.kind = kind) ∧ r ∈ rs) (hcount : Ahead clock m.ticks l.expirationMs →
      l.counter = holders clock m.ticks rs' key kind)
    (hother : ∀ key' kind', ¬ (key' = key ∧ kind' = kind) →
      holders clock m.ticks rs' key' kind' = holders clock m.ticks rs key' kind')
    (hexcl : holders clock m.ticks rs' key .write = 0 ∨
      holders clock m.ticks rs' key .write = 1 ∧ holders clock m.ticks rs' key .read = 0) :
    Inv clock (m.setEntry key (e.setLock kind l)) rs' := by
  refine h.setEntry (fun r hr ha => ?_) (fun kind' ha => ?_)
    (fun key' hk kind' => hother key' kind' fun hc => hk hc.1) hexcl (fun kind' => ?_) ?_ ?_
  · rcases hheld r hr ha with ⟨⟨rfl, rfl⟩, hobj, hexp⟩ | ⟨hne, hr⟩
    · exact Or.inl ⟨rfl, by simp [hobj], by simp [hexp]⟩
    · by_cases hk : r.key = key
      · have hkind : r.kind ≠ kind := fun hkind => hne ⟨hk, hkind⟩
        obtain ⟨e', hl', hobj, hexp⟩ := h.held r hr ha
        cases hl.symm.trans (hk ▸ hl')
        exact Or.inl ⟨hk, by simp [hobj],
          by rw [lock_setLock_of_ne _ _ hkind, hexp]⟩
      · exact Or.inr ⟨hk, hr⟩
  · by_cases hkind : kind' = kind
    · grind
    · rw [lock_setLock_of_ne _ _ hkind] at ha ⊢
      rw [hother key kind' fun hc => hkind hc.2]
      exact h.count key e kind' hl ha
  · rw [← h.ttl key e kind' hl]
    by_cases hkind : kind' = kind
    · simp [hkind, httl]
    · rw [lock_setLock_of_ne _ _ hkind]
  · rw [memoryObj_setLock]
    exact h.live key e hl
  · intro key' e' hk hl' hobj
    rw [memoryObj_setLock] at hobj
    exact hk (h.distinct key' key e' e hl' hl hobj)

omit h in
/-- **A reservation is taken** at the last reading of the clock: a read lock while nobody
holds the write lock, a write lock while nobody holds a lock. -/
theorem Inv.reserve (hc : Monotone clock) (h : Inv clock m rs) (kind : LockKind)
    (hl : m.objects.lookup key = some e) {j : ℕ} (hj : m.ticks = j + 1)
    (hwrite : holders clock m.ticks rs key .write = 0)
    (hread : kind = .write → holders clock m.ticks rs key .read = 0) (client : ℕ) (x : ℤ) :
    Inv clock (m.setEntry key (e.setLock kind ((e.lock kind).lock (clock j))))
      (reserve ⟨client, key, kind, e.memoryObj, x⟩ (clock j) (m.ttlMs kind) rs) := by
  have httl := h.ttl key e kind hl
  apply h.setLock hl (lock_ttlMs ..)
  · intro r hr ha
    rw [hj, ahead_succ_iff hc] at ha
    rcases List.mem_append.mp hr with hr | hr
    · obtain ⟨r', hr', rfl⟩ := List.mem_map.mp hr
      unfold Reservation.refresh at ha ⊢
      split_ifs at ha ⊢ with hcond
      · obtain ⟨e', hl', hobj, -⟩ := h.held r' hr' (by rw [hj, ahead_succ_iff hc]; exact hcond.2.2)
        grind
      · exact Or.inr ⟨fun hon => hcond ⟨hon.1, hon.2, ha⟩, hr'⟩
    · grind
  · intro ha
    rw [lock_expirationMs, hj, ahead_succ_iff hc, httl, lt_add_iff_pos_right] at ha
    rw [hj, holders_reserve hc rfl rfl, if_pos ha, ← hj]
    by_cases hexp : clock j < (e.lock kind).expirationMs
    · rw [lock_counter hexp, h.count key e kind hl (by rw [hj, ahead_succ_iff hc]; exact hexp)]
      push_cast
      rfl
    · have hz : holders clock m.ticks rs key kind = 0 := by
        rw [holders_eq_zero_iff]
        intro r hr hkey hkind hr'
        rw [h.expires_eq hl hr hkey hkind hr', hj, ahead_succ_iff hc] at hr'
        exact hexp hr'
      rw [lock_counter_of_expired (not_lt.mp hexp), hz]
      rfl
  · intro key' kind' hne
    exact holders_reserve_of_ne hne
  · cases kind with
    | read =>
      left
      rw [holders_reserve_of_ne (by simp), hwrite]
    | write =>
      rw [hj, holders_reserve hc rfl rfl, ← hj, hwrite, holders_reserve_of_ne (by simp), hread rfl]
      grind

/-- A client that unlocks a lock on which it has no reservation in force does no harm as long
as nobody else has one. -/
theorem Inv.unlock_free (hl : m.objects.lookup key = some e)
    (hz : holders clock m.ticks rs key kind = 0) :
    Inv clock (m.setEntry key (e.setLock kind (e.lock kind).unlock)) rs := by
  apply h.setLock hl (unlock_ttlMs ..)
  · intro r hr ha
    refine Or.inr ⟨fun hon => ?_, hr⟩
    exact holders_eq_zero_iff.mp hz r hr hon.1 hon.2 ha
  · intro ha
    rw [unlock_expirationMs] at ha
    have hcount := h.count key e kind hl ha
    rw [unlock, if_pos (by omega), hcount]
  · intro key' kind' _
    rfl
  · exact h.exclusive key

omit h in
theorem Inv.unlock_own (hc : Monotone clock) (h : Inv clock m rs)
    (hl : m.objects.lookup key = some e) {j client : ℕ} (hj : m.ticks = j + 1)
    (hown : 0 < ownHolders clock m.ticks rs client key kind) :
    Inv clock (m.setEntry key (e.setLock kind (e.lock kind).unlock))
      (release client key kind (clock j) rs) := by
  have hdec := (holders_release hc (hj ▸ hown)).1
  rw [← hj] at hdec
  obtain ⟨r₀, hr₀, -, hkey₀, hkind₀, ha₀⟩ := ownHolders_pos_iff.mp hown
  rw [h.expires_eq hl hr₀ hkey₀ hkind₀ ha₀] at ha₀
  have hcount := h.count key e kind hl ha₀
  apply h.setLock hl (unlock_ttlMs ..)
  · intro r hr ha
    have hr := List.mem_of_mem_eraseP hr
    by_cases hon : r.key = key ∧ r.kind = kind
    · obtain ⟨e', hl', hobj, -⟩ := h.held r hr ha
      rw [hon.1, hl] at hl'
      cases hl'
      refine Or.inl ⟨hon, hobj.symm, ?_⟩
      rw [unlock_expirationMs]
      exact h.expires_eq hl hr hon.1 hon.2 ha
    · exact Or.inr ⟨hon, hr⟩
  · intro _
    rw [unlock_counter (by omega)]
    omega
  · intro key' kind' hne
    exact (holders_release_of_ne _ _ _ _ _ hne).1
  · have hexcl := h.exclusive key
    cases kind with
    | read =>
      have hwrite : holders clock m.ticks (release client key .read (clock j) rs) key .write =
          holders clock m.ticks rs key .write := (holders_release_of_ne _ _ _ _ _ (by simp)).1
      omega
    | write =>
      omega

omit h in
/-- **An unlock**, by a client that has a reservation in force on the lock if anybody has. -/
theorem Inv.unlock (hc : Monotone clock) (h : Inv clock m rs)
    (hl : m.objects.lookup key = some e) {j client : ℕ} (hj : m.ticks = j + 1)
    (hown : 0 < holders clock m.ticks rs key kind →
      0 < ownHolders clock m.ticks rs client key kind) :
    Inv clock (m.setEntry key (e.setLock kind (e.lock kind).unlock))
      (release client key kind (clock j) rs) := by
  by_cases hz : 0 < ownHolders clock m.ticks rs client key kind
  · exact h.unlock_own hc hl hj hz
  · rw [release_eq_self hc (hj ▸ hz)]
    exact h.unlock_free hl (Nat.eq_zero_of_not_pos fun hp => hz (hown hp))

/-! ### Memory -/

theorem Inv.setMemory {a : L1MemoryManager}
    (ha : ∀ key e, m.objects.lookup key = some e → a.pool.Live e.memoryObj) :
    Inv clock { m with memoryManager := a } rs :=
  { h with live := ha }

theorem Inv.freeMemory {memObjs : List ℕ}
    (hunused : ∀ key e, m.objects.lookup key = some e → e.memoryObj ∉ memObjs) :
    Inv clock (m.freeMemory memObjs).2 rs := by
  apply h.setMemory
  intro key e hl
  obtain ⟨o, ho, hv⟩ := h.live key e hl
  exact ⟨o, by rw [L1MemoryManager.free_getElem? (hunused key e hl), ho], hv⟩

end L1Manager

end LMCache
