import LMCache.Distributed.ReaderWriter

/-! # Late clients

When reservations may expire, they still stay in force until they do (`Held`), as long as no
client finishes a key on which only others have a reservation in force (`Considerate`).  The
locks have no owners: such a call succeeds, and takes the reservation of another client away.
`l1_stale_finish` states both directions; in `l1_stale_finish_frees` the memory under a reader
is freed. -/

namespace LMCache

open L1Call L1Manager

variable {K : Type} [DecidableEq K] {clock : ℕ → ℤ}

/-! ### Backed reservations -/

/-- Every reservation in force is backed by the manager: its entry is there with the same
memory object, which is not freed, and its lock is held until it expires, by as many as have
a reservation in force. -/
def Held (clock : ℕ → ℤ) (s : L1Run K) : Prop :=
  ∀ r ∈ s.reservations, Ahead clock s.manager.ticks r.expires →
    ∃ e, s.manager.objects.lookup r.key = some e ∧ e.memoryObj = r.memoryObj ∧
      s.manager.memoryManager.pool.Live r.memoryObj ∧
      (∀ now < r.expires, (e.lock r.kind).isLocked now = true) ∧
      holders clock s.manager.ticks s.reservations r.key r.kind ≤ (e.lock r.kind).counter

theorem held_of_inv {s : L1Run K} (h : Inv clock s.manager s.reservations) : Held clock s := by
  intro r hr ha
  obtain ⟨e, hl, hobj, hexp⟩ := h.held r hr ha
  have hcount := h.count r.key e r.kind hl (hexp ▸ ha)
  have hpos := holders_pos_iff.mpr ⟨r, hr, rfl, rfl, ha⟩
  refine ⟨e, hl, hobj, hobj ▸ h.live r.key e hl, fun now hnow => ?_, hcount.ge⟩
  rw [TTLLock.isLocked_iff]
  omega

/-- The call that finishes reservations of a kind, and its answers. -/
def L1Call.finish (kind : LockKind) (client : ℕ) (keys : List K) : L1Call K :=
  match kind with
  | .read => .finishRead client keys
  | .write => .finishWrite client keys

def L1Manager.finishAnswers (clock : ℕ → ℤ) (m : L1Manager K) (kind : LockKind) (keys : List K) :
    List (Answer K L1Error) :=
  match kind with
  | .read => (m.finishRead clock keys).answers
  | .write => (m.finishWrite clock keys).answers

section
variable (hc : Monotone clock)

include hc

theorem considerate_inductive :
    ((l1System K clock).restrict (Considerate clock)).Inductive fun s =>
      Inv clock s.manager s.reservations where
  init := fun _ h => (inv_init h).1
  step := by
    rintro s c s' h ⟨hok, rfl⟩
    exact inv_run hc h hok

/-! ### Stale calls -/

variable {m : L1Manager K} {rs : List (Reservation K)} {e : L1ObjectState} {r : Reservation K}

/-- The lock of the reservation was unlocked, or its entry deleted. -/
def Undone (m m' : L1Manager K) (r : Reservation K) (e : L1ObjectState) : Prop :=
  m.ticks ≤ m'.ticks ∧ (m'.objects.lookup r.key = none ∨
    m'.objects.lookup r.key = some (e.setLock r.kind (e.lock r.kind).unlock))

section
variable (h : Inv clock m rs)

include h

/-- When a lock was undone by a client that has no reservation to give up for it, then a
reservation in force is not backed any more. -/
theorem not_held_of_unlock {m' : L1Manager K} {client : ℕ}
    (hown : ownHolders clock m.ticks rs client r.key r.kind = 0)
    (hl : m.objects.lookup r.key = some e) (hr : r ∈ rs) (hundone : Undone m m' r e)
    (ha : Ahead clock m'.ticks r.expires) :
    ¬ Held clock ⟨m', finishedBy client r.kind rs ⟨r.key, .success, clock (m'.ticks - 1)⟩⟩ := by
  obtain ⟨ht, hl'⟩ := hundone
  have hrs : finishedBy client r.kind rs ⟨r.key, .success, clock (m'.ticks - 1)⟩ = rs := by
    have := ownHolders_le_of_le clock (by omega : m.ticks ≤ m'.ticks - 1 + 1) rs client r.key r.kind
    exact release_eq_self hc (Nat.not_lt.mpr (hown ▸ this))
  rw [hrs]
  intro hheld
  obtain ⟨e', he', -, -, -, hle⟩ := hheld r hr ha
  rcases hl' with hnone | hsome
  · cases hnone.symm.trans he'
  · cases hsome.symm.trans he'
    obtain ⟨n, hn⟩ := Nat.exists_eq_add_of_le ht
    have hpos : 0 < holders clock m'.ticks rs r.key r.kind :=
      holders_pos_iff.mpr ⟨r, hr, rfl, rfl, ha⟩
    have hexp := h.expires_eq hl hr rfl rfl (ha.of_le ht)
    have hcount := h.count r.key e r.kind hl (hexp ▸ ha.of_le ht)
    have hlater := h.later r.client r.key r.kind n
    dsimp only at hle
    rw [hn] at hpos hle
    rw [L1ObjectState.lock_setLock, TTLLock.unlock_counter (by omega)] at hle
    omega

omit hc in
theorem isLocked_of_inForce (hl : m.objects.lookup r.key = some e)
    (hr : r ∈ rs) {t i : ℕ} (ht : m.ticks ≤ t) (ha : Ahead clock t r.expires) (hi : i < t) :
    (e.lock r.kind).isLocked (clock i) = true := by
  have hexp := h.expires_eq hl hr rfl rfl (ha.of_le ht)
  have hcount := h.count r.key e r.kind hl (hexp ▸ ha.of_le ht)
  have hpos := holders_pos_iff.mpr ⟨r, hr, rfl, rfl, ha.of_le ht⟩
  have := ha i hi
  rw [TTLLock.isLocked_iff]
  omega

theorem finishReadKey_of_inForce (hr : r ∈ rs)
    (hkind : r.kind = .read) (ha : Ahead clock (finishReadKey clock m r.key).2.ticks r.expires)
    (hl : m.objects.lookup r.key = some e) (hm : Ahead clock m.ticks r.expires) :
    (finishReadKey clock m r.key).1.1 = .success ∧
      Undone m (finishReadKey clock m r.key).2 r e := by
  have hz : holders clock m.ticks rs r.key .write = 0 := by
    have hpos := holders_pos_iff.mpr ⟨r, hr, rfl, hkind, hm⟩
    have := h.exclusive r.key
    omega
  have hw : e.writeLock.isLocked (clock m.ticks) = false :=
    not_locked_of_holders h .write hl hz fun i hi => hc hi.le
  unfold finishReadKey at ha ⊢
  rw [hl] at ha ⊢
  simp only [hw, Bool.false_eq_true, if_false] at ha ⊢
  split_ifs at ha ⊢ with hlock htemp hlast
  · have := isLocked_of_inForce h hl hr (Nat.le_add_right _ 2) ha (i := m.ticks + 1) (by omega)
    simp_all
  · exact ⟨rfl, Nat.le_add_right _ _, Or.inl (lookup_delEntry ..)⟩
  all_goals exact ⟨rfl, Nat.le_add_right _ _, Or.inr (hkind ▸ lookup_setEntry ..)⟩

theorem finishWriteKey_of_inForce (hr : r ∈ rs)
    (hkind : r.kind = .write) (ha : Ahead clock (finishWriteKey clock m r.key).2.ticks r.expires)
    (hl : m.objects.lookup r.key = some e) (hm : Ahead clock m.ticks r.expires) :
    (finishWriteKey clock m r.key).1 = .success ∧
      Undone m (finishWriteKey clock m r.key).2 r e := by
  have hz : holders clock m.ticks rs r.key .read = 0 := by
    have hpos := holders_pos_iff.mpr ⟨r, hr, rfl, hkind, hm⟩
    have := h.exclusive r.key
    omega
  have hread : e.readLock.isLocked (clock (m.ticks + 1)) = false :=
    not_locked_of_holders h .read hl hz fun i hi => hc (hi.le.trans (Nat.le_add_right _ _))
  unfold finishWriteKey at ha ⊢
  rw [hl] at ha ⊢
  simp only [hread, Bool.false_eq_true, if_false] at ha ⊢
  split_ifs at ha ⊢ with hlock
  · have := isLocked_of_inForce h hl hr (Nat.le_add_right _ 1) ha (i := m.ticks) (by omega)
    simp_all
  · exact ⟨rfl, Nat.le_add_right _ _, Or.inr (hkind ▸ lookup_setEntry ..)⟩

theorem L1Manager.finishAnswers_success {client : ℕ} {kind : LockKind}
    {keys : List K} (ho : OwnOrAlone clock m.ticks rs client kind keys) :
    ∀ a ∈ m.finishAnswers clock kind keys, a.result = .success →
      0 < ownHolders clock (m.ticks + 1) rs client a.item kind := by
  cases kind with
  | read => exact (inv_finishRead hc h ho).2
  | write => exact (inv_finishWrite hc h ho).2

end

/-- **A stale finish** of one key takes the reservation of another client away. -/
theorem stale_finish {s : L1Run K} (h : Inv clock s.manager s.reservations)
    {client : ℕ} (hown : ownHolders clock s.manager.ticks s.reservations client r.key r.kind = 0)
    (hr : r ∈ s.reservations)
    (ha : Ahead clock (run clock s (.finish r.kind client [r.key])).manager.ticks r.expires)
    (hm : Ahead clock s.manager.ticks r.expires) :
    (∃ a ∈ s.manager.finishAnswers clock r.kind [r.key], a.result = .success) ∧
      ¬ Held clock (run clock s (.finish r.kind client [r.key])) := by
  obtain ⟨e, hl, -⟩ := h.held r hr hm
  cases hkind : r.kind with
  | read =>
    rw [hkind] at ha
    obtain ⟨hs, hundone⟩ := finishReadKey_of_inForce hc h hr hkind ha hl hm
    have hnot : ¬ Held clock ⟨(run clock s (.finish .read client [r.key])).manager, _⟩ :=
      not_held_of_unlock hc h hown hl hr hundone ha
    rw [← hs, hkind] at hnot
    exact ⟨⟨_, List.mem_singleton_self _, hs⟩, hnot⟩
  | write =>
    rw [hkind] at ha
    obtain ⟨hs, hundone⟩ := finishWriteKey_of_inForce hc h hr hkind ha hl hm
    have hnot : ¬ Held clock ⟨(run clock s (.finish .write client [r.key])).manager, _⟩ :=
      not_held_of_unlock hc h hown hl hr hundone ha
    rw [← hs, hkind] at hnot
    exact ⟨⟨_, List.mem_singleton_self _, hs⟩, hnot⟩

end

/-! ### Runs -/

/-- **Reservations that expire.**  In a run of considerate clients every reservation is backed
until it expires.  A finish by a client that owns a reservation in force of each key, or is
alone, succeeds only on keys of which the client has a reservation that had not expired, and
leaves all others backed.  A finish of a key on which only another client has a reservation
in force succeeds nevertheless, and leaves a reservation without its lock. -/
theorem l1_stale_finish (hc : Monotone clock) {s : L1Run K}
    (h : ((l1System K clock).restrict (Considerate clock)).Reachable s) :
    Held clock s ∧
    (∀ kind client keys, OwnOrAlone clock s.manager.ticks s.reservations client kind keys →
      (∀ a ∈ s.manager.finishAnswers clock kind keys, a.result = .success →
        ∃ r ∈ s.reservations, r.client = client ∧ r.key = a.item ∧ r.kind = kind ∧
          Ahead clock (s.manager.ticks + 1) r.expires) ∧
      Held clock (run clock s (.finish kind client keys))) ∧
    (∀ client, ∀ r ∈ s.reservations,
      (¬ ∃ r' ∈ s.reservations, r'.client = client ∧ r'.key = r.key ∧ r'.kind = r.kind ∧
        Ahead clock s.manager.ticks r'.expires) →
      Ahead clock s.manager.ticks r.expires →
      Ahead clock (run clock s (.finish r.kind client [r.key])).manager.ticks r.expires →
        (∃ a ∈ s.manager.finishAnswers clock r.kind [r.key], a.result = .success) ∧
          ¬ Held clock (run clock s (.finish r.kind client [r.key]))) := by
  have hinv := (considerate_inductive hc).reachable h
  refine ⟨held_of_inv hinv, fun kind client keys ho => ⟨?_, ?_⟩, fun client r hr hno hm ha => ?_⟩
  · intro a hmem hs
    exact ownHolders_pos_iff.mp (finishAnswers_success hc hinv ho a hmem hs)
  · apply held_of_inv
    cases kind with
    | read => exact (inv_finishRead hc hinv ho).1
    | write => exact (inv_finishWrite hc hinv ho).1
  · refine stale_finish hc hinv ?_ hr ha hm
    by_contra hne
    exact hno (ownHolders_pos_iff.mp (Nat.pos_of_ne_zero hne))

instance {t : ℕ} {rs : List (Reservation K)} {client : ℕ} {kind : LockKind} {keys : List K} :
    Decidable (OwnOrAlone clock t rs client kind keys) :=
  inferInstanceAs (Decidable (∀ key ∈ keys, _ ∨ _))

instance {s : L1Run K} : (c : L1Call K) → Decidable (Considerate clock s c)
  | .finishRead client keys => inferInstanceAs (Decidable (OwnOrAlone clock _ _ client .read keys))
  | .finishWrite client keys =>
    inferInstanceAs (Decidable (OwnOrAlone clock _ _ client .write keys))
  | .reserveWrite _ keys _ _ _ => inferInstanceAs (Decidable keys.Nodup)
  | .reserveRead _ _ | .unsafeRead _ | .delete _ | .clear | .commitExpansion _ =>
    inferInstanceAs (Decidable True)

/-- A clock on which two readings are 200 milliseconds apart. -/
def slowClock (i : ℕ) : ℤ := 200 * i

theorem slowClock_monotone : Monotone slowClock := by
  intro i j hij
  unfold slowClock
  omega

/-- A reader is alone and too late: its finish fails. -/
theorem l1_stale_finish_alone :
    ∃ s : L1Run ℕ, ((l1System ℕ slowClock).restrict (Considerate slowClock)).Reachable s ∧
      s.reservations.length = 1 ∧
      (s.manager.finishAnswers slowClock .read [7]).map (fun a => a.result) = [.keyInWrongState] ∧
      Held slowClock (run slowClock s (.finish .read 1 [7])) := by
  have h₀ : ((l1System ℕ slowClock).restrict (Considerate slowClock)).Reachable smallRun :=
    .init ⟨true, 64, 2, none, 1, 1, rfl⟩
  have hs := h₀.replay_restrict (fun _ _ => rfl) [.reserveWrite 0 [7] [false] smallLayout .all,
    .finishWrite 0 [7], .reserveRead 1 [7], .unsafeRead [7, 7, 7, 7, 7]] (by decide +kernel)
  have hlate := (l1_stale_finish slowClock_monotone hs).2.1 .read 1 [7] (by decide +kernel)
  exact ⟨_, hs, by decide +kernel, by decide +kernel, hlate.2⟩

/-- The reservation of client 1 has expired, client 2 reads the same key.  The late finish of
client 1 succeeds, then `delete` succeeds, and the memory under client 2 is freed while its
reservation is in force. -/
theorem l1_stale_finish_frees :
    ∃ s : L1Run ℕ, (l1System ℕ slowClock).Reachable s ∧
      (∀ r ∈ s.reservations, r.client = 1 → ¬ Ahead slowClock s.manager.ticks r.expires) ∧
      (s.manager.finishRead slowClock [7]).answers.map (fun a => a.result) = [.success] ∧
      ∃ s', s' = run slowClock (run slowClock s (.finishRead 1 [7])) (.delete [7]) ∧
        ∃ r ∈ s'.reservations, r.client = 2 ∧ r.key = 7 ∧
          Ahead slowClock s'.manager.ticks r.expires ∧
          s'.manager.objects.lookup r.key = none ∧
          ¬ s'.manager.memoryManager.pool.Live r.memoryObj := by
  have h₀ : (l1System ℕ slowClock).Reachable smallRun := .init ⟨true, 64, 2, none, 1, 1, rfl⟩
  have hs := h₀.foldl (fun _ _ => rfl) [.reserveWrite 0 [7] [false] smallLayout .all,
    .finishWrite 0 [7], .reserveRead 1 [7], .unsafeRead [7, 7, 7, 7, 7], .reserveRead 2 [7]]
  exact ⟨_, hs, by decide +kernel, by decide +kernel, _, rfl, by decide +kernel⟩

end LMCache
