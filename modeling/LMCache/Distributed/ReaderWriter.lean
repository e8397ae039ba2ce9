import LMCache.Distributed.ReserveWrite

/-! # Readers and writers

When every client finishes its own reservations, each once and before it expires
(`Disciplined`), an object that is reserved stays where it is, and a reservation for writing
is alone on its key: `l1_reader_writer_safety`.  No reservation expires in such a run, so that
all of them are in force and the invariant speaks about all of them. -/

namespace LMCache

open L1Manager

variable {K : Type} [DecidableEq K] {clock : ℕ → ℤ}

/-! ### Disciplined clients -/

/-- None of the reservations has expired after `t` readings. -/
def Timely (clock : ℕ → ℤ) (t : ℕ) (rs : List (Reservation K)) : Prop :=
  ∀ r ∈ rs, Ahead clock t r.expires

/-- The client has made as many reservations of each key as it finishes. -/
def FinishesOwn (rs : List (Reservation K)) (client : ℕ) (kind : LockKind) (keys : List K) : Prop :=
  ∀ key ∈ keys, keys.count key ≤
    rs.countP fun r => decide (r.client = client ∧ r.key = key ∧ r.kind = kind)

/-- Clients finish only their own reservations, each once, and no reservation expires before
it is finished; the keys of a `reserve_write` are distinct, and nobody calls `clear`. -/
def Disciplined (clock : ℕ → ℤ) (s : L1Run K) (c : L1Call K) : Prop :=
  Timely clock (c.run clock s).manager.ticks (c.run clock s).reservations ∧
    match c with
    | .finishRead client keys =>
      Timely clock (c.run clock s).manager.ticks s.reservations ∧
        FinishesOwn s.reservations client .read keys
    | .finishWrite client keys =>
      Timely clock (c.run clock s).manager.ticks s.reservations ∧
        FinishesOwn s.reservations client .write keys
    | .reserveWrite _ keys _ _ _ => keys.Nodup
    | .clear => False
    | _ => True

variable {rs : List (Reservation K)}

theorem FinishesOwn.ownOrAlone {t : ℕ} {client : ℕ} {kind : LockKind} {keys : List K}
    (h : FinishesOwn rs client kind keys) (ht : Timely clock t rs) :
    OwnOrAlone clock t rs client kind keys := by
  intro key hkey
  refine Or.inl ((h key hkey).trans_eq ?_)
  apply List.countP_congr
  intro r hr
  simp only [decide_eq_true_eq]
  constructor
  · rintro ⟨h₁, h₂, h₃⟩
    exact ⟨h₁, h₂, h₃, ht r hr⟩
  · grind

theorem Disciplined.considerate {s : L1Run K} {c : L1Call K} (h : Disciplined clock s c)
    (ht : Timely clock s.manager.ticks s.reservations) : Considerate clock s c := by
  cases c with
  | finishRead client keys => exact h.2.2.ownOrAlone ht
  | finishWrite client keys => exact h.2.2.ownOrAlone ht
  | reserveWrite client keys isTemporary y mode => exact h.2
  | reserveRead | unsafeRead | delete | clear | commitExpansion => exact trivial

theorem inv_init {s : L1Run K} (h : (l1System K clock).init s) :
    Inv clock s.manager s.reservations ∧ Timely clock s.manager.ticks s.reservations := by
  obtain ⟨useLazy, buffer, k, initAddressSpace, w, r, rfl⟩ := h
  refine ⟨⟨?_, ?_, fun _ => Or.inl rfl, ?_, ?_, ?_⟩, ?_⟩ <;> simp [L1Manager.new, Timely]

theorem disciplined_inductive (hc : Monotone clock) :
    ((l1System K clock).restrict (Disciplined clock)).Inductive fun s =>
      Inv clock s.manager s.reservations ∧ Timely clock s.manager.ticks s.reservations where
  init := fun _ h => inv_init h
  step := by
    rintro s c s' h ⟨hok, rfl⟩
    exact ⟨inv_run hc h.1 (hok.considerate h.2), hok.1⟩

theorem not_locked_of_holders {m : L1Manager K} {key : K} {e : L1ObjectState} (h : Inv clock m rs)
    (kind : LockKind) (hl : m.objects.lookup key = some e)
    (hz : holders clock m.ticks rs key kind = 0) {now : ℤ} (hnow : ∀ i < m.ticks, clock i ≤ now) :
    (e.lock kind).isLocked now = false := by
  rw [TTLLock.isLocked_eq_false_iff]
  by_cases ha : Ahead clock m.ticks (e.lock kind).expirationMs
  · left
    rw [h.count key e kind hl ha, hz]
    rfl
  · right
    unfold Ahead at ha
    grind

theorem Timely.countP_key {t : ℕ} (h : Timely clock t rs) (key : K) :
    rs.countP (fun r => decide (r.key = key)) =
      holders clock t rs key .read + holders clock t rs key .write := by
  induction rs with
  | nil => rfl
  | cons r rs ih =>
    have hr : Ahead clock t r.expires := h r List.mem_cons_self
    have ih := ih (List.forall_mem_cons.mp h).2
    unfold holders at ih ⊢
    simp only [List.countP_cons, ih, hr, and_true, decide_eq_true_eq]
    by_cases hk : r.key = key
    · cases hkind : r.kind with
      | read =>
        simp [hk]
        omega
      | write =>
        simp [hk]
        omega
    · simp [hk]

/-- **Readers and writers.**  In a run of disciplined clients, from a successful
`reserve_read` on the entry is there with the same memory object, the object is not freed
and the key is not write-locked, until the reservation is finished; and from a successful
`reserve_write` on the entry is there with the same memory object, not freed, and nobody
else has a reservation of the key. -/
theorem l1_reader_writer_safety (hc : Monotone clock) {s : L1Run K}
    (h : ((l1System K clock).restrict (Disciplined clock)).Reachable s) :
    (∀ r ∈ s.reservations, r.kind = .read →
      ∃ e, s.manager.objects.lookup r.key = some e ∧ e.memoryObj = r.memoryObj ∧
        s.manager.memoryManager.pool.Live r.memoryObj ∧
        ∀ now, (∀ i < s.manager.ticks, clock i ≤ now) → e.writeLock.isLocked now = false) ∧
    (∀ r ∈ s.reservations, r.kind = .write →
      (∃ e, s.manager.objects.lookup r.key = some e ∧ e.memoryObj = r.memoryObj ∧
        s.manager.memoryManager.pool.Live r.memoryObj) ∧
      s.reservations.countP (fun r' => decide (r'.key = r.key)) = 1) := by
  obtain ⟨hinv, ht⟩ := (disciplined_inductive hc).reachable h
  have hentry : ∀ r ∈ s.reservations, ∃ e, s.manager.objects.lookup r.key = some e ∧
      e.memoryObj = r.memoryObj ∧ s.manager.memoryManager.pool.Live r.memoryObj := by
    intro r hr
    obtain ⟨e, hl, hobj, -⟩ := hinv.held r hr (ht r hr)
    exact ⟨e, hl, hobj, hobj ▸ hinv.live r.key e hl⟩
  have hpos : ∀ r ∈ s.reservations,
      0 < holders clock s.manager.ticks s.reservations r.key r.kind := fun r hr =>
    holders_pos_iff.mpr ⟨r, hr, rfl, rfl, ht r hr⟩
  constructor
  · intro r hr hkind
    obtain ⟨e, hl, hobj, hlive⟩ := hentry r hr
    refine ⟨e, hl, hobj, hlive, fun now hnow => ?_⟩
    have hp := hpos r hr
    have hexcl := hinv.exclusive r.key
    rw [hkind] at hp
    exact not_locked_of_holders hinv .write hl (by omega) hnow
  · intro r hr hkind
    refine ⟨hentry r hr, ?_⟩
    have hp := hpos r hr
    have hexcl := hinv.exclusive r.key
    rw [hkind] at hp
    rw [ht.countP_key]
    omega

instance {t : ℕ} {rs : List (Reservation K)} : Decidable (Timely clock t rs) :=
  inferInstanceAs (Decidable (∀ r ∈ rs, Ahead clock t r.expires))

instance {rs : List (Reservation K)} {client : ℕ} {kind : LockKind} {keys : List K} :
    Decidable (FinishesOwn rs client kind keys) :=
  inferInstanceAs (Decidable (∀ key ∈ keys, _ ≤ _))

instance {s : L1Run K} : (c : L1Call K) → Decidable (Disciplined clock s c)
  | .finishRead _ _ | .finishWrite _ _ => inferInstanceAs (Decidable (_ ∧ _ ∧ _))
  | .reserveWrite _ keys _ _ _ => inferInstanceAs (Decidable (_ ∧ keys.Nodup))
  | .clear => inferInstanceAs (Decidable (_ ∧ False))
  | .reserveRead _ _ | .unsafeRead _ | .delete _ | .commitExpansion _ =>
    inferInstanceAs (Decidable (_ ∧ True))

/-- A manager over 64 bytes whose locks live for one second. -/
def smallRun : L1Run ℕ := ⟨.new true (.new 64 4 none) 1 1, []⟩

def smallLayout : Layout := ⟨[[2, 3]], [⟨"uint8", 1⟩], by decide, rfl⟩

/-- Two clients read a temporary object that a third one has written; one of them finishes, and
a `delete` finds the object still locked by the other. -/
theorem l1_reader_writer_two_readers :
    ∃ s : L1Run ℕ,
      ((l1System ℕ fun i => (i : ℤ)).restrict (Disciplined fun i => (i : ℤ))).Reachable s ∧
      s.reservations.length = 1 ∧
      ∀ r ∈ s.reservations, r.kind = .read → s.manager.memoryManager.pool.Live r.memoryObj := by
  have hc : Monotone fun i : ℕ => (i : ℤ) := fun i j hij => Int.ofNat_le.mpr hij
  have h₀ : ((l1System ℕ fun i => (i : ℤ)).restrict (Disciplined fun i => (i : ℤ))).Reachable
      smallRun := .init ⟨true, 64, 2, none, 1, 1, rfl⟩
  have hs := h₀.replay_restrict (fun _ _ => rfl) [.reserveWrite 0 [7] [true] smallLayout .all,
    .finishWrite 0 [7], .reserveRead 1 [7], .reserveRead 2 [7], .finishRead 2 [7], .delete [7]]
    (by decide +kernel)
  refine ⟨_, hs, by decide +kernel, fun r hr hkind => ?_⟩
  obtain ⟨e, -, -, hlive, -⟩ := (l1_reader_writer_safety hc hs).1 r hr hkind
  exact hlive

end LMCache
