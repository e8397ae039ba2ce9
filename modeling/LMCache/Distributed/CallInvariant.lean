import LMCache.Distributed.LockInvariant

/-! # What a call does to the reservations

Reading, finishing and deleting keep `L1Manager.Inv`, with one proviso: a client that
finishes a key has to own a reservation in force on it, once for every time it finishes the
key, unless nobody else has one (`OwnOrAlone`).  An unlock takes a reservation away from the
lock, and the lock cannot tell whose.

`forItems_induct` is the rule for the loops over the keys; the bodies of the loops are
handled one by one. -/

namespace LMCache.L1Manager

open List L1ObjectState

variable {K : Type}

/-! ### Loops -/

section loops
variable {I R G : Type} {f : L1Manager K → I → R × L1Manager K}

def answerOf (clock : ℕ → ℤ) (f : L1Manager K → I → R × L1Manager K) (m : L1Manager K) (item : I) :
    Answer I R :=
  ⟨item, (f m item).1, clock ((f m item).2.ticks - 1)⟩

/-- **The loop rule.**  `P` is about the manager, a ghost `g` and the items still to come; each
answer satisfies `Q` and updates the ghost. -/
theorem forItems_induct (clock : ℕ → ℤ) (upd : G → Answer I R → G)
    (P : L1Manager K → G → List I → Prop)
    (Q : Answer I R → Prop) (hstep : ∀ m g item items, P m g (item :: items) →
      Q (answerOf clock f m item) ∧ P (f m item).2 (upd g (answerOf clock f m item)) items)
    (items : List I) {m : L1Manager K} {g : G} (h : P m g items) :
    (∀ a ∈ (m.forItems clock f items).1, Q a) ∧
      P (m.forItems clock f items).2 ((m.forItems clock f items).1.foldl upd g) [] := by
  induction items generalizing m g with
  | nil => exact ⟨by simp [forItems], h⟩
  | cons item items ih =>
    obtain ⟨hq, hp⟩ := hstep m g item items h
    obtain ⟨hqs, hp'⟩ := ih hp
    refine ⟨fun a ha => ?_, hp'⟩
    rcases mem_cons.mp ha with ha | ha
    · exact ha ▸ hq
    · exact hqs a ha

theorem forItems_keeps (clock : ℕ → ℤ) (P : L1Manager K → Prop)
    (hstep : ∀ m item, P m → P (f m item).2) (items : List I) {m : L1Manager K} (h : P m) :
    P (m.forItems clock f items).2 :=
  (forItems_induct clock (fun (_ : Unit) _ => ()) (fun m _ _ => P m) (fun _ => True)
    (fun m _ item _ h => ⟨trivial, hstep m item h⟩) items (g := ()) h).2

theorem foldl_collect (u : G → Answer I (R × Option ℕ) → G)
    (answers : List (Answer I (R × Option ℕ))) (g : G) (freed : List ℕ) :
    answers.foldl (fun p a => (u p.1 a, p.2 ++ a.result.2.toList)) (g, freed) =
      (answers.foldl u g, freed ++ answers.filterMap fun a => a.result.2) := by
  induction answers generalizing g freed with
  | nil => simp
  | cons a answers ih =>
    grind

theorem items_forItems (clock : ℕ → ℤ) (f : L1Manager K → I → R × L1Manager K) (m : L1Manager K)
    (items : List I) : (m.forItems clock f items).1.map (fun a => a.item) = items := by
  induction items generalizing m with
  | nil => rfl
  | cons item items ih => exact congrArg (item :: ·) (ih _)

theorem mem_forItems {clock : ℕ → ℤ} {m : L1Manager K} {items : List I} {a : Answer I R} :
    a ∈ (m.forItems clock f items).1 ↔ ∃ done item rest, items = done ++ item :: rest ∧
      a = answerOf clock f (m.forItems clock f done).2 item := by
  induction items generalizing m with
  | nil => simp [forItems]
  | cons item items ih =>
    rw [forItems, mem_cons, ih]
    constructor
    · rintro (rfl | ⟨done, item', rest, rfl, rfl⟩)
      · exact ⟨[], item, items, rfl, rfl⟩
      · exact ⟨item :: done, item', rest, rfl, rfl⟩
    · rintro ⟨done, item', rest, heq, rfl⟩
      cases done with
      | nil =>
        cases heq
        exact Or.inl rfl
      | cons item'' done =>
        cases heq
        exact Or.inr ⟨done, item', rest, rfl, rfl⟩

theorem foldl_answerAll {clock : ℕ → ℤ} {u : G → Answer K L1OperationResult → G}
    (hu : ∀ g a, a.result.1 ≠ .success → u g a = g) (m : L1Manager K) (keys : List K)
    {result : L1OperationResult} (hr : result.1 ≠ .success) (g : G) :
    (m.answerAll clock keys result).foldl u g = g := by
  induction keys with
  | nil => rfl
  | cons key keys ih =>
    rw [answerAll, map_cons, foldl_cons, hu _ _ hr]
    exact ih

end loops

variable [DecidableEq K] {clock : ℕ → ℤ} {m : L1Manager K} {rs : List (Reservation K)} {key : K}
  {kind : LockKind} {e : L1ObjectState} {client : ℕ}

/-! ### Reserving for reading -/

section
variable (hc : Monotone clock)

include hc

theorem inv_reserveReadKey (h : Inv clock m rs) (client : ℕ) (key : K) :
    Inv clock (reserveReadKey clock m key).2
        (reservedBy client .read (m.ttlMs .read) rs (answerOf clock (reserveReadKey clock) m key)) ∧
      (reserveReadKey clock m key).2.ttlMs = m.ttlMs := by
  unfold answerOf
  fun_cases reserveReadKey clock m key
  case case1 => exact ⟨h, rfl⟩
  case case2 => exact ⟨h.tick 1, rfl⟩
  case case3 e hl hw =>
    have hw : (e.lock .write).isLocked (clock m.ticks) = false := by
      simpa [availableForRead, lock] using hw
    have hz : holders clock (m.ticks + 2) rs key .write = 0 :=
      (h.tick 2).holders_eq_zero_of_not_locked hl (by rw [ticks_tick]; omega) hw
    refine ⟨?_, rfl⟩
    exact (h.tick 2).reserve hc .read hl (j := m.ticks + 1) rfl hz (by simp) client _

theorem inv_reserveRead (h : Inv clock m rs) (client : ℕ) (keys : List K) :
    Inv clock (m.reserveRead clock keys).manager ((m.reserveRead clock keys).answers.foldl
        (reservedBy client .read (m.ttlMs .read)) rs) := by
  refine (forItems_induct clock _ (fun m' rs' _ => Inv clock m' rs' ∧ m'.ttlMs = m.ttlMs)
    (fun _ => True) (fun m' rs' key' _ h' => ⟨trivial, ?_⟩) keys ⟨h, rfl⟩).2.1
  rw [← h'.2]
  exact inv_reserveReadKey hc h'.1 client key'

/-! ### Finishing -/

/-- Every key that the client finishes, it owns often enough, or nobody else has a reservation
in force on it. -/
def OwnOrAlone (clock : ℕ → ℤ) (t : ℕ) (rs : List (Reservation K)) (client : ℕ)
    (kind : LockKind) (keys : List K) : Prop :=
  ∀ key ∈ keys, keys.count key ≤ ownHolders clock t rs client key kind ∨
    holders clock t rs key kind = ownHolders clock t rs client key kind

omit hc in
/-- As time passes, the reservations of a client on a lock stay in force with the others, or
all expire. -/
theorem Inv.later (h : Inv clock m rs) (client : ℕ) (key : K) (kind : LockKind) (n : ℕ) :
    holders clock (m.ticks + n) rs key kind = holders clock m.ticks rs key kind ∧
        ownHolders clock (m.ticks + n) rs client key kind =
          ownHolders clock m.ticks rs client key kind ∨
      holders clock (m.ticks + n) rs key kind = 0 := by
  cases hl : m.objects.lookup key with
  | none => exact Or.inr ((h.tick n).holders_eq_zero hl)
  | some e =>
    have hlater := h.holders_later kind hl (Nat.le_add_right m.ticks n)
    split_ifs at hlater with ha
    · refine Or.inl ⟨hlater, ?_⟩
      apply countP_congr
      intro r hr
      simp only [decide_eq_true_eq]
      constructor
      · rintro ⟨h₁, h₂, h₃, h₄⟩
        exact ⟨h₁, h₂, h₃, h₄.of_le (Nat.le_add_right _ _)⟩
      · rintro ⟨h₁, h₂, h₃, h₄⟩
        rw [h.expires_eq hl hr h₂ h₃ h₄]
        exact ⟨h₁, h₂, h₃, ha⟩
    · exact Or.inr hlater

variable {keys : List K}

omit hc in
theorem OwnOrAlone.later (h : Inv clock m rs) (ho : OwnOrAlone clock m.ticks rs client kind keys)
    (n : ℕ) : OwnOrAlone clock (m.ticks + n) rs client kind keys := by
  intro key hkey
  have hle := ownHolders_le clock (m.ticks + n) rs client key kind
  rcases h.later client key kind n with heq | hz
  · rw [heq.1, heq.2]
    exact ho key hkey
  · exact Or.inr (by omega)

omit hc in
/-- A finish that fails. -/
theorem OwnOrAlone.tail {t : ℕ} (ho : OwnOrAlone clock t rs client kind (key :: keys)) :
    OwnOrAlone clock t rs client kind keys := by
  intro key' hkey'
  rcases ho key' (mem_cons_of_mem _ hkey') with hle | heq
  · exact Or.inl ((count_le_count_cons).trans hle)
  · exact Or.inr heq

/-- A finish that succeeds uses up one reservation of the client. -/
theorem OwnOrAlone.release {j : ℕ} (ho : OwnOrAlone clock (j + 1) rs client kind (key :: keys)) :
    OwnOrAlone clock (j + 1) (release client key kind (clock j) rs) client kind keys := by
  by_cases hown : 0 < ownHolders clock (j + 1) rs client key kind
  · obtain ⟨hdec, hdec'⟩ := holders_release hc hown
    intro key' hkey'
    have hkey := ho key' (mem_cons_of_mem _ hkey')
    by_cases hk : key' = key
    · grind
    · have hne : ¬ (key' = key ∧ kind = kind) := fun hc => hk hc.1
      obtain ⟨h₁, h₂⟩ := holders_release_of_ne clock (j + 1) rs client (clock j) hne
      grind
  · rw [release_eq_self hc hown]
    exact ho.tail

omit hc in
theorem ownHolders_le_of_le (clock : ℕ → ℤ) {t t' : ℕ} (ht : t ≤ t') (rs : List (Reservation K))
    (client : ℕ) (key : K) (kind : LockKind) :
    ownHolders clock t' rs client key kind ≤ ownHolders clock t rs client key kind := by
  apply countP_mono_left
  intro r _ hr
  simp only [decide_eq_true_eq] at hr ⊢
  exact ⟨hr.1, hr.2.1, hr.2.2.1, hr.2.2.2.of_le ht⟩

/-- **A finish that succeeds**: the lock was held at one of the `n` readings for this key, so
the client owns a reservation in force. -/
theorem Inv.finish (h : Inv clock m rs) (ho : OwnOrAlone clock m.ticks rs client kind (key :: keys))
    (hl : m.objects.lookup key = some e) {n i : ℕ} (hi : i < n)
    (hlock : (e.lock kind).isLocked (clock (m.ticks + i)) = true) :
    0 < ownHolders clock (m.ticks + 1) rs client key kind ∧
      Inv clock ((m.setEntry key (e.setLock kind (e.lock kind).unlock)).tick n)
        (LMCache.release client key kind (clock (m.ticks + n - 1)) rs) ∧
      OwnOrAlone clock (m.ticks + n)
        (LMCache.release client key kind (clock (m.ticks + n - 1)) rs) client kind keys := by
  have hj : m.ticks + n = m.ticks + n - 1 + 1 := by omega
  rw [TTLLock.isLocked_iff] at hlock
  have hcount := (h.tick (i + 1)).count key e kind hl ((ahead_succ_iff hc).mpr hlock.2)
  have hlater := h.later client key kind (i + 1)
  have hkey := ho key mem_cons_self
  rw [ticks_tick] at hcount
  rw [count_cons_self] at hkey
  refine ⟨?_, ?_, ?_⟩
  · have hle : m.ticks + 1 ≤ m.ticks + (i + 1) := by omega
    have := ownHolders_le_of_le clock hle rs client key kind
    omega
  · refine (h.tick n).unlock hc hl hj fun hpos => ?_
    rw [ticks_tick] at hpos ⊢
    have := h.later client key kind n
    omega
  · have := ho.later h n
    rw [hj] at this ⊢
    exact this.release hc

omit hc in
theorem delEntry_setEntry (m : L1Manager K) (key : K) (e : L1ObjectState) :
    (m.setEntry key e).delEntry key = m.delEntry key := by
  unfold setEntry delEntry
  congr 1
  apply AList.ext
  exact kerase_cons_eq rfl

omit hc in
theorem Inv.delete_unused (h : Inv clock m rs) {freed : List ℕ}
    (hunused : ∀ key e, m.objects.lookup key = some e → e.memoryObj ∉ freed)
    (hl : m.objects.lookup key = some e) (hz : ∀ kind, holders clock m.ticks rs key kind = 0) :
    Inv clock (m.delEntry key) rs ∧
      ∀ key' e', (m.delEntry key).objects.lookup key' = some e' →
        e'.memoryObj ∉ freed ++ [e.memoryObj] := by
  refine ⟨h.delete key hz, fun key' e' hl' => ?_⟩
  have hk : key' ≠ key := by
    rintro rfl
    simp at hl'
  rw [lookup_delEntry_of_ne hk] at hl'
  rw [mem_append, mem_singleton, not_or]
  exact ⟨hunused key' e' hl', fun heq => hk (h.distinct key' key e' e hl' hl heq)⟩

/-- What the loop of a finishing call keeps: `own` bounds the reservations in force of the client
at the first reading of the call, and `p.2` is no longer used by an entry. -/
structure Finishing (clock : ℕ → ℤ) (client : ℕ) (kind : LockKind) (own : K → ℕ)
    (m : L1Manager K) (p : List (Reservation K) × List ℕ) (keys : List K) : Prop where
  inv : Inv clock m p.1
  ownOrAlone : OwnOrAlone clock m.ticks p.1 client kind keys
  bound : ∀ key, ownHolders clock (m.ticks + 1) p.1 client key kind ≤ own key
  unused : ∀ key e, m.objects.lookup key = some e → e.memoryObj ∉ p.2

variable {own : K → ℕ} {p : List (Reservation K) × List ℕ}

omit hc in
theorem Finishing.tick (h : Finishing clock client kind own m p (key :: keys)) (n : ℕ) :
    Finishing clock client kind own (m.tick n) p keys where
  inv := h.inv.tick n
  ownOrAlone := h.ownOrAlone.tail.later h.inv n
  bound key' := (ownHolders_le_of_le clock (by rw [ticks_tick]; omega) ..).trans (h.bound key')
  unused := h.unused

/-- A finish that succeeds. -/
theorem Finishing.unlock
    (h : Finishing clock client kind own m p (key :: keys)) (hl : m.objects.lookup key = some e)
    {n i : ℕ} (hi : i < n) (hlock : (e.lock kind).isLocked (clock (m.ticks + i)) = true) :
    0 < own key ∧ Finishing clock client kind own
      ((m.setEntry key (e.setLock kind (e.lock kind).unlock)).tick n)
      (LMCache.release client key kind (clock (m.ticks + n - 1)) p.1, p.2) keys := by
  obtain ⟨hown, hinv, hrest⟩ := h.inv.finish hc h.ownOrAlone hl hi hlock
  refine ⟨hown.trans_le (h.bound key), hinv, hrest, fun key' => ?_, fun key' e' hl' => ?_⟩
  · refine (eraseP_sublist.countP_le).trans ((ownHolders_le_of_le clock ?_ ..).trans (h.bound key'))
    show m.ticks + 1 ≤ m.ticks + n + 1
    omega
  · rcases lookup_setEntry_eq_some.mp hl' with ⟨rfl, rfl⟩ | ⟨-, hl'⟩
    · rw [memoryObj_setLock]
      exact h.unused key' e hl
    · exact h.unused key' e' hl'

theorem Finishing.read_step (h : Finishing clock client .read own m p (key :: keys)) :
    ((finishReadKey clock m key).1.1 = .success → 0 < own key) ∧
      Finishing clock client .read own (finishReadKey clock m key).2 (finishedBy client .read p.1
          ⟨key, (finishReadKey clock m key).1.1, clock ((finishReadKey clock m key).2.ticks - 1)⟩,
          p.2 ++ (finishReadKey clock m key).1.2.toList) keys := by
  unfold finishReadKey
  cases hl : m.objects.lookup key with
  | none => exact ⟨nofun, (append_nil p.2).symm ▸ h.tick 0⟩
  | some e =>
    dsimp only
    split_ifs with hw hr htemp hlast
    · exact ⟨nofun, (append_nil p.2).symm ▸ h.tick 1⟩
    · exact ⟨nofun, (append_nil p.2).symm ▸ h.tick 2⟩
    all_goals
      have hr : (e.lock .read).isLocked (clock (m.ticks + 1)) = true := by simpa using hr
    · -- the last reader of a temporary object: the entry is deleted
      obtain ⟨hown, hfin⟩ := h.unlock hc hl (n := 3) (by omega) hr
      have hl' := lookup_setEntry m key (e.setLock .read (e.lock .read).unlock)
      have hticks : ∀ i < 3, m.ticks + i < m.ticks + 3 := fun i hi => by omega
      obtain ⟨hinv, hunused⟩ := hfin.inv.delete_unused hfin.unused hl' (by
        intro kind
        cases kind with
        | read =>
          refine hfin.inv.holders_eq_zero_of_not_locked hl' (hticks 2 (by decide)) ?_
          simpa [lock, setLock] using hlast
        | write =>
          refine hfin.inv.holders_eq_zero_of_not_locked hl' (hticks 0 (by decide)) ?_
          simpa [lock, setLock] using hw)
      have hdel := congrArg (fun m' : L1Manager K => m'.tick 3)
        (delEntry_setEntry m key (e.setLock .read (e.lock .read).unlock))
      exact ⟨fun _ => hown, hdel ▸ hinv, hfin.ownOrAlone, hfin.bound, hdel ▸ hunused⟩
    · obtain ⟨hown, hfin⟩ := h.unlock hc hl (n := 3) (by omega) hr
      exact ⟨fun _ => hown, (append_nil p.2).symm ▸ hfin⟩
    · obtain ⟨hown, hfin⟩ := h.unlock hc hl (n := 2) (by omega) hr
      exact ⟨fun _ => hown, (append_nil p.2).symm ▸ hfin⟩

/-- **`finish_read`** keeps the invariant, and it succeeds only on keys of which the caller has
a reservation in force. -/
theorem inv_finishRead (h : Inv clock m rs) (ho : OwnOrAlone clock m.ticks rs client .read keys) :
    Inv clock (m.finishRead clock keys).manager
        ((m.finishRead clock keys).answers.foldl (finishedBy client .read) rs) ∧
      ∀ a ∈ (m.finishRead clock keys).answers, a.result = .success →
        0 < ownHolders clock (m.ticks + 1) rs client a.item .read := by
  have h₀ : Finishing clock client .read
      (fun key => ownHolders clock (m.ticks + 1) rs client key .read) m (rs, []) keys :=
        ⟨h, ho, fun _ => le_rfl, fun _ _ _ => not_mem_nil⟩
  obtain ⟨hq, hp⟩ := forItems_induct clock
    (fun (p : List (Reservation K) × List ℕ) (a : Answer K (L1Error × Option ℕ)) =>
      (finishedBy client .read p.1 ⟨a.item, a.result.1, a.time⟩, p.2 ++ a.result.2.toList))
    _ (fun a => a.result.1 = .success → 0 < ownHolders clock (m.ticks + 1) rs client a.item .read)
    (fun _ _ _ _ hfin => hfin.read_step hc) keys h₀
  rw [foldl_collect (fun rs a => finishedBy client .read rs ⟨a.item, a.result.1, a.time⟩)] at hp
  constructor
  · show Inv clock ((m.forItems clock (finishReadKey clock) keys).2.freeMemory _).2
      (((m.forItems clock (finishReadKey clock) keys).1.map _).foldl _ _)
    rw [foldl_map]
    exact hp.inv.freeMemory fun key e hl => by simpa using hp.unused key e hl
  · intro a ha
    obtain ⟨a', ha', rfl⟩ := mem_map.mp ha
    exact hq a' ha'

theorem Finishing.write_step {rs : List (Reservation K)}
    (h : Finishing clock client .write own m (rs, []) (key :: keys)) :
    ((finishWriteKey clock m key).1 = .success → 0 < own key) ∧
      Finishing clock client .write own (finishWriteKey clock m key).2 (finishedBy client .write rs
          ⟨key, (finishWriteKey clock m key).1, clock ((finishWriteKey clock m key).2.ticks - 1)⟩,
          []) keys := by
  fun_cases finishWriteKey clock m key
  case case1 => exact ⟨nofun, h.tick 0⟩
  case case2 => exact ⟨nofun, h.tick 1⟩
  case case3 => exact ⟨nofun, h.tick 2⟩
  case case4 hl hw _ =>
    obtain ⟨hown, hfin⟩ := h.unlock hc hl (n := 2) (i := 0) (by omega) (by simpa using hw)
    exact ⟨fun _ => hown, hfin⟩

/-- **`finish_write`** keeps the invariant, and it succeeds only on keys of which the caller
has a reservation in force. -/
theorem inv_finishWrite (h : Inv clock m rs) (ho : OwnOrAlone clock m.ticks rs client .write keys) :
    Inv clock (m.finishWrite clock keys).manager
        ((m.finishWrite clock keys).answers.foldl (finishedBy client .write) rs) ∧
      ∀ a ∈ (m.finishWrite clock keys).answers, a.result = .success →
        0 < ownHolders clock (m.ticks + 1) rs client a.item .write := by
  have h₀ : Finishing clock client .write
      (fun key => ownHolders clock (m.ticks + 1) rs client key .write) m (rs, []) keys :=
    ⟨h, ho, fun _ => le_rfl, fun _ _ _ => not_mem_nil⟩
  obtain ⟨hq, hp⟩ := forItems_induct clock (finishedBy client .write)
    (fun m' rs' => Finishing clock client .write _ m' (rs', []))
    (fun a => a.result = .success → 0 < ownHolders clock (m.ticks + 1) rs client a.item .write)
    (fun _ _ _ _ hfin => hfin.write_step hc) keys h₀
  exact ⟨hp.inv, hq⟩

end

/-! ### Deleting and looking -/

theorem inv_unsafeRead (h : Inv clock m rs) (keys : List K) :
    Inv clock (m.unsafeRead clock keys).manager rs := by
  refine forItems_keeps clock (fun m => Inv clock m rs) (fun m' key h' => ?_) keys h
  fun_cases unsafeReadKey
  · exact h'
  all_goals exact h'.tick 1

theorem inv_deleteKey (h : Inv clock m rs) {freed : List ℕ}
    (hunused : ∀ key e, m.objects.lookup key = some e → e.memoryObj ∉ freed) (key : K) :
    Inv clock (deleteKey clock m key).2 rs ∧
      ∀ key' e, (deleteKey clock m key).2.objects.lookup key' = some e →
        e.memoryObj ∉ freed ++ (deleteKey clock m key).1.2.toList := by
  fun_cases deleteKey clock m key
  case case1 => exact ⟨h, (append_nil freed).symm ▸ hunused⟩
  case case2 => exact ⟨h.tick 1, (append_nil freed).symm ▸ hunused⟩
  case case3 => exact ⟨h.tick 2, (append_nil freed).symm ▸ hunused⟩
  case case4 hl hr hw =>
    have hticks : ∀ i < 2, m.ticks + i < m.ticks + 2 := fun i hi => by omega
    refine (h.tick 2).delete_unused hunused hl fun kind => ?_
    cases kind with
    | read =>
      exact (h.tick 2).holders_eq_zero_of_not_locked hl (hticks 0 (by decide)) (by simpa using hr)
    | write =>
      exact (h.tick 2).holders_eq_zero_of_not_locked hl (hticks 1 (by decide)) (by simpa using hw)

theorem inv_delete (h : Inv clock m rs) (keys : List K) :
    Inv clock (m.delete clock keys).manager rs := by
  obtain ⟨-, hinv, hunused⟩ := forItems_induct clock
    (fun (p : Unit × List ℕ) (a : Answer K (L1Error × Option ℕ)) =>
      ((), p.2 ++ a.result.2.toList))
    (fun m' p _ => Inv clock m' rs ∧
      ∀ key e, m'.objects.lookup key = some e → e.memoryObj ∉ p.2)
    (fun _ => True) (fun _ _ key _ h' => ⟨trivial, inv_deleteKey h'.1 h'.2 key⟩) keys
    (g := ((), [])) ⟨h, fun _ _ _ => not_mem_nil⟩
  rw [foldl_collect (fun _ _ => ())] at hunused
  exact hinv.freeMemory fun key e hl => by simpa using hunused key e hl

end LMCache.L1Manager
