import LMCache.Distributed.L1Manager
import LMCache.Lib.Transition

/-! # Reservations

A reservation is a ghost: it records which client locked which key, for which memory object
and until when.  The locks know none of this; they count.  A reservation is *in force* until
a reading of the clock reaches its expiration (`holders` counts those on one lock), and a
new reservation moves the expiration of all reservations in force on the same lock, as
`TTLLock::lock` does.

`l1System` runs the manager through the calls of any number of clients and keeps the list of
reservations next to it: a successful reserve adds one, a successful finish takes one of the
caller's own away. -/

namespace LMCache

open List

inductive LockKind where
  | read
  | write
deriving DecidableEq, Repr

namespace L1ObjectState

def lock (e : L1ObjectState) : LockKind → TTLLock
  | .read => e.readLock
  | .write => e.writeLock

def setLock (e : L1ObjectState) (kind : LockKind) (l : TTLLock) : L1ObjectState :=
  match kind with
  | .read => { e with readLock := l }
  | .write => { e with writeLock := l }

variable (e : L1ObjectState) (kind : LockKind) (l : TTLLock)

@[simp] theorem lock_read : e.lock .read = e.readLock := rfl

@[simp] theorem lock_write : e.lock .write = e.writeLock := rfl

@[simp, grind =] theorem lock_setLock : (e.setLock kind l).lock kind = l := by
  cases kind <;> rfl

theorem lock_setLock_of_ne {kind kind' : LockKind} (h : kind' ≠ kind) :
    (e.setLock kind l).lock kind' = e.lock kind' := by
  cases kind <;> cases kind' <;> simp [setLock, lock] at h ⊢

@[simp, grind =] theorem memoryObj_setLock : (e.setLock kind l).memoryObj = e.memoryObj := by
  cases kind <;> rfl

theorem not_locked_of_available {e : L1ObjectState} {now now' : ℤ}
    (h : ¬ (!(e.availableForWrite now now').1) = true) :
    e.writeLock.isLocked now = false ∧ e.readLock.isLocked now' = false := by
  unfold availableForWrite at h
  split_ifs at h with hw <;> simp_all

end L1ObjectState

def L1Manager.ttlMs {K : Type} (m : L1Manager K) : LockKind → ℤ
  | .read => (m.readTtlSeconds : ℤ) * 1000
  | .write => (m.writeTtlSeconds : ℤ) * 1000

structure Reservation (K : Type) where
  client : ℕ
  key : K
  kind : LockKind
  memoryObj : ℕ
  expires : ℤ
deriving DecidableEq, Repr

variable {K : Type}

@[simp] theorem L1Manager.ticks_tick (m : L1Manager K) (n : ℕ) :
    (m.tick n).ticks = m.ticks + n := rfl

variable [DecidableEq K]

/-- A reservation in force on the same lock gets the new expiration. -/
def Reservation.refresh (key : K) (kind : LockKind) (now ttl : ℤ) (r : Reservation K) :
    Reservation K :=
  if r.key = key ∧ r.kind = kind ∧ now < r.expires then { r with expires := now + ttl } else r

/-- The reservations after a client has locked a key at the time `now`. -/
def reserve (r : Reservation K) (now ttl : ℤ) (rs : List (Reservation K)) :
    List (Reservation K) :=
  rs.map (.refresh r.key r.kind now ttl) ++ [{ r with expires := now + ttl }]

/-- The reservations after a client has unlocked a key at the time `now`: one of its own on
this lock that is in force is gone. -/
def release (client : ℕ) (key : K) (kind : LockKind) (now : ℤ) (rs : List (Reservation K)) :
    List (Reservation K) :=
  rs.eraseP fun r => decide (r.client = client ∧ r.key = key ∧ r.kind = kind ∧ now < r.expires)

/-- The number of reservations in force on a lock, after `t` readings. -/
def holders (clock : ℕ → ℤ) (t : ℕ) (rs : List (Reservation K)) (key : K) (kind : LockKind) : ℕ :=
  rs.countP fun r => decide (r.key = key ∧ r.kind = kind ∧ Ahead clock t r.expires)

/-- The number of those that belong to one client. -/
def ownHolders (clock : ℕ → ℤ) (t : ℕ) (rs : List (Reservation K)) (client : ℕ) (key : K)
    (kind : LockKind) : ℕ :=
  rs.countP fun r =>
    decide (r.client = client ∧ r.key = key ∧ r.kind = kind ∧ Ahead clock t r.expires)

/-- The manager with the reservations of its clients. -/
structure L1Run (K : Type) where
  manager : L1Manager K
  reservations : List (Reservation K)

/-! ### Runs -/

/-- The answer of a reserving call to one key, turned into a reservation. -/
def reservedBy (client : ℕ) (kind : LockKind) (ttl : ℤ) (rs : List (Reservation K))
    (a : Answer K L1OperationResult) : List (Reservation K) :=
  match a.result with
  | (.success, some memoryObj) => reserve ⟨client, a.item, kind, memoryObj, a.time⟩ a.time ttl rs
  | _ => rs

def finishedBy (client : ℕ) (kind : LockKind) (rs : List (Reservation K)) (a : Answer K L1Error) :
    List (Reservation K) :=
  if a.result = .success then release client a.item kind a.time rs else rs

/-- The calls of the clients, and the expansion of the memory in the background. -/
inductive L1Call (K : Type) where
  | reserveRead (client : ℕ) (keys : List K)
  | unsafeRead (keys : List K)
  | finishRead (client : ℕ) (keys : List K)
  | reserveWrite (client : ℕ) (keys : List K) (isTemporary : List Bool) (layoutDesc : Layout)
      (mode : WriteMode)
  | finishWrite (client : ℕ) (keys : List K)
  | delete (keys : List K)
  | clear
  | commitExpansion (expandSize : ℕ)

/-- The manager and the reservations after a call; `clear` ends all reservations. -/
def L1Call.run (clock : ℕ → ℤ) (s : L1Run K) : L1Call K → L1Run K
  | reserveRead client keys =>
    let o := s.manager.reserveRead clock keys
    ⟨o.manager,
      o.answers.foldl (reservedBy client .read (s.manager.ttlMs .read)) s.reservations⟩
  | unsafeRead keys => ⟨(s.manager.unsafeRead clock keys).manager, s.reservations⟩
  | finishRead client keys =>
    let o := s.manager.finishRead clock keys
    ⟨o.manager, o.answers.foldl (finishedBy client .read) s.reservations⟩
  | reserveWrite client keys isTemporary layoutDesc mode =>
    let o := s.manager.reserveWrite clock keys isTemporary layoutDesc mode
    ⟨o.manager,
      o.answers.foldl (reservedBy client .write (s.manager.ttlMs .write)) s.reservations⟩
  | finishWrite client keys =>
    let o := s.manager.finishWrite clock keys
    ⟨o.manager, o.answers.foldl (finishedBy client .write) s.reservations⟩
  | delete keys => ⟨(s.manager.delete clock keys).manager, s.reservations⟩
  | clear =>
    let o := s.manager.clear
    ⟨o.manager, if o.raised.isSome then s.reservations else []⟩
  | commitExpansion expandSize =>
    ⟨{ s.manager with
        memoryManager := s.manager.memoryManager.commitExpansion expandSize },
      s.reservations⟩

/-- `L1Manager.__init__`, on a fresh allocator. -/
def L1Manager.new (useLazy : Bool) (allocator : TensorMemoryAllocator)
    (writeTtlSeconds readTtlSeconds : ℕ) : L1Manager K :=
  { objects := ∅, memoryManager := ⟨useLazy, ⟨allocator, [], []⟩⟩, writeTtlSeconds, readTtlSeconds
    ticks := 0 }

/-- Any calls of any clients, in any order, on a manager of any configuration. -/
def l1System (K : Type) [DecidableEq K] (clock : ℕ → ℤ) : LTS (L1Run K) (L1Call K) where
  init s := ∃ useLazy buffer k initAddressSpace writeTtlSeconds readTtlSeconds,
    s = ⟨.new useLazy (.new buffer (2 ^ k) initAddressSpace) writeTtlSeconds readTtlSeconds, []⟩
  step s c s' := s' = c.run clock s

/-! ### Counting -/

section counting
variable {clock : ℕ → ℤ} {t t' : ℕ} {rs : List (Reservation K)} {key : K} {kind : LockKind}

theorem holders_pos_iff : 0 < holders clock t rs key kind ↔
    ∃ r ∈ rs, r.key = key ∧ r.kind = kind ∧ Ahead clock t r.expires := by
  simp [holders]

theorem holders_eq_zero_iff : holders clock t rs key kind = 0 ↔
    ∀ r ∈ rs, r.key = key → r.kind = kind → ¬ Ahead clock t r.expires := by
  simp [holders]

theorem holders_le_of_le (clock : ℕ → ℤ) (rs : List (Reservation K)) (key : K) (kind : LockKind)
    (ht : t ≤ t') : holders clock t' rs key kind ≤ holders clock t rs key kind := by
  apply countP_mono_left
  intro r _ h
  simp only [decide_eq_true_eq] at h ⊢
  exact ⟨h.1, h.2.1, h.2.2.of_le ht⟩

variable {j : ℕ} {r : Reservation K} {ttl : ℤ}

theorem holders_reserve (hc : Monotone clock) (hkey : r.key = key) (hkind : r.kind = kind) :
    holders clock (j + 1) (reserve r (clock j) ttl rs) key kind =
      if 0 < ttl then holders clock (j + 1) rs key kind + 1 else 0 := by
  subst hkey hkind
  simp only [holders, ahead_succ_iff hc, reserve, countP_append, countP_map,
    countP_singleton, true_and, decide_eq_true_eq, lt_add_iff_pos_right]
  split_ifs with h
  · congr 1
    apply countP_congr
    intro r' _
    simp only [Function.comp_apply, Reservation.refresh]
    grind
  · rw [Nat.add_zero, countP_eq_zero]
    intro r' _
    simp only [Function.comp_apply, Reservation.refresh]
    grind

theorem holders_reserve_of_ne (hne : ¬ (key = r.key ∧ kind = r.kind)) :
    holders clock t (reserve r (clock j) ttl rs) key kind = holders clock t rs key kind := by
  simp only [holders, reserve, countP_append, countP_map]
  have hnew : [{ r with expires := clock j + ttl }].countP
      (fun r => decide (r.key = key ∧ r.kind = kind ∧ Ahead clock t r.expires)) = 0 := by
    grind
  rw [hnew, Nat.add_zero]
  apply countP_congr
  intro r' _
  simp only [Function.comp_apply, Reservation.refresh]
  grind

theorem countP_eraseP_add_one {α : Type} {p q : α → Bool} {l : List α}
    (hqp : ∀ a, q a = true → p a = true) (hex : ∃ a ∈ l, q a = true) :
    (l.eraseP q).countP p + 1 = l.countP p := by
  obtain ⟨a, ha, hqa⟩ := hex
  obtain ⟨b, l₁, l₂, -, hqb, hl, he⟩ := exists_of_eraseP ha hqa
  grind

theorem countP_eraseP_of_not {α : Type} {p q : α → Bool} {l : List α}
    (hqp : ∀ a, q a = true → ¬ p a = true) : (l.eraseP q).countP p = l.countP p := by
  by_cases hex : ∃ a ∈ l, q a = true
  · obtain ⟨a, ha, hqa⟩ := hex
    obtain ⟨b, l₁, l₂, -, hqb, hl, he⟩ := exists_of_eraseP ha hqa
    rw [he, hl, countP_append, countP_append, countP_cons_of_neg (hqp b hqb)]
  · rw [eraseP_of_forall_not]
    grind

variable {client : ℕ}

theorem ownHolders_pos_iff : 0 < ownHolders clock t rs client key kind ↔
    ∃ r ∈ rs, r.client = client ∧ r.key = key ∧ r.kind = kind ∧ Ahead clock t r.expires := by
  simp [ownHolders]

theorem ownHolders_le (clock : ℕ → ℤ) (t : ℕ) (rs : List (Reservation K)) (client : ℕ) (key : K)
    (kind : LockKind) : ownHolders clock t rs client key kind ≤ holders clock t rs key kind := by
  apply countP_mono_left
  simp

theorem release_eq_self (hc : Monotone clock)
    (hown : ¬ 0 < ownHolders clock (j + 1) rs client key kind) :
    release client key kind (clock j) rs = rs := by
  apply eraseP_of_forall_not
  intro r hr hp
  rw [decide_eq_true_eq, ← ahead_succ_iff hc] at hp
  exact hown (ownHolders_pos_iff.mpr ⟨r, hr, hp⟩)

theorem holders_release (hc : Monotone clock)
    (hown : 0 < ownHolders clock (j + 1) rs client key kind) :
    holders clock (j + 1) (release client key kind (clock j) rs) key kind + 1 =
        holders clock (j + 1) rs key kind ∧
      ownHolders clock (j + 1) (release client key kind (clock j) rs) client key kind + 1 =
        ownHolders clock (j + 1) rs client key kind := by
  obtain ⟨r, hr, hr'⟩ := ownHolders_pos_iff.mp hown
  rw [ahead_succ_iff hc] at hr'
  simp only [holders, ownHolders, ahead_succ_iff hc, release]
  constructor
  · apply countP_eraseP_add_one
    · simp
    · exact ⟨r, hr, decide_eq_true hr'⟩
  · apply countP_eraseP_add_one
    · exact fun r hr => hr
    · exact ⟨r, hr, decide_eq_true hr'⟩

theorem holders_release_of_ne (clock : ℕ → ℤ) (t : ℕ) (rs : List (Reservation K)) (client : ℕ)
    (now : ℤ) {key' : K} {kind' : LockKind} (hne : ¬ (key' = key ∧ kind' = kind)) :
    holders clock t (release client key kind now rs) key' kind' = holders clock t rs key' kind' ∧
      ownHolders clock t (release client key kind now rs) client key' kind' =
        ownHolders clock t rs client key' kind' := by
  constructor
  all_goals
    apply countP_eraseP_of_not
    grind

end counting

end LMCache
