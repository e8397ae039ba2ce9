import LMCache.Distributed.L1Manager
import Mathlib.Data.List.Count

/-! # Read locks without a clock

As long as no lock expires, the clock does not matter: an entry of the L1 cache is a memory
object with a flag and a number of readers (`Cell`), and the manager is a map of keys to cells.
`reserve`, `peek` and `finish` are what `reserve_read`, `unsafe_read` and `finish_read` do to
one key there.

Over a list of keys, with repeats,

* `forKeys_reserve`: every key that is not write-locked gets one reader for each time it is asked
  for;
* `readers_forKeys_finish`: every key loses one reader for each time it is finished, down to none.

An object that is not there counts as one without readers. -/

namespace LMCache

open List

structure Cell where
  memoryObj : ℕ
  writeLocked : Bool
  readers : ℕ
  isTemporary : Bool
deriving DecidableEq, Repr

abbrev Cells (K : Type) := K → Option Cell

namespace Cells

variable {K R : Type}

def readers (c : Cells K) (key : K) : ℕ := (c key).elim 0 Cell.readers

def readable (c : Cells K) (key : K) : Bool := (c key).any fun cell => !cell.writeLocked

def Exclusive (c : Cells K) (key : K) : Prop :=
  ∀ cell, c key = some cell → cell.writeLocked = true → cell.readers = 0

def Permanent (c : Cells K) : Prop := ∀ key cell, c key = some cell → cell.isTemporary = false

def forKeys (f : Cells K → K → R × Cells K) : Cells K → List K → List (K × R) × Cells K
  | c, [] => ([], c)
  | c, key :: keys =>
    let r := f c key
    let rest := forKeys f r.2 keys
    ((key, r.1) :: rest.1, rest.2)

variable [DecidableEq K]

def reserve (c : Cells K) (key : K) : L1OperationResult × Cells K :=
  match c key with
  | none => ((.keyNotExist, none), c)
  | some cell =>
    if cell.writeLocked then ((.keyNotReadable, none), c)
    else
      ((.success, some cell.memoryObj),
        Function.update c key (some { cell with readers := cell.readers + 1 }))

omit [DecidableEq K] in
def peek (c : Cells K) (key : K) : L1OperationResult × Cells K :=
  match c key with
  | none => ((.keyNotExist, none), c)
  | some cell =>
    if cell.readers = 0 then ((.keyNotReadable, none), c)
    else ((.success, some cell.memoryObj), c)

/-- The last reader of a temporary object takes it away. -/
def finish (c : Cells K) (key : K) : (L1Error × Option ℕ) × Cells K :=
  match c key with
  | none => ((.keyNotExist, none), c)
  | some cell =>
    if cell.writeLocked then ((.keyInWrongState, none), c)
    else if cell.readers = 0 then ((.keyInWrongState, none), c)
    else if cell.isTemporary then
      if cell.readers = 1 then ((.success, some cell.memoryObj), Function.update c key none)
      else
        ((.success, none), Function.update c key (some { cell with readers := cell.readers - 1 }))
    else
      ((.success, none), Function.update c key (some { cell with readers := cell.readers - 1 }))

/-! ### Reserving -/

/-- The cells with one more reader for each time a key is asked for. -/
def reserveAll (c : Cells K) (keys : List K) : Cells K := fun key =>
  (c key).map fun cell =>
    if cell.writeLocked then cell else { cell with readers := cell.readers + keys.count key }

theorem reserve_of_ne {c : Cells K} {key k : K} (hk : k ≠ key) : (c.reserve key).2 k = c k := by
  fun_cases reserve
  · rfl
  · rfl
  · simp [hk]

variable (c : Cells K)

theorem reserve_snd (key : K) : (c.reserve key).2 = c.reserveAll [key] := by
  funext k
  by_cases hk : k = key
  · subst hk
    unfold reserveAll
    fun_cases c.reserve k <;> simp [*]
  · have hcount : count k [key] = 0 := by simp [Ne.symm hk]
    rw [reserve_of_ne hk, reserveAll, hcount]
    simp

theorem reserveAll_reserveAll (keys keys' : List K) :
    (c.reserveAll keys).reserveAll keys' = c.reserveAll (keys ++ keys') := by
  funext k
  unfold reserveAll
  cases c k with
  | none => rfl
  | some cell =>
    cases hw : cell.writeLocked with
    | true => simp [hw]
    | false => simp [hw, Nat.add_assoc]

variable (keys : List K)

theorem reserve_reserveAll_fst (key : K) :
    ((c.reserveAll keys).reserve key).1 = (c.reserve key).1 := by
  unfold reserve reserveAll
  grind

/-- **Reserving a list of keys.** -/
theorem forKeys_reserve :
    c.forKeys reserve keys = (keys.map fun key => (key, (c.reserve key).1), c.reserveAll keys) := by
  induction keys generalizing c with
  | nil =>
    have hnil : c.reserveAll [] = c := by
      funext k
      unfold reserveAll
      cases c k <;> simp
    simp [forKeys, hnil]
  | cons key keys ih =>
    rw [forKeys, reserve_snd, ih, reserveAll_reserveAll]
    simp [reserve_reserveAll_fst]

theorem readers_reserveAll (key : K) : (c.reserveAll keys).readers key =
      c.readers key + if c.readable key then keys.count key else 0 := by
  unfold readers reserveAll readable
  cases c key with
  | none => rfl
  | some cell =>
    cases hw : cell.writeLocked <;> simp [hw]

theorem reserve_success_iff {c : Cells K} {key : K} :
    (c.reserve key).1.1 = .success ↔ c.readable key = true := by
  unfold reserve readable
  grind

theorem reserve_isSome_iff {c : Cells K} {key : K} :
    (c.reserve key).1.2.isSome = c.readable key := by
  unfold reserve readable
  grind

/-! ### Reading -/

omit [DecidableEq K] in
@[simp] theorem peek_snd (key : K) : (c.peek key).2 = c := by
  unfold peek
  grind

omit [DecidableEq K] in
theorem forKeys_peek : c.forKeys peek keys = (keys.map fun key => (key, (c.peek key).1), c) := by
  induction keys with
  | nil => rfl
  | cons key keys ih => simp [forKeys, ih]

def object (c : Cells K) (key : K) : Option ℕ := (c key).map Cell.memoryObj

omit [DecidableEq K] in
theorem peek_fst_snd (key : K) :
    (c.peek key).1.2 = if c.readers key = 0 then none else c.object key := by
  unfold peek readers object
  grind

omit [DecidableEq K] in
theorem peek_eq_none_iff {c : Cells K} {key : K} : (c.peek key).1.2 = none ↔ c.readers key = 0 := by
  rw [peek_fst_snd]
  constructor
  · intro h
    by_contra hpos
    rw [if_neg hpos] at h
    unfold object readers at *
    simp_all
  · intro h
    rw [if_pos h]

/-! ### Finishing -/

section finish
variable {c : Cells K} {key k : K}

theorem finish_of_ne (hk : k ≠ key) : (c.finish key).2 k = c k := by
  have hupdate : ∀ o, Function.update c key o k = c k := fun o => Function.update_of_ne hk o c
  fun_cases finish
  · rfl
  all_goals simp [hupdate]

theorem readers_finish_self (h : c.Exclusive key) :
    (c.finish key).2.readers key = c.readers key - 1 := by
  unfold finish readers
  cases hc : c key with
  | none => simp [hc]
  | some cell =>
    dsimp only
    split_ifs with hw hz ht h1
    · simp [hc, h cell hc hw]
    · simp [hc, hz]
    · simp [h1]
    · simp
    · simp

theorem readers_finish (h : c.Exclusive key) :
    (c.finish key).2.readers k = c.readers k - [key].count k := by
  by_cases hk : k = key
  · subst hk
    rw [readers_finish_self h, count_singleton_self]
  · rw [count_singleton, if_neg (by simpa using Ne.symm hk), Nat.sub_zero]
    unfold readers
    rw [finish_of_ne hk]

theorem finish_eq_some {cell' : Cell} (h : (c.finish key).2 k = some cell') :
    ∃ cell, c k = some cell ∧ cell'.writeLocked = cell.writeLocked ∧
      cell'.isTemporary = cell.isTemporary ∧ cell'.readers ≤ cell.readers := by
  by_cases hk : k = key
  · subst hk
    unfold finish at h
    cases hc : c k with
    | none => simp [hc] at h
    | some cell =>
      refine ⟨cell, rfl, ?_⟩
      rw [hc] at h
      dsimp only at h
      split_ifs at h <;> simp [hc] at h <;> subst h <;> simp
  · rw [finish_of_ne hk] at h
    exact ⟨cell', h, rfl, rfl, le_rfl⟩

theorem Exclusive.finish (h : c.Exclusive k) (key : K) : (c.finish key).2.Exclusive k := by
  intro cell' hcell' hw'
  obtain ⟨cell, hcell, hw, -, hle⟩ := finish_eq_some hcell'
  have := h cell hcell (hw ▸ hw')
  omega

theorem Permanent.finish (h : c.Permanent) (key : K) : (c.finish key).2.Permanent := by
  intro k cell' hcell'
  obtain ⟨cell, hcell, -, ht, -⟩ := finish_eq_some hcell'
  rw [ht, h k cell hcell]

theorem Permanent.finish_fst (h : c.Permanent) (key : K) : (c.finish key).1.2 = none := by
  unfold Cells.finish
  cases hc : c key with
  | none => rfl
  | some cell =>
    have ht := h key cell hc
    grind

/-- **Finishing a list of keys.** -/
theorem readers_forKeys_finish {keys : List K} (h : ∀ key ∈ keys, c.Exclusive key) :
    (c.forKeys finish keys).2.readers k = c.readers k - keys.count k := by
  induction keys generalizing c with
  | nil => simp [forKeys]
  | cons key keys ih =>
    have hrest : ∀ key' ∈ keys, (c.finish key).2.Exclusive key' := fun key' hmem =>
      (h key' (mem_cons_of_mem _ hmem)).finish key
    rw [forKeys]
    rw [ih hrest, readers_finish (h key mem_cons_self), Nat.sub_sub, ← count_append,
      singleton_append]

theorem Exclusive.forKeys_finish (h : c.Exclusive k) (keys : List K) :
    (c.forKeys Cells.finish keys).2.Exclusive k := by
  induction keys generalizing c with
  | nil => exact h
  | cons key keys ih => exact ih (h.finish key)

theorem Permanent.forKeys_finish (h : c.Permanent) (keys : List K) :
    (∀ e ∈ (c.forKeys Cells.finish keys).1, e.2.2 = none) ∧
      (c.forKeys Cells.finish keys).2.Permanent := by
  induction keys generalizing c with
  | nil => exact ⟨by simp [forKeys], h⟩
  | cons key keys ih =>
    have hfirst := h.finish_fst key
    obtain ⟨hrest, hend⟩ := ih (h.finish key)
    refine ⟨fun e he => ?_, hend⟩
    rcases mem_cons.mp he with he | he
    · exact he ▸ hfirst
    · exact hrest e he

end finish

end Cells

end LMCache
