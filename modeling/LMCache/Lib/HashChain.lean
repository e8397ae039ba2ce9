import Mathlib.Data.List.Range

/-! # Hash chains over the chunks of a list

A list is cut into chunks of `n` elements, the last of which may be shorter, and every chunk
is hashed together with the hash of the chunks before it.  `chainHash f h₀ n l i` is the hash
of the first `i` chunks.

`chainHash_congr`: it depends on the first `i * n` elements only.  `chainHash_inj`: when the
hash function is injective and `h₀` is not one of its values, it determines the number of the
chunks and these elements. -/

namespace HashChain

open List

variable {α H : Type*}

/-- The chunk number `i`. -/
def chunk (n : ℕ) (l : List α) (i : ℕ) : List α := (l.drop (i * n)).take n

/-- The hash of the first chunks. -/
def chainHash (f : H → List α → H) (h₀ : H) (n : ℕ) (l : List α) : ℕ → H
  | 0 => h₀
  | i + 1 => f (chainHash f h₀ n l i) (chunk n l i)

variable {f : H → List α → H} {h₀ : H} {n : ℕ}

theorem take_succ_mul (n : ℕ) (l : List α) (i : ℕ) :
    l.take ((i + 1) * n) = l.take (i * n) ++ chunk n l i := by
  rw [Nat.succ_mul, take_add, chunk]

theorem chunk_take (l : List α) {i k : ℕ} (h : i < k) :
    chunk n (l.take (k * n)) i = chunk n l i := by
  have hle : (i + 1) * n ≤ k * n := Nat.mul_le_mul_right n h
  rw [Nat.succ_mul] at hle
  rw [chunk, chunk, drop_take, take_take]
  congr 1
  omega

theorem chainHash_take (l : List α) {i k : ℕ} (h : i ≤ k) :
    chainHash f h₀ n (l.take (k * n)) i = chainHash f h₀ n l i := by
  induction i with
  | zero => rfl
  | succ i ih => rw [chainHash, chainHash, ih (Nat.le_of_succ_le h), chunk_take l h]

/-- The hash depends on the first elements only. -/
theorem chainHash_congr {l l' : List α} {i : ℕ} (h : l.take (i * n) = l'.take (i * n)) :
    chainHash f h₀ n l i = chainHash f h₀ n l' i := by
  rw [← chainHash_take l le_rfl, h, chainHash_take l' le_rfl]

/-- **Chains are injective.**  A longer chain cannot have the hash of a shorter one, because
going back from both, the shorter one arrives at `h₀`. -/
theorem chainHash_inj (hinj : ∀ p t p' t', f p t = f p' t' → p = p' ∧ t = t')
    (hnone : ∀ p t, f p t ≠ h₀) {l l' : List α} {i j : ℕ}
    (h : chainHash f h₀ n l i = chainHash f h₀ n l' j) :
    i = j ∧ l.take (i * n) = l'.take (j * n) := by
  induction i generalizing j with
  | zero =>
    cases j with
    | zero => exact ⟨rfl, by rw [Nat.zero_mul, take_zero, take_zero]⟩
    | succ j => exact absurd h.symm (hnone _ _)
  | succ i ih =>
    cases j with
    | zero => exact absurd h (hnone _ _)
    | succ j =>
      obtain ⟨hprev, hchunk⟩ := hinj _ _ _ _ h
      obtain ⟨rfl, htake⟩ := ih hprev
      refine ⟨rfl, ?_⟩
      rw [take_succ_mul, take_succ_mul, htake, hchunk]

/-- The hashes of all prefixes, computed along a list of chunks. -/
def scan (f : H → List α → H) : H → List (List α) → List H
  | _, [] => []
  | h, c :: cs => f h c :: scan f (f h c) cs

theorem scan_chunks (f : H → List α → H) (h₀ : H) (n : ℕ) (l : List α) (k m : ℕ) :
    scan f (chainHash f h₀ n l k) ((range' k m).map (chunk n l)) =
      (range' k m).map fun i => chainHash f h₀ n l (i + 1) := by
  induction m generalizing k with
  | zero => rfl
  | succ m ih =>
    rw [range'_succ, map_cons, map_cons, scan]
    congr 1
    exact ih (k + 1)

end HashChain
