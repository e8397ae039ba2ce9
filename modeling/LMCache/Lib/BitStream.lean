import Mathlib.Tactic.Ring
import Mathlib.Data.Nat.Bitwise

/-! # Bits, most significant first

* `msbBits n v` is the list of the low `n` bits of `v`.
* A stream is a function `ℕ → Bool`; `Follows s k l` says that it continues with the list `l`
  from position `k` on, and `word s k n` is the number written in the `n` bits from there.
* `byteStream` is the stream of an unbounded sequence of bytes. -/

namespace BitStream

open List

/-! ### Bits of a number -/

/-- The low `n` bits of `v`. -/
def msbBits : ℕ → ℕ → List Bool
  | 0, _ => []
  | n + 1, v => v.testBit n :: msbBits n v

@[simp] theorem msbBits_zero (v : ℕ) : msbBits 0 v = [] := rfl

@[simp] theorem length_msbBits (n v : ℕ) : (msbBits n v).length = n := by
  induction n with
  | zero => rfl
  | succ n ih => rw [msbBits, length_cons, ih]

theorem msbBits_congr {n v v' : ℕ} (h : ∀ i < n, v.testBit i = v'.testBit i) :
    msbBits n v = msbBits n v' := by
  induction n with
  | zero => rfl
  | succ n ih =>
    rw [msbBits, msbBits, h n (Nat.lt_succ_self n), ih fun i hi => h i (Nat.lt_succ_of_lt hi)]

/-- The high bits come first. -/
theorem msbBits_add (m n v : ℕ) : msbBits (m + n) v = msbBits m (v >>> n) ++ msbBits n v := by
  induction m with
  | zero => rw [Nat.zero_add, msbBits, nil_append]
  | succ m ih =>
    rw [Nat.add_right_comm, msbBits, ih, msbBits, Nat.testBit_shiftRight, Nat.add_comm n m,
      cons_append]

theorem msbBits_eq_replicate {n v : ℕ} {b : Bool} (h : ∀ i < n, v.testBit i = b) :
    msbBits n v = replicate n b := by
  induction n with
  | zero => rfl
  | succ n ih =>
    rw [msbBits, h n (Nat.lt_succ_self n), ih fun i hi => h i (Nat.lt_succ_of_lt hi),
      replicate_succ]

/-! ### Streams -/

/-- The stream `s` continues with `l` from position `k` on. -/
def Follows (s : ℕ → Bool) : ℕ → List Bool → Prop
  | _, [] => True
  | k, b :: l => s k = b ∧ Follows s (k + 1) l

variable {s : ℕ → Bool} {k : ℕ} {l l' : List Bool}

theorem follows_append : Follows s k (l ++ l') ↔ Follows s k l ∧ Follows s (k + l.length) l' := by
  induction l generalizing k with
  | nil => simp [Follows]
  | cons b l ih =>
    rw [cons_append, Follows, ih, Follows, and_assoc, length_cons, Nat.add_right_comm,
      Nat.add_assoc]

theorem follows_replicate {n : ℕ} {b : Bool} :
    Follows s k (replicate n b) ↔ ∀ i < n, s (k + i) = b := by
  induction n generalizing k with
  | zero => simp [Follows]
  | succ n ih =>
    rw [replicate_succ, Follows, ih]
    constructor
    · rintro ⟨h₀, h⟩ i hi
      cases i with
      | zero => exact h₀
      | succ i =>
        grind
    · intro h
      refine ⟨h 0 (Nat.succ_pos n), fun i hi => ?_⟩
      grind

/-- The number in the `n` bits from position `k` on. -/
def word (s : ℕ → Bool) (k : ℕ) : ℕ → ℕ
  | 0 => 0
  | n + 1 => 2 * word s k n + (s (k + n)).toNat

theorem word_lt (s : ℕ → Bool) (k n : ℕ) : word s k n < 2 ^ n := by
  induction n with
  | zero => exact Nat.one_pos
  | succ n ih =>
    have := Bool.toNat_le (s (k + n))
    rw [word, pow_succ]
    omega

/-- The first bit is the most significant one. -/
theorem word_succ (s : ℕ → Bool) (k n : ℕ) :
    word s k (n + 1) = (s k).toNat * 2 ^ n + word s (k + 1) n := by
  induction n with
  | zero => simp [word]
  | succ n ih =>
    rw [word, ih, word, pow_succ, show k + (n + 1) = k + 1 + n by omega]
    ring

/-- The word of a stream that continues with the bits of `v`. -/
theorem word_of_follows {n v : ℕ} (h : Follows s k (msbBits n v)) : word s k n = v % 2 ^ n := by
  induction n generalizing k with
  | zero => rw [word, pow_zero, Nat.mod_one]
  | succ n ih =>
    obtain ⟨hbit, hrest⟩ := h
    rw [word_succ, ih hrest, hbit, Nat.testBit_eq_decide_div_mod_eq, pow_succ, Nat.mod_mul]
    grind

/-! ### Bytes -/

/-- The bits of a sequence of bytes. -/
def byteStream (bytes : ℕ → BitVec 8) (i : ℕ) : Bool := (bytes (i / 8)).toNat.testBit (7 - i % 8)

/-- The bits of a list of bytes. -/
def byteBits (l : List (BitVec 8)) : List Bool := l.flatMap fun b => msbBits 8 b.toNat

@[simp] theorem byteBits_nil : byteBits [] = [] := rfl

@[simp] theorem byteBits_cons (b : BitVec 8) (l : List (BitVec 8)) :
    byteBits (b :: l) = msbBits 8 b.toNat ++ byteBits l := flatMap_cons

theorem byteBits_append (l l' : List (BitVec 8)) : byteBits (l ++ l') = byteBits l ++ byteBits l' :=
  flatMap_append

theorem length_byteBits (l : List (BitVec 8)) : (byteBits l).length = 8 * l.length := by
  induction l with
  | nil => rfl
  | cons b l ih =>
    rw [byteBits_cons, length_append, length_msbBits, ih, length_cons]
    omega

theorem follows_msbBits {n v : ℕ} (h : ∀ i < n, s (k + i) = v.testBit (n - 1 - i)) :
    Follows s k (msbBits n v) := by
  induction n generalizing k with
  | zero => trivial
  | succ n ih =>
    refine ⟨h 0 (Nat.succ_pos n), ih fun i hi => ?_⟩
    grind

theorem byteStream_byte (bytes : ℕ → BitVec 8) (k : ℕ) :
    Follows (byteStream bytes) (8 * k) (msbBits 8 (bytes k).toNat) := by
  apply follows_msbBits
  intro i hi
  rw [byteStream, show (8 * k + i) / 8 = k by omega, show (8 * k + i) % 8 = i by omega]

/-- The bits of the bytes in a list are the stream of a sequence that begins with them. -/
theorem byteStream_follows {bytes : ℕ → BitVec 8} {l : List (BitVec 8)} {k : ℕ}
    (h : ∀ i b, l[i]? = some b → bytes (k + i) = b) :
    Follows (byteStream bytes) (8 * k) (byteBits l) := by
  induction l generalizing k with
  | nil => trivial
  | cons b l ih =>
    rw [byteBits_cons, follows_append, length_msbBits]
    refine ⟨?_, ?_⟩
    · have := byteStream_byte bytes k
      rwa [show bytes k = b from h 0 b rfl] at this
    · rw [show 8 * k + 8 = 8 * (k + 1) by omega]
      apply ih
      intro i b' hb'
      rw [show k + 1 + i = k + (i + 1) by omega]
      exact h (i + 1) b' hb'

end BitStream
