import Mathlib.Order.Lattice

/-! # Readings of a clock

A program reads its clock again and again; `clock i` is the answer to the `i`-th reading.
An instant lies *ahead* of the first `t` readings when none of them has reached it.  On a
monotone clock the last reading decides, and what no longer lies ahead never will again. -/

section
variable {α : Type} [LinearOrder α] {clock : ℕ → α} {t t' : ℕ} {x : α}

/-- None of the first `t` readings has reached `x`. -/
def Ahead (clock : ℕ → α) (t : ℕ) (x : α) : Prop := ∀ i < t, clock i < x

instance : Decidable (Ahead clock t x) := inferInstanceAs (Decidable (∀ i < t, clock i < x))

theorem Ahead.of_le (h : Ahead clock t' x) (ht : t ≤ t') : Ahead clock t x := fun i hi =>
  h i (hi.trans_le ht)

/-- The last reading decides. -/
theorem ahead_succ_iff (hc : Monotone clock) : Ahead clock (t + 1) x ↔ clock t < x := by
  constructor
  · intro h
    exact h t t.lt_succ_self
  · intro h i hi
    exact (hc (Nat.le_of_lt_succ hi)).trans_lt h

end
