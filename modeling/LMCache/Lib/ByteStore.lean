import Mathlib.Data.List.Range

/-! # Flat stores

A store gives every address a cell.  `write` puts a list of cells at an address, `writeAll` makes
one write after the other, and `read` takes the cells of a range.

* `write_append`: a write can be made in pieces.
* `writeAll_congr`: writes do not spread differences between two stores.
* `read_write`: what was written is read. -/

namespace ByteStore

open List

variable {α : Type}

/-- The cells `bs` at the addresses from `a` on. -/
def write (d : ℕ → α) (a : ℕ) (bs : List α) : ℕ → α := fun x =>
  if a ≤ x then bs[x - a]?.getD (d x) else d x

/-- One write after the other. -/
def writeAll (d : ℕ → α) (ws : List (ℕ × List α)) : ℕ → α :=
  ws.foldl (fun d w => write d w.1 w.2) d

/-- The `n` cells from `a` on. -/
def read (d : ℕ → α) (a n : ℕ) : List α := (List.range n).map fun i => d (a + i)

section lemmas
variable {d d' : ℕ → α} {a n x : ℕ} {bs : List α}

@[simp] theorem length_read : (read d a n).length = n := by simp [read]

@[simp] theorem write_nil : write d a [] = d := by
  funext x
  simp [write]

@[simp] theorem writeAll_nil : writeAll d [] = d := rfl

@[simp] theorem writeAll_cons (w : ℕ × List α) (ws : List (ℕ × List α)) :
    writeAll d (w :: ws) = writeAll (write d w.1 w.2) ws := rfl

theorem write_outside (h : x < a ∨ a + bs.length ≤ x) : write d a bs x = d x := by
  unfold write
  grind

/-- A write in two pieces. -/
theorem write_append (d : ℕ → α) (a : ℕ) (xs ys : List α) :
    write d a (xs ++ ys) = write (write d a xs) (a + xs.length) ys := by
  funext x
  by_cases hx : x < a + xs.length
  · rw [write_outside (d := write d a xs) (Or.inl hx)]
    unfold write
    grind
  · have hout : write d a xs x = d x := write_outside (Or.inr (Nat.not_lt.mp hx))
    have hpos : (xs ++ ys)[x - a]? = ys[x - (a + xs.length)]? := by
      grind
    unfold write at hout ⊢
    rw [if_pos (by omega : a ≤ x), if_pos (by omega : a + xs.length ≤ x), hpos, hout]

/-- The same for a list that is cut. -/
theorem write_take_drop (d : ℕ → α) (a n : ℕ) (bs : List α) :
    write d a bs = write (write d a (bs.take n)) (a + n) (bs.drop n) := by
  by_cases hn : n ≤ bs.length
  · conv_lhs => rw [← take_append_drop n bs, write_append, length_take, min_eq_left hn]
  · rw [drop_eq_nil_of_le (by omega), take_of_length_le (by omega), write_nil]

theorem write_congr (h : d x = d' x) : write d a bs x = write d' a bs x := by
  unfold write
  rw [h]

/-- **Writes are local**: a cell depends on the store below only through itself. -/
theorem writeAll_congr (ws : List (ℕ × List α)) (h : d x = d' x) :
    writeAll d ws x = writeAll d' ws x := by
  induction ws generalizing d d' with
  | nil => exact h
  | cons w ws ih => exact ih (write_congr h)

theorem read_congr (h : ∀ x, a ≤ x → x < a + n → d x = d' x) : read d a n = read d' a n := by
  refine map_congr_left fun i hi => h (a + i) (Nat.le_add_right _ _) ?_
  rw [mem_range] at hi
  omega

/-- **Reading back.** -/
theorem read_write (d : ℕ → α) (a : ℕ) (bs : List α) : read (write d a bs) a bs.length = bs := by
  refine ext_getElem (by simp) fun i hi hi' => ?_
  simp [read, write, getElem?_eq_getElem hi']

theorem read_take {m : ℕ} (h : m ≤ n) : read d a m = (read d a n).take m := by
  rw [read, read, ← map_take, take_range, min_eq_left h]

theorem read_append (d : ℕ → α) (a m k : ℕ) :
    read d a (m + k) = read d a m ++ read d (a + m) k := by
  simp [read, range_add, Function.comp_def, Nat.add_assoc]

/-- A later piece of a read. -/
theorem read_add {m k : ℕ} (h : m + k ≤ n) : read d (a + m) k = ((read d a n).drop m).take k := by
  refine ext_getElem ?_ fun i hi hi' => ?_
  · rw [length_read, length_take, length_drop, length_read]
    omega
  · rw [getElem_take, getElem_drop]
    simp [read, Nat.add_assoc]

end lemmas

end ByteStore
