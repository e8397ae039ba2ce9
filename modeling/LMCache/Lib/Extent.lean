import Mathlib

/-! # Extents: half-open ranges of addresses

`cover l x` counts the extents of `l` that contain the address `x`.  It is additive in
`l`, so splitting, joining and moving extents between two lists become equations between
counts.  `Tiles l n` says that `l` covers every address below `n` exactly once and no
other address: `l` partitions `[0, n)`.  Bounds, disjointness and the total size of the
members all follow from it (`Tiles.stop_le`, `Tiles.disjoint`, `Tiles.total`).

`GapSorted` lists are sorted by address with a gap before every member after the first,
which is the normal form of a free list: no two members overlap or touch. -/

/-- The range `[start, start + size)`. -/
structure Extent where
  start : ℕ
  size : ℕ
deriving DecidableEq, Repr

namespace Extent

open List

/-- First address after the extent. -/
def stop (e : Extent) : ℕ := e.start + e.size

/-- Indicator of the extent at the address `x`. -/
def ind (e : Extent) (x : ℕ) : ℕ := if e.start ≤ x ∧ x < e.stop then 1 else 0

/-- Number of members of `l` that contain `x`. -/
def cover (l : List Extent) (x : ℕ) : ℕ := (l.map fun e => e.ind x).sum

/-- Total size of the members of `l`. -/
def total (l : List Extent) : ℕ := (l.map size).sum

@[simp, grind =] theorem stop_mk (s n : ℕ) : (mk s n).stop = s + n := rfl

@[simp, grind =] theorem cover_nil (x : ℕ) : cover [] x = 0 := rfl

@[simp, grind =] theorem cover_cons (e : Extent) (l : List Extent) (x : ℕ) :
    cover (e :: l) x = e.ind x + cover l x := by simp [cover]

@[simp, grind =] theorem cover_append (l₁ l₂ : List Extent) (x : ℕ) :
    cover (l₁ ++ l₂) x = cover l₁ x + cover l₂ x := by simp [cover]

@[simp, grind =] theorem total_nil : total [] = 0 := rfl

@[simp, grind =] theorem total_cons (e : Extent) (l : List Extent) :
    total (e :: l) = e.size + total l := by
  simp [total]

@[simp, grind =] theorem total_append (l₁ l₂ : List Extent) :
    total (l₁ ++ l₂) = total l₁ + total l₂ := by
  simp [total]

variable {l l₁ l₂ : List Extent} {e : Extent}

theorem cover_perm (h : l₁.Perm l₂) (x : ℕ) : cover l₁ x = cover l₂ x :=
  (h.map _).sum_eq

theorem ind_le_one (e : Extent) (x : ℕ) : e.ind x ≤ 1 := by
  unfold ind
  split_ifs <;> omega

theorem ind_eq_one_iff {x : ℕ} : e.ind x = 1 ↔ e.start ≤ x ∧ x < e.stop := by
  unfold ind
  split_ifs with h <;> simp [h]

theorem ind_eq_zero_iff {x : ℕ} : e.ind x = 0 ↔ x < e.start ∨ e.stop ≤ x := by
  grind [ind]

/-- Two adjacent extents cover what their union covers. -/
theorem ind_join (s a b x : ℕ) : (mk s a).ind x + (mk (s + a) b).ind x = (mk s (a + b)).ind x := by
  grind [ind, stop]

theorem ind_add_ind {d : Extent} (h : d.stop = e.start) (x : ℕ) :
    d.ind x + e.ind x = (mk d.start (d.size + e.size)).ind x := by
  rw [← ind_join d.start, show d.start + d.size = e.start from h]

theorem ind_size_zero (s x : ℕ) : (mk s 0).ind x = 0 := by
  rw [ind_eq_zero_iff, stop_mk]
  show x < s ∨ _
  omega

theorem ind_le_cover (h : e ∈ l) (x : ℕ) : e.ind x ≤ cover l x :=
  single_le_sum (by simp) _ (mem_map_of_mem h)

theorem exists_of_cover_pos {x : ℕ} (h : 0 < cover l x) : ∃ e ∈ l, e.start ≤ x ∧ x < e.stop := by
  induction l with
  | nil => simp at h
  | cons e l ih =>
    rw [cover_cons] at h
    by_cases he : e.ind x = 0
    · grind
    · have := e.ind_le_one x
      exact ⟨e, mem_cons_self, ind_eq_one_iff.mp (by omega)⟩

/-! ### Partitions of an initial segment -/

/-- `l` partitions `[0, n)`: every address below `n` is in exactly one member (counted
with multiplicity), every other address in none. -/
def Tiles (l : List Extent) (n : ℕ) : Prop := ∀ x, cover l x = if x < n then 1 else 0

section tiles
variable {l l₁ l₂ : List Extent} {n : ℕ}

theorem Tiles.cover_le_one (h : Tiles l n) (x : ℕ) : cover l x ≤ 1 := by
  rw [h x]
  split_ifs <;> omega

/-- The members of a partition of `[0, n)` lie below `n`. -/
theorem Tiles.stop_le (h : Tiles l n) {e : Extent} (he : e ∈ l) (hpos : 0 < e.size) :
    e.stop ≤ n := by
  have h1 := ind_le_cover he (e.stop - 1)
  have h2 : e.ind (e.stop - 1) = 1 := ind_eq_one_iff.mpr (by simp only [stop]; omega)
  rw [h (e.stop - 1), h2] at h1
  grind

/-- Members of the two halves of a partition do not meet. -/
theorem Tiles.disjoint (h : Tiles (l₁ ++ l₂) n) {e₁ e₂ : Extent} (h₁ : e₁ ∈ l₁) (h₂ : e₂ ∈ l₂)
    (p₁ : 0 < e₁.size) (p₂ : 0 < e₂.size) : e₁.stop ≤ e₂.start ∨ e₂.stop ≤ e₁.start := by
  by_contra hc
  have hle := h.cover_le_one (max e₁.start e₂.start)
  rw [cover_append] at hle
  have i₁ := ind_le_cover h₁ (max e₁.start e₂.start)
  have i₂ := ind_le_cover h₂ (max e₁.start e₂.start)
  have c₁ : e₁.ind (max e₁.start e₂.start) = 1 :=
    ind_eq_one_iff.mpr (by simp only [stop] at *; omega)
  have c₂ : e₂.ind (max e₁.start e₂.start) = 1 :=
    ind_eq_one_iff.mpr (by simp only [stop] at *; omega)
  omega

/-- Extents that cover every address at most once are pairwise disjoint. -/
theorem pairwise_disjoint_of_cover_le_one (h : ∀ x, cover l x ≤ 1) :
    l.Pairwise fun a b => Disjoint (Set.Ico a.start a.stop) (Set.Ico b.start b.stop) := by
  induction l with
  | nil => exact List.Pairwise.nil
  | cons a l ih =>
    refine List.Pairwise.cons (fun b hb => ?_) (ih fun x => ?_)
    · rw [Set.disjoint_left]
      intro x hxa hxb
      have h1 : a.ind x = 1 := ind_eq_one_iff.mpr hxa
      have h2 : b.ind x = 1 := ind_eq_one_iff.mpr hxb
      have h3 := ind_le_cover hb x
      have := h x
      rw [cover_cons] at this
      omega
    · have := h x
      rw [cover_cons] at this
      omega

theorem sum_range_ind {e : Extent} {n : ℕ} (h : e.size = 0 ∨ e.stop ≤ n) :
    ∑ x ∈ Finset.range n, e.ind x = e.size := by
  have hset : (Finset.range n).filter (fun x => e.start ≤ x ∧ x < e.stop) =
      Finset.Ico e.start e.stop := by
    ext x
    simp only [Finset.mem_filter, Finset.mem_range, Finset.mem_Ico]
    simp only [stop] at *
    omega
  unfold ind
  rw [Finset.sum_boole, hset, Nat.card_Ico]
  simp [stop]

theorem sum_range_cover (h : ∀ e ∈ l, e.size = 0 ∨ e.stop ≤ n) :
    ∑ x ∈ Finset.range n, cover l x = total l := by
  induction l with
  | nil => simp
  | cons e l ih =>
    simp only [cover_cons, total_cons, Finset.sum_add_distrib]
    rw [sum_range_ind (h e mem_cons_self), ih (forall_mem_cons.mp h).2]

/-- The sizes of a partition of `[0, n)` add up to `n`. -/
theorem Tiles.total (h : Tiles l n) : total l = n := by
  rw [← sum_range_cover (n := n)]
  · rw [Finset.sum_congr rfl fun x hx => by rw [h x, if_pos (Finset.mem_range.mp hx)]]
    simp
  · intro e he
    rcases Nat.eq_zero_or_pos e.size with h0 | hp
    · exact Or.inl h0
    · exact Or.inr (h.stop_le he hp)

end tiles

theorem total_eq_of_cover (h : ∀ x, cover l₁ x = cover l₂ x) : total l₁ = total l₂ := by
  have hle : ∀ l : List Extent, ∀ e ∈ l, e.stop ≤ (l.map stop).sum := fun l e he =>
    single_le_sum (by simp) _ (mem_map_of_mem he)
  rw [← sum_range_cover (l := l₁) (n := (l₁.map stop).sum + (l₂.map stop).sum),
    ← sum_range_cover (l := l₂) (n := (l₁.map stop).sum + (l₂.map stop).sum)]
  · exact Finset.sum_congr rfl fun x _ => h x
  · grind
  · grind

/-! ### Gap-sorted lists -/

/-- Sorted by address, with at least one address between consecutive members. -/
def GapSorted (l : List Extent) : Prop := l.Pairwise fun a b => a.stop < b.start

theorem gapSorted_append :
    GapSorted (l₁ ++ l₂) ↔
      GapSorted l₁ ∧ GapSorted l₂ ∧ ∀ a ∈ l₁, ∀ b ∈ l₂, a.stop < b.start :=
  pairwise_append

theorem gapSorted_cons : GapSorted (e :: l) ↔ (∀ b ∈ l, e.stop < b.start) ∧ GapSorted l :=
  pairwise_cons

theorem gapSorted_middle :
    GapSorted (l₁ ++ e :: l₂) ↔ GapSorted (l₁ ++ l₂) ∧
      (∀ a ∈ l₁, a.stop < e.start) ∧ ∀ b ∈ l₂, e.stop < b.start := by
  simp only [gapSorted_append, gapSorted_cons, mem_cons]
  grind

theorem GapSorted.stop_lt (h : GapSorted l) {a b : Extent} (ha : a ∈ l) (hb : b ∈ l)
    (hab : a.start < b.start) : a.stop < b.start := by
  induction l with
  | nil => simp at ha
  | cons e l ih =>
    obtain ⟨he, hl⟩ := gapSorted_cons.mp h
    rcases mem_cons.mp ha with rfl | ha' <;> rcases mem_cons.mp hb with rfl | hb'
    · omega
    · exact he b hb'
    · have := he a ha'
      simp only [stop] at this
      omega
    · exact ih hl ha' hb'

theorem GapSorted.sublist (h : GapSorted l₂) (hs : l₁.Sublist l₂) :
    GapSorted l₁ := List.Pairwise.sublist hs h

end Extent
