import LMCache.CacheGen.Kernels
import LMCache.Lib.IntervalCoder

/-! # The CDF splits a range

`bound` is the row of the CDF with its end: 65536 stands in the place of the last entry, as
`c_high` of the last symbol.  The part of a symbol runs from its own bound to the next
(`part`), and since a normal range has more than 65536 numbers, no part is empty.

* `range_new` is the 32-bit arithmetic of both kernels, with its wrap-around at `low - 1`.
* `le_count_iff` connects `count` with the parts, and `binsearchLoop_spec` says what the binary
  search finds; so the decoder finds the symbol whose part its value is in
  (`binsearch_count`). -/

namespace LMCache.CacheGen

open IntervalCoder
open BitVec (toNat_setWidth toNat_add toNat_sub ofNat)

/-- The rows that are meant: at most 48 strictly increasing entries from 0 on. -/
structure ValidRow (lp : ℕ) (cdf : List (BitVec 16)) : Prop where
  le : lp ≤ 48
  length : cdf.length = lp
  sorted : cdf.Pairwise (· < ·)
  zero : cdfAt cdf 0 = 0

def bound (lp : ℕ) (cdf : List (BitVec 16)) (i : ℕ) : ℕ :=
  if i + 1 = lp then 2 ^ 16 else (cdfAt cdf i).toNat

/-- The part of a range that belongs to a symbol. -/
def part (lp : ℕ) (cdf : List (BitVec 16)) (sym : BitVec 8) (r : Range) : Range :=
  ⟨r.low + (r.high - r.low + 1) * bound lp cdf sym.toNat / 65536,
    r.low - 1 + (r.high - r.low + 1) * bound lp cdf (sym.toNat + 1) / 65536⟩

def IsSymbol (lp : ℕ) (sym : BitVec 8) : Prop := sym.toNat + 2 ≤ lp

/-! ### Bounds -/

section bounds
variable {lp : ℕ} {cdf : List (BitVec 16)}

theorem bound_le (lp : ℕ) (cdf : List (BitVec 16)) (i : ℕ) : bound lp cdf i ≤ 2 ^ 16 := by
  unfold bound
  split_ifs
  · exact le_rfl
  · exact (cdfAt cdf i).isLt.le

theorem bound_of_lt {i : ℕ} (hi : i + 2 ≤ lp) : bound lp cdf i = (cdfAt cdf i).toNat := by
  rw [bound, if_neg (by omega)]

theorem ValidRow.bound_lt (h : ValidRow lp cdf) {i j : ℕ} (hij : i < j) (hj : j < lp) :
    bound lp cdf i < bound lp cdf j := by
  rw [bound_of_lt (by omega)]
  fun_cases bound
  · exact (cdfAt cdf i).isLt
  · have hj' : j < cdf.length := h.length.symm ▸ hj
    have hlt := List.pairwise_iff_getElem.mp h.sorted i j (hij.trans hj') hj' hij
    rw [cdfAt, cdfAt, List.getD_eq_getElem _ _ (hij.trans hj'), List.getD_eq_getElem _ _ hj']
    exact hlt

theorem ValidRow.bound_le_bound (h : ValidRow lp cdf) {i j : ℕ} (hij : i ≤ j) (hj : j < lp) :
    bound lp cdf i ≤ bound lp cdf j := by
  rcases Nat.lt_or_eq_of_le hij with hlt | heq
  · exact (h.bound_lt hlt hj).le
  · rw [heq]

theorem ValidRow.bound_zero (h : ValidRow lp cdf) (hlp : 2 ≤ lp) : bound lp cdf 0 = 0 := by
  rw [bound_of_lt hlp, h.zero]
  rfl

theorem toNat_cLow {i : ℕ} (hi : i + 2 ≤ lp) : (cLow cdf i).toNat = bound lp cdf i := by
  rw [bound_of_lt hi, cLow, toNat_setWidth, Nat.mod_eq_of_lt (by omega)]

theorem toNat_cHigh (lp : ℕ) (cdf : List (BitVec 16)) (i : ℕ) :
    (cHigh lp cdf i).toNat = bound lp cdf (i + 1) := by
  have := (cdfAt cdf (i + 1)).isLt
  unfold cHigh bound maxSymbol
  grind

end bounds

/-! ### Parts -/

section parts
variable {lp : ℕ} {cdf : List (BitVec 16)} {sym sym' : BitVec 8} {r : Range}

theorem mul_bound_lt {n : ℤ} (hn : 65536 ≤ n) {b b' : ℕ} (hb : b < b') :
    n * b / 65536 < n * b' / 65536 := by
  have hmul : n * b + n ≤ n * b' := by
    calc n * b + n = n * (b + 1 : ℕ) := by push_cast; ring
      _ ≤ n * b' := by
        apply mul_le_mul_of_nonneg_left
        · exact_mod_cast hb
        · omega
  omega

theorem mul_bound_le {n : ℤ} (hn : 0 ≤ n) {b b' : ℕ} (hb : b ≤ b') :
    n * b / 65536 ≤ n * b' / 65536 := by
  have hmul : n * b ≤ n * b' := by
    apply mul_le_mul_of_nonneg_left
    · exact_mod_cast hb
    · exact hn
  omega

theorem ValidRow.part_valid (h : ValidRow lp cdf) (hsym : IsSymbol lp sym) (hr : r.Normal 30) :
    (part lp cdf sym r).Valid 30 ∧ ∀ v, v ∈ part lp cdf sym r → v ∈ r := by
  have hspan := hr.span
  have hnonneg := hr.nonneg
  have hlt := hr.lt
  have hlow := mul_bound_le (n := r.high - r.low + 1) (by omega)
    (Nat.zero_le (bound lp cdf sym.toNat))
  have hstep := mul_bound_lt (n := r.high - r.low + 1) (by omega)
    (h.bound_lt (Nat.lt_add_one sym.toNat) hsym)
  have htop := mul_bound_le (n := r.high - r.low + 1) (by omega)
    (bound_le lp cdf (sym.toNat + 1))
  have htop' : (r.high - r.low + 1) * (2 ^ 16 : ℕ) / 65536 = r.high - r.low + 1 := by
    push_cast
    omega
  unfold part
  refine ⟨⟨?_, ?_, ?_⟩, fun v hv => ?_⟩
  · dsimp only
    omega
  · dsimp only
    omega
  · dsimp only
    omega
  · rw [mem_range] at hv ⊢
    dsimp only at hv
    omega

theorem ValidRow.part_disjoint (h : ValidRow lp cdf) (hsym : IsSymbol lp sym)
    (hsym' : IsSymbol lp sym') (hr : r.Valid 30) {v : ℤ} (hv : v ∈ part lp cdf sym r)
    (hv' : v ∈ part lp cdf sym' r) : sym = sym' := by
  have hle := hr.le
  have hapart : ∀ {a a' : BitVec 8}, IsSymbol lp a' → a.toNat < a'.toNat →
      v ∈ part lp cdf a r → ¬ v ∈ part lp cdf a' r := by
    intro a a' ha' hlt hmem hmem'
    have hbound := mul_bound_le (n := r.high - r.low + 1) (by omega)
      (h.bound_le_bound (i := a.toNat + 1) (j := a'.toNat) hlt (by unfold IsSymbol at ha'; omega))
    rw [mem_range, part] at hmem hmem'
    dsimp only at hmem hmem'
    omega
  apply BitVec.eq_of_toNat_eq
  grind

end parts

/-! ### The registers -/

def rangeOf (low high : BitVec 32) : Range := ⟨low.toNat, high.toNat⟩

section registers
variable {low high : BitVec 32}

section
variable (h : low.toNat ≤ high.toNat)

include h

theorem toNat_span : (span low high).toNat = high.toNat - low.toNat + 1 := by
  unfold span
  rw [toNat_add, toNat_sub, toNat_setWidth, toNat_setWidth, show (1 : BitVec 64).toNat = 1 from rfl]
  omega

variable {c : BitVec 32}

theorem toNat_scaled (hc : c.toNat ≤ 2 ^ 16) :
    ((span low high * c.setWidth 64) >>> 16).toNat =
      (high.toNat - low.toNat + 1) * c.toNat / 65536 := by
  have hmul : (high.toNat - low.toNat + 1) * c.toNat ≤ 2 ^ 32 * 2 ^ 16 := by
    apply Nat.mul_le_mul
    · omega
    · exact hc
  rw [BitVec.toNat_ushiftRight, BitVec.toNat_mul, toNat_span h, toNat_setWidth,
    Nat.mod_eq_of_lt (a := c.toNat) (by omega), Nat.mod_eq_of_lt (by omega),
    Nat.shiftRight_eq_div_pow]

theorem toNat_newLow (hc : c.toNat < 2 ^ 16) :
    (newLow low high c).toNat = low.toNat + (high.toNat - low.toNat + 1) * c.toNat / 65536 := by
  have hlt : (high.toNat - low.toNat + 1) * c.toNat / 65536 < high.toNat - low.toNat + 1 := by
    apply Nat.div_lt_of_lt_mul
    rw [Nat.mul_comm 65536]
    exact Nat.mul_lt_mul_of_pos_left hc (Nat.succ_pos _)
  unfold newLow
  rw [toNat_setWidth, toNat_add, toNat_scaled h hc.le, toNat_setWidth]
  omega

theorem toNat_newHigh (hc : c.toNat ≤ 2 ^ 16)
    (hpos : 0 < (high.toNat - low.toNat + 1) * c.toNat / 65536) :
    (newHigh low high c).toNat + 1 =
      low.toNat + (high.toNat - low.toNat + 1) * c.toNat / 65536 := by
  have hle : (high.toNat - low.toNat + 1) * c.toNat / 65536 ≤ high.toNat - low.toNat + 1 := by
    apply Nat.div_le_of_le_mul
    rw [Nat.mul_comm 65536]
    exact Nat.mul_le_mul_left _ hc
  unfold newHigh
  rw [toNat_setWidth, toNat_add, toNat_scaled h hc, toNat_setWidth,
    toNat_sub, show (1 : BitVec 32).toNat = 1 from rfl]
  omega

theorem cast_scaled (b : ℕ) :
    (((high.toNat - low.toNat + 1) * b / 65536 : ℕ) : ℤ) =
      ((high.toNat : ℤ) - low.toNat + 1) * b / 65536 := by
  push_cast [Nat.cast_sub h]
  rfl

end

/-- **The range of a symbol**, as both kernels compute it. -/
theorem ValidRow.range_new {lp : ℕ} {cdf : List (BitVec 16)} (hrow : ValidRow lp cdf)
    {sym : BitVec 8} (hsym : IsSymbol lp sym) (hr : (rangeOf low high).Normal 30) :
    rangeOf (newLow low high (cLow cdf sym.toNat)) (newHigh low high (cHigh lp cdf sym.toNat)) =
      part lp cdf sym (rangeOf low high) := by
  have hle : low.toNat ≤ high.toNat := Int.ofNat_le.mp hr.le
  have hspan : 2 ^ 30 < (high.toNat : ℤ) - low.toNat + 1 := hr.span
  have hclow : (cLow cdf sym.toNat).toNat < 2 ^ 16 := by
    rw [toNat_cLow hsym, bound_of_lt hsym]
    exact (cdfAt cdf sym.toNat).isLt
  have hchigh : (cHigh lp cdf sym.toNat).toNat ≤ 2 ^ 16 := by
    rw [toNat_cHigh]
    exact bound_le lp cdf _
  have hstep := mul_bound_lt (n := (high.toNat : ℤ) - low.toNat + 1) (by omega)
    (hrow.bound_lt (Nat.lt_add_one sym.toNat) hsym)
  rw [← cast_scaled hle, ← cast_scaled hle] at hstep
  have hlow := toNat_newLow hle hclow
  have hhigh := toNat_newHigh hle hchigh (by rw [toNat_cHigh]; omega)
  rw [toNat_cLow hsym] at hlow
  rw [toNat_cHigh] at hhigh
  unfold rangeOf part
  grind

end registers

/-! ### The decoder's search -/

section search
variable {d : Decoder}

theorem toNat_numerator {low value : BitVec 32} (h : low.toNat ≤ value.toNat) :
    ((value.setWidth 64 - low.setWidth 64 + 1) * 0x10000 - 1).toNat =
      (value.toNat - low.toNat + 1) * 65536 - 1 := by
  rw [toNat_sub, BitVec.toNat_mul, toNat_add, toNat_sub,
    toNat_setWidth, toNat_setWidth, show (1 : BitVec 64).toNat = 1 from rfl,
    show (0x10000 : BitVec 64).toNat = 65536 from rfl]
  omega

theorem toNat_count (hlow : d.low.toNat ≤ d.value.toNat) (hhigh : d.value.toNat ≤ d.high.toNat) :
    d.count.toNat =
      ((d.value.toNat - d.low.toNat + 1) * 65536 - 1) / (d.high.toNat - d.low.toNat + 1) := by
  have hdiv : ((d.value.toNat - d.low.toNat + 1) * 65536 - 1) / (d.high.toNat - d.low.toNat + 1) <
      2 ^ 16 := by
    apply Nat.div_lt_of_lt_mul
    omega
  unfold Decoder.count
  rw [toNat_setWidth, BitVec.toNat_udiv, toNat_span (hlow.trans hhigh),
    toNat_numerator hlow, Nat.mod_eq_of_lt hdiv]

theorem le_count_iff (hlow : d.low.toNat ≤ d.value.toNat) (hhigh : d.value.toNat ≤ d.high.toNat)
    (b : ℕ) : b ≤ d.count.toNat ↔
      d.low.toNat + (d.high.toNat - d.low.toNat + 1) * b / 65536 ≤ d.value.toNat := by
  have hpos : 0 < d.high.toNat - d.low.toNat + 1 := Nat.succ_pos _
  rw [toNat_count hlow hhigh, Nat.le_div_iff_mul_le hpos, Nat.mul_comm b]
  omega

variable {lp : ℕ} {cdf : List (BitVec 16)}

theorem ValidRow.binsearchLoop_spec (h : ValidRow lp cdf) (target : BitVec 16) (fuel left : ℕ)
    {right : ℕ} (hlr : left < right) (hright : right < lp) (hfuel : right ≤ left + fuel)
    (hleft : bound lp cdf left ≤ target.toNat) (htarget : target.toNat < bound lp cdf right) :
    ∃ m, binsearchLoop cdf target fuel left right = some m ∧ m + 2 ≤ lp ∧
      bound lp cdf m ≤ target.toNat ∧ target.toNat < bound lp cdf (m + 1) := by
  induction fuel generalizing left right with
  | zero => omega
  | succ fuel ih =>
    rw [binsearchLoop]
    split_ifs with hgap
    · have hmid : left < (left + right) / 2 ∧ (left + right) / 2 < right := by omega
      have hbound : bound lp cdf ((left + right) / 2) =
          (cdfAt cdf ((left + right) / 2)).toNat := bound_of_lt (by omega)
      dsimp only
      split_ifs with hless hmore
      · exact ih _ hmid.2 hright (by omega) (hbound ▸ (BitVec.lt_def.mp hless).le) htarget
      · exact ih _ hmid.1 (by omega) (by omega) hleft (hbound ▸ BitVec.lt_def.mp hmore)
      · rw [BitVec.lt_def] at hless hmore
        have heq : bound lp cdf ((left + right) / 2) = target.toNat := by omega
        refine ⟨_, rfl, by omega, heq.le, ?_⟩
        rw [← heq]
        exact h.bound_lt (Nat.lt_add_one _) (by omega)
    · grind

/-- **The symbol that the decoder finds** is the one whose part the value is in. -/
theorem ValidRow.binsearch_count (h : ValidRow lp cdf) (hlp : 2 ≤ lp)
    (hv : (d.value.toNat : ℤ) ∈ rangeOf d.low d.high) :
    ∃ m, binsearch cdf d.count (BitVec.ofInt 8 (maxSymbol lp)) = some m ∧
      (ofNat 8 m).toNat = m ∧ IsSymbol lp (ofNat 8 m) ∧
      (d.value.toNat : ℤ) ∈ part lp cdf (ofNat 8 m) (rangeOf d.low d.high) := by
  have hle := h.le
  have hlow : d.low.toNat ≤ d.value.toNat := Int.ofNat_le.mp hv.1
  have hhigh : d.value.toNat ≤ d.high.toNat := Int.ofNat_le.mp hv.2
  have hmax : (BitVec.ofInt 8 (maxSymbol lp)).toNat + 1 = lp - 1 := by
    rw [BitVec.toNat_ofInt, maxSymbol]
    omega
  have hlast : d.count.toNat < bound lp cdf (lp - 1) := by
    rw [bound, if_pos (by omega)]
    exact d.count.isLt
  obtain ⟨m, heq, hm, hmle, hmlt⟩ := h.binsearchLoop_spec d.count (lp - 1) 0
    (by omega) (by omega) (by omega) ((h.bound_zero hlp).le.trans (Nat.zero_le _)) hlast
  have hmod : (ofNat 8 m).toNat = m := by
    rw [BitVec.toNat_ofNat]
    omega
  refine ⟨m, ?_, hmod, ?_, ?_⟩
  · rw [binsearch, hmax, heq]
  · rw [IsSymbol, hmod]
    exact hm
  · rw [le_count_iff hlow hhigh] at hmle
    rw [← not_le, le_count_iff hlow hhigh] at hmlt
    rw [mem_range, part, rangeOf, hmod]
    grind

end search

end LMCache.CacheGen
