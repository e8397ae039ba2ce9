import LMCache.Lib.IntervalCoder
import Mathlib.Analysis.Complex.ExponentialBounds

/-! # The length of an arithmetic code

Every doubling writes one bit, at once or when it is no longer pending, and the end adds two
(`length_encode`).  The size of the range connects the doublings with the model: when the part
of a symbol `a` takes `f a` out of `B` numbers of a range, up to one in `K`, then `k` symbols
shrink the range by the product of their `f a / B`, up to a factor that stays below 2 as long
as `2 * k < K`.  A normal range has between a quarter and all of the numbers, so the number of
doublings is the logarithm of the product up to three bits (`Shares.doublings`).

`pow_le_mul_prod` bounds the product from below when the model is fitted to the symbols. -/

namespace IntervalCoder

open List

def Range.size (r : Range) : ℤ := r.high - r.low + 1

/-! ### Doublings and bits -/

section doublings
variable {w : ℕ}

theorem Range.size_stretch (r : Range) (c : Scale) : (r.stretch w c).size = 2 * r.size := by
  rw [Range.size, Range.stretch_low, Range.stretch_high, Range.size]
  omega

theorem Range.size_normalize {n : ℕ} {r r' : Range} {cs : List Scale}
    (h : r.normalize w n = some (cs, r')) : r'.size = r.size * 2 ^ cs.length := by
  fun_induction r.normalize w n generalizing cs
  case case1 => cases h
  case case2 => grind
  case case3 ih =>
    obtain ⟨⟨cs, r''⟩, heq, hcons⟩ := Option.map_eq_some_iff.mp h
    cases hcons
    rw [ih heq, Range.size_stretch, length_cons, pow_succ]
    ring

theorem length_emitAll (p : ℕ) (cs : List Scale) :
    (emitAll p cs).1.length + (emitAll p cs).2 = p + cs.length := by
  induction cs generalizing p with
  | nil => exact Nat.add_comm 0 p
  | cons c cs ih =>
    have hlen := length_emit p c
    have hrest := ih (emit p c).2
    rw [emitAll, length_append, length_cons]
    omega

theorem length_flush (r : Range) (p : ℕ) : (flush w r p).length = p + 2 := by
  unfold flush
  split_ifs <;> rw [length_cons, length_replicate]

end doublings

/-! ### Shares -/

section shares
variable {Sym : Type} {w : ℕ} {sub : Sym → Range → Range} {find : Range → ℤ → Sym}
  {Good : Sym → Prop} {f : Sym → ℕ} {B K : ℤ}

/-- The part of a symbol takes `f a` out of `B` numbers of a normal range, up to one in `K`. -/
structure Shares (w : ℕ) (sub : Sym → Range → Range) (Good : Sym → Prop) (f : Sym → ℕ)
    (B K : ℤ) : Prop where
  lower : ∀ a r, Good a → r.Normal w → (K - 1) * (r.size * f a) ≤ K * B * (sub a r).size
  upper : ∀ a r, Good a → r.Normal w → K * B * (sub a r).size ≤ (K + 1) * (r.size * f a)

/-- The size of the range after the last symbol, and the number of bits. -/
theorem Shares.length_encode (hs : Shares w sub Good f B K) (h : Splits w sub find Good)
    (hB : 0 < B) (hK : 1 < K) {n : ℕ} {as : List Sym} (has : ∀ a ∈ as, Good a) {r : Range}
    (hr : r.Normal w) {p : ℕ} {bits : List Bool} (henc : encode w sub n r p as = some bits) :
    ∃ (d : ℕ) (r' : Range), r'.Normal w ∧ bits.length = p + d + 2 ∧
      (K - 1) ^ as.length * (r.size * (as.map f).prod * 2 ^ d) ≤ (K * B) ^ as.length * r'.size ∧
      (K * B) ^ as.length * r'.size ≤ (K + 1) ^ as.length * (r.size * (as.map f).prod * 2 ^ d) := by
  induction as generalizing r p bits with
  | nil =>
    cases henc
    refine ⟨0, r, hr, length_flush r p, ?_, ?_⟩
    · simp
    · simp
  | cons a as ih =>
    have ha := has a mem_cons_self
    rw [encode, Option.bind_eq_some_iff] at henc
    obtain ⟨⟨cs, r₁⟩, hnorm, henc⟩ := henc
    obtain ⟨rest, hrest, rfl⟩ := Option.map_eq_some_iff.mp henc
    have hr₁ := ((h.valid a r ha hr).normalize_spec hnorm).1
    obtain ⟨d, r', hr', hlen, hlow, hhigh⟩ :=
      ih (forall_mem_cons.mp has).2 hr₁ hrest
    have hemit := length_emitAll p cs
    have hsize := Range.size_normalize hnorm
    have hsize_pos : ∀ {r : Range}, r.Valid w → 0 < r.size := fun hr => by
      have := hr.le
      rw [Range.size]
      omega
    have hsub := hsize_pos (h.valid a r ha hr)
    have hfirst := hsize_pos hr₁.toValid
    have hstart := hsize_pos hr.toValid
    have hlast := hsize_pos hr'.toValid
    have hbelow : 0 ≤ K - 1 := by omega
    refine ⟨cs.length + d, r', hr', ?_, ?_, ?_⟩
    · grind
    · have hmul := mul_le_mul (hs.lower a r ha hr) hlow (by positivity) (by positivity)
      refine le_of_mul_le_mul_left ?_ hsub
      rw [length_cons, map_cons, prod_cons, Nat.cast_mul]
      calc _ = (K - 1) * (r.size * f a) *
            ((K - 1) ^ as.length * (r₁.size * (as.map f).prod * 2 ^ d)) := by rw [hsize]; ring
        _ ≤ K * B * (sub a r).size * ((K * B) ^ as.length * r'.size) := hmul
        _ = _ := by ring
    · have hmul := mul_le_mul (hs.upper a r ha hr) hhigh (by positivity) (by positivity)
      refine le_of_mul_le_mul_left ?_ hsub
      rw [length_cons, map_cons, prod_cons, Nat.cast_mul]
      calc _ = K * B * (sub a r).size * ((K * B) ^ as.length * r'.size) := by ring
        _ ≤ (K + 1) * (r.size * f a) *
            ((K + 1) ^ as.length * (r₁.size * (as.map f).prod * 2 ^ d)) := hmul
        _ = _ := by rw [hsize]; ring

/-- The factors `1 - 1 / K` and `1 + 1 / K` stay between one half and two. -/
theorem pow_lt_two_mul_pow {K : ℤ} {k : ℕ} (hk : 2 * k < K) :
    K ^ k < 2 * (K - 1) ^ k ∧ (K + 1) ^ k ≤ 2 * K ^ k := by
  have hhalf : ∀ n : ℤ, 2 * k < n → n ^ k < 2 * (n - 1) ^ k := by
    intro n hn
    have hpos : (0 : ℚ) < n := by exact_mod_cast (by omega : 0 < n)
    have hle : (-2 : ℚ) ≤ -(1 / n) := by
      have hone : (1 : ℚ) ≤ n := by exact_mod_cast (by omega : 1 ≤ n)
      have : (1 : ℚ) / n ≤ 1 := (div_le_one hpos).mpr hone
      linarith
    have hbern := one_add_mul_le_pow hle k
    have hfrac : (1 : ℚ) + -(1 / n) = (n - 1) / n := by
      field_simp
      ring
    have hkn : (k : ℚ) * (1 / n) < 1 / 2 := by
      rw [mul_one_div, div_lt_div_iff₀ hpos two_pos]
      have : (2 * k : ℚ) < n := by exact_mod_cast hn
      linarith
    rw [hfrac] at hbern
    have htwo : (1 : ℚ) < 2 * ((n - 1) / n) ^ k := by linarith
    rw [div_pow, ← mul_div_assoc, lt_div_iff₀ (pow_pos hpos k), one_mul] at htwo
    exact_mod_cast htwo
  have hnext := hhalf (K + 1) (by omega)
  rw [add_sub_cancel_right] at hnext
  exact ⟨hhalf K hk, hnext.le⟩

/-- **The length of a code.**  From the full range, the number of doublings is the logarithm
of `B ^ k / ∏ f a`, up to one bit more or three bits less. -/
theorem Shares.doublings (hs : Shares w sub Good f B K) (h : Splits w sub find Good)
    (hB : 0 < B) {n : ℕ} {as : List Sym} (hk : 2 * as.length < K) (hK : 1 < K)
    (has : ∀ a ∈ as, Good a) {r : Range} (hr : r.Normal w) (hfull : r.size = 4 * 2 ^ w)
    {p : ℕ} {bits : List Bool} (henc : encode w sub n r p as = some bits) :
    ∃ d : ℕ, bits.length = p + d + 2 ∧
      (as.map f).prod * 2 ^ d < 2 * B ^ as.length ∧
      B ^ as.length < 8 * ((as.map f).prod * 2 ^ d) := by
  obtain ⟨d, r', hr', hlen, hlow, hhigh⟩ := hs.length_encode h hB hK has hr henc
  obtain ⟨hbelow, habove⟩ := pow_lt_two_mul_pow hk
  have hw : (0 : ℤ) < 2 ^ w := by positivity
  have hBk : 0 < B ^ as.length := pow_pos hB _
  have hKk : 0 < K ^ as.length := pow_pos (by omega) _
  have hK1 : 0 < (K - 1) ^ as.length := pow_pos (by omega) _
  refine ⟨d, hlen, ?_, ?_⟩
  · have hsize : r'.size ≤ 4 * 2 ^ w := by
      have h₁ := hr'.nonneg
      have h₂ := hr'.lt
      rw [Range.size]
      omega
    apply lt_of_mul_lt_mul_left _ (mul_pos hw hK1).le
    apply lt_of_mul_lt_mul_left _ (by decide : (0 : ℤ) ≤ 4)
    calc 4 * (2 ^ w * (K - 1) ^ as.length * ((as.map f).prod * 2 ^ d))
        = (K - 1) ^ as.length * (r.size * (as.map f).prod * 2 ^ d) := by rw [hfull]; ring
      _ ≤ (K * B) ^ as.length * r'.size := hlow
      _ ≤ (K * B) ^ as.length * (4 * 2 ^ w) := by
          apply mul_le_mul_of_nonneg_left hsize
          rw [mul_pow]
          exact (mul_pos hKk hBk).le
      _ = K ^ as.length * (4 * 2 ^ w * B ^ as.length) := by rw [mul_pow]; ring
      _ < 2 * (K - 1) ^ as.length * (4 * 2 ^ w * B ^ as.length) := by
          apply mul_lt_mul_of_pos_right hbelow
          positivity
      _ = 4 * (2 ^ w * (K - 1) ^ as.length * (2 * B ^ as.length)) := by ring
  · have hsize : 2 ^ w < r'.size := hr'.span
    apply lt_of_mul_lt_mul_left _ (mul_pos hw hKk).le
    calc 2 ^ w * K ^ as.length * B ^ as.length = (K * B) ^ as.length * 2 ^ w := by
          rw [mul_pow]; ring
      _ < (K * B) ^ as.length * r'.size := by
          apply mul_lt_mul_of_pos_left hsize
          rw [mul_pow]
          exact mul_pos hKk hBk
      _ ≤ (K + 1) ^ as.length * (r.size * (as.map f).prod * 2 ^ d) := hhigh
      _ ≤ 2 * K ^ as.length * (r.size * (as.map f).prod * 2 ^ d) := by
          apply mul_le_mul_of_nonneg_right habove
          rw [hfull]
          positivity
      _ = 2 ^ w * K ^ as.length * (8 * ((as.map f).prod * 2 ^ d)) := by rw [hfull]; ring

end shares

end IntervalCoder

/-! ### Products and means -/

namespace CodeLength

open List

/-- Few doublings, when the product is large. -/
theorem doublings_le {F P d m : ℕ} (h : F * 2 ^ d < 2 * P) (hP : P ≤ 2 ^ m * F) : d ≤ m := by
  have hpow : 2 ^ d < 2 ^ (m + 1) := by
    apply lt_of_mul_lt_mul_left _ (Nat.zero_le F)
    calc F * 2 ^ d < 2 * P := h
      _ ≤ 2 * (2 ^ m * F) := Nat.mul_le_mul_left 2 hP
      _ = F * 2 ^ (m + 1) := by rw [pow_succ]; ring
  exact Nat.le_of_lt_succ ((Nat.pow_lt_pow_iff_right (by decide)).mp hpow)

/-- A large product, when there are few doublings. -/
theorem le_of_doublings {F P d m : ℕ} (h : P < 8 * (F * 2 ^ d)) (hd : d ≤ m) :
    P ≤ 2 ^ (m + 3) * F := by
  have hpow : 2 ^ d ≤ 2 ^ m := Nat.pow_le_pow_right (by decide) hd
  calc P ≤ 8 * (F * 2 ^ d) := h.le
    _ ≤ 8 * (F * 2 ^ m) := Nat.mul_le_mul_left 8 (Nat.mul_le_mul_left F hpow)
    _ = 2 ^ (m + 3) * F := by rw [pow_add]; ring

theorem prod_le_exp {μ : ℝ} (hμ : 0 < μ) (l : List ℝ) (hl : ∀ z ∈ l, 0 ≤ z) :
    l.prod ≤ μ ^ l.length * Real.exp (l.sum / μ - l.length) := by
  induction l with
  | nil => simp
  | cons z l ih =>
    have hrest := ih (forall_mem_cons.mp hl).2
    have hexp : z ≤ μ * Real.exp (z / μ - 1) := by
      have := Real.add_one_le_exp (z / μ - 1)
      rw [sub_add_cancel, div_le_iff₀ hμ] at this
      linarith
    rw [prod_cons, sum_cons, length_cons]
    push_cast
    calc z * l.prod
        ≤ μ * Real.exp (z / μ - 1) * (μ ^ l.length * Real.exp (l.sum / μ - l.length)) := by
          apply mul_le_mul hexp hrest
          · exact prod_nonneg (forall_mem_cons.mp hl).2
          · positivity
      _ = μ ^ (l.length + 1) * (Real.exp (z / μ - 1) * Real.exp (l.sum / μ - l.length)) := by
          ring
      _ = μ ^ (l.length + 1) * Real.exp ((z + l.sum) / μ - (l.length + 1)) := by
          rw [← Real.exp_add]
          ring_nf

/-- At most `n` numbers whose sum is at most `n * μ` have a product of at most `μ ^ n`. -/
theorem prod_le_pow_of_sum_le {μ : ℝ} (hμ : 3 ≤ μ) {n : ℕ} (l : List ℝ) (hl : ∀ z ∈ l, 0 ≤ z)
    (hn : l.length ≤ n) (hsum : l.sum ≤ n * μ) : l.prod ≤ μ ^ n := by
  have hpos : 0 < μ := by linarith
  obtain ⟨m, rfl⟩ := Nat.exists_eq_add_of_le hn
  have hexp : Real.exp (l.sum / μ - l.length) ≤ μ ^ m := by
    calc Real.exp (l.sum / μ - l.length) ≤ Real.exp (m * 1) := by
          apply Real.exp_le_exp.mpr
          have hle : l.sum / μ ≤ (l.length + m : ℕ) := (div_le_iff₀ hpos).mpr hsum
          push_cast at hle
          linarith
      _ = Real.exp 1 ^ m := Real.exp_nat_mul 1 m
      _ ≤ μ ^ m := by
          apply pow_le_pow_left₀ (Real.exp_pos 1).le
          have := Real.exp_one_lt_d9
          linarith
  calc l.prod ≤ μ ^ l.length * Real.exp (l.sum / μ - l.length) := prod_le_exp hpos l hl
    _ ≤ μ ^ l.length * μ ^ m := mul_le_mul_of_nonneg_left hexp (by positivity)
    _ = μ ^ (l.length + m) := (pow_add μ _ _).symm

/-- The numbers `1 / count` of the members of a list sum up to the number of different ones. -/
theorem sum_inv_count {α : Type*} [DecidableEq α] (l : List α) :
    (l.map fun a => ((l.count a : ℝ))⁻¹).sum = l.toFinset.card := by
  rw [Finset.sum_list_map_count]
  calc ∑ a ∈ l.toFinset, l.count a • ((l.count a : ℝ))⁻¹ = ∑ _a ∈ l.toFinset, (1 : ℝ) := by
        apply Finset.sum_congr rfl
        intro a ha
        have hpos : 0 < l.count a := count_pos_iff.mpr (mem_toFinset.mp ha)
        rw [nsmul_eq_mul, mul_inv_cancel₀ (Nat.cast_pos.mpr hpos).ne']
    _ = l.toFinset.card := by simp

/-- **The worst case.**  When every symbol of a list has at least its own count as its share,
out of `s`, the code is longest when all symbols are equally frequent. -/
theorem pow_le_mul_prod {α : Type*} [DecidableEq α] {l : List α} {f : α → ℝ} {c s μ : ℝ} {n : ℕ}
    (hc : 0 < c) (hs : 0 < s) (hμ : 3 ≤ μ) (hn : l.length ≤ n)
    (hf : ∀ a ∈ l, c * l.count a ≤ f a * s) (hcard : s * l.toFinset.card ≤ n * μ) :
    c ^ l.length ≤ μ ^ n * (l.map f).prod := by
  have hcount : ∀ a ∈ l, (0 : ℝ) < l.count a := fun a ha =>
    Nat.cast_pos.mpr (count_pos_iff.mpr ha)
  have hpos : ∀ a ∈ l, 0 ≤ f a := fun a ha => nonneg_of_mul_nonneg_left
    ((mul_nonneg hc.le (hcount a ha).le).trans (hf a ha)) hs
  have hfactor : ∀ a ∈ l, c ≤ s * (l.count a : ℝ)⁻¹ * f a := by
    intro a ha
    rw [mul_right_comm, ← div_eq_mul_inv, le_div_iff₀ (hcount a ha), mul_comm s]
    exact hf a ha
  have hprod : (l.map fun a => s * (l.count a : ℝ)⁻¹).prod ≤ μ ^ n := by
    apply prod_le_pow_of_sum_le hμ
    · intro z hz
      obtain ⟨a, -, rfl⟩ := mem_map.mp hz
      positivity
    · rwa [length_map]
    · rwa [sum_map_mul_left, sum_inv_count]
  calc c ^ l.length = (l.map fun _ => c).prod := by simp
    _ ≤ (l.map fun a => s * (l.count a : ℝ)⁻¹ * f a).prod :=
        prod_map_le_prod_map₀ _ _ (fun _ _ => hc.le) hfactor
    _ = (l.map fun a => s * (l.count a : ℝ)⁻¹).prod * (l.map f).prod := prod_map_mul
    _ ≤ μ ^ n * (l.map f).prod := by
        apply mul_le_mul_of_nonneg_right hprod
        exact prod_nonneg (forall_mem_map.mpr hpos)

end CodeLength
