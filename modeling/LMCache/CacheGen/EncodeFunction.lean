import LMCache.CacheGen.Subdivision

/-! # The CDF of a chunk and its sub-chunks

`encode_function` computes one row of the CDF for every layer and channel from all tokens of
the chunk, and then encodes the chunk in sub-chunks of at most 256 tokens with that row.  A
thread of `calculate_cdf_kernel` counts the symbols of its layer and channel in 16-bit
counters, sums them up and scales the sums.

* **Symbols** are the quantized ones, all of the layers and channels flattened to one list;
  `maxBins` is `int(key_bins.max())`, which has to be the same for keys and values since the
  two tensors of rows are concatenated.
* **Errors** are the `TORCH_CHECK`s on the sizes.
* Division by zero, when the 16-bit sum of all counters is 0, is left to the bit vectors,
  where it gives 0; on the device its result is not specified.

`Counted.calculateCdfKernel_at` is the closed form of a row: `scaled maxBins tokens i` is computed
from the number of tokens below `i`, up to multiples of 65536.

**Main result**: `calculate_cdf_usable`, for chunks that fit the counters. -/

namespace LMCache.CacheGen

open List
open BitVec (ofNat toNat_ofNat)

/-! ### The model -/

inductive EncodeError where
  /-- `Max bins must be less than 64` -/
  | maxBins
  /-- `Number of tokens should be less than or equal to 256` -/
  | tokens
  /-- `CDF length should be less than MAX_LP` -/
  | cdfLength
deriving DecidableEq, Repr

def maxBinsSupported : ℕ := 64

def maxTokensPerThread : ℕ := 256

def maxLp : ℕ := 48

def cachegenGpuMaxTokensPerChunk : ℕ := 256

def normalizeCdfValue (cdfValue maxCdfValue : BitVec 16) (maxBins : ℕ) : BitVec 16 :=
  let maxUint16Value : BitVec 32 := 0xFFFF - ofNat 32 maxBins
  (maxUint16Value * cdfValue.setWidth 32 / maxCdfValue.setWidth 32).setWidth 16

/-- The counting loop; the counter of a value is one place behind it. -/
def countTokens (tokens : List (BitVec 8)) (hist : List (BitVec 16)) : List (BitVec 16) :=
  tokens.foldl (fun hist value => hist.modify (value.toNat + 1) (· + 1)) hist

/-- The summing loop over the counters from place 1 on, with `local_sum`. -/
def sumCounters : BitVec 16 → List (BitVec 16) → List (BitVec 16) × BitVec 16
  | localSum, [] => ([], localSum)
  | localSum, value :: hist =>
    let r := sumCounters (localSum + value) hist
    ((value + localSum) :: r.1, r.2)

/-- A thread of `calculate_cdf_kernel`. -/
def calculateCdfKernel (maxBins : ℕ) (tokens : List (BitVec 8)) : List (BitVec 16) :=
  let hist := countTokens tokens (List.replicate (maxBins + 1) 0)
  let r := sumCounters 0 hist.tail
  (hist.take 1 ++ r.1).mapIdx fun i v => normalizeCdfValue v r.2 maxBins + ofNat 16 i

def calculateCdf (maxBins : ℕ) (input : List (List (BitVec 8))) :
    Except EncodeError (List (List (BitVec 16))) :=
  if maxBins < maxBinsSupported then .ok (input.map (calculateCdfKernel maxBins))
  else .error .maxBins

/-- `encode_cuda_new`: what every thread writes to the shared memory. -/
def encodeCudaNew (lp ntokens : ℕ) (cdf : List (List (BitVec 16)))
    (inputSym : List (List (BitVec 8))) : Except EncodeError (List (Option (List (BitVec 8)))) :=
  if ntokens ≤ maxTokensPerThread then
    if lp ≤ maxLp then .ok (List.zipWith (encodeWithAccessorKernel lp) cdf inputSym)
    else .error .cdfLength
  else .error .tokens

/-- The starts and ends of `range(0, chunk_size, 256)`. -/
def subChunks (chunkSize : ℕ) : List (ℕ × ℕ) :=
  (List.range ((chunkSize + (cachegenGpuMaxTokensPerChunk - 1)) / cachegenGpuMaxTokensPerChunk)).map
    fun i =>
      (cachegenGpuMaxTokensPerChunk * i,
        min (cachegenGpuMaxTokensPerChunk * i + cachegenGpuMaxTokensPerChunk) chunkSize)

/-- `tokens[start:end]` -/
def slice (tokens : List (BitVec 8)) (se : ℕ × ℕ) : List (BitVec 8) :=
  (tokens.take se.2).drop se.1

/-- The bytes of every thread, for every sub-chunk. -/
def encodeFunction (maxBins chunkSize : ℕ) (encodeInput : List (List (BitVec 8))) :
    Except EncodeError (List (List (Option (List (BitVec 8))))) :=
  (calculateCdf maxBins encodeInput).bind fun cdfInt =>
    (subChunks chunkSize).mapM fun se =>
      encodeCudaNew (maxBins + 1) (se.2 - se.1) cdfInt (encodeInput.map fun row => slice row se)

/-! ### The counters -/

/-- The number of tokens below `i`. -/
def below (tokens : List (BitVec 8)) (i : ℕ) : ℕ := tokens.countP fun v => v.toNat < i

variable (tokens : List (BitVec 8))

theorem below_succ (i : ℕ) :
    below tokens (i + 1) = below tokens i + tokens.countP fun v => v.toNat = i := by
  unfold below
  induction tokens with
  | nil => rfl
  | cons v tokens ih =>
    rw [countP_cons, countP_cons, countP_cons, ih]
    simp only [decide_eq_true_eq]
    split_ifs
    all_goals omega

theorem below_mono {i j : ℕ} (hij : i ≤ j) : below tokens i ≤ below tokens j := by
  apply countP_mono_left
  intro v _ hv
  rw [decide_eq_true_eq] at hv ⊢
  omega

@[simp] theorem below_zero : below tokens 0 = 0 := by
  simp [below]

theorem below_of_all {tokens : List (BitVec 8)} {i : ℕ} (h : ∀ v ∈ tokens, v.toNat < i) :
    below tokens i = tokens.length := by
  rw [below, countP_eq_length]
  intro v hv
  rw [decide_eq_true_eq]
  exact h v hv

@[simp] theorem length_countTokens (hist : List (BitVec 16)) :
    (countTokens tokens hist).length = hist.length := by
  unfold countTokens
  induction tokens generalizing hist with
  | nil => rfl
  | cons v tokens ih => rw [foldl_cons, ih, length_modify]

theorem countTokens_at {hist : List (BitVec 16)} {j : ℕ} (hj : j < hist.length) :
    (countTokens tokens hist).getD j 0 =
      hist.getD j 0 + ofNat 16 (tokens.countP fun v => v.toNat + 1 = j) := by
  unfold countTokens
  induction tokens generalizing hist with
  | nil => simp
  | cons v tokens ih =>
    rw [foldl_cons, ih (by rwa [length_modify]), countP_cons,
      getD_eq_getElem?_getD, getElem?_modify, getD_eq_getElem?_getD,
      getElem?_eq_getElem hj]
    simp only [Option.getD_some, decide_eq_true_eq]
    split_ifs with hv
    · show hist[j] + 1 + _ = _
      rw [BitVec.ofNat_add, BitVec.add_assoc, BitVec.add_comm 1]
      rfl
    · rfl

theorem sumCounters_spec (B : ℕ → ℕ) (k : ℕ) (hist : List (BitVec 16)) (h : ∀ j < hist.length,
      hist.getD j 0 + ofNat 16 (B (k + j)) = ofNat 16 (B (k + j + 1))) :
    (sumCounters (ofNat 16 (B k)) hist).1.length = hist.length ∧
      (∀ j < hist.length, (sumCounters (ofNat 16 (B k)) hist).1.getD j 0 =
        ofNat 16 (B (k + j + 1))) ∧
      (sumCounters (ofNat 16 (B k)) hist).2 = ofNat 16 (B (k + hist.length)) := by
  induction hist generalizing k with
  | nil => exact ⟨rfl, fun j hj => absurd hj (Nat.not_lt_zero j), rfl⟩
  | cons value hist ih =>
    have hzero : value + ofNat 16 (B k) = ofNat 16 (B (k + 1)) :=
      h 0 (Nat.succ_pos _)
    have hshift : ∀ j < hist.length, hist.getD j 0 + ofNat 16 (B (k + 1 + j)) =
        ofNat 16 (B (k + 1 + j + 1)) := by
      intro j hj
      have := h (j + 1) (Nat.succ_lt_succ hj)
      rw [show k + 1 + j = k + (j + 1) by omega]
      exact this
    obtain ⟨hlen, hat, hsum⟩ := ih _ hshift
    rw [sumCounters, BitVec.add_comm _ value, hzero]
    refine ⟨?_, ?_, ?_⟩
    · rw [length_cons, hlen, length_cons]
    · intro j hj
      cases j with
      | zero => rfl
      | succ j =>
        rw [getD_cons_succ, hat j (Nat.lt_of_succ_lt_succ hj)]
        congr 2
        omega
    · rw [hsum, length_cons]
      congr 2
      omega

/-! ### The row -/

/-- The entry `i` of the row: the tokens below `i`, scaled to the sum of all counters. -/
def scaled (maxBins : ℕ) (tokens : List (BitVec 8)) (i : ℕ) : ℕ :=
  (65535 - maxBins) * (below tokens i % 2 ^ 16) / (tokens.length % 2 ^ 16) + i

/-- The 16-bit counters serve their purpose: their sums do not decrease, and the sum of all of
them is not 0.  So it is for every chunk of less than 65536 tokens. -/
structure Counted (maxBins : ℕ) (tokens : List (BitVec 8)) : Prop where
  symbols : ∀ v ∈ tokens, v.toNat < maxBins
  mono : ∀ i j, i ≤ j → j ≤ maxBins → below tokens i % 2 ^ 16 ≤ below tokens j % 2 ^ 16
  pos : 0 < tokens.length % 2 ^ 16

theorem toNat_normalizeCdfValue (v total : BitVec 16) {maxBins : ℕ} (hbins : maxBins < 64)
    (hv : v.toNat ≤ total.toNat) (htotal : 0 < total.toNat) :
    (normalizeCdfValue v total maxBins).toNat = (65535 - maxBins) * v.toNat / total.toNat := by
  have hlt := total.isLt
  have hmax : (0xFFFF - ofNat 32 maxBins : BitVec 32).toNat = 65535 - maxBins := by
    rw [BitVec.toNat_sub, toNat_ofNat, show (0xFFFF : BitVec 32).toNat = 65535 from rfl]
    omega
  have hprod : (65535 - maxBins) * v.toNat < 2 ^ 32 := by
    calc (65535 - maxBins) * v.toNat ≤ 65535 * 65535 := Nat.mul_le_mul (by omega) (by omega)
      _ < 2 ^ 32 := by decide
  have hdiv : (65535 - maxBins) * v.toNat / total.toNat ≤ 65535 - maxBins := by
    apply Nat.div_le_of_le_mul
    rw [Nat.mul_comm]
    exact Nat.mul_le_mul_right _ hv
  unfold normalizeCdfValue
  rw [BitVec.toNat_setWidth, BitVec.toNat_udiv, BitVec.toNat_mul, hmax, BitVec.toNat_setWidth,
    BitVec.toNat_setWidth, Nat.mod_eq_of_lt (by omega : v.toNat < 2 ^ 32),
    Nat.mod_eq_of_lt (by omega : total.toNat < 2 ^ 32), Nat.mod_eq_of_lt hprod,
    Nat.mod_eq_of_lt (by omega)]

theorem sumCounters_countTokens (maxBins : ℕ) (tokens : List (BitVec 8)) :
    let hist := countTokens tokens (replicate (maxBins + 1) 0)
    (hist.take 1 ++ (sumCounters 0 hist.tail).1).length = maxBins + 1 ∧
      (∀ i ≤ maxBins, (hist.take 1 ++ (sumCounters 0 hist.tail).1).getD i 0 =
        ofNat 16 (below tokens i)) ∧
      (sumCounters 0 hist.tail).2 = ofNat 16 (below tokens maxBins) := by
  intro hist
  have hlen : hist.length = maxBins + 1 := by
    rw [length_countTokens, length_replicate]
  have hat : ∀ j ≤ maxBins, hist.getD j 0 =
      ofNat 16 (tokens.countP fun v => v.toNat + 1 = j) := by
    intro j hj
    have hj' : j < maxBins + 1 := Nat.lt_succ_of_le hj
    rw [countTokens_at tokens (by rwa [length_replicate]), getD_replicate _ hj']
    exact BitVec.zero_add _
  obtain ⟨c, rest, hhist⟩ : ∃ c rest, hist = c :: rest :=
    exists_cons_of_length_pos (by omega)
  rw [hhist] at hlen hat ⊢
  have hrest : rest.length = maxBins := Nat.succ.inj hlen
  have hspec := sumCounters_spec (below tokens) 0 rest fun j hj => by
    have := hat (j + 1) (by omega)
    rw [getD_cons_succ] at this
    rw [this, ← BitVec.ofNat_add, Nat.zero_add, below_succ, Nat.add_comm (below tokens j)]
    simp
  rw [below_zero, hrest, Nat.zero_add] at hspec
  obtain ⟨hslen, hsat, hsum⟩ := hspec
  refine ⟨?_, ?_, hsum⟩
  · rw [length_append, tail_cons]
    exact (congrArg (1 + ·) hslen).trans (Nat.add_comm _ _)
  · intro i hi
    cases i with
    | zero =>
      have := hat 0 (Nat.zero_le _)
      rw [below_zero]
      simpa using this
    | succ i =>
      have := hsat i hi
      rw [Nat.zero_add] at this
      exact this

theorem length_calculateCdfKernel (maxBins : ℕ) (tokens : List (BitVec 8)) :
    (calculateCdfKernel maxBins tokens).length = maxBins + 1 := by
  unfold calculateCdfKernel
  rw [length_mapIdx]
  exact (sumCounters_countTokens maxBins tokens).1

section counted
variable {maxBins : ℕ} {tokens : List (BitVec 8)}

section
variable (h : Counted maxBins tokens)

include h

theorem Counted.below_le {i : ℕ} (hi : i ≤ maxBins) :
    below tokens i % 2 ^ 16 ≤ tokens.length % 2 ^ 16 := by
  rw [← below_of_all h.symbols]
  exact h.mono i maxBins hi le_rfl

theorem Counted.scaled_le {i : ℕ} (hi : i ≤ maxBins) :
    scaled maxBins tokens i ≤ 65535 - maxBins + i := by
  apply Nat.add_le_add_right
  apply Nat.div_le_of_le_mul
  rw [Nat.mul_comm]
  exact Nat.mul_le_mul_right _ (h.below_le hi)

/-- **The row in closed form.** -/
theorem Counted.calculateCdfKernel_at (hbins : maxBins < 64) {i : ℕ} (hi : i ≤ maxBins) :
    (cdfAt (calculateCdfKernel maxBins tokens) i).toNat = scaled maxBins tokens i := by
  obtain ⟨hlen, hat, hsum⟩ := sumCounters_countTokens maxBins tokens
  have hle := h.scaled_le hi
  have hbelow := h.below_le hi
  have hi' := hat i hi
  rw [getD_eq_getElem?_getD] at hi'
  unfold cdfAt calculateCdfKernel
  rw [getD_eq_getElem?_getD, getElem?_mapIdx, hsum, below_of_all h.symbols]
  rw [getElem?_eq_getElem (by omega)] at hi' ⊢
  rw [Option.getD_some] at hi'
  rw [Option.map_some, Option.getD_some, hi', BitVec.toNat_add, toNat_normalizeCdfValue]
  · rw [toNat_ofNat, toNat_ofNat, toNat_ofNat]
    unfold scaled at hle ⊢
    rw [Nat.mod_eq_of_lt (by omega : i < 2 ^ 16), Nat.mod_eq_of_lt (by omega)]
  · exact hbins
  · rw [toNat_ofNat, toNat_ofNat]
    exact hbelow
  · rw [toNat_ofNat]
    exact h.pos

theorem Counted.scaled_lt {i j : ℕ} (hij : i < j)
    (hj : j ≤ maxBins) : scaled maxBins tokens i < scaled maxBins tokens j := by
  apply Nat.add_lt_add_of_le_of_lt _ hij
  apply Nat.div_le_div_right
  exact Nat.mul_le_mul_left _ (h.mono i j hij.le hj)

theorem Counted.sorted_row (hbins : maxBins < 64) :
    (calculateCdfKernel maxBins tokens).Pairwise (· < ·) := by
  rw [pairwise_iff_getElem]
  intro i j hi hj hij
  have hat : ∀ k (hk : k < (calculateCdfKernel maxBins tokens).length),
      (calculateCdfKernel maxBins tokens)[k].toNat = scaled maxBins tokens k := by
    intro k hk
    rw [← h.calculateCdfKernel_at hbins (i := k) (by simp [length_calculateCdfKernel] at hk; omega),
      cdfAt, getD_eq_getElem?_getD, getElem?_eq_getElem hk, Option.getD_some]
  rw [length_calculateCdfKernel] at hi hj
  rw [BitVec.lt_def, hat, hat]
  exact h.scaled_lt hij (by omega)

theorem Counted.row_zero (hbins : maxBins < 64) :
    cdfAt (calculateCdfKernel maxBins tokens) 0 = 0 := by
  apply BitVec.eq_of_toNat_eq
  rw [h.calculateCdfKernel_at hbins (Nat.zero_le _), scaled, below_zero]
  simp

theorem Counted.validRow (hbins : maxBins < maxLp) :
    ValidRow (maxBins + 1) (calculateCdfKernel maxBins tokens) where
  le := hbins
  length := length_calculateCdfKernel maxBins tokens
  sorted := h.sorted_row (lt_trans hbins (by decide))
  zero := h.row_zero (lt_trans hbins (by decide))

end

theorem counted_of_length (hsyms : ∀ sym ∈ tokens, sym.toNat < maxBins) (hne : tokens ≠ [])
    (hlen : tokens.length < 2 ^ 16) : Counted maxBins tokens := by
  have hlt : ∀ i, below tokens i < 2 ^ 16 := fun i =>
    lt_of_le_of_lt countP_le_length hlen
  refine ⟨hsyms, ?_, ?_⟩
  · intro i j hij _
    rw [Nat.mod_eq_of_lt (hlt i), Nat.mod_eq_of_lt (hlt j)]
    exact below_mono tokens hij
  · rw [Nat.mod_eq_of_lt hlen]
    exact length_pos_iff.mpr hne

/-! ### A usable row -/

/-- What the arithmetic coder relies on, and that the narrow integers of the kernel hold what they
are meant to hold on the way there. -/
structure UsableCdf (maxBins : ℕ) (tokens : List (BitVec 8)) : Prop where
  length : (calculateCdfKernel maxBins tokens).length = maxBins + 1
  increasing : (calculateCdfKernel maxBins tokens).Pairwise (· < ·)
  first : cdfAt (calculateCdfKernel maxBins tokens) 0 = 0
  last : cdfAt (calculateCdfKernel maxBins tokens) maxBins = 0xFFFF
  /-- `hist[value + 1]` is inside of the counters, and these inside of the shared memory. -/
  index : maxBins + 1 ≤ maxBinsSupported ∧ ∀ v ∈ tokens, v.toNat + 1 < maxBins + 1
  /-- No counter wraps around while the tokens are counted. -/
  counters : ∀ done, done <+: tokens → ∀ j ≤ maxBins,
    ((countTokens done (List.replicate (maxBins + 1) 0)).getD j 0).toNat =
      done.countP fun v => v.toNat + 1 = j
  /-- No sum wraps around: `hist[i]` is the number of the tokens below `i`. -/
  sums : let hist := countTokens tokens (List.replicate (maxBins + 1) 0)
    ∀ i ≤ maxBins, ((hist.take 1 ++ (sumCounters 0 hist.tail).1).getD i 0).toNat = below tokens i
  /-- `local_sum` is the number of the tokens, and the divisor is not 0. -/
  total : let hist := countTokens tokens (List.replicate (maxBins + 1) 0)
    (sumCounters 0 hist.tail).2.toNat = tokens.length ∧ 0 < tokens.length
  /-- The product fits in 32 bits, its quotient with the offset of the bin in 16. -/
  product : ∀ i ≤ maxBins, (65535 - maxBins) * below tokens i < 2 ^ 32 ∧
    (65535 - maxBins) * below tokens i / tokens.length + i < 2 ^ 16
  /-- So an entry is what it would be with unbounded integers. -/
  exact : ∀ i ≤ maxBins, (cdfAt (calculateCdfKernel maxBins tokens) i).toNat =
    (65535 - maxBins) * below tokens i / tokens.length + i

theorem scaled_eq (hlen : tokens.length < 2 ^ 16) (i : ℕ) :
    scaled maxBins tokens i = (65535 - maxBins) * below tokens i / tokens.length + i := by
  have hlt : below tokens i < 2 ^ 16 := lt_of_le_of_lt countP_le_length hlen
  rw [scaled, Nat.mod_eq_of_lt hlt, Nat.mod_eq_of_lt hlen]

/-- **The counters while the tokens are counted.** -/
theorem toNat_countTokens (hlen : tokens.length < 2 ^ 16) {j : ℕ} (hj : j ≤ maxBins) :
    ((countTokens tokens (replicate (maxBins + 1) 0)).getD j 0).toNat =
      tokens.countP fun v => v.toNat + 1 = j := by
  have hj' : j < maxBins + 1 := Nat.lt_succ_of_le hj
  rw [countTokens_at tokens (by rwa [length_replicate]), getD_replicate _ hj',
    show (0 : BitVec 16) = 0#16 from rfl, BitVec.zero_add, toNat_ofNat]
  exact Nat.mod_eq_of_lt (lt_of_le_of_lt countP_le_length hlen)

/-- **Every row is usable**, if its tokens are below `maxBins` and fit the 16-bit counters. -/
theorem calculate_cdf_usable (maxBins : ℕ) (input : List (List (BitVec 8)))
    (hbins : maxBins < 64) :
    calculateCdf maxBins input = .ok (input.map (calculateCdfKernel maxBins)) ∧
      ∀ tokens ∈ input, (∀ v ∈ tokens, v.toNat < maxBins) → 1 ≤ tokens.length →
        tokens.length < 65536 → UsableCdf maxBins tokens := by
  refine ⟨if_pos hbins, fun tokens _ hsyms hne hlen => ?_⟩
  have h := counted_of_length hsyms (length_pos_iff.mp hne) hlen
  have hbelow : ∀ i, below tokens i < 2 ^ 16 := fun i => lt_of_le_of_lt countP_le_length hlen
  have hat : ∀ i ≤ maxBins, (cdfAt (calculateCdfKernel maxBins tokens) i).toNat =
      (65535 - maxBins) * below tokens i / tokens.length + i := fun i hi => by
    rw [h.calculateCdfKernel_at hbins hi, scaled_eq hlen]
  obtain ⟨-, hsums, htotal⟩ := sumCounters_countTokens maxBins tokens
  exact {
    length := length_calculateCdfKernel maxBins tokens
    increasing := h.sorted_row hbins
    first := h.row_zero hbins
    last := by
      apply BitVec.eq_of_toNat_eq
      rw [hat maxBins le_rfl, below_of_all hsyms, Nat.mul_div_cancel _ hne]
      show _ = 65535
      omega
    index := ⟨hbins, fun v hv => Nat.succ_lt_succ (hsyms v hv)⟩
    counters := fun done hdone j hj =>
      toNat_countTokens (lt_of_le_of_lt hdone.length_le hlen) hj
    sums := fun i hi => by
      rw [hsums i hi, toNat_ofNat, Nat.mod_eq_of_lt (hbelow i)]
    total := ⟨by rw [htotal, toNat_ofNat, below_of_all hsyms, Nat.mod_eq_of_lt hlen], hne⟩
    product := fun i hi => by
      constructor
      · calc (65535 - maxBins) * below tokens i ≤ 65535 * 65535 :=
              Nat.mul_le_mul (by omega) (Nat.le_of_lt_succ (hbelow i))
          _ < 2 ^ 32 := by decide
      · rw [← hat i hi]
        exact (cdfAt _ i).isLt
    exact := hat }

/-- Three tokens in two bins. -/
theorem calculate_cdf_usable_three :
    calculateCdf 2 [[0, 1, 1]] = .ok [[0, 21845, 65535]] ∧ UsableCdf 2 [0, 1, 1] :=
  ⟨by decide +kernel, (calculate_cdf_usable 2 [[0, 1, 1]] (by decide)).2 _
    mem_cons_self (by decide) (by decide) (by decide)⟩

end counted

end LMCache.CacheGen
