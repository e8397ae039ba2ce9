import LMCache.CacheGen.EncodeFunction
import LMCache.CacheGen.RoundTrip
import LMCache.Lib.CodeLength

/-! # The output buffer of a thread

A thread has 256 bytes for the code of at most 256 tokens.  `calculate_cdf` fits the row to
the whole chunk, so a sub-chunk whose symbols are rare in the chunk may need more than that.

The `share` of a symbol is the width that the row gives to it, out of 65536.  The thread needs
about the logarithm of the product of all `65536 / share` in bits: it stays inside its buffer
when this product is at most `2 ^ 2046` and leaves it when it is at least `2 ^ 2049`
(`kernel_bytes`).  A chunk of at most `63 * 1024 / max_bins` tokens never reaches the first
bound, since the product is largest when all symbols are equally rare
(`spread_of_length`). -/

namespace LMCache.CacheGen

open List BitStream IntervalCoder CodeLength

/-! ### Bytes of a thread -/

section kernel
variable {lp : ℕ} {cdf : List (BitVec 16)}

def width (lp : ℕ) (cdf : List (BitVec 16)) (sym : BitVec 8) : ℕ :=
  bound lp cdf (sym.toNat + 1) - bound lp cdf sym.toNat

theorem size_part (lp : ℕ) (cdf : List (BitVec 16)) (sym : BitVec 8) (r : Range) :
    (part lp cdf sym r).size = r.size * bound lp cdf (sym.toNat + 1) / 65536 -
      r.size * bound lp cdf sym.toNat / 65536 := by
  unfold part Range.size
  dsimp only
  omega

theorem ValidRow.shares (h : ValidRow lp cdf) :
    Shares 30 (part lp cdf) (IsSymbol lp) (width lp cdf) (2 ^ 16) (2 ^ 14) := by
  -- the two divisions are off by less than one number, and the range has more than `2 ^ 30`
  have key : ∀ a r, IsSymbol lp a → r.Normal 30 →
      (2 : ℤ) ^ 30 < r.size * width lp cdf a ∧
      r.size * width lp cdf a - 2 ^ 16 < 2 ^ 16 * (part lp cdf a r).size ∧
      2 ^ 16 * (part lp cdf a r).size < r.size * width lp cdf a + 2 ^ 16 := by
    intro a r ha hr
    have hlt : bound lp cdf a.toNat < bound lp cdf (a.toNat + 1) :=
      h.bound_lt (Nat.lt_succ_self _) ha
    have hsize : 2 ^ 30 < r.size := hr.span
    have hwidth : (width lp cdf a : ℤ) = bound lp cdf (a.toNat + 1) - bound lp cdf a.toNat := by
      unfold width
      omega
    have hprod : r.size * width lp cdf a =
        r.size * bound lp cdf (a.toNat + 1) - r.size * bound lp cdf a.toNat := by
      rw [hwidth]
      ring
    have hge : r.size * 1 ≤ r.size * width lp cdf a := by
      apply mul_le_mul_of_nonneg_left
      · omega
      · omega
    rw [size_part]
    omega
  refine ⟨?_, ?_⟩
  · grind
  · grind

/-- **The bytes of a thread.**  It stays inside its buffer if and only if there are at most
2046 doublings `d`, and their number is known up to a few bits. -/
theorem ValidRow.kernel_bytes (h : ValidRow lp cdf) {syms : List (BitVec 8)}
    (hlen : syms.length ≤ 256) (hsyms : ∀ sym ∈ syms, IsSymbol lp sym) :
    ∃ bytes d, encodeWithAccessorKernel lp cdf syms = some bytes ∧
      (bytes.length ≤ outputBufferLengthPerThread ↔ d ≤ 2046) ∧
      (syms.map (width lp cdf)).prod * 2 ^ d < 2 * 2 ^ (16 * syms.length) ∧
      2 ^ (16 * syms.length) < 8 * ((syms.map (width lp cdf)).prod * 2 ^ d) := by
  obtain ⟨out, henc⟩ := h.splits.exists_encode hsyms fullRange_normal 0
  obtain ⟨bytes, pad, hbytes, hpad, hbits⟩ := Encoder.encode_sim h hsyms Encoder.init_sim
    fullRange_normal (by omega) henc
  obtain ⟨d, hout, hlow, hhigh⟩ := h.shares.doublings h.splits (by decide) (by omega) (by decide)
    hsyms fullRange_normal (by decide) henc
  refine ⟨bytes, d, hbytes, ?_, ?_, ?_⟩
  · have hcount := congrArg List.length hbits
    rw [length_byteBits, length_append, length_append, hout, length_nil] at hcount
    unfold outputBufferLengthPerThread
    omega
  · rw [← pow_mul] at hlow
    exact_mod_cast hlow
  · rw [← pow_mul] at hhigh
    exact_mod_cast hhigh

end kernel

/-! ### Shares in a chunk -/

def scaledEnd (maxBins : ℕ) (tokens : List (BitVec 8)) (i : ℕ) : ℕ :=
  if i = maxBins then 2 ^ 16 else scaled maxBins tokens i

/-- The width of a symbol in the row of a chunk, out of 65536. -/
def share (maxBins : ℕ) (tokens : List (BitVec 8)) (sym : BitVec 8) : ℕ :=
  scaledEnd maxBins tokens (sym.toNat + 1) - scaled maxBins tokens sym.toNat

/-- The product of `65536 / share` over the symbols of a sub-chunk is at most `2 ^ bits`. -/
def Spread (bits maxBins : ℕ) (tokens sub : List (BitVec 8)) : Prop :=
  2 ^ (16 * sub.length) ≤ 2 ^ bits * (sub.map (share maxBins tokens)).prod

section chunk
variable {maxBins : ℕ} {tokens : List (BitVec 8)} {sub : List (BitVec 8)}

theorem Spread.doublings_le {bits d : ℕ} (h : Spread bits maxBins tokens sub)
    (hlow : (sub.map (share maxBins tokens)).prod * 2 ^ d < 2 * 2 ^ (16 * sub.length)) : d ≤ bits :=
  CodeLength.doublings_le hlow h

theorem spread_of_doublings {bits d : ℕ}
    (hhigh : 2 ^ (16 * sub.length) < 8 * ((sub.map (share maxBins tokens)).prod * 2 ^ d))
    (hd : d ≤ bits) : Spread (bits + 3) maxBins tokens sub :=
  le_of_doublings hhigh hd

theorem spread_nil (bits : ℕ) : Spread bits maxBins tokens [] :=
  Nat.one_le_two_pow.trans (Nat.mul_one _).ge

theorem Counted.width_eq (h : Counted maxBins tokens) (hbins : maxBins < maxLp) {sym : BitVec 8}
    (hsym : sym.toNat < maxBins) :
    width (maxBins + 1) (calculateCdfKernel maxBins tokens) sym = share maxBins tokens sym := by
  have hbins' : maxBins < 64 := lt_trans hbins (by decide)
  have hbound : ∀ i ≤ maxBins, bound (maxBins + 1) (calculateCdfKernel maxBins tokens) i =
      scaledEnd maxBins tokens i := by
    intro i hi
    unfold bound scaledEnd
    split_ifs with h₁ h₂ h₂
    · rfl
    · omega
    · omega
    · exact h.calculateCdfKernel_at hbins' hi
  rw [width, share, hbound _ hsym, hbound _ hsym.le, scaledEnd, scaledEnd,
    if_neg (by omega : ¬ sym.toNat = maxBins)]

theorem Counted.map_width (h : Counted maxBins tokens) (hbins : maxBins < maxLp)
    (hsub : ∀ sym ∈ sub, sym.toNat < maxBins) :
    sub.map (width (maxBins + 1) (calculateCdfKernel maxBins tokens)) =
      sub.map (share maxBins tokens) :=
  map_congr_left fun sym hsym => h.width_eq hbins (hsub sym hsym)

/-- **A sub-chunk.**  The thread stays inside its buffer when the symbols are not too rare,
and leaves it when they are. -/
theorem Counted.sub_chunk_bytes (h : Counted maxBins tokens) (hbins : maxBins < maxLp)
    (hlen : sub.length ≤ 256) (hsub : ∀ sym ∈ sub, sym.toNat < maxBins) :
    ∃ bytes, encodeWithAccessorKernel (maxBins + 1) (calculateCdfKernel maxBins tokens) sub =
        some bytes ∧
      (Spread 2046 maxBins tokens sub → bytes.length ≤ outputBufferLengthPerThread) ∧
      (bytes.length ≤ outputBufferLengthPerThread → Spread 2049 maxBins tokens sub) := by
  obtain ⟨bytes, d, henc, hfits, hlow, hhigh⟩ := (h.validRow hbins).kernel_bytes hlen
    fun sym hsym => Nat.succ_le_succ (hsub sym hsym)
  rw [h.map_width hbins hsub] at hlow hhigh
  refine ⟨bytes, henc, ?_, ?_⟩
  · intro hspread
    exact hfits.mpr (hspread.doublings_le hlow)
  · intro hbytes
    exact spread_of_doublings hhigh (hfits.mp hbytes)

/-! ### Short chunks -/

theorem count_eq (tokens : List (BitVec 8)) (sym : BitVec 8) :
    below tokens (sym.toNat + 1) = below tokens sym.toNat + tokens.count sym := by
  rw [below_succ, count]
  congr 2
  funext v
  rw [Bool.eq_iff_iff, decide_eq_true_eq, beq_iff_eq, BitVec.toNat_inj]

theorem Counted.le_share (h : Counted maxBins tokens) (hlen : tokens.length < 2 ^ 16)
    (hbins : maxBins ≤ 48) (sym : BitVec 8) :
    (65535 - maxBins) * tokens.count sym ≤ share maxBins tokens sym * tokens.length := by
  have hpos := h.pos
  have hlt : ∀ i, below tokens i < 2 ^ 16 := fun i =>
    lt_of_le_of_lt countP_le_length hlen
  have hcount := count_eq tokens sym
  rw [Nat.mod_eq_of_lt hlen] at hpos
  obtain ⟨A, hA⟩ : ∃ A, A = 65535 - maxBins := ⟨_, rfl⟩
  obtain ⟨N, hN⟩ : ∃ N, N = tokens.length := ⟨_, rfl⟩
  rw [← hN] at hlen hpos
  have hend : A * below tokens (sym.toNat + 1) / N + sym.toNat + 1 ≤
      scaledEnd maxBins tokens (sym.toNat + 1) := by
    unfold scaledEnd
    split_ifs with hlast
    · have : A * below tokens (sym.toNat + 1) / N ≤ A := by
        rw [hlast, below_of_all h.symbols, ← hN, Nat.mul_div_cancel _ hpos]
      omega
    · rw [scaled, ← hA, ← hN, Nat.mod_eq_of_lt hlen, Nat.mod_eq_of_lt (hlt _)]
      omega
  have hstart : scaled maxBins tokens sym.toNat = A * below tokens sym.toNat / N + sym.toNat := by
    rw [scaled, ← hA, ← hN, Nat.mod_eq_of_lt hlen, Nat.mod_eq_of_lt (hlt _)]
  have hshare : A * below tokens (sym.toNat + 1) / N + 1 - A * below tokens sym.toNat / N ≤
      share maxBins tokens sym := by
    rw [share, hstart]
    omega
  rw [← hA, ← hN]
  apply le_trans _ (Nat.mul_le_mul_right N hshare)
  have h₁ := Nat.div_add_mod (A * below tokens (sym.toNat + 1)) N
  have h₂ := Nat.mod_lt (A * below tokens (sym.toNat + 1)) hpos
  have h₃ := Nat.div_mul_le_self (A * below tokens sym.toNat) N
  have h₄ :
      A * below tokens (sym.toNat + 1) = A * below tokens sym.toNat + A * tokens.count sym := by
    rw [hcount]
    ring
  rw [Nat.sub_mul, Nat.add_mul, Nat.one_mul]
  rw [Nat.mul_comm] at h₁
  omega

theorem card_toFinset_le (hsub : ∀ sym ∈ sub, sym.toNat < maxBins) :
    sub.toFinset.card ≤ maxBins := by
  have hmaps : ∀ sym ∈ sub.toFinset, sym.toNat ∈ Finset.range maxBins := fun sym hsym =>
    Finset.mem_range.mpr (hsub sym (mem_toFinset.mp hsym))
  have hinj : Set.InjOn BitVec.toNat (sub.toFinset : Set (BitVec 8)) := fun _ _ _ _ heq =>
    BitVec.eq_of_toNat_eq heq
  have := Finset.card_le_card_of_injOn BitVec.toNat hmaps hinj
  rwa [Finset.card_range] at this

/-- **Short chunks.**  The product of all `65536 / share` is at most the 256th power of the
mean of its factors, and a symbol occurs in the chunk at least as often as in the sub-chunk. -/
theorem spread_of_length (hsyms : ∀ sym ∈ tokens, sym.toNat < maxBins) (hbins : maxBins ≤ 48)
    (hshort : tokens.length * maxBins ≤ 63 * 1024) (hsub : sub.Sublist tokens)
    (hlen : sub.length ≤ 256) : Spread 2046 maxBins tokens sub := by
  by_cases hnil : sub = []
  · rw [hnil]
    exact spread_nil 2046
  have hne : tokens ≠ [] := fun h => hnil (sublist_nil.mp (h ▸ hsub))
  have hpos : 0 < maxBins := by
    obtain ⟨sym, rest, htokens⟩ := exists_cons_of_ne_nil hne
    have := hsyms sym (htokens ▸ mem_cons_self)
    omega
  have hlength : tokens.length < 2 ^ 16 := by nlinarith
  have hcounted := counted_of_length hsyms hne hlength
  have hN : (0 : ℝ) < tokens.length := Nat.cast_pos.mpr (length_pos_iff.mpr hne)
  have hshare : ∀ sym ∈ sub, (65536 : ℝ) * sub.count sym ≤
      share maxBins tokens sym * (65536 / 65487 * tokens.length) := by
    intro sym _
    have hle := hcounted.le_share hlength hbins sym
    have hmul : 65487 * sub.count sym ≤ (65535 - maxBins) * tokens.count sym :=
      Nat.mul_le_mul (by omega) (hsub.count_le sym)
    have hcast : (65487 : ℝ) * sub.count sym ≤ share maxBins tokens sym * tokens.length := by
      exact_mod_cast hmul.trans hle
    linarith
  have hcard : (65536 / 65487 * tokens.length : ℝ) * sub.toFinset.card ≤ (256 : ℕ) * 254 := by
    have hle : tokens.length * sub.toFinset.card ≤ 63 * 1024 :=
      (Nat.mul_le_mul_left _ (card_toFinset_le fun sym hsym => hsyms sym (hsub.subset hsym))).trans
        hshort
    have hcast : (tokens.length * sub.toFinset.card : ℝ) ≤ 63 * 1024 := by exact_mod_cast hle
    push_cast
    linarith
  have hmain := pow_le_mul_prod (by norm_num) (by positivity) (by norm_num) hlen hshare hcard
  have hnat : 65536 ^ sub.length ≤ 254 ^ 256 * (sub.map (share maxBins tokens)).prod := by
    have hcast : (sub.map fun sym => (share maxBins tokens sym : ℝ)).prod =
        ((sub.map (share maxBins tokens)).prod : ℕ) := by
      rw [Nat.cast_list_prod, map_map]
      rfl
    rw [hcast] at hmain
    exact_mod_cast hmain
  have hpow : 254 ^ 256 ≤ 2 ^ 2046 := by decide +kernel
  rw [Spread, pow_mul]
  exact hnat.trans (Nat.mul_le_mul_right _ hpow)

end chunk

/-! ### The whole chunk -/

theorem mapM_ok {α β ε : Type} {f : α → Except ε β} {g : α → β} (l : List α)
    (h : ∀ a ∈ l, f a = .ok (g a)) : l.mapM f = .ok (l.map g) := by
  induction l with
  | nil => rfl
  | cons a l ih =>
    rw [mapM_cons, h a mem_cons_self, ih (forall_mem_cons.mp h).2]
    rfl

variable {chunkSize : ℕ}

theorem mem_subChunks {se : ℕ × ℕ} (h : se ∈ subChunks chunkSize) :
    se.2 - se.1 ≤ maxTokensPerThread ∧ 0 < chunkSize := by
  obtain ⟨i, hi, rfl⟩ := List.mem_map.mp h
  rw [List.mem_range] at hi
  unfold cachegenGpuMaxTokensPerChunk at hi ⊢
  unfold maxTokensPerThread
  omega

theorem slice_sublist (tokens : List (BitVec 8)) (se : ℕ × ℕ) : (slice tokens se).Sublist tokens :=
  (drop_sublist _ _).trans (take_sublist _ _)

theorem length_slice {se : ℕ × ℕ} (h : se ∈ subChunks chunkSize) (tokens : List (BitVec 8)) :
    (slice tokens se).length ≤ 256 := by
  have := (mem_subChunks h).1
  unfold maxTokensPerThread at this
  rw [slice, length_drop, length_take]
  omega

def written (maxBins chunkSize : ℕ) (encodeInput : List (List (BitVec 8))) :
    List (List (Option (List (BitVec 8)))) :=
  (subChunks chunkSize).map fun se => encodeInput.map fun row =>
    encodeWithAccessorKernel (maxBins + 1) (calculateCdfKernel maxBins row) (slice row se)

theorem encodeFunction_ok {maxBins : ℕ} (hbins : maxBins < maxLp) (chunkSize : ℕ)
    (encodeInput : List (List (BitVec 8))) :
    encodeFunction maxBins chunkSize encodeInput = .ok (written maxBins chunkSize encodeInput) := by
  have hbins' : maxBins < maxBinsSupported := lt_trans hbins (by decide)
  unfold encodeFunction calculateCdf
  rw [if_pos hbins']
  apply mapM_ok
  intro se hse
  unfold encodeCudaNew
  rw [if_pos (mem_subChunks hse).1, if_pos (Nat.succ_le_of_lt hbins), zipWith_map_left,
    zipWith_map_right, zipWith_self]

theorem encodeFunction_error {maxBins : ℕ} (hbins : ¬ maxBins < maxLp)
    {encodeInput : List (List (BitVec 8))} {out : List (List (Option (List (BitVec 8))))}
    (hout : encodeFunction maxBins chunkSize encodeInput = .ok out) : out = [] := by
  unfold encodeFunction calculateCdf at hout
  split_ifs at hout
  · cases hsub : subChunks chunkSize with
    | nil =>
      rw [hsub] at hout
      cases hout
      rfl
    | cons se rest =>
      have hse := (mem_subChunks (hsub ▸ mem_cons_self : se ∈ subChunks chunkSize)).1
      rw [hsub] at hout
      simp only [Except.bind, mapM_cons, encodeCudaNew] at hout
      rw [if_pos hse, if_neg (fun hle => hbins (Nat.lt_of_succ_le hle))] at hout
      cases hout
  · cases hout

def WithinBuffers (maxBins chunkSize : ℕ) (encodeInput : List (List (BitVec 8))) : Prop :=
  ∀ out, encodeFunction maxBins chunkSize encodeInput = .ok out →
    ∀ threads ∈ out, ∀ thread ∈ threads, ∃ bytes, thread = some bytes ∧
      bytes.length ≤ outputBufferLengthPerThread

/-- The symbols of a row can be counted, and those of no sub-chunk are too rare in the row. -/
structure Fits (maxBins : ℕ) (row : List (BitVec 8)) : Prop where
  counted : row ≠ [] → Counted maxBins row
  spread : ∀ se ∈ subChunks row.length, Spread 2046 maxBins row (slice row se)

/-- **The output buffers.**  When every row fits, no thread leaves its buffer.  Conversely, in
a chunk whose symbols can be counted the threads stay inside their buffers only if the symbols
of every sub-chunk are rare by at most three bits more.  All rows of a chunk fit that has at
most `63 * 1024 / max_bins` tokens. -/
theorem encode_function_within_buffers {maxBins chunkSize : ℕ}
    {encodeInput : List (List (BitVec 8))} (hbins : maxBins ≤ 48)
    (hlen : ∀ row ∈ encodeInput, row.length = chunkSize)
    (hsyms : ∀ row ∈ encodeInput, ∀ sym ∈ row, sym.toNat < maxBins) :
    ((∀ row ∈ encodeInput, Fits maxBins row) → WithinBuffers maxBins chunkSize encodeInput) ∧
    (maxBins < maxLp → (∀ row ∈ encodeInput, Counted maxBins row) →
      WithinBuffers maxBins chunkSize encodeInput →
        ∀ row ∈ encodeInput, ∀ se ∈ subChunks chunkSize,
          Spread 2049 maxBins row (slice row se)) ∧
    (chunkSize * maxBins ≤ 63 * 1024 → ∀ row ∈ encodeInput, Fits maxBins row) := by
  refine ⟨?_, ?_, ?_⟩
  · intro hfits out hout threads hthreads thread hthread
    by_cases hlp : maxBins < maxLp
    · rw [encodeFunction_ok hlp] at hout
      cases hout
      obtain ⟨se, hse, rfl⟩ := mem_map.mp hthreads
      obtain ⟨row, hrow, rfl⟩ := mem_map.mp hthread
      have hne : row ≠ [] := by
        have := (mem_subChunks hse).2
        grind
      obtain ⟨bytes, henc, hin, -⟩ := ((hfits row hrow).counted hne).sub_chunk_bytes hlp
        (length_slice hse row) fun sym hsym =>
          hsyms row hrow sym ((slice_sublist row se).subset hsym)
      exact ⟨bytes, henc, hin ((hfits row hrow).spread se ((hlen row hrow).symm ▸ hse))⟩
    · rw [encodeFunction_error hlp hout] at hthreads
      cases hthreads
  · intro hlp hcounted hwithin row hrow se hse
    obtain ⟨bytes, henc, -, hout⟩ := (hcounted row hrow).sub_chunk_bytes hlp
      (length_slice hse row) fun sym hsym => hsyms row hrow sym ((slice_sublist row se).subset hsym)
    obtain ⟨bytes', heq, hle⟩ := hwithin _ (encodeFunction_ok hlp chunkSize encodeInput) _
      (mem_map_of_mem hse) _ (mem_map_of_mem hrow)
    grind
  · intro hshort row hrow
    rw [← hlen row hrow] at hshort
    refine ⟨?_, ?_⟩
    · intro hne
      apply counted_of_length (hsyms row hrow) hne
      have hpos : 0 < maxBins := by
        obtain ⟨sym, rest, hcons⟩ := exists_cons_of_ne_nil hne
        have := hsyms row hrow sym (hcons ▸ mem_cons_self)
        omega
      nlinarith
    · intro se hse
      exact spread_of_length (hsyms row hrow) hbins hshort (slice_sublist row se)
        (length_slice hse row)

/-- A chunk of 300 tokens, in two sub-chunks, the second of which holds rare symbols. -/
theorem encode_function_within_buffers_short :
    WithinBuffers 32 300 [List.replicate 270 0 ++ List.replicate 30 5] := by
  have h := @encode_function_within_buffers 32 300 [replicate 270 0 ++ replicate 30 5]
    (by decide)
    (by
      intro row hrow
      rw [mem_singleton.mp hrow, length_append, length_replicate,
        length_replicate])
    (by
      intro row hrow sym hsym
      rw [mem_singleton.mp hrow, mem_append] at hsym
      rcases hsym with hsym | hsym
      · rw [eq_of_mem_replicate hsym]
        decide
      · rw [eq_of_mem_replicate hsym]
        decide)
  exact h.1 (h.2.2 (by decide))

/-- The last 256 tokens are spread over 31 symbols that do not occur before them. -/
def rareSubChunk : List (BitVec 8) := (List.range 256).map fun i => BitVec.ofNat 8 (i % 31 + 1)

def rareChunk : List (BitVec 8) := List.replicate 2304 0 ++ rareSubChunk

theorem length_rareSubChunk : rareSubChunk.length = 256 := by
  rw [rareSubChunk, length_map, length_range]

theorem slice_rareChunk : slice rareChunk (2304, 2560) = rareSubChunk := by
  have htake : (replicate 2304 (0 : BitVec 8) ++ rareSubChunk).length = 2560 := by
    rw [length_append, length_replicate, length_rareSubChunk]
  rw [slice, rareChunk, take_of_length_le htake.le, drop_left' length_replicate]

theorem toNat_lt_of_mem_rareChunk : ∀ sym ∈ rareChunk, sym.toNat < 32 := by
  intro sym hsym
  rw [rareChunk, mem_append] at hsym
  rcases hsym with hsym | hsym
  · rw [eq_of_mem_replicate hsym]
    decide
  · obtain ⟨i, -, rfl⟩ := mem_map.mp hsym
    rw [BitVec.toNat_ofNat]
    omega

theorem calculateCdfKernel_rareChunk : calculateCdfKernel 32 rareChunk =
    [0, 58953, 59184, 59416, 59647, 59878, 60110, 60341, 60572, 60803, 61009, 61215, 61421, 61626,
      61832, 62038, 62243, 62449, 62655, 62860, 63066, 63272, 63478, 63683, 63889, 64095, 64300,
      64506, 64712, 64917, 65123, 65329, 65535] := by
  decide +kernel

theorem length_encode_rareSubChunk : (encodeWithAccessorKernel (32 + 1)
    (calculateCdfKernel 32 rareChunk) (slice rareChunk (2304, 2560))).map List.length =
      some 265 := by
  rw [calculateCdfKernel_rareChunk, slice_rareChunk]
  decide +kernel

/-- 2560 tokens with symbols below 32: the thread writes 265 bytes for the last 256 tokens. -/
theorem encode_function_leaves_buffer :
    (∀ row ∈ [rareChunk], row.length = 2560 ∧ ∀ sym ∈ row, sym.toNat < 32) ∧
      ¬ WithinBuffers 32 2560 [rareChunk] := by
  refine ⟨?_, fun hwithin => ?_⟩
  · intro row hrow
    rw [mem_singleton.mp hrow]
    refine ⟨?_, toNat_lt_of_mem_rareChunk⟩
    rw [rareChunk, length_append, length_replicate, length_rareSubChunk]
  · have hse : (2304, 2560) ∈ subChunks 2560 := by decide
    have hwritten := hwithin _ (encodeFunction_ok (by decide) 2560 [rareChunk]) _
      (mem_map_of_mem hse) _ (mem_map_of_mem (mem_singleton_self rareChunk))
    have hlength := length_encode_rareSubChunk
    obtain ⟨bytes, heq, hle⟩ := hwritten
    rw [heq, Option.map_some, Option.some.injEq] at hlength
    rw [hlength] at hle
    exact absurd hle (by decide)

end LMCache.CacheGen
