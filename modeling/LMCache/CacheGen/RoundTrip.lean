import LMCache.CacheGen.Simulation

/-! # Round trip of the arithmetic coder

The parts of a valid row split every normal range (`splits`), so that the interval coder with
these parts is correct by `Splits.decode_encode`.  Both kernels run that coder: the encoder by
`Encoder.encode_sim`, the decoder by `Decoder.decode_sim`.

`arithmetic_coder_round_trip`: the encoder terminates, and from any bytes that begin with what
it wrote the decoder reads the same symbols again. -/

namespace LMCache.CacheGen

open BitStream IntervalCoder

/-! ### The coder of a row -/

section coder
variable {lp : ℕ} {cdf : List (BitVec 16)}

noncomputable def find (lp : ℕ) (cdf : List (BitVec 16)) (r : Range) (v : ℤ) : BitVec 8 :=
  open Classical in
  if h : ∃ sym, IsSymbol lp sym ∧ v ∈ part lp cdf sym r then h.choose else 0

theorem ValidRow.find_eq (h : ValidRow lp cdf) {sym : BitVec 8} (hsym : IsSymbol lp sym)
    {r : Range} (hr : r.Valid 30) {v : ℤ} (hv : v ∈ part lp cdf sym r) : find lp cdf r v = sym := by
  have hex : ∃ sym, IsSymbol lp sym ∧ v ∈ part lp cdf sym r := ⟨sym, hsym, hv⟩
  rw [find, dif_pos hex]
  exact h.part_disjoint hex.choose_spec.1 hsym hr hex.choose_spec.2 hv

theorem ValidRow.splits (h : ValidRow lp cdf) :
    Splits 30 (part lp cdf) (find lp cdf) (IsSymbol lp) where
  valid := fun _ _ hsym hr => (h.part_valid hsym hr).1
  subset := fun _ _ v hsym hr hv => (h.part_valid hsym hr).2 v hv
  find_eq := fun _ _ _ hsym hr hv => h.find_eq hsym hr.toValid hv

/-- **The decoder** finds the symbols of the coder. -/
theorem Decoder.decode_sim (hrow : ValidRow lp cdf) (hlp : 2 ≤ lp) {bytestream : ℕ → BitVec 8}
    {n : ℕ} {d : Decoder} {r : Range} {vk : ℤ × ℕ} (h : d.Sim bytestream r vk)
    (hr : r.Normal 30) (hv : vk.1 ∈ r) :
    d.decodeTokens lp cdf bytestream n =
      decode 30 (part lp cdf) (find lp cdf) (byteStream bytestream) 33 r vk n := by
  induction n generalizing d r vk with
  | zero => rfl
  | succ n ih =>
    rw [← h.range, ← h.value] at hv
    obtain ⟨m, hm, hmod, hsym, hpart⟩ := hrow.binsearch_count hlp hv
    rw [h.range, h.value] at hpart
    have hfind := hrow.find_eq hsym hr.toValid hpart
    rw [Decoder.decodeTokens, hm, Option.bind_some]
    cases n with
    | zero => rw [if_pos rfl, decode, hfind]
    | succ n =>
      have hvalid := (hrow.part_valid hsym hr).1
      obtain ⟨⟨cs, r'⟩, hnorm⟩ := hvalid.exists_normalize
      have hnew : Decoder.Sim bytestream
          { d with
            low := newLow d.low d.high (cLow cdf m)
            high := newHigh d.low d.high (cHigh lp cdf m) }
          (part lp cdf (BitVec.ofNat 8 m) r) vk := by
        refine { h with range := ?_ }
        have hrange := hrow.range_new hsym (h.range.symm ▸ hr)
        rw [hmod, h.range] at hrange
        exact hrange
      obtain ⟨d', heq, hsim⟩ := Decoder.renormalize_sim hnew hvalid hpart hnorm
      have hmem := (mem_of_normalize (s := byteStream bytestream) hnorm vk.1 vk.2).mpr hpart
      rw [if_neg (Nat.succ_ne_zero n), heq, Option.bind_some, decode, hfind, hnorm,
        Option.bind_some, ih hsim (hvalid.normalize_spec hnorm).1 hmem]

end coder

/-! ### The first states -/

def fullRange : Range := ⟨0, 2 ^ 32 - 1⟩

theorem fullRange_normal : fullRange.Normal 30 := by
  refine ⟨⟨?_, ?_, ?_⟩, ?_⟩
  all_goals decide

theorem Encoder.init_sim : Encoder.init.Sim fullRange 0 [] :=
  ⟨rfl, rfl, ⟨le_refl (0 : ℤ), (by decide : (0 : ℤ) < 32)⟩, rfl⟩

variable (bytestream : ℕ → BitVec 8)

theorem testBit_bigToSmall {k i : ℕ} (hk : k < 4) (hi : i < 8) :
    (bigToSmall (loadWord bytestream)).getLsbD (8 * k + i) = (bytestream (3 - k)).getLsbD i := by
  unfold bigToSmall loadWord
  interval_cases k <;> interval_cases i <;> simp

theorem toNat_bigToSmall :
    (bigToSmall (loadWord bytestream)).toNat = word (byteStream bytestream) 0 32 := by
  have hfollows : Follows (byteStream bytestream) 0
      (msbBits 32 (bigToSmall (loadWord bytestream)).toNat) := by
    apply follows_msbBits
    intro i hi
    have hbit := testBit_bigToSmall bytestream (k := 3 - i / 8) (i := 7 - i % 8) (by omega)
      (by omega)
    rw [show 8 * (3 - i / 8) + (7 - i % 8) = 32 - 1 - i by omega,
      show 3 - (3 - i / 8) = i / 8 by omega] at hbit
    rw [BitVec.testBit_toNat, hbit, Nat.zero_add, byteStream, BitVec.testBit_toNat]
  rw [word_of_follows hfollows, Nat.mod_eq_of_lt (bigToSmall (loadWord bytestream)).isLt]

theorem Decoder.init_sim :
    (Decoder.init bytestream).Sim bytestream fullRange
      (IntervalCoder.value 30 (byteStream bytestream) 0 0, 32) where
  range := rfl
  value := by
    rw [IntervalCoder.value]
    exact congrArg Int.ofNat (toNat_bigToSmall bytestream)
  buffer := rfl
  bitIdx_pos := le_refl (1 : ℤ)
  bitIdx_le := (by decide : (1 : ℤ) ≤ 8)
  position := rfl

/-! ### The round trip -/

/-- **Round trip.**  For every valid row and at most 256 symbols of it the encoder terminates.
If its bytes fit into the buffer, then the decoder reads exactly the symbols from them,
whatever follows them. -/
theorem arithmetic_coder_round_trip {lp : ℕ} {cdf : List (BitVec 16)} (hrow : ValidRow lp cdf)
    {syms : List (BitVec 8)} (hlen : syms.length ≤ 256) (hsyms : ∀ sym ∈ syms, IsSymbol lp sym) :
    ∃ bytes, encodeWithAccessorKernel lp cdf syms = some bytes ∧
      (bytes.length ≤ outputBufferLengthPerThread →
        ∀ bytestream : ℕ → BitVec 8, (∀ i b, bytes[i]? = some b → bytestream i = b) →
          decodeWithAccessorKernel lp cdf syms.length bytestream = some syms) := by
  obtain ⟨out, henc⟩ := hrow.splits.exists_encode hsyms fullRange_normal 0
  obtain ⟨bytes, pad, hbytes, -, hbits⟩ := Encoder.encode_sim hrow hsyms Encoder.init_sim
    fullRange_normal (by omega) henc
  refine ⟨bytes, hbytes, fun _ bytestream hstream => ?_⟩
  cases syms with
  | nil => rfl
  | cons sym syms =>
    have hlp : 2 ≤ lp := le_trans (Nat.le_add_left 2 _) (hsyms sym List.mem_cons_self)
    have hfollows := byteStream_follows (k := 0) fun i b hb =>
      (congrArg bytestream (Nat.zero_add i)).trans (hstream i b hb)
    rw [hbits, List.nil_append, follows_append] at hfollows
    obtain ⟨hmem, hdec⟩ := hrow.splits.decode_encode hsyms fullRange_normal henc hfollows.1
    rw [decodeWithAccessorKernel,
      Decoder.decode_sim hrow hlp (Decoder.init_sim bytestream) fullRange_normal hmem]
    exact hdec

/-- Four symbols of a row with a part of a single number in 65536. -/
theorem arithmetic_coder_round_trip_four :
    ValidRow 4 [0, 1, 30000, 65535] ∧
      ∃ bytes, encodeWithAccessorKernel 4 [0, 1, 30000, 65535] [2, 0, 1, 0] = some bytes ∧
        decodeWithAccessorKernel 4 [0, 1, 30000, 65535] 4 (fun i => bytes.getD i 0xA5) =
          some [2, 0, 1, 0] := by
  have hrow : ValidRow 4 [0, 1, 30000, 65535] :=
    ⟨by decide, rfl, by decide, rfl⟩
  have hsyms : ∀ sym ∈ ([2, 0, 1, 0] : List (BitVec 8)), IsSymbol 4 sym := by
    unfold IsSymbol
    decide
  obtain ⟨bytes, henc, hdec⟩ := arithmetic_coder_round_trip hrow (by decide) hsyms
  refine ⟨hrow, bytes, henc, hdec ?_ _ fun i b hb => ?_⟩
  · have hlen : (encodeWithAccessorKernel 4 [0, 1, 30000, 65535] [2, 0, 1, 0]).map List.length =
        some 5 := by decide +kernel
    rw [henc, Option.map_some, Option.some.injEq] at hlen
    rw [hlen]
    decide
  · rw [List.getD_eq_getElem?_getD, hb, Option.getD_some]

end LMCache.CacheGen
