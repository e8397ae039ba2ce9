import LMCache.CacheGen.Kernels
import LMCache.Lib.BitStream

/-! # What the encoder writes

The bits of an output are those of its bytes, followed by the low `output_reg_len` bits of its
register.  The register may hold older bits above them: `spill_reg_to_shared` does not clear
the caller's register.

`appendBitAndPending_spec` says that the bit and its pending opposites are appended, whatever
spills happen on the way, and `spillPartialRegToShared_spec` that the last bytes hold the bits
and some padding. -/

namespace LMCache.CacheGen

open List BitStream BitVec

namespace Output

def bits (o : Output) : List Bool :=
  byteBits o.outputShared ++ msbBits o.outputRegLen.toNat o.outputReg.toNat

structure Room (o : Output) : Prop where
  nonneg : 0 ≤ o.outputRegLen
  lt : o.outputRegLen < 32

end Output

def bitOf (b : Bool) : BitVec 32 := if b then 1 else 0

theorem one_sub_bitOf (b : Bool) : 1 - bitOf b = bitOf !b := by
  cases b <;> rfl

/-! ### Shifting bits into the register -/

theorem toNat_mask {r : ℕ} (hr : r ≤ 32) : ((1#32 <<< r) - 1#32).toNat = 2 ^ r - 1 := by
  have hpos : 0 < 2 ^ r := Nat.two_pow_pos r
  rw [toNat_sub, toNat_shiftLeft, toNat_ofNat, Nat.one_mod_two_pow (by omega), Nat.one_shiftLeft]
  rcases Nat.lt_or_eq_of_le hr with hlt | rfl
  · have hle : 2 ^ r < 2 ^ 32 := Nat.pow_lt_pow_right (by omega) hlt
    rw [Nat.mod_eq_of_lt hle]
    omega
  · rfl

theorem testBit_mask {r i : ℕ} (hr : r ≤ 32) (b : Bool) :
    ((bitOf b <<< r) - bitOf b).toNat.testBit i = (b && decide (i < r)) := by
  cases b with
  | false => simp [bitOf]
  | true =>
    show ((1#32 <<< r) - 1#32).toNat.testBit i = _
    rw [toNat_mask hr, Nat.testBit_two_pow_sub_one, Bool.true_and]

theorem msbBits_shiftIn (reg : BitVec 32) {n r : ℕ} (hr : n + r ≤ 32) (b : Bool) :
    msbBits (n + r) ((reg <<< r) ||| ((bitOf b <<< r) - bitOf b)).toNat =
      msbBits n reg.toNat ++ replicate r b := by
  have hbit : ∀ i, ((reg <<< r) ||| ((bitOf b <<< r) - bitOf b)).toNat.testBit i =
      ((decide (i < 32) && (decide (r ≤ i) && reg.toNat.testBit (i - r))) ||
        (b && decide (i < r))) := by
    intro i
    rw [toNat_or, Nat.testBit_lor, testBit_mask (by omega), toNat_shiftLeft,
      Nat.testBit_mod_two_pow, Nat.testBit_shiftLeft]
  rw [msbBits_add]
  congr 1
  · apply msbBits_congr
    intro i hi
    rw [Nat.testBit_shiftRight, hbit, Nat.add_sub_cancel_left]
    grind
  · apply msbBits_eq_replicate
    grind

/-! ### Bytes of the register -/

theorem setWidth_and_ff (x : BitVec 32) : (x &&& 0xFF).setWidth 8 = x.setWidth 8 := by
  apply eq_of_toNat_eq
  rw [toNat_setWidth, toNat_setWidth, toNat_and]
  show (x.toNat &&& (2 ^ 8 - 1)) % 2 ^ 8 = x.toNat % 2 ^ 8
  rw [Nat.and_two_pow_sub_one_eq_mod, Nat.mod_mod]

theorem msbBits_byte (x : BitVec 32) (k : ℕ) :
    msbBits 8 ((x >>> k).setWidth 8).toNat = msbBits 8 (x.toNat >>> k) := by
  apply msbBits_congr
  grind

variable {o : Output}

theorem spillRegToShared_bits (h : o.outputRegLen = 32) :
    (spillRegToShared o).bits = byteBits o.outputShared ++ msbBits 32 o.outputReg.toNat := by
  have hreg : o.outputReg <<< (32 - o.outputRegLen).toNat = o.outputReg := by
    rw [h]
    exact shiftLeft_zero _
  have hlast := msbBits_byte o.outputReg 0
  rw [ushiftRight_zero, Nat.shiftRight_zero] at hlast
  have hsplit : msbBits 32 o.outputReg.toNat = msbBits 8 (o.outputReg.toNat >>> 24) ++
      (msbBits 8 (o.outputReg.toNat >>> 16) ++
        (msbBits 8 (o.outputReg.toNat >>> 8) ++ msbBits 8 o.outputReg.toNat)) := by
    rw [msbBits_add 8 24, msbBits_add 8 16, msbBits_add 8 8]
  unfold spillRegToShared Output.bits
  rw [hreg]
  dsimp only
  rw [setWidth_and_ff, setWidth_and_ff, setWidth_and_ff, byteBits_append, hsplit]
  simp only [byteBits_cons, byteBits_nil, msbBits_byte, hlast, append_nil, Int.toNat_zero,
    msbBits_zero]

/-! ### Writing bits -/

/-- One pass of the loop of `add_bits_to_output`. -/
def Output.shiftIn (o : Output) (bit : BitVec 32) (r : ℤ) : Output :=
  let o : Output :=
    { o with
      outputReg := (o.outputReg <<< r.toNat) ||| ((bit <<< r.toNat) - bit)
      outputRegLen := o.outputRegLen + r }
  if o.outputRegLen = 32 then spillRegToShared o else o

theorem addBits_succ (bit : BitVec 32) (fuel : ℕ) (num : ℤ) (o : Output) :
    addBits bit (fuel + 1) num o =
      if 0 < num - min num (32 - o.outputRegLen) then
        addBits bit fuel (num - min num (32 - o.outputRegLen))
          (o.shiftIn bit (min num (32 - o.outputRegLen)))
      else some (o.shiftIn bit (min num (32 - o.outputRegLen))) := rfl

theorem Output.shiftIn_spec (ho : o.Room) {r : ℤ} (hr : 0 ≤ r) (hroom : o.outputRegLen + r ≤ 32)
    (b : Bool) :
    (o.shiftIn (bitOf b) r).Room ∧
      (o.shiftIn (bitOf b) r).bits = o.bits ++ replicate r.toNat b := by
  have hpos := ho.nonneg
  have hbits : msbBits (o.outputRegLen + r).toNat
      ((o.outputReg <<< r.toNat) ||| ((bitOf b <<< r.toNat) - bitOf b)).toNat =
        msbBits o.outputRegLen.toNat o.outputReg.toNat ++ replicate r.toNat b := by
    rw [Int.toNat_add hpos hr, msbBits_shiftIn _ (by omega)]
  unfold Output.shiftIn
  dsimp only
  split_ifs with hfull
  · refine ⟨⟨le_refl (0 : ℤ), (by decide : (0 : ℤ) < 32)⟩, ?_⟩
    rw [hfull] at hbits
    rw [spillRegToShared_bits hfull, Output.bits, List.append_assoc, ← hbits]
    rfl
  · refine ⟨⟨?_, ?_⟩, ?_⟩
    · dsimp only
      omega
    · dsimp only
      omega
    · rw [Output.bits, Output.bits, List.append_assoc, ← hbits]

theorem addBits_spec (b : Bool) {fuel : ℕ} (num : ℤ) (ho : o.Room) (hnum : 0 ≤ num)
    (hfuel : num.toNat < fuel) :
    ∃ o', addBits (bitOf b) fuel num o = some o' ∧ o'.Room ∧
      o'.bits = o.bits ++ replicate num.toNat b := by
  induction fuel generalizing num o with
  | zero => omega
  | succ fuel ih =>
    have hlen := ho.nonneg
    have hlen' := ho.lt
    obtain ⟨hroom, hbits⟩ := Output.shiftIn_spec ho (r := min num (32 - o.outputRegLen))
      (by omega) (by omega) b
    rw [addBits_succ]
    split_ifs with hmore
    · have hfuel' : (num - min num (32 - o.outputRegLen)).toNat < fuel := by omega
      obtain ⟨o', heq, hroom', hbits'⟩ := ih _ hroom hmore.le hfuel'
      refine ⟨o', heq, hroom', ?_⟩
      rw [hbits', hbits, List.append_assoc, List.replicate_append_replicate]
      congr 2
      omega
    · grind

/-- **A bit and its pending opposites.** -/
theorem appendBitAndPending_spec (b : Bool) (pendingBits : BitVec 64)
    (hp : pendingBits.toNat < 2 ^ 31) (ho : o.Room) :
    ∃ o', appendBitAndPending (bitOf b) pendingBits o = some (0, o') ∧ o'.Room ∧
      o'.bits = o.bits ++ b :: replicate pendingBits.toNat (!b) := by
  have hnum : (pendingBits.setWidth 32).toInt = pendingBits.toNat := by
    grind
  obtain ⟨o₁, heq₁, hroom₁, hbits₁⟩ := addBits_spec b 1 ho (by decide)
    (Nat.lt_succ_self _)
  obtain ⟨o₂, heq₂, hroom₂, hbits₂⟩ := addBits_spec (!b) pendingBits.toNat hroom₁
    (Int.natCast_nonneg _) (Nat.lt_succ_self _)
  refine ⟨o₂, ?_, hroom₂, ?_⟩
  · unfold appendBitAndPending addBitsToOutput
    rw [heq₁, Option.bind_some, one_sub_bitOf, hnum, heq₂, Option.map_some]
  · grind

/-! ### The last bytes -/

theorem spillBytes_spec (fuel : ℕ) {n : ℕ} (hn : n ≤ 32) (hfuel : n ≤ 8 * fuel) (reg : BitVec 32)
    (shared : List (BitVec 8)) :
    ∃ bytes pad, spillBytes (fuel + 1) reg n shared = some bytes ∧ pad.length < 8 ∧
      byteBits bytes = byteBits shared ++ msbBits n (reg.toNat >>> (32 - n)) ++ pad := by
  induction fuel generalizing n reg shared with
  | zero =>
    obtain rfl : n = 0 := by omega
    exact ⟨shared, [], rfl, by decide, by simp⟩
  | succ fuel ih =>
    rw [spillBytes]
    split_ifs with hpos
    · have hbyte : byteBits (shared ++ [(reg >>> 24).setWidth 8]) =
          byteBits shared ++ msbBits 8 (reg.toNat >>> 24) := by
        rw [byteBits_append, ← msbBits_byte]
        simp [byteBits]
      by_cases hle : n ≤ 8
      · refine ⟨shared ++ [(reg >>> 24).setWidth 8], msbBits (8 - n) (reg.toNat >>> 24), ?_, ?_, ?_⟩
        · rw [spillBytes, if_neg (by omega)]
        · rw [length_msbBits]
          omega
        · have := msbBits_add n (8 - n) (reg.toNat >>> 24)
          rw [← Nat.shiftRight_add, show n + (8 - n) = 8 by omega,
            show 24 + (8 - n) = 32 - n by omega] at this
          rw [hbyte, this, List.append_assoc]
      · obtain ⟨bytes, pad, heq, hpad, hbits⟩ := ih (n := n - 8) (by omega) (by omega) (reg <<< 8)
          (shared ++ [(reg >>> 24).setWidth 8])
        refine ⟨bytes, pad, ?_, hpad, ?_⟩
        · grind
        · have hsplit := msbBits_add 8 (n - 8) (reg.toNat >>> (32 - n))
          rw [← Nat.shiftRight_add, show 8 + (n - 8) = n by omega,
            show 32 - n + (n - 8) = 24 by omega] at hsplit
          have hrest : msbBits (n - 8) ((reg <<< 8).toNat >>> (32 - (n - 8))) =
              msbBits (n - 8) (reg.toNat >>> (32 - n)) := by
            apply msbBits_congr
            intro i hi
            have h₁ : 32 - (n - 8) + i < 32 := by omega
            have h₂ : 8 ≤ 32 - (n - 8) + i := by omega
            rw [Nat.testBit_shiftRight, Nat.testBit_shiftRight, toNat_shiftLeft,
              Nat.testBit_mod_two_pow, Nat.testBit_shiftLeft, decide_eq_true h₁,
              decide_eq_true h₂, Bool.true_and, Bool.true_and]
            congr 1
            omega
          rw [hbits, hbyte, hrest, hsplit, List.append_assoc (byteBits shared)]
    · simp_all

/-- **The last bytes** hold the bits and less than a byte of padding. -/
theorem spillPartialRegToShared_spec (ho : o.Room) :
    ∃ bytes pad, spillPartialRegToShared o = some bytes ∧ pad.length < 8 ∧
      byteBits bytes = o.bits ++ pad := by
  obtain ⟨n, hn⟩ := Int.eq_ofNat_of_zero_le ho.nonneg
  have hlt := ho.lt
  obtain ⟨bytes, pad, heq, hpad, hbits⟩ := spillBytes_spec 4 (n := n) (by omega) (by omega)
    (o.outputReg <<< (32 - n)) o.outputShared
  refine ⟨bytes, pad, ?_, hpad, ?_⟩
  · rw [spillPartialRegToShared, hn, show ((32 : ℤ) - n).toNat = 32 - n by omega, heq]
  · rw [hbits, Output.bits, hn]
    congr 2
    apply msbBits_congr
    intro i hi
    have h₁ : 32 - n + i < 32 := by omega
    rw [Nat.testBit_shiftRight, toNat_shiftLeft, Nat.testBit_mod_two_pow,
      Nat.testBit_shiftLeft, decide_eq_true h₁, decide_eq_true (Nat.le_add_right _ _),
      Bool.true_and, Bool.true_and, Nat.add_sub_cancel_left]

end LMCache.CacheGen
