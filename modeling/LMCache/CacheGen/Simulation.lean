import LMCache.CacheGen.OutputBits
import LMCache.CacheGen.Subdivision
import Mathlib.Tactic.IntervalCases

/-! # The kernels run the interval coder

The registers `low` and `high` of both kernels hold a range of the interval coder with 32-bit
numbers.  `Encoder.Sim` and `Decoder.Sim` say which state of the coder a state of the kernels
stands for, and `Encoder.renormalize_sim` and `Decoder.renormalize_sim` that the loops of the
kernels double the range as the coder does, with the same bits written or read.

The pending bits are counted in a 64-bit register but passed on as an `int`; the number of
doublings bounds them. -/

namespace LMCache.CacheGen

open List BitStream IntervalCoder Encoder BitVec

/-! ### Doubling the registers -/

section registers
variable (x : BitVec 32)

theorem toNat_double : (x <<< 1).toNat = 2 * x.toNat % 2 ^ 32 := by
  rw [toNat_shiftLeft, Nat.shiftLeft_eq]
  omega

theorem toNat_double_or {b : ℕ} (hb : b < 2) :
    (2 * x.toNat % 2 ^ 32) ||| b = 2 * x.toNat % 2 ^ 32 + b := by
  have h := Nat.two_pow_add_eq_or_of_lt (i := 1) hb (x.toNat % 2 ^ 31)
  grind

theorem toNat_double_one : ((x <<< 1) ||| 1).toNat = 2 * x.toNat % 2 ^ 32 + 1 := by
  rw [toNat_or, toNat_double]
  exact toNat_double_or x (by decide)

theorem toNat_double_low : ((x <<< 1) &&& 0x7FFFFFFF).toNat = 2 * x.toNat % 2 ^ 31 := by
  rw [toNat_and, toNat_double]
  show (2 * x.toNat % 2 ^ 32) &&& (2 ^ 31 - 1) = _
  rw [Nat.and_two_pow_sub_one_eq_mod]
  omega

theorem toNat_double_high (h : 2 * x.toNat % 2 ^ 32 < 2 ^ 31) :
    ((x <<< 1) ||| 0x80000001).toNat = 2 * x.toNat % 2 ^ 32 + 2 ^ 31 + 1 := by
  have hsplit : (x <<< 1) ||| (0x80000001 : BitVec 32) = ((x <<< 1) ||| 1) ||| 0x80000000 := by
    rw [BitVec.or_assoc]
    rfl
  have hone := toNat_double_one x
  have hor := Nat.two_pow_add_eq_or_of_lt (i := 31) (b := 2 * x.toNat % 2 ^ 32 + 1) (by omega) 1
  grind

end registers

section ranges
variable {low high : BitVec 32}

theorem scale_rangeOf (low high : BitVec 32) : (rangeOf low high).scale 30 =
    if high < 0x80000000 then some .lower
    else if 0x80000000 ≤ low then some .upper
    else if 0x40000000 ≤ low ∧ high < 0xC0000000 then some .middle
    else none := by
  have h₁ : high < 0x80000000 ↔ (high.toNat : ℤ) < 2 * 2 ^ 30 := by
    rw [lt_def, show (0x80000000 : BitVec 32).toNat = 2 ^ 31 from rfl]
    omega
  have h₂ : 0x80000000 ≤ low ↔ 2 * 2 ^ 30 ≤ (low.toNat : ℤ) := by
    rw [le_def, show (0x80000000 : BitVec 32).toNat = 2 ^ 31 from rfl]
    omega
  have h₃ : 0x40000000 ≤ low ↔ 2 ^ 30 ≤ (low.toNat : ℤ) := by
    rw [le_def, show (0x40000000 : BitVec 32).toNat = 2 ^ 30 from rfl]
    omega
  have h₄ : high < 0xC0000000 ↔ (high.toNat : ℤ) < 3 * 2 ^ 30 := by
    rw [lt_def, show (0xC0000000 : BitVec 32).toNat = 3 * 2 ^ 30 from rfl]
    omega
  simp only [h₁, h₂, h₃, h₄]
  rfl

theorem rangeOf_lower (h : high < 0x80000000) (hle : low.toNat ≤ high.toNat) :
    rangeOf (low <<< 1) ((high <<< 1) ||| 1) = (rangeOf low high).stretch 30 .lower := by
  have h : high.toNat < 2 ^ 31 := lt_def.mp h
  rw [rangeOf, toNat_double, toNat_double_one, rangeOf, Range.stretch, Range.mk.injEq]
  simp only [Scale.offset]
  omega

theorem rangeOf_upper (h : 0x80000000 ≤ low) (hle : low.toNat ≤ high.toNat) :
    rangeOf (low <<< 1) ((high <<< 1) ||| 1) = (rangeOf low high).stretch 30 .upper := by
  have h : 2 ^ 31 ≤ low.toNat := le_def.mp h
  rw [rangeOf, toNat_double, toNat_double_one, rangeOf, Range.stretch, Range.mk.injEq]
  simp only [Scale.offset]
  omega

theorem rangeOf_middle (hlow : 0x40000000 ≤ low) (hlow' : ¬ 0x80000000 ≤ low)
    (hhigh : high < 0xC0000000) (hhigh' : ¬ high < 0x80000000) :
    rangeOf ((low <<< 1) &&& 0x7FFFFFFF) ((high <<< 1) ||| 0x80000001) =
      (rangeOf low high).stretch 30 .middle := by
  have h₁ : 2 ^ 30 ≤ low.toNat := le_def.mp hlow
  have h₂ : ¬ 2 ^ 31 ≤ low.toNat := fun h => hlow' (le_def.mpr h)
  have h₃ : high.toNat < 3 * 2 ^ 30 := lt_def.mp hhigh
  have h₄ : ¬ high.toNat < 2 ^ 31 := fun h => hhigh' (lt_def.mpr h)
  rw [rangeOf, toNat_double_low, toNat_double_high high (by omega), rangeOf, Range.stretch,
    Range.mk.injEq]
  simp only [Scale.offset]
  omega

end ranges

/-! ### The encoder -/

/-- The state of the coder that the encoder is in: the range, the number of pending bits and
the bits written. -/
structure Encoder.Sim (e : Encoder) (r : Range) (p : ℕ) (bits : List Bool) : Prop where
  range : rangeOf e.low e.high = r
  pending : e.pendingBits.toNat = p
  room : e.output.Room
  bits : e.output.bits = bits

variable {e : Encoder} {r : Range} {p : ℕ} {bits : List Bool}

theorem Encoder.Sim.pending_succ (h : e.Sim r p bits) (hp : p + 1 < 2 ^ 64) :
    (e.pendingBits + 1).toNat = p + 1 := by
  have := h.pending
  grind

theorem Encoder.append_sim (b : Bool) {r₁ : Range} (h : e.Sim r p bits) (hp : p < 2 ^ 31)
    {low high : BitVec 32} (hr : rangeOf low high = r₁) :
    ∃ o, appendBitAndPending (bitOf b) e.pendingBits e.output = some (0, o) ∧
      Encoder.Sim ⟨low, high, 0, o⟩ r₁ 0 (bits ++ b :: replicate p (!b)) := by
  obtain ⟨o, happ, hroom, hbits⟩ := appendBitAndPending_spec b _ (h.pending.symm ▸ hp) h.room
  refine ⟨o, happ, hr, rfl, hroom, ?_⟩
  rw [hbits, h.bits, h.pending]

theorem Encoder.renormalize_sim {fuel : ℕ} {r' : Range} {cs : List Scale} (h : e.Sim r p bits)
    (hr : r.Valid 30) (hp : p + fuel < 2 ^ 31) (hn : r.normalize 30 fuel = some (cs, r')) :
    ∃ e', e.renormalize fuel = some e' ∧
      e'.Sim r' (emitAll p cs).2 (bits ++ (emitAll p cs).1) := by
  induction fuel generalizing e r p bits cs with
  | zero => cases hn
  | succ fuel ih =>
    have hle : e.low.toNat ≤ e.high.toNat := by
      have := hr.le
      rw [← h.range] at this
      exact Int.ofNat_le.mp this
    have hstretch := fun c => hr.stretch (c := c)
    rw [Range.normalize] at hn
    rw [← h.range, scale_rangeOf] at hn hstretch
    rw [renormalize]
    split_ifs at hn hstretch ⊢ with hlow hup hmid
    · obtain ⟨⟨cs, r''⟩, heq, hcons⟩ := Option.map_eq_some_iff.mp hn
      cases hcons
      obtain ⟨o, happ, hsim⟩ := append_sim false h (by omega) (rangeOf_lower hlow hle)
      obtain ⟨e', heq', hsim'⟩ := ih hsim (hstretch .lower rfl) (by omega) heq
      refine ⟨e', ?_, ?_⟩
      · rw [show (0 : BitVec 32) = bitOf false from rfl, happ]
        exact heq'
      · rw [List.append_assoc] at hsim'
        exact hsim'
    · obtain ⟨⟨cs, r''⟩, heq, hcons⟩ := Option.map_eq_some_iff.mp hn
      cases hcons
      obtain ⟨o, happ, hsim⟩ := append_sim true h (by omega) (rangeOf_upper hup hle)
      obtain ⟨e', heq', hsim'⟩ := ih hsim (hstretch .upper rfl) (by omega) heq
      refine ⟨e', ?_, ?_⟩
      · rw [show appendBitAndPending 1 = appendBitAndPending (bitOf true) from rfl, happ]
        exact heq'
      · rw [List.append_assoc] at hsim'
        exact hsim'
    · obtain ⟨⟨cs, r''⟩, heq, hcons⟩ := Option.map_eq_some_iff.mp hn
      cases hcons
      exact ih (p := p + 1)
        ⟨rangeOf_middle hmid.1 hup hmid.2 hlow, h.pending_succ (by omega), h.room, h.bits⟩
        (hstretch .middle rfl) (by omega) heq
    · cases hn
      refine ⟨e, rfl, rfl, h.pending, h.room, ?_⟩
      rw [h.bits, emitAll, append_nil]

theorem Encoder.finish_sim (h : e.Sim r p bits) (hp : p + 1 < 2 ^ 31) :
    ∃ bytes pad, e.finish = some bytes ∧ pad.length < 8 ∧
      byteBits bytes = bits ++ flush 30 r p ++ pad := by
  have hsucc := h.pending_succ (by omega)
  have hflush : flush 30 r p = (!decide (e.low < 0x40000000)) ::
      replicate (p + 1) (decide (e.low < 0x40000000)) := by
    have hlow : e.low < 0x40000000 ↔ (e.low.toNat : ℤ) < 2 ^ 30 := by
      rw [lt_def, show (0x40000000 : BitVec 32).toNat = 2 ^ 30 from rfl]
      omega
    rw [flush, ← h.range, rangeOf]
    by_cases hq : (e.low.toNat : ℤ) < 2 ^ 30
    · rw [if_pos hq, decide_eq_true (hlow.mpr hq)]
      rfl
    · rw [if_neg hq, decide_eq_false fun hlt => hq (hlow.mp hlt)]
      rfl
  have hbit : (if e.low < 0x40000000 then 0 else 1) = bitOf (!decide (e.low < 0x40000000)) := by
    by_cases hq : e.low < 0x40000000
    · rw [if_pos hq, decide_eq_true hq]
      rfl
    · rw [if_neg hq, decide_eq_false hq]
      rfl
  obtain ⟨o, happ, hroom, hbits⟩ := appendBitAndPending_spec (!decide (e.low < 0x40000000))
    (e.pendingBits + 1) (by omega) h.room
  obtain ⟨bytes, pad, hspill, hpad, hbytes⟩ := spillPartialRegToShared_spec hroom
  refine ⟨bytes, pad, ?_, hpad, ?_⟩
  · rw [finish, hbit, happ, Option.bind_some, hspill]
  · rw [hbytes, hbits, h.bits, hsucc, hflush, Bool.not_not]

/-- **The encoder** writes the bits of the coder. -/
theorem Encoder.encode_sim {lp : ℕ} {cdf : List (BitVec 16)} (hrow : ValidRow lp cdf)
    {syms : List (BitVec 8)} (hsyms : ∀ sym ∈ syms, IsSymbol lp sym) {out : List Bool}
    (h : e.Sim r p bits) (hr : r.Normal 30) (hp : p + 33 * syms.length + 1 < 2 ^ 31)
    (henc : encode 30 (part lp cdf) 33 r p syms = some out) :
    ∃ bytes pad, (syms.foldlM (encodeSym lp cdf) e).bind finish = some bytes ∧
      pad.length < 8 ∧ byteBits bytes = bits ++ out ++ pad := by
  induction syms generalizing e r p bits out with
  | nil =>
    cases henc
    exact finish_sim h (by simpa using hp)
  | cons sym syms ih =>
    have hsym := hsyms sym mem_cons_self
    have hvalid := (hrow.part_valid hsym hr).1
    rw [encode, Option.bind_eq_some_iff] at henc
    obtain ⟨⟨cs, r'⟩, hnorm, henc⟩ := henc
    obtain ⟨rest, hrest, rfl⟩ := Option.map_eq_some_iff.mp henc
    obtain ⟨hr', hlen⟩ := hvalid.normalize_spec hnorm
    have hpending := emitAll_pending_le p cs
    rw [length_cons] at hp
    have hnew : Encoder.Sim
        { e with
          low := newLow e.low e.high (cLow cdf sym.toNat)
          high := newHigh e.low e.high (cHigh lp cdf sym.toNat) } (part lp cdf sym r) p bits := by
      refine { h with range := ?_ }
      rw [← h.range] at hr ⊢
      exact hrow.range_new hsym hr
    obtain ⟨e', heq, hsim⟩ := renormalize_sim hnew hvalid (by omega) hnorm
    obtain ⟨bytes, pad, hbytes, hpad, hbits⟩ := ih
      (forall_mem_cons.mp hsyms).2 hsim hr' (by omega) hrest
    refine ⟨bytes, pad, ?_, hpad, ?_⟩
    · rw [foldlM_cons, encodeSym, heq]
      exact hbytes
    · grind

/-! ### Reading bits -/

section decoder
variable {bytestream : ℕ → BitVec 8} {d : Decoder} {r : Range} {vk : ℤ × ℕ}

/-- The state of the coder that the decoder is in: the range, the number in the window and the
position of the next bit. -/
structure Decoder.Sim (bytestream : ℕ → BitVec 8) (d : Decoder) (r : Range) (vk : ℤ × ℕ) :
    Prop where
  range : rangeOf d.low d.high = r
  value : (d.value.toNat : ℤ) = vk.1
  buffer : d.byteBuffer = bytestream d.byteBufferOffset
  bitIdx_pos : 1 ≤ d.bitIdx
  bitIdx_le : d.bitIdx ≤ 8
  position : 8 * (d.byteBufferOffset : ℤ) + d.bitIdx = vk.2 + 1

theorem Decoder.Sim.nextBit (h : d.Sim bytestream r vk) :
    ((d.byteBuffer.setWidth 32 >>> (8 - d.bitIdx).toNat) &&& 1).toNat =
      (byteStream bytestream vk.2).toNat := by
  have h₁ := h.bitIdx_pos
  have h₂ := h.bitIdx_le
  have h₃ := h.position
  rw [toNat_and, toNat_ushiftRight, toNat_setWidth, Nat.mod_eq_of_lt (by omega)]
  show _ &&& (2 ^ 1 - 1) = _
  rw [Nat.and_two_pow_sub_one_eq_mod, byteStream, show vk.2 / 8 = d.byteBufferOffset by omega,
    show 7 - vk.2 % 8 = (8 - d.bitIdx).toNat by omega, ← h.buffer, Nat.testBit_eq_decide_div_mod_eq,
    Nat.shiftRight_eq_div_pow]
  rcases Nat.mod_two_eq_zero_or_one (d.byteBuffer.toNat / 2 ^ (8 - d.bitIdx).toNat) with h₀ | h₁
  · simp [h₀]
  · simp [h₁]

/-- A bit is read after the registers have changed. -/
theorem Decoder.Sim.read (h : d.Sim bytestream r vk) {low high value : BitVec 32} {r' : Range}
    {v : ℤ} (hr : rangeOf low high = r')
    (hv : ((2 * value.toNat % 2 ^ 32 : ℕ) : ℤ) + (byteStream bytestream vk.2).toNat = v) :
    Decoder.Sim bytestream
      (Decoder.checkAndUpdateByteBuffer bytestream
        (Decoder.readNextBit { d with low := low, high := high, value := value })) r'
      (v, vk.2 + 1) := by
  have h₁ := h.bitIdx_pos
  have h₂ := h.bitIdx_le
  have h₃ := h.position
  have hbit := h.nextBit
  have hvalue : (((value <<< 1) ||| ((d.byteBuffer.setWidth 32 >>> (8 - d.bitIdx).toNat) &&&
      1)).toNat : ℤ) = v := by
    have hle := Bool.toNat_le (byteStream bytestream vk.2)
    rw [toNat_or, toNat_double, hbit, toNat_double_or value (by omega)]
    push_cast at hv ⊢
    exact hv
  unfold Decoder.readNextBit Decoder.checkAndUpdateByteBuffer
  dsimp only
  split_ifs with hfull
  · refine ⟨hr, hvalue, rfl, le_refl (1 : ℤ), (by decide : (1 : ℤ) ≤ 8), ?_⟩
    push_cast
    omega
  · refine ⟨hr, hvalue, h.buffer, ?_, ?_, ?_⟩
    · dsimp only
      omega
    · dsimp only
      omega
    · push_cast
      omega

theorem Decoder.renormalize_sim {fuel : ℕ} {r' : Range} {cs : List Scale}
    (h : d.Sim bytestream r vk) (hr : r.Valid 30) (hv : vk.1 ∈ r)
    (hn : r.normalize 30 fuel = some (cs, r')) :
    ∃ d', d.renormalize bytestream fuel = some d' ∧
      d'.Sim bytestream r' (readAll 30 (byteStream bytestream) vk cs) := by
  induction fuel generalizing d r vk cs with
  | zero => cases hn
  | succ fuel ih =>
    have hle : d.low.toNat ≤ d.high.toNat := by
      have := hr.le
      rw [← h.range] at this
      exact Int.ofNat_le.mp this
    have hmem : (d.low.toNat : ℤ) ≤ vk.1 ∧ vk.1 ≤ d.high.toNat := by
      rw [← h.range] at hv
      exact hv
    rw [← h.value] at hmem
    have hstretch := fun c => hr.stretch (c := c)
    rw [Range.normalize] at hn
    rw [← h.range, scale_rangeOf] at hn hstretch
    rw [Decoder.renormalize]
    split_ifs at hn hstretch with hlow hup hmid
    · obtain ⟨⟨cs, r''⟩, heq, hcons⟩ := Option.map_eq_some_iff.mp hn
      cases hcons
      have hlt : d.high.toNat < 2 ^ 31 := lt_def.mp hlow
      rw [if_pos (Or.inr hlow), readAll]
      refine ih (h.read (rangeOf_lower hlow hle) ?_) (hstretch .lower rfl)
        (mem_stretch_iff.mpr (h.range ▸ hv)) heq
      rw [← h.value, Scale.offset]
      omega
    · obtain ⟨⟨cs, r''⟩, heq, hcons⟩ := Option.map_eq_some_iff.mp hn
      cases hcons
      have hge : 2 ^ 31 ≤ d.low.toNat := le_def.mp hup
      rw [if_pos (Or.inl hup), readAll]
      refine ih (h.read (rangeOf_upper hup hle) ?_) (hstretch .upper rfl)
        (mem_stretch_iff.mpr (h.range ▸ hv)) heq
      rw [← h.value, Scale.offset]
      omega
    · obtain ⟨⟨cs, r''⟩, heq, hcons⟩ := Option.map_eq_some_iff.mp hn
      cases hcons
      have hge : 2 ^ 30 ≤ d.low.toNat := le_def.mp hmid.1
      have hlt : d.high.toNat < 3 * 2 ^ 30 := lt_def.mp hmid.2
      have hsub : (d.value - 0x40000000).toNat = d.value.toNat - 2 ^ 30 := by
        rw [toNat_sub, show (0x40000000 : BitVec 32).toNat = 2 ^ 30 from rfl]
        omega
      rw [if_neg (not_or.mpr ⟨hup, hlow⟩), if_pos hmid, readAll]
      refine ih (h.read (rangeOf_middle hmid.1 hup hmid.2 hlow) ?_) (hstretch .middle rfl)
        (mem_stretch_iff.mpr (h.range ▸ hv)) heq
      rw [← h.value, Scale.offset, hsub]
      omega
    · cases hn
      rw [if_neg (not_or.mpr ⟨hup, hlow⟩), if_neg hmid]
      exact ⟨d, rfl, { h with range := rfl }⟩

end decoder

end LMCache.CacheGen
