import Mathlib.Data.Int.Init

/-! # The arithmetic coder of CacheGen

One thread of `encode_with_accessor_kernel` encodes the symbols of one layer and channel, and
one thread of the decoding kernels decodes them; both decoding kernels run the same loop.

* **Integers.**  `uint8_t`, `uint16_t`, `uint32_t` and `uint64_t` are bit vectors, which wrap
  around; a shift of a 32-bit register by 32 gives 0, as on the device.  `int` is `ℤ`.
* **Memory.**  `outputShared` is the list of the bytes that the thread has written to its part
  of the shared memory, whose length is the offset; it is meaningful as long as there are at
  most `outputBufferLengthPerThread` of them.  The decoder reads from a sequence of bytes
  without an end: behind the encoded bytes lies whatever the shared memory holds.
* **Loops.**  A `while` loop gets fuel and returns `none` when it runs out of it.
* **The row of the CDF** is the part of `cdf_shared` that belongs to the thread. -/

namespace LMCache.CacheGen

def outputBufferLengthPerThread : ℕ := 256

/-! ### Output -/

/-- The output register and the bytes in the shared memory. -/
structure Output where
  outputReg : BitVec 32
  outputRegLen : ℤ
  outputShared : List (BitVec 8)
deriving DecidableEq, Repr

/-- `spill_reg_to_shared`.  The register is passed by value: the caller's keeps its bits. -/
def spillRegToShared (o : Output) : Output :=
  let outputReg := o.outputReg <<< (32 - o.outputRegLen).toNat
  { o with
    outputRegLen := 0
    outputShared := o.outputShared ++
      [(outputReg >>> 24).setWidth 8, ((outputReg >>> 16) &&& 0xFF).setWidth 8,
        ((outputReg >>> 8) &&& 0xFF).setWidth 8, (outputReg &&& 0xFF).setWidth 8] }

/-- The loop of `spill_partial_reg_to_shared`. -/
def spillBytes : ℕ → BitVec 32 → ℤ → List (BitVec 8) → Option (List (BitVec 8))
  | 0, _, _, _ => none
  | fuel + 1, outputReg, outputRegLen, outputShared =>
    if 0 < outputRegLen then
      spillBytes fuel (outputReg <<< 8) (outputRegLen - 8)
        (outputShared ++ [(outputReg >>> 24).setWidth 8])
    else some outputShared

def spillPartialRegToShared (o : Output) : Option (List (BitVec 8)) :=
  spillBytes 5 (o.outputReg <<< (32 - o.outputRegLen).toNat) o.outputRegLen o.outputShared

/-- The `do … while` loop of `add_bits_to_output`. -/
def addBits (bit : BitVec 32) : ℕ → ℤ → Output → Option Output
  | 0, _, _ => none
  | fuel + 1, num, o =>
    let remaining := min num (32 - o.outputRegLen)
    let o : Output :=
      { o with
        outputReg := (o.outputReg <<< remaining.toNat) ||| ((bit <<< remaining.toNat) - bit)
        outputRegLen := o.outputRegLen + remaining }
    let num := num - remaining
    let o := if o.outputRegLen = 32 then spillRegToShared o else o
    if 0 < num then addBits bit fuel num o else some o

def addBitsToOutput (bit : BitVec 32) (num : ℤ) (o : Output) : Option Output :=
  addBits bit (num.toNat + 1) num o

/-- `append_bit_and_pending`; the 64-bit counter is passed as an `int`. -/
def appendBitAndPending (bit : BitVec 32) (pendingBits : BitVec 64) (o : Output) :
    Option (BitVec 64 × Output) :=
  (addBitsToOutput bit 1 o).bind fun o =>
    (addBitsToOutput (1 - bit) (pendingBits.setWidth 32).toInt o).map fun o => (0, o)

/-! ### The range -/

def maxSymbol (lp : ℕ) : ℤ := (lp : ℤ) - 2

def cdfAt (cdf : List (BitVec 16)) (i : ℕ) : BitVec 16 := cdf.getD i 0

def cLow (cdf : List (BitVec 16)) (sym : ℕ) : BitVec 32 := (cdfAt cdf sym).setWidth 32

def cHigh (lp : ℕ) (cdf : List (BitVec 16)) (sym : ℕ) : BitVec 32 :=
  if (sym : ℤ) = maxSymbol lp then 0x10000 else (cdfAt cdf (sym + 1)).setWidth 32

def span (low high : BitVec 32) : BitVec 64 := high.setWidth 64 - low.setWidth 64 + 1

def newLow (low high cLow : BitVec 32) : BitVec 32 :=
  (low.setWidth 64 + ((span low high * cLow.setWidth 64) >>> 16)).setWidth 32

def newHigh (low high cHigh : BitVec 32) : BitVec 32 :=
  ((low - 1).setWidth 64 + ((span low high * cHigh.setWidth 64) >>> 16)).setWidth 32

/-! ### Encoding -/

structure Encoder where
  low : BitVec 32
  high : BitVec 32
  pendingBits : BitVec 64
  output : Output
deriving DecidableEq, Repr

def Encoder.init : Encoder :=
  { low := 0, high := 0xFFFFFFFF, pendingBits := 0, output := ⟨0, 0, []⟩ }

/-- The `while (true)` loop of the encoder. -/
def Encoder.renormalize : ℕ → Encoder → Option Encoder
  | 0, _ => none
  | fuel + 1, e =>
    if e.high < 0x80000000 then
      (appendBitAndPending 0 e.pendingBits e.output).bind fun r =>
        Encoder.renormalize fuel
          { low := e.low <<< 1, high := (e.high <<< 1) ||| 1, pendingBits := r.1, output := r.2 }
    else if 0x80000000 ≤ e.low then
      (appendBitAndPending 1 e.pendingBits e.output).bind fun r =>
        Encoder.renormalize fuel
          { low := e.low <<< 1, high := (e.high <<< 1) ||| 1, pendingBits := r.1, output := r.2 }
    else if 0x40000000 ≤ e.low ∧ e.high < 0xC0000000 then
      Encoder.renormalize fuel
        { e with
          low := (e.low <<< 1) &&& 0x7FFFFFFF
          high := (e.high <<< 1) ||| 0x80000001
          pendingBits := e.pendingBits + 1 }
    else some e

def Encoder.encodeSym (lp : ℕ) (cdf : List (BitVec 16)) (e : Encoder) (sym : BitVec 8) :
    Option Encoder :=
  Encoder.renormalize 33
    { e with
      low := newLow e.low e.high (cLow cdf sym.toNat)
      high := newHigh e.low e.high (cHigh lp cdf sym.toNat) }

def Encoder.finish (e : Encoder) : Option (List (BitVec 8)) :=
  (appendBitAndPending (if e.low < 0x40000000 then 0 else 1) (e.pendingBits + 1) e.output).bind
    fun r => spillPartialRegToShared r.2

/-- The bytes that the thread produces for its symbols. -/
def encodeWithAccessorKernel (lp : ℕ) (cdf : List (BitVec 16)) (inputSym : List (BitVec 8)) :
    Option (List (BitVec 8)) :=
  (inputSym.foldlM (Encoder.encodeSym lp cdf) Encoder.init).bind Encoder.finish

/-! ### Decoding -/

/-- `big_to_small<uint32_t>`. -/
def bigToSmall (value : BitVec 32) : BitVec 32 :=
  ((value &&& 0xFF000000) >>> 24) ||| ((value &&& 0x00FF0000) >>> 8) |||
    ((value &&& 0x0000FF00) <<< 8) ||| ((value &&& 0x000000FF) <<< 24)

/-- `((uint32_t*)bytestream)[0]` on a little-endian device. -/
def loadWord (bytestream : ℕ → BitVec 8) : BitVec 32 :=
  (bytestream 0).setWidth 32 ||| ((bytestream 1).setWidth 32 <<< 8) |||
    ((bytestream 2).setWidth 32 <<< 16) ||| ((bytestream 3).setWidth 32 <<< 24)

structure Decoder where
  low : BitVec 32
  high : BitVec 32
  value : BitVec 32
  byteBuffer : BitVec 8
  bitIdx : ℤ
  byteBufferOffset : ℕ
deriving DecidableEq, Repr

def Decoder.init (bytestream : ℕ → BitVec 8) : Decoder :=
  { low := 0
    high := 0xFFFFFFFF
    value := bigToSmall (loadWord bytestream)
    byteBuffer := bytestream 4
    bitIdx := 1
    byteBufferOffset := 4 }

/-- `read_next_bit<8>`. -/
def Decoder.readNextBit (d : Decoder) : Decoder :=
  { d with
    value := (d.value <<< 1) ||| ((d.byteBuffer.setWidth 32 >>> (8 - d.bitIdx).toNat) &&& 1)
    bitIdx := d.bitIdx + 1 }

/-- `check_and_update_byte_buffer<8, uint8_t>`. -/
def Decoder.checkAndUpdateByteBuffer (bytestream : ℕ → BitVec 8) (d : Decoder) : Decoder :=
  if d.bitIdx = 8 + 1 then
    { d with
      bitIdx := 1
      byteBufferOffset := d.byteBufferOffset + 1
      byteBuffer := bytestream (d.byteBufferOffset + 1) }
  else d

/-- The `while (true)` loop of the decoder. -/
def Decoder.renormalize (bytestream : ℕ → BitVec 8) : ℕ → Decoder → Option Decoder
  | 0, _ => none
  | fuel + 1, d =>
    if 0x80000000 ≤ d.low ∨ d.high < 0x80000000 then
      Decoder.renormalize bytestream fuel
        (Decoder.checkAndUpdateByteBuffer bytestream
          (Decoder.readNextBit { d with low := d.low <<< 1, high := (d.high <<< 1) ||| 1 }))
    else if 0x40000000 ≤ d.low ∧ d.high < 0xC0000000 then
      Decoder.renormalize bytestream fuel
        (Decoder.checkAndUpdateByteBuffer bytestream
          (Decoder.readNextBit
            { d with
              low := (d.low <<< 1) &&& 0x7FFFFFFF
              high := (d.high <<< 1) ||| 0x80000001
              value := d.value - 0x40000000 }))
    else some d

def Decoder.count (d : Decoder) : BitVec 16 :=
  (((d.value.setWidth 64 - d.low.setWidth 64 + 1) * 0x10000 - 1) / span d.low d.high).setWidth 16

/-- The loop of `binsearch`; the positions are far below the bound of `uint16_t`. -/
def binsearchLoop (cdf : List (BitVec 16)) (target : BitVec 16) : ℕ → ℕ → ℕ → Option ℕ
  | 0, _, _ => none
  | fuel + 1, left, right =>
    if left + 1 < right then
      let m := (left + right) / 2
      let v := cdfAt cdf m
      if v < target then binsearchLoop cdf target fuel m right
      else if target < v then binsearchLoop cdf target fuel left m
      else some m
    else some left

def binsearch (cdf : List (BitVec 16)) (target : BitVec 16) (maxSym : BitVec 8) : Option ℕ :=
  binsearchLoop cdf target (maxSym.toNat + 1) 0 (maxSym.toNat + 1)

/-- The loop over the tokens, with the number of tokens that are left. -/
def Decoder.decodeTokens (lp : ℕ) (cdf : List (BitVec 16)) (bytestream : ℕ → BitVec 8) :
    ℕ → Decoder → Option (List (BitVec 8))
  | 0, _ => some []
  | n + 1, d =>
    (binsearch cdf d.count (BitVec.ofInt 8 (maxSymbol lp))).bind fun symI =>
      if n = 0 then some [BitVec.ofNat 8 symI]
      else
        (Decoder.renormalize bytestream 33
          { d with
            low := newLow d.low d.high (cLow cdf symI)
            high := newHigh d.low d.high (cHigh lp cdf symI) }).bind fun d =>
          (Decoder.decodeTokens lp cdf bytestream n d).map (BitVec.ofNat 8 symI :: ·)

/-- The symbols that a thread of `decode_with_accessor_kernel` or of
`decode_prefix_with_accessor_kernel` finds in the bytes of its row. -/
def decodeWithAccessorKernel (lp : ℕ) (cdf : List (BitVec 16)) (ntokens : ℕ)
    (bytestream : ℕ → BitVec 8) : Option (List (BitVec 8)) :=
  Decoder.decodeTokens lp cdf bytestream ntokens (Decoder.init bytestream)

end LMCache.CacheGen
