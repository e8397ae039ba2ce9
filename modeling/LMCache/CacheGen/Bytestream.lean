import LMCache.CacheGen.Kernels
import LMCache.Python
import Mathlib.Algebra.BigOperators.Ring.Finset
import Mathlib.Data.Int.ConditionallyCompleteOrder

/-! # The packed bytestream of CacheGen

The encoder gives every layer and channel a buffer of its own.  `collect_bytes` packs the bytes
that were written into one stream, and the decoding kernel finds them there again by the cumulative
lengths.

* **Tensors** are lists of lists; `flatten` and `reshape` keep the row-major order.  An accessor
  with 32-bit indexes refuses a tensor of `2 ^ 31` elements.
* **The kernel.**  The threads of a block copy the cumulative lengths and then the windows of all
  their channels to the shared memory, each in strides of the block size.  What no thread has
  written, and what is read outside a tensor, is `none`.
* **Both sides agree** (`bytestream_lossless`): `collectBytes` lays the streams end to end
  (`collectBytes_eq`), and the sum of the lengths before a stream is where it starts
  (`getElem?_packed`, `sumLengthsShared_eq`). -/

namespace LMCache.CacheGen

open List

/-! ### The code -/

/-- `cumsum(0)`, on top of `a`. -/
def cumsum (a : ℤ) : List ℤ → List ℤ
  | [] => []
  | x :: xs => (a + x) :: cumsum (a + x) xs

/-- `roll(1)`. -/
def roll (xs : List ℤ) : List ℤ := xs.getLast?.toList ++ xs.dropLast

/-- `xs[0] = a`. -/
def setFirst (a : ℤ) : List ℤ → Except PyError (List ℤ)
  | [] => .error ⟨.indexError, "index 0 is out of bounds for dimension 0 with size 0"⟩
  | _ :: xs => .ok (a :: xs)

def repeatInterleave (xs : List ℤ) (repeats : List ℕ) : List ℤ :=
  (xs.zip repeats).flatMap fun x => replicate x.2 x.1

def readAt {A : Type} (xs : List A) (i : ℤ) : Option A := if 0 ≤ i then xs[i.toNat]? else none

/-- `xs[i]`; a negative index counts from the end. -/
def item {A : Type} (xs : List A) (i : ℤ) : Except PyError A :=
  match readAt xs (if i < 0 then i + xs.length else i) with
  | some x => .ok x
  | none => .error ⟨.indexError, "index " ++ toString i ++ " is out of bounds"⟩

/-- `xs + arange(len(xs))`, counted from `p`. -/
def addArange (p : ℕ) (xs : List ℤ) : List ℤ := (xs.zipIdx p).map fun x : ℤ × ℕ => x.1 + (x.2 : ℤ)

def unused (outputBufferSize : ℕ) (lengths : List ℕ) : List ℤ :=
  lengths.map fun n : ℕ => (outputBufferSize : ℤ) - (n : ℤ)

def collectBytes (outputBufferSize : ℕ) (outputBuffer : List (List (List (BitVec 8))))
    (outputLengths : List (List ℕ)) : Except PyError (List (BitVec 8)) := do
  let flattenedLengths := outputLengths.flatten
  let flattenedBuffer := outputBuffer.flatten.flatten
  let summedLength := cumsum 0 (unused outputBufferSize flattenedLengths)
  let summedLength ← setFirst 0 (roll summedLength)
  let indexes := repeatInterleave summedLength flattenedLengths
  (addArange 0 indexes).mapM (item flattenedBuffer)

/-- The indexes of one thread in `for (int i = threadIdx.x; i < bound; i += BLOCK_SIZE)`. -/
def strided (threadIdx blockSize bound : ℕ) : List ℕ :=
  (range bound).filter fun i => threadIdx ≤ i && (i - threadIdx) % blockSize == 0

/-- Shared memory that the threads of a block have filled in such a loop. -/
def copied {A : Type} (blockSize bound : ℕ) (f : ℕ → Option A) (i : ℕ) : Option A :=
  if (range blockSize).any fun threadIdx => decide (i ∈ strided threadIdx blockSize bound) then f i
  else none

/-- A conversion to `int32_t`. -/
def toInt32 (x : ℤ) : ℤ := x.bmod (2 ^ 32)

section kernel
variable (nchannels blockSize : ℕ) (bytestreams : List (BitVec 8)) (lengthsPrefix : List ℤ)
    (layerId blockIdx : ℕ)

def sumLengthsShared : ℕ → Option ℤ :=
  copied blockSize (blockSize + 1) fun i =>
    let gid : ℤ := layerId * nchannels + blockIdx * blockSize + i - 1
    if 0 ≤ gid then
      (readAt lengthsPrefix (gid / nchannels * nchannels + gid % nchannels)).map toInt32
    else some 0

def bytestreamsShared (i j : ℕ) : Option (BitVec 8) := do
  let startOffset ← sumLengthsShared nchannels blockSize lengthsPrefix layerId blockIdx i
  let endOffset ← sumLengthsShared nchannels blockSize lengthsPrefix layerId blockIdx (i + 1)
  let length := endOffset - startOffset
  copied blockSize outputBufferLengthPerThread
    (fun j => if (j : ℤ) < length then readAt bytestreams (startOffset + j) else some 0) j

end kernel

/-- `decode_chunk`, to the windows that the decoders read: the decoder of a channel is a thread of
the channel's block. -/
def decodeChunk (nchannels blockSize : ℕ) (bytestream : List (BitVec 8))
    (bytestreamLengths : List (List ℕ)) : Except PyError (ℕ → ℕ → List (Option (BitVec 8))) :=
  let lengthPrefsum := cumsum 0 (bytestreamLengths.flatten.map Nat.cast)
  if bytestream.length < 2 ^ 31 ∧ lengthPrefsum.length < 2 ^ 31 then
    .ok fun layerId channelId =>
      (range outputBufferLengthPerThread).map
        (bytestreamsShared nchannels blockSize bytestream lengthPrefsum layerId
          (channelId / blockSize) (channelId % blockSize))
  else
    .error ⟨.runtimeError, "numel needs to be smaller than int32_t max; otherwise, please use " ++
      "packed_accessor64"⟩

/-! ### Packing -/

def starts (a : ℤ) : List ℤ → List ℤ
  | [] => []
  | x :: xs => a :: starts (a + x) xs

theorem cons_dropLast_cumsum (a x : ℤ) (xs : List ℤ) :
    a :: (cumsum a (x :: xs)).dropLast = starts a (x :: xs) := by
  induction xs generalizing a x with
  | nil => rfl
  | cons y ys ih =>
    rw [cumsum, starts, ← ih (a + x) y]
    rfl

theorem setFirst_roll_cumsum {xs : List ℤ} (h : xs ≠ []) :
    setFirst 0 (roll (cumsum 0 xs)) = .ok (starts 0 xs) := by
  obtain ⟨x, xs, rfl⟩ := exists_cons_of_ne_nil h
  rw [← cons_dropLast_cumsum]
  rfl

variable {A : Type}

theorem item_length (before after : List A) (x : A) :
    item (before ++ x :: after) (before.length : ℤ) = .ok x := by
  have hpos : ¬ (before.length : ℤ) < 0 := by omega
  simp only [item, readAt, if_neg hpos, Int.natCast_nonneg, if_true, Int.toNat_natCast,
    getElem?_append_right (Nat.le_refl _), Nat.sub_self, getElem?_cons_zero]

theorem mapM_item_replicate (row before after : List A) {n : ℕ} (hn : n ≤ row.length)
    (a : ℤ) (p : ℕ) (hp : a + p = before.length) :
    (addArange p (replicate n a)).mapM (item (before ++ (row ++ after))) = .ok (row.take n) := by
  induction row generalizing before n p with
  | nil =>
    obtain rfl : n = 0 := by simpa using hn
    rfl
  | cons b row ih =>
    cases n with
    | zero => rfl
    | succ n =>
      have hrest := ih (before ++ [b]) (by simpa using hn) (p + 1) (by simp; omega)
      rw [append_assoc, singleton_append] at hrest
      have hfirst : addArange p (replicate (n + 1) a) =
          (before.length : ℤ) :: addArange (p + 1) (replicate n a) := by
        rw [← hp]
        rfl
      rw [hfirst, mapM_cons, cons_append, item_length, hrest]
      rfl

def packed {A : Type} (rows : List (List A)) (lengths : List ℕ) : List A :=
  (rows.zip lengths).flatMap fun r => r.1.take r.2

theorem mapM_item_starts {width : ℕ} (rows : List (List A)) (lengths : List ℕ)
    (hcount : rows.length = lengths.length) (hrows : ∀ row ∈ rows, row.length = width)
    (hle : ∀ n ∈ lengths, n ≤ width) (before : List A) (a : ℤ) (p : ℕ)
    (hp : a + p = before.length) :
    (addArange p (repeatInterleave (starts a (unused width lengths)) lengths)).mapM
      (item (before ++ rows.flatten)) = .ok (packed rows lengths) := by
  induction rows generalizing lengths before a p with
  | nil =>
    obtain rfl : lengths = [] := by simpa using hcount.symm
    rfl
  | cons row rows ih =>
    obtain ⟨n, lengths, rfl⟩ := exists_cons_of_length_eq_add_one hcount.symm
    have hwidth := hrows row mem_cons_self
    have hn := hle n mem_cons_self
    have hfirst := mapM_item_replicate row before rows.flatten (hwidth ▸ hn) a p hp
    have hrest := ih lengths (by simpa using hcount) (forall_mem_cons.mp hrows).2
      (forall_mem_cons.mp hle).2 (before ++ row) (a + (width - n)) (p + n)
      (by simp; omega)
    rw [append_assoc] at hrest
    have hsplit : addArange p (repeatInterleave (starts a (unused width (n :: lengths)))
        (n :: lengths)) = addArange p (replicate n a) ++
          addArange (p + n) (repeatInterleave (starts (a + (width - n)) (unused width lengths))
            lengths) := by
      show addArange p (replicate n a ++ _) = _
      rw [addArange, zipIdx_append, map_append, length_replicate]
      rfl
    rw [hsplit, mapM_append, flatten_cons, hfirst, hrest]
    rfl

/-- A tensor of the shape `[nlayers, nchannels]`. -/
structure Shaped {A : Type} (nlayers nchannels : ℕ) (tensor : List (List A)) : Prop where
  layers : tensor.length = nlayers
  channels : ∀ layer ∈ tensor, layer.length = nchannels

section
variable {A : Type} {nlayers nchannels : ℕ} {tensor : List (List A)}

theorem Shaped.length_flatten (h : Shaped nlayers nchannels tensor) :
    tensor.flatten.length = nlayers * nchannels := by
  rw [List.length_flatten, map_congr_left h.channels, map_const', sum_replicate_nat, h.layers]

theorem Shaped.getElem?_flatten (h : Shaped nlayers nchannels tensor) {l k : ℕ}
    (hk : k < nchannels) : tensor.flatten[l * nchannels + k]? = tensor[l]?.bind (·[k]?) := by
  obtain ⟨rfl, hchannels⟩ := h
  induction tensor generalizing l with
  | nil => simp
  | cons layer tensor ih =>
    have hlayer := hchannels layer mem_cons_self
    cases l with
    | zero => simp [getElem?_append_left (hlayer.symm ▸ hk)]
    | succ l =>
      grind

end

/-- **`collect_bytes`** keeps the bytes that were written, stream by stream. -/
theorem collectBytes_eq {width nlayers nchannels : ℕ} {buffer : List (List (List (BitVec 8)))}
    {lengths : List (List ℕ)} (hbuffer : Shaped nlayers nchannels buffer)
    (hlengths : Shaped nlayers nchannels lengths)
    (hrows : ∀ row ∈ buffer.flatten, row.length = width) (hle : ∀ n ∈ lengths.flatten, n ≤ width)
    (hpos : 0 < nlayers * nchannels) :
    collectBytes width buffer lengths = .ok (packed buffer.flatten lengths.flatten) := by
  have hcount : buffer.flatten.length = lengths.flatten.length := by
    rw [hbuffer.length_flatten, hlengths.length_flatten]
  have hne : unused width lengths.flatten ≠ [] := by
    intro hnil
    have hlength := hlengths.length_flatten
    rw [map_eq_nil_iff.mp hnil, length_nil] at hlength
    omega
  have hgather := mapM_item_starts buffer.flatten lengths.flatten hcount hrows hle [] 0 0 rfl
  unfold collectBytes
  simp only [setFirst_roll_cumsum hne]
  exact hgather

/-! ### Unpacking -/

/-- **A stream in the packed bytes** starts behind the lengths of those before it. -/
theorem getElem?_packed {rows : List (List A)} {lengths : List ℕ}
    (hle : ∀ r ∈ rows.zip lengths, r.2 ≤ r.1.length) {k n : ℕ} {row : List A}
    (hrow : rows[k]? = some row) (hn : lengths[k]? = some n) {j : ℕ} (hj : j < n) :
    (packed rows lengths)[(lengths.take k).sum + j]? = row[j]? := by
  induction rows generalizing lengths k with
  | nil => nomatch hrow
  | cons row' rows ih =>
    cases lengths with
    | nil => nomatch hn
    | cons m lengths =>
      have hm : m ≤ row'.length := hle (row', m) mem_cons_self
      have hpacked : packed (row' :: rows) (m :: lengths) = row'.take m ++
          packed rows lengths := rfl
      cases k with
      | zero =>
        grind
      | succ k =>
        have hrest := ih (forall_mem_cons.mp hle).2 hrow hn
        rw [hpacked, take_succ_cons, sum_cons,
          getElem?_append_right (by rw [length_take]; omega), ← hrest]
        grind

theorem length_packed {rows : List (List A)} {lengths : List ℕ}
    (hcount : rows.length = lengths.length) (hle : ∀ r ∈ rows.zip lengths, r.2 ≤ r.1.length) :
    (packed rows lengths).length = lengths.sum := by
  induction rows generalizing lengths with
  | nil =>
    obtain rfl : lengths = [] := by simpa using hcount.symm
    rfl
  | cons row rows ih =>
    obtain ⟨n, lengths, rfl⟩ := exists_cons_of_length_eq_add_one hcount.symm
    have hn : n ≤ row.length := hle (row, n) mem_cons_self
    have hrest := ih (by simpa using hcount) (forall_mem_cons.mp hle).2
    show (row.take n ++ packed rows lengths).length = _
    grind

theorem length_cumsum (a : ℤ) (xs : List ℤ) : (cumsum a xs).length = xs.length := by
  induction xs generalizing a with
  | nil => rfl
  | cons x xs ih => simp [cumsum, ih]

theorem getElem?_cumsum (a : ℤ) (lengths : List ℕ) {k : ℕ} (hk : k < lengths.length) :
    (cumsum a (lengths.map Nat.cast))[k]? = some (a + ((lengths.take (k + 1)).sum : ℕ)) := by
  induction lengths generalizing a k with
  | nil => nomatch hk
  | cons n lengths ih =>
    cases k with
    | zero => simp [cumsum]
    | succ k =>
      have hrest := ih (a + n) (Nat.lt_of_succ_lt_succ hk)
      rw [map_cons, cumsum, getElem?_cons_succ, hrest, take_succ_cons, sum_cons]
      simp [Int.add_assoc]

theorem copied_of_lt {blockSize bound i : ℕ} (f : ℕ → Option A) (hpos : 0 < blockSize)
    (hi : i < bound) : copied blockSize bound f i = f i := by
  refine if_pos (any_eq_true.mpr ⟨i % blockSize, mem_range.mpr (Nat.mod_lt i hpos), ?_⟩)
  have hsub : i - i % blockSize = blockSize * (i / blockSize) := by
    have hdiv := Nat.div_add_mod i blockSize
    omega
  simp [strided, hi, Nat.mod_le, hsub]

theorem toInt32_of_lt {n : ℕ} (hn : n < 2 ^ 31) : toInt32 n = n := by
  unfold toInt32
  rw [Int.bmod_eq_of_le] <;> omega

section
variable {nchannels blockSize : ℕ} {lengths : List ℕ}

/-- **The cumulative lengths in the shared memory**: each is the start of a stream. -/
theorem sumLengthsShared_eq (hpos : 0 < blockSize) (htotal : lengths.sum < 2 ^ 31)
    {layerId blockIdx i : ℕ} (hi : i ≤ blockSize)
    (hg : layerId * nchannels + blockIdx * blockSize + i ≤ lengths.length) :
    sumLengthsShared nchannels blockSize (cumsum 0 (lengths.map Nat.cast)) layerId blockIdx i =
      some (((lengths.take (layerId * nchannels + blockIdx * blockSize + i)).sum : ℕ) : ℤ) := by
  unfold sumLengthsShared
  rw [copied_of_lt _ hpos (Nat.lt_succ_of_le hi)]
  dsimp only
  generalize hgeq : layerId * nchannels + blockIdx * blockSize + i = g at hg ⊢
  have hgid : (layerId : ℤ) * nchannels + blockIdx * blockSize + i - 1 = (g : ℤ) - 1 := by
    rw [← hgeq]
    push_cast
    rfl
  rw [hgid, Int.mul_comm, Int.mul_ediv_add_emod]
  cases g with
  | zero => rfl
  | succ g =>
    have hsplit : (lengths.take (g + 1)).sum + (lengths.drop (g + 1)).sum = lengths.sum := by
      rw [← sum_append, take_append_drop]
    have hsum : (lengths.take (g + 1)).sum < 2 ^ 31 := by omega
    have hcast : ((g + 1 : ℕ) : ℤ) - 1 = g := by omega
    rw [hcast, if_pos (Int.natCast_nonneg g), readAt, if_pos (Int.natCast_nonneg g),
      Int.toNat_natCast, getElem?_cumsum 0 lengths hg, Option.map_some, Int.zero_add,
      toInt32_of_lt hsum]

/-- **The window of one stream**: its bytes, and zeros behind them. -/
theorem bytestreamsShared_eq {rows : List (List (BitVec 8))} (hpos : 0 < blockSize)
    (htotal : lengths.sum < 2 ^ 31) (hle : ∀ r ∈ rows.zip lengths, r.2 ≤ r.1.length)
    {layerId blockIdx i j n : ℕ} {row : List (BitVec 8)} (hi : i < blockSize)
    (hj : j < outputBufferLengthPerThread)
    (hrow : rows[layerId * nchannels + blockIdx * blockSize + i]? = some row)
    (hn : lengths[layerId * nchannels + blockIdx * blockSize + i]? = some n) :
    bytestreamsShared nchannels blockSize (packed rows lengths)
        (cumsum 0 (lengths.map Nat.cast)) layerId blockIdx i j =
      if j < n then row[j]? else some 0 := by
  have hg := (List.getElem?_eq_some_iff.mp hn).1
  have hnext : layerId * nchannels + blockIdx * blockSize + (i + 1) ≤ lengths.length := hg
  have hstart := sumLengthsShared_eq hpos htotal (Nat.le_of_lt hi) (Nat.le_of_lt hg)
  have hstop := sumLengthsShared_eq hpos htotal hi hnext
  have hlast : (lengths.take (layerId * nchannels + blockIdx * blockSize + (i + 1))).sum =
      (lengths.take (layerId * nchannels + blockIdx * blockSize + i)).sum + n := by
    rw [← Nat.add_assoc, take_add_one, hn, Option.toList_some, sum_append, sum_singleton]
  unfold bytestreamsShared
  simp only [hstart, hstop, hlast, bind, Option.bind, copied_of_lt _ hpos hj]
  have hlength : ∀ a : ℕ, ((j : ℤ) < ((a + n : ℕ) : ℤ) - a) ↔ j < n := by
    intro a
    omega
  simp only [hlength]
  split
  case isTrue hlt =>
    rw [readAt, ← Int.natCast_add, if_pos (Int.natCast_nonneg _), Int.toNat_natCast]
    exact getElem?_packed hle hrow hn hlt
  case isFalse => rfl

end

/-- **Packing is lossless.**  Of every stream the decoder gets the bytes that were written to its
buffer, and zeros behind them; the accessors of the decoder need both the number of streams and the
number of their bytes to be below `2 ^ 31`. -/
theorem bytestream_lossless {nlayers nchannels blockSize : ℕ}
    {buffer : List (List (List (BitVec 8)))} {lengths : List (List ℕ)}
    (hbuffer : Shaped nlayers nchannels buffer) (hlengths : Shaped nlayers nchannels lengths)
    (hrows : ∀ row ∈ buffer.flatten, row.length = outputBufferLengthPerThread)
    (hle : ∀ n ∈ lengths.flatten, n ≤ outputBufferLengthPerThread)
    (hblock : blockSize ∣ nchannels) (hpos : 0 < nlayers * nchannels)
    (hstreams : nlayers * nchannels < 2 ^ 31) (htotal : lengths.flatten.sum < 2 ^ 31) :
    ∃ bytestream windows,
      collectBytes outputBufferLengthPerThread buffer lengths = .ok bytestream ∧
      decodeChunk nchannels blockSize bytestream lengths = .ok windows ∧
      ∀ layerId channelId row n, buffer[layerId]?.bind (·[channelId]?) = some row →
        lengths[layerId]?.bind (·[channelId]?) = some n →
        windows layerId channelId =
          (row.take n ++ replicate (outputBufferLengthPerThread - n) 0).map some := by
  have hcount : buffer.flatten.length = lengths.flatten.length := by
    rw [hbuffer.length_flatten, hlengths.length_flatten]
  have hfits : ∀ r ∈ buffer.flatten.zip lengths.flatten, r.2 ≤ r.1.length := by
    intro r hr
    obtain ⟨hrow, hn⟩ := of_mem_zip (show (r.1, r.2) ∈ _ from hr)
    rw [hrows _ hrow]
    exact hle _ hn
  have hbytes : (packed buffer.flatten lengths.flatten).length < 2 ^ 31 := by
    rwa [length_packed hcount hfits]
  have hprefix : (cumsum 0 (lengths.flatten.map Nat.cast)).length < 2 ^ 31 := by
    rwa [length_cumsum, length_map, hlengths.length_flatten]
  refine ⟨_, _, collectBytes_eq hbuffer hlengths hrows hle hpos, if_pos ⟨hbytes, hprefix⟩, ?_⟩
  intro layerId channelId row n hrow hn
  have hchannel : channelId < nchannels := by
    obtain ⟨layer, hlayer, hget⟩ := Option.bind_eq_some_iff.mp hn
    rw [← hlengths.channels layer (mem_of_getElem? hlayer)]
    exact (List.getElem?_eq_some_iff.mp hget).1
  have hblockPos : 0 < blockSize := Nat.pos_of_dvd_of_pos hblock (by omega)
  have hlocal : layerId * nchannels + channelId / blockSize * blockSize + channelId % blockSize =
      layerId * nchannels + channelId := by
    rw [Nat.add_assoc, Nat.div_add_mod']
  rw [← hbuffer.getElem?_flatten hchannel, ← hlocal] at hrow
  rw [← hlengths.getElem?_flatten hchannel, ← hlocal] at hn
  have hwidth := hrows row (mem_of_getElem? hrow)
  have hnle := hle n (mem_of_getElem? hn)
  refine ext_getElem (by simp; omega) fun j hj hj' => ?_
  have hj : j < outputBufferLengthPerThread := by simpa using hj
  rw [getElem_map, getElem_range, getElem_map, bytestreamsShared_eq hblockPos htotal hfits
    (Nat.mod_lt _ hblockPos) hj hrow hn]
  grind

def filled (b : BitVec 8) : List (BitVec 8) := replicate outputBufferLengthPerThread b

theorem length_filled (b : BitVec 8) : (filled b).length = outputBufferLengthPerThread :=
  length_replicate

/-- Two layers of two channels; a stream without bytes stands between others. -/
theorem bytestream_lossless_two_layers :
    ∃ bytestream windows,
      collectBytes 256 [[filled 1, filled 2], [filled 3, filled 4]] [[3, 0], [256, 1]] =
        .ok bytestream ∧
      decodeChunk 2 1 bytestream [[3, 0], [256, 1]] = .ok windows ∧
      windows 1 1 = ((filled 4).take 1 ++ replicate 255 0).map some := by
  have hbuffer : Shaped 2 2 [[filled 1, filled 2], [filled 3, filled 4]] := ⟨rfl, by simp⟩
  have hlengths : Shaped 2 2 [[3, 0], [256, 1]] := ⟨rfl, by simp⟩
  obtain ⟨bytestream, windows, hcollect, hdecode, hwindows⟩ := bytestream_lossless hbuffer hlengths
    (by simp [length_filled]) (by decide) (Nat.one_dvd 2) (by decide) (by decide) (by decide)
  exact ⟨bytestream, windows, hcollect, hdecode, hwindows 1 1 _ 1 rfl rfl⟩

/-- **Too many bytes.** -/
theorem decodeChunk_error {m : ℕ} (hm : 2 ^ 31 ≤ m * 256) :
    ∃ bytestream error,
      collectBytes 256 [replicate m (filled 0)] [replicate m 256] = .ok bytestream ∧
      decodeChunk m 1 bytestream [replicate m 256] = .error error := by
  have hbuffer : Shaped 1 m [replicate m (filled 0)] :=
    ⟨rfl, by simp⟩
  have hlengths : Shaped 1 m [replicate m 256] := ⟨rfl, by simp⟩
  have hrows : ∀ row ∈ [replicate m (filled 0)].flatten, row.length = 256 := by
    intro row hrow
    rw [flatten_singleton] at hrow
    rw [eq_of_mem_replicate hrow]
    exact length_filled 0
  have hle : ∀ n ∈ [replicate m 256].flatten, n ≤ 256 := by
    simp
  refine ⟨_, _, collectBytes_eq hbuffer hlengths hrows hle (by omega), if_neg fun hsmall => ?_⟩
  have hcount : [replicate m (filled 0)].flatten.length =
      [replicate m 256].flatten.length := by
    rw [hbuffer.length_flatten, hlengths.length_flatten]
  have hlength := length_packed hcount fun r hr => by
    grind
  rw [flatten_singleton, flatten_singleton, sum_replicate_nat] at hlength
  grind

/-- **Where packing fails.**  Without a single stream there is no first sum to set to zero; and full
buffers of `2 ^ 23` channels are packed, but the decoder does not take the stream. -/
theorem bytestream_refused :
    (∃ error, collectBytes 256 [] [] = .error error) ∧
      ∃ bytestream error,
        collectBytes 256 [replicate (2 ^ 23) (filled 0)] [replicate (2 ^ 23) 256] =
          .ok bytestream ∧
        decodeChunk (2 ^ 23) 1 bytestream [replicate (2 ^ 23) 256] = .error error :=
  ⟨⟨_, rfl⟩, decodeChunk_error (by decide)⟩

end LMCache.CacheGen
