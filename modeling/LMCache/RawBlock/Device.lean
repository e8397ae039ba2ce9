import LMCache.RawBlock.Backend

/-! # The raw block device

The methods of the Rust class `RawBlockDevice`: loops around `pwrite` and `pread`, which may
transfer less than they are asked for.  What the calls return is a list of numbers; a loop that is
left without one has not ended (`none`).  With `O_DIRECT`, and when zeros follow the payload, the
bytes go through an aligned buffer.

**Main result**: `device_round_trip`, for calls that each transfer something. -/

namespace LMCache

open List RawBlockBackend

/-- An `OSError`, or another exception. -/
inductive DeviceError where
  | os (message : String)
  | py (e : PyError)
deriving DecidableEq, Repr

/-- The exception, if any, and what a call leaves behind. -/
abbrev Return (A : Type) := Option (Except DeviceError Unit × A)

def raised {A : Type} (kind : PyErrorKind) (message : String) (a : A) : Return A :=
  some (.error (.py ⟨kind, message⟩), a)

structure RawBlockDevice where
  closed : Bool
  useOdirect : Bool
  alignment : ℕ

namespace RawBlockDevice

/-- `pwrite_from_ptr`. -/
def pwriteFromPtr : List ℤ → (ℕ → UInt8) → ℕ → List UInt8 → Return (ℕ → UInt8)
  | _, device, _, [] => some (.ok (), device)
  | [], _, _, _ :: _ => none
  | n :: counts, device, offset, byte :: bytes =>
    if n < 0 then some (.error (.os "pwrite failed"), device)
    else
      pwriteFromPtr counts (ByteStore.write device offset ((byte :: bytes).take n.toNat))
        (offset + n.toNat) ((byte :: bytes).drop n.toNat)

/-- The function `pread_into`: the bytes that were read. -/
def preadFromFd (device : ℕ → UInt8) : List ℤ → ℕ → ℕ → Return (List UInt8)
  | _, _, 0 => some (.ok (), [])
  | [], _, _ + 1 => none
  | n :: counts, off, size + 1 =>
    if n < 0 then some (.error (.os "pread failed"), [])
    else if n = 0 then raised .runtimeError "unexpected EOF" []
    else
      let k := min n.toNat (size + 1)
      (preadFromFd device counts (off + k) (size + 1 - k)).map fun r =>
        (r.1, ByteStore.read device off k ++ r.2)

variable (d : RawBlockDevice)

/-- The checks that both methods make before a transfer; each is a `ValueError`. -/
def check (offset payloadLen totalLen : ℕ) : Option String :=
  if totalLen < payloadLen then some "total_len must be >= payload_len"
  else if d.useOdirect ∧ offset % d.alignment ≠ 0 then some "O_DIRECT requires aligned offset"
  else if d.useOdirect ∧ totalLen % d.alignment ≠ 0 then some "O_DIRECT requires aligned total_len"
  else none

/-- `pwrite_from_buffer`; `rc` is what `posix_memalign` returns. -/
def pwriteFromBuffer (rc : ℕ) (counts : List ℤ) (device : ℕ → UInt8)
    (offset : ℕ) (data : List UInt8) (payloadLen totalLen : Option ℕ) :
    Return (ℕ → UInt8) :=
  let payloadLen := payloadLen.getD data.length
  let totalLen := totalLen.getD payloadLen
  if d.closed then raised .runtimeError "device is closed" device
  else if data.length < payloadLen then
    raised .valueError "payload_len exceeds buffer length" device
  else
    match d.check offset payloadLen totalLen with
    | some message => raised .valueError message device
    | none =>
      if totalLen = payloadLen ∧ !d.useOdirect then
        pwriteFromPtr counts device offset (data.take payloadLen)
      else if rc ≠ 0 then raised .runtimeError ("posix_memalign failed rc=" ++ toString rc) device
      else pwriteFromPtr counts device offset (padded (data.take payloadLen) totalLen)

/-- `pread_into`: the output buffer afterwards. -/
def preadInto (rc : ℕ) (counts : List ℤ) (device : ℕ → UInt8) (offset : ℕ) (out : List UInt8)
    (payloadLen : ℕ) (totalLen : Option ℕ) : Return (List UInt8) :=
  let totalLen := totalLen.getD payloadLen
  if d.closed then raised .runtimeError "device is closed" out
  else if out.length < payloadLen then
    raised .valueError ("output buffer too small: cap=" ++ toString out.length ++ " need=" ++
      toString payloadLen) out
  else
    match d.check offset payloadLen totalLen with
    | some message => raised .valueError message out
    | none =>
      if totalLen = payloadLen ∧ !d.useOdirect then
        (preadFromFd device counts offset payloadLen).map fun r => (r.1, r.2 ++ out.drop r.2.length)
      else if rc ≠ 0 then raised .runtimeError ("posix_memalign failed rc=" ++ toString rc) out
      else
        (preadFromFd device counts offset totalLen).map fun r =>
          (r.1, if r.1.isOk then r.2.take payloadLen ++ out.drop payloadLen else out)

section
variable {counts : List ℤ} {device : ℕ → UInt8} (hcounts : ∀ n ∈ counts, 1 ≤ n)

include hcounts

theorem pwriteFromPtr_eq {bytes : List UInt8} (hlen : bytes.length ≤ counts.length) (offset : ℕ) :
    pwriteFromPtr counts device offset bytes =
      some (.ok (), ByteStore.write device offset bytes) := by
  fun_induction pwriteFromPtr counts device offset bytes
  case case1 => rw [ByteStore.write_nil]
  case case2 => simp at hlen
  case case3 n counts _ _ _ _ hneg =>
    have := hcounts n mem_cons_self
    omega
  case case4 n counts device offset byte bytes hneg ih =>
    have hpos := hcounts n mem_cons_self
    rw [ih (forall_mem_cons.mp hcounts).2 ?_, ← ByteStore.write_take_drop]
    simp only [length_drop, length_cons] at hlen ⊢
    omega

theorem preadFromFd_eq {size : ℕ} (hlen : size ≤ counts.length) (off : ℕ) :
    preadFromFd device counts off size = some (.ok (), ByteStore.read device off size) := by
  fun_induction preadFromFd device counts off size
  case case1 => rfl
  case case2 => simp at hlen
  case case5 n counts off size hneg hzero k ih =>
    have hpos := hcounts n mem_cons_self
    rw [length_cons] at hlen
    rw [ih (forall_mem_cons.mp hcounts).2 (by omega), Option.map_some,
      ← ByteStore.read_append, show k + (size + 1 - k) = size + 1 by omega]
  all_goals
    have := hcounts _ mem_cons_self
    omega

end

/-- **Round trip**: the payload and the zeros behind it are on the device and nothing else has
changed, and a read returns the payload as long as these bytes stay. -/
theorem device_round_trip (hopen : d.closed = false) (offset payloadLen totalLen : ℕ)
    (data out : List UInt8) (hdata : payloadLen ≤ data.length) (htotal : payloadLen ≤ totalLen)
    (halign : d.useOdirect = true → d.alignment ∣ offset ∧ d.alignment ∣ totalLen)
    (hout : payloadLen ≤ out.length) (counts counts' : List ℤ) (hcounts : ∀ n ∈ counts, 1 ≤ n)
    (hlen : totalLen ≤ counts.length) (hcounts' : ∀ n ∈ counts', 1 ≤ n)
    (hlen' : totalLen ≤ counts'.length) (device : ℕ → UInt8) :
    ∃ device', d.pwriteFromBuffer 0 counts device offset data (some payloadLen)
        (some totalLen) = some (.ok (), device') ∧
      ByteStore.read device' offset totalLen =
        data.take payloadLen ++ replicate (totalLen - payloadLen) 0 ∧
      (∀ x, x < offset ∨ offset + totalLen ≤ x → device' x = device x) ∧
      ∀ later, (∀ x, offset ≤ x → x < offset + totalLen → later x = device' x) →
        d.preadInto 0 counts' later offset out payloadLen (some totalLen) =
          some (.ok (), data.take payloadLen ++ out.drop payloadLen) := by
  have hcheck : d.check offset payloadLen totalLen = none := by
    rw [check, if_neg (by omega), if_neg, if_neg]
    · exact fun h => h.2 (Nat.mod_eq_zero_of_dvd (halign h.1).2)
    · exact fun h => h.2 (Nat.mod_eq_zero_of_dvd (halign h.1).1)
  have hpayload : (data.take payloadLen).length = payloadLen := length_take_of_le hdata
  have hbytes : padded (data.take payloadLen) totalLen =
      data.take payloadLen ++ replicate (totalLen - payloadLen) 0 := by
    rw [padded, hpayload]
  have hlength : (padded (data.take payloadLen) totalLen).length = totalLen := by
    rw [hbytes, length_append, hpayload, length_replicate]
    omega
  have hread := ByteStore.read_write device offset (padded (data.take payloadLen) totalLen)
  rw [hlength] at hread
  refine ⟨ByteStore.write device offset (padded (data.take payloadLen) totalLen), ?_,
    hread.trans hbytes, fun x hx => ByteStore.write_outside (hlength.symm ▸ hx),
      fun later hsame => ?_⟩
  · simp only [pwriteFromBuffer, Option.getD_some, hopen, hcheck, Bool.false_eq_true, if_false,
      if_neg (Nat.not_lt.mpr hdata)]
    split_ifs with hdirect hrc
    · rw [pwriteFromPtr_eq hcounts (by omega), hbytes, hdirect.1, Nat.sub_self, replicate_zero,
        append_nil]
    · exact absurd rfl hrc
    · exact pwriteFromPtr_eq hcounts (by omega) offset
  · rw [← ByteStore.read_congr hsame] at hread
    simp only [preadInto, Option.getD_some, hopen, hcheck, Bool.false_eq_true, if_false,
      if_neg (Nat.not_lt.mpr hout)]
    split_ifs with hdirect hrc
    · rw [← hdirect.1, preadFromFd_eq hcounts' hlen', hread, hbytes, hdirect.1]
      simp [hpayload]
    · exact absurd rfl hrc
    · rw [preadFromFd_eq hcounts' hlen', hread, hbytes]
      simp [Except.isOk, Except.toBool, hpayload]

/-- Three bytes and five zeros with `O_DIRECT`, one byte at a time. -/
theorem device_round_trip_direct : ∃ device',
    pwriteFromBuffer ⟨false, true, 8⟩ 0 (replicate 8 1) (fun _ => 9) 16 [5, 6, 7] (some 3)
        (some 8) = some (.ok (), device') ∧
      preadInto ⟨false, true, 8⟩ 0 (replicate 8 3) device' 16 [1, 2, 3, 4] 3 (some 8) =
        some (.ok (), [5, 6, 7, 4]) := by
  obtain ⟨device', hwrite, -, -, hread⟩ := device_round_trip ⟨false, true, 8⟩ rfl 16 3 8 [5, 6, 7]
    [1, 2, 3, 4] (by decide) (by decide) (by decide) (by decide) (replicate 8 1) (replicate 8 3)
    (by decide) (by decide) (by decide) (by decide) fun _ => 9
  exact ⟨device', hwrite, hread device' fun _ _ _ => rfl⟩

end RawBlockDevice

end LMCache
