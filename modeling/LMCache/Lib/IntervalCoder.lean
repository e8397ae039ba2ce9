import LMCache.Lib.BitStream
import Mathlib.Tactic.Positivity

/-! # Binary arithmetic coding

The coder keeps a range of numbers with `w + 2` bits.  Every symbol narrows the range; then
the range is doubled as long as it lies in the lower half, in the upper half, or in the two
middle quarters.

* **The encoder** writes a bit when it doubles a half.  When it doubles the middle, the next
  bit is not known yet but it is known that the one after it is its opposite: the bit is
  pending (`emit`).
* **The decoder** keeps the number written in a window of the stream and doubles it along
  with the range, shifting in a bit each time (`readAll`).  `value s k p` is its number when
  the encoder has written `k` bits and `p` bits are pending.

`mem_of_normalize` says that doubling moves the number and the range alike, and
`decode_encode` that the decoder finds the symbols again, for every way to split a range
(`Splits`) and whatever follows the encoded bits in the stream. -/

namespace IntervalCoder

open List BitStream

structure Range where
  low : ℤ
  high : ℤ
deriving DecidableEq, Repr

instance : Membership ℤ Range := ⟨fun r v => r.low ≤ v ∧ v ≤ r.high⟩

variable {r : Range}

theorem mem_range {v : ℤ} : v ∈ r ↔ r.low ≤ v ∧ v ≤ r.high := Iff.rfl

/-- Where a range lies that can be doubled. -/
inductive Scale where
  | lower
  | upper
  | middle
deriving DecidableEq, Repr

variable (w : ℕ)

def Range.scale (r : Range) : Option Scale :=
  if r.high < 2 * 2 ^ w then some .lower
  else if 2 * 2 ^ w ≤ r.low then some .upper
  else if 2 ^ w ≤ r.low ∧ r.high < 3 * 2 ^ w then some .middle
  else none

/-- What is subtracted after doubling. -/
def Scale.offset : Scale → ℤ
  | .lower => 0
  | .upper => 4 * 2 ^ w
  | .middle => 2 * 2 ^ w

def Range.stretch (r : Range) (c : Scale) : Range :=
  ⟨2 * r.low - c.offset w, 2 * r.high + 1 - c.offset w⟩

@[simp] theorem Range.stretch_low (r : Range) (c : Scale) :
    (r.stretch w c).low = 2 * r.low - c.offset w := rfl

@[simp] theorem Range.stretch_high (r : Range) (c : Scale) :
    (r.stretch w c).high = 2 * r.high + 1 - c.offset w := rfl

structure Range.Valid (r : Range) : Prop where
  nonneg : 0 ≤ r.low
  le : r.low ≤ r.high
  lt : r.high < 4 * 2 ^ w

/-- A range that cannot be doubled; more than a quarter of all numbers is in it. -/
structure Range.Normal (r : Range) : Prop extends r.Valid w where
  scale_eq : r.scale w = none

/-! ### Doubling -/

section doubling
variable {w} {r : Range} {c : Scale}

theorem Range.scale_eq_none : r.scale w = none ↔ 2 * 2 ^ w ≤ r.high ∧ r.low < 2 * 2 ^ w ∧
    (r.low < 2 ^ w ∨ 3 * 2 ^ w ≤ r.high) := by
  unfold Range.scale
  split_ifs with h₁ h₂ h₃
  · simp only [false_iff]
    omega
  · simp only [false_iff]
    omega
  · simp only [false_iff]
    omega
  · simp only [true_iff]
    omega

theorem Range.Normal.span (h : r.Normal w) : 2 ^ w < r.high - r.low + 1 := by
  have := Range.scale_eq_none.mp h.scale_eq
  omega

theorem Range.Valid.stretch (h : r.Valid w) (hs : r.scale w = some c) :
    (r.stretch w c).Valid w := by
  obtain ⟨h₁, h₂, h₃⟩ := h
  have hle : 2 * r.low - c.offset w ≤ 2 * r.high + 1 - c.offset w := by omega
  unfold Range.scale at hs
  split_ifs at hs with hlow hup hmid
  all_goals
    cases hs
    refine ⟨?_, hle, ?_⟩
    · rw [Range.stretch_low, Scale.offset]
      omega
    · rw [Range.stretch_high, Scale.offset]
      omega

/-- A bit is shifted into a number of the range. -/
theorem mem_stretch_iff {v : ℤ} {b : Bool} :
    2 * v + b.toNat - c.offset w ∈ r.stretch w c ↔ v ∈ r := by
  have := Bool.toNat_le b
  rw [mem_range, mem_range, Range.stretch_low, Range.stretch_high]
  omega

end doubling

/-- Doubles a range as often as possible. -/
def Range.normalize : ℕ → Range → Option (List Scale × Range)
  | 0, _ => none
  | n + 1, r =>
    match r.scale w with
    | none => some ([], r)
    | some c => (Range.normalize n (r.stretch w c)).map fun p => (c :: p.1, p.2)

variable {cs : List Scale}

theorem Range.Valid.normalize_spec {w n : ℕ} {r' : Range} (hr : r.Valid w)
    (h : r.normalize w n = some (cs, r')) : r'.Normal w ∧ cs.length < n := by
  fun_induction r.normalize w n generalizing cs
  case case1 => cases h
  case case2 hs =>
    cases h
    exact ⟨⟨hr, hs⟩, Nat.succ_pos _⟩
  case case3 hs ih =>
    obtain ⟨⟨cs, r''⟩, heq, hcons⟩ := Option.map_eq_some_iff.mp h
    cases hcons
    obtain ⟨hnormal, hlen⟩ := ih (hr.stretch hs) heq
    exact ⟨hnormal, Nat.succ_lt_succ hlen⟩

theorem Range.Valid.exists_normalize_of_span {w n : ℕ} (hr : r.Valid w)
    (hn : 4 * 2 ^ w < (r.high - r.low + 1) * 2 ^ n) : ∃ q, r.normalize w n = some q := by
  induction n generalizing r with
  | zero =>
    have := hr.nonneg
    have := hr.lt
    omega
  | succ n ih =>
    rw [Range.normalize]
    cases hs : r.scale w with
    | none => exact ⟨_, rfl⟩
    | some c =>
      have hspan : 4 * 2 ^ w < ((r.stretch w c).high - (r.stretch w c).low + 1) * 2 ^ n := by
        rw [Range.stretch_low, Range.stretch_high]
        calc (4 : ℤ) * 2 ^ w < (r.high - r.low + 1) * 2 ^ (n + 1) := hn
          _ = (2 * r.high + 1 - c.offset w - (2 * r.low - c.offset w) + 1) * 2 ^ n := by ring
      obtain ⟨q, heq⟩ := ih (hr.stretch hs) hspan
      grind

/-- `w + 2` doublings are always enough. -/
theorem Range.Valid.exists_normalize {w : ℕ} (hr : r.Valid w) :
    ∃ q, r.normalize w (w + 3) = some q := by
  apply hr.exists_normalize_of_span
  have hle := hr.le
  have hpos : (0 : ℤ) < 2 ^ w := by positivity
  calc (4 : ℤ) * 2 ^ w < 1 * 2 ^ (w + 3) := by
        rw [pow_add]
        omega
    _ ≤ (r.high - r.low + 1) * 2 ^ (w + 3) := by
        apply mul_le_mul_of_nonneg_right
        · omega
        · positivity

/-! ### Bits -/

/-- The bits that are written for a doubling with `p` bits pending, and the bits that are
pending afterwards. -/
def emit (p : ℕ) : Scale → List Bool × ℕ
  | .lower => (false :: List.replicate p true, 0)
  | .upper => (true :: List.replicate p false, 0)
  | .middle => ([], p + 1)

def emitAll : ℕ → List Scale → List Bool × ℕ
  | p, [] => ([], p)
  | p, c :: cs => ((emit p c).1 ++ (emitAll (emit p c).2 cs).1, (emitAll (emit p c).2 cs).2)

/-- The last bits, which select the second or the third quarter. -/
def flush (r : Range) (p : ℕ) : List Bool :=
  if r.low < 2 ^ w then false :: List.replicate (p + 1) true
  else true :: List.replicate (p + 1) false

/-- The decoder shifts in the bit at position `k`. -/
def readAll (s : ℕ → Bool) : ℤ × ℕ → List Scale → ℤ × ℕ
  | vk, [] => vk
  | vk, c :: cs => readAll s (2 * vk.1 + (s vk.2).toNat - c.offset w, vk.2 + 1) cs

/-- The decoder's number: `k` bits are written and `p` are pending. -/
def value (s : ℕ → Bool) (k : ℕ) : ℕ → ℤ
  | 0 => word s k (w + 2)
  | p + 1 => 2 * value s k p + (s (k + (w + 2) + p)).toNat - 2 * 2 ^ w

variable {w} {s : ℕ → Bool} {k p : ℕ}

theorem word_lt_four (s : ℕ → Bool) (k : ℕ) : (word s k (w + 2) : ℤ) < 4 * 2 ^ w := by
  have h := word_lt s k (w + 2)
  grind

theorem two_mul_word (s : ℕ → Bool) (k : ℕ) :
    (2 * word s k (w + 2) + (s (k + (w + 2))).toNat : ℤ) =
      (s k).toNat * (4 * 2 ^ w) + word s (k + 1) (w + 2) := by
  have h : word s k (w + 2 + 1) = (s k).toNat * 2 ^ (w + 2) + word s (k + 1) (w + 2) :=
    word_succ s k (w + 2)
  rw [word] at h
  calc (2 * word s k (w + 2) + (s (k + (w + 2))).toNat : ℤ)
      = ((2 * word s k (w + 2) + (s (k + (w + 2))).toNat : ℕ) : ℤ) := by push_cast; rfl
    _ = (s k).toNat * (4 * 2 ^ w) + word s (k + 1) (w + 2) := by
        rw [h]
        push_cast
        ring

/-- **Pending bits.**  When the next bit is `b` and the pending ones are its opposites, the
decoder's number becomes the word after them. -/
theorem value_resolve {b : Bool} (h : Follows s k (b :: replicate p (!b))) :
    2 * value w s k p + (s (k + (w + 2) + p)).toNat =
      b.toNat * (4 * 2 ^ w) + word s (k + 1 + p) (w + 2) := by
  obtain ⟨hb, hrest⟩ := h
  rw [follows_replicate] at hrest
  induction p with
  | zero =>
    rw [← hb]
    exact two_mul_word s k
  | succ p ih =>
    have hprev := ih fun i hi => hrest i (Nat.lt_succ_of_lt hi)
    have hword := two_mul_word (w := w) s (k + 1 + p)
    rw [hrest p (Nat.lt_succ_self p)] at hword
    rw [show k + 1 + p + (w + 2) = k + (w + 2) + (p + 1) by omega] at hword
    rw [value, show k + 1 + (p + 1) = k + 1 + p + 1 by omega]
    cases b with
    | false =>
      grind
    | true =>
      grind

theorem value_emit {c : Scale} (h : Follows s k (emit p c).1) :
    value w s (k + (emit p c).1.length) (emit p c).2 =
      2 * value w s k p + (s (k + (w + 2) + p)).toNat - c.offset w := by
  cases c with
  | lower | upper =>
    have := value_resolve (w := w) h
    rw [this, emit, value, Scale.offset, length_cons, length_replicate,
      show k + (p + 1) = k + 1 + p by omega]
    simp
  | middle => rfl

/-- The decoder is always `w + 2` bits ahead, pending bits included. -/
theorem length_emit (p : ℕ) (c : Scale) : (emit p c).1.length + (emit p c).2 = p + 1 := by
  cases c <;> simp [emit]

theorem emitAll_pending_le (p : ℕ) (cs : List Scale) : (emitAll p cs).2 ≤ p + cs.length := by
  induction cs generalizing p with
  | nil => exact Nat.le_refl p
  | cons c cs ih =>
    have hlen := length_emit p c
    have hrest := ih (emit p c).2
    rw [emitAll, length_cons]
    omega

theorem readAll_emitAll (h : Follows s k (emitAll p cs).1) :
    readAll w s (value w s k p, k + (w + 2) + p) cs =
      (value w s (k + (emitAll p cs).1.length) (emitAll p cs).2,
        k + (emitAll p cs).1.length + (w + 2) + (emitAll p cs).2) := by
  induction cs generalizing k p with
  | nil => rfl
  | cons c cs ih =>
    rw [emitAll, follows_append] at h
    have hlen := length_emit p c
    have hpos : k + (w + 2) + p + 1 = k + (emit p c).1.length + (w + 2) + (emit p c).2 := by omega
    rw [readAll, emitAll, ← value_emit h.1, hpos, ih h.2]
    simp only [length_append, Nat.add_assoc]

/-- Doubling moves the decoder's number along with the range. -/
theorem mem_of_normalize {n : ℕ} {r' : Range} (h : r.normalize w n = some (cs, r')) (v : ℤ)
    (k : ℕ) : (readAll w s (v, k) cs).1 ∈ r' ↔ v ∈ r := by
  fun_induction r.normalize w n generalizing v k cs
  case case1 => cases h
  case case2 =>
    cases h
    rfl
  case case3 ih =>
    obtain ⟨⟨cs, r''⟩, heq, hcons⟩ := Option.map_eq_some_iff.mp h
    cases hcons
    rw [readAll, ih heq, mem_stretch_iff]

theorem value_flush (hr : r.Normal w) (h : Follows s k (flush w r p)) : value w s k p ∈ r := by
  have hnorm := Range.scale_eq_none.mp hr.scale_eq
  have hbit := Bool.toNat_le (s (k + (w + 2) + p))
  have hbit' := Bool.toNat_le (s (k + (w + 2) + (p + 1)))
  have hlt := word_lt_four (w := w) s (k + 1 + (p + 1))
  rw [mem_range]
  unfold flush at h
  split_ifs at h with hlow
  all_goals
    have hres := value_resolve (w := w) h
    rw [value] at hres
    grind

/-! ### The coder -/

section coder
variable {Sym : Type} (w) (sub : Sym → Range → Range) (find : Range → ℤ → Sym)

def encode (n : ℕ) : Range → ℕ → List Sym → Option (List Bool)
  | r, p, [] => some (flush w r p)
  | r, p, a :: as =>
    ((sub a r).normalize w n).bind fun q =>
      (encode n q.2 (emitAll p q.1).2 as).map ((emitAll p q.1).1 ++ ·)

/-- Decodes a number of symbols; after the last one the range is left as it is. -/
def decode (s : ℕ → Bool) (n : ℕ) : Range → ℤ × ℕ → ℕ → Option (List Sym)
  | _, _, 0 => some []
  | r, vk, 1 => some [find r vk.1]
  | r, vk, m + 2 =>
    ((sub (find r vk.1) r).normalize w n).bind fun q =>
      (decode s n q.2 (readAll w s vk q.1) (m + 1)).map (find r vk.1 :: ·)

/-- The symbols that satisfy `Good` split every normal range, and `find` tells the part that a
number is in. -/
structure Splits (Good : Sym → Prop) : Prop where
  valid : ∀ a r, Good a → r.Normal w → (sub a r).Valid w
  subset : ∀ a r v, Good a → r.Normal w → v ∈ sub a r → v ∈ r
  find_eq : ∀ a r v, Good a → r.Normal w → v ∈ sub a r → find r v = a

variable {w sub find} {Good : Sym → Prop}

/-- With fuel for `w + 3` doublings the encoder finishes. -/
theorem Splits.exists_encode (h : Splits w sub find Good) {as : List Sym} (has : ∀ a ∈ as, Good a)
    {r : Range} (hr : r.Normal w) (p : ℕ) : ∃ bits, encode w sub (w + 3) r p as = some bits := by
  induction as generalizing r p with
  | nil => exact ⟨_, rfl⟩
  | cons a as ih =>
    have hvalid := h.valid a r (has a mem_cons_self) hr
    obtain ⟨⟨cs, r'⟩, heq⟩ := hvalid.exists_normalize
    obtain ⟨bits, hbits⟩ := ih (forall_mem_cons.mp has).2
      (hvalid.normalize_spec heq).1 (emitAll p cs).2
    refine ⟨(emitAll p cs).1 ++ bits, ?_⟩
    rw [encode, heq, Option.bind_some, hbits, Option.map_some]

/-- **Round trip.**  On a stream that continues with the encoded bits, the number is in the
range and the decoder finds the symbols. -/
theorem Splits.decode_encode (h : Splits w sub find Good) {n : ℕ} {as : List Sym}
    (has : ∀ a ∈ as, Good a) {r : Range} (hr : r.Normal w) {bits : List Bool}
    (henc : encode w sub n r p as = some bits) (hs : Follows s k bits) :
    value w s k p ∈ r ∧
      decode w sub find s n r (value w s k p, k + (w + 2) + p) as.length = some as := by
  induction as generalizing r p k bits with
  | nil =>
    cases henc
    exact ⟨value_flush hr hs, rfl⟩
  | cons a as ih =>
    have ha := has a mem_cons_self
    rw [encode, Option.bind_eq_some_iff] at henc
    obtain ⟨⟨cs, r'⟩, hnorm, henc⟩ := henc
    obtain ⟨rest, hrest, rfl⟩ := Option.map_eq_some_iff.mp henc
    rw [follows_append] at hs
    have hr' := ((h.valid a r ha hr).normalize_spec hnorm).1
    obtain ⟨hmem, hdec⟩ := ih (forall_mem_cons.mp has).2 hr' hrest hs.2
    -- the number after the doublings is in the doubled range, so it was in the part of `a`
    have hread := readAll_emitAll (w := w) hs.1
    have hsub : value w s k p ∈ sub a r := by
      rw [← mem_of_normalize hnorm (s := s) _ (k + (w + 2) + p), hread]
      exact hmem
    have hfind := h.find_eq a r _ ha hr hsub
    refine ⟨h.subset a r _ ha hr hsub, ?_⟩
    cases as with
    | nil => rw [length_singleton, decode, hfind]
    | cons b as =>
      rw [length_cons, length_cons, decode, hfind, hnorm, Option.bind_some, hread]
      grind

end coder

end IntervalCoder
