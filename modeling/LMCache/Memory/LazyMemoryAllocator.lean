import LMCache.Memory.TensorMemoryLifecycle

/-! # The lazy memory allocator

`LazyMemoryAllocator` owns a buffer of its final size and pins the first part of it.  A worker pins
the rest, chunk by chunk, and after 16 chunks extends the address space of the tensor memory
allocator by what it has pinned; meanwhile clients allocate and free.

* **The worker.**  `Expander` holds the variables of `_expand_worker`; `step` runs it to the next
  point where a client may come in, and returns the size of a committed expansion.
* **Roundings.**  Both sizes are rounded up to chunks, but `sbrk` rounds up to the alignment of the
  allocator.  The two agree as long as the alignment is at most a chunk.

**Main result**: `lazy_memory_pinned`.  With a larger alignment the address space outgrows the
buffer (`exceeds_of_large_align`). -/

namespace LMCache

open List TensorMemoryAllocator AddressManager Extent

def alignTo (size alignSize : ℕ) : ℕ := Nat.ldiff (size + alignSize - 1) (alignSize - 1)

@[irreducible] def pinChunkSize : ℕ := 2 ^ 26

@[irreducible] def commitSize : ℕ := 2 ^ 30

/-- Where the worker is: at the condition of `while`, before the chunk `i` of the `for` loop, or
between pinning that chunk and advancing `_curr_size`. -/
inductive WorkerState where
  | check
  | chunk (i : ℕ)
  | advance (i : ℕ)
  | finished
  | raised (e : PyError)
deriving DecidableEq, Repr

/-- The variables of the expansion thread; `pinRecord` has the ranges in the buffer. -/
structure Expander where
  currSize : ℕ
  finalSize : ℕ
  lastCommitSize : ℕ
  pinRecord : List Extent
  worker : WorkerState
deriving DecidableEq, Repr

namespace Expander

def pinMemoryChunk (x : Expander) (offset size : ℕ) : Except PyError Expander :=
  if offset &&& (pinChunkSize - 1) ≠ 0 then
    .error ⟨.assertionError, "Offset must be aligned to PIN_CHUNK_SIZE"⟩
  else if size &&& (pinChunkSize - 1) ≠ 0 then
    .error ⟨.assertionError, "Size must be aligned to PIN_CHUNK_SIZE"⟩
  else if ¬ offset + size ≤ x.finalSize then
    .error ⟨.assertionError, "Pinning exceeds buffer size"⟩
  else .ok { x with pinRecord := x.pinRecord ++ [⟨offset, size⟩] }

/-- The sizes and the first chunk of `__init__`. -/
def new (initSize finalSize : ℕ) : Except PyError Expander :=
  let currSize := alignTo initSize pinChunkSize
  pinMemoryChunk
    { currSize, finalSize := alignTo finalSize pinChunkSize, lastCommitSize := currSize
      pinRecord := [], worker := .check } 0 currSize

/-- `_expand_worker`, and the `expand_size` it commits. -/
def step (x : Expander) : Expander × Option ℕ :=
  match x.worker with
  | .check =>
    if x.currSize < x.finalSize then ({ x with worker := .chunk 0 }, none)
    else ({ x with worker := .finished }, none)
  | .chunk i =>
    if i < commitSize / pinChunkSize ∧ x.currSize < x.finalSize then
      match x.pinMemoryChunk x.currSize pinChunkSize with
      | .error e => ({ x with worker := .raised e }, none)
      | .ok x => ({ x with worker := .advance i }, none)
    else
      ({ x with lastCommitSize := x.currSize, worker := .check },
        some (x.currSize - x.lastCommitSize))
  | .advance i =>
    ({ x with currSize := x.currSize + pinChunkSize, worker := .chunk (i + 1) }, none)
  | .finished | .raised _ => (x, none)

def pinnedBytes (x : Expander) : ℕ := (x.pinRecord.map Extent.size).sum

end Expander

def TensorMemoryAllocator.commitExpansion (p : Pool TensorMemoryAllocator) (expandSize : ℕ) :
    Pool TensorMemoryAllocator :=
  { p with allocator.addressManager := p.allocator.addressManager.sbrk expandSize }

structure LazyMemoryAllocator where
  expander : Expander
  pool : Pool TensorMemoryAllocator
deriving DecidableEq, Repr

namespace LazyMemoryAllocator

/-- `LazyMemoryAllocator.__init__`. -/
def new (initSize finalSize alignBytes : ℕ) : Except PyError LazyMemoryAllocator :=
  (Expander.new initSize finalSize).map fun x =>
    ⟨x, ⟨.new x.finalSize alignBytes (some x.currSize), [], []⟩⟩

inductive Event where
  | worker
  | call (c : TensorMemoryAllocator.Call)
deriving DecidableEq, Repr

def run (s : LazyMemoryAllocator) : Event → LazyMemoryAllocator
  | .worker =>
    let r := s.expander.step
    ⟨r.1,
      match r.2 with
      | none => s.pool
      | some expandSize => TensorMemoryAllocator.commitExpansion s.pool expandSize⟩
  | .call c => ⟨s.expander, c.run s.pool⟩

def Allowed (s : LazyMemoryAllocator) : Event → Prop
  | .worker => True
  | .call c => c.Allowed s.pool

instance (s : LazyMemoryAllocator) : (e : Event) → Decidable (s.Allowed e)
  | .worker => inferInstanceAs (Decidable True)
  | .call c => inferInstanceAs (Decidable (c.Allowed s.pool))

def system (initSize finalSize k : ℕ) : LTS LazyMemoryAllocator Event where
  init s := new initSize finalSize (2 ^ k) = .ok s
  step s e s' := s.Allowed e ∧ s' = s.run e

/-- The address space is pinned and inside the buffer, so is every object, and no assertion of
`_pin_memory_chunk` has failed. -/
structure Safe (s : LazyMemoryAllocator) : Prop where
  size_le : s.pool.allocator.addressManager.size ≤ s.expander.pinnedBytes
  pinned_le : s.expander.pinnedBytes ≤ s.expander.finalSize
  objs : ∀ o ∈ s.pool.objs, o.valid = true →
    ∀ x, o.metadata.address ≤ x → x < o.metadata.address + o.metadata.phySize →
      x < s.pool.allocator.buffer ∧ ∃ e ∈ s.expander.pinRecord, e.start ≤ x ∧ x < e.stop
  noRaise : ∀ e, s.expander.worker ≠ .raised e

end LazyMemoryAllocator

/-! ### The worker -/

theorem alignTo_eq (n k : ℕ) : alignTo n (2 ^ k) = (n + 2 ^ k - 1) / 2 ^ k * 2 ^ k :=
  ldiff_two_pow_sub_one _ k

theorem dvd_alignTo (n : ℕ) : pinChunkSize ∣ alignTo n pinChunkSize := by
  rw [pinChunkSize, alignTo_eq]
  exact Nat.dvd_mul_left _ _

theorem alignTo_mono {n n' : ℕ} (h : n ≤ n') :
    alignTo n pinChunkSize ≤ alignTo n' pinChunkSize := by
  rw [pinChunkSize, alignTo_eq, alignTo_eq]
  refine Nat.mul_le_mul_right _ (Nat.div_le_div_right ?_)
  exact Nat.sub_le_sub_right (Nat.add_le_add_right h _) 1

theorem and_pinChunkSize_eq_zero {n : ℕ} (h : pinChunkSize ∣ n) : n &&& (pinChunkSize - 1) = 0 := by
  rw [pinChunkSize] at h ⊢
  rw [Nat.and_two_pow_sub_one_eq_mod]
  exact Nat.mod_eq_zero_of_dvd h

theorem pow_dvd_pinChunkSize {k : ℕ} (hk : k ≤ 26) : 2 ^ k ∣ pinChunkSize := by
  rw [pinChunkSize]
  exact Nat.pow_dvd_pow 2 hk

namespace Expander

variable {x : Expander}

/-- The bytes that are pinned, according to `_curr_size`. -/
def pinnedEnd (x : Expander) : ℕ :=
  match x.worker with
  | .advance _ => x.currSize + pinChunkSize
  | _ => x.currSize

theorem currSize_le_pinnedEnd (x : Expander) : x.currSize ≤ x.pinnedEnd := by
  unfold pinnedEnd
  grind

structure Inv (x : Expander) : Prop where
  curr_dvd : pinChunkSize ∣ x.currSize
  final_dvd : pinChunkSize ∣ x.finalSize
  commit_dvd : pinChunkSize ∣ x.lastCommitSize
  commit_le : x.lastCommitSize ≤ x.currSize
  pinned_le : x.pinnedEnd ≤ x.finalSize
  pinned_eq : x.pinnedBytes = x.pinnedEnd
  covered : ∀ y < x.pinnedEnd, ∃ e ∈ x.pinRecord, e.start ≤ y ∧ y < e.stop
  noRaise : ∀ e, x.worker ≠ .raised e

theorem pinMemoryChunk_eq_ok {offset size : ℕ} (hoffset : pinChunkSize ∣ offset)
    (hsize : pinChunkSize ∣ size) (hle : offset + size ≤ x.finalSize) :
    x.pinMemoryChunk offset size =
      .ok { x with pinRecord := x.pinRecord ++ [⟨offset, size⟩] } := by
  rw [pinMemoryChunk, if_neg (not_not.mpr (and_pinChunkSize_eq_zero hoffset)),
    if_neg (not_not.mpr (and_pinChunkSize_eq_zero hsize)), if_neg (not_not.mpr hle)]

theorem exists_new {initSize finalSize : ℕ} (h : initSize ≤ finalSize) :
    ∃ x, new initSize finalSize = .ok x ∧ x.Inv ∧ x.finalSize = alignTo finalSize pinChunkSize ∧
      x.lastCommitSize = x.currSize := by
  unfold new
  have hinit := dvd_alignTo initSize
  have hfinal := dvd_alignTo finalSize
  have hle := alignTo_mono h
  generalize alignTo initSize pinChunkSize = currSize at *
  generalize alignTo finalSize pinChunkSize = finalSize at *
  rw [pinMemoryChunk_eq_ok (Nat.dvd_zero _) hinit (by rwa [Nat.zero_add])]
  refine ⟨_, rfl, ⟨hinit, hfinal, hinit, le_rfl, hle, ?_, ?_, nofun⟩, rfl, rfl⟩
  · exact sum_singleton
  · intro y hy
    refine ⟨⟨0, currSize⟩, mem_singleton_self _, Nat.zero_le _, ?_⟩
    rwa [stop_mk, Nat.zero_add]

theorem Inv.curr_add_le (h : x.Inv) (hlt : x.currSize < x.finalSize) :
    x.currSize + pinChunkSize ≤ x.finalSize := by
  obtain ⟨a, ha⟩ := h.curr_dvd
  obtain ⟨b, hb⟩ := h.final_dvd
  rw [ha, hb] at hlt ⊢
  have hab : a < b := Nat.lt_of_mul_lt_mul_left hlt
  calc pinChunkSize * a + pinChunkSize = pinChunkSize * (a + 1) := (Nat.mul_succ _ _).symm
    _ ≤ pinChunkSize * b := Nat.mul_le_mul_left _ hab

/-- The worker pins the next chunk. -/
theorem Inv.pin (h : x.Inv) {i : ℕ} (hw : x.worker = .chunk i) (hlt : x.currSize < x.finalSize) :
    x.pinMemoryChunk x.currSize pinChunkSize =
        .ok { x with pinRecord := x.pinRecord ++ [⟨x.currSize, pinChunkSize⟩] } ∧
      Inv { x with
        pinRecord := x.pinRecord ++ [⟨x.currSize, pinChunkSize⟩], worker := .advance i } := by
  have hend : x.pinnedEnd = x.currSize := by rw [pinnedEnd, hw]
  have hroom := h.curr_add_le hlt
  refine ⟨pinMemoryChunk_eq_ok h.curr_dvd dvd_rfl hroom, h.curr_dvd, h.final_dvd, h.commit_dvd,
    h.commit_le, hroom, ?_, fun y hy => ?_, nofun⟩
  · have := h.pinned_eq
    rw [hend] at this
    simp only [pinnedBytes, pinnedEnd, map_append, map_cons, map_nil,
      sum_append, sum_singleton] at this ⊢
    rw [this]
  · by_cases hy' : y < x.currSize
    · obtain ⟨e, he, hin⟩ := h.covered y (hend.symm ▸ hy')
      exact ⟨e, mem_append_left _ he, hin⟩
    · exact ⟨⟨x.currSize, pinChunkSize⟩, by simp, Nat.not_lt.mp hy', hy⟩

/-- **A step of the worker** keeps its invariant and the final size.  What it commits goes up to
`_curr_size` and is a whole number of chunks. -/
theorem Inv.step (h : x.Inv) :
    x.step.1.Inv ∧ x.step.1.finalSize = x.finalSize ∧
      match x.step.2 with
      | none => x.step.1.lastCommitSize = x.lastCommitSize
      | some n => pinChunkSize ∣ n ∧ x.step.1.lastCommitSize = x.lastCommitSize + n := by
  have hmove : ∀ w : WorkerState, pinnedEnd { x with worker := w } = x.currSize →
      x.pinnedEnd = x.currSize → (∀ e, w ≠ .raised e) → Inv { x with worker := w } := by
    intro w hw hx hr
    have hw' : pinnedEnd { x with worker := w } = x.pinnedEnd := hw.trans hx.symm
    exact ⟨h.curr_dvd, h.final_dvd, h.commit_dvd, h.commit_le, hw'.symm ▸ h.pinned_le,
      hw'.symm ▸ h.pinned_eq, hw'.symm ▸ h.covered, hr⟩
  cases hw : x.worker with
  | check =>
    have hend : x.pinnedEnd = x.currSize := by rw [pinnedEnd, hw]
    simp only [Expander.step, hw]
    split_ifs
    · exact ⟨hmove (.chunk 0) rfl hend nofun, rfl, rfl⟩
    · exact ⟨hmove .finished rfl hend nofun, rfl, rfl⟩
  | chunk i =>
    have hend : x.pinnedEnd = x.currSize := by rw [pinnedEnd, hw]
    simp only [Expander.step, hw]
    split_ifs with hi
    · rw [(h.pin hw hi.2).1]
      exact ⟨(h.pin hw hi.2).2, rfl, rfl⟩
    · refine ⟨⟨h.curr_dvd, h.final_dvd, h.curr_dvd, le_rfl, ?_, ?_, ?_, nofun⟩, rfl,
        Nat.dvd_sub h.curr_dvd h.commit_dvd, (Nat.add_sub_cancel' h.commit_le).symm⟩
      · exact hend ▸ h.pinned_le
      · exact hend ▸ h.pinned_eq
      · exact hend ▸ h.covered
  | advance i =>
    have hend : x.pinnedEnd = x.currSize + pinChunkSize := by rw [pinnedEnd, hw]
    simp only [Expander.step, hw]
    refine ⟨⟨Nat.dvd_add h.curr_dvd dvd_rfl, h.final_dvd, h.commit_dvd, ?_, ?_, ?_, ?_, nofun⟩,
      trivial, trivial⟩
    · exact h.commit_le.trans (Nat.le_add_right _ _)
    · exact hend ▸ h.pinned_le
    · exact hend ▸ h.pinned_eq
    · exact hend ▸ h.covered
  | finished =>
    simp only [Expander.step, hw]
    exact ⟨h, trivial, trivial⟩
  | raised e => exact absurd hw (h.noRaise e)

end Expander

/-! ### The pool -/

namespace TensorMemoryAllocator

variable {p : Pool TensorMemoryAllocator}

/-- What only the worker changes: the buffer, the address space and the alignment. -/
def space (p : Pool TensorMemoryAllocator) : ℕ × ℕ × ℕ :=
  (p.allocator.buffer, p.allocator.addressManager.size, p.allocator.addressManager.align)

section
variable (p : Pool TensorMemoryAllocator)

theorem space_free (i : ℕ) : space (free p i) = space p := by
  fun_cases free <;> rfl

theorem space_batchedFree (is : List ℕ) : space (batchedFree p is) = space p := by
  unfold space batchedFree
  refine congrArg (p.allocator.buffer, ·) ?_
  exact foldlRecOn (motive := fun m : AddressManager => (m.size, m.align) = _) _ _ rfl
    fun m hm b _ => hm

theorem space_allocate (y : Layout) (fmt : MemoryFormat) :
    space (allocate p y fmt).2 = space p := by
  fun_cases allocate
  · rfl
  next ha _ =>
    obtain ⟨-, -, -, -, -, rfl⟩ := allocate_eq_ok ha
    rfl

theorem space_batchedAllocate (y : Layout) (n : ℕ)
    (fmt : MemoryFormat) : space (batchedAllocate p y n fmt).2 = space p := by
  fun_cases batchedAllocate
  · rfl
  next ha _ _ =>
    obtain ⟨-, -, -, -, -, rfl⟩ := allocate_eq_ok ha
    rfl

theorem space_run (c : Call) : space (c.run p) = space p := by
  cases c with
  | allocate y fmt => exact space_allocate p y fmt
  | batchedAllocate y n fmt => exact space_batchedAllocate p y n fmt
  | free i => exact space_free p i
  | batchedFree is => exact space_batchedFree p is
  | refCountUp i => rfl
  | refCountDown i =>
    exact Pool.keeps_refCountDown (P := (space · = space p))
      (fun q hq => (space_free q i).trans hq) (fun _ _ hq => hq) rfl
  | pin i => rfl
  | unpin i =>
    exact Pool.keeps_unpin (P := (space · = space p))
      (fun q hq => (space_free q i).trans hq) (fun _ _ hq => hq) rfl

end

theorem inv_commitExpansion (h : Inv p) {n : ℕ}
    (hspace : p.allocator.addressManager.size + p.allocator.addressManager.computeAlignedSize n ≤
      p.allocator.buffer) : Inv (commitExpansion p n) :=
  ⟨accounts_sbrk h.accounts n, hspace, h.active, h.objs⟩

end TensorMemoryAllocator

/-! ### The allocator -/

/-- The pool lives in the memory that the worker has committed. -/
structure Backed (k : ℕ) (x : Expander) (p : Pool TensorMemoryAllocator) : Prop where
  worker : x.Inv
  pool : TensorMemoryAllocator.Inv p
  space : TensorMemoryAllocator.space p = (x.finalSize, x.lastCommitSize, 2 ^ k)

namespace Backed

variable {k : ℕ} {x : Expander} {p p' : Pool TensorMemoryAllocator}

theorem setPool (h : Backed k x p) (hp : TensorMemoryAllocator.Inv p')
    (hspace : TensorMemoryAllocator.space p' = TensorMemoryAllocator.space p) : Backed k x p' :=
  ⟨h.worker, hp, hspace.trans h.space⟩

/-- **A step of the worker**: with an alignment of at most one chunk, `sbrk` does not round. -/
theorem step (h : Backed k x p) (hk : k ≤ 26) :
    Backed k x.step.1
      (match x.step.2 with
        | none => p
        | some n => TensorMemoryAllocator.commitExpansion p n) := by
  obtain ⟨hinv, hfinal, hcommit⟩ := h.worker.step
  obtain ⟨hbuffer, hsize, halign⟩ : p.allocator.buffer = x.finalSize ∧
      p.allocator.addressManager.size = x.lastCommitSize ∧
      p.allocator.addressManager.align = 2 ^ k := by
    simpa [TensorMemoryAllocator.space] using h.space
  cases hn : x.step.2 with
  | none =>
    rw [hn] at hcommit
    refine ⟨hinv, h.pool, ?_⟩
    rw [h.space, hfinal, hcommit]
  | some n =>
    rw [hn] at hcommit
    obtain ⟨hdvd, hlast⟩ := hcommit
    have hround : p.allocator.addressManager.computeAlignedSize n = n := by
      refine computeAlignedSize_of_dvd ⟨k, halign⟩ n ?_
      rw [halign]
      exact (pow_dvd_pinChunkSize hk).trans hdvd
    refine ⟨hinv, inv_commitExpansion h.pool ?_, ?_⟩
    · rw [hround, hsize, hbuffer, ← hlast, ← hfinal]
      exact hinv.commit_le.trans (x.step.1.currSize_le_pinnedEnd.trans hinv.pinned_le)
    · rw [hlast, hfinal]
      simp [TensorMemoryAllocator.space, TensorMemoryAllocator.commitExpansion,
        sbrk, hround, hsize, hbuffer, halign]

end Backed

namespace LazyMemoryAllocator

variable {initSize finalSize k : ℕ} {s : LazyMemoryAllocator}

theorem exists_new (hinit : initSize ≤ finalSize) :
    ∃ s, new initSize finalSize (2 ^ k) = .ok s ∧ Backed k s.expander s.pool := by
  obtain ⟨x, hx, hinv, -, hlast⟩ := Expander.exists_new hinit
  refine ⟨⟨x, ⟨.new x.finalSize (2 ^ k) (some x.currSize), [], []⟩⟩, ?_, hinv, ?_, ?_⟩
  · rw [new, hx]
    rfl
  · refine inv_new fun n hn => ?_
    obtain rfl := Option.mem_some_iff.mp hn
    exact x.currSize_le_pinnedEnd.trans hinv.pinned_le
  · rw [hlast]
    rfl

theorem backed_inductive (hinit : initSize ≤ finalSize) (hk : k ≤ 26) :
    (system initSize finalSize k).Inductive fun s => Backed k s.expander s.pool where
  init := by
    intro s hs
    obtain ⟨s', hs', hb⟩ := exists_new (k := k) hinit
    rw [show new initSize finalSize (2 ^ k) = .ok s from hs] at hs'
    cases hs'
    exact hb
  step := by
    rintro s e s' h ⟨ha, rfl⟩
    cases e with
    | worker => exact h.step hk
    | call c =>
      exact h.setPool (TensorMemoryAllocator.inv_run h.pool ha)
        (space_run s.pool c)

theorem safe_of_backed (h : Backed k s.expander s.pool) : s.Safe := by
  obtain ⟨hbuffer, hsize, -⟩ : s.pool.allocator.buffer = s.expander.finalSize ∧
      s.pool.allocator.addressManager.size = s.expander.lastCommitSize ∧
      s.pool.allocator.addressManager.align = 2 ^ k := by
    simpa [space] using h.space
  have hle : s.pool.allocator.addressManager.size ≤ s.expander.pinnedEnd := by
    rw [hsize]
    exact h.worker.commit_le.trans s.expander.currSize_le_pinnedEnd
  refine ⟨h.worker.pinned_eq.symm ▸ hle, h.worker.pinned_eq.symm ▸ h.worker.pinned_le,
    fun o ho hv y _ hy => ?_, h.worker.noRaise⟩
  have hmem : o.extent ∈ Pool.live s.pool.objs :=
    mem_map_of_mem (mem_filter.mpr ⟨ho, hv⟩)
  have hbound := h.pool.accounts.bound _ (mem_append_left _ hmem)
  have hy' : y < s.expander.pinnedEnd := hy.trans_le (hbound.trans hle)
  exact ⟨hbuffer ▸ hy'.trans_le h.worker.pinned_le, h.worker.covered y hy'⟩

/-- **Only pinned memory is handed out**, in every interleaving of the worker with the clients, when
the alignment is at most one chunk. -/
theorem lazy_memory_pinned (initSize finalSize k : ℕ) (hinit : initSize ≤ finalSize)
    (hk : k ≤ 26) :
    (∃ s, new initSize finalSize (2 ^ k) = .ok s) ∧
      ∀ s, (system initSize finalSize k).Reachable s → s.Safe := by
  obtain ⟨s, hs, -⟩ := exists_new (k := k) hinit
  exact ⟨⟨s, hs⟩, fun s hs => safe_of_backed ((backed_inductive hinit hk).reachable hs)⟩

/-! ### One chunk -/

/-- The worker of an allocator that starts with nothing and ends with one chunk. -/
def oneChunk : Expander := ⟨0, 2 ^ 26, 0, [⟨0, 0⟩], .check⟩

/-- The allocator after the worker has pinned and committed the chunk. -/
def committed (k : ℕ) : LazyMemoryAllocator :=
  ⟨⟨2 ^ 26, 2 ^ 26, 2 ^ 26, [⟨0, 0⟩, ⟨0, 2 ^ 26⟩], .check⟩,
    TensorMemoryAllocator.commitExpansion ⟨.new (2 ^ 26) (2 ^ k) (some 0), [], []⟩ (2 ^ 26)⟩

theorem reachable_committed (k : ℕ) : (system 0 1 k).Reachable (committed k) := by
  have hnew : Expander.new 0 1 = .ok oneChunk := by decide +kernel
  have h₁ : oneChunk.step = ({ oneChunk with worker := .chunk 0 }, none) := by decide +kernel
  have h₂ : Expander.step { oneChunk with worker := .chunk 0 } =
      (⟨0, 2 ^ 26, 0, [⟨0, 0⟩, ⟨0, 2 ^ 26⟩], .advance 0⟩, none) := by decide +kernel
  have h₃ : Expander.step ⟨0, 2 ^ 26, 0, [⟨0, 0⟩, ⟨0, 2 ^ 26⟩], .advance 0⟩ =
      (⟨2 ^ 26, 2 ^ 26, 0, [⟨0, 0⟩, ⟨0, 2 ^ 26⟩], .chunk 1⟩, none) := by decide +kernel
  have h₄ : Expander.step ⟨2 ^ 26, 2 ^ 26, 0, [⟨0, 0⟩, ⟨0, 2 ^ 26⟩], .chunk 1⟩ =
      (⟨2 ^ 26, 2 ^ 26, 2 ^ 26, [⟨0, 0⟩, ⟨0, 2 ^ 26⟩], .check⟩, some (2 ^ 26)) := by
    decide +kernel
  have hinit : (system 0 1 k).Reachable
      ⟨oneChunk, ⟨.new (2 ^ 26) (2 ^ k) (some 0), [], []⟩⟩ := by
    refine .init ?_
    show new 0 1 (2 ^ k) = _
    rw [new, hnew]
    rfl
  have hworker : ∀ {s x}, (system 0 1 k).Reachable s → s.expander.step = (x, none) →
      (system 0 1 k).Reachable ⟨x, s.pool⟩ := by
    intro s x hs hx
    refine hs.step (e := .worker) ⟨trivial, ?_⟩
    rw [run, hx]
  refine (hworker (hworker (hworker hinit h₁) h₂) h₃).step (e := .worker) ⟨trivial, ?_⟩
  rw [run, h₄]
  rfl

/-- **A larger alignment** makes `sbrk` round a chunk up to more than the buffer. -/
theorem exceeds_of_large_align {k : ℕ} (hk : 26 < k) :
    ∃ s, (system 0 1 k).Reachable s ∧
      s.pool.allocator.buffer < s.pool.allocator.addressManager.size := by
  refine ⟨_, reachable_committed k, ?_⟩
  have halign := align_dvd_computeAlignedSize
    (m := .new 0 (2 ^ k)) ⟨k, rfl⟩ (2 ^ 26)
  have hle := le_computeAlignedSize (m := .new 0 (2 ^ k)) ⟨k, rfl⟩ (2 ^ 26)
  have hpow := Nat.pow_lt_pow_right (a := 2) (by decide) hk
  have hpos : 0 < (AddressManager.new 0 (2 ^ k)).computeAlignedSize (2 ^ 26) :=
    Nat.lt_of_lt_of_le (Nat.two_pow_pos 26) hle
  have hsize := Nat.le_of_dvd hpos halign
  show 2 ^ 26 < 0 + (AddressManager.new 0 (2 ^ k)).computeAlignedSize (2 ^ 26)
  rw [Nat.zero_add]
  exact hpow.trans_le hsize

theorem exceeds_of_two_chunks : ∃ s, (system 0 1 27).Reachable s ∧
    s.pool.allocator.buffer < s.pool.allocator.addressManager.size :=
  exceeds_of_large_align (by decide)

/-- With the default alignment, the address space is the chunk that was pinned. -/
theorem lazy_memory_pinned_one_chunk :
    (committed 12).Safe ∧ (committed 12).pool.allocator.addressManager.size = 2 ^ 26 :=
  ⟨(lazy_memory_pinned 0 1 12 (by decide) (by decide)).2 _ (reachable_committed 12),
    by decide +kernel⟩

/-- The address space of an allocator with an alignment of two chunks: it is twice the buffer, and
an object of one chunk and a byte is handed out. -/
theorem lazy_memory_not_pinned :
    ∃ s, (system 0 1 27).Reachable s ∧ ¬ s.Safe ∧ s.expander.pinnedBytes = 2 ^ 26 ∧
      s.pool.allocator.addressManager.size = 2 ^ 27 ∧
      ∃ o ∈ s.pool.objs, o.valid = true ∧
        s.pool.allocator.buffer < o.metadata.address + o.metadata.phySize := by
  let y : Layout := ⟨[[2 ^ 26 + 1]], [⟨"uint8", 1⟩], by decide, rfl⟩
  refine ⟨(committed 27).run (.call (.allocate y .undefined)),
    (reachable_committed 27).step (e := .call (.allocate y .undefined)) ⟨trivial, rfl⟩, fun h => ?_,
    by decide +kernel, by decide +kernel, by decide +kernel⟩
  exact absurd h.size_le (by decide +kernel)

end LazyMemoryAllocator

end LMCache
