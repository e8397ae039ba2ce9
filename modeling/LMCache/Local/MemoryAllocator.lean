import LMCache.Distributed.MemoryManager

/-! # The allocators of the CPU backend

`LocalCPUBackend` allocates from a mixed allocator, or from a paged one in peer-to-peer mode, which
is left out.  `MemoryAllocator` is what the backend uses of them; its last three fields say which
objects a call gives back.

Tensors of the mixed allocator come from a tensor memory allocator.  A `BytesBufferMemoryObj` is a
byte array of its own: it stands in the pool without a range, and its reference count never
changes. -/

namespace LMCache.Local

open TensorMemoryAllocator

/-- The calls of a memory allocator.  `free` is that of the parent allocator of an object, and
`isBuffer` tells the objects of class `BytesBufferMemoryObj`. -/
structure MemoryAllocator (A : Type) where
  isMixed : Bool
  isBuffer : TensorMemoryObj → Bool
  allocate : Pool A → Layout → MemoryFormat → Except PyError (Option ℕ) × Pool A
  batchedAllocate : Pool A → Layout → ℕ → MemoryFormat → Except PyError (Option (List ℕ)) × Pool A
  free : Pool A → ℕ → Pool A
  batchedFree : Pool A → List ℕ → Option PyError × Pool A
  free_returned : ∀ p i, ∃ l, (free p i).returned = p.returned ++ l ∧ ∀ j ∈ l, j = i
  batchedFree_returned : ∀ p is, ∃ l, (batchedFree p is).2.returned = p.returned ++ l ∧
    ∀ j ∈ l, j ∈ is ∧ p.Live j
  batchedFree_live : isMixed = true → ∀ p i is o, p.objs[i]? = some o → isBuffer o = false →
    o.metadata.fmt.unsupported = none → ∃ l,
      (batchedFree p (i :: is)).2.returned = p.returned ++ l ∧ ∀ j ∈ i :: is, p.Live j → j ∈ l

namespace MemoryAllocator
variable {A : Type} (M : MemoryAllocator A) (p : Pool A) (i : ℕ)

/-- The object `i` is a byte array. -/
def buffer : Bool := p.objs[i]?.any M.isBuffer

/-- `ref_count_up`; a byte array does not count. -/
def refCountUp : Pool A := if M.buffer p i then p else p.refCountUp i

def refCountDown : Pool A := if M.buffer p i then p else p.refCountDown M.free i

/-- `unpin`; the reference count of a byte array is `1`, so that it is never released. -/
def unpin : Pool A := if M.buffer p i then p.unpin (fun q _ => q) i else p.unpin M.free i

end MemoryAllocator

/-! ### What is given back -/

section returned
variable {p : Pool TensorMemoryAllocator}

theorem tensorFree_returned (p : Pool TensorMemoryAllocator) (i : ℕ) :
    ∃ l, (free p i).returned = p.returned ++ l ∧ ∀ j ∈ l, j = i := by
  fun_cases free
  · exact ⟨[], by simp, by simp⟩
  · exact ⟨[i], rfl, by simp⟩
  · exact ⟨[], by simp, by simp⟩

theorem coalescing_foldl_returned (is : List ℕ) (c : TensorMemoryAllocator.Coalescing) :
    ∃ l, (is.foldl .step c).returned = c.returned ++ l ∧
      ∀ j, j ∈ l ↔ j ∈ is ∧ ∃ o, c.objs[j]? = some o ∧ o.valid = true := by
  induction is generalizing c with
  | nil => exact ⟨[], by simp, by simp⟩
  | cons i is ih =>
    rw [List.foldl_cons]
    obtain ⟨l, hl, hmem⟩ := ih (c.step i)
    by_cases hv : ∃ o, c.objs[i]? = some o ∧ o.valid = true
    · obtain ⟨o, ho, hvalid⟩ := hv
      have hret : (c.step i).returned = c.returned ++ [i] ∧
          (c.step i).objs = c.objs.modify i .invalidate := by
        simp only [TensorMemoryAllocator.Coalescing.step, ho, hvalid, if_true,
          TensorMemoryAllocator.Coalescing.extend_frame, and_self]
      grind
    · have hsame : c.step i = c := by
        unfold TensorMemoryAllocator.Coalescing.step
        grind
      grind

theorem tensorBatchedFree_returned (p : Pool TensorMemoryAllocator) (is : List ℕ) :
    ∃ l, (batchedFree p is).returned = p.returned ++ l ∧
      ∀ j, j ∈ l ↔ j ∈ is ∧ p.Live j := by
  obtain ⟨l, hl, hmem⟩ := coalescing_foldl_returned
    (is.insertionSort fun i j => addressOf p.objs i ≤
      addressOf p.objs j) ⟨p.objs, p.returned, [], none⟩
  refine ⟨l, hl, fun j => ?_⟩
  rw [hmem, (List.perm_insertionSort _ is).mem_iff]
  rfl

end returned

/-! ### The mixed allocator -/

/-- `BytesBufferMemoryObj.__init__` on a byte array of length `n`; it has no dtype. -/
def bytesBuffer (n : ℕ) : TensorMemoryObj :=
  { rawData := ⟨0, n⟩
    metadata :=
      { shape := [n, 0, 0, 0], dtype := ⟨"None", 0⟩, address := 0, phySize := 0, refCount := 1
        pinCount := 0, fmt := .binaryBuffer, shapes := none, dtypes := none }
    valid := true
    groupPrefixSum := [0, n] }

/-- `shapes[0][0]`. -/
def firstDim (y : Layout) : Except PyError ℕ :=
  match y.shape with
  | [] => .error ⟨.indexError, "tuple index out of range"⟩
  | n :: _ => .ok n

/-- `MixedMemoryAllocator.allocate`. -/
def mixedAllocate (p : Pool TensorMemoryAllocator) (y : Layout) (fmt : MemoryFormat) :
    Except PyError (Option ℕ) × Pool TensorMemoryAllocator :=
  match fmt.unsupported with
  | some fmt => (.error ⟨.valueError, "Unsupported memory format: " ++ fmt⟩, p)
  | none =>
    if fmt = .binaryBuffer then
      match firstDim y with
      | .error e => (.error e, p)
      | .ok n => (.ok (some p.objs.length), { p with objs := p.objs ++ [bytesBuffer n] })
    else
      let r := allocate p y fmt
      (.ok r.1, r.2)

/-- `MixedMemoryAllocator.batched_allocate`. -/
def mixedBatchedAllocate (p : Pool TensorMemoryAllocator) (y : Layout) (batchSize : ℕ)
    (fmt : MemoryFormat) : Except PyError (Option (List ℕ)) × Pool TensorMemoryAllocator :=
  match fmt.unsupported with
  | some fmt => (.error ⟨.valueError, "Unsupported memory format: " ++ fmt⟩, p)
  | none =>
    if fmt = .binaryBuffer then
      match firstDim y with
      | .error e => (.error e, p)
      | .ok n =>
        (.ok (some ((List.range batchSize).map (p.objs.length + ·))),
          { p with objs := p.objs ++ List.replicate batchSize (bytesBuffer n) })
    else
      let r := batchedAllocate p y batchSize fmt
      (.ok r.1, r.2)

theorem mixedBatchedFree_returned (p : Pool TensorMemoryAllocator) (is : List ℕ) :
    ∃ l, (mixedBatchedFree p is).2.returned = p.returned ++ l ∧ ∀ j ∈ l, j ∈ is ∧ p.Live j := by
  have hnone : ∃ l, p.returned = p.returned ++ l ∧ ∀ j ∈ l, j ∈ is ∧ p.Live j :=
    ⟨[], by simp, by simp⟩
  fun_cases mixedBatchedFree p is
  case case5 =>
    obtain ⟨l, hl, hmem⟩ := tensorBatchedFree_returned p _
    exact ⟨l, hl, fun j hj => (hmem j).mp hj⟩
  all_goals exact hnone

theorem mixedBatchedFree_live (p : Pool TensorMemoryAllocator) (i : ℕ) (is : List ℕ)
    (o : TensorMemoryObj) (ho : p.objs[i]? = some o)
    (hbuf : decide (o.metadata.fmt = .binaryBuffer) = false)
    (hfmt : o.metadata.fmt.unsupported = none) :
    ∃ l, (mixedBatchedFree p (i :: is)).2.returned = p.returned ++ l ∧
      ∀ j ∈ i :: is, p.Live j → j ∈ l := by
  obtain ⟨l, hl, hmem⟩ := tensorBatchedFree_returned p (i :: is)
  refine ⟨l, ?_, fun j hj hlive => (hmem j).mpr ⟨hj, hlive⟩⟩
  unfold mixedBatchedFree
  grind

/-- `MixedMemoryAllocator`. -/
def mixed : MemoryAllocator TensorMemoryAllocator where
  isMixed := true
  isBuffer o := decide (o.metadata.fmt = .binaryBuffer)
  allocate := mixedAllocate
  batchedAllocate := mixedBatchedAllocate
  free := free
  batchedFree := mixedBatchedFree
  free_returned := tensorFree_returned
  batchedFree_returned := mixedBatchedFree_returned
  batchedFree_live _ := mixedBatchedFree_live

end LMCache.Local
