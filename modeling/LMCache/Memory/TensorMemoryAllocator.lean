import LMCache.Memory.AddressManager
import LMCache.Memory.MemoryObj

/-! # The tensor memory allocator

`TensorMemoryAllocator` cuts memory objects out of one flat buffer of bytes; the address
manager decides where.  A single object takes the first bytes of its range; the objects of
a batch are the pieces `torch.chunk` makes of one large range.  `batched_free` sorts the
objects by address and gives runs of adjacent objects back as one range.

The statistics of the monitors are left out.  A range of the buffer is an `Extent`, and
slicing clamps both ends to the length of the buffer, as `torch` does. -/

namespace LMCache

/-- `tensor[start : stop]` on a flat tensor of `numel` elements. -/
def sliceTensor (numel start stop : ℕ) : Extent :=
  ⟨min start numel, min stop numel - min start numel⟩

/-- `torch.chunk`: pieces of `⌈size / chunks⌉` elements, the last one possibly shorter; an
empty tensor gives `chunks` empty pieces. -/
def torchChunk (t : Extent) (chunks : ℕ) : List Extent :=
  if t.size = 0 then List.replicate chunks t
  else
    let splitSize := (t.size + chunks - 1) / chunks
    (List.range ((t.size + splitSize - 1) / splitSize)).map fun i =>
      ⟨t.start + i * splitSize, min splitSize (t.size - i * splitSize)⟩

/-- `buffer` is the number of bytes of the buffer. -/
structure TensorMemoryAllocator where
  buffer : ℕ
  addressManager : AddressManager
  numActiveAllocations : ℤ
deriving DecidableEq, Repr

namespace TensorMemoryAllocator

/-- `TensorMemoryAllocator.__init__`. -/
def new (buffer alignBytes : ℕ) (initAddressSpace : Option ℕ) : TensorMemoryAllocator :=
  { buffer, addressManager := .new (initAddressSpace.getD buffer) alignBytes
    numActiveAllocations := 0 }

def totalAllocatedSize (a : TensorMemoryAllocator) : ℤ := a.addressManager.totalAllocatedSize

def getBufferSlice (a : TensorMemoryAllocator) (start size : ℕ) : Extent :=
  sliceTensor a.buffer start (start + size)

/-- `TensorMemoryAllocator.allocate`: the new object, or `None` when there is no block. -/
def allocate (p : Pool TensorMemoryAllocator) (y : Layout) (fmt : MemoryFormat) :
    Option ℕ × Pool TensorMemoryAllocator :=
  let rawSize := y.sizeBytes
  match p.allocator.addressManager.allocate rawSize with
  | .error _ => (none, p)
  | .ok ((blockStart, alignedSize), m) =>
    let rawData := p.allocator.getBufferSlice blockStart rawSize
    (some p.objs.length,
      { p with
        allocator := { p.allocator with
          addressManager := m
          numActiveAllocations := p.allocator.numActiveAllocations + 1 }
        objs := p.objs ++ [.new rawData (y.metadata fmt blockStart alignedSize)] })

/-- The loop of `batched_allocate` over the pieces of the range. -/
def batchObjs (y : Layout) (fmt : MemoryFormat) (unitAlignedSize : ℕ) :
    ℕ → List Extent → List TensorMemoryObj
  | _, [] => []
  | tempStart, rawData :: rawDatas =>
    .new rawData (y.metadata fmt tempStart unitAlignedSize) ::
      batchObjs y fmt unitAlignedSize (tempStart + unitAlignedSize) rawDatas

def batchedAllocate (p : Pool TensorMemoryAllocator) (y : Layout) (batchSize : ℕ)
    (fmt : MemoryFormat) : Option (List ℕ) × Pool TensorMemoryAllocator :=
  let unitAlignedSize := p.allocator.addressManager.computeAlignedSize y.sizeBytes
  let totalAlignedSize := unitAlignedSize * batchSize
  match p.allocator.addressManager.allocate totalAlignedSize with
  | .error _ => (none, p)
  | .ok ((blockStart, _), m) =>
    let rawDatas := torchChunk
      (sliceTensor p.allocator.buffer blockStart (blockStart + totalAlignedSize)) batchSize
    let objs := batchObjs y fmt unitAlignedSize blockStart rawDatas
    (some ((List.range objs.length).map (p.objs.length + ·)),
      { p with
        allocator := { p.allocator with
          addressManager := m
          numActiveAllocations := p.allocator.numActiveAllocations + batchSize }
        objs := p.objs ++ objs })

/-- `TensorMemoryAllocator.free`: nothing happens to an object that is no longer valid. -/
def free (p : Pool TensorMemoryAllocator) (i : ℕ) : Pool TensorMemoryAllocator :=
  match p.objs[i]? with
  | none => p
  | some o =>
    if o.valid then
      { allocator := { p.allocator with
          addressManager :=
            p.allocator.addressManager.free o.metadata.address o.metadata.phySize
          numActiveAllocations := p.allocator.numActiveAllocations - 1 }
        objs := p.objs.modify i .invalidate
        returned := p.returned ++ [i] }
    else p

/-- A run of adjacent objects: `(address, size, count)`. -/
structure CoalescedBlock where
  address : ℕ
  size : ℕ
  count : ℕ
deriving DecidableEq, Repr

/-- The variables of the loop of `batched_free`; `curr` is `none` while `curr_start` is. -/
structure Coalescing where
  objs : List TensorMemoryObj
  returned : List ℕ
  coalescedBlocks : List CoalescedBlock
  curr : Option CoalescedBlock
deriving DecidableEq, Repr

namespace Coalescing

/-- Adds a valid object to the current run, or closes the run and starts a new one. -/
def extend (c : Coalescing) (o : TensorMemoryObj) : Coalescing :=
  let first : CoalescedBlock := ⟨o.metadata.address, o.metadata.phySize, 1⟩
  match c.curr with
  | none => { c with curr := some first }
  | some b =>
    if b.address + b.size = o.metadata.address then
      { c with curr := some ⟨b.address, b.size + o.metadata.phySize, b.count + 1⟩ }
    else { c with coalescedBlocks := c.coalescedBlocks ++ [b], curr := some first }

theorem extend_frame (c : Coalescing) (o : TensorMemoryObj) :
    (c.extend o).objs = c.objs ∧ (c.extend o).returned = c.returned := by
  unfold extend
  grind

def step (c : Coalescing) (i : ℕ) : Coalescing :=
  match c.objs[i]? with
  | none => c
  | some o =>
    if o.valid then
      extend { c with objs := c.objs.modify i .invalidate, returned := c.returned ++ [i] } o
    else c

def blocks (c : Coalescing) : List CoalescedBlock := c.coalescedBlocks ++ c.curr.toList

end Coalescing

/-- The address of the object `i`, the key of the sort. -/
def addressOf (objs : List TensorMemoryObj) (i : ℕ) : ℕ :=
  (objs[i]?.map fun o => o.metadata.address).getD 0

def batchedFree (p : Pool TensorMemoryAllocator) (memoryObjs : List ℕ) :
    Pool TensorMemoryAllocator :=
  let sorted := memoryObjs.insertionSort fun i j => addressOf p.objs i ≤ addressOf p.objs j
  let c := sorted.foldl Coalescing.step ⟨p.objs, p.returned, [], none⟩
  { allocator := { p.allocator with
      addressManager := c.blocks.foldl (fun m b => m.free b.address b.size)
        p.allocator.addressManager
      numActiveAllocations :=
        p.allocator.numActiveAllocations - (c.blocks.map fun b => (b.count : ℤ)).sum }
    objs := c.objs
    returned := c.returned }

end TensorMemoryAllocator

end LMCache
