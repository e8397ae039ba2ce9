import LMCache.Memory.MemoryObj

/-! # The paged tensor memory allocator

`PagedTensorMemoryAllocator` cuts its buffer into pages of the size of one full chunk.
Every page is one `TensorMemoryObj` that is made once and recycled: a free page is in the
queue `free_blocks`, `allocate` takes the first one and rewrites its metadata, and `free`
appends it again.  A page is never invalidated, so that `free` cannot tell a page that is
handed out from one that is already free.

The object of page `i` is the object `i` of the pool.  The statistics of the monitors are
left out. -/

namespace LMCache

/-- `torch.split` of a flat tensor of `numel` elements; an empty tensor is one piece. -/
def torchSplit (numel splitSize : ℕ) : List Extent :=
  (List.range (max ((numel + splitSize - 1) / splitSize) 1)).map fun i =>
    ⟨i * splitSize, min splitSize (numel - i * splitSize)⟩

/-- `layout` holds the shapes and dtypes of a full chunk, `freeBlocks` the numbers of the free
pages. -/
structure PagedTensorMemoryAllocator where
  bufferSize : ℕ
  layout : Layout
  fmt : MemoryFormat
  alignBytes : ℕ
  pagedBuffers : List Extent
  freeBlocks : List ℕ
  numActiveAllocations : ℤ
  totalAllocatedSize : ℤ
deriving DecidableEq, Repr

namespace PagedTensorMemoryAllocator

/-- `PagedTensorMemoryAllocator.__init__`. -/
def new (bufferSize : ℕ) (y : Layout) (fmt : MemoryFormat) :
    Except PyError (Pool PagedTensorMemoryAllocator) :=
  let alignBytes := y.sizeBytes
  if alignBytes = 0 then .error ⟨.zeroDivisionError, "integer modulo by zero"⟩
  else if bufferSize % alignBytes ≠ 0 then
    .error ⟨.assertionError, s!"Buffer size {bufferSize} must be a" ++
      s!" multiple of align bytes {alignBytes}" ++ " in paged memory allocator."⟩
  else
    let pagedBuffers := torchSplit bufferSize alignBytes
    .ok
      { allocator :=
          { bufferSize, layout := y, fmt, alignBytes, pagedBuffers
            freeBlocks := List.range pagedBuffers.length
            numActiveAllocations := 0, totalAllocatedSize := 0 }
        objs := pagedBuffers.mapIdx fun idx buf => .new buf (y.metadata fmt idx alignBytes)
        returned := [] }

/-- What `allocate` and `batched_allocate` write into the page they hand out: the pin count
is kept, and the raw data is cut down unless the shapes are those of a full chunk. -/
def prepare (a : PagedTensorMemoryAllocator) (y : Layout) (fmt : MemoryFormat)
    (freeBlock : TensorMemoryObj) : TensorMemoryObj :=
  { freeBlock with
    metadata := { freeBlock.metadata with
      shape := y.shape, dtype := y.dtype, shapes := some y.shapes, dtypes := some y.dtypes, fmt
      refCount := 1 }
    rawData :=
      if y.shapes ≠ a.layout.shapes then
        ⟨freeBlock.rawData.start, min y.sizeBytes freeBlock.rawData.size⟩
      else freeBlock.rawData }

/-- What `free` and `batched_free` do to the page: its raw data becomes the whole page unless
its shapes are those of a full chunk. -/
def restore (a : PagedTensorMemoryAllocator) (o : TensorMemoryObj) : TensorMemoryObj :=
  if o.metadata.shapes ≠ some a.layout.shapes then
    { o with rawData := a.pagedBuffers[o.metadata.address]?.getD o.rawData }
  else o

/-- `popleft` and the update of the page. -/
def popBlock (p : Pool PagedTensorMemoryAllocator) (y : Layout) (fmt : MemoryFormat) :
    Option (ℕ × Pool PagedTensorMemoryAllocator) :=
  match p.allocator.freeBlocks with
  | [] => none
  | i :: rest =>
    some (i, { p with
      allocator := { p.allocator with freeBlocks := rest }
      objs := p.objs.modify i (p.allocator.prepare y fmt) })

def allocate (p : Pool PagedTensorMemoryAllocator) (y : Layout) (fmt : MemoryFormat) :
    Option ℕ × Pool PagedTensorMemoryAllocator :=
  match popBlock p y fmt with
  | none => (none, p)
  | some (i, q) =>
    (some i, { q with allocator := { q.allocator with
      numActiveAllocations := q.allocator.numActiveAllocations + 1
      totalAllocatedSize := q.allocator.totalAllocatedSize + q.allocator.alignBytes } })

def pushBlock (p : Pool PagedTensorMemoryAllocator) (i : ℕ) : Pool PagedTensorMemoryAllocator :=
  { allocator := { p.allocator with freeBlocks := p.allocator.freeBlocks ++ [i] }
    objs := p.objs.modify i p.allocator.restore
    returned := p.returned ++ [i] }

def free (p : Pool PagedTensorMemoryAllocator) (i : ℕ) : Pool PagedTensorMemoryAllocator :=
  match p.objs[i]? with
  | none => p
  | some o =>
    if o.valid then
      let q := pushBlock p i
      { q with allocator := { q.allocator with
        totalAllocatedSize := q.allocator.totalAllocatedSize - q.allocator.alignBytes
        numActiveAllocations := q.allocator.numActiveAllocations - 1 } }
    else p

/-- The loop of `batched_free`. -/
def pushBlocks (p : Pool PagedTensorMemoryAllocator) :
    List ℕ → Pool PagedTensorMemoryAllocator
  | [] => p
  | i :: is =>
    match p.objs[i]? with
    | none => pushBlocks p is
    | some o => if o.valid then pushBlocks (pushBlock p i) is else pushBlocks p is

/-- `PagedTensorMemoryAllocator.batched_free`: the statistics count the objects that are
skipped, too. -/
def batchedFree (p : Pool PagedTensorMemoryAllocator) (memoryObjs : List ℕ) (updateStats : Bool) :
    Pool PagedTensorMemoryAllocator :=
  let q := pushBlocks p memoryObjs
  if updateStats then
    { q with allocator := { q.allocator with
      totalAllocatedSize :=
        q.allocator.totalAllocatedSize - q.allocator.alignBytes * memoryObjs.length
      numActiveAllocations := q.allocator.numActiveAllocations - memoryObjs.length } }
  else q

/-- The loop of `batched_allocate`; the flag tells whether it came to its end. -/
def popBlocks (y : Layout) (fmt : MemoryFormat) :
    ℕ → List ℕ → Pool PagedTensorMemoryAllocator →
      Bool × List ℕ × Pool PagedTensorMemoryAllocator
  | 0, allocatedBlocks, p => (true, allocatedBlocks, p)
  | n + 1, allocatedBlocks, p =>
    match popBlock p y fmt with
    | none => (false, allocatedBlocks, p)
    | some (i, q) => popBlocks y fmt n (allocatedBlocks ++ [i]) q

/-- `PagedTensorMemoryAllocator.batched_allocate`: when the pages run out, those taken so far
are put back. -/
def batchedAllocate (p : Pool PagedTensorMemoryAllocator) (y : Layout) (batchSize : ℕ)
    (fmt : MemoryFormat) : Option (List ℕ) × Pool PagedTensorMemoryAllocator :=
  match popBlocks y fmt batchSize [] p with
  | (false, allocatedBlocks, q) => (none, batchedFree q allocatedBlocks false)
  | (true, allocatedBlocks, q) =>
    let numActiveAllocations := q.allocator.numActiveAllocations + batchSize
    (some allocatedBlocks, { q with allocator := { q.allocator with
      numActiveAllocations
      totalAllocatedSize := numActiveAllocations * q.allocator.alignBytes } })

end PagedTensorMemoryAllocator

end LMCache
