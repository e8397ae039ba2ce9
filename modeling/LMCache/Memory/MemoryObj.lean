import LMCache.Lib.Extent
import LMCache.Python

/-! # Memory objects

`TensorMemoryObj` wraps a slice of an allocator's buffer together with its metadata, a
reference count and a pin count.  An object lives until its last reference and its last
pin are gone; `ref_count_down` and `unpin` then hand it to the allocator that made it.

* **Layouts.**  A request for memory is a non-empty list of shapes and a list of dtypes of
  the same length (`_adapt_shapes_and_dtypes` asserts the lengths), one pair for each KV
  group.  A dtype is known by its name and its item size.
* **Identity.**  Python objects are shared by reference.  A `Pool` is an allocator with all
  the objects it has made; an object is its position in `Pool.objs`.
* **Counters.**  Both counters are integers that are decremented first and set back to `0`
  when they become negative. -/

namespace LMCache

/-- A `torch.Size`. -/
abbrev Shape := List ℕ

def Shape.numel (s : Shape) : ℕ := s.prod

/-- A `torch.dtype`. -/
structure Dtype where
  name : String
  itemsize : ℕ
deriving DecidableEq, Repr

inductive MemoryFormat where
  | undefined
  | kv2ltd
  | kvT2d
  | kv2td
  | binary
  | binaryBuffer
  | kvMlaFmt
deriving DecidableEq, Repr

def MemoryFormat.tokenDim : MemoryFormat → ℕ
  | .kv2ltd => 2
  | .kvT2d => 1
  | .kvMlaFmt => 2
  | _ => 0

/-- The shapes and dtypes of the KV groups of one object. -/
structure Layout where
  shapes : List Shape
  dtypes : List Dtype
  nonempty : shapes ≠ []
  sameLength : shapes.length = dtypes.length
deriving DecidableEq, Repr

/-- Sizes in bytes of the groups: `shape.numel() * dtype.itemsize`. -/
def groupSizes (shapes : List Shape) (dtypes : List Dtype) : List ℕ :=
  (shapes.zip dtypes).map fun p => p.1.numel * p.2.itemsize

def getSizeBytes (shapes : List Shape) (dtypes : List Dtype) : ℕ := (groupSizes shapes dtypes).sum

namespace Layout

def sizeBytes (y : Layout) : ℕ := getSizeBytes y.shapes y.dtypes

/-- `shapes[0]`. -/
def shape (y : Layout) : Shape := y.shapes.head y.nonempty

/-- `dtypes[0]`. -/
def dtype (y : Layout) : Dtype :=
  y.dtypes.head fun h => y.nonempty (List.length_eq_zero_iff.mp (by rw [y.sameLength, h]; rfl))

end Layout

structure MemoryObjMetadata where
  shape : Shape
  dtype : Dtype
  address : ℕ
  phySize : ℕ
  refCount : ℤ
  pinCount : ℤ
  fmt : MemoryFormat
  shapes : Option (List Shape)
  dtypes : Option (List Dtype)
deriving DecidableEq, Repr

def MemoryObjMetadata.getSize (m : MemoryObjMetadata) : ℕ :=
  match m.shapes, m.dtypes with
  | some shapes, some dtypes => getSizeBytes shapes dtypes
  | _, _ => m.shape.numel * m.dtype.itemsize

/-- `TensorMemoryObj`; `rawData` is the slice of the buffer behind the object. -/
structure TensorMemoryObj where
  rawData : Extent
  metadata : MemoryObjMetadata
  valid : Bool
  groupPrefixSum : List ℕ
deriving DecidableEq, Repr

namespace TensorMemoryObj

/-- `TensorMemoryObj.__init__`: the object is valid and stores the prefix sums of the group
sizes, starting with `0`. -/
def new (rawData : Extent) (metadata : MemoryObjMetadata) : TensorMemoryObj :=
  { rawData, metadata, valid := true
    groupPrefixSum :=
      match metadata.shapes, metadata.dtypes with
      | some shapes, some dtypes => (groupSizes shapes dtypes).scanl (· + ·) 0
      | _, _ => [0, metadata.getSize] }

def invalidate (o : TensorMemoryObj) : TensorMemoryObj := { o with valid := false }

/-- `self.group_prefix_sum[-1]`. -/
def getSize (o : TensorMemoryObj) : ℕ := o.groupPrefixSum.getLast?.getD 0

def setRefCount (o : TensorMemoryObj) (n : ℤ) : TensorMemoryObj :=
  { o with metadata := { o.metadata with refCount := n } }

def setPinCount (o : TensorMemoryObj) (n : ℤ) : TensorMemoryObj :=
  { o with metadata := { o.metadata with pinCount := n } }

/-- The range `[address, address + phy_size)`. -/
def extent (o : TensorMemoryObj) : Extent := ⟨o.metadata.address, o.metadata.phySize⟩

end TensorMemoryObj

/-- The metadata that the allocators give to a new object: one reference, no pin. -/
def Layout.metadata (y : Layout) (fmt : MemoryFormat) (address phySize : ℕ) : MemoryObjMetadata :=
  { shape := y.shape, dtype := y.dtype, address, phySize, refCount := 1, pinCount := 0, fmt
    shapes := some y.shapes, dtypes := some y.dtypes }

theorem getLast?_scanl_add (l : List ℕ) (n : ℕ) :
    ((l.scanl (· + ·) n).getLast?).getD 0 = n + l.sum := by
  induction l generalizing n with
  | nil => simp
  | cons a l ih =>
    grind

theorem getSize_new (y : Layout) (fmt : MemoryFormat) (address phySize : ℕ) (rawData : Extent) :
    (TensorMemoryObj.new rawData (y.metadata fmt address phySize)).getSize = y.sizeBytes := by
  simp only [TensorMemoryObj.getSize, TensorMemoryObj.new, Layout.metadata, getLast?_scanl_add,
    Nat.zero_add]
  rfl

/-! ### Pools -/

/-- An allocator with the objects it has made.  `returned` is a ghost: the objects whose
memory was given back, in that order. -/
structure Pool (A : Type) where
  allocator : A
  objs : List TensorMemoryObj
  returned : List ℕ
deriving DecidableEq, Repr

namespace Pool

variable {A : Type} (free : Pool A → ℕ → Pool A) (p : Pool A) (i : ℕ)

def modify (f : TensorMemoryObj → TensorMemoryObj) : Pool A := { p with objs := p.objs.modify i f }

def refCountUp : Pool A := p.modify i fun o => o.setRefCount (o.metadata.refCount + 1)

/-- `ref_count_down`; `free` is that of the parent allocator. -/
def refCountDown : Pool A :=
  match p.objs[i]? with
  | none => p
  | some o =>
    let refCount := o.metadata.refCount - 1
    let refCount := if refCount < 0 then 0 else refCount
    let p := p.modify i fun o => o.setRefCount refCount
    if refCount = 0 ∧ o.metadata.pinCount = 0 then free p i else p

def pin : Pool A := p.modify i fun o => o.setPinCount (o.metadata.pinCount + 1)

/-- `unpin`: the object is released before its negative pin count is set back to `0`. -/
def unpin : Pool A :=
  match p.objs[i]? with
  | none => p
  | some o =>
    let pinCount := o.metadata.pinCount - 1
    let p := p.modify i fun o => o.setPinCount pinCount
    let p := if pinCount ≤ 0 ∧ o.metadata.refCount ≤ 0 then free p i else p
    if pinCount < 0 then p.modify i fun o => o.setPinCount 0 else p

/-! ### The valid objects -/

def live (objs : List TensorMemoryObj) : List Extent :=
  (objs.filter fun o => o.valid).map fun o => o.extent

@[simp, grind =] theorem live_nil : live [] = [] := rfl

theorem live_cons (o : TensorMemoryObj) (objs : List TensorMemoryObj) :
    live (o :: objs) = if o.valid then o.extent :: live objs else live objs := by
  by_cases h : o.valid <;> simp [live, h]

@[simp, grind =] theorem live_append (l₁ l₂ : List TensorMemoryObj) :
    live (l₁ ++ l₂) = live l₁ ++ live l₂ := by
  simp [live]

theorem live_modify {f : TensorMemoryObj → TensorMemoryObj} (hv : ∀ o, (f o).valid = o.valid)
    (he : ∀ o, (f o).extent = o.extent) (objs : List TensorMemoryObj) (i : ℕ) :
    live (objs.modify i f) = live objs := by
  induction objs generalizing i with
  | nil => simp
  | cons o objs ih =>
    cases i with
    | zero => rw [List.modify_zero_cons, live_cons, live_cons, hv, he]
    | succ i => rw [List.modify_succ_cons, live_cons, live_cons, ih]

theorem live_invalidate {objs : List TensorMemoryObj} {i : ℕ} {o : TensorMemoryObj}
    (h : objs[i]? = some o) (hv : o.valid = true) :
    (live objs).Perm (o.extent :: live (objs.modify i .invalidate)) := by
  induction objs generalizing i with
  | nil => simp at h
  | cons o' objs ih =>
    cases i with
    | zero =>
      obtain rfl : o' = o := by simpa using h
      rw [List.modify_zero_cons, live_cons, live_cons, if_pos hv]
      simp [TensorMemoryObj.invalidate]
    | succ i =>
      have hp := ih (by simpa using h)
      rw [List.modify_succ_cons, live_cons, live_cons]
      grind

/-! ### Releasing -/

variable {free p i} {o : TensorMemoryObj}

theorem refCountDown_release (h : p.objs[i]? = some o) (hr : o.metadata.refCount ≤ 1)
    (hp : o.metadata.pinCount = 0) :
    refCountDown free p i = free (p.modify i fun o => o.setRefCount 0) i := by
  have hz : (if o.metadata.refCount - 1 < 0 then 0 else o.metadata.refCount - 1) = 0 := by
    split_ifs <;> omega
  simp only [refCountDown, h, hz, hp, and_self, if_true]

theorem refCountDown_keep (h : p.objs[i]? = some o)
    (hk : ¬ (o.metadata.refCount ≤ 1 ∧ o.metadata.pinCount = 0)) :
    refCountDown free p i =
      p.modify i fun o' => o'.setRefCount (max (o.metadata.refCount - 1) 0) := by
  have hz : (if o.metadata.refCount - 1 < 0 then 0 else o.metadata.refCount - 1) =
      max (o.metadata.refCount - 1) 0 := by
    split_ifs <;> omega
  simp only [refCountDown, h, hz]
  rw [if_neg (by omega)]

theorem unpin_release (h : p.objs[i]? = some o) (hp : o.metadata.pinCount ≤ 1)
    (hr : o.metadata.refCount ≤ 0) :
    unpin free p i =
      let q := free (p.modify i fun o' => o'.setPinCount (o.metadata.pinCount - 1)) i
      if o.metadata.pinCount < 1 then q.modify i fun o => o.setPinCount 0 else q := by
  have h1 : o.metadata.pinCount - 1 ≤ 0 ∧ o.metadata.refCount ≤ 0 := ⟨by omega, hr⟩
  have h2 : (o.metadata.pinCount - 1 < 0) = (o.metadata.pinCount < 1) := by
    rw [eq_iff_iff]
    omega
  simp only [unpin, h, if_pos h1, h2]

theorem unpin_keep (h : p.objs[i]? = some o)
    (hk : ¬ (o.metadata.pinCount ≤ 1 ∧ o.metadata.refCount ≤ 0)) :
    unpin free p i =
      let q := p.modify i fun o' => o'.setPinCount (o.metadata.pinCount - 1)
      if o.metadata.pinCount < 1 then q.modify i fun o => o.setPinCount 0 else q := by
  have h1 : ¬ (o.metadata.pinCount - 1 ≤ 0 ∧ o.metadata.refCount ≤ 0) := by omega
  have h2 : (o.metadata.pinCount - 1 < 0) = (o.metadata.pinCount < 1) := by
    rw [eq_iff_iff]
    omega
  simp only [unpin, h, if_neg h1, h2]

/-- What a release and a new count keep is kept by `ref_count_down`. -/
theorem keeps_refCountDown {P : Pool A → Prop} (hfree : ∀ q, P q → P (free q i))
    (hset : ∀ q n, P q → P (q.modify i fun o => o.setRefCount n)) (h : P p) :
    P (refCountDown free p i) := by
  fun_cases refCountDown
  · exact h
  · exact hfree _ (hset _ _ h)
  · exact hset _ _ h

theorem keeps_unpin {P : Pool A → Prop} (hfree : ∀ q, P q → P (free q i))
    (hset : ∀ q n, P q → P (q.modify i fun o => o.setPinCount n)) (h : P p) :
    P (unpin free p i) := by
  have hrelease : ∀ (c : Prop) [Decidable c] n, P (if c then
      free (p.modify i fun o => o.setPinCount n) i else p.modify i fun o => o.setPinCount n) := by
    intro c _ n
    split_ifs
    · exact hfree _ (hset _ _ h)
    · exact hset _ _ h
  fun_cases unpin
  · exact h
  · exact hset _ _ (hrelease _ _)
  · exact hrelease _ _

end Pool

end LMCache
