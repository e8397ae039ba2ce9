import LMCache.Lib.Extent
import LMCache.Python

/-! # The address manager

`AddressManager` hands out aligned ranges of a virtual address space `[0, size)` from an
explicit list of free blocks, first fit, and merges freed blocks with their neighbours.

* **Free list.**  `_explicit_list` is a list of blocks sorted by start (`sortedcontainers`'
  `SortedList` with a key): `add` inserts behind the blocks with a smaller or equal start,
  `remove` drops the first block equal to its argument, `bisect_left` counts the blocks
  with a smaller start.  Growing a block in place is `List.replace`.
* **Failure.**  `allocate` raises a `RuntimeError` and leaves the manager as it was.

The last section shows that a block joins a gap-sorted free list as it should, whichever of
its neighbours it touches (`insertBlock_inserted`). -/

namespace LMCache

open List Extent

/-- `FreeBlock`: the start and the size of a block of the address space. -/
abbrev FreeBlock := Extent

/-- `self.start + self.size == succ.start`. -/
def FreeBlock.canBeCoalesced (b succ : FreeBlock) : Bool := b.start + b.size == succ.start

/-- The fields of `AddressManager` (`_size`, `_align`, `_explicit_list`,
`total_allocated_size`). -/
structure AddressManager where
  size : ℕ
  align : ℕ
  explicitList : List FreeBlock
  totalAllocatedSize : ℤ
deriving DecidableEq, Repr

/-! ### The sorted list of free blocks -/

namespace SortedList

def add (l : List FreeBlock) (b : FreeBlock) : List FreeBlock :=
  l.orderedInsert (fun x y => x.start < y.start) b

def remove (l : List FreeBlock) (b : FreeBlock) : List FreeBlock := l.erase b

def bisectLeft (l : List FreeBlock) (b : FreeBlock) : ℕ :=
  (l.takeWhile fun c => c.start < b.start).length

end SortedList

namespace AddressManager

/-! ### Operations -/

/-- `AddressManager.__init__`. -/
def new (size alignBytes : ℕ) : AddressManager :=
  { size := size, align := alignBytes, explicitList := SortedList.add [] ⟨0, size⟩
    totalAllocatedSize := 0 }

/-- `(raw_size + self._align - 1) & ~(self._align - 1)`. -/
def computeAlignedSize (m : AddressManager) (rawSize : ℕ) : ℕ :=
  (Int.land (rawSize + m.align - 1) (Int.lnot (m.align - 1))).toNat

def canMergeWithPrev (currBlock prevBlock : FreeBlock) : Bool := prevBlock.canBeCoalesced currBlock

def canMergeWithSucc (currBlock succBlock : FreeBlock) : Bool := currBlock.canBeCoalesced succBlock

/-- `_coalesce`: merges `currBlock` (not in the list) with its neighbours; the flag tells
whether it was merged. -/
def coalesce (l : List FreeBlock) (currBlock : FreeBlock) (prevBlock succBlock : Option FreeBlock) :
    Bool × List FreeBlock :=
  match prevBlock.filter (canMergeWithPrev currBlock),
    succBlock.filter (canMergeWithSucc currBlock) with
  | some prev, some succ =>
    (true, SortedList.remove
      (l.replace prev { prev with size := prev.size + (currBlock.size + succ.size) }) succ)
  | some prev, none => (true, l.replace prev { prev with size := prev.size + currBlock.size })
  | none, some succ =>
    (true, SortedList.add (SortedList.remove l succ)
      { start := succ.start - currBlock.size, size := succ.size + currBlock.size })
  | none, none => (false, l)

/-- `AddressManager.allocate`: the address and the aligned size of the first block that is
large enough; the rest of that block stays free. -/
def allocate (m : AddressManager) (size : ℕ) :
    Except PyError ((ℕ × ℕ) × AddressManager) :=
  let alignedSize := m.computeAlignedSize size
  match m.explicitList.find? fun block => alignedSize ≤ block.size with
  | none =>
    .error ⟨.runtimeError,
      s!"Failed to allocate memory block of size {size} because no memory is available"⟩
  | some block =>
    let l := SortedList.remove m.explicitList block
    let l := if alignedSize < block.size then
        SortedList.add l ⟨block.start + alignedSize, block.size - alignedSize⟩
      else l
    .ok ((block.start, alignedSize),
      { m with explicitList := l, totalAllocatedSize := m.totalAllocatedSize + alignedSize })

/-- What `free` and `sbrk` do with a new block: merge it, or add it when it was not merged. -/
def insertBlock (l : List FreeBlock) (b : FreeBlock) (prevBlock succBlock : Option FreeBlock) :
    List FreeBlock :=
  let r := coalesce l b prevBlock succBlock
  if r.1 then r.2 else SortedList.add r.2 b

def free (m : AddressManager) (address size : ℕ) : AddressManager :=
  let newFreeBlock : FreeBlock := ⟨address, size⟩
  let index := SortedList.bisectLeft m.explicitList newFreeBlock
  let prevBlock := if 0 < index then m.explicitList[index - 1]? else none
  let succBlock := m.explicitList[index]?
  { m with
    explicitList := insertBlock m.explicitList newFreeBlock prevBlock succBlock
    totalAllocatedSize := m.totalAllocatedSize - size }

def sbrk (m : AddressManager) (size : ℕ) : AddressManager :=
  let size := m.computeAlignedSize size
  { m with
    explicitList := insertBlock m.explicitList ⟨m.size, size⟩ m.explicitList.getLast? none
    size := m.size + size }

def getHeapSize (m : AddressManager) : ℕ := m.size

def getFreeSize (m : AddressManager) : ℤ := m.size - m.totalAllocatedSize

def checkConsistency (m : AddressManager) : Bool :=
  if (m.explicitList.dropLast.zip m.explicitList.tail).any fun p =>
    p.1.canBeCoalesced p.2 then false
  else ((m.explicitList.map Extent.size).sum : ℤ) + m.totalAllocatedSize == m.size

end AddressManager

/-! ### The sorted list -/

namespace SortedList

variable {l₁ l₂ : List FreeBlock} {b : FreeBlock}

theorem add_middle (h₁ : ∀ c ∈ l₁, c.start ≤ b.start) (h₂ : ∀ c ∈ l₂, b.start < c.start) :
    add (l₁ ++ l₂) b = l₁ ++ b :: l₂ := by
  unfold add
  induction l₁ with
  | nil =>
    cases l₂ with
    | nil => rfl
    | cons c l₂ => simp [h₂ c mem_cons_self]
  | cons c l₁ ih =>
    grind

theorem remove_middle (h : b ∉ l₁) : remove (l₁ ++ b :: l₂) b = l₁ ++ l₂ := by
  unfold remove
  rw [erase_append_right _ h, erase_cons_head]

theorem replace_middle {c : FreeBlock} (h : b ∉ l₁) :
    (l₁ ++ b :: l₂).replace b c = l₁ ++ c :: l₂ := by
  rw [replace_append_right h]
  simp

theorem bisectLeft_split (l : List FreeBlock) (b : FreeBlock) :
    ∃ l₁ l₂, l = l₁ ++ l₂ ∧ bisectLeft l b = l₁.length ∧ (∀ c ∈ l₁, c.start < b.start) ∧
      ∀ c, l₂.head? = some c → b.start ≤ c.start := by
  refine ⟨l.takeWhile fun c => c.start < b.start, l.dropWhile fun c => c.start < b.start,
    (takeWhile_append_dropWhile).symm, rfl, ?_, ?_⟩
  · intro c hc
    simpa using mem_takeWhile_imp hc
  · intro c hc
    have := head?_dropWhile_not (fun c : FreeBlock => decide (c.start < b.start)) l
    rw [hc] at this
    simpa using this

end SortedList

namespace AddressManager

/-! ### Inserting a block -/

/-- What inserting the block `b` makes of the free list `l`. -/
structure Inserted (l : List FreeBlock) (b : FreeBlock) (l' : List FreeBlock) : Prop where
  gap : GapSorted l'
  cover : ∀ x, cover l' x = cover l x + b.ind x
  pos : ∀ c ∈ l', 0 < c.size
  start : ∀ c ∈ l', c.start = b.start ∨ ∃ d ∈ l, c.start = d.start

variable {b : FreeBlock} {l r : List FreeBlock}

theorem inserted_middle {l₁ t l₂ : List FreeBlock} {e : FreeBlock}
    (hgap : GapSorted (l₁ ++ (t ++ l₂))) (hpos : ∀ c ∈ l₁ ++ (t ++ l₂), 0 < c.size)
    (h₁ : ∀ a ∈ l₁, a.stop < e.start) (h₂ : ∀ c ∈ l₂, e.stop < c.start)
    (hcov : ∀ x, e.ind x = cover t x + b.ind x) (he : 0 < e.size)
    (hs : e.start = b.start ∨ ∃ d ∈ t, e.start = d.start) :
    Inserted (l₁ ++ (t ++ l₂)) b (l₁ ++ e :: l₂) where
  gap := by
    refine gapSorted_middle.mpr ⟨hgap.sublist ?_, h₁, h₂⟩
    exact List.Sublist.append (List.Sublist.refl _) (sublist_append_right _ _)
  cover := by
    intro x
    simp only [cover_append, cover_cons, hcov x]
    omega
  pos := by
    intro c hc
    simp only [mem_append, mem_cons] at hc hpos
    rcases hc with hc | rfl | hc
    · exact hpos c (Or.inl hc)
    · exact he
    · exact hpos c (Or.inr (Or.inr hc))
  start := by
    intro c hc
    simp only [mem_append, mem_cons] at hc ⊢
    rcases hc with hc | rfl | hc
    · exact Or.inr ⟨c, Or.inl hc, rfl⟩
    · rcases hs with hs | ⟨d, hd, hs⟩
      · exact Or.inl hs
      · exact Or.inr ⟨d, Or.inr (Or.inl hd), hs⟩
    · exact Or.inr ⟨c, Or.inr (Or.inr hc), rfl⟩

theorem not_mem_of_stop_le (h : ∀ a ∈ l, a.stop < b.start) : b ∉ l := by
  intro hb
  have := h b hb
  simp only [stop] at this
  omega

theorem prev_cases (hgap : GapSorted l) (hpos : ∀ c ∈ l, 0 < c.size)
    (h : ∀ c ∈ l, c.stop ≤ b.start) :
    (∃ l' p, l = l' ++ [p] ∧ p.stop = b.start ∧
      l.getLast?.filter (canMergeWithPrev b) = some p) ∨
    ((∀ c ∈ l, c.stop < b.start) ∧ l.getLast?.filter (canMergeWithPrev b) = none) := by
  rcases eq_nil_or_concat l with rfl | ⟨l', p, rfl⟩
  · exact Or.inr ⟨by simp, rfl⟩
  · rw [concat_eq_append] at *
    have hp := h p (by simp)
    have hlast := (gapSorted_append.mp hgap).2.2
    by_cases hm : p.stop = b.start
    · refine Or.inl ⟨l', p, rfl, hm, ?_⟩
      simpa [canMergeWithPrev, FreeBlock.canBeCoalesced, stop] using hm
    · refine Or.inr ⟨?_, ?_⟩
      · intro c hc
        rcases mem_append.mp hc with hc | hc
        · have h1 := hlast c hc p (by simp)
          simp only [stop] at *
          omega
        · rw [mem_singleton.mp hc]
          omega
      · simpa [canMergeWithPrev, FreeBlock.canBeCoalesced, stop] using hm

theorem succ_cases (hgap : GapSorted l) (hpos : ∀ c ∈ l, 0 < c.size)
    (h : ∀ c ∈ l, b.stop ≤ c.start) :
    (∃ s l', l = s :: l' ∧ b.stop = s.start ∧
      l.head?.filter (canMergeWithSucc b) = some s) ∨
    ((∀ c ∈ l, b.stop < c.start) ∧ l.head?.filter (canMergeWithSucc b) = none) := by
  cases l with
  | nil => exact Or.inr ⟨by simp, rfl⟩
  | cons s l' =>
    have hs := h s mem_cons_self
    have hhead := (gapSorted_cons.mp hgap).1
    by_cases hm : b.stop = s.start
    · refine Or.inl ⟨s, l', rfl, hm, ?_⟩
      simpa [canMergeWithSucc, FreeBlock.canBeCoalesced, stop] using hm
    · refine Or.inr ⟨?_, ?_⟩
      · intro c hc
        rcases mem_cons.mp hc with rfl | hc
        · omega
        · have h1 := hhead c hc
          simp only [stop] at *
          omega
      · simpa [canMergeWithSucc, FreeBlock.canBeCoalesced, stop] using hm

theorem inserted_prev_succ {p s : FreeBlock} (hgap : GapSorted (l ++ ([p, s] ++ r)))
    (hpos : ∀ c ∈ l ++ ([p, s] ++ r), 0 < c.size) (hp : p.stop = b.start) (hs : b.stop = s.start) :
    Inserted (l ++ ([p, s] ++ r)) b
      (l ++ { p with size := p.size + (b.size + s.size) } :: r) := by
  obtain ⟨-, hmid, hl⟩ := gapSorted_append.mp hgap
  obtain ⟨-, hr⟩ := gapSorted_cons.mp hmid
  refine inserted_middle hgap hpos (fun a ha => hl a ha p (by simp)) (fun c hc => ?_)
    (fun x => ?_) ?_ (Or.inr ⟨p, by simp, rfl⟩)
  · have hstop := (gapSorted_cons.mp hr).1 c hc
    simp only [stop] at *
    omega
  · rw [cover_cons, cover_cons, cover_nil, ← ind_add_ind (e := ⟨b.start, b.size + s.size⟩) hp,
      ← ind_add_ind hs]
    omega
  · grind

theorem inserted_prev {p : FreeBlock} (hgap : GapSorted (l ++ ([p] ++ r)))
    (hpos : ∀ c ∈ l ++ ([p] ++ r), 0 < c.size) (hp : p.stop = b.start)
    (hr : ∀ c ∈ r, b.stop < c.start) :
    Inserted (l ++ ([p] ++ r)) b (l ++ { p with size := p.size + b.size } :: r) := by
  obtain ⟨-, -, hl⟩ := gapSorted_append.mp hgap
  refine inserted_middle hgap hpos (fun a ha => hl a ha p (by simp)) (fun c hc => ?_)
    (fun x => ?_) ?_ (Or.inr ⟨p, by simp, rfl⟩)
  · have hstop := hr c hc
    simp only [stop] at *
    omega
  · rw [cover_cons, cover_nil, Nat.add_zero, ind_add_ind hp]
  · grind

theorem inserted_succ {s : FreeBlock} (hgap : GapSorted (l ++ ([s] ++ r)))
    (hpos : ∀ c ∈ l ++ ([s] ++ r), 0 < c.size) (hs : b.stop = s.start)
    (hl : ∀ a ∈ l, a.stop < b.start) :
    Inserted (l ++ ([s] ++ r)) b (l ++ ⟨b.start, b.size + s.size⟩ :: r) := by
  obtain ⟨-, hmid, -⟩ := gapSorted_append.mp hgap
  refine inserted_middle hgap hpos hl (fun c hc => ?_) (fun x => ?_) ?_ (Or.inl rfl)
  · have hstop := (gapSorted_cons.mp hmid).1 c hc
    simp only [stop] at *
    omega
  · rw [cover_cons, cover_nil, Nat.add_zero, Nat.add_comm (s.ind x), ind_add_ind hs]
  · grind

theorem insertBlock_inserted {l₁ l₂ : List FreeBlock} (hgap : GapSorted (l₁ ++ l₂))
    (hpos : ∀ c ∈ l₁ ++ l₂, 0 < c.size) (hb : 0 < b.size) (h₁ : ∀ c ∈ l₁, c.stop ≤ b.start)
    (h₂ : ∀ c ∈ l₂, b.stop ≤ c.start) :
    Inserted (l₁ ++ l₂) b (insertBlock (l₁ ++ l₂) b l₁.getLast? l₂.head?) := by
  obtain ⟨g₁, g₂, g₁₂⟩ := gapSorted_append.mp hgap
  have p₁ : ∀ c ∈ l₁, 0 < c.size := (forall_mem_append.mp hpos).1
  have p₂ : ∀ c ∈ l₂, 0 < c.size := (forall_mem_append.mp hpos).2
  have start_le : ∀ c ∈ l₁, c.start ≤ b.start := fun c hc =>
    (Nat.le_add_right c.start c.size).trans (h₁ c hc)
  have lt_start : ∀ c ∈ l₂, b.start < c.start := fun c hc =>
    (Nat.lt_add_of_pos_right hb).trans_le (h₂ c hc)
  unfold insertBlock coalesce
  rcases prev_cases g₁ p₁ h₁ with ⟨l, p, rfl, hp, hpf⟩ | ⟨hlt, hpf⟩ <;>
    rcases succ_cases g₂ p₂ h₂ with ⟨s, r, rfl, hs, hsf⟩ | ⟨hgt, hsf⟩ <;>
    rw [hpf, hsf] <;> simp only [if_true, Bool.false_eq_true, if_false]
  · -- both neighbours touch `b`
    have hl : p ∉ l := not_mem_of_stop_le fun a ha => (gapSorted_append.mp g₁).2.2 a ha p (by simp)
    have hps : s ∉ l ++ [{ p with size := p.size + (b.size + s.size) }] := by
      grind
    have hres : SortedList.remove ((l ++ [p] ++ s :: r).replace p
        { p with size := p.size + (b.size + s.size) }) s =
        l ++ { p with size := p.size + (b.size + s.size) } :: r := by
      rw [append_assoc, singleton_append, SortedList.replace_middle hl,
        ← singleton_append, ← append_assoc, SortedList.remove_middle hps,
        append_assoc, singleton_append]
    have hlist : l ++ [p] ++ s :: r = l ++ ([p, s] ++ r) := by simp
    rw [hres, hlist]
    rw [hlist] at hgap hpos
    exact inserted_prev_succ hgap hpos hp hs
  · -- only the block before touches `b`
    have hl : p ∉ l := not_mem_of_stop_le fun a ha => (gapSorted_append.mp g₁).2.2 a ha p (by simp)
    rw [append_assoc] at hgap hpos ⊢
    rw [singleton_append, SortedList.replace_middle hl]
    exact inserted_prev hgap hpos hp hgt
  · -- only the block after touches `b`
    have hs1 : s ∉ l₁ := not_mem_of_stop_le fun a ha => g₁₂ a ha s mem_cons_self
    have hstart : s.start - b.size = b.start := by
      rw [← hs]
      exact Nat.add_sub_cancel ..
    rw [SortedList.remove_middle hs1, hstart, Nat.add_comm s.size,
      SortedList.add_middle (b := ⟨b.start, b.size + s.size⟩) start_le
        (forall_mem_cons.mp lt_start).2]
    exact inserted_succ hgap hpos hs hlt
  · -- no neighbour touches `b`
    rw [SortedList.add_middle start_le lt_start]
    exact inserted_middle (t := []) hgap hpos hlt hgt (by simp) hb (Or.inl rfl)

end AddressManager

end LMCache
