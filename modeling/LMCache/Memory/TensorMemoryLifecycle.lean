import LMCache.Memory.AddressManagerTiling
import LMCache.Memory.TensorMemoryAllocator

/-! # The life of a tensor memory object

`system` runs one allocator with all its objects through any sequence of allocations,
frees and counter updates; redundant downs and unpins and objects of size zero are
included.  The ranges of the valid objects are at all times what the address manager has
handed out (`Inv.accounts`), so that they are disjoint and inside the buffer.  An object is
invalidated whenever its memory is given back, and an invalid object is never given back
again; this carries `tensorMemoryAllocator_lifecycle` through the two ways in which a
counter update can release an object. -/

namespace LMCache.TensorMemoryAllocator

open List AddressManager Extent Pool

/-! ### The invariant -/

/-- What holds of the objects, with the list `returned` of those given back. -/
structure ObjsOk (objs : List TensorMemoryObj) (returned : List ℕ) : Prop where
  size : ∀ o ∈ objs, o.getSize ≤ o.metadata.phySize
  nodup : returned.Nodup
  returned_iff : ∀ i, i ∈ returned ↔ ∃ o, objs[i]? = some o ∧ o.valid = false

/-- The valid objects are what the address manager has handed out. -/
structure Inv (p : Pool TensorMemoryAllocator) : Prop where
  accounts : p.allocator.addressManager.Accounts (live p.objs)
  space : p.allocator.addressManager.size ≤ p.allocator.buffer
  active : p.allocator.numActiveAllocations = (live p.objs).length
  objs : ObjsOk p.objs p.returned

theorem inv_new {buffer k : ℕ} {initAddressSpace : Option ℕ}
    (h : ∀ n ∈ initAddressSpace, n ≤ buffer) :
    Inv ⟨new buffer (2 ^ k) initAddressSpace, [], []⟩ where
  accounts := accounts_new _ _
  space := by
    cases initAddressSpace with
    | none => exact le_rfl
    | some n => exact h n rfl
  active := rfl
  objs := ⟨by simp, nodup_nil, by simp⟩

section objects
variable {objs : List TensorMemoryObj} {returned : List ℕ} {i : ℕ} {o : TensorMemoryObj}

theorem ObjsOk.modify {f : TensorMemoryObj → TensorMemoryObj} (h : ObjsOk objs returned)
    (hv : ∀ o, (f o).valid = o.valid) (he : ∀ o, (f o).extent = o.extent)
    (hs : ∀ o, (f o).getSize = o.getSize) : ObjsOk (objs.modify i f) returned where
  size := fun o ho => by
    obtain ⟨j, hj⟩ := mem_iff_getElem?.mp ho
    rw [getElem?_modify] at hj
    obtain ⟨o', ho', rfl⟩ := Option.map_eq_some_iff.mp hj
    have hle := h.size o' (mem_of_getElem? ho')
    split_ifs
    · rw [hs]
      exact hle.trans_eq (congrArg Extent.size (he o')).symm
    · exact hle
  nodup := h.nodup
  returned_iff := fun j => by
    rw [h.returned_iff, getElem?_modify]
    cases objs[j]? with
    | none => simp
    | some o => by_cases hij : i = j <;> simp [hij, hv]

/-- A valid object may be given back and invalidated. -/
theorem ObjsOk.invalidate (h : ObjsOk objs returned) (ho : objs[i]? = some o)
    (hv : o.valid = true) : ObjsOk (objs.modify i .invalidate) (returned ++ [i]) where
  size := fun o ho => by
    obtain ⟨j, hj⟩ := mem_iff_getElem?.mp ho
    rw [getElem?_modify] at hj
    obtain ⟨o', ho', rfl⟩ := Option.map_eq_some_iff.mp hj
    have hle := h.size o' (mem_of_getElem? ho')
    split_ifs <;> exact hle
  nodup := by
    have hi : i ∉ returned := fun hi => by
      obtain ⟨o', ho', hv'⟩ := (h.returned_iff i).mp hi
      cases ho.symm.trans ho'
      simp [hv] at hv'
    rw [nodup_append_comm]
    exact nodup_cons.mpr ⟨hi, h.nodup⟩
  returned_iff := fun j => by
    rw [mem_append, mem_singleton, h.returned_iff, getElem?_modify]
    by_cases hij : i = j
    · subst hij
      simp [ho, TensorMemoryObj.invalidate]
    · simp [hij, Ne.symm hij]

theorem ObjsOk.append {new : List TensorMemoryObj} (h : ObjsOk objs returned)
    (hn : ∀ o ∈ new, o.valid = true ∧ o.getSize ≤ o.metadata.phySize) :
    ObjsOk (objs ++ new) returned where
  size := fun o ho => by
    rcases mem_append.mp ho with ho | ho
    · exact h.size o ho
    · exact (hn o ho).2
  nodup := h.nodup
  returned_iff := fun j => by
    rw [h.returned_iff]
    by_cases hj : j < objs.length
    · rw [getElem?_append_left hj]
    · rw [getElem?_append_right (Nat.not_lt.mp hj), getElem?_eq_none (Nat.not_lt.mp hj)]
      constructor
      · rintro ⟨o, ho, -⟩
        cases ho
      · rintro ⟨o, ho, hv⟩
        have := (hn o (mem_of_getElem? ho)).1
        simp [hv] at this

end objects

/-! ### Freeing -/

variable {p p' : Pool TensorMemoryAllocator}

theorem inv_modify {f : TensorMemoryObj → TensorMemoryObj} (h : Inv p) (i : ℕ)
    (hv : ∀ o, (f o).valid = o.valid) (he : ∀ o, (f o).extent = o.extent)
    (hs : ∀ o, (f o).getSize = o.getSize) : Inv (p.modify i f) := by
  have hl := live_modify hv he p.objs i
  exact ⟨hl.symm ▸ h.accounts, h.space, hl.symm ▸ h.active, h.objs.modify hv he hs⟩

theorem inv_setRefCount (h : Inv p) (i : ℕ) (n : ℤ) : Inv (p.modify i fun o => o.setRefCount n) :=
  inv_modify h i (fun _ => rfl) (fun _ => rfl) (fun _ => rfl)

theorem inv_setPinCount (h : Inv p) (i : ℕ) (n : ℤ) : Inv (p.modify i fun o => o.setPinCount n) :=
  inv_modify h i (fun _ => rfl) (fun _ => rfl) (fun _ => rfl)

theorem inv_free (h : Inv p) (i : ℕ) : Inv (free p i) := by
  fun_cases free
  · exact h
  next ho hv =>
    have hperm := live_invalidate ho hv
    refine ⟨?_, h.space, ?_, h.objs.invalidate ho hv⟩
    · refine accounts_free (h.accounts.congr (fun x => ?_) fun r hr => ?_)
      · exact (cover_perm hperm x).symm
      · exact h.accounts.bound r (mem_append_left _ (hperm.mem_iff.mpr hr))
    · have hlen := hperm.length_eq
      have := h.active
      grind
  · exact h

def CoalescedBlock.extent (b : CoalescedBlock) : Extent := ⟨b.address, b.size⟩

/-- The invariant of the loop of `batched_free`, started on the objects `objs`: the blocks so far
cover what has been invalidated. -/
structure Coalescing.Inv (objs : List TensorMemoryObj) (n : ℕ) (c : Coalescing) : Prop where
  cover : ∀ x, cover (c.blocks.map CoalescedBlock.extent) x + cover (live c.objs) x =
    cover (live objs) x
  bound : ∀ b ∈ c.blocks, b.extent.stop ≤ n
  count : (c.blocks.map fun b => (b.count : ℤ)).sum + (live c.objs).length = (live objs).length
  bound' : ∀ r ∈ live c.objs, r.stop ≤ n
  objs : ObjsOk c.objs c.returned

theorem Coalescing.extend_blocks (c : Coalescing) (o : TensorMemoryObj) :
    (∀ x, cover ((c.extend o).blocks.map CoalescedBlock.extent) x =
      cover (c.blocks.map CoalescedBlock.extent) x + o.extent.ind x) ∧
    (∀ n, (∀ b ∈ c.blocks, b.extent.stop ≤ n) → o.extent.stop ≤ n →
      ∀ b ∈ (c.extend o).blocks, b.extent.stop ≤ n) ∧
    ((c.extend o).blocks.map fun b => (b.count : ℤ)).sum =
      (c.blocks.map fun b => (b.count : ℤ)).sum + 1 := by
  unfold extend blocks
  cases hc : c.curr with
  | none =>
    simp only [Option.toList_none, Option.toList_some, append_nil, map_append,
      map_cons, map_nil, cover_append, cover_cons, cover_nil, sum_append,
      sum_cons, sum_nil, mem_append, mem_singleton]
    refine ⟨fun x => rfl, fun n hb ho b hm => ?_, rfl⟩
    rcases hm with hm | hm
    · exact hb b hm
    · exact hm ▸ ho
  | some b =>
    dsimp only
    split_ifs with hadj
    · simp only [Option.toList_some, map_append, map_cons, map_nil, cover_append,
        cover_cons, cover_nil, sum_append, sum_cons, sum_nil, mem_append,
        mem_singleton]
      refine ⟨fun x => ?_, fun n hb ho d hm => ?_, by push_cast; omega⟩
      · have hj := ind_join b.address b.size o.metadata.phySize x
        rw [hadj] at hj
        simp only [CoalescedBlock.extent, TensorMemoryObj.extent]
        omega
      · rcases hm with hm | rfl
        · exact hb d (Or.inl hm)
        · simp only [CoalescedBlock.extent, TensorMemoryObj.extent, stop_mk] at *
          omega
    · simp only [Option.toList_some, map_append, map_cons, map_nil, cover_append,
        cover_cons, cover_nil, sum_append, sum_cons, sum_nil, mem_append,
        mem_singleton]
      refine ⟨fun x => rfl, fun n hb ho d hm => ?_, by push_cast; omega⟩
      rcases hm with hm | hm
      · exact hb d hm
      · exact hm ▸ ho

variable {c : Coalescing} {objs : List TensorMemoryObj} {o : TensorMemoryObj}

theorem Coalescing.Inv.extend {n : ℕ} {c' : Coalescing} (h : c.Inv objs n)
    (hb : c'.blocks = c.blocks) (hperm : (live c.objs).Perm (o.extent :: live c'.objs))
    (hok : ObjsOk c'.objs c'.returned) : (c'.extend o).Inv objs n := by
  obtain ⟨hcov, hbound, hcount⟩ := extend_blocks c' o
  obtain ⟨hobjs, hret⟩ := extend_frame c' o
  have hmem : o.extent ∈ live c.objs := hperm.mem_iff.mpr mem_cons_self
  rw [hb] at hcov hbound hcount
  refine ⟨fun x => ?_, hbound n h.bound (h.bound' _ hmem), ?_, fun r hr => ?_, ?_⟩
  · have h1 := h.cover x
    have h2 := cover_perm hperm x
    grind
  · have h1 := h.count
    have h2 := hperm.length_eq
    grind
  · rw [hobjs] at hr
    exact h.bound' r (hperm.mem_iff.mpr (mem_cons_of_mem _ hr))
  · rw [hobjs, hret]
    exact hok

theorem Coalescing.inv_step {n : ℕ} (h : c.Inv objs n) (i : ℕ) : (c.step i).Inv objs n := by
  fun_cases step
  · exact h
  next ho hv => exact h.extend rfl (live_invalidate ho hv) (h.objs.invalidate ho hv)
  · exact h

theorem Coalescing.inv_foldl {n : ℕ} (is : List ℕ) (h : c.Inv objs n) :
    (is.foldl step c).Inv objs n := by
  induction is generalizing c with
  | nil => exact h
  | cons i is ih => exact ih (inv_step h i)

theorem accounts_freeBlocks {m : AddressManager} {l : List Extent} (bs : List CoalescedBlock)
    (h : m.Accounts (bs.map CoalescedBlock.extent ++ l)) :
    (bs.foldl (fun m b => m.free b.address b.size) m).Accounts l ∧
      (bs.foldl (fun m b => m.free b.address b.size) m).size = m.size := by
  induction bs generalizing m with
  | nil => exact ⟨h, rfl⟩
  | cons b bs ih => exact ih (accounts_free h)

theorem inv_batchedFree (h : Inv p) (is : List ℕ) : Inv (batchedFree p is) := by
  unfold batchedFree
  generalize is.insertionSort (fun i j => addressOf p.objs i ≤ addressOf p.objs j) = sorted
  have hloop : ((sorted.foldl Coalescing.step ⟨p.objs, p.returned, [], none⟩).Inv p.objs
      p.allocator.addressManager.size) := by
    refine Coalescing.inv_foldl sorted ⟨fun x => ?_, ?_, ?_, fun r hr => ?_, h.objs⟩
    · simp [Coalescing.blocks]
    · simp [Coalescing.blocks]
    · simp [Coalescing.blocks]
    · exact h.accounts.bound r (mem_append_left _ hr)
  dsimp only
  generalize sorted.foldl Coalescing.step ⟨p.objs, p.returned, [], none⟩ = c at hloop
  have hacc : p.allocator.addressManager.Accounts
      (c.blocks.map CoalescedBlock.extent ++ live c.objs) := by
    refine h.accounts.congr (fun x => ?_) (fun r hr => ?_)
    · rw [cover_append, hloop.cover]
    · rcases mem_append.mp hr with hr | hr
      · obtain ⟨b, hb, rfl⟩ := mem_map.mp hr
        exact hloop.bound b hb
      · exact hloop.bound' r hr
  obtain ⟨hfree, hsize⟩ := accounts_freeBlocks c.blocks hacc
  refine ⟨hfree, hsize.symm ▸ h.space, ?_, hloop.objs⟩
  have h1 := hloop.count
  have h2 := h.active
  dsimp only
  omega

/-! ### Allocating -/

theorem inv_allocate (h : Inv p) (y : Layout) (fmt : MemoryFormat) : Inv (allocate p y fmt).2 := by
  fun_cases allocate
  · exact h
  next a sz m ha _ =>
    have hacc := accounts_allocate h.accounts ha
    have hle := le_computeAlignedSize h.accounts.align y.sizeBytes
    obtain ⟨block, -, -, -, hsz, hm⟩ := allocate_eq_ok ha
    have hlive : live (p.objs ++ [.new (p.allocator.getBufferSlice a y.sizeBytes)
        (y.metadata fmt a sz)]) = live p.objs ++ [⟨a, sz⟩] := by
      rw [live_append]
      rfl
    refine ⟨?_, ?_, ?_, h.objs.append fun o ho => ?_⟩
    · dsimp only
      rw [hlive]
      refine hacc.congr (fun x => cover_perm (perm_append_singleton _ _) x) fun r hr => ?_
      rw [(perm_append_singleton _ _).mem_iff] at hr
      exact hacc.bound r (mem_append_left _ hr)
    · rw [hm]
      exact h.space
    · dsimp only
      rw [hlive, h.active, length_append]
      rfl
    · rw [mem_singleton.mp ho, getSize_new]
      exact ⟨rfl, hsz ▸ hle⟩

theorem length_torchChunk {t : Extent} {u chunks : ℕ} (ht : t.size = u * chunks)
    (hc : 0 < chunks) : (torchChunk t chunks).length = chunks := by
  unfold torchChunk
  split_ifs with h0
  · exact length_replicate
  · have hu : 0 < u := Nat.pos_of_ne_zero fun hu => h0 (by rw [ht, hu, Nat.zero_mul])
    have hsplit : (t.size + chunks - 1) / chunks = u := by
      rw [ht, Nat.add_sub_assoc hc, Nat.mul_comm, Nat.mul_add_div hc,
        Nat.div_eq_of_lt (by omega), Nat.add_zero]
    rw [length_map, length_range, hsplit, ht, Nat.add_sub_assoc hu, Nat.mul_add_div hu,
      Nat.div_eq_of_lt (by omega), Nat.add_zero]

theorem cover_batchObjs (y : Layout) (fmt : MemoryFormat) (u s : ℕ) (raws : List Extent) (x : ℕ) :
    cover (live (batchObjs y fmt u s raws)) x = (Extent.mk s (u * raws.length)).ind x := by
  induction raws generalizing s with
  | nil => exact (ind_size_zero s x).symm
  | cons r raws ih =>
    rw [length_cons, Nat.mul_succ, Nat.add_comm _ u, ← ind_join, ← ih]
    rfl

theorem mem_batchObjs {y : Layout} {fmt : MemoryFormat} {u s : ℕ} {raws : List Extent}
    (h : o ∈ batchObjs y fmt u s raws) :
    o.valid = true ∧ o.getSize = y.sizeBytes ∧ o.metadata.phySize = u ∧
      o.extent.stop ≤ s + u * raws.length := by
  induction raws generalizing s with
  | nil => simp [batchObjs] at h
  | cons r raws ih =>
    rw [length_cons, Nat.mul_succ]
    rcases mem_cons.mp h with rfl | h
    · refine ⟨rfl, getSize_new .., rfl, ?_⟩
      show s + u ≤ _
      omega
    · grind

theorem length_live_batchObjs (y : Layout) (fmt : MemoryFormat) (u s : ℕ) (raws : List Extent) :
    (live (batchObjs y fmt u s raws)).length = raws.length := by
  induction raws generalizing s with
  | nil => rfl
  | cons r raws ih => exact congrArg Nat.succ (ih (s + u))

theorem inv_batchedAllocate (h : Inv p) (y : Layout) {batchSize : ℕ} (hb : 0 < batchSize)
    (fmt : MemoryFormat) : Inv (batchedAllocate p y batchSize fmt).2 := by
  unfold batchedAllocate
  dsimp only
  have hdvd := align_dvd_computeAlignedSize h.accounts.align y.sizeBytes
  have hle := le_computeAlignedSize h.accounts.align y.sizeBytes
  generalize p.allocator.addressManager.computeAlignedSize y.sizeBytes = u at *
  cases ha : p.allocator.addressManager.allocate (u * batchSize) with
  | error e => exact h
  | ok r =>
    obtain ⟨⟨a, sz⟩, m⟩ := r
    have hacc := accounts_allocate h.accounts ha
    obtain ⟨block, -, -, -, hsz, hm⟩ := allocate_eq_ok ha
    rw [computeAlignedSize_of_dvd h.accounts.align _
      (Dvd.dvd.mul_right hdvd batchSize)] at hsz
    have hstop : a + u * batchSize ≤ m.size := by
      have := hacc.bound ⟨a, sz⟩ mem_cons_self
      rwa [stop_mk, hsz] at this
    have hspace : m.size ≤ p.allocator.buffer := by
      rw [hm]
      exact h.space
    have hlen : (torchChunk (sliceTensor p.allocator.buffer a (a + u * batchSize))
        batchSize).length = batchSize := by
      refine length_torchChunk (u := u) ?_ hb
      simp only [sliceTensor]
      omega
    dsimp only
    generalize torchChunk (sliceTensor p.allocator.buffer a (a + u * batchSize))
      batchSize = raws at *
    refine ⟨?_, hspace, ?_, h.objs.append fun o ho => ?_⟩
    · refine hacc.congr (fun x => ?_) fun r hr => ?_
      · rw [live_append, cover_append, cover_batchObjs, cover_cons, hlen, hsz, Nat.add_comm]
      · rw [live_append] at hr
        rcases mem_append.mp hr with hr | hr
        · exact hacc.bound r (mem_cons_of_mem _ (mem_append_left _ hr))
        · obtain ⟨o, ho, rfl⟩ := mem_map.mp hr
          obtain ⟨-, -, -, h4⟩ := mem_batchObjs (mem_of_mem_filter ho)
          grind
    · dsimp only
      rw [live_append, length_append, length_live_batchObjs, hlen, h.active]
      push_cast
      rfl
    · obtain ⟨h1, h2, h3, -⟩ := mem_batchObjs ho
      exact ⟨h1, h2.trans_le (h3.symm ▸ hle)⟩

/-! ### Counters -/

theorem inv_refCountUp (h : Inv p) (i : ℕ) : Inv (p.refCountUp i) :=
  inv_modify h i (fun _ => rfl) (fun _ => rfl) (fun _ => rfl)

theorem inv_pin (h : Inv p) (i : ℕ) : Inv (p.pin i) :=
  inv_modify h i (fun _ => rfl) (fun _ => rfl) (fun _ => rfl)

theorem inv_refCountDown (h : Inv p) (i : ℕ) : Inv (refCountDown free p i) :=
  keeps_refCountDown (fun _ hq => inv_free hq i) (fun _ n hq => inv_setRefCount hq i n) h

theorem inv_unpin (h : Inv p) (i : ℕ) : Inv (unpin free p i) :=
  keeps_unpin (fun _ hq => inv_free hq i) (fun _ n hq => inv_setPinCount hq i n) h

/-- `p'` has given back nothing more than `p`, or the object `i`, which then has no reference
and no pin left. -/
def ReleasesUnused (p p' : Pool TensorMemoryAllocator) (i : ℕ) : Prop :=
  p'.returned = p.returned ∨ p'.returned = p.returned ++ [i] ∧
    ∃ o, p'.objs[i]? = some o ∧ o.metadata.refCount ≤ 0 ∧ o.metadata.pinCount ≤ 0

theorem free_releasesUnused {i : ℕ} (h : p.objs[i]? = some o) (hr : o.metadata.refCount ≤ 0)
    (hp : o.metadata.pinCount ≤ 0) : ReleasesUnused p (free p i) i := by
  unfold free
  rw [h]
  dsimp only
  split_ifs
  · exact Or.inr ⟨rfl, o.invalidate, by simp [h], hr, hp⟩
  · exact Or.inl rfl

theorem getElem?_modify_self {i : ℕ} (h : p.objs[i]? = some o)
    (f : TensorMemoryObj → TensorMemoryObj) : (p.modify i f).objs[i]? = some (f o) := by
  simp [Pool.modify, h]

theorem refCountDown_releasesUnused (p : Pool TensorMemoryAllocator) (i : ℕ) :
    ReleasesUnused p (refCountDown free p i) i := by
  cases ho : p.objs[i]? with
  | none => exact Or.inl (by simp only [refCountDown, ho])
  | some o =>
    by_cases hk : o.metadata.refCount ≤ 1 ∧ o.metadata.pinCount = 0
    · rw [refCountDown_release ho hk.1 hk.2]
      exact free_releasesUnused (getElem?_modify_self ho _) le_rfl hk.2.le
    · rw [refCountDown_keep ho hk]
      exact Or.inl rfl

theorem unpin_releasesUnused (p : Pool TensorMemoryAllocator) (i : ℕ) :
    ReleasesUnused p (unpin free p i) i := by
  cases ho : p.objs[i]? with
  | none => exact Or.inl (by simp only [unpin, ho])
  | some o =>
    by_cases hk : o.metadata.pinCount ≤ 1 ∧ o.metadata.refCount ≤ 0
    · rw [unpin_release ho hk.1 hk.2]
      have hpin : o.metadata.pinCount - 1 ≤ 0 := by omega
      have hfree := free_releasesUnused
        (getElem?_modify_self ho fun o' => o'.setPinCount (o.metadata.pinCount - 1)) hk.2 hpin
      split_ifs
      · rcases hfree with h | h
        · exact Or.inl h
        · obtain ⟨hret, o', ho', hr, -⟩ := h
          exact Or.inr ⟨hret, _, getElem?_modify_self ho' _, hr, le_rfl⟩
      · exact hfree
    · rw [unpin_keep ho hk]
      split_ifs <;> exact Or.inl rfl

/-! ### Runs -/

/-- A call on the allocator or on one of its objects. -/
inductive Call where
  | allocate (y : Layout) (fmt : MemoryFormat)
  | batchedAllocate (y : Layout) (batchSize : ℕ) (fmt : MemoryFormat)
  | free (i : ℕ)
  | batchedFree (is : List ℕ)
  | refCountUp (i : ℕ)
  | refCountDown (i : ℕ)
  | pin (i : ℕ)
  | unpin (i : ℕ)
deriving DecidableEq, Repr

def Call.run (p : Pool TensorMemoryAllocator) : Call → Pool TensorMemoryAllocator
  | allocate y fmt => (TensorMemoryAllocator.allocate p y fmt).2
  | batchedAllocate y batchSize fmt => (TensorMemoryAllocator.batchedAllocate p y batchSize fmt).2
  | free i => TensorMemoryAllocator.free p i
  | batchedFree is => TensorMemoryAllocator.batchedFree p is
  | refCountUp i => p.refCountUp i
  | refCountDown i => Pool.refCountDown TensorMemoryAllocator.free p i
  | pin i => p.pin i
  | unpin i => Pool.unpin TensorMemoryAllocator.free p i

/-- A batch has at least one object, and calls are on objects that were handed out. -/
def Call.Allowed (p : Pool TensorMemoryAllocator) : Call → Prop
  | allocate _ _ => True
  | batchedAllocate _ batchSize _ => 0 < batchSize
  | batchedFree is => ∀ i ∈ is, i < p.objs.length
  | free i | refCountUp i | refCountDown i | pin i | unpin i => i < p.objs.length

instance (p : Pool TensorMemoryAllocator) : (c : Call) → Decidable (c.Allowed p)
  | .allocate _ _ => inferInstanceAs (Decidable True)
  | .batchedAllocate _ batchSize _ => inferInstanceAs (Decidable (0 < batchSize))
  | .batchedFree is => inferInstanceAs (Decidable (∀ i ∈ is, i < p.objs.length))
  | .free i | .refCountUp i | .refCountDown i | .pin i | .unpin i =>
    inferInstanceAs (Decidable (i < p.objs.length))

/-- An allocator over a buffer of any size, aligned to any power of two, whose address space
lies inside the buffer. -/
def system : LTS (Pool TensorMemoryAllocator) Call where
  init p := ∃ buffer k initAddressSpace, (∀ n ∈ initAddressSpace, n ≤ buffer) ∧
    p = ⟨new buffer (2 ^ k) initAddressSpace, [], []⟩
  step p c p' := c.Allowed p ∧ p' = c.run p

theorem inv_run (h : Inv p) {c : Call} (ha : c.Allowed p) : Inv (c.run p) := by
  cases c with
  | allocate y fmt => exact inv_allocate h y fmt
  | batchedAllocate y batchSize fmt => exact inv_batchedAllocate h y ha fmt
  | free i => exact inv_free h i
  | batchedFree is => exact inv_batchedFree h is
  | refCountUp i => exact inv_refCountUp h i
  | refCountDown i => exact inv_refCountDown h i
  | pin i => exact inv_pin h i
  | unpin i => exact inv_unpin h i

theorem inv_inductive : system.Inductive Inv where
  init := by
    rintro p ⟨buffer, k, initAddressSpace, hs, rfl⟩
    exact inv_new hs
  step := by
    rintro p c p' h ⟨ha, rfl⟩
    exact inv_run h ha

/-- **Lifecycle.**  After every run the valid objects lie in pairwise disjoint ranges inside
the buffer and fit into them; the total allocated size and the number of active allocations
are theirs; no object was given back twice, and those given back are the invalid ones; and
`ref_count_down` and `unpin` give back an object only when it has neither a reference nor
a pin left. -/
theorem tensorMemoryAllocator_lifecycle {p : Pool TensorMemoryAllocator}
    (h : system.Reachable p) :
    ((p.objs.filter fun o => o.valid).Pairwise fun o o' =>
      Disjoint (Set.Ico o.metadata.address (o.metadata.address + o.metadata.phySize))
        (Set.Ico o'.metadata.address (o'.metadata.address + o'.metadata.phySize))) ∧
    (∀ o ∈ p.objs, o.valid = true →
      o.metadata.address + o.metadata.phySize ≤ p.allocator.buffer ∧
      o.getSize ≤ o.metadata.phySize) ∧
    p.allocator.totalAllocatedSize =
      (((p.objs.filter fun o => o.valid).map fun o => o.metadata.phySize).sum : ℕ) ∧
    p.allocator.numActiveAllocations = (p.objs.filter fun o => o.valid).length ∧
    p.returned.Nodup ∧
    (∀ i, i ∈ p.returned ↔ ∃ o, p.objs[i]? = some o ∧ o.valid = false) ∧
    ∀ i, ReleasesUnused p (refCountDown free p i) i ∧ ReleasesUnused p (unpin free p i) i := by
  have hi : Inv p := inv_inductive.reachable h
  have hcover : ∀ x, cover (live p.objs) x ≤ 1 := fun x => by
    have := hi.accounts.tiles.cover_le_one x
    rw [cover_append] at this
    omega
  have hdisj := pairwise_disjoint_of_cover_le_one hcover
  rw [live, pairwise_map] at hdisj
  refine ⟨hdisj, fun o ho hv => ⟨?_, ?_⟩, ?_, ?_, hi.objs.nodup, hi.objs.returned_iff, fun i =>
      ⟨refCountDown_releasesUnused p i, unpin_releasesUnused p i⟩⟩
  · have hmem : o.extent ∈ live p.objs :=
      mem_map_of_mem (mem_filter.mpr ⟨ho, hv⟩)
    exact (hi.accounts.bound _ (mem_append_left _ hmem)).trans hi.space
  · exact hi.objs.size o ho
  · rw [totalAllocatedSize, hi.accounts.total, total, live, map_map]
    rfl
  · rw [hi.active, live, length_map]

/-- A batch of two objects of six bytes, aligned to four: one is released by its last unpin,
after a redundant down, and then freed once more together with the other. -/
theorem tensorMemoryAllocator_lifecycle_batch :
    ∃ p, system.Reachable p ∧ p.returned = [0, 1] ∧ p.returned.Nodup ∧
      p.allocator.numActiveAllocations = 0 := by
  let y : Layout := ⟨[[2, 3]], [⟨"uint8", 1⟩], by decide, rfl⟩
  have h₀ : system.Reachable ⟨new 20 4 none, [], []⟩ := .init ⟨20, 2, none, by simp, rfl⟩
  obtain ⟨p, hp, hreturned, hactive⟩ := h₀.exists_replay
    (P := fun p => p.returned = [0, 1] ∧ p.allocator.numActiveAllocations = 0)
    (f := fun p c => if c.Allowed p then some (c.run p) else none)
    (fun p c p' h => by
      split_ifs at h with hc
      exact ⟨hc, (Option.some.inj h).symm⟩)
    [.batchedAllocate y 2 .kv2ltd, .pin 0, .refCountDown 0, .refCountDown 0, .unpin 0,
      .batchedFree [1, 0]] (by decide +kernel)
  exact ⟨p, hp, hreturned, (tensorMemoryAllocator_lifecycle hp).2.2.2.2.1, hactive⟩

end LMCache.TensorMemoryAllocator
