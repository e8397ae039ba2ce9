import LMCache.Memory.TensorMemoryAllocator

/-! # The memory of the L1 cache

`L1MemoryManager` allocates and frees batches of objects through one of two allocators.  The
lazy one passes every call on to a tensor memory allocator; the mixed one looks at the
format of the first object of a batch before it frees it, and therefore raises on an empty
batch.

The second half says what the allocator does to the objects that exist already: a batch is
made of new objects (`batchedAllocate_eq_some`), and freeing a batch touches no other object
(`objs_batchedFree`). -/

namespace LMCache

open List TensorMemoryAllocator

/-- The allocator that `create_memory_allocator` chooses, over its tensor memory allocator. -/
structure L1MemoryManager where
  useLazy : Bool
  pool : Pool TensorMemoryAllocator
deriving DecidableEq, Repr

/-- `str(fmt)` of the formats that the mixed allocator does not support. -/
def MemoryFormat.unsupported : MemoryFormat → Option String
  | .undefined => some "MemoryFormat.UNDEFINED"
  | .binary => some "MemoryFormat.BINARY"
  | _ => none

/-- `MixedMemoryAllocator.batched_free`; the buffer allocator frees nothing. -/
def mixedBatchedFree (p : Pool TensorMemoryAllocator) (memoryObjs : List ℕ) :
    Option PyError × Pool TensorMemoryAllocator :=
  match memoryObjs with
  | [] => (some ⟨.indexError, "list index out of range"⟩, p)
  | i :: _ =>
    match p.objs[i]? with
    | none => (none, p)
    | some o =>
      match o.metadata.fmt.unsupported with
      | some fmt => (some ⟨.valueError, "Unsupported memory format: " ++ fmt⟩, p)
      | none =>
        if o.metadata.fmt = .binaryBuffer then (none, p)
        else (none, batchedFree p memoryObjs)

namespace L1MemoryManager

def fmt (a : L1MemoryManager) : MemoryFormat := if a.useLazy then .undefined else .kv2ltd

/-- `L1MemoryManager.allocate`: `none` stands for `OUT_OF_MEMORY`. -/
def allocate (a : L1MemoryManager) (y : Layout) (count : ℕ) :
    Option (List ℕ) × L1MemoryManager :=
  let r := batchedAllocate a.pool y count a.fmt
  (r.1, { a with pool := r.2 })

/-- `L1MemoryManager.free`, with the exception it raises. -/
def free (a : L1MemoryManager) (memObjs : List ℕ) : Option PyError × L1MemoryManager :=
  if a.useLazy then (none, { a with pool := batchedFree a.pool memObjs })
  else
    let r := mixedBatchedFree a.pool memObjs
    (r.1, { a with pool := r.2 })

/-- The expansion thread of the lazy allocator commits more memory. -/
def commitExpansion (a : L1MemoryManager) (expandSize : ℕ) : L1MemoryManager :=
  { a with pool.allocator.addressManager :=
      a.pool.allocator.addressManager.sbrk expandSize }

end L1MemoryManager

/-! ### The objects of the pool -/

/-- The object `i` exists and is valid: its memory has not been given back. -/
def Pool.Live {A : Type} (p : Pool A) (i : ℕ) : Prop := ∃ o, p.objs[i]? = some o ∧ o.valid = true

theorem Pool.Live.lt_length {A : Type} {p : Pool A} {i : ℕ} (h : p.Live i) : i < p.objs.length :=
  let ⟨_, ho, _⟩ := h
  (List.getElem?_eq_some_iff.mp ho).1

instance {A : Type} {p : Pool A} {i : ℕ} : Decidable (p.Live i) :=
  decidable_of_iff ((p.objs[i]?.any fun o => o.valid) = true)
    (by simp [Pool.Live, Option.any_eq_true])

namespace TensorMemoryAllocator

variable {p p' : Pool TensorMemoryAllocator}

section invalidate
variable {objs objs' : List TensorMemoryObj} {i j : ℕ}

theorem getElem?_invalidate
    (h : objs' = objs.modify i .invalidate ∨ objs' = objs ∧ ∀ o, objs[i]? = some o →
      o.valid = false) :
    objs'[j]? = if j = i then objs[j]?.map .invalidate else objs[j]? := by
  rcases h with rfl | ⟨rfl, hinvalid⟩
  · grind
  · split_ifs with hj
    · subst hj
      cases ho : objs'[j]? with
      | none => rfl
      | some o => rw [Option.map_some, TensorMemoryObj.invalidate, ← hinvalid o ho]
    · rfl

theorem getElem?_foldl_invalidate {C : Type} {objsOf : C → List TensorMemoryObj} {f : C → ℕ → C}
    (hf : ∀ c i j, (objsOf (f c i))[j]? =
      if j = i then (objsOf c)[j]?.map .invalidate else (objsOf c)[j]?)
    (is : List ℕ) (c : C) : (objsOf (is.foldl f c))[j]? =
      if j ∈ is then (objsOf c)[j]?.map .invalidate else (objsOf c)[j]? := by
  induction is generalizing c with
  | nil => simp
  | cons i is ih =>
    rw [foldl_cons, ih, hf]
    by_cases hi : j = i
    · subst hi
      cases (objsOf c)[j]? with
      | none => simp
      | some o => simp [TensorMemoryObj.invalidate]
    · simp [hi]

theorem length_invalidated {is : List ℕ}
    (h : ∀ j : ℕ, objs'[j]? = if j ∈ is then objs[j]?.map .invalidate else objs[j]?) :
    objs'.length = objs.length := by
  have hnone : ∀ j, objs'.length ≤ j ↔ objs.length ≤ j := fun j => by
    rw [← getElem?_eq_none_iff, ← getElem?_eq_none_iff, h]
    grind
  exact le_antisymm ((hnone _).mpr le_rfl) ((hnone _).mp le_rfl)

end invalidate

theorem Coalescing.objs_step (c : Coalescing) (i j : ℕ) :
    (c.step i).objs[j]? = if j = i then c.objs[j]?.map .invalidate else c.objs[j]? := by
  apply getElem?_invalidate
  unfold step
  cases hi : c.objs[i]? with
  | none => exact Or.inr ⟨rfl, nofun⟩
  | some o =>
    dsimp only
    split_ifs with hv
    · exact Or.inl (extend_frame _ o).1
    · grind

theorem objs_free (p : Pool TensorMemoryAllocator) (i j : ℕ) :
    (free p i).objs[j]? = if j = i then p.objs[j]?.map .invalidate else p.objs[j]? := by
  apply getElem?_invalidate
  unfold free
  cases hi : p.objs[i]? with
  | none => exact Or.inr ⟨rfl, nofun⟩
  | some o =>
    grind

theorem objs_foldl_free (is : List ℕ) (p : Pool TensorMemoryAllocator) (j : ℕ) :
    (is.foldl free p).objs[j]? = if j ∈ is then p.objs[j]?.map .invalidate else p.objs[j]? :=
  getElem?_foldl_invalidate objs_free is p

/-- **Freeing a batch** invalidates its objects and touches no other. -/
theorem objs_batchedFree (p : Pool TensorMemoryAllocator) (is : List ℕ) (j : ℕ) :
    (batchedFree p is).objs[j]? = if j ∈ is then p.objs[j]?.map .invalidate else p.objs[j]? := by
  unfold batchedFree
  rw [getElem?_foldl_invalidate Coalescing.objs_step]
  simp

theorem length_batchedFree (p : Pool TensorMemoryAllocator) (is : List ℕ) :
    (batchedFree p is).objs.length = p.objs.length := length_invalidated (objs_batchedFree p is)

theorem batchedFree_getElem? {is : List ℕ} {j : ℕ} (h : j ∉ is) :
    (batchedFree p is).objs[j]? = p.objs[j]? := by
  rw [objs_batchedFree, if_neg h]

variable {fmt : MemoryFormat} {y : Layout}

theorem batchObjs_valid {u s : ℕ} {raws : List Extent} {o : TensorMemoryObj}
    (h : o ∈ batchObjs y fmt u s raws) : o.valid = true := by
  induction raws generalizing s with
  | nil => simp [batchObjs] at h
  | cons r raws ih =>
    rcases mem_cons.mp h with h | h
    · rw [h]; rfl
    · exact ih h

theorem batchedAllocate_eq_some {n : ℕ} {ids : List ℕ}
    (h : batchedAllocate p y n fmt = (some ids, p')) :
    ids.Nodup ∧ (∀ i ∈ ids, p.objs.length ≤ i ∧ p'.Live i) ∧
      ∀ i < p.objs.length, p'.objs[i]? = p.objs[i]? := by
  unfold batchedAllocate at h
  dsimp only at h
  split at h
  · cases h
  · rename_i blockStart sz m ha
    generalize hobjs : batchObjs y fmt _ _ _ = objs at h
    cases h
    refine ⟨?_, fun i hi => ?_, fun i hi => getElem?_append_left hi⟩
    · exact nodup_range.map fun a b hab => Nat.add_left_cancel hab
    · obtain ⟨j, hj, rfl⟩ := mem_map.mp hi
      rw [mem_range] at hj
      refine ⟨Nat.le_add_right _ _, objs[j], ?_, ?_⟩
      · grind
      · subst hobjs
        exact batchObjs_valid (getElem_mem hj)

theorem batchedAllocate_eq_none {n : ℕ} (h : batchedAllocate p y n fmt = (none, p')) : p' = p := by
  unfold batchedAllocate at h
  grind

end TensorMemoryAllocator

namespace L1MemoryManager

variable {a a' : L1MemoryManager}

theorem allocate_eq_some {n : ℕ} {ids : List ℕ} (h : a.allocate y n = (some ids, a')) :
    ids.Nodup ∧ (∀ i ∈ ids, a.pool.objs.length ≤ i ∧ a'.pool.Live i) ∧
      ∀ i < a.pool.objs.length, a'.pool.objs[i]? = a.pool.objs[i]? := by
  obtain ⟨hids, rfl⟩ := Prod.mk.inj h
  exact batchedAllocate_eq_some (Prod.ext hids rfl)

theorem allocate_eq_none {n : ℕ} (h : a.allocate y n = (none, a')) : a' = a := by
  obtain ⟨hids, rfl⟩ := Prod.mk.inj h
  have hpool := batchedAllocate_eq_none (Prod.ext hids rfl)
  exact congrArg (fun p => { a with pool := p }) hpool

theorem free_getElem? {memObjs : List ℕ} {j : ℕ} (h : j ∉ memObjs) :
    (a.free memObjs).2.pool.objs[j]? = a.pool.objs[j]? := by
  unfold free
  split_ifs
  · exact batchedFree_getElem? h
  · show (mixedBatchedFree a.pool memObjs).2.objs[j]? = _
    fun_cases mixedBatchedFree
    case case5 => exact batchedFree_getElem? h
    all_goals rfl

theorem free_of_raised {memObjs : List ℕ} (h : (a.free memObjs).1.isSome = true) :
    (a.free memObjs).2 = a := by
  unfold free at h ⊢
  split_ifs with hlazy
  · rw [if_pos hlazy] at h
    simp at h
  · rw [if_neg hlazy] at h
    have hpool : (mixedBatchedFree a.pool memObjs).2 = a.pool := by
      unfold mixedBatchedFree at h ⊢
      grind
    exact congrArg (fun p => { a with pool := p }) hpool

end L1MemoryManager

end LMCache
