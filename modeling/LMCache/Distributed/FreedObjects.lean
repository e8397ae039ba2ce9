import LMCache.Distributed.ReserveWrite

/-! # What a call frees

`finish_read` and `delete` first go through their keys and take entries away, then free the objects
of those entries, all at once, and tell the listeners last; `clear` does the same with all entries.

* **Views.** `L1Manager.view` is what these calls leave alone in the entries that stay: the memory
  object and the write lock.
* **Removals.** `Removal` says what a loop over keys that takes entries away has done; it is proved
  once, for every loop body that is `Removing`.
* **Formats.** All objects of a manager have the default format of its allocator (`Uniform`), which
  both allocators can free.

**Main result**: `l1_raises_iff`.  The mixed allocator looks at the first object of the batch, so a
call that frees nothing raises. -/

namespace LMCache

open List TensorMemoryAllocator L1MemoryManager

/-! ### Formats -/

theorem TensorMemoryAllocator.batchedFree_nil (p : Pool TensorMemoryAllocator) :
    batchedFree p [] = p := by
  simp [batchedFree, Coalescing.blocks]

theorem TensorMemoryAllocator.fmt_batchObjs {y : Layout} {fmt : MemoryFormat} {u s : ℕ}
    {raws : List Extent} {o : TensorMemoryObj} (h : o ∈ batchObjs y fmt u s raws) :
    o.metadata.fmt = fmt := by
  induction raws generalizing s with
  | nil => simp [batchObjs] at h
  | cons r raws ih =>
    rcases mem_cons.mp h with h | h
    · rw [h]
      rfl
    · exact ih h

namespace L1MemoryManager

/-- All objects have the default format of the allocator. -/
def Uniform (a : L1MemoryManager) : Prop := ∀ o ∈ a.pool.objs, o.metadata.fmt = a.fmt

variable {a : L1MemoryManager}

@[simp] theorem useLazy_free (a : L1MemoryManager) (memObjs : List ℕ) :
    (a.free memObjs).2.useLazy = a.useLazy := by
  unfold free
  split_ifs <;> rfl

theorem Uniform.allocate (h : a.Uniform) (y : Layout) (n : ℕ) : (a.allocate y n).2.Uniform := by
  intro o ho
  unfold L1MemoryManager.allocate batchedAllocate at ho
  dsimp only at ho
  split at ho
  · exact h o ho
  · rcases mem_append.mp ho with ho | ho
    · exact h o ho
    · exact fmt_batchObjs ho

theorem mixedBatchedFree_eq (p : Pool TensorMemoryAllocator) (memObjs : List ℕ) :
    (mixedBatchedFree p memObjs).2 = p ∨
      (mixedBatchedFree p memObjs).2 = batchedFree p memObjs := by
  unfold mixedBatchedFree
  split
  · exact Or.inl rfl
  · grind

theorem free_pool (a : L1MemoryManager) (memObjs : List ℕ) : (a.free memObjs).2.pool = a.pool ∨
    (a.free memObjs).2.pool = batchedFree a.pool memObjs := by
  unfold free
  split_ifs
  · exact Or.inr rfl
  · exact mixedBatchedFree_eq a.pool memObjs

theorem Uniform.free (h : a.Uniform) (memObjs : List ℕ) : (a.free memObjs).2.Uniform := by
  have hfmt : (a.free memObjs).2.fmt = a.fmt := by rw [fmt, fmt, useLazy_free]
  intro o ho
  rw [hfmt]
  rcases free_pool a memObjs with heq | heq
  · exact h o (heq ▸ ho)
  · rw [heq] at ho
    obtain ⟨j, hj⟩ := mem_iff_getElem?.mp ho
    rw [objs_batchedFree] at hj
    split_ifs at hj
    · obtain ⟨o', ho', rfl⟩ := Option.map_eq_some_iff.mp hj
      exact h o' (mem_of_getElem? ho')
    · exact h o (mem_of_getElem? hj)

theorem mixedBatchedFree_cons (h : a.Uniform) (hlazy : a.useLazy = false) (i : ℕ) (is : List ℕ) :
    (mixedBatchedFree a.pool (i :: is)).1 = none ∧ (i < a.pool.objs.length →
      (mixedBatchedFree a.pool (i :: is)).2 = batchedFree a.pool (i :: is)) := by
  simp only [mixedBatchedFree]
  cases ho : a.pool.objs[i]? with
  | none => exact ⟨rfl, fun hi => absurd (getElem?_eq_none_iff.mp ho) (Nat.not_le.mpr hi)⟩
  | some o =>
    have hfmt : o.metadata.fmt = .kv2ltd := by
      rw [h o (mem_of_getElem? ho), fmt, hlazy]
      rfl
    dsimp only
    rw [hfmt]
    exact ⟨rfl, fun _ => rfl⟩

/-- **`free` raises** only on an empty batch, and only in the mixed allocator. -/
theorem free_raises_iff (h : a.Uniform) (memObjs : List ℕ) :
    (a.free memObjs).1.isSome = true ↔ a.useLazy = false ∧ memObjs = [] := by
  cases hlazy : a.useLazy with
  | true => simp [free, hlazy]
  | false =>
    cases memObjs with
    | nil => simp [free, hlazy, mixedBatchedFree]
    | cons i is => simp [free, hlazy, (mixedBatchedFree_cons h hlazy i is).1]

theorem free_eq (h : a.Uniform) {memObjs : List ℕ}
    (hex : ∀ i ∈ memObjs, i < a.pool.objs.length) :
    (a.free memObjs).2 = { a with pool := batchedFree a.pool memObjs } := by
  cases hlazy : a.useLazy with
  | true => simp [free, hlazy]
  | false =>
    cases memObjs with
    | nil => simp [free, hlazy, mixedBatchedFree, batchedFree_nil]
    | cons i is => simp [free, hlazy, (mixedBatchedFree_cons h hlazy i is).2 (hex i mem_cons_self)]

end L1MemoryManager

/-! ### Removals -/

namespace L1Manager

variable {K : Type} [DecidableEq K] {clock : ℕ → ℤ} {m m' : L1Manager K} {key : K}

/-- The memory object and the write lock of a key. -/
def view (m : L1Manager K) (key : K) : Option (ℕ × TTLLock) :=
  (m.objects.lookup key).map fun e => (e.memoryObj, e.writeLock)

theorem mem_keys_iff_view : key ∈ m.objects.keys ↔ (m.view key).isSome = true := by
  rw [← AList.mem_keys, ← AList.lookup_isSome, view, Option.isSome_map]

@[simp, grind =] theorem view_tick (m : L1Manager K) (n : ℕ) : (m.tick n).view = m.view := rfl

theorem view_setEntry (m : L1Manager K) (key : K) (e : L1ObjectState) :
    (m.setEntry key e).view = Function.update m.view key (some (e.memoryObj, e.writeLock)) := by
  funext key'
  by_cases hk : key' = key
  · subst hk
    simp [view]
  · simp [view, lookup_setEntry_of_ne hk, hk]

theorem view_delEntry (m : L1Manager K) (key : K) :
    (m.delEntry key).view = Function.update m.view key none := by
  funext key'
  by_cases hk : key' = key
  · subst hk
    simp [view]
  · simp [view, lookup_delEntry_of_ne hk, hk]

theorem view_of_lookup {e : L1ObjectState} (hl : m.objects.lookup key = some e) :
    m.view key = some (e.memoryObj, e.writeLock) := by rw [view, hl, Option.map_some]

theorem view_setEntry_of_lookup {e e' : L1ObjectState} (hl : m.objects.lookup key = some e)
    (hobj : e'.memoryObj = e.memoryObj) (hlock : e'.writeLock = e.writeLock) :
    (m.setEntry key e').view = m.view := by
  rw [view_setEntry, hobj, hlock, ← view_of_lookup hl, Function.update_eq_self]

/-- The body of a loop that changes at most read locks. -/
def KeepsView {I R : Type} (f : L1Manager K → I → R × L1Manager K) : Prop :=
  ∀ m item, (f m item).2.memoryManager = m.memoryManager ∧ m.ticks ≤ (f m item).2.ticks ∧
    (f m item).2.view = m.view

variable (clock : ℕ → ℤ)

theorem keepsView_reserveReadKey : KeepsView (K := K) (reserveReadKey clock) := by
  intro m key
  fun_cases reserveReadKey clock m key
  case case1 => exact ⟨rfl, le_rfl, rfl⟩
  case case2 => exact ⟨rfl, Nat.le_add_right _ _, rfl⟩
  case case3 hl _ => exact ⟨rfl, Nat.le_add_right _ _, view_setEntry_of_lookup hl rfl rfl⟩

theorem keepsView_unsafeReadKey : KeepsView (K := K) (unsafeReadKey clock) := by
  intro m key
  fun_cases unsafeReadKey clock m key
  case case1 => exact ⟨rfl, le_rfl, rfl⟩
  case case2 | case3 => exact ⟨rfl, Nat.le_add_right _ _, rfl⟩

theorem KeepsView.loop {I R : Type} {f : L1Manager K → I → R × L1Manager K} (hf : KeepsView f)
    (clock : ℕ → ℤ) (items : List I) (m : L1Manager K) :
    (m.forItems clock f items).2.memoryManager = m.memoryManager ∧
      m.ticks ≤ (m.forItems clock f items).2.ticks ∧
      (m.forItems clock f items).2.view = m.view := by
  refine forItems_keeps clock (fun m' => m'.memoryManager = m.memoryManager ∧ m.ticks ≤ m'.ticks ∧
    m'.view = m.view) (fun m' item h => ?_) items ⟨rfl, le_rfl, rfl⟩
  obtain ⟨hmemory, hticks, hview⟩ := hf m' item
  exact ⟨hmemory.trans h.1, h.2.1.trans hticks, hview.trans h.2.2⟩

theorem memoryManager_reserveWriteKey (mode : WriteMode) (m : L1Manager K) (item : K × Bool) :
    (reserveWriteKey clock mode m item).2.memoryManager = m.memoryManager := by
  fun_cases reserveWriteKey <;> rfl

/-- **`finish_write`** of a key changes its write lock at most. -/
theorem view_finishWriteKey (m : L1Manager K) (key : K) :
    (finishWriteKey clock m key).2.memoryManager = m.memoryManager ∧
      m.ticks ≤ (finishWriteKey clock m key).2.ticks ∧
      ((finishWriteKey clock m key).1 ≠ .success ∧ (finishWriteKey clock m key).2.view = m.view ∨
        (finishWriteKey clock m key).1 = .success ∧ ∃ i l l', m.view key = some (i, l) ∧
          (finishWriteKey clock m key).2.view = Function.update m.view key (some (i, l'))) := by
  fun_cases finishWriteKey clock m key
  case case1 => exact ⟨rfl, le_rfl, .inl ⟨by simp, rfl⟩⟩
  case case2 | case3 => exact ⟨rfl, Nat.le_add_right _ _, .inl ⟨by simp, rfl⟩⟩
  case case4 hl _ _ =>
    exact ⟨rfl, Nat.le_add_right _ _, .inr ⟨rfl, _, _, _, view_of_lookup hl, view_setEntry ..⟩⟩

omit [DecidableEq K] in
theorem memoryManager_forItems {I R : Type} {f : L1Manager K → I → R × L1Manager K}
    (hf : ∀ m item, (f m item).2.memoryManager = m.memoryManager) (clock : ℕ → ℤ) (items : List I)
    (m : L1Manager K) : (m.forItems clock f items).2.memoryManager = m.memoryManager :=
  forItems_keeps clock (fun m' => m'.memoryManager = m.memoryManager)
    (fun m' item h => (hf m' item).trans h) items rfl

/-- The body of a loop that takes away the entries of the keys it answers with an object. -/
def Removing {R : Type} (f : L1Manager K → K → (R × Option ℕ) × L1Manager K) : Prop :=
  ∀ m key, (f m key).2.memoryManager = m.memoryManager ∧ m.ticks ≤ (f m key).2.ticks ∧
    match (f m key).1.2 with
    | none => (f m key).2.view = m.view
    | some i => (∃ l, m.view key = some (i, l)) ∧
        (f m key).2.view = Function.update m.view key none

/-- From `m` to `m'` the entries of some keys were taken away; the list has their objects. -/
structure Removal (m m' : L1Manager K) (removed : List (K × ℕ)) : Prop where
  memory : m'.memoryManager = m.memoryManager
  ticks : m.ticks ≤ m'.ticks
  nodup : (removed.map Prod.fst).Nodup
  held : ∀ p ∈ removed, ∃ l, m.view p.1 = some (p.2, l)
  view : ∀ key, m'.view key = if key ∈ removed.map Prod.fst then none else m.view key

theorem removing_finishReadKey : Removing (K := K) (finishReadKey clock) := by
  intro m key
  fun_cases finishReadKey
  · exact ⟨rfl, le_rfl, rfl⟩
  case case2 | case3 => exact ⟨rfl, Nat.le_add_right _ _, rfl⟩
  case case4 hl _ _ _ _ _ =>
    exact ⟨rfl, Nat.le_add_right _ _, ⟨_, (view_of_lookup hl :)⟩, view_delEntry m key⟩
  case case5 hl _ _ _ _ _ | case6 hl _ _ _ _ =>
    exact ⟨rfl, Nat.le_add_right _ _, view_setEntry_of_lookup hl rfl rfl⟩

theorem removing_deleteKey : Removing (K := K) (deleteKey clock) := by
  intro m key
  fun_cases deleteKey clock m key
  case case1 => exact ⟨rfl, le_rfl, rfl⟩
  case case2 | case3 => exact ⟨rfl, Nat.le_add_right _ _, rfl⟩
  case case4 e hl _ _ =>
    exact ⟨rfl, Nat.le_add_right _ _, ⟨e.writeLock, view_of_lookup hl⟩, view_delEntry m key⟩

section loop
variable {R : Type} {f : L1Manager K → K → (R × Option ℕ) × L1Manager K}

/-- The keys that a loop has taken away, with their objects. -/
def removedBy (answers : List (Answer K (R × Option ℕ))) : List (K × ℕ) :=
  answers.filterMap fun a => a.result.2.map fun i => (a.item, i)

omit [DecidableEq K] in
theorem map_fst_removedBy (answers : List (Answer K (R × Option ℕ))) :
    (removedBy answers).map Prod.fst = keysOf (fun r => r.2.isSome) answers := by
  induction answers with
  | nil => rfl
  | cons a answers ih =>
    unfold removedBy keysOf at ih ⊢
    cases h : a.result.2 <;> simpa [h] using ih

omit [DecidableEq K] in
theorem map_snd_removedBy (answers : List (Answer K (R × Option ℕ))) :
    (removedBy answers).map Prod.snd = answers.filterMap fun a => a.result.2 := by
  rw [removedBy, map_filterMap]
  simp

omit [DecidableEq K] in
theorem removedBy_cons (a : Answer K (R × Option ℕ)) (answers : List (Answer K (R × Option ℕ))) :
    removedBy (a :: answers) =
      (a.result.2.map fun i => (a.item, i)).toList ++ removedBy answers := by
  cases h : a.result.2 <;> simp [removedBy, h]

/-- **The loop** of `finish_read` and of `delete`. -/
theorem Removing.loop (hf : Removing f) (clock : ℕ → ℤ) (keys : List K) (m : L1Manager K) :
    Removal m (m.forItems clock f keys).2 (removedBy (m.forItems clock f keys).1) := by
  induction keys generalizing m with
  | nil => exact ⟨rfl, le_rfl, nodup_nil, by simp [forItems, removedBy],
      by simp [forItems, removedBy]⟩
  | cons key keys ih =>
    obtain ⟨hmemory, hticks, hview⟩ := hf m key
    obtain ⟨hmem, hle, hnodup, hheld, hafter⟩ := ih (f m key).2
    rw [forItems]
    rw [removedBy_cons]
    generalize removedBy ((f m key).2.forItems clock f keys).1 = removed at hnodup hheld hafter ⊢
    cases hi : (f m key).1.2 with
    | none =>
      rw [hi] at hview
      exact ⟨hmem.trans hmemory, hticks.trans hle, hnodup, hview ▸ hheld, hview ▸ hafter⟩
    | some i =>
      rw [hi] at hview
      obtain ⟨⟨l, hl⟩, hupdate⟩ := hview
      rw [hupdate] at hheld hafter
      -- the entry of `key` is gone, so the rest of the loop does not take it away again
      have hne : ∀ p ∈ removed, p.1 ≠ key := by
        grind
      have hkey : key ∉ removed.map Prod.fst := by simpa using fun i hp => hne (key, i) hp rfl
      refine ⟨hmem.trans hmemory, hticks.trans hle, nodup_cons.mpr ⟨hkey, hnodup⟩,
        fun p hp => ?_, fun k => ?_⟩
      · grind
      · grind

end loop

/-- The keys of a removal. -/
theorem Removal.mem_keys {removed : List (K × ℕ)} (h : Removal m m' removed) (key : K) :
    key ∈ removed.map Prod.fst ↔ key ∈ m.objects.keys ∧ key ∉ m'.objects.keys := by
  have hview := h.view key
  rw [mem_keys_iff_view, mem_keys_iff_view, hview]
  constructor
  · intro hmem
    obtain ⟨p, hp, rfl⟩ := mem_map.mp hmem
    obtain ⟨l, hl⟩ := h.held p hp
    grind
  · grind

/-! ### Exceptions -/

/-- The objects that `finish_read` frees. -/
def finishReadFrees (clock : ℕ → ℤ) (m : L1Manager K) (keys : List K) : List ℕ :=
  (m.forItems clock (finishReadKey clock) keys).1.filterMap fun a => a.result.2

/-- The objects that `delete` frees. -/
def deleteFrees (clock : ℕ → ℤ) (m : L1Manager K) (keys : List K) : List ℕ :=
  (m.forItems clock (deleteKey clock) keys).1.filterMap fun a => a.result.2

/-- A loop comes to an item at which `probe` has no value; for the items before it, `probe` is the
number of readings of the clock. -/
def SomeHit {I : Type} (probe : ℕ → I → Option ℕ) : ℕ → List I → Prop
  | _, [] => False
  | now, item :: items =>
    match probe now item with
    | none => True
    | some n => SomeHit probe (now + n) items

omit [DecidableEq K] in
/-- **A loop hits** if one of the items does, at the readings that the items before it leave.  `J`
is what the items before the first hit keep. -/
theorem exists_hit_iff (clock : ℕ → ℤ) {I R : Type} {f : L1Manager K → I → R × L1Manager K}
    {p : R → Prop} {probe : ℕ → I → Option ℕ} {J : ℕ → List I → L1Manager K → Prop}
    (hhit : ∀ now item items m, J now (item :: items) m → probe now item = none → p (f m item).1)
    (hmiss : ∀ now item items m n, J now (item :: items) m → probe now item = some n →
      ¬ p (f m item).1 ∧ J (now + n) items (f m item).2) {items : List I} {now : ℕ}
    {m : L1Manager K} (h : J now items m) :
    (∃ a ∈ (m.forItems clock f items).1, p a.result) ↔ SomeHit probe now items := by
  induction items generalizing now m with
  | nil => simp [forItems, SomeHit]
  | cons item items ih =>
    rw [forItems, SomeHit]
    cases hprobe : probe now item with
    | none => exact iff_of_true ⟨_, mem_cons_self, hhit now item items m h hprobe⟩ trivial
    | some n =>
      obtain ⟨hp, hnext⟩ := hmiss now item items m n h hprobe
      simp [← ih hnext, hp]

/-- What `delete` does at a key: a key that is locked for reading costs one reading of the clock,
one that is locked for writing only costs two, and a free key is a hit. -/
def deleteProbe (clock : ℕ → ℤ) (m : L1Manager K) (now : ℕ) (key : K) : Option ℕ :=
  match m.objects.lookup key with
  | none => some 0
  | some e =>
    if e.readLock.isLocked (clock now) then some 1
    else if e.writeLock.isLocked (clock (now + 1)) then some 2
    else none

/-- One of the keys is there with its locks free when `delete` reads them. -/
def SomeFree (clock : ℕ → ℤ) (m : L1Manager K) (now : ℕ) (keys : List K) : Prop :=
  SomeHit (deleteProbe clock m) now keys

/-- **What `delete` frees**, by the entries before the call. -/
theorem deleteFrees_eq_nil_iff (m : L1Manager K) (keys : List K) :
    deleteFrees clock m keys = [] ↔ ¬ SomeFree clock m m.ticks keys := by
  have h : (∃ a ∈ (m.forItems clock (deleteKey clock) keys).1, a.result.2 ≠ none) ↔
      SomeHit (deleteProbe clock m) m.ticks keys := by
    refine exists_hit_iff clock (p := fun r : L1Error × Option ℕ => r.2 ≠ none)
      (J := fun now _ m' => m' = { m with ticks := now }) ?_ ?_ ?_
    · rintro now key keys _ rfl hprobe
      revert hprobe
      fun_cases deleteProbe <;> simp_all [deleteKey, tick]
    · rintro now key keys _ n rfl hprobe
      revert hprobe
      fun_cases deleteProbe <;> simp_all [deleteKey, tick]
    · rfl
  rw [SomeFree, ← h, deleteFrees, filterMap_eq_nil_iff]
  simp

/-- What `finish_read` does at a key: the last read lock of a temporary object is a hit. -/
def finishReadProbe (clock : ℕ → ℤ) (m : L1Manager K) (now : ℕ) (key : K) : Option ℕ :=
  match m.objects.lookup key with
  | none => some 0
  | some e =>
    if e.writeLock.isLocked (clock now) then some 1
    else if !e.readLock.isLocked (clock (now + 1)) then some 2
    else if !e.isTemporary then some 2
    else if e.readLock.unlock.isLocked (clock (now + 2)) then some 3
    else none

/-- **What `finish_read` frees** of distinct keys, by the entries before the call. -/
theorem finishReadFrees_eq_nil_iff (m : L1Manager K) {keys : List K} (hkeys : keys.Nodup) :
    finishReadFrees clock m keys = [] ↔ ¬ SomeHit (finishReadProbe clock m) m.ticks keys := by
  have h : (∃ a ∈ (m.forItems clock (finishReadKey clock) keys).1, a.result.2 ≠ none) ↔
      SomeHit (finishReadProbe clock m) m.ticks keys := by
    -- the entries of the keys that are still to come are those before the call
    refine exists_hit_iff clock (p := fun r : L1Error × Option ℕ => r.2 ≠ none)
      (J := fun now keys m' => keys.Nodup ∧ m'.ticks = now ∧
        ∀ key ∈ keys, m'.objects.lookup key = m.objects.lookup key) ?_ ?_
          ⟨hkeys, rfl, fun _ _ => rfl⟩
    · rintro now key keys m' ⟨hnodup, rfl, hsame⟩ hprobe
      have hkey := hsame key mem_cons_self
      revert hprobe
      fun_cases finishReadProbe <;> simp_all [finishReadKey, tick]
    · rintro now key keys m' n ⟨hnodup, rfl, hsame⟩ hprobe
      have hkey := hsame key mem_cons_self
      obtain ⟨hnew, hnodup⟩ := nodup_cons.mp hnodup
      have hne : ∀ k ∈ keys, k ≠ key := fun k hk heq => hnew (heq ▸ hk)
      revert hprobe
      fun_cases finishReadProbe <;> simp_all [finishReadKey, tick, setEntry, AList.lookup_insert_ne]
  rw [← h, finishReadFrees, filterMap_eq_nil_iff]
  simp

section
variable (m : L1Manager K)

theorem raised_finishRead (keys : List K) :
    (m.finishRead clock keys).raised = (m.memoryManager.free (finishReadFrees clock m keys)).1 := by
  rw [← ((removing_finishReadKey clock).loop clock keys m).memory]
  rfl

theorem raised_delete (keys : List K) :
    (m.delete clock keys).raised = (m.memoryManager.free (deleteFrees clock m keys)).1 := by
  rw [← ((removing_deleteKey clock).loop clock keys m).memory]
  rfl

omit [DecidableEq K] in
theorem raised_clear : m.clear.raised =
    (m.memoryManager.free (m.objects.entries.map fun e => e.2.memoryObj)).1 := by
  fun_cases clear
  · rfl
  next h => exact (Option.not_isSome_iff_eq_none.mp h).symm

theorem raised_reserveWrite (keys : List K) (isTemporary : List Bool)
    (y : Layout) (mode : WriteMode) :
    (m.reserveWrite clock keys isTemporary y mode).raised = none := by
  fun_cases reserveWrite <;> rfl

end

end L1Manager

open L1Manager

variable {K : Type} [DecidableEq K] {clock : ℕ → ℤ}

/-- A property of the memory that allocating and freeing keeps. -/
structure MemoryRule (P : L1MemoryManager → Prop) : Prop where
  allocate : ∀ a y n, 0 < n → P a → P (a.allocate y n).2
  free : ∀ a memObjs, P a → P (a.free memObjs).2

theorem memoryManager_allocateNew (clock : ℕ → ℤ) (m : L1Manager K) (y : Layout)
    (need : List (K × Bool)) : (m.allocateNew clock y need).2.memoryManager =
      (m.memoryManager.allocate y need.length).2 := by
  fun_cases allocateNew
  · rfl
  · rw [memoryManager_forItems fun _ _ => rfl]

/-- **Every call** but an expansion allocates and frees at most. -/
theorem MemoryRule.run {P : L1MemoryManager → Prop} (hP : MemoryRule P) {s : L1Run K}
    (h : P s.manager.memoryManager) {c : L1Call K} (hc : ∀ n, c ≠ .commitExpansion n) :
    P (c.run clock s).manager.memoryManager := by
  cases c with
  | reserveRead client keys =>
    exact ((keepsView_reserveReadKey clock).loop clock keys s.manager).1.symm ▸ h
  | unsafeRead keys =>
    exact ((keepsView_unsafeReadKey clock).loop clock keys s.manager).1.symm ▸ h
  | finishRead client keys =>
    have hloop := (removing_finishReadKey clock).loop clock keys s.manager
    exact hP.free _ _ (hloop.memory.symm ▸ h)
  | reserveWrite client keys isTemporary y mode =>
    have hfirst := memoryManager_forItems (memoryManager_reserveWriteKey clock mode) clock
      (keys.zip isTemporary) s.manager
    show P (s.manager.reserveWrite clock keys isTemporary y mode).manager.memoryManager
    fun_cases reserveWrite
    · exact hfirst.symm ▸ h
    · exact hfirst.symm ▸ h
    · rw [memoryManager_allocateNew]
      refine hP.allocate _ _ _ ?_ (hfirst.symm ▸ h)
      rwa [List.length_pos_iff, ne_eq, ← List.isEmpty_iff]
  | finishWrite client keys =>
    have hloop :=
      memoryManager_forItems (fun m key => (view_finishWriteKey clock m key).1) clock keys s.manager
    exact hloop.symm ▸ h
  | delete keys =>
    have hloop := (removing_deleteKey clock).loop clock keys s.manager
    exact hP.free _ _ (hloop.memory.symm ▸ h)
  | clear =>
    show P (s.manager.clear).manager.memoryManager
    fun_cases clear <;> exact hP.free _ _ h
  | commitExpansion n => exact absurd rfl (hc n)

/-- **Every call** leaves objects of the default format only. -/
theorem uniform_run {s : L1Run K} (h : s.manager.memoryManager.Uniform) (c : L1Call K) :
    (c.run clock s).manager.memoryManager.Uniform := by
  have hrule : MemoryRule L1MemoryManager.Uniform :=
    ⟨fun _ y n _ h => h.allocate y n, fun _ memObjs h => h.free memObjs⟩
  cases c with
  | commitExpansion n => exact h
  | _ => exact hrule.run h nofun

theorem uniform_reachable {s : L1Run K} (h : (l1System K clock).Reachable s) :
    s.manager.memoryManager.Uniform := by
  refine h.invariant (I := fun s => s.manager.memoryManager.Uniform) ?_ ?_
  · rintro s ⟨useLazy, buffer, k, initAddressSpace, w, r, rfl⟩ o ho
    cases ho
  · rintro s c s' hs rfl
    exact uniform_run hs c

/-- **When a call raises**: exactly when the mixed allocator is used and the call has no object to
free.  `reserve_write` never raises.  Whether there is an object to free is decided by the entries
and their locks before the call, for `finish_read` if its keys are distinct. -/
theorem l1_raises_iff {s : L1Run K} (h : (l1System K clock).Reachable s) (keys : List K)
    (isTemporary : List Bool) (y : Layout) (mode : WriteMode) :
    ((s.manager.finishRead clock keys).raised.isSome = true ↔
        s.manager.memoryManager.useLazy = false ∧ finishReadFrees clock s.manager keys = []) ∧
      ((s.manager.delete clock keys).raised.isSome = true ↔
        s.manager.memoryManager.useLazy = false ∧ deleteFrees clock s.manager keys = []) ∧
      (s.manager.clear.raised.isSome = true ↔
        s.manager.memoryManager.useLazy = false ∧ s.manager.objects.entries = []) ∧
      (s.manager.reserveWrite clock keys isTemporary y mode).raised = none ∧
      (deleteFrees clock s.manager keys = [] ↔ ¬ SomeFree clock s.manager s.manager.ticks keys) ∧
      (keys.Nodup → (finishReadFrees clock s.manager keys = [] ↔
        ¬ SomeHit (finishReadProbe clock s.manager) s.manager.ticks keys)) := by
  have hu := uniform_reachable h
  refine ⟨?_, ?_, ?_, raised_reserveWrite .., deleteFrees_eq_nil_iff ..,
    finishReadFrees_eq_nil_iff clock s.manager⟩
  · rw [raised_finishRead, free_raises_iff hu]
  · rw [raised_delete, free_raises_iff hu]
  · rw [raised_clear, free_raises_iff hu, map_eq_nil_iff]

/-- The layout of six bytes. -/
def sixBytes : Layout := ⟨[[6]], [⟨"uint8", 1⟩], by decide, rfl⟩

/-- A manager over 64 bytes, with a key that one client has written and another one reads. -/
def oneReader (useLazy : Bool) : L1Run ℕ :=
  ([.reserveWrite 0 [0] [false] sixBytes .all, .finishWrite 0 [0],
    .reserveRead 1 [0]] : List (L1Call ℕ)).foldl (L1Call.run fun _ => 0)
      ⟨.new useLazy (.new 64 4 none) 1 1, []⟩

theorem reachable_oneReader (useLazy : Bool) :
    (l1System ℕ fun _ => 0).Reachable (oneReader useLazy) :=
  LTS.Reachable.foldl (fun _ _ => rfl) _ (.init ⟨useLazy, 64, 2, none, 1, 1, rfl⟩)

/-- The lazy allocator takes an empty batch. -/
theorem lazy_finishRead_returns :
    ((oneReader true).manager.finishRead (fun _ => 0) [0]).raised.isSome = false := by
  rw [← Bool.not_eq_true, (l1_raises_iff (reachable_oneReader true) [0] []
    ⟨[[6]], [⟨"uint8", 1⟩], by decide, rfl⟩ .all).1]
  decide +kernel

/-- With the mixed allocator the reader has given up its lock, gets an exception and no listener is
told; `delete` of a key that is locked and `clear` of an empty manager raise as well. -/
theorem mixed_calls_raise :
    let o := (oneReader false).manager.finishRead (fun _ => 0) [0]
    o.raised = some ⟨.indexError, "list index out of range"⟩ ∧ o.notified = [] ∧
      (o.manager.objects.lookup 0).map (fun e => e.readLock.counter) = some 0 ∧
      ((oneReader false).manager.delete (fun _ => 0) [0]).raised =
        some ⟨.indexError, "list index out of range"⟩ ∧
      (L1Manager.new false (.new 64 4 none) 1 1 : L1Manager ℕ).clear.raised =
        some ⟨.indexError, "list index out of range"⟩ := by
  decide +kernel

end LMCache
