import LMCache.Memory.AddressManager

/-! # Accounting for every range, empty ones included

The allocators above the address manager may ask it for empty ranges, and an empty range
that is freed can leave an empty block anywhere in the free list, which then need not be
gap-sorted.  `Accounts m live` is what survives: the handed out ranges and the free blocks
tile the address space and lie inside it, and their total size is the recorded one.  It
needs no order of the free list, because `_coalesce` only merges a block with neighbours
that start strictly before and strictly after each other (`insertBlock_accounts`). -/

namespace LMCache.AddressManager

open List SortedList Extent

/-- The ranges `live` and the free blocks of `m` tile the address space of `m`. -/
structure Accounts (m : AddressManager) (live : List Extent) : Prop where
  align : ∃ k, m.align = 2 ^ k
  tiles : Tiles (live ++ m.explicitList) m.size
  bound : ∀ b ∈ live ++ m.explicitList, b.stop ≤ m.size
  total : m.totalAllocatedSize = total live

theorem accounts_new (size k : ℕ) : Accounts (new size (2 ^ k)) [] where
  align := ⟨k, rfl⟩
  tiles := by
    intro x
    simp [new, add, ind, stop]
  bound := by simp [new, add, stop]
  total := by simp [new]

variable {m : AddressManager} {live : List Extent} {l : List FreeBlock} {b : FreeBlock}

theorem Accounts.congr {live' : List Extent} (h : Accounts m live)
    (hc : ∀ x, cover live' x = cover live x) (hb : ∀ r ∈ live', r.stop ≤ m.size) :
    Accounts m live' where
  align := h.align
  tiles := fun x => by
    have := h.tiles x
    rw [cover_append] at this ⊢
    rw [hc x, this]
  bound := fun r hr => by
    rcases mem_append.mp hr with hr | hr
    · exact hb r hr
    · exact h.bound r (mem_append_right _ hr)
  total := by rw [h.total, total_eq_of_cover hc]

/-! ### Covers of the list operations -/

theorem cover_add (l : List FreeBlock) (b : FreeBlock) (x : ℕ) :
    cover (add l b) x = b.ind x + cover l x := by
  rw [← cover_cons]
  exact cover_perm (perm_orderedInsert _ b l) x

theorem mem_add {c : FreeBlock} (h : c ∈ add l b) :
    c = b ∨ c ∈ l := mem_orderedInsert _ |>.mp h

theorem cover_replace (c : FreeBlock) (h : b ∈ l) (x : ℕ) :
    cover (l.replace b c) x + b.ind x = cover l x + c.ind x := by
  induction l with
  | nil => simp at h
  | cons d l ih =>
    grind

theorem mem_replace_of_ne {d : FreeBlock} (c : FreeBlock) (h : d ∈ l) (hne : d ≠ b) :
    d ∈ l.replace b c := by
  induction l with
  | nil => simp at h
  | cons e l ih =>
    grind

theorem mem_replace {c d : FreeBlock} (h : d ∈ l.replace b c) : d = c ∨ d ∈ l := by
  induction l with
  | nil => simp at h
  | cons e l ih =>
    grind

theorem cover_erase {r : Extent} (h : r ∈ live) (x : ℕ) :
    r.ind x + cover (live.erase r) x = cover live x := by
  rw [← cover_cons]
  exact (cover_perm (perm_cons_erase h) x).symm

/-! ### Operations -/

theorem allocate_eq_ok {m' : AddressManager} {n a sz : ℕ} (h : m.allocate n = .ok ((a, sz), m')) :
    ∃ block ∈ m.explicitList, sz ≤ block.size ∧ a = block.start ∧ sz = m.computeAlignedSize n ∧
      m' = { m with
        explicitList :=
          if sz < block.size then
            add (remove m.explicitList block)
              ⟨block.start + sz, block.size - sz⟩
          else remove m.explicitList block
        totalAllocatedSize := m.totalAllocatedSize + sz } := by
  unfold allocate at h
  grind

theorem accounts_allocate {m' : AddressManager} {n a sz : ℕ} (h : Accounts m live)
    (ha : m.allocate n = .ok ((a, sz), m')) : Accounts m' (⟨a, sz⟩ :: live) := by
  obtain ⟨block, hmem, hle, rfl, -, rfl⟩ := allocate_eq_ok ha
  have hbound := h.bound block (mem_append_right _ hmem)
  simp only [stop] at hbound
  have hsplit : ∀ x, (Extent.mk block.start sz).ind x +
      (Extent.mk (block.start + sz) (block.size - sz)).ind x = block.ind x := fun x => by
    rw [ind_join, Nat.add_sub_cancel' hle]
  refine ⟨h.align, fun x => ?_, fun b hb => ?_, ?_⟩
  · have hx := h.tiles x
    have he := cover_erase hmem x
    have hs := hsplit x
    simp only [cons_append, cover_cons, cover_append, remove] at hx ⊢
    by_cases hlt : sz < block.size
    · rw [if_pos hlt, cover_add]
      omega
    · have h0 : block.size - sz = 0 := by omega
      rw [h0, ind_size_zero] at hs
      rw [if_neg hlt]
      omega
  · rw [cons_append, mem_cons, mem_append] at hb
    have hrem : ∀ c ∈ remove m.explicitList block, c.stop ≤ m.size := fun c hc =>
      h.bound c (mem_append_right _ (mem_of_mem_erase hc))
    rcases hb with rfl | hb | hb
    · simp only [stop_mk]
      omega
    · exact h.bound b (mem_append_left _ hb)
    · by_cases hlt : sz < block.size
      · rw [if_pos hlt] at hb
        rcases mem_add hb with rfl | hb
        · simp only [stop_mk]
          omega
        · exact hrem b hb
      · grind
  · simp only [total_cons, h.total]
    push_cast
    omega

theorem insertBlock_accounts {prev : Option FreeBlock} (succ : Option FreeBlock)
    (hp : ∀ p ∈ prev, p ∈ l) (hs : ∀ s ∈ succ, s ∈ l)
    (hps : ∀ p ∈ prev, ∀ s ∈ succ, p.start < s.start) :
    (∀ x, cover (insertBlock l b prev succ) x = cover l x + b.ind x) ∧
      ∀ n, (∀ c ∈ l, c.stop ≤ n) → b.stop ≤ n → ∀ c ∈ insertBlock l b prev succ, c.stop ≤ n := by
  unfold insertBlock
  fun_cases coalesce l b prev succ <;> simp only [if_true, Bool.false_eq_true, if_false, remove]
  case case1 p s hs' hp' =>
    obtain ⟨hp1, hp2⟩ := Option.filter_eq_some_iff.mp hp'
    obtain ⟨hs1, hs2⟩ := Option.filter_eq_some_iff.mp hs'
    simp only [canMergeWithPrev, canMergeWithSucc, FreeBlock.canBeCoalesced, beq_iff_eq] at hp2 hs2
    have hlt := hps p hp1 s hs1
    refine ⟨fun x => ?_, fun n hl hb c hc => ?_⟩
    · have hj := ind_add_ind (e := ⟨b.start, b.size + s.size⟩) hp2 x
      have hj' := ind_add_ind hs2 x
      dsimp only at hj
      have hr := cover_replace (Extent.mk p.start (p.size + (b.size + s.size))) (hp p hp1) x
      have hne : s ≠ p := by rintro rfl; omega
      have he := cover_erase (mem_replace_of_ne
        (Extent.mk p.start (p.size + (b.size + s.size))) (hs s hs1) hne) x
      omega
    · rcases mem_replace (mem_of_mem_erase hc) with rfl | hc
      · have := hl s (hs s hs1)
        simp only [stop] at *
        omega
      · exact hl c hc
  case case2 p _ hp' =>
    obtain ⟨hp1, hp2⟩ := Option.filter_eq_some_iff.mp hp'
    simp only [canMergeWithPrev, FreeBlock.canBeCoalesced, beq_iff_eq] at hp2
    refine ⟨fun x => ?_, fun n hl hb c hc => ?_⟩
    · have hr := cover_replace (Extent.mk p.start (p.size + b.size)) (hp p hp1) x
      have hj := ind_add_ind hp2 x
      omega
    · rcases mem_replace hc with rfl | hc
      · simp only [stop] at *
        omega
      · exact hl c hc
  case case3 s hs' _ =>
    obtain ⟨hs1, hs2⟩ := Option.filter_eq_some_iff.mp hs'
    simp only [canMergeWithSucc, FreeBlock.canBeCoalesced, beq_iff_eq] at hs2
    rw [← hs2, Nat.add_sub_cancel, Nat.add_comm s.size]
    refine ⟨fun x => ?_, fun n hl hb c hc => ?_⟩
    · have he := cover_erase (hs s hs1) x
      have hj := ind_add_ind hs2 x
      rw [cover_add]
      omega
    · rcases mem_add hc with rfl | hc
      · have := hl s (hs s hs1)
        simp only [stop] at *
        omega
      · exact hl c (mem_of_mem_erase hc)
  case case4 =>
    refine ⟨fun x => by rw [cover_add]; omega, fun n hl hb c hc => ?_⟩
    rcases mem_add hc with rfl | hc
    · exact hb
    · exact hl c hc

theorem accounts_sbrk (h : Accounts m live) (n : ℕ) : Accounts (m.sbrk n) live := by
  unfold sbrk
  generalize m.computeAlignedSize n = al
  obtain ⟨hcov, hbd⟩ := insertBlock_accounts (l := m.explicitList) (b := ⟨m.size, al⟩)
    none (fun p hp => mem_of_getLast? hp) (by simp) (by simp)
  refine ⟨h.align, fun x => ?_, fun c hc => ?_, h.total⟩
  · have hx := h.tiles x
    rw [cover_append] at hx ⊢
    rw [hcov]
    grind [ind, stop]
  · rcases mem_append.mp hc with hc | hc
    · have := h.bound c (mem_append_left _ hc)
      dsimp only
      omega
    · refine hbd _ (fun d hd => ?_) le_rfl c hc
      exact Nat.le_trans (h.bound d (mem_append_right _ hd)) (Nat.le_add_right _ _)

theorem free_eq (m : AddressManager) (a sz : ℕ) :
    ∃ l₁ l₂, m.explicitList = l₁ ++ l₂ ∧ (∀ c ∈ l₁, c.start < a) ∧
      (∀ c ∈ l₂.head?, a ≤ c.start) ∧
      m.free a sz = { m with
        explicitList := insertBlock m.explicitList ⟨a, sz⟩ l₁.getLast? l₂.head?
        totalAllocatedSize := m.totalAllocatedSize - sz } := by
  obtain ⟨l₁, l₂, hl, hidx, h₁, h₂⟩ := bisectLeft_split m.explicitList ⟨a, sz⟩
  refine ⟨l₁, l₂, hl, h₁, h₂, ?_⟩
  have hprev : (if 0 < l₁.length then m.explicitList[l₁.length - 1]? else none) = l₁.getLast? := by
    grind
  have hsucc : m.explicitList[l₁.length]? = l₂.head? := by
    rw [hl, getElem?_append_right le_rfl, Nat.sub_self, head?_eq_getElem?]
  unfold free
  dsimp only
  rw [hidx, hprev, hsucc]

theorem accounts_free {a sz : ℕ} (h : Accounts m (⟨a, sz⟩ :: live)) :
    Accounts (m.free a sz) live := by
  obtain ⟨l₁, l₂, hl, h₁, h₂, heq⟩ := free_eq m a sz
  obtain ⟨hcov, hbd⟩ := insertBlock_accounts (l := m.explicitList) (b := ⟨a, sz⟩) _
    (fun p hp => hl ▸ mem_append_left _ (mem_of_getLast? hp))
    (fun s hs => hl ▸ mem_append_right _ (mem_of_head? hs))
    (fun p hp s hs => Nat.lt_of_lt_of_le (h₁ p (mem_of_getLast? hp)) (h₂ s hs))
  rw [heq]
  refine ⟨h.align, fun x => ?_, fun c hc => ?_, ?_⟩
  · have hx := h.tiles x
    grind
  · rcases mem_append.mp hc with hc | hc
    · exact h.bound c (mem_cons_of_mem _ (mem_append_left _ hc))
    · refine hbd _ (fun d hd => ?_) (h.bound _ mem_cons_self) c hc
      exact h.bound d (mem_cons_of_mem _ (mem_append_right _ hd))
  · have := h.total
    grind

end LMCache.AddressManager
