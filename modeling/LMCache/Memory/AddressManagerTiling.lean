import LMCache.Lib.Transition
import LMCache.Memory.AddressManagerAccounting

/-! # The address space is tiled in every run

`AddressManager.Inv m live` adds to `Accounts m live` that the free list is gap-sorted and
that everything handed out, as well as the start of every free block, is aligned.  The size itself
need not be aligned: its last, unaligned part can never be handed out, so the block that ends
there is free and `sbrk` always extends it (`exists_tail_block`).

`system` runs the manager together with the list of the ranges that are still allocated;
a range may be given back whole or in aligned pieces.  `addressManager_tiling` states what
holds after every run. -/

namespace LMCache.AddressManager

open List SortedList Extent

/-! ### Alignment -/

theorem ldiff_two_pow_sub_one (n k : ℕ) : Nat.ldiff n (2 ^ k - 1) = n / 2 ^ k * 2 ^ k := by
  apply Nat.eq_of_testBit_eq
  intro i
  rw [Nat.testBit_ldiff, Nat.testBit_two_pow_sub_one, Nat.testBit_mul_two_pow,
    Nat.testBit_div_two_pow]
  grind

variable {m : AddressManager} {live : List Extent}

theorem computeAlignedSize_eq {k : ℕ} (hk : m.align = 2 ^ k) (n : ℕ) :
    m.computeAlignedSize n = (n + 2 ^ k - 1) / 2 ^ k * 2 ^ k := by
  have hpow : 0 < 2 ^ k := Nat.two_pow_pos k
  have e1 : ((n : ℤ) + m.align - 1) = ((n + 2 ^ k - 1 : ℕ) : ℤ) := by rw [hk]; omega
  have e2 : ((m.align : ℤ) - 1) = ((2 ^ k - 1 : ℕ) : ℤ) := by rw [hk]; omega
  unfold computeAlignedSize
  rw [e1, e2]
  show (Nat.ldiff (n + 2 ^ k - 1) (2 ^ k - 1) : ℤ).toNat = _
  rw [ldiff_two_pow_sub_one, Int.toNat_natCast]

section aligned
variable {m : AddressManager} (h : ∃ k, m.align = 2 ^ k) (n : ℕ)
include h

theorem align_dvd_computeAlignedSize : m.align ∣ m.computeAlignedSize n := by
  obtain ⟨k, hk⟩ := h
  rw [computeAlignedSize_eq hk, hk]
  exact Nat.dvd_mul_left _ _

theorem le_computeAlignedSize : n ≤ m.computeAlignedSize n := by
  obtain ⟨k, hk⟩ := h
  rw [computeAlignedSize_eq hk]
  have h1 := Nat.div_add_mod (n + 2 ^ k - 1) (2 ^ k)
  rw [Nat.mul_comm] at h1
  omega

theorem computeAlignedSize_of_dvd (hd : m.align ∣ n) : m.computeAlignedSize n = n := by
  obtain ⟨k, hk⟩ := h
  rw [computeAlignedSize_eq hk]
  rw [hk] at hd
  obtain ⟨q, rfl⟩ := hd
  have hpow : 0 < 2 ^ k := Nat.two_pow_pos k
  rw [Nat.add_sub_assoc hpow, Nat.mul_add_div hpow, Nat.div_eq_of_lt (by omega), Nat.add_zero,
    Nat.mul_comm]

end aligned

/-! ### The invariant -/

/-- The manager and the non-empty, aligned ranges `live` it has handed out. -/
structure Inv (m : AddressManager) (live : List Extent) : Prop extends Accounts m live where
  gap : GapSorted m.explicitList
  pos : ∀ b ∈ m.explicitList, 0 < b.size
  start : ∀ b ∈ m.explicitList, m.align ∣ b.start
  handed : ∀ r ∈ live, 0 < r.size ∧ m.align ∣ r.start ∧ m.align ∣ r.size

theorem inv_new {size k : ℕ} (hs : 0 < size) : Inv (new size (2 ^ k)) [] where
  toAccounts := accounts_new size k
  gap := by simp [new, add, GapSorted]
  pos := by simpa [new, add] using hs
  start := by simp [new, add]
  handed := by simp

theorem Inv.congr {live' : List Extent} (h : Inv m live) (hc : ∀ x, cover live' x = cover live x)
    (hl : ∀ r ∈ live', 0 < r.size ∧ m.align ∣ r.start ∧ m.align ∣ r.size) : Inv m live' := by
  have htiles : Tiles (live' ++ m.explicitList) m.size := fun x => by
    rw [cover_append, hc x, ← cover_append, h.tiles x]
  exact { h with
    toAccounts := h.toAccounts.congr hc fun r hr =>
      htiles.stop_le (mem_append_left _ hr) (hl r hr).1
    handed := hl }

/-- What taking the extent `b` out of the free list `l` leaves. -/
structure Removed (l : List FreeBlock) (b : FreeBlock) (l' : List FreeBlock) : Prop where
  gap : GapSorted l'
  mem : ∀ c ∈ l', c ∈ l ∨ c.start = b.stop ∧ 0 < c.size

theorem allocate_removed {l : List FreeBlock} {block : FreeBlock} {al : ℕ} (hg : GapSorted l)
    (hmem : block ∈ l) (hle : al ≤ block.size) :
    Removed l ⟨block.start, al⟩ (if al < block.size then
        add (remove l block) ⟨block.start + al, block.size - al⟩
      else remove l block) := by
  obtain ⟨l₁, l₂, rfl⟩ := append_of_mem hmem
  obtain ⟨hg', hb₁, hb₂⟩ := gapSorted_middle.mp hg
  rw [remove_middle (not_mem_of_stop_le hb₁)]
  by_cases hlt : al < block.size
  · have h₁ : ∀ c ∈ l₁, c.stop < block.start + al := fun c hc => by
      have := hb₁ c hc
      omega
    have h₂ : ∀ c ∈ l₂, block.start + al + (block.size - al) < c.start := fun c hc => by
      have := hb₂ c hc
      simp only [stop] at this
      omega
    rw [if_pos hlt, add_middle (fun c hc => ?_) (fun c hc => ?_)]
    · refine ⟨gapSorted_middle.mpr ⟨hg', h₁, h₂⟩, fun c hc => ?_⟩
      grind
    · have := h₁ c hc
      simp only [stop] at *
      omega
    · grind
  · have heq : al = block.size := by omega
    rw [if_neg hlt, heq]
    refine ⟨hg', fun c hc => Or.inl ?_⟩
    grind

theorem inv_allocate {m' : AddressManager} {n a sz : ℕ} (h : Inv m live) (hn : 0 < n)
    (ha : m.allocate n = .ok ((a, sz), m')) : Inv m' (⟨a, sz⟩ :: live) := by
  have hacc := accounts_allocate h.toAccounts ha
  have hle := le_computeAlignedSize h.align n
  have hdvd := align_dvd_computeAlignedSize h.align n
  obtain ⟨block, hmem, hsz, rfl, hsz', rfl⟩ := allocate_eq_ok ha
  rw [← hsz'] at hle hdvd
  have hrem := allocate_removed h.gap hmem hsz
  have hstart := h.start block hmem
  refine { toAccounts := hacc, gap := hrem.gap, pos := fun c hc => ?_, start := fun c hc => ?_,
           handed := fun r hr => ?_ }
  · rcases hrem.mem c hc with hc | hc
    · exact h.pos c hc
    · exact hc.2
  · rcases hrem.mem c hc with hc | hc
    · exact h.start c hc
    · exact hc.1 ▸ Nat.dvd_add hstart hdvd
  · rcases mem_cons.mp hr with rfl | hr
    · exact ⟨Nat.lt_of_lt_of_le hn hle, hstart, hdvd⟩
    · exact h.handed r hr

theorem exists_tail_block (h : Inv m live) (hd : ¬ m.align ∣ m.size) :
    0 < cover m.explicitList (m.size - 1) ∧ 0 < m.size := by
  have hs : 0 < m.size := by
    rcases Nat.eq_zero_or_pos m.size with h0 | h0
    · exact absurd (h0 ▸ Nat.dvd_zero m.align) hd
    · exact h0
  refine ⟨?_, hs⟩
  by_contra hc
  have h1 := h.tiles (m.size - 1)
  rw [cover_append, if_pos (by omega)] at h1
  obtain ⟨r, hr, hr1, hr2⟩ := exists_of_cover_pos (l := live) (x := m.size - 1) (by omega)
  obtain ⟨p, hd1, hd2⟩ := h.handed r hr
  have hle := h.tiles.stop_le (mem_append_left _ hr) p
  have : m.size = r.start + r.size := by simp only [stop] at *; omega
  exact hd (this ▸ Nat.dvd_add hd1 hd2)

theorem inv_sbrk (h : Inv m live) {n : ℕ} (hn : 0 < n) : Inv (m.sbrk n) live := by
  have hsz := le_computeAlignedSize h.align n
  have hacc := accounts_sbrk h.toAccounts n
  unfold sbrk at hacc ⊢
  generalize m.computeAlignedSize n = al at *
  have hstop : ∀ c ∈ m.explicitList, c.stop ≤ m.size := fun c hc =>
    h.tiles.stop_le (mem_append_right _ hc) (h.pos c hc)
  have hins : Inserted (m.explicitList ++ []) ⟨m.size, al⟩
      (insertBlock (m.explicitList ++ []) ⟨m.size, al⟩ m.explicitList.getLast? [].head?) :=
    insertBlock_inserted (by simpa using h.gap) (by simpa using h.pos) (by show 0 < al; omega)
      hstop (by simp)
  rw [append_nil, head?_nil] at hins
  dsimp only at hacc ⊢
  generalize insertBlock m.explicitList ⟨m.size, al⟩ m.explicitList.getLast? none = l' at *
  refine { toAccounts := hacc, gap := hins.gap, pos := hins.pos, start := fun c hc => ?_,
           handed := h.handed }
  rcases hins.start c hc with hcs | ⟨d, hd, hcs⟩
  · -- a block that starts at the old size was not merged, so the old size is aligned
    by_contra hna
    have hcs : c.start = m.size := hcs
    obtain ⟨hcov, hs⟩ := exists_tail_block h (hcs ▸ hna)
    obtain ⟨t, ht, ht1, ht2⟩ := exists_of_cover_pos (l := l') (x := m.size - 1) (by
      rw [hins.cover]; omega)
    have := hins.gap.stop_lt ht hc (by omega)
    omega
  · exact hcs ▸ h.start d hd

theorem inv_free {a sz : ℕ} (h : Inv m (⟨a, sz⟩ :: live)) : Inv (m.free a sz) live := by
  have hacc := accounts_free h.toAccounts
  obtain ⟨hpos, hda, -⟩ := h.handed _ mem_cons_self
  obtain ⟨l₁, l₂, hl, h₁, h₂, heq⟩ := free_eq m a sz
  have hsep : ∀ c ∈ m.explicitList, a + sz ≤ c.start ∨ c.stop ≤ a := fun c hc => by
    have := h.tiles.disjoint mem_cons_self hc hpos (h.pos c hc)
    simpa using this
  have hgap := h.gap
  have hpos' := h.pos
  rw [hl] at hgap hpos' hsep
  have hins : Inserted (l₁ ++ l₂) ⟨a, sz⟩
      (insertBlock (l₁ ++ l₂) ⟨a, sz⟩ l₁.getLast? l₂.head?) := by
    refine insertBlock_inserted hgap hpos' hpos (fun c hc => ?_) (fun c hc => ?_)
    · grind
    · have hac : a ≤ c.start := by
        cases l₂ with
        | nil => simp at hc
        | cons d l₂ =>
          have hd := h₂ d rfl
          rcases mem_cons.mp hc with rfl | hc
          · exact hd
          · have := (gapSorted_cons.mp (gapSorted_append.mp hgap).2.1).1 c hc
            simp only [stop] at *
            omega
      have := hsep c (mem_append_right _ hc)
      have := hpos' c (mem_append_right _ hc)
      simp only [stop] at *
      omega
  rw [← hl] at hins
  rw [heq] at hacc ⊢
  refine { toAccounts := hacc, gap := hins.gap, pos := hins.pos, start := fun c hc => ?_,
           handed := fun r hr => h.handed r (mem_cons_of_mem _ hr) }
  rcases hins.start c hc with hcs | ⟨d, hd, hcs⟩
  · exact hcs ▸ hda
  · exact hcs ▸ h.start d hd

theorem any_canBeCoalesced_eq_false : ∀ {l : List FreeBlock}, GapSorted l →
    ((l.dropLast.zip l.tail).any fun p => p.1.canBeCoalesced p.2) = false
  | [], _ => rfl
  | [_], _ => rfl
  | a :: b :: l, h => by
    obtain ⟨hab, hl⟩ := gapSorted_cons.mp h
    have hlt := hab b mem_cons_self
    rw [dropLast_cons_cons, tail_cons, zip_cons_cons, any_cons, Bool.or_eq_false_iff]
    refine ⟨?_, any_canBeCoalesced_eq_false hl⟩
    simp only [stop] at hlt
    simp only [FreeBlock.canBeCoalesced, beq_eq_false_iff_ne]
    omega

theorem checkConsistency_of_inv (h : Inv m live) : m.checkConsistency = true := by
  have htot := h.tiles.total
  rw [total_append] at htot
  unfold checkConsistency
  rw [any_canBeCoalesced_eq_false h.gap, h.total]
  simp only [Bool.false_eq_true, if_false, beq_iff_eq]
  rw [← htot]
  unfold total
  push_cast
  omega

/-! ### Runs -/

inductive Call where
  | allocate (size : ℕ)
  | sbrk (size : ℕ)
  | free (address size : ℕ)
deriving DecidableEq, Repr

/-- The non-empty parts of `r` before and after its part `p`. -/
def remaining (r p : Extent) : List Extent :=
  [⟨r.start, p.start - r.start⟩, ⟨p.stop, r.stop - p.stop⟩].filter fun e => 0 < e.size

/-- One call on the manager, with the list of the ranges that are still allocated.  A
failed `allocate` changes nothing; `free` is called on an allocated range, or on an aligned
piece of one. -/
inductive Step : AddressManager × List Extent → Call → AddressManager × List Extent → Prop
  | allocate {m m' : AddressManager} {live : List Extent} {n a sz : ℕ} :
      0 < n → m.allocate n = .ok ((a, sz), m') → Step (m, live) (.allocate n) (m', ⟨a, sz⟩ :: live)
  | allocateFails {m : AddressManager} {live : List Extent} {n : ℕ} {e : PyError} :
      0 < n → m.allocate n = .error e → Step (m, live) (.allocate n) (m, live)
  | sbrk {m : AddressManager} {live : List Extent} {n : ℕ} :
      0 < n → Step (m, live) (.sbrk n) (m.sbrk n, live)
  | free {m : AddressManager} {live : List Extent} {r : Extent} :
      r ∈ live → Step (m, live) (.free r.start r.size) (m.free r.start r.size, live.erase r)
  | freePiece {m : AddressManager} {live : List Extent} {r p : Extent} :
      r ∈ live → 0 < p.size → m.align ∣ p.start → m.align ∣ p.size →
      r.start ≤ p.start → p.stop ≤ r.stop →
      Step (m, live) (.free p.start p.size)
        (m.free p.start p.size, remaining r p ++ live.erase r)

/-- A manager of any positive size and any power-of-two alignment, with its runs. -/
def system : LTS (AddressManager × List Extent) Call where
  init s := ∃ size k, 0 < size ∧ s = (new size (2 ^ k), [])
  step := Step

theorem cover_remaining {r p : Extent} (h₁ : r.start ≤ p.start) (h₂ : p.stop ≤ r.stop) (x : ℕ) :
    cover (remaining r p) x + p.ind x = r.ind x := by
  have hfilter : ∀ l : List Extent, cover (l.filter fun e => 0 < e.size) x = cover l x := by
    intro l
    induction l with
    | nil => rfl
    | cons e l ih =>
      by_cases he : 0 < e.size
      · simp [he, ih]
      · have h0 : e.ind x = 0 := ind_eq_zero_iff.mpr (by simp only [stop]; omega)
        simp [he, ih, h0]
  unfold remaining
  rw [hfilter]
  simp only [cover_cons, cover_nil]
  grind [ind, stop]

theorem inv_freePiece {r p : Extent} (h : Inv m live) (hr : r ∈ live) (hp : 0 < p.size)
    (hd₁ : m.align ∣ p.start) (hd₂ : m.align ∣ p.size) (h₁ : r.start ≤ p.start)
    (h₂ : p.stop ≤ r.stop) : Inv (m.free p.start p.size) (remaining r p ++ live.erase r) := by
  obtain ⟨-, hr₁, hr₂⟩ := h.handed r hr
  have hr₃ : m.align ∣ r.stop := Nat.dvd_add hr₁ hr₂
  have hd₃ : m.align ∣ p.stop := Nat.dvd_add hd₁ hd₂
  apply inv_free
  refine h.congr (fun x => ?_) (fun e he => ?_)
  · have e1 := cover_remaining h₁ h₂ x
    have e2 := cover_erase hr x
    show p.ind x + cover (remaining r p ++ live.erase r) x = _
    rw [cover_append]
    omega
  · rcases mem_cons.mp he with rfl | he
    · exact ⟨hp, hd₁, hd₂⟩
    · rcases mem_append.mp he with he | he
      · simp only [remaining, mem_filter, mem_cons, not_mem_nil, or_false,
          decide_eq_true_eq] at he
        obtain ⟨rfl | rfl, hpos⟩ := he
        · exact ⟨hpos, hr₁, Nat.dvd_sub hd₁ hr₁⟩
        · exact ⟨hpos, hd₃, Nat.dvd_sub hr₃ hd₃⟩
      · exact h.handed e (mem_of_mem_erase he)

theorem inv_step {s s' : AddressManager × List Extent} {c : Call} (h : Inv s.1 s.2)
    (hs : Step s c s') : Inv s'.1 s'.2 := by
  cases hs with
  | allocate hn ha => exact inv_allocate h hn ha
  | allocateFails hn ha => exact h
  | sbrk hn => exact inv_sbrk h hn
  | @free m live r hr =>
    refine inv_free (h.congr (fun x => cover_erase hr x) fun e he => ?_)
    rcases mem_cons.mp he with rfl | he
    · exact h.handed _ hr
    · exact h.handed e (mem_of_mem_erase he)
  | freePiece hr hp hd₁ hd₂ h₁ h₂ => exact inv_freePiece h hr hp hd₁ hd₂ h₁ h₂

theorem inv_inductive : system.Inductive fun s => Inv s.1 s.2 where
  init := by
    rintro s ⟨size, k, hs, rfl⟩
    exact inv_new hs
  step := fun _ _ _ h hs => inv_step h hs

theorem inv_reachable (h : system.Reachable (m, live)) :
    Inv m live := inv_inductive.reachable h

/-- **Tiling invariant.**  After every run the ranges that are still allocated and the free
blocks partition `[0, size)`; the free list is sorted and none of its blocks can be merged;
the total allocated size is that of the allocated ranges, so that `check_consistency` holds;
and the next successful `allocate` returns an aligned address. -/
theorem addressManager_tiling {m : AddressManager} {live : List Extent}
    (h : system.Reachable (m, live)) :
    Tiles (live ++ m.explicitList) m.size ∧
    m.explicitList.Pairwise (fun a b => a.start < b.start) ∧
    m.explicitList.Pairwise (fun a b => a.canBeCoalesced b = false ∧ b.canBeCoalesced a = false) ∧
    m.totalAllocatedSize = total live ∧
    m.checkConsistency = true ∧
    ∀ n a sz m', 0 < n → m.allocate n = .ok ((a, sz), m') → m.align ∣ a := by
  have hi := inv_reachable h
  refine ⟨hi.tiles, hi.gap.imp fun {a b} hab => ?_, ?_, hi.total, checkConsistency_of_inv hi, ?_⟩
  · simp only [stop] at hab
    omega
  · refine List.Pairwise.imp_of_mem (fun {a b} ha hb hab => ?_) hi.gap
    simp only [FreeBlock.canBeCoalesced, beq_eq_false_iff_ne, stop] at *
    omega
  · intro n a sz m' hn ha
    obtain ⟨block, -, -, -, -, rfl⟩ := allocate_eq_ok ha
    exact ((inv_allocate hi hn ha).handed _ mem_cons_self).2.1

/-- A heap of 10 bytes aligned to 4: 5 bytes are allocated and the second half is freed. -/
theorem addressManager_tiling_partial_free :
    system.Reachable (⟨10, 4, [⟨4, 6⟩], 4⟩, [⟨0, 4⟩]) ∧
      Tiles [⟨0, 4⟩, ⟨4, 6⟩] 10 := by
  have h₀ : system.Reachable (new 10 4, []) := .init ⟨10, 2, by decide, rfl⟩
  have h₁ : system.Reachable (⟨10, 4, [⟨8, 2⟩], 8⟩, [⟨0, 8⟩]) :=
    h₀.step (.allocate (n := 5) (by decide) (by decide +kernel))
  have h₂ : system.Reachable (⟨10, 4, [⟨4, 6⟩], 4⟩, [⟨0, 4⟩]) :=
    h₁.step (.freePiece (r := ⟨0, 8⟩) (p := ⟨4, 4⟩) (by decide) (by decide) (by decide) (by decide)
      (by decide) (by decide))
  exact ⟨h₂, (addressManager_tiling h₂).1⟩

end LMCache.AddressManager
