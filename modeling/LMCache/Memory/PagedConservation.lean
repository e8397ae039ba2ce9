import LMCache.Lib.Transition
import LMCache.Memory.PagedTensorMemoryAllocator

/-! # Conservation of pages

`system` runs a paged allocator through allocations, batches (failing ones included) and
counter updates; next to the pool its state lists the pages that are handed out, one entry
for each time a page was handed out and not given back.

A page that has been given back is still a valid object.  A `ref_count_down` or `unpin` that
finds no reference and no pin left on it, which the object tolerates by clamping its
counter, therefore puts it into `free_blocks` a second time (`paged_page_shared`).
`Redundant` names these calls.  `paged_conservation` shows that they are the only ones: as
long as none is made, every page is either free or handed out, and a single one breaks
this at once. -/

namespace LMCache.PagedTensorMemoryAllocator

open List Pool

/-! ### The invariant -/

/-- The free pages and the pages `out` are all the pages, each one once. -/
structure Inv (p : Pool PagedTensorMemoryAllocator) (out : List ℕ) : Prop where
  valid : ∀ o ∈ p.objs, o.valid = true
  address : ∀ (i : ℕ) (o : TensorMemoryObj), p.objs[i]? = some o → o.metadata.address = i
  pages : (p.allocator.freeBlocks ++ out).Perm (List.range p.objs.length)

/-- The statistics of an allocator with `n` pages handed out. -/
structure Counts (a : PagedTensorMemoryAllocator) (n : ℕ) : Prop where
  active : a.numActiveAllocations = n
  total : a.totalAllocatedSize = a.alignBytes * n

def SameCounts (p q : Pool PagedTensorMemoryAllocator) : Prop :=
  q.allocator.alignBytes = p.allocator.alignBytes ∧
    q.allocator.numActiveAllocations = p.allocator.numActiveAllocations ∧
    q.allocator.totalAllocatedSize = p.allocator.totalAllocatedSize

variable {p : Pool PagedTensorMemoryAllocator} {i : ℕ} {o : TensorMemoryObj}

theorem SameCounts.trans {q r : Pool PagedTensorMemoryAllocator} (h₁ : SameCounts p q)
    (h₂ : SameCounts q r) : SameCounts p r :=
  ⟨h₂.1.trans h₁.1, h₂.2.1.trans h₁.2.1, h₂.2.2.trans h₁.2.2⟩

theorem SameCounts.counts {q : Pool PagedTensorMemoryAllocator} {n : ℕ} (h : SameCounts p q)
    (hc : Counts p.allocator n) : Counts q.allocator n :=
  ⟨h.2.1.trans hc.active, by rw [h.2.2, hc.total, h.1]⟩

section steps
variable {p q : Pool PagedTensorMemoryAllocator} {out : List ℕ} {i n : ℕ} {fmt : MemoryFormat}

theorem inv_new {bufferSize : ℕ} {y : Layout} (h : new bufferSize y fmt = .ok p) :
    Inv p [] ∧ Counts p.allocator 0 := by
  unfold new at h
  dsimp only at h
  split_ifs at h
  cases h
  refine ⟨⟨fun o ho => ?_, fun i o ho => ?_, ?_⟩, rfl, by simp⟩
  · obtain ⟨j, hj⟩ := mem_iff_getElem?.mp ho
    rw [getElem?_mapIdx] at hj
    obtain ⟨e, -, rfl⟩ := Option.map_eq_some_iff.mp hj
    rfl
  · rw [getElem?_mapIdx] at ho
    obtain ⟨e, -, rfl⟩ := Option.map_eq_some_iff.mp ho
    rfl
  · simp

theorem Inv.perm {out' : List ℕ} (h : Inv p out) (hp : out.Perm out') : Inv p out' :=
  ⟨h.valid, h.address, (hp.append_left _).symm.trans h.pages⟩

theorem Inv.modify {f : TensorMemoryObj → TensorMemoryObj} (h : Inv p out) (i : ℕ)
    (hv : ∀ o, (f o).valid = o.valid) (ha : ∀ o, (f o).metadata.address = o.metadata.address) :
    Inv (p.modify i f) out := by
  have hobj : ∀ (j : ℕ) (o : TensorMemoryObj), (p.modify i f).objs[j]? = some o →
      o.valid = true ∧ o.metadata.address = j := by
    intro j o hj
    rw [Pool.modify, getElem?_modify] at hj
    obtain ⟨o', ho', rfl⟩ := Option.map_eq_some_iff.mp hj
    have hold := And.intro (h.valid o' (mem_of_getElem? ho')) (h.address j o' ho')
    split_ifs
    · rwa [hv, ha]
    · exact hold
  refine ⟨fun o ho => ?_, fun j o hj => (hobj j o hj).2, ?_⟩
  · obtain ⟨j, hj⟩ := mem_iff_getElem?.mp ho
    exact (hobj j o hj).1
  · rw [Pool.modify, length_modify]
    exact h.pages

theorem restore_same (a : PagedTensorMemoryAllocator) (o : TensorMemoryObj) :
    (a.restore o).valid = o.valid ∧ (a.restore o).metadata.address = o.metadata.address := by
  unfold restore
  split_ifs <;> exact ⟨rfl, rfl⟩

theorem inv_popBlock {y : Layout} (h : Inv p out) (hp : popBlock p y fmt = some (i, q)) :
    Inv q (i :: out) ∧ SameCounts p q := by
  unfold popBlock at hp
  cases hf : p.allocator.freeBlocks with
  | nil => simp [hf] at hp
  | cons j rest =>
    simp only [hf, Option.some.injEq, Prod.mk.injEq] at hp
    obtain ⟨rfl, rfl⟩ := hp
    have hm := h.modify j (f := p.allocator.prepare y fmt) (fun _ => rfl) (fun _ => rfl)
    refine ⟨⟨hm.valid, hm.address, ?_⟩, rfl, rfl, rfl⟩
    have hpages := hm.pages
    rw [show (p.modify j _).allocator.freeBlocks = j :: rest from hf] at hpages
    exact perm_middle.trans hpages

theorem inv_pushBlock (h : Inv p (i :: out)) : Inv (pushBlock p i) out ∧
    SameCounts p (pushBlock p i) := by
  have hm := h.modify i (f := p.allocator.restore) (fun o => (restore_same _ o).1)
    (fun o => (restore_same _ o).2)
  refine ⟨⟨hm.valid, hm.address, ?_⟩, rfl, rfl, rfl⟩
  show (p.allocator.freeBlocks ++ [i] ++ out).Perm _
  rw [append_assoc]
  exact hm.pages

theorem Inv.lookup (h : Inv p (i :: out)) : ∃ o, p.objs[i]? = some o ∧ o.valid = true := by
  have hlt : i < p.objs.length :=
    mem_range.mp (h.pages.mem_iff.mp (mem_append_right _ mem_cons_self))
  exact ⟨_, getElem?_eq_getElem hlt, h.valid _ (getElem_mem hlt)⟩

theorem inv_pushBlocks (is : List ℕ) (h : Inv p (is ++ out)) :
    Inv (pushBlocks p is) out ∧ SameCounts p (pushBlocks p is) := by
  induction is generalizing p with
  | nil => exact ⟨h, rfl, rfl, rfl⟩
  | cons i is ih =>
    obtain ⟨o, ho, hv⟩ := h.lookup
    obtain ⟨hpush, hsame⟩ := inv_pushBlock h
    obtain ⟨hinv, hsame'⟩ := ih hpush
    simp only [pushBlocks, ho, hv, if_true]
    exact ⟨hinv, hsame.trans hsame'⟩

theorem inv_popBlocks {y : Layout} {b : Bool} {acc acc' : List ℕ} (h : Inv p (acc ++ out))
    (hp : popBlocks y fmt n acc p = (b, acc', q)) :
    Inv q (acc' ++ out) ∧ SameCounts p q ∧ (b = true → acc'.length = acc.length + n) := by
  fun_induction popBlocks y fmt n acc p
  case case1 =>
    cases hp
    exact ⟨h, ⟨rfl, rfl, rfl⟩, fun _ => rfl⟩
  case case2 =>
    cases hp
    exact ⟨h, ⟨rfl, rfl, rfl⟩, nofun⟩
  case case3 n acc p j p' hpop ih =>
    obtain ⟨hinv, hsame⟩ := inv_popBlock h hpop
    have hperm : (j :: (acc ++ out)).Perm (acc ++ [j] ++ out) := by
      grind
    obtain ⟨hinv', hsame', hlen⟩ := ih (hinv.perm hperm) hp
    refine ⟨hinv', hsame.trans hsame', fun hb => ?_⟩
    grind

theorem inv_allocate (h : Inv p out) (hc : Counts p.allocator out.length) (y : Layout)
    (fmt : MemoryFormat) :
    Inv (allocate p y fmt).2 ((allocate p y fmt).1.toList ++ out) ∧
      Counts (allocate p y fmt).2.allocator ((allocate p y fmt).1.toList ++ out).length := by
  fun_cases allocate
  case case1 => exact ⟨h, hc⟩
  case case2 i q hpop =>
    obtain ⟨hinv, hsame⟩ := inv_popBlock h hpop
    have hq := hsame.counts hc
    refine ⟨{ hinv with }, ?_, ?_⟩
    · show q.allocator.numActiveAllocations + 1 = ((out.length + 1 : ℕ) : ℤ)
      rw [hq.active]
      push_cast
      rfl
    · show q.allocator.totalAllocatedSize + q.allocator.alignBytes =
        q.allocator.alignBytes * ((out.length + 1 : ℕ) : ℤ)
      rw [hq.total]
      push_cast
      ring

theorem inv_batchedAllocate (h : Inv p out) (hc : Counts p.allocator out.length) (y : Layout)
    (batchSize : ℕ) (fmt : MemoryFormat) :
    let r := batchedAllocate p y batchSize fmt
    Inv r.2 (r.1.getD [] ++ out) ∧ Counts r.2.allocator (r.1.getD [] ++ out).length := by
  unfold batchedAllocate
  cases hpop : popBlocks y fmt batchSize [] p with
  | mk b r =>
    obtain ⟨acc, q⟩ := r
    obtain ⟨hinv, hsame, hlen⟩ := inv_popBlocks (show Inv _ ([] ++ out) from h) hpop
    cases b with
    | false =>
      obtain ⟨hinv', hsame'⟩ := inv_pushBlocks acc hinv
      exact ⟨hinv', (hsame.trans hsame').counts hc⟩
    | true =>
      have hq := hsame.counts hc
      have hacc := hlen rfl
      refine ⟨{ hinv with }, ?_, ?_⟩
      · show q.allocator.numActiveAllocations + batchSize = ((acc ++ out).length : ℤ)
        rw [hq.active, length_append, hacc]
        grind
      · show (q.allocator.numActiveAllocations + batchSize) * (q.allocator.alignBytes : ℤ) =
          q.allocator.alignBytes * ((acc ++ out).length : ℤ)
        rw [hq.active, length_append, hacc]
        grind

theorem free_of_valid {o : TensorMemoryObj} (ho : p.objs[i]? = some o) (hv : o.valid = true) :
    (free p i).allocator.freeBlocks = p.allocator.freeBlocks ++ [i] ∧
      (free p i).returned = p.returned ++ [i] := by
  unfold free
  rw [ho]
  dsimp only
  rw [if_pos hv]
  exact ⟨rfl, rfl⟩

theorem inv_free (h : Inv p (i :: out)) (hc : Counts p.allocator (out.length + 1)) :
    Inv (free p i) out ∧ Counts (free p i).allocator out.length := by
  obtain ⟨hinv, hsame⟩ := inv_pushBlock h
  obtain ⟨o, ho, hv⟩ := h.lookup
  have hq := hsame.counts hc
  unfold free
  rw [ho]
  dsimp only
  rw [if_pos hv]
  refine ⟨{ hinv with }, ?_, ?_⟩
  · dsimp only
    rw [hq.active]
    push_cast
    omega
  · dsimp only
    rw [hq.total]
    push_cast
    ring

end steps

/-! ### Runs -/

abbrev State := Pool PagedTensorMemoryAllocator × List ℕ

/-- A call on the allocator or on an object it has handed out. -/
inductive Call where
  | allocate (y : Layout) (fmt : MemoryFormat)
  | batchedAllocate (y : Layout) (batchSize : ℕ) (fmt : MemoryFormat)
  | refCountUp (i : ℕ)
  | refCountDown (i : ℕ)
  | pin (i : ℕ)
  | unpin (i : ℕ)
deriving DecidableEq, Repr

/-- The pages given back on the way to the pool `p` are no longer handed out. -/
def settle (s : State) (p : Pool PagedTensorMemoryAllocator) : State :=
  (p, s.2.diff (p.returned.drop s.1.returned.length))

def Call.run (s : State) : Call → State
  | allocate y fmt =>
    let r := PagedTensorMemoryAllocator.allocate s.1 y fmt
    (r.2, r.1.toList ++ s.2)
  | batchedAllocate y batchSize fmt =>
    let r := PagedTensorMemoryAllocator.batchedAllocate s.1 y batchSize fmt
    (r.2, r.1.getD [] ++ s.2)
  | refCountUp i => settle s (s.1.refCountUp i)
  | refCountDown i => settle s (Pool.refCountDown free s.1 i)
  | pin i => settle s (s.1.pin i)
  | unpin i => settle s (Pool.unpin free s.1 i)

def Call.Allowed (s : State) : Call → Prop
  | allocate _ _ | batchedAllocate _ _ _ => True
  | refCountUp i | refCountDown i | pin i | unpin i => i < s.1.objs.length

instance (s : State) : (c : Call) → Decidable (c.Allowed s)
  | .allocate _ _ | .batchedAllocate _ _ _ => inferInstanceAs (Decidable True)
  | .refCountUp i | .refCountDown i | .pin i | .unpin i =>
    inferInstanceAs (Decidable (i < s.1.objs.length))

/-- The call finds neither a reference nor a pin left on a page that is already free. -/
def Call.Redundant (s : State) : Call → Prop
  | refCountDown i => i ∈ s.1.allocator.freeBlocks ∧ ∃ o ∈ s.1.objs[i]?,
      o.metadata.refCount ≤ 1 ∧ o.metadata.pinCount = 0
  | unpin i => i ∈ s.1.allocator.freeBlocks ∧ ∃ o ∈ s.1.objs[i]?,
      o.metadata.pinCount ≤ 1 ∧ o.metadata.refCount ≤ 0
  | allocate _ _ | batchedAllocate _ _ _ | refCountUp _ | pin _ => False

instance (s : State) : (c : Call) → Decidable (c.Redundant s)
  | .refCountDown i => inferInstanceAs (Decidable (i ∈ s.1.allocator.freeBlocks ∧
      ∃ o ∈ s.1.objs[i]?, o.metadata.refCount ≤ 1 ∧ o.metadata.pinCount = 0))
  | .unpin i => inferInstanceAs (Decidable (i ∈ s.1.allocator.freeBlocks ∧
      ∃ o ∈ s.1.objs[i]?, o.metadata.pinCount ≤ 1 ∧ o.metadata.refCount ≤ 0))
  | .allocate _ _ | .batchedAllocate _ _ _ | .refCountUp _ | .pin _ =>
    inferInstanceAs (Decidable False)

/-- A paged allocator over any buffer, with nothing handed out at first. -/
def system : LTS State Call where
  init s := ∃ bufferSize y fmt, new bufferSize y fmt = .ok s.1 ∧ s.2 = []
  step s c s' := c.Allowed s ∧ s' = c.run s

/-- Every page is either free or handed out, no page is twice in the free blocks or handed
out twice, different objects have different pages, and the total allocated size is that of
the pages that are handed out. -/
def Conserved (s : State) : Prop :=
  (∀ i < s.1.objs.length, i ∈ s.1.allocator.freeBlocks ↔ i ∉ s.2) ∧
  s.1.allocator.freeBlocks.Nodup ∧ s.2.Nodup ∧
  (∀ (i : ℕ) (o : TensorMemoryObj), s.1.objs[i]? = some o → o.metadata.address = i) ∧
  s.1.allocator.totalAllocatedSize = s.1.allocator.alignBytes * s.2.length

def Good (s : State) : Prop := Inv s.1 s.2 ∧ Counts s.1.allocator s.2.length

variable {s : State}

theorem Good.conserved (h : Good s) : Conserved s := by
  have hnodup : (s.1.allocator.freeBlocks ++ s.2).Nodup :=
    h.1.pages.nodup_iff.mpr nodup_range
  obtain ⟨hfree, hout, hdisj⟩ := nodup_append.mp hnodup
  refine ⟨fun i hi => ?_, hfree, hout, h.1.address, h.2.total⟩
  constructor
  · intro hf ho
    exact hdisj i hf i ho rfl
  · intro ho
    have hmem := h.1.pages.mem_iff.mpr (mem_range.mpr hi)
    exact (mem_append.mp hmem).resolve_right ho

theorem settle_same (h : p.returned = s.1.returned) : settle s p = (p, s.2) := by
  rw [settle, h, drop_length, diff_nil]

theorem settle_release (h : p.returned = s.1.returned ++ [i]) : settle s p = (p, s.2.erase i) := by
  rw [settle, h, drop_left, diff_cons, diff_nil]

theorem good_modify (h : Good s) (i : ℕ) {f : TensorMemoryObj → TensorMemoryObj}
    (hv : ∀ o, (f o).valid = o.valid) (ha : ∀ o, (f o).metadata.address = o.metadata.address) :
    Good (s.1.modify i f, s.2) :=
  ⟨h.1.modify i hv ha, h.2⟩

theorem good_free (h : Good s) (hi : i < s.1.objs.length) (hf : i ∉ s.1.allocator.freeBlocks) :
    Good (free s.1 i, s.2.erase i) := by
  have hmem : i ∈ s.2 := by
    have := h.1.pages.mem_iff.mpr (mem_range.mpr hi)
    exact (mem_append.mp this).resolve_left hf
  have hlen : s.2.length = (s.2.erase i).length + 1 := (perm_cons_erase hmem).length_eq
  exact inv_free (h.1.perm (perm_cons_erase hmem)) (hlen ▸ h.2)

/-- The pool `p` is the one of `s` after a release of page `i`. -/
structure Released (s : State) (i : ℕ) (p : Pool PagedTensorMemoryAllocator) : Prop where
  returned : p.returned = s.1.returned ++ [i]
  freeBlocks : p.allocator.freeBlocks = s.1.allocator.freeBlocks ++ [i]
  good : i ∉ s.1.allocator.freeBlocks → Good (p, s.2.erase i)

theorem released_free (h : Good s) (ho : s.1.objs[i]? = some o) : Released s i (free s.1 i) := by
  have hv : o.valid = true := h.1.valid o (List.mem_of_getElem? ho)
  obtain ⟨hlt, -⟩ := List.getElem?_eq_some_iff.mp ho
  exact ⟨(free_of_valid ho hv).2, (free_of_valid ho hv).1, good_free h hlt⟩

theorem Released.setPinCount (h : Released s i p) (n : ℤ) :
    Released s i (p.modify i fun o => o.setPinCount n) :=
  { h with good := fun hf => good_modify (h.good hf) i (fun _ => rfl) (fun _ => rfl) }

/-- A call on page `i` releases it if `c` holds. -/
def Outcome (s : State) (i : ℕ) (p : Pool PagedTensorMemoryAllocator) (c : Prop) [Decidable c] :
    Prop :=
  if c then Released s i p else p.returned = s.1.returned ∧ Good (p, s.2)

variable {c : Prop} [Decidable c]

theorem released_modify (h : Good s) (ho : s.1.objs[i]? = some o)
    {f : TensorMemoryObj → TensorMemoryObj} (hv : ∀ o, (f o).valid = o.valid)
    (ha : ∀ o, (f o).metadata.address = o.metadata.address) :
    Released s i (free (s.1.modify i f) i) := by
  have hm := good_modify h i hv ha
  have ho' : (s.1.modify i f).objs[i]? = some (f o) := by simp [Pool.modify, ho]
  obtain ⟨h1, h2, h3⟩ := released_free hm ho'
  exact ⟨h1, h2, h3⟩

theorem refCountDown_spec (h : Good s) (ho : s.1.objs[i]? = some o) :
    Outcome s i (refCountDown free s.1 i) (o.metadata.refCount ≤ 1 ∧ o.metadata.pinCount = 0) := by
  unfold Outcome
  split_ifs with hk
  · rw [refCountDown_release ho hk.1 hk.2]
    exact released_modify h ho (fun _ => rfl) (fun _ => rfl)
  · rw [refCountDown_keep ho hk]
    exact ⟨rfl, good_modify h i (fun _ => rfl) (fun _ => rfl)⟩

theorem unpin_spec (h : Good s) (ho : s.1.objs[i]? = some o) :
    Outcome s i (unpin free s.1 i) (o.metadata.pinCount ≤ 1 ∧ o.metadata.refCount ≤ 0) := by
  unfold Outcome
  split_ifs with hk
  · rw [unpin_release ho hk.1 hk.2]
    have hrel := released_modify h ho (f := fun o' => o'.setPinCount (o.metadata.pinCount - 1))
      (fun _ => rfl) (fun _ => rfl)
    split_ifs
    · exact hrel.setPinCount 0
    · exact hrel
  · rw [unpin_keep ho hk]
    have hm := good_modify h i (f := fun o' => o'.setPinCount (o.metadata.pinCount - 1))
      (fun _ => rfl) (fun _ => rfl)
    split_ifs
    · exact ⟨rfl, good_modify hm i (fun _ => rfl) (fun _ => rfl)⟩
    · exact ⟨rfl, hm⟩

theorem Outcome.good (h : Outcome s i p c) (hf : ¬ (i ∈ s.1.allocator.freeBlocks ∧ c)) :
    Good (settle s p) := by
  unfold Outcome at h
  split_ifs at h with hc
  · rw [settle_release h.returned]
    exact h.good fun hi => hf ⟨hi, hc⟩
  · rw [settle_same h.1]
    exact h.2

theorem Outcome.not_conserved (h : Outcome s i p c) (hc : c)
    (hf : i ∈ s.1.allocator.freeBlocks) : ¬ Conserved (settle s p) := by
  rintro ⟨-, hnodup, -⟩
  have hnodup : p.allocator.freeBlocks.Nodup := hnodup
  rw [Outcome, if_pos hc] at h
  rw [h.freeBlocks, nodup_append] at hnodup
  exact hnodup.2.2 i hf i (mem_singleton.mpr rfl) rfl

theorem good_run (h : Good s) {c : Call} (ha : c.Allowed s) (hr : ¬ c.Redundant s) :
    Good (c.run s) := by
  cases c with
  | allocate y fmt => exact inv_allocate h.1 h.2 y fmt
  | batchedAllocate y batchSize fmt => exact inv_batchedAllocate h.1 h.2 y batchSize fmt
  | refCountUp i =>
    show Good (settle s (s.1.refCountUp i))
    rw [settle_same (p := s.1.refCountUp i) rfl]
    exact good_modify h i (fun _ => rfl) (fun _ => rfl)
  | pin i =>
    show Good (settle s (s.1.pin i))
    rw [settle_same (p := s.1.pin i) rfl]
    exact good_modify h i (fun _ => rfl) (fun _ => rfl)
  | refCountDown i =>
    have ho : s.1.objs[i]? = some (s.1.objs.get ⟨i, ha⟩) := getElem?_eq_getElem ha
    exact (refCountDown_spec h ho).good fun hf => hr ⟨hf.1, _, ho, hf.2⟩
  | unpin i =>
    have ho : s.1.objs[i]? = some (s.1.objs.get ⟨i, ha⟩) := getElem?_eq_getElem ha
    exact (unpin_spec h ho).good fun hf => hr ⟨hf.1, _, ho, hf.2⟩

theorem not_conserved_of_redundant (h : Good s) {c : Call} (hr : c.Redundant s) :
    ¬ Conserved (c.run s) := by
  cases c with
  | refCountDown i =>
    obtain ⟨hf, o, ho, hk⟩ := hr
    exact (refCountDown_spec h ho).not_conserved hk hf
  | unpin i =>
    obtain ⟨hf, o, ho, hk⟩ := hr
    exact (unpin_spec h ho).not_conserved hk hf
  | allocate y fmt => exact hr.elim
  | batchedAllocate y batchSize fmt => exact hr.elim
  | refCountUp i => exact hr.elim
  | pin i => exact hr.elim

theorem good_inductive : (system.restrict fun s c => ¬ c.Redundant s).Inductive Good where
  init := by
    rintro ⟨p, out⟩ ⟨bufferSize, y, fmt, hp, hout⟩
    cases hout
    exact inv_new hp
  step := by
    rintro s c s' h ⟨hr, ha, rfl⟩
    exact good_run h ha hr

/-- **Page conservation.**  In every run without redundant calls each page is either free or
handed out, at every moment; in such a state, the next call keeps this if and only if it is
not redundant. -/
theorem paged_conservation {s : State}
    (h : (system.restrict fun s c => ¬ c.Redundant s).Reachable s) :
    Conserved s ∧ ∀ c : Call, c.Allowed s → (Conserved (c.run s) ↔ ¬ c.Redundant s) := by
  have hg : Good s := good_inductive.reachable h
  refine ⟨hg.conserved, fun c ha => ?_⟩
  constructor
  · intro hc hr
    exact not_conserved_of_redundant hg hr hc
  · intro hr
    exact (good_run hg ha hr).conserved

/-- Two pages of two bytes: the layout and the initial state. -/
def twoPageLayout : Layout := ⟨[[2]], [⟨"uint8", 1⟩], by decide, rfl⟩

def twoPages : State :=
  ({ allocator :=
      { bufferSize := 4, layout := twoPageLayout, fmt := .kv2ltd, alignBytes := 2
        pagedBuffers := [⟨0, 2⟩, ⟨2, 2⟩], freeBlocks := [0, 1]
        numActiveAllocations := 0, totalAllocatedSize := 0 }
     objs := [.new ⟨0, 2⟩ (twoPageLayout.metadata .kv2ltd 0 2),
       .new ⟨2, 2⟩ (twoPageLayout.metadata .kv2ltd 1 2)]
     returned := [] }, [])

theorem new_twoPages : new 4 twoPageLayout .kv2ltd = .ok twoPages.1 := by decide +kernel

/-- A page is handed out, pinned and released by its unpin. -/
theorem paged_conservation_cycle :
    ∃ s, (system.restrict fun s c => ¬ c.Redundant s).Reachable s ∧ Conserved s ∧
      s.1.allocator.freeBlocks = [1, 0] := by
  have h₀ : (system.restrict fun s c => ¬ c.Redundant s).Reachable twoPages :=
    .init ⟨4, twoPageLayout, .kv2ltd, new_twoPages, rfl⟩
  have h₁ := h₀.step (e := .allocate twoPageLayout .kv2ltd)
    ⟨by decide +kernel, by decide +kernel, rfl⟩
  have h₂ := h₁.step (e := .pin 0) ⟨by decide +kernel, by decide +kernel, rfl⟩
  have h₃ := h₂.step (e := .refCountDown 0) ⟨by decide +kernel, by decide +kernel, rfl⟩
  have h₄ := h₃.step (e := .unpin 0) ⟨by decide +kernel, by decide +kernel, rfl⟩
  exact ⟨_, h₄, (paged_conservation h₄).1, by decide +kernel⟩

/-- A page is released by its last reference and down once more; a batch of three is then
allocated on two pages, and two of its objects are page `0`. -/
theorem paged_page_shared :
    ∃ s, system.Reachable s ∧ s.1.objs.length = 2 ∧ s.2 = [1, 0, 0] ∧ ¬ Conserved s := by
  have h₀ : system.Reachable twoPages := .init ⟨4, twoPageLayout, .kv2ltd, new_twoPages, rfl⟩
  have h₁ := h₀.step (e := .allocate twoPageLayout .kv2ltd) ⟨by decide +kernel, rfl⟩
  have h₂ := h₁.step (e := .refCountDown 0) ⟨by decide +kernel, rfl⟩
  have h₃ := h₂.step (e := .refCountDown 0) ⟨by decide +kernel, rfl⟩
  have h₄ := h₃.step (e := .batchedAllocate twoPageLayout 3 .kv2ltd) ⟨by decide +kernel, rfl⟩
  refine ⟨_, h₄, by decide +kernel, by decide +kernel, ?_⟩
  rintro ⟨-, -, hnodup, -⟩
  revert hnodup
  decide +kernel

end LMCache.PagedTensorMemoryAllocator
