import LMCache.Local.DiskSteps

/-! # The size of the disk cache

`current_cache_size` is raised when a put is accepted and lowered by evictions.  A removal does not
lower it, and a put of a key that is stored already leaves its size behind.

**Main result**: `disk_size_accounted`.  In every run the counter is the size of the entries, of the
puts in flight and of what was lost that way, and it does not exceed the maximum. -/

namespace LMCache.Local

open List SmallDisk DiskPut Dict

variable {H : Type} [DecidableEq H]

namespace LocalDiskBackend

variable {b b' : LocalDiskBackend H} {key : CacheEngineKey H}

/-! ### Sections -/

def total (b : LocalDiskBackend H) : ℕ := (b.dict.entries.map fun p => p.2.size).sum

def surplus (b : LocalDiskBackend H) : ℤ := b.currentCacheSize - b.total

structure SameSize (b b' : LocalDiskBackend H) : Prop where
  total : b'.total = b.total
  current : b'.currentCacheSize = b.currentCacheSize
  max : b'.maxCacheSize = b.maxCacheSize

omit [DecidableEq H] in
theorem SameSize.surplus_eq (h : SameSize b b') : b'.surplus = b.surplus := by
  rw [surplus, h.current, h.total, surplus]

omit [DecidableEq H] in
theorem total_of_perm (h : b'.dict.entries.Perm b.dict.entries) : b'.total = b.total :=
  (h.map _).sum_eq

theorem total_erase {m : DiskMetadata} (h : b.dict.get? key = some m) :
    b.total = m.size + total { b with dict := b.dict.erase key } := by
  have hsum := ((perm_erase h).map fun p => p.2.size).sum_eq
  rw [map_cons, sum_cons] at hsum
  exact hsum

theorem total_modify (key : CacheEngineKey H) {f : DiskMetadata → DiskMetadata}
    (hf : ∀ m, (f m).size = m.size) : total { b with dict := b.dict.modify key f } = b.total :=
  congrArg sum (map_entries_modify fun m => hf m)

/-- **Lookups** change no size. -/
theorem Looks.sameSize (h : Looks b b') : SameSize b b' := by
  induction h with
  | refl => exact ⟨rfl, rfl, rfl⟩
  | pin key _ ih =>
    exact ⟨(total_modify key (f := .pin) fun _ => rfl).trans ih.total, ih.current, ih.max⟩
  | unpin key _ ih =>
    exact ⟨(total_modify key (f := .unpin) fun _ => rfl).trans ih.total, ih.current, ih.max⟩
  | hit key _ ih =>
    rename_i b₁ _
    obtain ⟨cachePolicy, dict, heq, hperm, -⟩ := b₁.hit_spec key
    rw [heq]
    exact ⟨(total_of_perm hperm).trans ih.total, ih.current, ih.max⟩
  | fields keysInRequest locked _ ih => exact ⟨ih.total, ih.current, ih.max⟩

variable (b : LocalDiskBackend H)

/-- **Making room** keeps what is counted beyond the entries. -/
theorem makeRoom_surplus (requiredSize : ℕ) : (b.makeRoom requiredSize).2.surplus = b.surplus ∧
      (b.makeRoom requiredSize).2.currentCacheSize ≤ b.currentCacheSize ∧
      (b.makeRoom requiredSize).2.maxCacheSize = b.maxCacheSize := by
  let I (b₁ : LocalDiskBackend H) : Prop := b₁.surplus = b.surplus ∧
    b₁.currentCacheSize ≤ b.currentCacheSize ∧ b₁.maxCacheSize = b.maxCacheSize
  have hkeep : ∀ b₁, I b₁ → ∀ key m, b₁.dict.get? key = some m → I (b₁.dropped key m) := by
    rintro b₁ ⟨hsurplus, hle, hmax⟩ key m hm
    have htotal := total_erase hm
    refine ⟨?_, ?_, hmax⟩
    · rw [← hsurplus]
      simp only [surplus, dropped, total] at htotal ⊢
      omega
    · simp only [dropped]
      omega
  exact makeRoom_rule (I := I) (P := fun r => I r.2) requiredSize
    (fun _ h _ => h) (fun _ _ h _ => h) (fun _ h _ => h)
    (fun b₁ key m h _ hm => hkeep b₁.asked h key m hm)
    (fun b₁ key m h _ hm => hkeep b₁.asked h key m hm) ⟨rfl, le_rfl, rfl⟩

/-- **The section of a put**: its size is counted if it is accepted. -/
theorem reserve_surplus (requiredSize : ℕ) (hle : b.currentCacheSize ≤ b.maxCacheSize) :
    (b.reserve requiredSize).2.currentCacheSize ≤ (b.reserve requiredSize).2.maxCacheSize ∧
      ((b.reserve requiredSize).1 = .ok true ∧
          (b.reserve requiredSize).2.surplus = b.surplus + requiredSize ∨
        (b.reserve requiredSize).1 ≠ .ok true ∧
          (b.reserve requiredSize).2.surplus = b.surplus) := by
  obtain ⟨hsurplus, hcurrent, hmax⟩ := b.makeRoom_surplus requiredSize
  have hok := b.makeRoom_ok requiredSize
  unfold reserve
  generalize b.makeRoom requiredSize = r at hsurplus hcurrent hmax hok
  obtain ⟨_ | _ | _, b₁⟩ := r
  · grind
  · grind
  · refine ⟨hok rfl, Or.inl ⟨rfl, ?_⟩⟩
    simp only [surplus, total] at hsurplus ⊢
    omega

theorem insertKey_total (key : CacheEngineKey H) (obj : DiskObj) :
    (b.insertKey key obj).2.currentCacheSize = b.currentCacheSize ∧
      (b.insertKey key obj).2.maxCacheSize = b.maxCacheSize ∧
      (b.insertKey key obj).2.total =
        if key ∈ b.dict.keys then b.total else b.total + obj.physicalSize := by
  unfold insertKey
  split_ifs with hkey
  · have hsame := (Looks.refl.hit key : Looks b (b.hit key).2).sameSize
    exact ⟨hsame.current, hsame.max, hsame.total⟩
  · refine ⟨rfl, rfl, ?_⟩
    simp only [total, entries_set_of_notMem hkey, map_append, sum_append,
      map_cons, map_nil, sum_cons, sum_nil, Nat.add_zero]

end LocalDiskBackend

/-- What a put has in `current_cache_size` beyond the entries. -/
def DiskPut.counted (p : DiskPut H) : ℕ := if p.stage.inFlight then p.obj.physicalSize else 0

namespace DiskState

open LocalDiskBackend

variable {s s' : DiskState H}

/-! ### Steps -/

def inFlight (s : DiskState H) : ℕ := (s.puts.map counted).sum

/-- The counter is the size of the entries, of the puts in flight and of what was lost. -/
structure Accounted (s : DiskState H) : Prop where
  current : s.backend.currentCacheSize = s.backend.total + s.inFlight + s.lost
  le_max : s.backend.currentCacheSize ≤ s.backend.maxCacheSize

variable {i : ℕ} {p : DiskPut H} {b : LocalDiskBackend H}

omit [DecidableEq H] in
theorem inFlight_setStage (hp : s.puts[i]? = some p) (stage : PutStage) :
    (s.setStage i p stage).inFlight + p.counted =
      s.inFlight + counted { p with stage } := by
  obtain ⟨backend, puts, readers, refCounts, lost⟩ := s
  dsimp only [inFlight, setStage] at hp ⊢
  induction puts generalizing i with
  | nil => cases hp
  | cons q puts ih =>
    cases i with
    | zero =>
      grind
    | succ i =>
      grind

section
variable (h : s.Accounted)

include h

section
variable (hp : s.puts[i]? = some p)

include hp

omit [DecidableEq H] in
theorem Accounted.move {stage : PutStage} (lost : ℕ)
    (hsurplus :
      b.surplus + p.counted + s.lost = s.backend.surplus + counted { p with stage } + lost)
    (hle : b.currentCacheSize ≤ b.maxCacheSize) (refCounts : ℕ → ℤ) :
    Accounted { s.setStage i p stage with backend := b, refCounts, lost } := by
  have hsum := inFlight_setStage hp stage
  have hcurrent := h.current
  refine ⟨?_, hle⟩
  show b.currentCacheSize = b.total + (s.setStage i p stage).inFlight + lost
  simp only [surplus] at hsurplus
  omega

omit [DecidableEq H] in
theorem Accounted.setStage {stage : PutStage}
    (hstage : stage.inFlight = p.stage.inFlight) (hb : SameSize s.backend b) (refCounts : ℕ → ℤ) :
    Accounted { s.setStage i p stage with backend := b, refCounts } := by
  have hcounted : counted { p with stage } = p.counted := by
    unfold counted
    rw [hstage]
  refine h.move hp s.lost ?_ ?_ refCounts
  · rw [hb.surplus_eq, hcounted]
  · rw [hb.current, hb.max]
    exact h.le_max

theorem Accounted.reserve (hstage : p.stage = .registered) : (s.reserve i p).Accounted := by
  have hcounted : p.counted = 0 := by simp [counted, hstage, PutStage.inFlight]
  obtain ⟨hle, hcases⟩ := s.backend.reserve_surplus p.obj.physicalSize h.le_max
  unfold DiskState.reserve
  generalize s.backend.reserve p.obj.physicalSize = r at hle hcases
  obtain ⟨r, b⟩ := r
  rcases hcases with ⟨rfl, hsurplus⟩ | ⟨hne, hsurplus⟩
  · refine h.move hp s.lost ?_ hle s.refCounts
    rw [hcounted, hsurplus, Nat.cast_zero, add_zero]
    rfl
  · have hover : Accounted { s.setStage i p .ended with backend := b } := by
      refine h.move hp s.lost ?_ hle s.refCounts
      rw [hcounted, hsurplus]
      rfl
    grind

theorem Accounted.insertKey (hstage : p.stage = .written) : (s.insertKey i p).Accounted := by
  have hcounted : p.counted = p.obj.physicalSize := by
    simp [counted, hstage, PutStage.inFlight]
  obtain ⟨hcurrent, hmax, htotal⟩ := s.backend.insertKey_total p.key p.obj
  refine h.move hp _ ?_ (hcurrent ▸ hmax ▸ h.le_max) _
  have hover : counted { p with stage := if (s.backend.insertKey p.key p.obj).1.isSome
      then .ended else .inserted } = 0 := by
    split_ifs <;> rfl
  rw [hover, hcounted]
  simp only [surplus, hcurrent, htotal]
  split_ifs <;> omega

theorem Accounted.putStep (hstep : s.putStep i p = some s') : s'.Accounted := by
  have hsame : ∀ {b : LocalDiskBackend H}, b.dict = s.backend.dict →
      b.currentCacheSize = s.backend.currentCacheSize → b.maxCacheSize = s.backend.maxCacheSize →
      SameSize s.backend b := fun hdict hcurrent hmax =>
        ⟨by rw [total, hdict, total], hcurrent, hmax⟩
  revert hstep
  fun_cases DiskState.putStep s i p <;> rintro ⟨⟩
  case case1 b hstage =>
    refine h.setStage hp ?_ (hsame rfl rfl rfl) s.refCounts
    rw [hstage]
    split_ifs <;> rfl
  case case4 hstage _ => exact h.reserve hp hstage
  case case5 b hstage =>
    refine h.setStage hp ?_ ?_ _
    · rw [hstage]
      rfl
    · exact hsame rfl rfl rfl
  case case8 hstage _ => exact h.insertKey hp hstage
  case case2 b hstage | case6 b hstage | case9 b hstage =>
    refine h.setStage hp ?_ ?_ s.refCounts
    · rw [hstage]
      rfl
    · exact hsame rfl rfl rfl

end

theorem Accounted.erase (key : CacheEngineKey H) (hdict : b.dict = s.backend.dict.erase key)
    (hcurrent : b.currentCacheSize = s.backend.currentCacheSize)
    (hmax : b.maxCacheSize = s.backend.maxCacheSize) (readers : List (DiskReader H)) :
    Accounted { s with backend := b, readers, lost := s.lost + s.sizeOf key } := by
  have hacc := h.current
  refine ⟨?_, ?_⟩
  · show b.currentCacheSize = b.total + s.inFlight + (s.lost + s.sizeOf key : ℕ)
    rw [hcurrent, total, hdict, sizeOf]
    cases hm : s.backend.dict.get? key with
    | none =>
      rw [Dict.erase_of_notMem (get?_eq_none_iff.mp hm)]
      simpa [total] using hacc
    | some m =>
      have htotal := total_erase hm
      simp only [total] at htotal hacc ⊢
      omega
  · show b.currentCacheSize ≤ b.maxCacheSize
    rw [hcurrent, hmax]
    exact h.le_max

theorem Accounted.remove (key : CacheEngineKey H) :
    Accounted { s with
      backend := (s.backend.remove key true).2
      lost := s.lost + s.sizeOf key } := by
  cases hm : s.backend.dict.get? key with
  | none =>
    have hremove : (s.backend.remove key true).2 = s.backend := by
      unfold LocalDiskBackend.remove
      rw [hm]
    have hdict := Dict.erase_of_notMem (get?_eq_none_iff.mp hm)
    rw [hremove]
    exact h.erase key hdict.symm rfl rfl s.readers
  | some m =>
    obtain ⟨cachePolicy, files, locked, ops, heq, -⟩ := remove_cases hm
    rw [heq]
    refine h.erase key ?_ ?_ ?_ s.readers
    all_goals rfl

/-- **Every step** keeps the account. -/
theorem Accounted.step {e : DiskEvent H} (hstep : s.step e = some s') : s'.Accounted := by
  rcases step_cases hstep with hquiet | ⟨i, p, rfl, hp, hput⟩ |
    ⟨i, p, rfl, hp, hstage, rfl⟩ | ⟨i, r, rfl, hr, rfl⟩ | ⟨path, rfl, rfl⟩ | ⟨key, rfl, -, rfl⟩
  · have hsame := hquiet.looks.sameSize
    have hflight : s'.inFlight = s.inFlight := by
      rcases hquiet.puts with heq | ⟨key, obj, id, heq⟩
      · rw [inFlight, heq, inFlight]
      · rw [inFlight, heq, map_append, sum_append, inFlight]
        rfl
    refine ⟨?_, ?_⟩
    · rw [hsame.current, hsame.total, hflight, hquiet.lost]
      exact h.current
    · rw [hsame.current, hsame.max]
      exact h.le_max
  · exact h.putStep hp hput
  · have hcounted : p.counted = p.obj.physicalSize := by
      simp [counted, hstage, PutStage.inFlight]
    have hended : counted { p with stage := .ended } = 0 := rfl
    refine h.move hp (s.lost + p.obj.physicalSize) ?_ h.le_max s.refCounts
    omega
  · refine h.erase r.key ?_ ?_ ?_ _
    all_goals rfl
  · exact ⟨h.current, h.le_max⟩
  · exact h.remove key

end

/-- **Accounting.**  In every run the counter is the size of the entries, of the puts in flight and
of what was lost: the entries that were removed or whose files were missing, and the puts whose
write has failed or whose key was stored already.  It does not exceed the maximum. -/
theorem disk_size_accounted {keyToPath : CacheEngineKey H → String} {maxCacheSize : ℕ}
    {cachePolicy : CachePolicy (CacheEngineKey H)}
    (h : (diskSystem keyToPath maxCacheSize cachePolicy).Reachable s) : s.Accounted := by
  refine h.invariant ?_ fun _ _ _ hs hstep => hs.step hstep
  rintro s ⟨files, rfl⟩
  exact ⟨rfl, Int.natCast_nonneg _⟩

/-- The counter, the size of the entries, that of the puts in flight and what was lost. -/
def sizes (s : DiskState H) : ℤ × ℕ × ℕ × ℕ :=
  (s.backend.currentCacheSize, s.backend.total, s.inFlight, s.lost)

/-- A second put evicts the first chunk and is in flight; nothing is lost. -/
theorem disk_size_accounted_eviction : ∃ s, (system .lru).Reachable s ∧
    s.sizes = (4, 0, 4, 0) ∧ s.Accounted := by
  obtain ⟨s, hs, hsizes⟩ := exists_run .lru (P := fun s => s.sizes = (4, 0, 4, 0))
    (put 0 0 ++ .submit (key 1) obj 1 :: steps 1 4)
    (by decide +kernel)
  exact ⟨s, hs, hsizes, disk_size_accounted hs⟩

/-- **Drift**: a chunk is put and removed, and its size stays counted; so is that of a second put of
a key with the same content. -/
theorem disk_size_drifts :
    (∃ s, (system .lru).Reachable s ∧ s.sizes = (4, 0, 0, 4)) ∧
    ∃ s, (diskSystem keyToPath 8 .lru).Reachable s ∧ s.sizes = (8, 4, 0, 4) := by
  refine ⟨exists_run .lru (put 0 0 ++ [.remove (key 0)])
    (by decide +kernel), ?_⟩
  exact LTS.Reachable.exists_replay (S := diskSystem keyToPath 8 .lru)
    (fun _ _ _ => id) (put 0 0 ++ put 1 0) (.init ⟨∅, rfl⟩)
    (by decide +kernel)

end DiskState

end LMCache.Local
