import LMCache.Local.DiskAccounting

/-! # Refused puts of the disk backend

`submit_put_task` registers its key in `put_tasks` before it makes room.  A put for which there is
no room returns without taking the key out again.

**Main result**: `refused_put_leaves`.  A refused put leaves the dictionary, its size and the
reference counts as they were, up to the entries it has evicted, and leaves its own key in
`put_tasks`: no other key is kept from being put (`put_stays_refused`: what becomes of that key). -/

namespace LMCache.Local

variable {H : Type} [DecidableEq H]

namespace LocalDiskBackend

/-- The backend after `insert_put_task`. -/
def insertPutTask (b : LocalDiskBackend H) (key : CacheEngineKey H) : LocalDiskBackend H :=
  { b with putTasks := b.putTasks ++ [key] }

/-- From `b` to `b'` entries were dropped, with their sizes. -/
structure Shrinks (b b' : LocalDiskBackend H) : Prop where
  entries : b'.dict.entries.Sublist b.dict.entries
  surplus : b'.surplus = b.surplus
  putTasks : b'.putTasks = b.putTasks

theorem makeRoom_shrinks (b : LocalDiskBackend H) (requiredSize : ℕ) :
    Shrinks b (b.makeRoom requiredSize).2 := by
  have hrest : (b.makeRoom requiredSize).2.dict.entries.Sublist b.dict.entries ∧
      (b.makeRoom requiredSize).2.putTasks = b.putTasks := by
    have hdrop : ∀ (b₁ : LocalDiskBackend H) key, b₁.dict.entries.Sublist b.dict.entries →
        (b₁.dict.erase key).entries.Sublist b.dict.entries := by
      intro b₁ key h
      refine List.Sublist.trans ?_ h
      rw [Dict.erase, Dict.entries_filterKeys]
      exact List.filter_sublist
    exact makeRoom_rule
      (I := fun b₁ => b₁.dict.entries.Sublist b.dict.entries ∧ b₁.putTasks = b.putTasks)
      (P := fun r => r.2.dict.entries.Sublist b.dict.entries ∧ r.2.putTasks = b.putTasks)
      requiredSize (fun _ h _ => h) (fun _ _ h _ => h) (fun _ h _ => h)
      (fun b₁ key _ h _ _ => ⟨hdrop b₁ key h.1, h.2⟩)
      (fun b₁ key _ h _ _ => ⟨hdrop b₁ key h.1, h.2⟩) ⟨List.Sublist.refl _, rfl⟩
  exact ⟨hrest.1, (b.makeRoom_surplus requiredSize).1, hrest.2⟩

theorem reserve_of_refused {b : LocalDiskBackend H} {requiredSize : ℕ}
    (h : (b.reserve requiredSize).1 = .ok false) :
    b.reserve requiredSize = b.makeRoom requiredSize := by
  unfold reserve at h ⊢
  generalize b.makeRoom requiredSize = r at h ⊢
  obtain ⟨_ | _ | _, b₁⟩ := r
  · rfl
  · rfl
  · cases h

end LocalDiskBackend

namespace DiskState

open LocalDiskBackend SmallDisk

variable {s : DiskState H} {key : CacheEngineKey H} {obj : DiskObj} {id : ℕ}

/-- The first `n` steps of a new put, with no other thread in between. -/
def submitPutTask (s : DiskState H) (key : CacheEngineKey H) (obj : DiskObj) (id n : ℕ) :
    Option (DiskState H) :=
  (.submit key obj id :: List.replicate n (.put s.puts.length)).foldlM step s

/-- The put is taken for one that is already in progress. -/
def Skips (s : DiskState H) (key : CacheEngineKey H) (obj : DiskObj) (id : ℕ) : Prop :=
  s.submitPutTask key obj id 1 = some { s with puts := s.puts ++ [⟨key, obj, id, .ended⟩] }

theorem skips_iff : s.Skips key obj id ↔ key ∈ s.backend.putTasks := by
  by_cases hkey : key ∈ s.backend.putTasks <;>
    simp [Skips, submitPutTask, step, putStep, setStage, hkey]

/-- **A refused put** leaves nothing but its key in `put_tasks`: the entries that are gone were
evicted, their sizes are no longer counted, and a later put is skipped exactly when its key is this
one or was in progress before. -/
theorem refused_put_leaves (hfree : s.backend.locked = false) (hkey : key ∉ s.backend.putTasks)
    (hrefused : ((s.backend.insertPutTask key).reserve obj.physicalSize).1 = .ok false) :
    ∃ s', s.submitPutTask key obj id 3 = some s' ∧
      s'.backend.dict.entries.Sublist s.backend.dict.entries ∧
      s'.backend.surplus = s.backend.surplus ∧ s'.refCounts = s.refCounts ∧
      s'.backend.putTasks = s.backend.putTasks ++ [key] ∧
      ∀ key' obj' id', s'.Skips key' obj' id' ↔ key' = key ∨ s.Skips key' obj' id' := by
  have hshrinks := makeRoom_shrinks (s.backend.insertPutTask key) obj.physicalSize
  have hreserve := reserve_of_refused hrefused
  rw [hreserve] at hrefused
  generalize hr : (s.backend.insertPutTask key).makeRoom obj.physicalSize = r at *
  obtain ⟨result, b⟩ := r
  obtain rfl : result = .ok false := hrefused
  obtain ⟨hentries, hsurplus, hputTasks⟩ := hshrinks
  refine ⟨{ s with backend := b, puts := s.puts ++ [⟨key, obj, id, .ended⟩] }, ?_, hentries,
    hsurplus, rfl, hputTasks, fun key' obj' id' => ?_⟩
  · simp only [insertPutTask, hfree] at hreserve
    simp [submitPutTask, List.replicate, step, putStep, setStage, DiskState.reserve, hkey, hfree,
      hreserve]
  · rw [skips_iff, skips_iff]
    show key' ∈ b.putTasks ↔ _
    rw [hputTasks]
    simp [insertPutTask, or_comm]

/-- The hashes in the dictionary and in `put_tasks`, whether a put is under way or the lock is
taken, and whether there is room for four bytes. -/
def tasks (s : DiskState H) : List H × List H × Bool × Option Bool :=
  (s.backend.dict.keys.map (·.chunkHash), s.backend.putTasks.map (·.chunkHash),
    s.backend.locked || s.puts.any fun p => p.stage ≠ .ended, (s.backend.reserve 4).1.toOption)

/-- The only entry is pinned, and the put of a second chunk is refused. -/
theorem refused_put_leaves_pinned : ∃ s, (SmallDisk.system .lru).Reachable s ∧
    s.tasks = ([0], [], false, some false) ∧
    ∃ s', s.submitPutTask (SmallDisk.key 1) SmallDisk.obj 1 3 = some s' ∧
      s'.backend.dict.entries.Sublist s.backend.dict.entries ∧
      s'.backend.surplus = s.backend.surplus ∧ s'.refCounts = s.refCounts ∧
      s'.backend.putTasks = s.backend.putTasks ++ [SmallDisk.key 1] ∧
      ∀ key' obj' id', s'.Skips key' obj' id' ↔ key' = SmallDisk.key 1 ∨ s.Skips key' obj' id' := by
  obtain ⟨s, hs, htasks, hfree, hkey, hrefused⟩ := exists_run .lru
    (P := fun s => s.tasks = ([0], [], false, some false) ∧ s.backend.locked = false ∧
      key 1 ∉ s.backend.putTasks ∧
      ((s.backend.insertPutTask (key 1)).reserve 4).1.toOption = some false)
    (put 0 0 ++ [.contains (key 0) true]) (by decide +kernel)
  refine ⟨s, hs, htasks, refused_put_leaves hfree hkey ?_⟩
  cases hr : ((s.backend.insertPutTask (key 1)).reserve 4).1 with
  | error e => simp [hr, Except.toOption] at hrefused
  | ok accepted =>
    obtain rfl : accepted = false := by simpa [hr, Except.toOption] using hrefused
    exact hr

/-- **The key stays**: after a refused put its key is in `put_tasks` though no put is under way.
The entry is unpinned, so that there would be room again, and the next put of the key is skipped. -/
theorem put_stays_refused : ∃ s, (SmallDisk.system .lru).Reachable s ∧
    s.tasks = ([0], [1], false, some true) ∧ ∀ obj id, s.Skips (SmallDisk.key 1) obj id := by
  obtain ⟨s, hs, htasks, hkey⟩ := exists_run .lru
    (P := fun s => s.tasks = ([0], [1], false, some true) ∧ key 1 ∈ s.backend.putTasks)
    (put 0 0 ++ .contains (key 0) true ::
      .submit (key 1) obj 1 :: steps 1 3 ++
      [.unpin (key 0)]) (by decide +kernel)
  exact ⟨s, hs, htasks, fun obj id => skips_iff.mpr hkey⟩

end DiskState

end LMCache.Local
