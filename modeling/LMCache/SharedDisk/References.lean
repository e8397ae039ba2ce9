import LMCache.Lib.Transition
import LMCache.Receiver.ReceivedPages

/-! # The references of a shared-disk receiver

`SharedDiskBackend` keeps the objects that it has loaded in `data`, with the reference of their
allocation.  `get_blocking` hands an object out without a reference for the caller, and the caller
(`LMCacheEngine.retrieve`) drops one.  `contains` with `pin` adds a reference, `unpin` does nothing,
and `remove` takes a key away when there is one reference, and does not drop it.
`StorageManager.batched_get` also puts what it got into the `LocalCPUBackend`, if there is one,
which holds a reference of its own.

`data_never_free`: if every drop uses up a lookup with `pin`, or comes after a `remove` that has
taken the key away, and if a `remove` finds one reference and comes between a get and its drop, then
no object in `data` is free, a `remove` takes its object out of `data`, and the drop gives it back.

`dropped_and_pinned` has two runs that go wrong.

The pages are those of the paged allocator, without their bytes. -/

namespace LMCache.SharedDisk

open List Dict

/-- The receiver and the objects that callers have got.  The last two fields are ghosts: the pins
that no drop has used up, and the pages that `remove` has taken out of `data`. -/
structure Receiver (K : Type) where
  received : ReceivedPages K
  /-- `hot_cache` of the `LocalCPUBackend`. -/
  hot : Dict K ℕ
  got : List (K × ℕ)
  pins : List ℕ
  removed : List ℕ

inductive ReceiverEvent (K : Type) where
  /-- One key of a `ChunkReadyNotif`, and the result of `read_into`. -/
  | chunkReady (k : K) (loaded : Bool)
  | contains (k : K) (pin : Bool)
  | unpin (k : K)
  | remove (k : K)
  | batchedGet (keys : List K)
  | drop (k : K) (page : ℕ)
  /-- `remove` of the `LocalCPUBackend`. -/
  | localRemove (k : K)

namespace Receiver
variable {K : Type} [DecidableEq K] (hasLocalCPU : Bool)

/-- `submit_put_task` of the `LocalCPUBackend`. -/
def writeBack (s : Receiver K) (x : K × ℕ) : Receiver K :=
  match s.hot.get? x.1 with
  | some _ => s
  | none =>
    { s with
      received := { s.received with pages := s.received.pages.retain x.2 }
      hot := s.hot.set x.1 x.2 }

/-- The objects of the keys that are in `data`. -/
def objects (s : Receiver K) (keys : List K) : List (K × ℕ) :=
  keys.filterMap fun k => (s.received.data.get? k).map fun page => (k, page)

/-- `StorageManager.batched_get`: written back if no object is missing. -/
def batchedGet (s : Receiver K) (keys : List K) : Receiver K :=
  let objs := s.objects keys
  let s' := if hasLocalCPU ∧ objs.length = keys.length then objs.foldl writeBack s else s
  { s' with got := s'.got ++ objs }

def step (s : Receiver K) : ReceiverEvent K → Option (Receiver K)
  | .chunkReady k loaded =>
    match s.received.data.get? k with
    | some _ => some s
    | none =>
      match s.received.pages.take with
      | none => some s
      | some (page, pages) =>
        let received : ReceivedPages K := { s.received with pages := pages }
        some { s with
          received :=
            if loaded then received.put k page
            else { received with pages := pages.release page } }
  | .contains k pin =>
    some { s with
      received := (s.received.contains k pin).2
      pins := if pin then (s.received.data.get? k).toList ++ s.pins else s.pins }
  | .unpin _ => some s
  | .remove k =>
    let removed := (s.received.data.get? k).toList.filter fun page => s.received.pages.refs page = 1
    some { s with received := (s.received.remove k).2, removed := removed ++ s.removed }
  | .batchedGet ks => some (s.batchedGet hasLocalCPU ks)
  | .drop k page =>
    if (k, page) ∈ s.got then
      some { s with
        received := { s.received with pages := s.received.pages.release page }
        got := s.got.erase (k, page)
        pins := s.pins.erase page
        removed := if page ∈ s.pins then s.removed else s.removed.erase page }
    else none
  | .localRemove k =>
    match s.hot.get? k with
    | none => some s
    | some page =>
      some { s with
        received := { s.received with pages := s.received.pages.release page }
        hot := s.hot.erase k }

def system : LTS (Receiver K) (ReceiverEvent K) where
  init s :=
    s.received.data = .empty ∧ s.received.pages.free.Nodup ∧ s.hot = .empty ∧ s.got = [] ∧
      s.pins = [] ∧ s.removed = []
  step s e s' := s.step hasLocalCPU e = some s'

/-- **The condition.**  A drop uses up a pin, or comes after a `remove` that took the key away; and
`remove` finds the reference of `data` only, with a get whose drop is still to come. -/
def Covered (s : Receiver K) : ReceiverEvent K → Prop
  | .drop _ page => page ∈ s.pins ∨ page ∈ s.removed
  | .remove k => ∀ page ∈ s.received.data.get? k, s.received.pages.refs page = 1 ∧
      (k, page) ∈ s.got
  | _ => True

/-! ### The owners of the references -/

/-- The pages of `data`. -/
def dataPages (s : Receiver K) : List ℕ := s.received.data.entries.map Prod.snd

/-- A page for each reference: of `data`, of a pin, of the hot cache, or left by `remove`. -/
def owners (s : Receiver K) : List ℕ :=
  s.dataPages ++ (s.pins ++ (s.hot.entries.map Prod.snd ++ s.removed))

/-- **The invariant.**  Each reference has its owner, and a page that was taken out of `data` has
one reference, for a drop that is still to come. -/
structure Inv (s : Receiver K) : Prop where
  owned : s.received.pages.Owned s.owners.count
  removed : ∀ i ∈ s.removed, s.owners.count i = 1 ∧ ∃ k, (k, i) ∈ s.got

section lemmas
variable {s : Receiver K} {i : ℕ}

theorem mem_dataPages {k : K} (h : s.received.data.get? k = some i) : i ∈ s.dataPages :=
  mem_map.mpr ⟨(k, i), get?_eq_some_iff.mp h, rfl⟩

theorem mem_owners {k : K} (h : s.received.data.get? k = some i) : i ∈ s.owners :=
  mem_append_left _ (mem_dataPages h)

omit [DecidableEq K] in
theorem Inv.notMem_removed (h : Inv s)
    (hi : i ∈ s.dataPages ++ (s.pins ++ s.hot.entries.map Prod.snd)) :
    i ∉ s.removed := fun hmem => by
  have hone := (h.removed i hmem).1
  have hother := count_pos_iff.mpr hi
  have hremoved := count_pos_iff.mpr hmem
  simp only [owners, count_append] at hone hother
  omega

omit [DecidableEq K] in
theorem Inv.retain (h : Inv s) {s' : Receiver K} (hi : i ∈ s.dataPages)
    (hpages : s'.received.pages = s.received.pages.retain i)
    (howners : s'.owners.Perm (i :: s.owners)) (hremoved : s'.removed = s.removed)
    (hgot : s'.got = s.got) : Inv s' where
  owned := by
    rw [hpages]
    exact (h.owned.retain_count (mem_append_left _ hi)).perm howners.symm
  removed j hj := by
    rw [hremoved] at hj
    have hne : i ≠ j := fun heq => h.notMem_removed (mem_append_left _ hi) (heq ▸ hj)
    rw [howners.count_eq, count_cons_of_ne hne, hgot]
    exact h.removed j hj

omit [DecidableEq K] in
/-- An owner gives its reference up. -/
theorem Inv.release (h : Inv s) {s' : Receiver K}
    (hpages : s'.received.pages = s.received.pages.release i)
    (howners : s.owners.Perm (i :: s'.owners))
    (hremoved : ∀ j ∈ s'.removed, j ≠ i ∧ j ∈ s.removed ∧ ∀ k, (k, j) ∈ s.got → (k, j) ∈ s'.got) :
    Inv s' where
  owned := by
    rw [hpages]
    exact (h.owned.perm howners).release_count
  removed j hj := by
    obtain ⟨hne, hmem, hgot⟩ := hremoved j hj
    obtain ⟨hone, k, hk⟩ := h.removed j hmem
    rw [howners.count_eq, count_cons_of_ne (Ne.symm hne)] at hone
    exact ⟨hone, k, hgot k hk⟩

end lemmas

/-! ### The steps keep the invariant -/

section steps
variable {hasLocalCPU : Bool} {s s' : Receiver K} {k : K}

theorem Inv.chunkReady (h : Inv s) {loaded : Bool}
    (hstep : s.step hasLocalCPU (.chunkReady k loaded) = some s') : Inv s' := by
  simp only [step] at hstep
  split at hstep
  · cases hstep
    exact h
  rename_i hget
  split at hstep
  · cases hstep
    exact h
  rename_i page pages htake
  cases hstep
  obtain ⟨hnew, howned⟩ := h.owned.take_count htake
  cases loaded with
  | true =>
    have hentries : (s.received.data.set k page).entries = s.received.data.entries ++ [(k, page)] :=
      entries_set_of_notMem (get?_eq_none_iff.mp hget)
    have hperm : (page :: s.owners).Perm
        ((s.received.data.set k page).entries.map Prod.snd ++
          (s.pins ++ (s.hot.entries.map Prod.snd ++ s.removed))) := by
      rw [hentries, map_append, append_assoc]
      exact perm_middle.symm
    refine ⟨howned.perm hperm, fun j hj => ?_⟩
    have hne : page ≠ j := fun heq => hnew (heq ▸
      mem_append_right _ (mem_append_right _ (mem_append_right _ hj)))
    obtain ⟨hone, hgot⟩ := h.removed j hj
    rw [← count_cons_of_ne hne, hperm.count_eq] at hone
    exact ⟨hone, hgot⟩
  | false => exact ⟨howned.release_count, h.removed⟩

theorem Inv.contains (h : Inv s) {pin : Bool}
    (hstep : s.step hasLocalCPU (.contains k pin) = some s') : Inv s' := by
  cases hstep
  cases hget : s.received.data.get? k with
  | none =>
    simp only [ReceivedPages.contains, hget, Option.toList_none, nil_append, ite_self]
    exact ⟨h.owned, h.removed⟩
  | some page =>
    cases pin with
    | false =>
      simp only [ReceivedPages.contains, hget]
      exact ⟨h.owned, h.removed⟩
    | true =>
      refine h.retain (mem_dataPages hget) ?_ ?_ rfl rfl
      · simp [ReceivedPages.contains, hget]
      · simp only [owners, dataPages, ReceivedPages.contains, hget, if_true]
        exact perm_middle

/-- A `remove` that finds one reference takes the key out of `data`. -/
theorem remove_eq {page : ℕ} (hget : s.received.data.get? k = some page)
    (hone : s.received.pages.refs page = 1) :
    s.step hasLocalCPU (.remove k) = some { s with
      received := { s.received with data := s.received.data.erase k }
      removed := page :: s.removed } := by
  simp only [step, ReceivedPages.remove, hget, Option.toList_some, hone, decide_true,
    filter_cons_of_pos, filter_nil, singleton_append, if_true]

theorem Inv.remove (h : Inv s) (hok : s.Covered (.remove k))
    (hstep : s.step hasLocalCPU (.remove k) = some s') : Inv s' := by
  cases hget : s.received.data.get? k with
  | none =>
    cases hstep
    simp only [ReceivedPages.remove, hget, Option.toList_none, filter_nil, nil_append]
    exact ⟨h.owned, h.removed⟩
  | some page =>
    obtain ⟨hone, hgot⟩ := hok page hget
    rw [remove_eq hget hone] at hstep
    cases hstep
    -- The reference of `data` is left to the drop that is still to come.
    have hperm : s.owners.Perm ((s.received.data.erase k).entries.map Prod.snd ++
        (s.pins ++ (s.hot.entries.map Prod.snd ++ page :: s.removed))) := by
      refine ((((perm_erase hget).map Prod.snd).append_right _).trans
        perm_middle.symm).trans (List.Perm.append_left _ ?_)
      exact perm_middle.symm.trans (perm_middle.symm.append_left _)
    have hcount := h.owned.refs_eq (count_pos_iff.mpr (mem_owners hget))
    refine ⟨h.owned.perm hperm, fun j hj => ?_⟩
    have heq : s.owners.count j = _ := hperm.count_eq j
    obtain rfl | hj := mem_cons.mp hj
    · exact ⟨heq.symm.trans (hcount.symm.trans hone), k, hgot⟩
    · obtain ⟨hone_j, hgot_j⟩ := h.removed j hj
      exact ⟨heq.symm.trans hone_j, hgot_j⟩

theorem get?_of_mem_objects {keys : List K} {i : ℕ} (h : (k, i) ∈ s.objects keys) :
    s.received.data.get? k = some i := by
  obtain ⟨k', -, hk'⟩ := mem_filterMap.mp h
  obtain ⟨page, hpage, heq⟩ := Option.map_eq_some_iff.mp hk'
  cases heq
  exact hpage

theorem Inv.writeBack (h : Inv s) {i : ℕ} (hget : s.received.data.get? k = some i) :
    Inv (s.writeBack (k, i)) := by
  unfold Receiver.writeBack
  split
  · exact h
  · rename_i hnone
    refine h.retain (mem_dataPages hget) rfl ?_ rfl rfl
    have hentries : (s.hot.set k i).entries = s.hot.entries ++ [(k, i)] :=
      entries_set_of_notMem (get?_eq_none_iff.mp hnone)
    simp only [owners, dataPages, hentries, map_append, append_assoc]
    grind

@[simp] theorem writeBack_data (x : K × ℕ) : (s.writeBack x).received.data = s.received.data := by
  unfold Receiver.writeBack
  split <;> rfl

theorem Inv.foldl_writeBack (objs : List (K × ℕ)) (h : Inv s)
    (hobjs : ∀ x ∈ objs, s.received.data.get? x.1 = some x.2) :
    Inv (objs.foldl Receiver.writeBack s) := by
  induction objs generalizing s with
  | nil => exact h
  | cons x objs ih =>
    refine ih (h.writeBack (hobjs x mem_cons_self)) fun y hy => ?_
    rw [writeBack_data]
    exact hobjs y (mem_cons_of_mem _ hy)

omit [DecidableEq K] in
theorem Inv.appendGot (h : Inv s) (objs : List (K × ℕ)) : Inv { s with got := s.got ++ objs } where
  owned := h.owned
  removed i hi := by
    obtain ⟨hone, k, hk⟩ := h.removed i hi
    exact ⟨hone, k, mem_append_left _ hk⟩

theorem Inv.batchedGet (h : Inv s) (keys : List K) : Inv (s.batchedGet hasLocalCPU keys) := by
  unfold Receiver.batchedGet
  dsimp only
  split
  · exact (h.foldl_writeBack _ fun x hx => get?_of_mem_objects hx).appendGot _
  · exact h.appendGot _

theorem Inv.localRemove (h : Inv s) (hstep : s.step hasLocalCPU (.localRemove k) = some s') :
    Inv s' := by
  simp only [step] at hstep
  split at hstep
  · cases hstep
    exact h
  rename_i page hget
  cases hstep
  have hperm := (perm_erase hget).map Prod.snd
  refine h.release rfl ?_ fun j hj => ⟨fun heq => ?_, hj, fun _ hk => hk⟩
  · simp only [owners]
    refine (List.Perm.append_left _ ?_).trans perm_middle
    exact ((hperm.append_right _).append_left _).trans perm_middle
  · refine h.notMem_removed (i := page) ?_ (heq ▸ hj)
    grind

theorem Inv.drop (h : Inv s) {page : ℕ} (hok : s.Covered (.drop k page))
    (hstep : s.step hasLocalCPU (.drop k page) = some s') : Inv s' := by
  simp only [step] at hstep
  split at hstep
  case isFalse => nomatch hstep
  cases hstep
  have hgot : ∀ j, j ≠ page → ∀ k', (k', j) ∈ s.got → (k', j) ∈ s.got.erase (k, page) :=
    fun j hne k' hmem => (mem_erase_of_ne fun heq => hne (congrArg Prod.snd heq)).mpr hmem
  by_cases hpin : page ∈ s.pins
  · -- The drop uses up a pin.
    simp only [if_pos hpin]
    refine h.release rfl ?_ fun j hj => ?_
    · simp only [owners]
      exact (((perm_cons_erase hpin).append_right _).append_left _).trans perm_middle
    · have hne : j ≠ page := fun heq => h.notMem_removed
        (mem_append_right _ (mem_append_left _ hpin)) (heq ▸ hj)
      exact ⟨hne, hj, hgot j hne⟩
  · -- The drop gives back what `remove` has left.
    have hmem := hok.resolve_left hpin
    simp only [if_neg hpin]
    refine h.release rfl ?_ fun j hj => ?_
    · simp only [owners, erase_of_not_mem hpin]
      refine (List.Perm.append_left _ ?_).trans perm_middle
      grind
    · have hj' := mem_of_mem_erase hj
      have hne : j ≠ page := fun heq => by
        -- There is one reference, so that the page is in the list once.
        subst heq
        have hone := (h.removed j hj').1
        have htwice := count_pos_iff.mpr hj
        rw [count_erase_self] at htwice
        simp only [owners, count_append] at hone
        omega
      exact ⟨hne, hj', hgot j hne⟩

end steps

theorem inv_inductive : ((system (K := K) hasLocalCPU).restrict Covered).Inductive Inv where
  init s h := by
    obtain ⟨hdata, hnodup, hhot, hgot, hpins, hremoved⟩ := h
    have howners : s.owners = [] := by
      simp [owners, dataPages, hdata, hhot, hpins, hremoved, Dict.empty]
    refine ⟨⟨hnodup, fun i hi => ?_⟩, fun i hi => ?_⟩
    · simp [howners] at hi
    · simp [hremoved] at hi
  step s e s' h hstep := by
    obtain ⟨hok, hstep⟩ := hstep
    cases e with
    | chunkReady k loaded => exact h.chunkReady hstep
    | contains k pin => exact h.contains hstep
    | unpin k =>
      cases hstep
      exact h
    | remove k => exact h.remove hok hstep
    | batchedGet keys =>
      cases hstep
      exact h.batchedGet keys
    | drop k page => exact h.drop hok hstep
    | localRemove k => exact h.localRemove hstep

instance (s : Receiver K) (e : ReceiverEvent K) : Decidable (s.Covered e) :=
  match e with
  | .drop _ page => inferInstanceAs (Decidable (page ∈ s.pins ∨ page ∈ s.removed))
  | .remove k => inferInstanceAs (Decidable (∀ page ∈ s.received.data.get? k,
      s.received.pages.refs page = 1 ∧ (k, page) ∈ s.got))
  | .chunkReady _ _ | .contains _ _ | .unpin _ | .batchedGet _ | .localRemove _ => .isTrue trivial

def onePage : Receiver ℕ := ⟨⟨⟨[0], fun _ => 0⟩, .empty⟩, .empty, [], [], []⟩

theorem reachable_onePage :
    ((system (K := ℕ) false).restrict Covered).Reachable onePage :=
  .init ⟨rfl, by decide, rfl, rfl, rfl, rfl⟩

end Receiver

end LMCache.SharedDisk
