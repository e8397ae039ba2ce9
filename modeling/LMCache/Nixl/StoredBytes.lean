import LMCache.Nixl.StaticStorage

/-! # What the static storage of NIXL keeps

`stored_as_submitted`: as long as a put keeps its pages (somebody else holds each page of a put
until its transfer is over, and nobody writes to it), no coroutine fails, and no key is removed
between its entry and the end of its transfer, then each key that the backend contains, and that is
not just being transferred, has been transferred, and its descriptor holds the bytes that the object
had at the time of the put.

`stored_other_bytes` is what `StorageManager.batched_put` makes possible.

`PagesInv` is about the pages of the puts whose transfer is not over, `IndexInv` about the
descriptors: each one is in one place, and those of the keys that are not just being transferred
hold their bytes. -/

namespace LMCache.Nixl

open List Dict

open CountedPages (writeAll writeAll_eq writeAll_of_forall_ne)

variable {K B : Type}

def MemToStorage.items (r : MemToStorage K B) : List (Item K B) := r.done.map Prod.fst ++ r.todo

def MemToStorage.published (r : MemToStorage K B) : List K := r.done.map fun x => x.1.key

namespace State
variable [DecidableEq K] (s : State K B)

/-- The items of the puts whose transfer is not over. -/
def pending : List (Item K B) := s.queue.flatten ++ s.running.elim [] MemToStorage.items

def published : List K := s.running.elim [] MemToStorage.published

/-- The places of descriptors, without those that were lost. -/
def indices : List ℕ :=
  s.keyDict.entries.map (fun e => e.2.index) ++
    (s.pool ++ (s.pushing ++ (s.running.bind MemToStorage.popped).toList))

/-- **The condition.**  The pages of a put are held and not written until its transfer is over; no
assertion of the coroutine and no transfer fails; and the keys of the coroutine are not removed. -/
def Kept : Event K B → Prop
  | .release i => (∃ x ∈ s.pending, x.page = i) → i ∈ s.others.erase i
  | .write i _ => ∀ x ∈ s.pending, x.page ≠ i
  | .batchedSubmitPutTask _ evictKeys => ∀ k ∈ evictKeys, k ∉ s.published
  | .remove k => k ∉ s.published
  | .pop => s.pool ≠ []
  | .addKeyToDict => ∀ x ∈ s.running.bind fun r => r.todo.head?, s.keyDict.get? x.key = none
  | .transfer success => success = true
  | _ => True

/-- The pages of the puts are held, and hold the bytes of their objects. -/
structure PagesInv : Prop where
  owned : s.pages.Owned s.others.count
  held : ∀ x ∈ s.pending, x.page ∈ s.others
  bytes : ∀ x ∈ s.pending, s.mem x.page = x.bytes

/-- Each descriptor is in one place; the keys of the coroutine are in `key_dict`, and all others
have been transferred. -/
structure IndexInv : Prop where
  nodup : s.indices.Nodup
  entered : ∀ r ∈ s.running, r.published.Nodup ∧
    ∀ x ∈ r.done, ∃ m, s.keyDict.get? x.1.key = some m ∧ m.index = x.2
  stored : ∀ k m, s.keyDict.get? k = some m →
    k ∈ s.published ∨ ∃ b, s.completed k = some b ∧ s.storage m.index = b

/-- **The invariant.** -/
structure Inv : Prop where
  pagesInv : s.PagesInv
  indexInv : s.IndexInv

variable {s} {s' : State K B} {e : Event K B}

/-! ### Pages -/

/-- The descriptors do not depend on the pages. -/
theorem IndexInv.pages (h : s.IndexInv) {pages : CountedPages} {mem : ℕ → B} {others : List ℕ} :
    ({ s with pages := pages, mem := mem, others := others } : State K B).IndexInv :=
  { h with }

omit [DecidableEq K] in
theorem PagesInv.congr (h : s.PagesInv) (hpages : s'.pages = s.pages) (hmem : s'.mem = s.mem)
    (hothers : s'.others = s.others) (hpending : ∀ x ∈ s'.pending, x ∈ s.pending) :
    s'.PagesInv where
  owned := by
    rw [hpages, hothers]
    exact h.owned
  held x hx := hothers ▸ h.held x (hpending x hx)
  bytes x hx := by
    rw [hmem]
    exact h.bytes x (hpending x hx)

variable {objs : List (K × ℕ)}

theorem PagesInv.enqueue (h : s.PagesInv) (hobjs : ∀ x ∈ objs, x.2 ∈ s.others) :
    (s.enqueue objs).PagesInv := by
  have hpending : ∀ x ∈ (s.enqueue objs).pending, x ∈ s.pending ∨
      x.page ∈ s.others ∧ s.mem x.page = x.bytes := fun x hx => by
    simp only [pending, State.enqueue, flatten_append, mem_append] at hx
    obtain (hx | hx) | hx := hx
    · exact .inl (mem_append_left _ hx)
    · grind
    · exact .inl (mem_append_right _ hx)
  refine ⟨h.owned, fun x hx => ?_, fun x hx => ?_⟩
  · exact (hpending x hx).elim (h.held x) fun hx => hx.1
  · exact (hpending x hx).elim (h.bytes x) fun hx => hx.2

/-! ### Descriptors -/

theorem IndexInv.key_eq (h : s.IndexInv) {k k' : K} {m m' : NixlKeyMetadata}
    (hk : s.keyDict.get? k = some m) (hk' : s.keyDict.get? k' = some m')
    (hindex : m.index = m'.index) : k = k' := by
  have hnodup := (nodup_append.mp h.nodup).1
  have heq := inj_on_of_nodup_map hnodup (get?_eq_some_iff.mp hk)
    (get?_eq_some_iff.mp hk') hindex
  exact congrArg Prod.fst heq

theorem IndexInv.erase (h : s.IndexInv) {k : K} (hk : k ∉ s.published)
    {pool pushing : List ℕ}
    (hnodup : ({ s with keyDict := s.keyDict.erase k, pool := pool, pushing := pushing } :
      State K B).indices.Perm s.indices) :
    ({ s with keyDict := s.keyDict.erase k, pool := pool, pushing := pushing } :
      State K B).IndexInv where
  nodup := hnodup.nodup_iff.mpr h.nodup
  entered r hr := by
    obtain ⟨hkeys, hdone⟩ := h.entered r hr
    refine ⟨hkeys, fun x hx => ?_⟩
    obtain ⟨m', hget, hindex⟩ := hdone x hx
    have hne : x.1.key ≠ k := fun heq => hk (by
      rw [published, Option.mem_def.mp hr]
      exact mem_map.mpr ⟨x, hx, heq⟩)
    exact ⟨m', by rw [get?_erase, if_neg hne, hget], hindex⟩
  stored k' m' hget := by
    rw [get?_erase] at hget
    split at hget
    · nomatch hget
    · exact h.stored k' m' hget

theorem perm_index_erase {k : K} {m : NixlKeyMetadata} (hget : s.keyDict.get? k = some m) :
    (s.keyDict.entries.map fun e => e.2.index).Perm
      (m.index :: (s.keyDict.erase k).entries.map fun e => e.2.index) :=
  (perm_erase hget).map fun e => e.2.index

theorem IndexInv.evict (h : s.IndexInv) {k : K} (hk : k ∉ s.published) : (s.evict k).IndexInv := by
  unfold State.evict
  split
  · exact h
  · rename_i m hget
    refine h.erase hk ?_
    simp only [indices, cons_append]
    exact (perm_middle.trans ((perm_index_erase hget).symm.append_right _))

theorem IndexInv.movePool (h : s.IndexInv) {pool pushing : List ℕ}
    (hperm : (pool ++ pushing).Perm (s.pool ++ s.pushing)) :
    ({ s with pool := pool, pushing := pushing } : State K B).IndexInv where
  nodup := by
    have hindices : ({ s with pool := pool, pushing := pushing } : State K B).indices.Perm
        s.indices := by
      simp only [indices, ← append_assoc pool, ← append_assoc s.pool]
      exact (hperm.append_right _).append_left _
    exact hindices.nodup_iff.mpr h.nodup
  entered := h.entered
  stored := h.stored

theorem IndexInv.modify (h : s.IndexInv) (k : K) {f : NixlKeyMetadata → NixlKeyMetadata}
    (hf : ∀ m, (f m).index = m.index) :
    ({ s with keyDict := s.keyDict.modify k f } : State K B).IndexInv where
  nodup := by
    have hmap := map_entries_modify (d := s.keyDict) (k := k) (g := fun e => e.2.index) hf
    simpa [indices, hmap] using h.nodup
  entered r hr := by
    obtain ⟨hkeys, hdone⟩ := h.entered r hr
    refine ⟨hkeys, fun x hx => ?_⟩
    obtain ⟨m, hget, hindex⟩ := hdone x hx
    rw [get?_modify]
    split
    · rename_i heq
      rw [← heq, hget]
      exact ⟨f m, rfl, (hf m).trans hindex⟩
    · exact ⟨m, hget, hindex⟩
  stored k' m' hget := by
    rw [get?_modify] at hget
    split at hget
    · rename_i heq
      obtain ⟨m, hm, rfl⟩ := Option.map_eq_some_iff.mp hget
      obtain hp | ⟨b, hb, hstored⟩ := h.stored k' m (heq ▸ hm)
      · exact .inl hp
      · exact .inr ⟨b, hb, (hf m).symm ▸ hstored⟩
    · exact h.stored k' m' hget

/-! ### The coroutine -/

section coroutine
variable {r : MemToStorage K B}

theorem Inv.start (h : s.Inv) (hrunning : s.running = none) {items : List (Item K B)}
    {queue : List (List (Item K B))} (hqueue : s.queue = items :: queue) :
    ({ s with queue, running := some ⟨[], items, none⟩ } : State K B).Inv := by
  refine ⟨h.pagesInv.congr rfl rfl rfl fun x hx => ?_, ?_, fun r hr => ?_, fun k m hget => ?_⟩
  · simp only [pending, MemToStorage.items, Option.elim_some, map_nil, nil_append,
      mem_append] at hx
    simp only [pending, hqueue, hrunning, flatten_cons, Option.elim_none, append_nil, mem_append]
    exact hx.symm
  · have hnodup := h.indexInv.nodup
    rw [indices, hrunning] at hnodup
    exact hnodup
  · cases hr
    exact ⟨nodup_nil, nofun⟩
  · have hstored := h.indexInv.stored k m hget
    simpa only [published, hrunning, Option.elim_none, not_mem_nil, false_or] using
      Or.inr (hstored.resolve_left (by simp [published, hrunning]))

/-- A key is entered with its descriptor. -/
theorem Inv.entered (h : s.Inv) (hrunning : s.running = some r) {x : Item K B}
    {todo : List (Item K B)} (htodo : r.todo = x :: todo) {index : ℕ}
    (hpopped : r.popped = some index) (hnone : s.keyDict.get? x.key = none) :
    ({ s with
      keyDict := s.keyDict.set x.key ⟨index, 0⟩
      running := some ⟨r.done ++ [(x, index)], todo, none⟩ } : State K B).Inv := by
  obtain ⟨hkeys, hdone⟩ := h.indexInv.entered r hrunning
  have hentries : (s.keyDict.set x.key ⟨index, 0⟩).entries = s.keyDict.entries ++
      [(x.key, ⟨index, 0⟩)] := entries_set_of_notMem (get?_eq_none_iff.mp hnone)
  -- The key is new, so that it is none of those that were entered before.
  have hnew : ∀ y ∈ r.done, y.1.key ≠ x.key := fun y hy heq => by
    grind
  refine ⟨h.pagesInv.congr rfl rfl rfl fun y hy => ?_, ?_, fun r' hr' => ?_, fun k m hget => ?_⟩
  · simpa [pending, MemToStorage.items, hrunning, htodo] using hy
  · have hperm : s.indices.Perm (s.keyDict.entries.map (fun e => e.2.index) ++ [index] ++
        (s.pool ++ (s.pushing ++ []))) := by
      simp only [indices, hrunning, Option.bind_some, hpopped, Option.toList_some, append_nil]
      grind
    simpa [indices, hentries] using hperm.nodup_iff.mp h.indexInv.nodup
  · cases hr'
    refine ⟨?_, fun y hy => ?_⟩
    · simp only [MemToStorage.published, map_append, map_cons, map_nil]
      refine nodup_append.mpr ⟨hkeys, nodup_singleton _, fun k hk k' hk' heq => ?_⟩
      grind
    · obtain hy | hy := mem_append.mp hy
      · grind
      · rw [mem_singleton.mp hy]
        exact ⟨⟨index, 0⟩, by simp, rfl⟩
  · rw [get?_set] at hget
    split at hget
    · rename_i heq
      exact .inl (by simp [published, MemToStorage.published, heq])
    · refine (h.indexInv.stored k m hget).imp_left fun hp => ?_
      rw [published, hrunning] at hp
      simp only [published, Option.elim_some, MemToStorage.published, map_append]
      exact mem_append_left _ hp

theorem Inv.storage_transfer (h : s.Inv) (hrunning : s.running = some r) {x : Item K B × ℕ}
    (hx : x ∈ r.done) :
    writeAll s.storage (r.done.map fun x => (x.2, s.mem x.1.page)) x.2 = x.1.bytes ∧
      writeAll s.completed (r.done.map fun x => (x.1.key, some x.1.bytes)) x.1.key =
        some x.1.bytes := by
  obtain ⟨hkeys, hdone⟩ := h.indexInv.entered r hrunning
  have hitem : ∀ y ∈ r.done, y.1.key = x.1.key → y = x := fun y hy heq =>
    inj_on_of_nodup_map hkeys hy hx heq
  have hbytes : ∀ y ∈ r.done, s.mem y.1.page = y.1.bytes := fun y hy =>
    h.pagesInv.bytes y.1 (mem_append_right _ (by
      rw [hrunning]
      exact mem_append_left _ (mem_map_of_mem hy)))
  refine ⟨writeAll_eq (fun w hw hindex => ?_) (.inr ⟨_, mem_map_of_mem hx, rfl⟩),
    writeAll_eq (fun w hw hkey => ?_) (.inr ⟨_, mem_map_of_mem hx, rfl⟩)⟩
  · -- Two items with one descriptor have one key.
    obtain ⟨y, hy, rfl⟩ := mem_map.mp hw
    obtain ⟨m, hget, hm⟩ := hdone y hy
    obtain ⟨m', hget', hm'⟩ := hdone x hx
    have hkey := h.indexInv.key_eq hget hget' (hm.trans (Eq.trans hindex hm'.symm))
    rw [hitem y hy hkey]
    exact hbytes x hx
  · grind

/-- A key has the bytes of its put after the transfer. -/
theorem Inv.stored_transfer (h : s.Inv) (hrunning : s.running = some r) {k : K}
    {m : NixlKeyMetadata} (hget : s.keyDict.get? k = some m) :
    ∃ b, writeAll s.completed (r.done.map fun x => (x.1.key, some x.1.bytes)) k = some b ∧
      writeAll s.storage (r.done.map fun x => (x.2, s.mem x.1.page)) m.index = b := by
  by_cases hk : k ∈ r.published
  · obtain ⟨x, hx, rfl⟩ := mem_map.mp hk
    obtain ⟨m', hget', hindex⟩ := (h.indexInv.entered r hrunning).2 x hx
    cases hget'.symm.trans hget
    obtain ⟨hstorage, hcompleted⟩ := h.storage_transfer hrunning hx
    exact ⟨x.1.bytes, hcompleted, hindex ▸ hstorage⟩
  · -- The key has another descriptor than those that are written.
    have hp : k ∉ s.published := by simpa [published, hrunning] using hk
    obtain ⟨b, hb, hstored⟩ := (h.indexInv.stored k m hget).resolve_left hp
    refine ⟨b, (writeAll_of_forall_ne fun w hw heq => ?_).trans hb,
      (writeAll_of_forall_ne fun w hw heq => ?_).trans hstored⟩
    · obtain ⟨y, hy, rfl⟩ := mem_map.mp hw
      exact hk (mem_map.mpr ⟨y, hy, heq⟩)
    · obtain ⟨y, hy, rfl⟩ := mem_map.mp hw
      obtain ⟨m', hget', hindex⟩ := (h.indexInv.entered r hrunning).2 y hy
      have hkey := h.indexInv.key_eq hget' hget (hindex.trans heq)
      exact hk (mem_map.mpr ⟨y, hy, hkey⟩)

theorem Inv.coroutineStep (h : s.Inv) (hok : s.Kept e) (hrunning : s.running = some r)
    (hstep : s.coroutineStep r e = some s') : s'.Inv := by
  revert hok hstep
  fun_cases State.coroutineStep s r e <;> rintro hok ⟨⟩
  case case1 hpool hpopped htodo =>
    refine ⟨h.pagesInv.congr rfl rfl rfl fun x hx => ?_, ?_, fun r' hr' => ?_, ?_⟩
    · rw [pending, hrunning]
      exact hx
    · refine (Perm.nodup_iff ?_).mp h.indexInv.nodup
      simp only [indices, hrunning, hpool, Option.bind_some, hpopped, Option.toList_none,
        append_nil, cons_append]
      grind
    · cases hr'
      exact h.indexInv.entered r hrunning
    · have hstored := h.indexInv.stored
      simp only [published, hrunning] at hstored
      exact hstored
  case case2 hpool _ _ => exact absurd hpool hok
  case case4 hpopped htodo m hget =>
    rw [hok _ (by simp [hrunning, htodo])] at hget
    cases hget
  case case5 hpopped htodo hget => exact h.entered hrunning htodo hpopped hget
  case case7 =>
    refine ⟨h.pagesInv.congr rfl rfl rfl fun x hx => ?_, ?_, nofun, fun k m hget => .inr ?_⟩
    · exact mem_append_left _ (by simpa [pending] using hx)
    · have hsub : (s.pool ++ (s.pushing ++ [])).Sublist
          (s.pool ++ (s.pushing ++ (s.running.bind MemToStorage.popped).toList)) :=
        ((nil_sublist _).append_left _).append_left _
      exact (hsub.append_left _).nodup h.indexInv.nodup
    · exact h.stored_transfer hrunning hget
  case case8 => cases hok

end coroutine

/-! ### The other steps -/

theorem evict_eq (s : State K B) (k : K) :
    ∃ keyDict pool, s.evict k = { s with keyDict := keyDict, pool := pool } := by
  unfold State.evict
  split <;> exact ⟨_, _, rfl⟩

theorem Inv.foldl_evict (evictKeys : List K) (h : s.Inv)
    (hkeys : ∀ k ∈ evictKeys, k ∉ s.published) :
    (evictKeys.foldl State.evict s).Inv ∧ (evictKeys.foldl State.evict s).others = s.others := by
  induction evictKeys generalizing s with
  | nil => exact ⟨h, rfl⟩
  | cons k evictKeys ih =>
    have hindex := h.indexInv.evict (hkeys k mem_cons_self)
    obtain ⟨keyDict, pool, heq⟩ := evict_eq s k
    rw [foldl_cons]
    rw [heq] at hindex ⊢
    refine ih ⟨h.pagesInv.congr rfl rfl rfl fun _ hx => hx, hindex⟩ fun k' hk' => ?_
    exact hkeys k' (mem_cons_of_mem _ hk')

theorem Inv.enqueue (h : s.Inv) (hobjs : ∀ x ∈ objs, x.2 ∈ s.others) : (s.enqueue objs).Inv :=
  ⟨h.pagesInv.enqueue hobjs, h.indexInv.nodup, h.indexInv.entered, h.indexInv.stored⟩

theorem Inv.batchedSubmitPutTask (h : s.Inv) {evictKeys : List K}
    (hok : s.Kept (.batchedSubmitPutTask objs evictKeys))
    (hstep : s.batchedSubmitPutTask objs evictKeys = some s') : s'.Inv := by
  revert hstep
  fun_cases State.batchedSubmitPutTask s objs evictKeys <;> rintro ⟨⟩
  case case1 => exact h
  case case2 hobjs _ _ _ =>
    obtain ⟨hinv, hothers⟩ := h.foldl_evict evictKeys hok
    exact hinv.enqueue fun x hx => hothers ▸ hobjs x hx
  case case4 hobjs _ => exact h.enqueue hobjs

/-- **Every step** keeps the invariant. -/
theorem Inv.step (h : s.Inv) (hok : s.Kept e) (hstep : s.step e = some s') : s'.Inv := by
  revert hok hstep
  fun_cases State.step s e <;> intro hok hstep
  case case9 => exact h.batchedSubmitPutTask hok hstep
  case case19 r hrunning _ _ _ _ _ _ _ _ _ _ => exact h.coroutineStep hok hrunning hstep
  all_goals cases hstep
  case case2 htake =>
    refine ⟨⟨(h.pagesInv.owned.take_count htake).2, fun x hx => ?_, h.pagesInv.bytes⟩,
      h.indexInv.pages⟩
    exact mem_cons_of_mem _ (h.pagesInv.held x hx)
  case case3 i hi =>
    refine ⟨⟨h.pagesInv.owned.retain_count hi, fun x hx => ?_, h.pagesInv.bytes⟩, h.indexInv.pages⟩
    exact mem_cons_of_mem _ (h.pagesInv.held x hx)
  case case5 i hi =>
    refine ⟨⟨(h.pagesInv.owned.perm (perm_cons_erase hi)).release_count, fun x hx => ?_,
      h.pagesInv.bytes⟩, h.indexInv.pages⟩
    by_cases heq : x.page = i
    · exact heq ▸ hok ⟨x, hx, heq⟩
    · exact (mem_erase_of_ne heq).mpr (h.pagesInv.held x hx)
  case case7 =>
    refine ⟨⟨h.pagesInv.owned, h.pagesInv.held, fun x hx => ?_⟩, h.indexInv.pages⟩
    exact (Function.update_of_ne (hok x hx) ..).trans (h.pagesInv.bytes x hx)
  case case10 hqueue hrunning => exact h.start hrunning hqueue
  case case12 => exact h
  case case13 k m hget =>
    refine ⟨h.pagesInv.congr rfl rfl rfl fun _ hx => hx, h.indexInv.erase hok ?_⟩
    simp only [indices, cons_append]
    refine (perm_middle.append_left _).trans ?_
    exact perm_middle.trans ((perm_index_erase hget).symm.append_right _)
  case case14 hindex =>
    refine ⟨h.pagesInv.congr rfl rfl rfl fun _ hx => hx, h.indexInv.movePool ?_⟩
    grind
  case case16 k | case17 k =>
    exact ⟨h.pagesInv.congr rfl rfl rfl fun _ hx => hx, h.indexInv.modify k fun _ => rfl⟩

theorem exists_coroutineStep
    (h : (match s.running with
      | none => none
      | some r => s.coroutineStep r e) = some s') :
    ∃ r, s.running = some r ∧ s.coroutineStep r e = some s' := by
  split at h
  · nomatch h
  · exact ⟨_, ‹_›, h⟩

theorem inv_inductive (size : ℕ) :
    ((system (K := K) (B := B) size).restrict Kept).Inductive Inv where
  init s h := by
    obtain ⟨howned, hpool, hdict, hpushing, -, hqueue, hrunning, -⟩ := h
    have hpending : s.pending = [] := by simp [pending, hqueue, hrunning]
    refine ⟨⟨howned, ?_, ?_⟩, ?_, ?_, fun k m hk => ?_⟩
    · simp [hpending]
    · simp [hpending]
    · simpa [indices, hdict, hpool, hpushing, hrunning, empty] using nodup_range
    · simp [hrunning]
    · simp [hdict] at hk
  step _ _ _ h hstep := h.step hstep.1 hstep.2

/-- **The storage keeps what was put.**  In every run in which the pages of the puts are kept and no
coroutine fails: a transfer stores, for each key of its put, the bytes that the object had at the
time of the put; the pages of a put are not free before that; and each key that the backend contains
was transferred, and its descriptor holds those bytes, unless the running coroutine has entered the
key and its transfer is not over. -/
theorem stored_as_submitted {size : ℕ} {s : State K B}
    (hs : ((system size).restrict Kept).Reachable s) :
    (∀ r s', s.running = some r → s.step (.transfer true) = some s' →
      ∀ x ∈ r.done, s'.storage x.2 = x.1.bytes ∧ s'.contains x.1.key = true) ∧
    (∀ x ∈ s.pending, x.page ∉ s.pages.free) ∧
    (∀ k, k ∉ s.published → s.contains k = true →
      ∃ m b, s.keyDict.get? k = some m ∧ s.completed k = some b ∧ s.storage m.index = b) := by
  have h := (inv_inductive size).reachable hs
  refine ⟨fun r s' hrunning hstep x hx => ?_, fun x hx => ?_, fun k hpub hk => ?_⟩
  · obtain ⟨r', hrunning', hstep⟩ := exists_coroutineStep hstep
    obtain rfl : r' = r := Option.some.inj (hrunning'.symm.trans hrunning)
    obtain ⟨m, hget, -⟩ := (h.indexInv.entered r' hrunning).2 x hx
    simp only [coroutineStep] at hstep
    split at hstep
    · cases hstep
      exact ⟨(h.storage_transfer hrunning hx).1, by simp [contains, hget]⟩
    · rename_i hfalse
      nomatch hfalse
    · nomatch hstep
  · exact h.pagesInv.owned.not_free (count_pos_iff.mpr (h.pagesInv.held x hx))
  · obtain ⟨m, hm⟩ := Option.isSome_iff_exists.mp hk
    obtain ⟨b, hb, hstored⟩ := (h.indexInv.stored k m hm).resolve_left hpub
    exact ⟨m, b, hm, hb, hstored⟩

instance (s : State K B) (e : Event K B) : Decidable (s.Kept e) :=
  match e with
  | .release i => inferInstanceAs (Decidable ((∃ x ∈ s.pending, x.page = i) → i ∈ s.others.erase i))
  | .write i _ => inferInstanceAs (Decidable (∀ x ∈ s.pending, x.page ≠ i))
  | .batchedSubmitPutTask _ evictKeys =>
    inferInstanceAs (Decidable (∀ k ∈ evictKeys, k ∉ s.published))
  | .remove k => inferInstanceAs (Decidable (k ∉ s.published))
  | .pop => inferInstanceAs (Decidable (s.pool ≠ []))
  | .addKeyToDict => inferInstanceAs (Decidable
      (∀ x ∈ s.running.bind fun r => r.todo.head?, s.keyDict.get? x.key = none))
  | .transfer success => inferInstanceAs (Decidable (success = true))
  | .allocate | .share _ | .start | .push _ | .pin _ | .unpin _ => .isTrue trivial

def onePage : State ℕ ℕ where
  pages := ⟨[0], fun _ => 0⟩
  mem := fun _ => 0
  others := []
  pool := [0]
  keyDict := .empty
  pushing := []
  progress := ∅
  storage := fun _ => 0
  queue := []
  running := none
  completed := fun _ => none

theorem onePage_owned : onePage.pages.Owned onePage.others.count :=
  ⟨by decide, fun _ hi => absurd hi (by simp [onePage])⟩

theorem reachable_onePage : ((system 1).restrict Kept).Reachable onePage :=
  .init ⟨onePage_owned, rfl, rfl, rfl, rfl, rfl, rfl, rfl⟩

/-- A page with the bytes `5` is put under the key `7`. -/
def putFive : List (Event ℕ ℕ) :=
  [.allocate, .write 0 5, .batchedSubmitPutTask [(7, 0)] []]

/-- The loop runs the coroutine up to its transfer. -/
def enterKey : List (Event ℕ ℕ) := [.start, .pop, .addKeyToDict]

/-- Another thread holds the page as well. -/
theorem stored_as_submitted_shared : ∃ s : State ℕ ℕ,
    ((system 1).restrict Kept).Reachable s ∧ s.completed 7 = some 5 ∧
      ∃ m b, s.keyDict.get? 7 = some m ∧ s.completed 7 = some b ∧ s.storage m.index = b := by
  obtain ⟨s, hs, hidle, hk, hcompleted⟩ := reachable_onePage.exists_guard
    (P := fun s => s.running = none ∧ s.contains 7 = true ∧ s.completed 7 = some 5)
    (fun _ _ _ => id)
    (putFive ++ [.share 0, .release 0] ++ enterKey ++ [.transfer true]) (by decide +kernel)
  exact ⟨s, hs, hcompleted, (stored_as_submitted hs).2.2 7 (by simp [published, hidle]) hk⟩

/-- The page is released after the put, allocated again and written to, and then the loop runs; a
key that is contained before its transfer; and one whose transfer has failed. -/
theorem stored_other_bytes :
    (∃ s : State ℕ ℕ, (system 1).Reachable s ∧ s.running = none ∧ s.contains 7 = true ∧
      s.completed 7 = some 5 ∧ s.storage 0 = 9) ∧
    (∃ s : State ℕ ℕ, (system 1).Reachable s ∧ s.contains 7 = true ∧ s.completed 7 = none) ∧
    ∃ s : State ℕ ℕ, (system 1).Reachable s ∧ s.running = none ∧ s.contains 7 = true ∧
      s.completed 7 = none := by
  refine ⟨?_, ?_, ?_⟩
  · exact reachable_onePage.of_restrict.exists_replay (fun _ _ _ => id)
      (putFive ++ [.release 0, .allocate, .write 0 9] ++ enterKey ++ [.transfer true])
      (by decide +kernel)
  · exact reachable_onePage.of_restrict.exists_replay (fun _ _ _ => id) (putFive ++ enterKey)
      (by decide +kernel)
  · exact reachable_onePage.of_restrict.exists_replay (fun _ _ _ => id)
      (putFive ++ enterKey ++ [.transfer false]) (by decide +kernel)

end State

end LMCache.Nixl
