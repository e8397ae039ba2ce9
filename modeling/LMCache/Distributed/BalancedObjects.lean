import LMCache.Distributed.CollectedObjects

/-! # Every valid object is in one entry

The calls of the L1 manager, one by one, as `Collectable` asks for.

* **Answers.** The dictionary that a call returns has the last answer to each key, so the objects in
  it are those of the entries (`Returns`), although a key that occurs twice gets two objects.
* **New entries.** The objects of a batch are new and distinct (`Balanced.allocateNew`).

**Main result**: `settled_reachable`.  In every run of every configuration, the entries have
distinct valid objects, and every valid object is in an entry. -/

namespace LMCache

open List

variable {K : Type} [DecidableEq K] {clock : ℕ → ℤ} {m m' : L1Manager K}

open L1Manager

/-! ### Answers -/

/-- `ret[key] = …`. -/
def assign (ret : Dict K L1OperationResult) (a : Answer K L1OperationResult) :
    Dict K L1OperationResult := ret.set a.item a.result

/-- The objects in the dictionary are those of the entries. -/
def Returns (m : L1Manager K) (ret : Dict K L1OperationResult) : Prop :=
  ∀ key r i, ret.get? key = some (r, some i) → ∃ l, m.view key = some (i, l)

theorem returns_empty (m : L1Manager K) : Returns m .empty := by
  intro key r i hget
  cases hget

theorem Returns.owns {answers : List (Answer K L1OperationResult)}
    (h : Returns m (answers.foldl assign .empty)) : ∀ i ∈ returnedObjs answers, m.Owns i := by
  intro i hi
  obtain ⟨⟨key, r, o⟩, he, ho⟩ := mem_filterMap.mp hi
  obtain rfl : o = some i := ho
  have hget := Dict.get?_eq_some_iff.mpr he
  rw [Dict.ofList, foldl_map] at hget
  obtain ⟨l, hl⟩ := h key r i hget
  exact ⟨key, l, hl⟩

variable {ret : Dict K L1OperationResult}

theorem Returns.set (h : Returns m ret) {key : K} {result : L1OperationResult}
    (hresult : ∀ i, result.2 = some i → ∃ l, m.view key = some (i, l)) :
    Returns m (ret.set key result) := by
  intro key' r i hget
  rw [Dict.get?_set] at hget
  split_ifs at hget with hk
  · grind
  · exact h key' r i hget

theorem Returns.mono (h : Returns m ret)
    (hview : ∀ key i l, m.view key = some (i, l) → ∃ l', m'.view key = some (i, l')) :
    Returns m' ret := fun key r i hget =>
  let ⟨l, hl⟩ := h key r i hget
  hview key i l hl

/-! ### `reserve_write` -/

/-- The dictionary after an answer of the first loop. -/
def assignFirst (ret : Dict K L1OperationResult)
    (a : Answer (K × Bool) (Option L1OperationResult)) : Dict K L1OperationResult :=
  match a.result with
  | none => ret
  | some r => ret.set a.item.1 r

theorem foldl_assignFirst (answers : List (Answer (K × Bool) (Option L1OperationResult)))
    (ret : Dict K L1OperationResult) :
    answers.foldl assignFirst ret = (answered answers).foldl assign ret := by
  induction answers generalizing ret with
  | nil => rfl
  | cons a answers ih =>
    rw [foldl_cons, ih]
    cases hr : a.result with
    | none => simp [assignFirst, answered, hr]
    | some r => simp [assignFirst, answered, assign, hr]

theorem returns_first (clock : ℕ → ℤ) (mode : WriteMode) (items : List (K × Bool))
    (m : L1Manager K) :
    Returns (m.forItems clock (reserveWriteKey clock mode) items).2
      ((answered (m.forItems clock (reserveWriteKey clock mode) items).1).foldl assign .empty) := by
  rw [← foldl_assignFirst]
  refine (forItems_induct clock assignFirst (fun m' ret _ => Returns m' ret) (fun _ => True)
    (fun m' ret item _ h => ⟨trivial, ?_⟩) items (returns_empty m)).2
  have hkeep := (relocked_reserveWriteKey clock mode m' item).old
  have hmono : Returns (reserveWriteKey clock mode m' item).2 ret := h.mono fun key i l hl =>
    let ⟨l', hl', _⟩ := hkeep key i l hl
    ⟨l', hl'⟩
  unfold assignFirst
  split
  · exact hmono
  · rename_i r hr
    refine hmono.set fun i hi => ?_
    -- the first loop answers with an object only if there is an entry for it
    have hentry : ∃ l, m'.view item.1 = some (i, l) := by
      unfold answerOf reserveWriteKey at hr
      cases hl : m'.objects.lookup item.1 with
      | none => simp [hl] at hr
      | some e =>
        simp only [hl] at hr
        split_ifs at hr <;> cases hr
        · cases hi
        · cases hi
        · exact ⟨e.writeLock, Option.some.inj hi ▸ view_of_lookup hl⟩
    obtain ⟨l, hl⟩ := hentry
    obtain ⟨l', hl', -⟩ := hkeep item.1 i l hl
    exact ⟨l', hl'⟩

theorem Returns.answerAll (h : Returns m ret) (m₀ : L1Manager K) (keys : List K) (error : L1Error) :
    Returns m ((m₀.answerAll clock keys (error, none)).foldl assign ret) := by
  induction keys generalizing ret with
  | nil => exact h
  | cons key keys ih => exact ih (h.set nofun)

theorem Returns.allocateNew (h : Returns m ret) (clock : ℕ → ℤ) (y : Layout)
    (need : List (K × Bool)) :
    Returns (m.allocateNew clock y need).2 ((m.allocateNew clock y need).1.foldl assign ret) := by
  fun_cases allocateNew
  case case1 => exact Returns.answerAll h _ _ _
  case case2 allocated _ ids _ _ =>
    have h₀ : Returns { m with memoryManager := allocated.2 } ret := h
    rw [foldl_map]
    refine (forItems_induct clock
      (fun ret (a : Answer ((K × Bool) × ℕ) L1OperationResult) =>
        assign ret ⟨a.item.1.1, a.result, a.time⟩)
      (fun m' ret _ => Returns m' ret) (fun _ => True)
      (fun m' ret item _ h' => ⟨trivial, ?_⟩) (need.zip ids) h₀).2
    intro key r i hget
    rw [view_insertNew]
    simp only [assign, answerOf, Dict.get?_set] at hget
    split_ifs at hget with hk
    · obtain rfl : item.2 = i := by
        simpa [insertNew] using (congrArg Prod.snd (Option.some.inj hget))
      exact ⟨_, by rw [hk, Function.update_self]⟩
    · rw [Function.update_of_ne hk]
      exact h' key r i hget

/-- **New entries**: their objects are new, and distinct. -/
theorem Balanced.allocateNew (h : Balanced m) (clock : ℕ → ℤ) (y : Layout) {need : List (K × Bool)}
    (habsent : ∀ item ∈ need, m.view item.1 = none) {returned : List ℕ}
    (hret : ∀ i ∈ returned, (m.allocateNew clock y need).2.Owns i) :
    Collectable m (m.allocateNew clock y need).2 returned := by
  obtain ⟨hmemory, -, hview⟩ := allocateNew_effect clock m y need
  cases ha : m.memoryManager.allocate y need.length with
  | mk ids a =>
    rw [ha] at hmemory hview
    cases ids with
    | none =>
      refine (sameObjects_of_view ?_ (funext fun key => ?_)).collectable h hret
      · exact hmemory.trans (L1MemoryManager.allocate_eq_none ha)
      · grind
    | some ids =>
      obtain ⟨hids, hnew, hold⟩ := L1MemoryManager.allocate_eq_some ha
      have hgrows : m.memoryManager.pool.objs.length ≤ a.pool.objs.length :=
        le_of_forall_lt fun i hi => by
          grind
      have hlt := fun key i l hl => (h.live key i l hl).lt_length
      have hcases : ∀ key i l, (m.allocateNew clock y need).2.view key = some (i, l) →
          m.view key = some (i, l) ∨ ∃ item ∈ need.zip ids, item.1.1 = key ∧ item.2 = i := by
        grind
      have hfresh : ∀ item ∈ need.zip ids, m.memoryManager.pool.objs.length ≤ item.2 ∧
          a.pool.Live item.2 := fun item hitem => hnew item.2 (of_mem_zip hitem).2
      refine ⟨fun key i l hl => ?_, fun key key' i l l' hl hl' => ?_, fun i hi hlive => ?_, ?_,
        hret⟩
      · rw [hmemory]
        rcases hcases key i l hl with hl | ⟨item, hitem, -, rfl⟩
        · obtain ⟨o, ho, hv⟩ := h.live key i l hl
          exact ⟨o, (hold i (hlt key i l hl)).trans ho, hv⟩
        · exact (hfresh item hitem).2
      · have hnodup := hids.sublist (zip_sublist need ids).2
        have hinj := fun item hitem item' hitem' =>
          inj_on_of_nodup_map hnodup (x := item) hitem (y := item') hitem'
        have hdistinct := h.distinct key key' i l l'
        grind
      · rw [hmemory] at hlive
        obtain ⟨o, ho, hv⟩ := hlive
        obtain ⟨key, l, hl⟩ := h.owned i ⟨o, (hold i hi).symm.trans ho, hv⟩
        refine ⟨key, l, ?_⟩
        rcases hview key with hsame | ⟨_, hids', item, hitem, rfl, -⟩
        · exact hsame.trans hl
        · rw [habsent item.1 (of_mem_zip hitem).1] at hl
          cases hl
      · rw [hmemory]
        exact hgrows

theorem Balanced.reserveWrite (h : Balanced m) (clock : ℕ → ℤ) (keys : List K)
    (isTemporary : List Bool) (y : Layout) (mode : WriteMode) :
    Collectable m (m.reserveWrite clock keys isTemporary y mode).manager
      (returnedObjs (m.reserveWrite clock keys isTemporary y mode).answers) := by
  have hsame := SameObjects.of_relocked (relocked_loop clock mode (keys.zip isTemporary) m)
  have hfirst := returns_first clock mode (keys.zip isTemporary) m
  have habsent : ∀ item ∈ needToAllocate (m.forItems clock (reserveWriteKey clock mode)
      (keys.zip isTemporary)).1, (m.forItems clock (reserveWriteKey clock mode)
        (keys.zip isTemporary)).2.view item.1 = none := fun item hitem =>
    (relocked_loop clock mode (keys.zip isTemporary) m).absent _ (view_of_mem_needToAllocate hitem)
  fun_cases reserveWrite
  · exact hsame.collectable h hfirst.owns
  · refine hsame.collectable h (Returns.owns ?_)
    rw [foldl_append]
    exact hfirst.answerAll _ _ _
  · have hcoll := (h.sameObjects hsame).allocateNew clock y habsent (Returns.owns (by
      rw [foldl_append]
      exact hfirst.allocateNew clock y _))
    exact { hcoll with old := hsame.1 ▸ hcoll.old, grows := hsame.1 ▸ hcoll.grows }

/-! ### Runs -/

theorem removal_clear (m : L1Manager K) :
    Removal m { m with objects := ∅ }
      (m.objects.entries.map fun e => (e.1, e.2.memoryObj)) := by
  have hkeys : (m.objects.entries.map fun e => (e.1, e.2.memoryObj)).map Prod.fst =
      m.objects.keys := by
    rw [map_map]
    rfl
  refine ⟨rfl, le_rfl, hkeys ▸ m.objects.nodupKeys, fun p hp => ?_, fun key => ?_⟩
  · obtain ⟨e, he, rfl⟩ := mem_map.mp hp
    exact ⟨e.2.writeLock, view_of_lookup (AList.mem_lookup_iff.mpr he)⟩
  · rw [hkeys]
    split_ifs with hk
    · rfl
    · rw [← AList.mem_keys, ← AList.lookup_isSome, Bool.not_eq_true, Option.isSome_eq_false_iff,
        Option.isNone_iff_eq_none] at hk
      rw [view, view, hk]
      rfl

theorem sameObjects_finishWrite (clock : ℕ → ℤ) (keys : List K) (m : L1Manager K) :
    SameObjects m (m.finishWrite clock keys).manager := by
  refine forItems_keeps clock (SameObjects m) (fun m' key h => ?_) keys ⟨rfl, fun _ _ => Iff.rfl⟩
  obtain ⟨hmemory, -, ⟨-, hview⟩ | ⟨-, i, l, l', hl, hview⟩⟩ := view_finishWriteKey clock m' key
  · exact ⟨hmemory.trans h.1, hview ▸ h.2⟩
  · refine ⟨hmemory.trans h.1, fun k j => Iff.trans ?_ (h.2 k j)⟩
    by_cases hk : k = key <;> simp [hview, hk, hl]

/-- **A read** returns objects of entries, which stay. -/
theorem Balanced.keepsView (h : Balanced m) {f : L1Manager K → K → L1OperationResult × L1Manager K}
    (hq : KeepsView f)
    (hf : ∀ m key i, (f m key).1.2 = some i → ∃ l, m.view key = some (i, l)) (clock : ℕ → ℤ)
    (keys : List K) : Collectable m (m.forItems clock f keys).2
      (returnedObjs (m.forItems clock f keys).1) := by
  obtain ⟨hmemory, -, hview⟩ := hq.loop clock keys m
  refine (sameObjects_of_view hmemory hview).collectable h (Returns.owns ?_)
  refine (forItems_induct clock assign (fun m' ret _ => Returns m' ret) (fun _ => True)
    (fun m' ret key _ h => ⟨trivial, Returns.set (fun key r i hget => ?_) fun i hi => ?_⟩) keys
    (returns_empty m)).2
  · rw [(hq m' _).2.2]
    exact h key r i hget
  · rw [(hq m' key).2.2]
    exact hf m' key i hi

/-- **Every call** of a client. -/
theorem Balanced.call (h : Balanced m) (clock : ℕ → ℤ) {c : L1Call K}
    (hc : ∀ n, c ≠ .commitExpansion n) :
    Collectable m (c.run clock ⟨m, []⟩).manager (c.returned clock m) := by
  cases c with
  | reserveRead client keys =>
    refine h.keepsView (keepsView_reserveReadKey clock) (fun m key i hi => ?_) clock keys
    revert hi
    fun_cases reserveReadKey <;> rintro ⟨⟩
    exact ⟨_, view_of_lookup ‹_›⟩
  | unsafeRead keys =>
    refine h.keepsView (keepsView_unsafeReadKey clock) (fun m key i hi => ?_) clock keys
    revert hi
    fun_cases unsafeReadKey <;> rintro ⟨⟩
    exact ⟨_, view_of_lookup ‹_›⟩
  | finishRead client keys =>
    have hloop := (removing_finishReadKey clock).loop clock keys m
    have hcoll := h.removal hloop
    rw [map_snd_removedBy, ← hloop.memory] at hcoll
    exact hcoll
  | reserveWrite client keys isTemporary y mode =>
    exact h.reserveWrite clock keys isTemporary y mode
  | finishWrite client keys =>
    exact (sameObjects_finishWrite clock keys m).collectable h (by simp [L1Call.returned])
  | delete keys =>
    have hloop := (removing_deleteKey clock).loop clock keys m
    have hcoll := h.removal hloop
    rw [map_snd_removedBy, ← hloop.memory] at hcoll
    exact hcoll
  | clear =>
    have hcoll := h.removal (removal_clear m)
    rw [map_map] at hcoll
    show Collectable m m.clear.manager []
    fun_cases clear
    next hr =>
      have hempty : m.objects = ∅ := AList.ext (map_eq_nil_iff.mp
        ((L1MemoryManager.free_raises_iff h.uniform _).mp hr).2)
      rw [← hempty] at hcoll
      exact hcoll
    · exact hcoll
  | commitExpansion n => exact absurd rfl (hc n)

structure MemoryRun.Settled (s : MemoryRun K) : Prop where
  balanced : Balanced s.manager
  handedOut : ∀ i ∈ s.handedOut, i < s.manager.memoryManager.pool.objs.length

theorem MemoryRun.Settled.run {s : MemoryRun K} (h : s.Settled) {e : MemoryEvent K}
    (he : s.Allowed clock e) : (s.run clock e).Settled := by
  cases e with
  | call c held =>
    have hc : ∀ n, c ≠ .commitExpansion n := by
      rintro n rfl
      exact he
    have hheld : ∀ i ∈ held, i ∈ s.handedOut ++ c.returned clock s.manager := by
      cases c with
      | commitExpansion n => exact absurd rfl (hc n)
      | _ => exact he
    have hcoll := h.balanced.call clock hc
    refine ⟨hcoll.balanced (uniform_run h.balanced.uniform c) fun i hi => ?_, fun i hi => ?_⟩
    · exact (mem_append.mp (hheld i hi)).imp_left (h.handedOut i)
    · rw [MemoryRun.run, length_collect]
      rcases mem_append.mp hi with hold | hnew
      · exact (h.handedOut i hold).trans_le hcoll.grows
      · obtain ⟨key, l, hl⟩ := hcoll.returned i hnew
        exact (hcoll.live key i l hl).lt_length
  | expand =>
    unfold MemoryRun.run
    cases s.expander with
    | none => exact h
    | some x =>
      dsimp only
      cases x.step.2 with
      | none => exact ⟨h.balanced, h.handedOut⟩
      | some n => exact ⟨⟨h.balanced.uniform, h.balanced.live, h.balanced.distinct,
          h.balanced.owned⟩, h.handedOut⟩

theorem objs_createMemoryAllocator {config : L1MemoryManagerConfig} {a : L1MemoryManager}
    {x : Option Expander} (h : createMemoryAllocator config = .ok (a, x)) : a.pool.objs = [] := by
  unfold createMemoryAllocator LazyMemoryAllocator.new at h
  split_ifs at h
  · cases hx : Expander.new (min config.initSizeInBytes config.sizeInBytes) config.sizeInBytes
    all_goals
      rw [hx] at h
      cases h
    rfl
  · cases h
    rfl

/-- **Every valid object is in one entry**, in every run of every configuration. -/
theorem settled_reachable {config : L1MemoryManagerConfig} {s : MemoryRun K}
    (h : (memorySystem K clock config).Reachable s) : s.Settled := by
  refine h.invariant ?_ ?_
  · rintro s ⟨a, x, w, r, hnew, rfl⟩
    have hobjs := objs_createMemoryAllocator hnew
    have hview : ∀ key, view (⟨∅, a, w, r, 0⟩ : L1Manager K) key = none := fun key => rfl
    refine ⟨⟨fun o ho => ?_, fun key i l hl => ?_, fun key key' i l l' hl => ?_, fun i hi => ?_⟩,
      fun i hi => absurd hi not_mem_nil⟩
    · rw [hobjs] at ho
      cases ho
    · rw [hview] at hl
      cases hl
    · rw [hview] at hl
      cases hl
    · obtain ⟨o, ho, -⟩ := hi
      rw [hobjs] at ho
      cases ho
  · rintro s e s' hs ⟨he, rfl⟩
    exact hs.run he

end LMCache
