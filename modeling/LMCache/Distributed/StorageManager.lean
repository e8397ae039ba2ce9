import LMCache.Distributed.EntryInvariant
import LMCache.Distributed.ReaderWriter
import LMCache.Lib.Dict

/-! # The storage manager of the multiprocess server

`StorageManager` is a thin layer over the L1 manager.  A prefetch locks the objects of a list of
keys for reading and gives the locks after the first miss back; the results of a prefetch are read
in a context manager, and the locks are given back by `finish_read_prefetched`.

* **Dictionaries.**  The L1 manager answers with a dictionary, so that a repeated key has one
  entry (`resultDict`).
* **The context manager.**  `read_prefetched_results` is a generator.  Its part before the `yield`
  is `readPrefetchedResults`; its part after it, `PrefetchedResults.exit`, depends on how the body
  of the `with` statement was left.  An exception of the body is thrown into the generator, which
  catches it: the statement after the `with` runs next.

In a quiet time (`submitPrefetchTask_spec`) a prefetch adds to each key as many readers as it has
occurrences among the leading readable keys, and reports the number of these. -/

namespace LMCache.Distributed

open List L1Manager

variable {K : Type} [DecidableEq K]

def resultDict {R : Type} (answers : List (Answer K R)) : Dict K R :=
  .ofList (answers.map fun a => (a.item, a.result))

section model
variable (clock : ℕ → ℤ)

/-! ### Writing -/

/-- `reserve_write`: the objects of the keys that could be reserved. -/
def reserveWrite (m : L1Manager K) (keys : List K) (layoutDesc : Layout) (mode : WriteMode) :
    Dict K ℕ × L1Manager K :=
  let o := m.reserveWrite clock keys (List.replicate keys.length false) layoutDesc mode
  (.ofList ((resultDict o.answers).entries.filterMap fun e => e.2.2.map fun obj => (e.1, obj)),
    o.manager)

def finishWrite (m : L1Manager K) (keys : List K) : L1Manager K :=
  (m.finishWrite clock keys).manager

/-! ### Prefetching -/

structure PrefetchHandle where
  prefixHitChunks : ℕ
deriving DecidableEq, Repr

/-- The first loop of `submit_prefetch_task`. -/
def hitCount (l1ReadResult : Dict K L1OperationResult) : List K → ℕ
  | [] => 0
  | key :: keys =>
    match l1ReadResult.get? key with
    | none => 0
    | some entry => if entry.1 ≠ .success then 0 else hitCount l1ReadResult keys + 1

/-- The second loop of `submit_prefetch_task`: the keys that are reserved. -/
def skippedKeys (l1ReadResult : Dict K L1OperationResult) (keys : List K) : List K :=
  keys.filter fun key => (l1ReadResult.get? key).any fun entry => entry.2.isSome

def submitPrefetchTask (m : L1Manager K) (keys : List K) :
    Except PyError PrefetchHandle × L1Manager K :=
  let o := m.reserveRead clock keys
  let l1ReadResult := resultDict o.answers
  let hits := hitCount l1ReadResult keys
  let skipped := skippedKeys l1ReadResult (keys.drop hits)
  if skipped.isEmpty then (.ok ⟨hits⟩, o.manager)
  else
    let o := o.manager.finishRead clock skipped
    match o.raised with
    | some e => (.error e, o.manager)
    | none => (.ok ⟨hits⟩, o.manager)

def queryPrefetchStatus (handle : PrefetchHandle) : Option ℕ := some handle.prefixHitChunks

/-! ### Reading the results -/

/-- How the body of a `with` statement is left. -/
inductive BodyExit where
  | fallThrough
  | returned
  | raised (e : PyError)
deriving DecidableEq, Repr

structure PrefetchedResults (K : Type) where
  goodKeys : List K
  goodObjs : List ℕ
  allGood : Bool
deriving DecidableEq, Repr

def PrefetchedResults.yielded (r : PrefetchedResults K) : Option (List ℕ) :=
  if r.allGood then some r.goodObjs else none

/-- The loop of `read_prefetched_results` over the answers. -/
def collectResults : List (K × L1OperationResult) → PrefetchedResults K
  | [] => ⟨[], [], true⟩
  | (key, _, obj) :: items =>
    let rest := collectResults items
    match obj with
    | none => { rest with allGood := false }
    | some obj => { rest with goodKeys := key :: rest.goodKeys, goodObjs := obj :: rest.goodObjs }

/-- `read_prefetched_results` up to the `yield`. -/
def readPrefetchedResults (m : L1Manager K) (keys : List K) :
    PrefetchedResults K × L1Manager K :=
  let o := m.unsafeRead clock keys
  (collectResults (resultDict o.answers).entries, o.manager)

/-- `read_prefetched_results` after the `yield`, with the exception that leaves it.  The exception
of the body does not. -/
def PrefetchedResults.exit (r : PrefetchedResults K) (m : L1Manager K) (body : BodyExit) :
    Option PyError × L1Manager K :=
  let successfullyYielded := match body with
    | .raised _ => false
    | _ => true
  if !r.allGood || !successfullyYielded then
    let o := m.finishRead clock r.goodKeys
    (o.raised, o.manager)
  else (none, m)

def finishReadPrefetched (m : L1Manager K) (keys : List K) : Option PyError × L1Manager K :=
  let o := m.finishRead clock keys
  (o.raised, o.manager)

end model

/-! ### Runs of the storage manager -/

section runs
variable {clock : ℕ → ℤ} {m : L1Manager K} {keys : List K}

/-- The manager after any calls of any clients that create no temporary objects. -/
def Reachable (clock : ℕ → ℤ) (m : L1Manager K) : Prop :=
  ∃ s, ((l1System K clock).restrict fun _ c => c.Creates (· = false)).Reachable s ∧ s.manager = m

variable (h : Reachable clock m)

include h

theorem Reachable.sound : m.Sound clock := by
  obtain ⟨s, hs, rfl⟩ := h
  exact sound_of_reachable hs

theorem Reachable.permanent (now : ℤ) : (m.cells now).Permanent := by
  obtain ⟨s, hs, rfl⟩ := h
  exact permanent_of_reachable hs now

theorem Reachable.call {c : L1Call K} (hc : c.Creates (· = false)) :
    Reachable clock (c.run clock ⟨m, []⟩).manager := by
  obtain ⟨s, hs, rfl⟩ := h
  refine ⟨_, hs.step ⟨hc, rfl⟩, ?_⟩
  cases c <;> rfl

theorem Reachable.reserveWrite (y : Layout) (mode : WriteMode) :
    Reachable clock (reserveWrite clock m keys y mode).2 :=
  h.call (c := .reserveWrite 0 keys (replicate keys.length false) y mode)
    fun _ hb => eq_of_mem_replicate hb

theorem Reachable.finishWrite : Reachable clock (finishWrite clock m keys) :=
  h.call (c := .finishWrite 0 keys) trivial

theorem Reachable.finishRead : Reachable clock (m.finishRead clock keys).manager :=
  h.call (c := .finishRead 0 keys) trivial

theorem Reachable.submitPrefetchTask : Reachable clock (submitPrefetchTask clock m keys).2 := by
  have hreserve : Reachable clock (m.reserveRead clock keys).manager :=
    h.call (c := .reserveRead 0 keys) trivial
  unfold Distributed.submitPrefetchTask
  dsimp only
  split_ifs
  · exact hreserve
  · split <;> exact hreserve.finishRead

end runs

/-! ### Counting read locks -/

section spec
variable {clock : ℕ → ℤ} {m m' : L1Manager K} {keys : List K} {c : Cells K}

/-- The number of read locks on a key, at the next reading of the clock. -/
def readers (clock : ℕ → ℤ) (m : L1Manager K) (key : K) : ℕ := (m.cells (clock m.ticks)).readers key

/-- The object is there and not write-locked, at the next reading of the clock. -/
def readable (clock : ℕ → ℤ) (m : L1Manager K) (key : K) : Bool :=
  (m.cells (clock m.ticks)).readable key

/-- A dictionary that answers each of the keys as it is. -/
def Answers (c : Cells K) (keys : List K) (d : Dict K L1OperationResult) : Prop :=
  ∀ key ∈ keys, d.get? key = some (c.reserve key).1

theorem hitCount_eq {d : Dict K L1OperationResult} (h : Answers c keys d) :
    hitCount d keys = (keys.takeWhile c.readable).length := by
  induction keys with
  | nil => rfl
  | cons key keys ih =>
    rw [hitCount, h key mem_cons_self]
    dsimp only
    by_cases hr : c.readable key = true
    · rw [if_neg (not_not.mpr (Cells.reserve_success_iff.mpr hr)), takeWhile_cons_of_pos hr,
        ih (forall_mem_cons.mp h).2, length_cons]
    · rw [if_pos fun hs => hr (Cells.reserve_success_iff.mp hs), takeWhile_cons_of_neg hr]
      rfl

theorem skippedKeys_eq {d : Dict K L1OperationResult} (h : Answers c keys d) {rest : List K}
    (hrest : rest ⊆ keys) : skippedKeys d rest = rest.filter c.readable := by
  apply filter_congr
  intro key hkey
  rw [h key (hrest hkey), Option.any_some, Cells.reserve_isSome_iff]

theorem readers_prefetch (c : Cells K) (keys : List K) (key : K) :
    (c.reserveAll keys).readers key -
        ((keys.drop (keys.takeWhile c.readable).length).filter c.readable).count key =
      c.readers key + (keys.takeWhile c.readable).count key := by
  have hsplit : keys.count key = (keys.takeWhile c.readable).count key +
      (keys.dropWhile c.readable).count key := by
    rw [← count_append, takeWhile_append_dropWhile]
  have hrest := @drop_left K (keys.takeWhile c.readable) (keys.dropWhile c.readable)
  rw [takeWhile_append_dropWhile] at hrest
  rw [Cells.readers_reserveAll, hrest]
  by_cases hr : c.readable key = true
  · rw [if_pos hr, count_filter hr]
    omega
  · have htake : (keys.takeWhile c.readable).count key = 0 :=
      count_eq_zero.mpr fun hmem => hr (mem_takeWhile_imp hmem)
    have hdrop : ((keys.dropWhile c.readable).filter c.readable).count key = 0 :=
      count_eq_zero.mpr fun hmem => hr (of_mem_filter hmem)
    rw [if_neg hr, htake, hdrop]
    omega

/-- **A prefetch** in a quiet time: its result, and the locks it leaves, whether it raises or
not. -/
theorem submitPrefetchTask_effect (hm : m.Sound clock)
    (hq : m.Quiet clock m.ticks (m.ticks + 5 * keys.length)) :
    let hits := keys.takeWhile (readable clock m)
    let skipped := (keys.drop hits.length).filter (readable clock m)
    ((submitPrefetchTask clock m keys).1 =
      match if skipped.isEmpty then none
        else ((m.reserveRead clock keys).manager.finishRead clock skipped).raised with
      | none => .ok ⟨hits.length⟩
      | some e => .error e) ∧
    ∀ key, readers clock (submitPrefetchTask clock m keys).2 key =
      readers clock m key + hits.count key := by
  obtain ⟨hanswers, hcells, hsteady, hticks⟩ :=
    (hm.steady hq).reserveRead keys (by omega)
  obtain ⟨c, hc⟩ : ∃ c, c = m.cells (clock m.ticks) := ⟨_, rfl⟩
  have hreaders : ∀ key, readers clock m key = c.readers key := by simp [readers, hc]
  have hreadable : readable clock m = c.readable := by
    funext key
    rw [readable, hc]
  rw [← hc] at hanswers hcells
  have hd : Answers c keys (resultDict (m.reserveRead clock keys).answers) := by
    intro key hkey
    rw [resultDict, hanswers, Dict.get?_ofList (v := (c.reserve key).1)]
    · simp [hkey]
    · intro e he hkey'
      obtain ⟨key', -, rfl⟩ := mem_map.mp he
      rw [show key' = key from hkey']
  -- at the end of the call the view is that of the first reading
  have hview : ∀ m' : L1Manager K, m'.Steady clock m.ticks (m.ticks + 5 * keys.length) →
      m'.ticks ≤ m.ticks + 5 * keys.length →
      ∀ key, readers clock m' key = (m'.cells (clock m.ticks)).readers key := by
    intro m' hm' hle key
    rw [readers, hm'.quiet.cells_eq hm'.le hle]
  have hcount := readers_prefetch c keys
  unfold submitPrefetchTask
  dsimp only
  rw [hitCount_eq hd, skippedKeys_eq hd (drop_subset _ _), hreadable]
  generalize hskipped :
    (keys.drop (keys.takeWhile c.readable).length).filter c.readable = skipped at hcount ⊢
  by_cases hempty : skipped.isEmpty = true
  · grind
  · have hlen : skipped.length ≤ keys.length := by
      grind
    obtain ⟨hcells', hsteady', hticks'⟩ := hsteady.finishRead skipped (by omega)
    have hexclusive : ∀ key ∈ skipped, (c.reserveAll keys).Exclusive key := by
      intro key hkey cell hcell hw
      have hr : c.readable key = true := by
        grind
      obtain ⟨cell', hcell', rfl⟩ := Option.map_eq_some_iff.mp hcell
      rw [Cells.readable, hcell', Option.any_some, Bool.not_eq_true'] at hr
      simp [hr] at hw
    have hend : ∀ key,
        readers clock ((m.reserveRead clock keys).manager.finishRead clock skipped).manager key =
          readers clock m key + (keys.takeWhile c.readable).count key := by
      intro key
      rw [hview _ hsteady' (by omega), hcells', hcells, Cells.readers_forKeys_finish hexclusive,
        hreaders, hcount]
    rw [if_neg hempty, if_neg hempty]
    split <;> rename_i hr <;> rw [hr] <;> exact ⟨rfl, hend⟩

theorem submitPrefetchTask_spec (hm : m.Sound clock)
    (hq : m.Quiet clock m.ticks (m.ticks + 5 * keys.length)) {handle : PrefetchHandle}
    (h : submitPrefetchTask clock m keys = (.ok handle, m')) :
    handle.prefixHitChunks = (keys.takeWhile (readable clock m)).length ∧
      ∀ key, readers clock m' key =
        readers clock m key + (keys.takeWhile (readable clock m)).count key := by
  obtain ⟨hresult, hreaders⟩ := submitPrefetchTask_effect hm hq
  rw [h] at hresult hreaders
  refine ⟨?_, hreaders⟩
  split at hresult
  · rw [Except.ok.inj hresult]
  · cases hresult

/-! ### The results of a prefetch -/

variable (items : List (K × L1OperationResult))

omit [DecidableEq K] in
theorem collectResults_eq :
    collectResults items = ⟨(items.filter fun e => e.2.2.isSome).map Prod.fst,
      items.filterMap fun e => e.2.2, items.all fun e => e.2.2.isSome⟩ := by
  induction items with
  | nil => rfl
  | cons e items ih =>
    obtain ⟨key, err, obj⟩ := e
    cases obj <;> simp [collectResults, ih]

theorem readPrefetchedResults_fst {lo hi : ℕ} (hm : m.Steady clock lo hi)
    (hhi : m.ticks + keys.length ≤ hi) :
    (readPrefetchedResults clock m keys).1 = collectResults
      (Dict.ofList (keys.map fun key => (key, ((m.cells (clock lo)).peek key).1))).entries := by
  rw [readPrefetchedResults, resultDict, (hm.unsafeRead keys hhi).1]

/-- **Distinct keys**: the results are those of the keys that are read-locked, in order. -/
theorem readPrefetchedResults_of_nodup {lo hi : ℕ} (hm : m.Steady clock lo hi)
    (hhi : m.ticks + keys.length ≤ hi) (hnodup : keys.Nodup) :
    (readPrefetchedResults clock m keys).1 =
      { goodKeys := keys.filter fun key => (m.cells (clock lo)).readers key ≠ 0
        goodObjs := keys.filterMap fun key => ((m.cells (clock lo)).peek key).1.2
        allGood := keys.all fun key => (m.cells (clock lo)).readers key ≠ 0 } := by
  have hsome : ∀ key, ((m.cells (clock lo)).peek key).1.2.isSome =
      decide ((m.cells (clock lo)).readers key ≠ 0) := by
    intro key
    rw [Bool.eq_iff_iff, Option.isSome_iff_ne_none, decide_eq_true_eq, ne_eq, ne_eq,
      Cells.peek_eq_none_iff]
  rw [readPrefetchedResults_fst hm hhi,
    Dict.entries_ofList (by simpa [Function.comp_def] using hnodup)]
  generalize hitems : keys.map (fun key => (key, ((m.cells (clock lo)).peek key).1)) = items
  have hr : collectResults items = ⟨(collectResults items).goodKeys,
    (collectResults items).goodObjs, (collectResults items).allGood⟩ := rfl
  rw [hr, collectResults_eq, ← hitems]
  simp [filter_map, filterMap_map, Function.comp_def, hsome]

/-- **A repeated key**: there are fewer objects than keys. -/
theorem length_goodObjs_lt {lo hi : ℕ} (hm : m.Steady clock lo hi)
    (hhi : m.ticks + keys.length ≤ hi) (hdup : ¬ keys.Nodup) :
    (readPrefetchedResults clock m keys).1.goodObjs.length < keys.length := by
  rw [readPrefetchedResults_fst hm hhi, collectResults_eq]
  refine (length_filterMap_le _ _).trans_lt ?_
  have hlt := Dict.length_ofList_lt
    (l := keys.map fun key => (key, ((m.cells (clock lo)).peek key).1))
    (by simpa [Function.comp_def] using hdup)
  rwa [length_map] at hlt

end spec

/-! ### A small manager -/

/-- A manager over 64 bytes whose locks live for one second, after a client has written the keys. -/
def written (clock : ℕ → ℤ) (keys : List K) : L1Manager K :=
  finishWrite clock
    (reserveWrite clock (.new true (.new 64 4 none) 1 1) keys smallLayout .new).2 keys

theorem written_reachable (clock : ℕ → ℤ) (keys : List K) :
    Reachable clock (written clock keys) := by
  have hinit : Reachable clock (.new true (.new 64 4 none) 1 1 : L1Manager K) :=
    ⟨_, .init ⟨true, 64, 2, none, 1, 1, rfl⟩, rfl⟩
  exact (hinit.reserveWrite smallLayout .new).finishWrite

end LMCache.Distributed
