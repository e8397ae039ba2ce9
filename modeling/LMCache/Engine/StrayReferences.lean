import LMCache.Engine.RetrievalMask

/-! # References of a retrieval

`batched_get` hands out each object with a reference that its caller has to drop.
`_process_tokens_internal` drops none; `retrieve` drops those of the chunk list.  So the objects
that do not get into the list keep a reference for ever, and their chunks cannot be evicted:

* the objects behind the first `None` of a location (`behindFailed`), and
* the fetched chunks that the final filter takes out of the list (`cutOff`).

**Main result**: `no_stray_references`. -/

namespace LMCache

open List

variable {K O : Type}

/-- The objects behind the first `None` of a location. -/
def behindFailed : List (ChunkInfo K × Option O) → List O
  | [] => []
  | (_, none) :: blocks => blocks.filterMap Prod.snd
  | (_, some _) :: blocks => behindFailed blocks

/-- All objects that `batched_get` has returned. -/
def gottenObjs (as : List (List (ChunkInfo K × Option O))) : List O :=
  as.flatMap fun blocks => blocks.filterMap Prod.snd

def lastFailed (as : List (List (ChunkInfo K × Option O))) : Option ℕ :=
  (as.map failed).foldl later none

/-- The objects of fetched chunks that the filter takes out. -/
def cutOff (as : List (List (ChunkInfo K × Option O))) : List O :=
  ((as.flatMap fetched).filter fun c => (lastFailed as).any fun f => f ≤ c.1.stop).map Prod.snd

/-- The reference counts after `retrieve`: one more for each object that it got, one less for each
chunk of the list. -/
def refsAfter [DecidableEq O] (refs : O → ℤ) (as : List (List (ChunkInfo K × Option O)))
    (r : Fetch K O) (o : O) : ℤ :=
  refs o + (gottenObjs as).count o - (r.reorderedChunks.map Prod.snd).count o

theorem filterMap_snd_eq (blocks : List (ChunkInfo K × Option O)) :
    blocks.filterMap Prod.snd = (fetched blocks).map Prod.snd ++ behindFailed blocks := by
  induction blocks with
  | nil => rfl
  | cons b blocks ih =>
    obtain ⟨c, _ | o⟩ := b
    · simp [fetched, behindFailed]
    · simp [fetched, behindFailed, ih]

theorem reorderedChunks_eq (getSize : O → ℕ) (as : List (List (ChunkInfo K × Option O))) (n : ℕ) :
    (fetchResult getSize as n).reorderedChunks =
      (as.flatMap fetched).filter fun c => !(lastFailed as).any fun f => f ≤ c.1.stop := by
  obtain ⟨h₁, -, h₃⟩ := fetchAll_eq getSize as ⟨[], 0, replicate n false, none⟩
  rw [nil_append] at h₁
  change _ = lastFailed as at h₃
  rw [fetchResult, ← h₃, ← h₁, cutFailed]
  cases (fetchAll getSize as ⟨[], 0, replicate n false, none⟩).lastFailedBlockStart with
  | none => simp
  | some f =>
    grind

variable [DecidableEq O]

/-- **The references that stay** are those of the objects behind a failed block and of the chunks
that are cut off. -/
theorem refsAfter_eq (refs : O → ℤ) (getSize : O → ℕ) (as : List (List (ChunkInfo K × Option O)))
    (n : ℕ) (o : O) :
    refsAfter refs as (fetchResult getSize as n) o =
      refs o + (as.flatMap behindFailed).count o + (cutOff as).count o := by
  have hgotten : (gottenObjs as).count o =
      ((as.flatMap fetched).map Prod.snd).count o + (as.flatMap behindFailed).count o := by
    unfold gottenObjs
    induction as with
    | nil => simp
    | cons blocks as ih =>
      simp only [flatMap_cons, map_append, count_append, filterMap_snd_eq] at ih ⊢
      omega
  have hsplit := ((filter_append_perm (fun c : ChunkInfo K × O => (lastFailed as).any fun f =>
    f ≤ c.1.stop) (as.flatMap fetched)).map Prod.snd).count_eq o
  rw [map_append, count_append] at hsplit
  rw [refsAfter, reorderedChunks_eq, hgotten, cutOff]
  omega

/-- **No reference is left over** exactly if no object is behind a failed one of its location, and
the final filter takes no chunk out. -/
theorem no_stray_references (db : ChunkedTokenDatabase K) (m : StorageManager K O)
    (getSize : O → ℕ) (pinned : Option String) (tokens : List ℤ) (mask : Option (List Bool))
    {chunkInfos : List (ChunkInfo K)} (h : db.processTokens tokens mask = .ok chunkInfos)
    (refs : O → ℤ) :
    let as := answers m pinned chunkInfos
    ∃ r, processTokensInternal db m getSize pinned tokens mask = .ok r ∧
      ((∀ o, refsAfter refs as r o = refs o) ↔
        (∀ blocks ∈ as, behindFailed blocks = []) ∧ ∀ c, IsFetched as c → BeforeCut as c.stop) := by
  intro as
  refine ⟨_, processTokensInternal_eq getSize h, ?_⟩
  have hcut : cutOff as = [] ↔ ∀ c, IsFetched as c → BeforeCut as c.stop := by
    rw [cutOff, map_eq_nil_iff, filter_eq_nil_iff]
    constructor
    · intro hall c hc
      obtain ⟨o, ho⟩ := (mem_flatMap_fetched as c).mpr hc
      have := hall _ ho
      rw [beforeCut_iff]
      intro f hf
      change f ∈ lastFailed as at hf
      rw [Option.mem_def.mp hf] at this
      simpa using this
    · rintro hall ⟨c, o⟩ hc hany
      have hbefore := hall c ((mem_flatMap_fetched as c).mp ⟨o, hc⟩)
      rw [beforeCut_iff] at hbefore
      cases hf : lastFailed as with
      | none => simp [hf] at hany
      | some f =>
        have hlt := hbefore f hf
        grind
  have hafter : ∀ o, refsAfter refs as (fetchResult getSize as tokens.length) o =
      refs o + (as.flatMap behindFailed).count o + (cutOff as).count o :=
    refsAfter_eq refs getSize as tokens.length
  show (∀ o, refsAfter refs as (fetchResult getSize as tokens.length) o = refs o) ↔ _
  simp only [← hcut, hafter]
  constructor
  · intro hrefs
    have hzero : ∀ o, (as.flatMap behindFailed).count o = 0 ∧ (cutOff as).count o = 0 := fun o => by
      have := hrefs o
      omega
    refine ⟨?_, eq_nil_iff_forall_not_mem.mpr fun o => count_eq_zero.mp (hzero o).2⟩
    rw [← flatMap_eq_nil_iff]
    exact eq_nil_iff_forall_not_mem.mpr fun o => count_eq_zero.mp (hzero o).1
  · rintro ⟨hbehind, hnil⟩ o
    rw [flatMap_eq_nil_iff.mpr hbehind, hnil]
    simp

def nothingGone : StorageManager ℤ ℕ where
  storageBackends := [listBackend "LocalCPUBackend" [some 7, some 8]]
  freeze := false
  bypassedBackends := []
  names_nodup := by decide

theorem no_stray_references_all :
    ∃ r, processTokensInternal pairDatabase nothingGone id none [1, 2, 3, 4] none = .ok r ∧
      ((∀ o, refsAfter (fun _ => 1) (answers nothingGone none [⟨4, 0, 2⟩, ⟨12, 2, 4⟩]) r o = 1) ↔
        (∀ blocks ∈ answers nothingGone none [⟨4, 0, 2⟩, ⟨12, 2, 4⟩], behindFailed blocks = []) ∧
        ∀ c, IsFetched (answers nothingGone none [⟨4, 0, 2⟩, ⟨12, 2, 4⟩]) c →
          BeforeCut (answers nothingGone none [⟨4, 0, 2⟩, ⟨12, 2, 4⟩]) c.stop) :=
  no_stray_references pairDatabase nothingGone id none [1, 2, 3, 4] none rfl fun _ => 1

/-- The second of three objects is gone: the first and the third keep their references. -/
def middleGone : StorageManager ℤ ℕ where
  storageBackends := [listBackend "LocalCPUBackend" [some 7, none, some 9]]
  freeze := false
  bypassedBackends := []
  names_nodup := by decide

theorem stray_references :
    ∃ r chunkInfos, pairDatabase.processTokens [1, 2, 3, 4, 5, 6] none = .ok chunkInfos ∧
      processTokensInternal pairDatabase middleGone id none [1, 2, 3, 4, 5, 6] none = .ok r ∧
      r.reorderedChunks = [] ∧
      refsAfter (fun _ => 1) (answers middleGone none chunkInfos) r 7 = 2 ∧
      refsAfter (fun _ => 1) (answers middleGone none chunkInfos) r 9 = 2 :=
  ⟨_, _, rfl, rfl, by decide, by decide, by decide⟩

end LMCache
