import LMCache.Engine.StorageManager

/-! # Retrieving the chunks of a request

`LMCacheEngine._process_tokens_internal` fetches the chunks of a token list location by
location.  In each location it stops at the first object that is `None`; the fetched chunks
are marked in `ret_mask`.  Afterwards everything from the last failed block on is cut off:
the mask is reset from the start of that block, and the chunk list keeps the chunks that
end before it.

`retMask_true_iff` and `mem_reorderedChunks_iff` describe the two results in terms of what
the backends answer: which chunks are fetched (`IsFetched`) and which blocks fail
(`IsFailed`). -/

namespace LMCache

open List

variable {K O : Type}

/-! ### The code -/

/-- `mask[start:stop] = value`. -/
def setRange (mask : List Bool) (start stop : ℕ) (value : Bool) : List Bool :=
  mask.mapIdx fun i b => if start ≤ i ∧ i < stop then value else b

/-- The variables of `_process_tokens_internal`. -/
structure Fetch (K O : Type) where
  reorderedChunks : List (ChunkInfo K × O)
  totKvSize : ℕ
  retMask : List Bool
  lastFailedBlockStart : Option ℕ
deriving DecidableEq, Repr

/-- The inner loop, over the blocks of a location with their objects. -/
def fetchBlocks (getSize : O → ℕ) : List (ChunkInfo K × Option O) → Fetch K O → Fetch K O
  | [], s => s
  | (c, none) :: _, s =>
    { s with
      lastFailedBlockStart :=
        match s.lastFailedBlockStart with
        | none => some c.start
        | some f => if f < c.start then some c.start else some f }
  | (c, some o) :: blocks, s =>
    fetchBlocks getSize blocks
      { s with
        reorderedChunks := s.reorderedChunks ++ [(c, o)]
        totKvSize := s.totKvSize + getSize o
        retMask := setRange s.retMask c.start c.stop true }

def fetchAll (getSize : O → ℕ) (as : List (List (ChunkInfo K × Option O))) (s : Fetch K O) :
    Fetch K O :=
  as.foldl (fun s blocks => fetchBlocks getSize blocks s) s

def cutFailed (s : Fetch K O) : Fetch K O :=
  match s.lastFailedBlockStart with
  | none => s
  | some f =>
    { s with
      retMask := setRange s.retMask f s.retMask.length false
      reorderedChunks := s.reorderedChunks.filter fun c => c.1.stop < f }

/-- The block mapping: all chunks at the single location pinned for the request, if there is
one, and else that of the storage manager. -/
def blockMapping (m : StorageManager K O) (pinned : Option String)
    (chunkInfos : List (ChunkInfo K)) :
    List (String × List (ChunkInfo K)) :=
  match pinned with
  | some location => [(location, chunkInfos)]
  | none => m.getBlockMapping chunkInfos

/-- For each location its blocks with the objects that `batched_get` answers. -/
def answers (m : StorageManager K O) (pinned : Option String) (chunkInfos : List (ChunkInfo K)) :
    List (List (ChunkInfo K × Option O)) :=
  (blockMapping m pinned chunkInfos).map fun (location, blocks) =>
    blocks.zip (m.batchedGet (blocks.map ChunkInfo.key) location)

/-- `LMCacheEngine._process_tokens_internal` with the mask that `retrieve` passes. -/
def processTokensInternal (db : ChunkedTokenDatabase K) (m : StorageManager K O)
    (getSize : O → ℕ) (pinned : Option String) (tokens : List ℤ) (mask : Option (List Bool)) :
    Except PyError (Fetch K O) := do
  let chunkInfos ← db.processTokens tokens mask
  return cutFailed (fetchAll getSize (answers m pinned chunkInfos)
    ⟨[], 0, List.replicate tokens.length false, none⟩)

/-! ### What the backends answer -/

/-- The blocks before the first `None`. -/
def fetched : List (ChunkInfo K × Option O) → List (ChunkInfo K × O)
  | [] => []
  | (_, none) :: _ => []
  | (c, some o) :: blocks => (c, o) :: fetched blocks

/-- The first block answered with `None`. -/
def failed : List (ChunkInfo K × Option O) → Option (ChunkInfo K)
  | [] => none
  | (c, none) :: _ => some c
  | (_, some _) :: blocks => failed blocks

/-- Some location answers the blocks up to `c` with objects. -/
def IsFetched (as : List (List (ChunkInfo K × Option O))) (c : ChunkInfo K) : Prop :=
  ∃ blocks ∈ as, ∃ o, (c, o) ∈ fetched blocks

/-- The block `c` is the first one that its location answers with `None`. -/
def IsFailed (as : List (List (ChunkInfo K × Option O))) (c : ChunkInfo K) : Prop :=
  ∃ blocks ∈ as, failed blocks = some c

/-! ### The loops -/

def markAll (mask : List Bool) (cs : List (ChunkInfo K × O)) : List Bool :=
  cs.foldl (fun mask c => setRange mask c.1.start c.1.stop true) mask

variable (mask : List Bool)

theorem getElem?_setRange (start stop : ℕ) (v : Bool) (i : ℕ) :
    (setRange mask start stop v)[i]? =
      mask[i]?.map fun b => if start ≤ i ∧ i < stop then v else b := by
  rw [setRange, getElem?_mapIdx]

@[simp] theorem length_setRange (start stop : ℕ) (v : Bool) :
    (setRange mask start stop v).length = mask.length := by simp [setRange]

theorem length_markAll (cs : List (ChunkInfo K × O)) : (markAll mask cs).length = mask.length := by
  induction cs generalizing mask with
  | nil => rfl
  | cons c cs ih => exact (ih _).trans (length_setRange ..)

theorem getElem?_markAll (cs : List (ChunkInfo K × O)) (i : ℕ) :
    (markAll mask cs)[i]? = some true ↔ mask[i]? = some true ∨
      i < mask.length ∧ ∃ c ∈ cs, c.1.start ≤ i ∧ i < c.1.stop := by
  induction cs generalizing mask with
  | nil => simp [markAll]
  | cons c cs ih =>
    have hstep := ih (setRange mask c.1.start c.1.stop true)
    rw [length_setRange, getElem?_setRange] at hstep
    show (markAll (setRange mask c.1.start c.1.stop true) cs)[i]? = some true ↔ _
    rw [hstep]
    by_cases hi : i < mask.length
    · rw [getElem?_eq_getElem hi]
      by_cases hc : c.1.start ≤ i ∧ i < c.1.stop <;> simp [hc, hi]
    · simp [hi]

/-- The start of the later one of two failed blocks. -/
def later (f : Option ℕ) (c : Option (ChunkInfo K)) : Option ℕ :=
  match f, c with
  | f, none => f
  | none, some c => some c.start
  | some f, some c => some (max f c.start)

theorem fetchBlocks_eq (getSize : O → ℕ) (blocks : List (ChunkInfo K × Option O)) (s : Fetch K O) :
    (fetchBlocks getSize blocks s).reorderedChunks = s.reorderedChunks ++ fetched blocks ∧
    (fetchBlocks getSize blocks s).retMask = markAll s.retMask (fetched blocks) ∧
    (fetchBlocks getSize blocks s).lastFailedBlockStart =
      later s.lastFailedBlockStart (failed blocks) := by
  fun_induction fetchBlocks getSize blocks s
  case case1 => exact ⟨(append_nil _).symm, rfl, rfl⟩
  case case2 s =>
    refine ⟨(append_nil _).symm, rfl, ?_⟩
    simp only [failed, later]
    cases s.lastFailedBlockStart with
    | none => rfl
    | some f =>
      dsimp only
      split_ifs with hlt
      · rw [max_eq_right hlt.le]
      · rw [max_eq_left (Nat.not_lt.mp hlt)]
  case case3 ih =>
    obtain ⟨h₁, h₂, h₃⟩ := ih
    exact ⟨h₁.trans (append_assoc ..), h₂, h₃⟩

theorem fetchAll_eq (getSize : O → ℕ) (as : List (List (ChunkInfo K × Option O))) (s : Fetch K O) :
    (fetchAll getSize as s).reorderedChunks = s.reorderedChunks ++ as.flatMap fetched ∧
    (fetchAll getSize as s).retMask = markAll s.retMask (as.flatMap fetched) ∧
    (fetchAll getSize as s).lastFailedBlockStart =
      (as.map failed).foldl later s.lastFailedBlockStart := by
  induction as generalizing s with
  | nil => exact ⟨(append_nil _).symm, rfl, rfl⟩
  | cons blocks as ih =>
    obtain ⟨h₁, h₂, h₃⟩ := fetchBlocks_eq getSize blocks s
    obtain ⟨h₁', h₂', h₃'⟩ := ih (fetchBlocks getSize blocks s)
    refine ⟨h₁'.trans ?_, h₂'.trans ?_, h₃'.trans ?_⟩
    · rw [h₁, append_assoc, flatMap_cons]
    · rw [h₂, flatMap_cons, markAll, markAll, markAll, foldl_append]
    · rw [h₃, map_cons, foldl_cons]

/-- The latest start is behind `i` exactly if a start is, or there is none. -/
theorem forall_foldl_later (cs : List (Option (ChunkInfo K))) (a : Option ℕ) (i : ℕ) :
    (∀ f ∈ cs.foldl later a, i < f) ↔ ((∃ f, f ∈ a) ∨ ∃ d, some d ∈ cs) →
      (∃ f ∈ a, i < f) ∨ ∃ d, some d ∈ cs ∧ i < d.start := by
  induction cs generalizing a with
  | nil => cases a <;> simp
  | cons c cs ih =>
    rw [foldl_cons, ih]
    cases c with
    | none => cases a <;> simp [later]
    | some d =>
      simp only [mem_cons, Option.some.injEq, exists_or, or_and_right, exists_eq_left]
      cases a with
      | none => simp [later]
      | some f => simp [later, or_assoc]

/-- No block has failed, or one has failed that starts behind `i`. -/
def BeforeCut (as : List (List (ChunkInfo K × Option O))) (i : ℕ) : Prop :=
  (∃ d, IsFailed as d) → ∃ d, IsFailed as d ∧ i < d.start

theorem beforeCut_iff (as : List (List (ChunkInfo K × Option O))) (i : ℕ) :
    BeforeCut as i ↔ ∀ f ∈ (as.map failed).foldl later none, i < f := by
  have hfailed : ∀ d, some d ∈ as.map failed ↔ IsFailed as d := fun d => mem_map
  simp only [forall_foldl_later, hfailed, BeforeCut]
  simp

section result
variable (getSize : O → ℕ) (as : List (List (ChunkInfo K × Option O))) (n : ℕ)

/-- What the function returns for the answers `as` on `n` tokens. -/
def fetchResult : Fetch K O :=
  cutFailed (fetchAll getSize as ⟨[], 0, List.replicate n false, none⟩)

theorem processTokensInternal_eq {db : ChunkedTokenDatabase K} {m : StorageManager K O}
    {pinned : Option String} {tokens : List ℤ} {mask : Option (List Bool)}
    {chunkInfos : List (ChunkInfo K)} (h : db.processTokens tokens mask = .ok chunkInfos) :
    processTokensInternal db m getSize pinned tokens mask =
      .ok (fetchResult getSize (answers m pinned chunkInfos) tokens.length) := by
  rw [processTokensInternal, h]
  rfl

theorem mem_flatMap_fetched (c : ChunkInfo K) :
    (∃ o, (c, o) ∈ as.flatMap fetched) ↔ IsFetched as c := by
  simp only [mem_flatMap, IsFetched]
  constructor
  · rintro ⟨o, blocks, hb, ho⟩
    exact ⟨blocks, hb, o, ho⟩
  · rintro ⟨blocks, hb, o, ho⟩
    exact ⟨o, blocks, hb, ho⟩

theorem mem_reorderedChunks_iff (c : ChunkInfo K) :
    (∃ o, (c, o) ∈ (fetchResult getSize as n).reorderedChunks) ↔
      IsFetched as c ∧ BeforeCut as c.stop := by
  obtain ⟨h₁, -, h₃⟩ := fetchAll_eq getSize as ⟨[], 0, replicate n false, none⟩
  rw [nil_append] at h₁
  rw [beforeCut_iff, ← mem_flatMap_fetched, ← h₁, ← h₃]
  unfold fetchResult cutFailed
  cases (fetchAll getSize as ⟨[], 0, replicate n false, none⟩).lastFailedBlockStart with
  | none => simp
  | some f => simp [mem_filter]

theorem retMask_true_iff (hn : ∀ c, IsFetched as c → c.stop ≤ n) (i : ℕ) :
    (fetchResult getSize as n).retMask[i]? = some true ↔
      (∃ c, IsFetched as c ∧ c.start ≤ i ∧ i < c.stop) ∧ BeforeCut as i := by
  obtain ⟨-, h₂, h₃⟩ := fetchAll_eq getSize as ⟨[], 0, replicate n false, none⟩
  have hmark : (fetchAll getSize as ⟨[], 0, replicate n false, none⟩).retMask[i]? = some true ↔
      ∃ c, IsFetched as c ∧ c.start ≤ i ∧ i < c.stop := by
    rw [h₂, getElem?_markAll, length_replicate]
    constructor
    · rintro (h | ⟨-, c, hc, hi⟩)
      · simp [getElem?_replicate] at h
      · exact ⟨c.1, (mem_flatMap_fetched as c.1).mp ⟨c.2, hc⟩, hi⟩
    · rintro ⟨c, hc, hi⟩
      obtain ⟨o, ho⟩ := (mem_flatMap_fetched as c).mpr hc
      exact Or.inr ⟨hi.2.trans_le (hn c hc), _, ho, hi⟩
  have hlen : (fetchAll getSize as ⟨[], 0, replicate n false, none⟩).retMask.length = n := by
    rw [h₂, length_markAll, length_replicate]
  rw [beforeCut_iff, ← h₃, ← hmark]
  unfold fetchResult cutFailed
  generalize fetchAll getSize as ⟨[], 0, replicate n false, none⟩ = s at hlen
  cases hf : s.lastFailedBlockStart with
  | none => simp
  | some f =>
    simp only [getElem?_setRange, Option.mem_def, Option.some.injEq, forall_eq']
    by_cases hi : i < s.retMask.length
    · rw [getElem?_eq_getElem hi]
      by_cases hfi : f ≤ i
      · simp [hfi, hi, Nat.not_lt.mpr hfi]
      · simp [hfi, Nat.lt_of_not_le hfi]
    · simp [hi]

end result

/-! ### The answers of a request -/

theorem mem_of_mem_fetched {blocks : List (ChunkInfo K × Option O)} {c : ChunkInfo K} {o : O}
    (h : (c, o) ∈ fetched blocks) : c ∈ blocks.map Prod.fst := by
  fun_induction fetched blocks
  case case3 ih =>
    rw [map_cons]
    rcases mem_cons.mp h with h | h
    · exact (Prod.mk.inj h).1 ▸ mem_cons_self
    · exact mem_cons_of_mem _ (ih h)
  all_goals nomatch h

theorem mem_of_failed {blocks : List (ChunkInfo K × Option O)} {d : ChunkInfo K}
    (h : failed blocks = some d) : d ∈ blocks.map Prod.fst := by
  fun_induction failed blocks with
  | case1 => nomatch h
  | case2 => exact (Option.some.inj h) ▸ mem_cons_self
  | case3 _ _ _ ih => exact mem_cons_of_mem _ (ih h)

theorem blockMapping_append (m : StorageManager K O) (pinned : Option String)
    (chunkInfos : List (ChunkInfo K)) :
    ∃ rest, (blockMapping m pinned chunkInfos).flatMap Prod.snd ++ rest = chunkInfos := by
  cases pinned with
  | none => exact m.getBlockMapping_append chunkInfos
  | some location => exact ⟨[], by simp [blockMapping]⟩

section request
variable {m : StorageManager K O} {pinned : Option String} {chunkInfos : List (ChunkInfo K)}
  {c : ChunkInfo K}

theorem mem_chunkInfos_of_mem_answers {blocks : List (ChunkInfo K × Option O)}
    (hb : blocks ∈ answers m pinned chunkInfos) (hc : c ∈ blocks.map Prod.fst) :
    c ∈ chunkInfos := by
  obtain ⟨⟨location, bs⟩, hmem, rfl⟩ := mem_map.mp hb
  obtain ⟨rest, hrest⟩ := blockMapping_append m pinned chunkInfos
  rw [← hrest]
  refine mem_append_left _ (mem_flatMap.mpr ⟨_, hmem, ?_⟩)
  obtain ⟨⟨c', o⟩, hco, rfl⟩ := mem_map.mp hc
  exact (of_mem_zip hco).1

theorem IsFetched.mem (h : IsFetched (answers m pinned chunkInfos) c) : c ∈ chunkInfos := by
  obtain ⟨blocks, hb, o, ho⟩ := h
  exact mem_chunkInfos_of_mem_answers hb (mem_of_mem_fetched ho)

theorem IsFailed.mem (h : IsFailed (answers m pinned chunkInfos) c) : c ∈ chunkInfos := by
  obtain ⟨blocks, hb, hf⟩ := h
  exact mem_chunkInfos_of_mem_answers hb (mem_of_failed hf)

end request

end LMCache
