import Mathlib.Data.List.Pairwise
import LMCache.Engine.Retrieval

/-! # When the mask of a retrieval is right

The mask and the chunk list that a retrieval returns are cut at the last failed block, the
mask from its start on and the list by the ends of the chunks.  The two cuts do not agree
on a chunk that ends where the last failed block starts, and the cut is made at the last
failed block although the hole begins at the first one.

`retMask_exact_iff` and `retMask_contiguous_iff` say for which answers of the storage
backends the mask is right all the same, and `retMask_not_exact` and
`retMask_not_contiguous` show answers for which it is not. -/

namespace LMCache

open List

variable {K O : Type}

/-! ### Exactness of the mask -/

/-- The positions marked are those of the chunks returned. -/
def Fetch.Exact (r : Fetch K O) : Prop :=
  ∀ i, r.retMask[i]? = some true ↔ ∃ c ∈ r.reorderedChunks, c.1.start ≤ i ∧ i < c.1.stop

/-- A chunk is fetched that ends where the last failed block starts. -/
def FetchedUpToLastFailed (as : List (List (ChunkInfo K × Option O))) : Prop :=
  ∃ c d, IsFetched as c ∧ IsFailed as d ∧ (∀ d', IsFailed as d' → d'.start ≤ d.start) ∧
    c.stop = d.start

theorem exact_iff (getSize : O → ℕ) {m : StorageManager K O} {pinned : Option String}
    {chunkInfos : List (ChunkInfo K)} {a b n : ℕ} (hcont : Contiguous a chunkInfos b)
    (hn : ∀ c ∈ chunkInfos, c.stop ≤ n) :
    (fetchResult getSize (answers m pinned chunkInfos) n).Exact ↔
      ¬ FetchedUpToLastFailed (answers m pinned chunkInfos) := by
  have hmask := retMask_true_iff getSize (answers m pinned chunkInfos) n fun c hc => hn c hc.mem
  have hkept := mem_reorderedChunks_iff getSize (answers m pinned chunkInfos) n
  constructor
  · rintro hexact ⟨c, d, hc, hd, hmax, hstop⟩
    have hlt := (hcont.bounds hc.mem).2.1
    have hmarked := (hmask c.start).mpr ⟨⟨c, hc, le_rfl, hlt⟩, fun _ => ⟨d, hd, hstop ▸ hlt⟩⟩
    obtain ⟨⟨c', o⟩, hc', hi⟩ := (hexact c.start).mp hmarked
    obtain ⟨hfetched, hcut⟩ := (hkept c').mp ⟨o, hc'⟩
    have heq := hcont.eq_of_mem hfetched.mem hc.mem hi ⟨le_rfl, hlt⟩
    obtain ⟨d', hd', hlt'⟩ := hcut ⟨d, hd⟩
    grind
  · intro hnone i
    rw [hmask i]
    constructor
    · rintro ⟨⟨c, hc, hi⟩, hcut⟩
      have hcut' : BeforeCut (answers m pinned chunkInfos) c.stop := by
        intro hfail
        obtain ⟨d, hd, hid⟩ := hcut hfail
        have hle := hcont.stop_le_of_start_lt hc.mem hd.mem (by omega)
        by_contra hno
        refine hnone ⟨c, d, hc, hd, fun d' hd' => ?_, ?_⟩
        all_goals grind
      grind
    · rintro ⟨⟨c, o⟩, ho, hi⟩
      have hi : c.start ≤ i ∧ i < c.stop := hi
      obtain ⟨hc, hcut⟩ := (hkept c).mp ⟨o, ho⟩
      refine ⟨⟨c, hc, hi⟩, fun hfail => ?_⟩
      obtain ⟨d, hd, hlt⟩ := hcut hfail
      exact ⟨d, hd, by omega⟩

/-- **The mask is exact** if and only if no fetched chunk ends where the last failed block
starts. -/
theorem retMask_exact_iff (db : ChunkedTokenDatabase K) (m : StorageManager K O)
    (getSize : O → ℕ) (pinned : Option String) (tokens : List ℤ) (mask : Option (List Bool))
    {chunkInfos : List (ChunkInfo K)} (h : db.processTokens tokens mask = .ok chunkInfos) :
    ∃ r, processTokensInternal db m getSize pinned tokens mask = .ok r ∧
      (r.Exact ↔ ¬ FetchedUpToLastFailed (answers m pinned chunkInfos)) := by
  obtain ⟨⟨b, hcont⟩, hn⟩ := db.processTokens_contiguous h
  exact ⟨_, processTokensInternal_eq getSize h, exact_iff getSize hcont hn⟩

/-- Chunks of two tokens, with a hash that adds up. -/
def pairDatabase : ChunkedTokenDatabase ℤ where
  chunkSize := 2
  saveUnfullChunk := true
  noneHash := 0
  hashFunc := fun prefixHash tokens => tokens.foldl (· + ·) (prefixHash + 1)
  makeKeyByHash := id
  chunkSize_pos := Nat.zero_lt_two

/-- A backend that holds all keys it is asked for, up to the number of its objects. -/
def listBackend (name : String) (objs : List (Option ℕ)) : StorageBackend ℤ ℕ where
  name := name
  batchedContains := fun keys => min keys.length objs.length
  batchedGetBlocking := fun keys => objs.takeD keys.length none

def secondGone : StorageManager ℤ ℕ where
  storageBackends := [listBackend "LocalCPUBackend" [some 7, none]]
  freeze := false
  bypassedBackends := []
  names_nodup := by decide

theorem retMask_exact_second_gone :
    ∃ r, processTokensInternal pairDatabase secondGone id none [1, 2, 3, 4] none = .ok r ∧
      (r.Exact ↔ ¬ FetchedUpToLastFailed (answers secondGone none
        [⟨4, 0, 2⟩, ⟨12, 2, 4⟩])) :=
  retMask_exact_iff pairDatabase secondGone id none [1, 2, 3, 4] none rfl

/-- The first chunk is fetched and the second one is not: the mask still marks the first two
tokens, but the chunk list is empty. -/
theorem retMask_not_exact :
    processTokensInternal pairDatabase secondGone id none [1, 2, 3, 4] none =
      .ok ⟨[], 7, [true, true, false, false], some 2⟩ ∧
    ¬ (⟨[], 7, [true, true, false, false], some 2⟩ : Fetch ℤ ℕ).Exact := by
  refine ⟨by decide, fun hexact => ?_⟩
  obtain ⟨c, hc, -⟩ := (hexact 0).mp rfl
  simp at hc

/-! ### Contiguity of the mask -/

theorem fetched_or_failed {blocks : List (ChunkInfo K)} {objs : List (Option O)} {a b : ℕ}
    (hlen : objs.length = blocks.length) (hcont : Contiguous a blocks b) {c : ChunkInfo K}
    (hc : c ∈ blocks) :
    (∃ o, (c, o) ∈ fetched (blocks.zip objs)) ∨
      ∃ d, failed (blocks.zip objs) = some d ∧ d.start ≤ c.start := by
  induction hcont generalizing objs with
  | nil => simp at hc
  | @cons e blocks b hlt hcont ih =>
    cases objs with
    | nil => simp at hlen
    | cons x objs =>
      rw [zip_cons_cons]
      cases x with
      | none =>
        refine Or.inr ⟨e, rfl, ?_⟩
        rcases mem_cons.mp hc with hc | hc
        · rw [hc]
        · have := hcont.bounds hc
          omega
      | some x =>
        rcases mem_cons.mp hc with hc | hc
        · exact Or.inl ⟨x, hc ▸ mem_cons_self⟩
        · rcases ih (by simpa using hlen) hc with h | h
          · obtain ⟨o, ho⟩ := h
            exact Or.inl ⟨o, mem_cons_of_mem _ ho⟩
          · exact Or.inr h

theorem fetched_append_failed (blocks : List (ChunkInfo K × Option O)) :
    ((fetched blocks).map Prod.fst ++ (failed blocks).toList).Sublist (blocks.map Prod.fst) := by
  induction blocks with
  | nil => exact List.Sublist.refl _
  | cons b blocks ih =>
    obtain ⟨c, x⟩ := b
    cases x with
    | none => simp [fetched, failed]
    | some x => exact ih.cons_cons c

theorem not_failed_of_fetched {as : List (List (ChunkInfo K × Option O))} {d : ChunkInfo K}
    (hnodup : (as.flatMap fun blocks => blocks.map Prod.fst).Nodup) (hf : IsFetched as d) :
    ¬ IsFailed as d := by
  obtain ⟨bs, hbs, o, ho⟩ := hf
  rintro ⟨bs', hbs', hd⟩
  obtain ⟨hone, htwo⟩ := nodup_flatMap.mp hnodup
  by_cases heq : bs = bs'
  · subst heq
    have hsub := (fetched_append_failed bs).nodup (hone bs hbs)
    grind
  · have hsymm : Std.Symm (Function.onFun Disjoint fun blocks : List (ChunkInfo K × Option O) =>
      blocks.map Prod.fst) := ⟨fun _ _ h => h.symm⟩
    exact htwo.forall hbs hbs' heq (mem_of_mem_fetched ho) (mem_of_failed hd)

/-- The positions marked are those from `start` to some end. -/
def Fetch.ContiguousFrom (r : Fetch K O) (start : ℕ) : Prop :=
  ∃ stop, ∀ i, r.retMask[i]? = some true ↔ start ≤ i ∧ i < stop

/-- A chunk is fetched that lies between two failed blocks. -/
def FetchedBetweenFailed (as : List (List (ChunkInfo K × Option O))) : Prop :=
  ∃ c d d', IsFetched as c ∧ IsFailed as d ∧ IsFailed as d' ∧ d.start < c.start ∧
    c.start < d'.start

section contiguous
variable {m : StorageManager K O} {pinned : Option String} {chunkInfos : List (ChunkInfo K)}
  (hlen : ∀ b ∈ m.storageBackends, ∀ keys, (b.batchedGetBlocking keys).length = keys.length)
include hlen

theorem length_answer (blocks : List (ChunkInfo K)) (location : String) :
    (m.batchedGet (blocks.map ChunkInfo.key) location).length = blocks.length := by
  rw [m.length_batchedGet location fun b hb => hlen b hb _, length_map]

theorem flatMap_answers :
    ((answers m pinned chunkInfos).flatMap fun blocks => blocks.map Prod.fst) =
      (blockMapping m pinned chunkInfos).flatMap Prod.snd := by
  rw [answers, flatMap_map]
  refine flatMap_congr fun x _ => ?_
  exact map_fst_zip (length_answer hlen x.2 x.1).ge

theorem isFetched_or_failed {a b : ℕ}
    (hcont : Contiguous a ((blockMapping m pinned chunkInfos).flatMap Prod.snd) b)
    {c : ChunkInfo K} (hc : c ∈ (blockMapping m pinned chunkInfos).flatMap Prod.snd) :
    IsFetched (answers m pinned chunkInfos) c ∨
      ∃ d, IsFailed (answers m pinned chunkInfos) d ∧ d.start ≤ c.start := by
  obtain ⟨x, hx, hcx⟩ := mem_flatMap.mp hc
  obtain ⟨a', b', hx'⟩ := hcont.of_flatMap hx
  have hmem : x.2.zip (m.batchedGet (x.2.map ChunkInfo.key) x.1) ∈ answers m pinned chunkInfos :=
    mem_map_of_mem hx
  rcases fetched_or_failed (length_answer hlen x.2 x.1) hx' hcx with h | h
  · obtain ⟨o, ho⟩ := h
    exact Or.inl ⟨_, hmem, o, ho⟩
  · obtain ⟨d, hd, hle⟩ := h
    exact Or.inr ⟨d, ⟨_, hmem, hd⟩, hle⟩

theorem not_covers_failed {a b : ℕ} (hcont : Contiguous a chunkInfos b) {c d : ChunkInfo K}
    (hc : IsFetched (answers m pinned chunkInfos) c)
    (hd : IsFailed (answers m pinned chunkInfos) d) : ¬ (c.start ≤ d.start ∧ d.start < c.stop) := by
  intro hcov
  have heq := hcont.eq_of_mem hc.mem hd.mem hcov ⟨le_rfl, (hcont.bounds hd.mem).2.1⟩
  subst heq
  obtain ⟨rest, hrest⟩ := blockMapping_append m pinned chunkInfos
  rw [← hrest] at hcont
  obtain ⟨e, hblocks, -⟩ := hcont.of_append
  have hnodup := hblocks.nodup
  rw [← flatMap_answers hlen] at hnodup
  exact not_failed_of_fetched hnodup hc hd

theorem contiguousFrom_iff (getSize : O → ℕ) {a b n : ℕ} (hcont : Contiguous a chunkInfos b)
    (hn : ∀ c ∈ chunkInfos, c.stop ≤ n) :
    (fetchResult getSize (answers m pinned chunkInfos) n).ContiguousFrom a ↔
      ¬ FetchedBetweenFailed (answers m pinned chunkInfos) := by
  have hmask := retMask_true_iff getSize (answers m pinned chunkInfos) n fun c hc => hn c hc.mem
  obtain ⟨rest, hrest⟩ := blockMapping_append m pinned chunkInfos
  obtain ⟨e, hblocks, -⟩ := (hrest ▸ hcont : Contiguous a (_ ++ rest) b).of_append
  constructor
  · rintro ⟨stop, hrun⟩ ⟨c, d, d', hc, hd, hd', hlt, hlt'⟩
    have hcc := (hcont.bounds hc.mem).2.1
    have hda := (hcont.bounds hd.mem).1
    have hmarked := (hmask c.start).mpr ⟨⟨c, hc, le_rfl, hcc⟩, fun _ => ⟨d', hd', hlt'⟩⟩
    have hstop := ((hrun c.start).mp hmarked).2
    obtain ⟨⟨c', hc', hcov⟩, -⟩ := (hmask d.start).mp ((hrun d.start).mpr ⟨hda, by omega⟩)
    exact not_covers_failed hlen hcont hc' hd hcov
  · intro hnone
    by_cases hfail : ∃ d, IsFailed (answers m pinned chunkInfos) d
    · -- the run ends where the first failed block starts
      obtain ⟨d, hd⟩ := hfail
      obtain ⟨d₀, hd₀, hmin⟩ := (measure ChunkInfo.start).wf.has_min
        {d | IsFailed (answers m pinned chunkInfos) d} ⟨d, hd⟩
      have hmin : ∀ d, IsFailed (answers m pinned chunkInfos) d → d₀.start ≤ d.start :=
        fun d hd => Nat.not_lt.mp (hmin d hd)
      refine ⟨d₀.start, fun i => ?_⟩
      rw [hmask i]
      constructor
      · rintro ⟨⟨c, hc, hi⟩, hcut⟩
        have hac := (hcont.bounds hc.mem).1
        refine ⟨hac.trans hi.1, ?_⟩
        by_contra hle
        obtain ⟨d', hd', hid'⟩ := hcut ⟨d₀, hd₀⟩
        by_cases hlt : d₀.start < c.start
        · exact hnone ⟨c, d₀, d', hc, hd₀, hd', hlt, by omega⟩
        · exact not_covers_failed hlen hcont hc hd₀ ⟨by omega, by omega⟩
      · rintro ⟨hai, hi⟩
        have hd₀mem : d₀ ∈ (blockMapping m pinned chunkInfos).flatMap Prod.snd := by
          obtain ⟨blocks, hb, hf⟩ := hd₀
          rw [← flatMap_answers hlen]
          exact mem_flatMap.mpr ⟨blocks, hb, mem_of_failed hf⟩
        have hbound := hblocks.bounds hd₀mem
        obtain ⟨c, hc, hci⟩ := (hblocks.exists_mem_iff i).mpr ⟨hai, by omega⟩
        refine ⟨⟨c, ?_, hci⟩, fun _ => ⟨d₀, hd₀, hi⟩⟩
        refine (isFetched_or_failed hlen hblocks hc).resolve_right ?_
        grind
    · -- without a failure every block is fetched
      refine ⟨e, fun i => ?_⟩
      rw [hmask i, ← hblocks.exists_mem_iff i]
      constructor
      · rintro ⟨⟨c, hc, hi⟩, -⟩
        obtain ⟨blocks, hb, o, ho⟩ := hc
        refine ⟨c, ?_, hi⟩
        rw [← flatMap_answers hlen]
        exact mem_flatMap.mpr ⟨blocks, hb, mem_of_mem_fetched ho⟩
      · rintro ⟨c, hc, hi⟩
        refine ⟨⟨c, ?_, hi⟩, fun h => absurd h hfail⟩
        refine (isFetched_or_failed hlen hblocks hc).resolve_right ?_
        grind

end contiguous

theorem numFalses_replicate (k n : ℕ) :
    ChunkedTokenDatabase.numFalses (some (replicate k false ++ replicate n true)) = k := by
  simp [ChunkedTokenDatabase.numFalses, count_append, count_replicate]

/-- **The mask is one run from the first unmasked token on** if and only if no chunk is
fetched between two failed blocks, for backends that answer every key. -/
theorem retMask_contiguous_iff (db : ChunkedTokenDatabase K) (m : StorageManager K O)
    (getSize : O → ℕ) (pinned : Option String) (tokens : List ℤ) {mask : Option (List Bool)}
    {k n : ℕ}
    (hmask : mask = some (List.replicate (k * db.chunkSize) false ++ List.replicate n true) ∨
      mask = none ∧ k = 0)
    (hlen : ∀ b ∈ m.storageBackends, ∀ keys, (b.batchedGetBlocking keys).length = keys.length) :
    ∃ chunkInfos r, db.processTokens tokens mask = .ok chunkInfos ∧
      processTokensInternal db m getSize pinned tokens mask = .ok r ∧
      (r.ContiguousFrom (k * db.chunkSize) ↔
        ¬ FetchedBetweenFailed (answers m pinned chunkInfos)) := by
  have hfalses : ChunkedTokenDatabase.numFalses mask = k * db.chunkSize := by
    rcases hmask with rfl | ⟨rfl, rfl⟩
    · exact numFalses_replicate _ _
    · exact (Nat.zero_mul _).symm
  have hok : ∃ chunkInfos, db.processTokens tokens mask = .ok chunkInfos := by
    refine ⟨_, if_neg ?_⟩
    simp_all
  obtain ⟨chunkInfos, h⟩ := hok
  obtain ⟨⟨b, hcont⟩, hn⟩ := db.processTokens_contiguous h
  rw [hfalses] at hcont
  exact ⟨chunkInfos, _, h, processTokensInternal_eq getSize h,
    contiguousFrom_iff hlen getSize hcont hn⟩

def bothSecondGone : StorageManager ℤ ℕ where
  storageBackends := [listBackend "LocalCPUBackend" [some 7, none],
    listBackend "LocalDiskBackend" [some 8, none]]
  freeze := false
  bypassedBackends := []
  names_nodup := by decide

theorem length_listBackend (name : String) (objs : List (Option ℕ)) (keys : List ℤ) :
    ((listBackend name objs).batchedGetBlocking keys).length = keys.length :=
  takeD_length _ _ _

theorem retMask_contiguous_both_gone :
    ∃ chunkInfos r,
      pairDatabase.processTokens [0, 0, 1, 2, 3, 4] (some [false, false, true, true, true, true]) =
        .ok chunkInfos ∧
      processTokensInternal pairDatabase bothSecondGone id none [0, 0, 1, 2, 3, 4]
        (some [false, false, true, true, true, true]) = .ok r ∧
      (r.ContiguousFrom (1 * 2) ↔
        ¬ FetchedBetweenFailed (answers bothSecondGone none chunkInfos)) :=
  retMask_contiguous_iff pairDatabase bothSecondGone id none [0, 0, 1, 2, 3, 4] (k := 1) (n := 4)
    (Or.inl rfl) fun b hb keys => by
      simp only [bothSecondGone, mem_cons, not_mem_nil, or_false] at hb
      rcases hb with rfl | rfl
      all_goals exact length_listBackend _ _ _

/-- Each backend delivers its first chunk and fails at its second one: the chunk behind the
first failure stays marked. -/
theorem retMask_not_contiguous :
    ∃ r, processTokensInternal pairDatabase bothSecondGone id none [1, 2, 3, 4, 5, 6, 7, 8] none =
        .ok r ∧
      r.retMask = [true, true, false, false, true, true, false, false] ∧
      ¬ r.ContiguousFrom 0 := by
  refine ⟨_, rfl, by decide, ?_⟩
  rintro ⟨stop, hrun⟩
  have h4 := (hrun 4).mp (by decide)
  have h2 := (hrun 2).mpr ⟨Nat.zero_le _, by omega⟩
  revert h2
  decide

end LMCache
