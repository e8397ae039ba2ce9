import LMCache.Engine.TokenDatabase

/-! # The segment token database

`SegmentTokenDatabase.process_tokens` cuts a token list at each window that equals the separator,
and names each segment by the hash of its tokens.

**Main result**: `segments_faithful`, exactly for the token lists that are not shorter than the
separator and in which no two separators overlap.  `segments_unfaithful` has one list of either
kind. -/

namespace LMCache

open List

structure SegmentTokenDatabase (K : Type) where
  sepTokens : List ℤ
  hashTokens : List ℤ → ℤ
  makeKeyByHash : ℤ → K

namespace SegmentTokenDatabase

variable {K : Type} (db : SegmentTokenDatabase K) (tokens : List ℤ)

def sepLen : ℕ := db.sepTokens.length

def keyOf (tokenChunk : List ℤ) : K := db.makeKeyByHash (db.hashTokens tokenChunk)

/-- The tokens `[start:stop]`. -/
def slice (start stop : ℕ) : List ℤ := (tokens.drop start).take (stop - start)

/-- The windows that equal the separator. -/
def separators : List ℕ :=
  (range (tokens.length - db.sepLen + 1)).filter fun idx =>
    slice tokens idx (idx + db.sepLen) = db.sepTokens

/-- The loop over the matches. -/
def splitLoop : ℕ → List ℕ → List (List ℤ)
  | start, [] => [tokens.drop start]
  | start, idx :: idxs => slice tokens start idx :: splitLoop (idx + db.sepLen) idxs

/-- The chunks that are yielded, and the exception at the end: a list that is shorter than the
separator is yielded, and then cut into windows as any other one. -/
def fastSplitBySubtensor : List (List ℤ) × Option PyError :=
  let whole := if db.sepLen = 0 ∨ tokens.length < db.sepLen then [tokens] else []
  if tokens.length < db.sepLen then
    (whole, some ⟨.runtimeError,
      s!"maximum size for tensor at dimension 0 is {tokens.length} but size is {db.sepLen}"⟩)
  else (whole ++ db.splitLoop tokens 0 (db.separators tokens), none)

/-- The loop of `process_tokens` over the chunks. -/
def chunkInfos (numFalses : ℕ) : ℕ → ℕ → List (List ℤ) → List (ChunkInfo K)
  | _, _, [] => []
  | idx, startIdx, tokenChunk :: tokenChunks =>
    let startIdx := startIdx + if 0 < idx then db.sepLen else 0
    let endIdx := startIdx + tokenChunk.length
    if startIdx < numFalses then chunkInfos numFalses (idx + 1) endIdx tokenChunks
    else ⟨db.keyOf tokenChunk, startIdx, endIdx⟩ ::
      chunkInfos numFalses (idx + 1) endIdx tokenChunks

def processTokens (mask : Option (List Bool)) : List (ChunkInfo K) × Option PyError :=
  let numFalses := ChunkedTokenDatabase.numFalses mask
  if numFalses < tokens.length then
    let tokenChunks := db.fastSplitBySubtensor tokens
    (db.chunkInfos numFalses 0 0 tokenChunks.1, tokenChunks.2)
  else ([], some ⟨.assertionError,
    "The number of Falses in the mask shouldn't be less than the length of tokens."⟩)

/-- There are separators at these positions, from `start` on, and no two of them overlap. -/
structure Apart (start : ℕ) (idxs : List ℕ) : Prop where
  isSep : ∀ i ∈ idxs, start ≤ i ∧ i ≤ tokens.length ∧ slice tokens i (i + db.sepLen) = db.sepTokens
  apart : idxs.Pairwise fun i j => i + db.sepLen ≤ j

variable {db tokens} {start idx : ℕ} {idxs : List ℕ}

theorem Apart.tail (h : db.Apart tokens start (idx :: idxs)) :
    db.Apart tokens (idx + db.sepLen) idxs := by
  obtain ⟨hfirst, happart⟩ := pairwise_cons.mp h.apart
  exact ⟨fun i hi => ⟨hfirst i hi, (h.isSep i (mem_cons_of_mem _ hi)).2⟩, happart⟩

theorem slice_append_drop (h : start ≤ idx) :
    slice tokens start idx ++ tokens.drop idx = tokens.drop start := by
  have hdrop := drop_take_append_drop tokens start (idx - start)
  rwa [Nat.add_sub_cancel' h] at hdrop

/-- **The loop over the matches** loses nothing but the separators. -/
theorem intercalate_splitLoop (h : db.Apart tokens start idxs) :
    intercalate db.sepTokens (db.splitLoop tokens start idxs) = tokens.drop start := by
  induction idxs generalizing start with
  | nil => simp [splitLoop, intercalate]
  | cons idx idxs ih =>
    obtain ⟨hle, -, hsep⟩ := h.isSep idx mem_cons_self
    have hne : db.splitLoop tokens (idx + db.sepLen) idxs ≠ [] := by
      cases idxs <;> exact cons_ne_nil _ _
    rw [splitLoop, intercalate_cons_of_ne_nil hne, ih h.tail, ← hsep, append_assoc,
      slice_append_drop (Nat.le_add_right _ _), slice_append_drop hle]

/-- **The loop over the chunks** finds them where they were cut. -/
theorem map_chunkInfos (h : db.Apart tokens start idxs) {n startIdx : ℕ}
    (hstart : startIdx + (if 0 < n then db.sepLen else 0) = start) :
    (db.chunkInfos 0 n startIdx (db.splitLoop tokens start idxs)).map
        (fun c => (slice tokens c.start c.stop, c.key)) =
      (db.splitLoop tokens start idxs).map fun chunk => (chunk, db.keyOf chunk) := by
  induction idxs generalizing start n startIdx with
  | nil => simp [splitLoop, chunkInfos, hstart, slice]
  | cons idx idxs ih =>
    obtain ⟨hle, hlt, -⟩ := h.isSep idx mem_cons_self
    have hlen : start + (slice tokens start idx).length = idx := by
      rw [slice, length_take, length_drop]
      omega
    simp [splitLoop, chunkInfos, hstart, hlen, ih h.tail]

theorem length_splitLoop_cons (hle : idx ≤ tokens.length) :
    (intercalate db.sepTokens (db.splitLoop tokens start (idx :: idxs))).length =
      idx - start + db.sepLen +
        (intercalate db.sepTokens (db.splitLoop tokens (idx + db.sepLen) idxs)).length := by
  have hne : db.splitLoop tokens (idx + db.sepLen) idxs ≠ [] := by
    cases idxs <;> exact cons_ne_nil _ _
  rw [splitLoop, intercalate_cons_of_ne_nil hne, length_append, length_append, slice, length_take,
    length_drop, sepLen]
  omega

variable (db start) in
/-- The segments and the separators cover the list. -/
theorem le_length_splitLoop (hle : ∀ i ∈ idxs, i ≤ tokens.length) : tokens.length ≤
    start + (intercalate db.sepTokens (db.splitLoop tokens start idxs)).length := by
  induction idxs generalizing start with
  | nil =>
    simp only [splitLoop, intercalate, intersperse, flatten_cons, flatten_nil, append_nil,
      length_drop]
    omega
  | cons idx idxs ih =>
    rw [length_splitLoop_cons (hle idx mem_cons_self)]
    have := ih (idx + db.sepLen) fun i hi => hle i (mem_cons_of_mem _ hi)
    omega

variable (start) in
/-- **An overlap** makes them longer than the list. -/
theorem apart_of_length_le (hle : ∀ i ∈ idxs, i ≤ tokens.length)
    (h : start + (intercalate db.sepTokens (db.splitLoop tokens start idxs)).length ≤
      tokens.length) :
    (∀ i ∈ idxs, start ≤ i) ∧ idxs.Pairwise fun i j => i + db.sepLen ≤ j := by
  induction idxs generalizing start with
  | nil => simp
  | cons idx idxs ih =>
    rw [length_splitLoop_cons (hle idx mem_cons_self)] at h
    have hrest := fun i hi => hle i (mem_cons_of_mem idx hi)
    have hcover := le_length_splitLoop db (idx + db.sepLen) hrest
    obtain ⟨hfirst, hapart⟩ := ih (idx + db.sepLen) hrest (by omega)
    refine ⟨forall_mem_cons.mpr ⟨by omega, fun i hi => ?_⟩, pairwise_cons.mpr ⟨hfirst, hapart⟩⟩
    have := hfirst i hi
    omega

/-- **Segments are faithful** exactly if the list is not shorter than the separator and no two
separators overlap: nothing is raised, each range that is yielded has the tokens that were hashed,
and the segments joined by the separator are the token list. -/
theorem segments_faithful (hsep : db.sepTokens ≠ []) (htokens : tokens ≠ []) :
    ((db.processTokens tokens none).2 = none ∧
      (db.processTokens tokens none).1.map (fun c => (slice tokens c.start c.stop, c.key)) =
        (db.fastSplitBySubtensor tokens).1.map (fun segment => (segment, db.keyOf segment)) ∧
      intercalate db.sepTokens (db.fastSplitBySubtensor tokens).1 = tokens) ↔
    db.sepLen ≤ tokens.length ∧
      (db.separators tokens).Pairwise fun i j => i + db.sepLen ≤ j := by
  have hpos : 0 < db.sepLen := length_pos_iff.mpr hsep
  have hfalses : ChunkedTokenDatabase.numFalses none < tokens.length := length_pos_iff.mpr htokens
  simp only [processTokens, if_pos hfalses]
  by_cases hlen : db.sepLen ≤ tokens.length
  · have hsplit : db.fastSplitBySubtensor tokens =
        (db.splitLoop tokens 0 (db.separators tokens), none) := by
      simp [fastSplitBySubtensor, hpos.ne', hlen.not_gt]
    have hfound : ∀ i ∈ db.separators tokens, i ≤ tokens.length ∧
        slice tokens i (i + db.sepLen) = db.sepTokens := fun i hi => by
      obtain ⟨hi, heq⟩ := mem_filter.mp hi
      have := mem_range.mp hi
      exact ⟨by omega, of_decide_eq_true heq⟩
    rw [hsplit, and_iff_right hlen]
    constructor
    · rintro ⟨-, -, hjoin⟩
      exact (apart_of_length_le 0 (fun i hi => (hfound i hi).1)
        (by rw [hjoin, Nat.zero_add])).2
    · intro hapart
      have hmatches : db.Apart tokens 0 (db.separators tokens) :=
        ⟨fun i hi => ⟨Nat.zero_le _, hfound i hi⟩, hapart⟩
      exact ⟨rfl, map_chunkInfos hmatches rfl, intercalate_splitLoop hmatches⟩
  · refine iff_of_false ?_ fun h => hlen h.1
    rintro ⟨hraised, -⟩
    simp [fastSplitBySubtensor, not_le.mp hlen] at hraised

/-- The separator is `[1, 1]`, and a chunk is hashed to the sum of its tokens. -/
def twoOnes : SegmentTokenDatabase ℤ := ⟨[1, 1], sum, id⟩

theorem segments_faithful_three : let tokens := [5, 1, 1, 6, 7, 1, 1]
    (twoOnes.processTokens tokens none).1 = [⟨5, 0, 1⟩, ⟨13, 3, 5⟩, ⟨0, 7, 7⟩] ∧
      intercalate [1, 1] (twoOnes.fastSplitBySubtensor tokens).1 = tokens := by
  intro tokens
  have hapart : twoOnes.sepLen ≤ tokens.length ∧
      (twoOnes.separators tokens).Pairwise fun i j => i + twoOnes.sepLen ≤ j := by decide
  exact ⟨by decide, ((segments_faithful (by decide) (by decide)).mpr hapart).2.2⟩

/-- **A short list** is yielded, and then the generator raises; and **overlapping separators** are
both cut out, so that four tokens come back for three. -/
theorem segments_unfaithful : (twoOnes.processTokens [5] none).2.isSome ∧
    ((twoOnes.processTokens [1, 1, 1] none).1.map fun c => (c.start, c.stop)) =
      [(0, 0), (2, 2), (4, 4)] ∧
    intercalate [1, 1] (twoOnes.fastSplitBySubtensor [1, 1, 1]).1 = [1, 1, 1, 1] := by
  decide

end SegmentTokenDatabase

end LMCache
