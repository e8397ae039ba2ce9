import Mathlib.Algebra.BigOperators.Ring.Finset
import Mathlib.Data.Int.ConditionallyCompleteOrder
import LMCache.Python

/-! # The chunked token database

`ChunkedTokenDatabase.process_tokens` cuts a token list into chunks of `chunk_size` tokens
and names each chunk by a hash of its tokens and of the chunk before it.  The hash function
and the hash of the empty prefix come from a library and are fields of the database, as is
the function that makes a `CacheEngineKey` of a hash.

A mask is a list of flags whose `False`s are expected to stand in front; only their number
is used.  `processTokens_contiguous` states that the chunks returned follow each other
without a gap, from the first token behind the mask on. -/

namespace LMCache

open List

/-- One chunk of the token list: its key and the positions `[start, stop)` of its tokens. -/
structure ChunkInfo (K : Type) where
  key : K
  start : ℕ
  stop : ℕ
deriving DecidableEq, Repr

/-- The fields of `ChunkedTokenDatabase`; tokens and hashes are integers. -/
structure ChunkedTokenDatabase (K : Type) where
  chunkSize : ℕ
  saveUnfullChunk : Bool
  noneHash : ℤ
  hashFunc : ℤ → List ℤ → ℤ
  makeKeyByHash : ℤ → K
  chunkSize_pos : 0 < chunkSize

namespace ChunkedTokenDatabase

variable {K : Type} (db : ChunkedTokenDatabase K)

def chunkTokens (tokens : List ℤ) : List (List ℤ) :=
  let stop := if db.saveUnfullChunk then tokens.length
    else tokens.length - tokens.length % db.chunkSize
  (List.range ((stop + db.chunkSize - 1) / db.chunkSize)).map fun i =>
    (tokens.drop (i * db.chunkSize)).take db.chunkSize

/-- `_prefix_hash`, from the hash of the tokens before. -/
def prefixHashes : ℤ → List (List ℤ) → List ℤ
  | _, [] => []
  | prefixHash, tokenChunk :: tokenChunks =>
    let hash := db.hashFunc prefixHash tokenChunk
    hash :: prefixHashes hash tokenChunks

/-- `mask.numel() - mask.long().sum()`. -/
def numFalses (mask : Option (List Bool)) : ℕ :=
  match mask with
  | some mask => mask.length - mask.count true
  | none => 0

/-- The loop of `process_tokens` over the hashes, from chunk number `chunkId` on. -/
def chunkInfos (totalLen numFalses : ℕ) : ℕ → List ℤ → List (ChunkInfo K)
  | _, [] => []
  | chunkId, hashVal :: hashVals =>
    let startIdx := chunkId * db.chunkSize
    let endIdx := min (startIdx + db.chunkSize) totalLen
    if startIdx < numFalses then chunkInfos totalLen numFalses (chunkId + 1) hashVals
    else ⟨db.makeKeyByHash hashVal, startIdx, endIdx⟩ ::
      chunkInfos totalLen numFalses (chunkId + 1) hashVals

/-- `ChunkedTokenDatabase.process_tokens` on tokens. -/
def processTokens (tokens : List ℤ) (mask : Option (List Bool)) :
    Except PyError (List (ChunkInfo K)) :=
  if numFalses mask % db.chunkSize ≠ 0 then
    .error ⟨.valueError, "The number of Falses in the mask is not a multiple of the chunk size."⟩
  else
    .ok (db.chunkInfos tokens.length (numFalses mask) 0
      (db.prefixHashes db.noneHash (db.chunkTokens tokens)))

end ChunkedTokenDatabase

/-! ### Contiguous chunks -/

/-- The non-empty chunks of the list follow each other and cover `[a, b)`. -/
inductive Contiguous {K : Type} : ℕ → List (ChunkInfo K) → ℕ → Prop
  | nil (a : ℕ) : Contiguous a [] a
  | cons {c : ChunkInfo K} {cs : List (ChunkInfo K)} {b : ℕ} :
      c.start < c.stop → Contiguous c.stop cs b → Contiguous c.start (c :: cs) b

namespace Contiguous

variable {K : Type} {a b : ℕ} {cs cs₁ cs₂ : List (ChunkInfo K)} {c : ChunkInfo K}
  (h : Contiguous a cs b)

include h

theorem le : a ≤ b := by
  induction h with
  | nil => exact le_rfl
  | cons hlt _ ih => omega

omit h in
theorem of_append (h : Contiguous a (cs₁ ++ cs₂) b) :
    ∃ m, Contiguous a cs₁ m ∧ Contiguous m cs₂ b := by
  induction cs₁ generalizing a with
  | nil => exact ⟨a, .nil a, h⟩
  | cons c cs₁ ih =>
    cases h with
    | cons hlt h =>
      obtain ⟨m, h₁, h₂⟩ := ih h
      exact ⟨m, .cons hlt h₁, h₂⟩

theorem bounds (hc : c ∈ cs) : a ≤ c.start ∧ c.start < c.stop ∧ c.stop ≤ b := by
  induction h with
  | nil => simp at hc
  | cons hlt h ih =>
    rcases mem_cons.mp hc with rfl | hc
    · exact ⟨le_rfl, hlt, h.le⟩
    · grind

theorem exists_mem_iff (i : ℕ) : (∃ c ∈ cs, c.start ≤ i ∧ i < c.stop) ↔ a ≤ i ∧ i < b := by
  constructor
  · rintro ⟨c, hc, h₁, h₂⟩
    have := h.bounds hc
    omega
  · rintro ⟨hai, hib⟩
    induction h with
    | nil => omega
    | @cons c cs b hlt h ih =>
      grind

theorem nodup : cs.Nodup := by
  induction h with
  | nil => exact nodup_nil
  | cons hlt h ih =>
    refine nodup_cons.mpr ⟨fun hc => ?_, ih⟩
    have := (h.bounds hc).1
    omega

omit h in
theorem of_flatMap {α : Type} {f : α → List (ChunkInfo K)} {xs : List α} {x : α}
    (h : Contiguous a (xs.flatMap f) b) (hx : x ∈ xs) : ∃ a' b', Contiguous a' (f x) b' := by
  induction xs generalizing a with
  | nil => simp at hx
  | cons y xs ih =>
    rw [flatMap_cons] at h
    obtain ⟨m, h₁, h₂⟩ := h.of_append
    grind

variable {d : ChunkInfo K}

theorem stop_le_or (hc : c ∈ cs) (hd : d ∈ cs) : c = d ∨ c.stop ≤ d.start ∨ d.stop ≤ c.start := by
  induction h with
  | nil => simp at hc
  | cons _ h ih =>
    rcases mem_cons.mp hc with hc | hc
    · rcases mem_cons.mp hd with hd | hd
      · exact Or.inl (hc.trans hd.symm)
      · exact Or.inr (Or.inl (hc ▸ (h.bounds hd).1))
    · rcases mem_cons.mp hd with hd | hd
      · exact Or.inr (Or.inr (hd ▸ (h.bounds hc).1))
      · exact ih hc hd

theorem stop_le_of_start_lt (hc : c ∈ cs) (hd : d ∈ cs)
    (hlt : c.start < d.start) : c.stop ≤ d.start := by
  have hdd := h.bounds hd
  rcases h.stop_le_or hc hd with rfl | hle | hle
  · omega
  · exact hle
  · omega

theorem eq_of_mem (hc : c ∈ cs) (hd : d ∈ cs) {i : ℕ}
    (hci : c.start ≤ i ∧ i < c.stop) (hdi : d.start ≤ i ∧ i < d.stop) : c = d := by
  rcases h.stop_le_or hc hd with heq | hle | hle
  · exact heq
  · omega
  · omega

end Contiguous

/-! ### The chunks of a token list -/

namespace ChunkedTokenDatabase

variable {K : Type} (db : ChunkedTokenDatabase K)

theorem length_prefixHashes (prefixHash : ℤ) (tokenChunks : List (List ℤ)) :
    (db.prefixHashes prefixHash tokenChunks).length = tokenChunks.length := by
  induction tokenChunks generalizing prefixHash with
  | nil => rfl
  | cons tokenChunk tokenChunks ih => exact congrArg Nat.succ (ih _)

theorem mul_chunkSize_lt_length {tokens : List ℤ} {i : ℕ}
    (h : i < (db.chunkTokens tokens).length) : i * db.chunkSize < tokens.length := by
  have hpos := db.chunkSize_pos
  simp only [chunkTokens, length_map, length_range] at h
  have hstop : (if db.saveUnfullChunk then tokens.length
      else tokens.length - tokens.length % db.chunkSize) ≤ tokens.length := by
    split_ifs <;> omega
  generalize (if db.saveUnfullChunk then tokens.length
      else tokens.length - tokens.length % db.chunkSize) = stop at *
  have h1 : (i + 1) * db.chunkSize ≤ stop + db.chunkSize - 1 :=
    (Nat.le_div_iff_mul_le hpos).mp h
  rw [Nat.succ_mul] at h1
  omega

/-- Skipped chunks end before the first token behind the mask, because the mask ends at a
chunk boundary. -/
theorem chunkInfos_contiguous {totalLen numFalses chunkId : ℕ} {hashVals : List ℤ}
    (hdvd : numFalses % db.chunkSize = 0)
    (hlen : ∀ i < chunkId + hashVals.length, i * db.chunkSize < totalLen) :
    Contiguous (max numFalses (min (chunkId * db.chunkSize) totalLen))
      (db.chunkInfos totalLen numFalses chunkId hashVals)
      (max numFalses (min ((chunkId + hashVals.length) * db.chunkSize) totalLen)) := by
  induction hashVals generalizing chunkId with
  | nil => exact .nil _
  | cons hashVal hashVals ih =>
    have hpos := db.chunkSize_pos
    have hlt := hlen chunkId (by simp)
    have hnext : (chunkId + 1) * db.chunkSize = chunkId * db.chunkSize + db.chunkSize :=
      Nat.succ_mul _ _
    have hidx : chunkId + (hashVal :: hashVals).length = chunkId + 1 + hashVals.length := by
      rw [length_cons]
      omega
    rw [hidx] at hlen ⊢
    have htail := ih hlen
    unfold chunkInfos
    dsimp only
    split_ifs with hskip
    · have hle : (chunkId + 1) * db.chunkSize ≤ numFalses := by
        obtain ⟨q, rfl⟩ := Nat.dvd_of_mod_eq_zero hdvd
        rw [Nat.mul_comm] at hskip ⊢
        exact Nat.mul_le_mul_left _ (Nat.lt_of_mul_lt_mul_left hskip)
      grind
    · have hstart : max numFalses (min (chunkId * db.chunkSize) totalLen) =
          chunkId * db.chunkSize := by omega
      have hstop : max numFalses (min ((chunkId + 1) * db.chunkSize) totalLen) =
          min (chunkId * db.chunkSize + db.chunkSize) totalLen := by omega
      rw [hstop] at htail
      rw [hstart]
      refine Contiguous.cons (c := ⟨db.makeKeyByHash hashVal, chunkId * db.chunkSize,
        min (chunkId * db.chunkSize + db.chunkSize) totalLen⟩) ?_ htail
      dsimp only
      omega

theorem chunkInfos_stop_le {totalLen numFalses chunkId : ℕ} {hashVals : List ℤ} {c : ChunkInfo K}
    (h : c ∈ db.chunkInfos totalLen numFalses chunkId hashVals) : c.stop ≤ totalLen := by
  induction hashVals generalizing chunkId with
  | nil => simp [chunkInfos] at h
  | cons hashVal hashVals ih =>
    unfold chunkInfos at h
    grind

/-- **The chunks of a token list** follow each other from the first token behind the mask
on and lie inside the list. -/
theorem processTokens_contiguous {tokens : List ℤ} {mask : Option (List Bool)}
    {infos : List (ChunkInfo K)} (h : db.processTokens tokens mask = .ok infos) :
    (∃ b, Contiguous (numFalses mask) infos b) ∧ ∀ c ∈ infos, c.stop ≤ tokens.length := by
  unfold processTokens at h
  split_ifs at h with hdvd
  rw [ne_eq, not_not] at hdvd
  cases h
  have hlen : ∀ i < 0 + (db.prefixHashes db.noneHash (db.chunkTokens tokens)).length,
      i * db.chunkSize < tokens.length := fun i hi => by
    rw [length_prefixHashes, Nat.zero_add] at hi
    exact db.mul_chunkSize_lt_length hi
  have hcont := db.chunkInfos_contiguous hdvd hlen
  rw [Nat.zero_mul, Nat.zero_min, Nat.max_zero] at hcont
  exact ⟨⟨_, hcont⟩, fun c hc => db.chunkInfos_stop_le hc⟩

end ChunkedTokenDatabase

end LMCache
