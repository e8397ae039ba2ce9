import Mathlib.Logic.Equiv.List
import LMCache.Engine.TokenDatabase
import LMCache.Lib.HashChain

/-! # Chunk hashes name prefixes

The hash that `process_tokens` yields for a chunk is the hash of a chain over all chunks up to
it (`processTokens_eq`).  So two chunks, also of different token lists and behind different
masks, have the same hash exactly when the tokens up to their ends are the same: a short last
chunk ends where its list ends, and the length of the common prefix fixes the number of chunks
(`index_eq_of_stop_eq`).

The hash function comes from a library.  What is used of it is that it has no collisions and
that the hash of the empty prefix is not one of its values. -/

namespace LMCache.ChunkedTokenDatabase

open List HashChain

variable {K : Type} (db : ChunkedTokenDatabase K)

/-! ### The entries -/

/-- Where `_chunk_tokens` stops. -/
def stop (tokens : List ℤ) : ℕ :=
  if db.saveUnfullChunk then tokens.length else tokens.length - tokens.length % db.chunkSize

def numChunks (tokens : List ℤ) : ℕ := (db.stop tokens + db.chunkSize - 1) / db.chunkSize

/-- The hash of the chunk number `i`. -/
def chunkHash (tokens : List ℤ) (i : ℕ) : ℤ :=
  chainHash db.hashFunc db.noneHash db.chunkSize tokens (i + 1)

def entry (tokens : List ℤ) (i : ℕ) : ChunkInfo K :=
  ⟨db.makeKeyByHash (db.chunkHash tokens i), i * db.chunkSize,
    min (i * db.chunkSize + db.chunkSize) tokens.length⟩

/-- `process_tokens(..., make_key=False)`: the third component is the hash itself. -/
def hashed : ChunkedTokenDatabase ℤ := { db with makeKeyByHash := id }

theorem prefixHashes_eq_scan (h : ℤ) (cs : List (List ℤ)) :
    db.prefixHashes h cs = scan db.hashFunc h cs := by
  induction cs generalizing h with
  | nil => rfl
  | cons c cs ih => rw [prefixHashes, scan, ih]

variable (tokens : List ℤ)

theorem prefixHashes_chunkTokens :
    db.prefixHashes db.noneHash (db.chunkTokens tokens) =
      (range' 0 (db.numChunks tokens)).map (db.chunkHash tokens) := by
  have hscan := scan_chunks db.hashFunc db.noneHash db.chunkSize tokens 0
    (db.numChunks tokens)
  rw [prefixHashes_eq_scan]
  rw [← range_eq_range'] at hscan ⊢
  exact hscan

theorem chunkInfos_eq (numFalses k m : ℕ) :
    db.chunkInfos tokens.length numFalses k ((range' k m).map (db.chunkHash tokens)) =
      ((range' k m).filter fun i => numFalses ≤ i * db.chunkSize).map (db.entry tokens) := by
  induction m generalizing k with
  | zero => rfl
  | succ m ih =>
    rw [range'_succ, map_cons, chunkInfos, ih, filter_cons]
    simp only [decide_eq_true_eq]
    split_ifs with h₁ h₂ h₂
    · omega
    · rfl
    · rfl
    · omega

theorem filter_range_eq_drop (k m : ℕ) :
    ((range m).filter fun i => k * db.chunkSize ≤ i * db.chunkSize) =
      (range m).drop k := by
  have hpos := db.chunkSize_pos
  induction m with
  | zero => rw [range_zero, filter_nil, drop_nil]
  | succ m ih =>
    rw [range_succ, filter_append, ih, filter_singleton]
    by_cases hk : k ≤ m
    · have hle : k * db.chunkSize ≤ m * db.chunkSize := Nat.mul_le_mul_right _ hk
      grind
    · have hlt : ¬ k * db.chunkSize ≤ m * db.chunkSize := fun hle =>
        hk (Nat.le_of_mul_le_mul_right hle hpos)
      rw [drop_of_length_le (by rw [length_range]; omega),
        drop_of_length_le (by rw [length_append, length_range]; simp; omega),
        decide_eq_false hlt]
      rfl

/-- **`process_tokens`** yields the entries behind the mask. -/
theorem processTokens_eq {mask : Option (List Bool)} {k : ℕ}
    (hmask : numFalses mask = k * db.chunkSize) :
    db.processTokens tokens mask =
      .ok (((range (db.numChunks tokens)).map (db.entry tokens)).drop k) := by
  unfold processTokens
  rw [hmask, if_neg (by rw [Nat.mul_mod_left]; exact fun h => h rfl), prefixHashes_chunkTokens,
    chunkInfos_eq, ← range_eq_range', filter_range_eq_drop, map_drop]

theorem mem_processTokens {tokens : List ℤ} {mask : Option (List Bool)} {infos : List (ChunkInfo K)}
    (h : db.processTokens tokens mask = .ok infos) {c : ChunkInfo K} (hc : c ∈ infos) :
    ∃ i, i * db.chunkSize < tokens.length ∧ c = db.entry tokens i := by
  have hdvd : numFalses mask % db.chunkSize = 0 := by
    by_contra hne
    rw [processTokens, if_pos hne] at h
    cases h
  have hmask : numFalses mask = numFalses mask / db.chunkSize * db.chunkSize :=
    (Nat.div_mul_cancel (Nat.dvd_of_mod_eq_zero hdvd)).symm
  cases (db.processTokens_eq tokens hmask).symm.trans h
  obtain ⟨i, hi, rfl⟩ := mem_map.mp (mem_of_mem_drop hc)
  refine ⟨i, db.mul_chunkSize_lt_length ?_, rfl⟩
  rw [mem_range] at hi
  rw [chunkTokens, length_map, length_range]
  exact hi

/-! ### Prefixes -/

theorem index_eq_of_stop_eq {a b : List ℤ} {i j : ℕ} (hi : i * db.chunkSize < a.length)
    (hj : j * db.chunkSize < b.length) (h : (db.entry a i).stop = (db.entry b j).stop) : i = j := by
  have hpos := db.chunkSize_pos
  unfold entry at h
  dsimp only at h
  by_contra hne
  rcases Nat.lt_or_gt_of_ne hne with hlt | hlt
  all_goals
    have := Nat.mul_le_mul_right db.chunkSize hlt
    rw [Nat.succ_mul] at this
    omega

theorem take_stop (i : ℕ) :
    tokens.take (db.entry tokens i).stop = tokens.take ((i + 1) * db.chunkSize) := by
  rw [entry, Nat.succ_mul, ← take_take, take_length]

/-- **Chunk hashes name prefixes.** -/
theorem chunkHash_eq_iff (hinj : ∀ p t p' t', db.hashFunc p t = db.hashFunc p' t' → p = p' ∧ t = t')
    (hnone : ∀ p t, db.hashFunc p t ≠ db.noneHash) {a b : List ℤ} {i j : ℕ}
    (hi : i * db.chunkSize < a.length) (hj : j * db.chunkSize < b.length) :
    db.chunkHash a i = db.chunkHash b j ↔
      a.take (db.entry a i).stop = b.take (db.entry b j).stop := by
  constructor
  · intro h
    rw [take_stop, take_stop]
    exact (chainHash_inj hinj hnone h).2
  · intro h
    have hlen := congrArg length h
    rw [length_take, length_take] at hlen
    have hstop : (db.entry a i).stop = (db.entry b j).stop := by
      unfold entry at hlen ⊢
      dsimp only at hlen ⊢
      omega
    obtain rfl := db.index_eq_of_stop_eq hi hj hstop
    rw [take_stop, take_stop] at h
    exact chainHash_congr h

/-! ### Tiling -/

theorem min_numChunks :
    min (db.numChunks tokens * db.chunkSize) tokens.length = db.stop tokens := by
  have hpos := db.chunkSize_pos
  have hdiv := Nat.div_add_mod (db.stop tokens + db.chunkSize - 1) db.chunkSize
  have hmod := Nat.mod_lt (db.stop tokens + db.chunkSize - 1) hpos
  rw [Nat.mul_comm] at hdiv
  unfold numChunks
  unfold stop at *
  split_ifs at * with hunfull
  · omega
  · obtain ⟨q, hq⟩ : ∃ q, tokens.length - tokens.length % db.chunkSize = q * db.chunkSize :=
      ⟨tokens.length / db.chunkSize, by
        have := Nat.div_add_mod tokens.length db.chunkSize
        rw [Nat.mul_comm] at this
        omega⟩
    have hle : q * db.chunkSize ≤ tokens.length := hq ▸ Nat.sub_le _ _
    have hcount : (q * db.chunkSize + db.chunkSize - 1) / db.chunkSize = q := by
      rw [Nat.add_sub_assoc hpos, Nat.add_comm, Nat.add_mul_div_right _ _ hpos,
        Nat.div_eq_of_lt (by omega), Nat.zero_add]
    rw [hq, hcount]
    exact min_eq_left hle

theorem entries_contiguous :
    Contiguous 0 ((range (db.numChunks tokens)).map (db.entry tokens)) (db.stop tokens) := by
  have hlen : ∀ i < 0 + ((range' 0 (db.numChunks tokens)).map (db.chunkHash tokens)).length,
      i * db.chunkSize < tokens.length := by
    intro i hi
    rw [length_map, length_range', Nat.zero_add] at hi
    apply db.mul_chunkSize_lt_length
    rw [chunkTokens, length_map, length_range]
    exact hi
  have hcont := db.chunkInfos_contiguous (Nat.zero_mod _) hlen
  have hall := db.filter_range_eq_drop 0 (db.numChunks tokens)
  rw [Nat.zero_mul, drop_zero] at hall
  rw [chunkInfos_eq, length_map, length_range', Nat.zero_add, min_numChunks, Nat.zero_mul,
    Nat.zero_min, Nat.max_self, Nat.zero_max, ← range_eq_range', hall] at hcont
  exact hcont

/-- **Prefix-hash keys.**  Two chunks that `process_tokens` yields have the same hash if and
only if the tokens up to their ends are the same.  Without a mask the chunks tile the tokens,
up to the last full chunk when short ones are not kept, and a mask of `k` chunks removes the
first `k` of them. -/
theorem process_tokens_identifies_prefixes
    (hinj : ∀ p t p' t', db.hashFunc p t = db.hashFunc p' t' → p = p' ∧ t = t')
    (hnone : ∀ p t, db.hashFunc p t ≠ db.noneHash) :
    (∀ (a b : List ℤ) (mask mask' : Option (List Bool)) (as bs : List (ChunkInfo ℤ)),
      db.hashed.processTokens a mask = .ok as → db.hashed.processTokens b mask' = .ok bs →
        ∀ c ∈ as, ∀ d ∈ bs, (c.key = d.key ↔ a.take c.stop = b.take d.stop)) ∧
    (∀ tokens : List ℤ, ∃ infos, db.processTokens tokens none = .ok infos ∧
      Contiguous 0 infos (if db.saveUnfullChunk then tokens.length
        else tokens.length - tokens.length % db.chunkSize) ∧
      ∀ (mask : List Bool) (k : ℕ), numFalses (some mask) = k * db.chunkSize →
        db.processTokens tokens (some mask) = .ok (infos.drop k)) := by
  refine ⟨?_, ?_⟩
  · intro a b mask mask' as bs ha hb c hc d hd
    obtain ⟨i, hi, rfl⟩ := db.hashed.mem_processTokens ha hc
    obtain ⟨j, hj, rfl⟩ := db.hashed.mem_processTokens hb hd
    exact db.hashed.chunkHash_eq_iff hinj hnone hi hj
  · intro tokens
    refine ⟨_, db.processTokens_eq tokens (k := 0) (Nat.zero_mul _).symm, ?_, ?_⟩
    · rw [drop_zero]
      exact db.entries_contiguous tokens
    · intro mask k hmask
      rw [drop_zero]
      exact db.processTokens_eq tokens hmask

/-- A hash function without collisions, chunks of two tokens. -/
def pairingDatabase : ChunkedTokenDatabase ℤ where
  chunkSize := 2
  saveUnfullChunk := true
  noneHash := 0
  hashFunc := fun p t => (Encodable.encode (p, t) : ℕ) + 1
  makeKeyByHash := id
  chunkSize_pos := by decide

/-- The short last chunk of `[5, 6, 7]` against the full one of `[5, 6, 7, 8]`: the lists have
the same first chunk and differ in the second. -/
theorem process_tokens_identifies_prefixes_pairing :
    ∃ as bs, pairingDatabase.hashed.processTokens [5, 6, 7] none = .ok as ∧
      pairingDatabase.hashed.processTokens [5, 6, 7, 8] none = .ok bs ∧
      (∃ c ∈ as, ∃ d ∈ bs, c.stop = 2 ∧ d.stop = 2 ∧ c.key = d.key) ∧
      (∃ c ∈ as, ∃ d ∈ bs, c.stop = 3 ∧ d.stop = 4 ∧ c.key ≠ d.key) ∧
      pairingDatabase.processTokens [5, 6, 7] (some [false, false, true]) = .ok (as.drop 1) := by
  have hinj : ∀ p t p' t', pairingDatabase.hashFunc p t = pairingDatabase.hashFunc p' t' →
      p = p' ∧ t = t' := by
    intro p t p' t' h
    have hsucc : ((Encodable.encode (p, t) : ℕ) : ℤ) + 1 = (Encodable.encode (p', t') : ℕ) + 1 := h
    simp_all
  have hnone : ∀ p t, pairingDatabase.hashFunc p t ≠ pairingDatabase.noneHash := by
    intro p t h
    have hzero : ((Encodable.encode (p, t) : ℕ) : ℤ) + 1 = 0 := h
    omega
  have h := pairingDatabase.process_tokens_identifies_prefixes hinj hnone
  obtain ⟨infos, hinfos, -, hmask⟩ := h.2 [5, 6, 7]
  refine ⟨_, _, rfl, rfl, ⟨_, mem_cons_self, _, mem_cons_self, rfl, rfl, ?_⟩,
    ⟨_, mem_cons_of_mem _ mem_cons_self, _,
      mem_cons_of_mem _ mem_cons_self, rfl, rfl, ?_⟩, ?_⟩
  · rfl
  · rw [ne_eq, h.1 [5, 6, 7] [5, 6, 7, 8] none none _ _ rfl rfl _
      (mem_cons_of_mem _ mem_cons_self) _ (mem_cons_of_mem _ mem_cons_self)]
    decide
  · cases hinfos
    exact hmask _ 1 rfl

end LMCache.ChunkedTokenDatabase
