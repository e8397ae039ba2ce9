import LMCache.MultiProcess.Session
import Mathlib.Algebra.Ring.Int.Defs

/-! # The hashes of a session and its tokens

`set_tokens` replaces the tokens of a session and keeps the hashes that were computed, and the
position up to which they were computed; `get_hashes` goes on from there.  So the hashes are those
of the current tokens as long as no replacement touches a chunk that was hashed, and no read goes
beyond the tokens: behind their end `_compute_hash` hashes short and empty chunks.

**Main result**: `session_hashes_current`. -/

namespace LMCache.MultiProcess

open List HashChain

inductive SessionCall where
  | setTokens (fullTokenIds : List ℤ)
  | getHashes (start stop : ℕ)
deriving DecidableEq, Repr

namespace Session

variable {hasher : TokenHasher} {s : Session}

def step (hasher : TokenHasher) (s : Session) : SessionCall → Session
  | .setTokens fullTokenIds => s.setTokens fullTokenIds
  | .getHashes start stop => (s.getHashes hasher start stop).2

def system (hasher : TokenHasher) : LTS Session SessionCall where
  init s := s = {}
  step s e s' := s' = s.step hasher e

/-- The new tokens have the chunks that were hashed; a read stays inside of the tokens. -/
def Keeps (hasher : TokenHasher) (s : Session) : SessionCall → Prop
  | .setTokens fullTokenIds =>
    fullTokenIds.take (s.numChunksProcessed * hasher.chunkSize) =
      s.tokenIds.take (s.numChunksProcessed * hasher.chunkSize)
  | .getHashes _ stop => stop ≤ s.tokenIds.length

instance (hasher : TokenHasher) (s : Session) (e : SessionCall) : Decidable (s.Keeps hasher e) :=
  match e with
  | .setTokens _ => inferInstanceAs (Decidable (_ = _))
  | .getHashes _ _ => inferInstanceAs (Decidable (_ ≤ _))

/-- The hashes of a session are those of its own tokens. -/
abbrev Current (hasher : TokenHasher) (s : Session) : Prop := s.Ok hasher s.tokenIds

theorem Current.setTokens (h : s.Current hasher) {ids : List ℤ}
    (hids : s.Keeps hasher (.setTokens ids)) : (s.setTokens ids).Current hasher := by
  have htake : ∀ i ≤ s.numChunksProcessed,
      s.tokenIds.take (i * hasher.chunkSize) = ids.take (i * hasher.chunkSize) := by
    intro i hi
    have hle := Nat.mul_le_mul_right hasher.chunkSize hi
    have hcut := congrArg (take (i * hasher.chunkSize)) hids
    grind
  refine ⟨prefix_rfl, ?_, ?_⟩
  · refine h.hashes.trans (map_congr_left fun i hi => ?_)
    exact chainHash_congr (htake (i + 1) (mem_range.mp hi))
  · exact h.last.trans (chainHash_congr (htake _ le_rfl))

theorem tokenIds_hashChunks (n : ℕ) (s : Session) :
    (hashChunks hasher n s).tokenIds = s.tokenIds := by
  induction n generalizing s with
  | zero => rfl
  | succ n ih => exact ih (s.hashNext hasher)

theorem tokenIds_getHashes (start stop : ℕ) :
    (s.getHashes hasher start stop).2.tokenIds = s.tokenIds := by
  unfold getHashes
  split_ifs
  · rfl
  · rfl
  · exact tokenIds_hashChunks _ s

theorem Current.getHashes (h : s.Current hasher) {start stop : ℕ}
    (hstop : s.Keeps hasher (.getHashes start stop)) :
    (s.getHashes hasher start stop).2.Current hasher := by
  rw [Current, tokenIds_getHashes]
  by_cases haligned : start % hasher.chunkSize = 0 ∧ stop % hasher.chunkSize = 0
  · exact (Session.Ok.getHashes h haligned.1 haligned.2 (Or.inl hstop)).2.1
  · cases hr : (s.getHashes hasher start stop).1 with
    | ok hashes => exact absurd (getHashes_ok hr) haligned
    | error e => rwa [(getHashes_error hr).1]

/-- **Current in every run** that keeps the chunks. -/
theorem current_reachable (h : ((system hasher).restrict (Keeps hasher)).Reachable s) :
    s.Current hasher := by
  refine h.invariant ?_ ?_
  · rintro s rfl
    exact ok_new hasher []
  · rintro s e s' hs ⟨hkeeps, rfl⟩
    cases e with
    | setTokens ids => exact hs.setTokens hkeeps
    | getHashes start stop => exact hs.getHashes hkeeps

/-- **The hashes of a session** are those of its present tokens, in every run that keeps the hashed
chunks and reads inside of the tokens. -/
theorem session_hashes_current (h : ((system hasher).restrict (Keeps hasher)).Reachable s)
    {start stop : ℕ} (hstart : start % hasher.chunkSize = 0) (hstop : stop % hasher.chunkSize = 0)
    (hkeeps : s.Keeps hasher (.getHashes start stop)) :
    (s.getHashes hasher start stop).1 =
      .ok (((hasher.computeChunkHashes s.tokenIds).take (stop / hasher.chunkSize)).drop
        (start / hasher.chunkSize)) := by
  have hle : stop / hasher.chunkSize ≤ s.tokenIds.length / hasher.chunkSize :=
    Nat.div_le_div_right hkeeps
  rw [(Session.Ok.getHashes (current_reachable h) hstart hstop (Or.inl hkeeps)).1,
    hasher.computeChunkHashes_eq, ← map_take, ← map_drop, take_range, min_eq_left hle]

/-- Chunks of two tokens; the hash of a chunk is the sum of its tokens and of the hash before it. -/
def sumHasher : TokenHasher where
  chunkSize := 2
  hashFunc p tokens := match p with
    | .int n => .int (n + BitVec.ofInt 64 tokens.sum)
    | .bytes b => .bytes b
  noneHash := .int 0
  chunkSize_pos := Nat.zero_lt_two

def after (es : List SessionCall) : Session := es.foldl (step sumHasher) {}

theorem session_hashes_current_extended :
    let s := after [.setTokens [1, 2, 3], .getHashes 0 2, .setTokens [1, 2, 5, 6]]
    (s.getHashes sumHasher 0 4).1 = .ok [.int 3, .int 14] := by
  have hs := LTS.Reachable.replay_restrict (S := system sumHasher) (f := step sumHasher)
    (fun _ _ => rfl) [.setTokens [1, 2, 3], .getHashes 0 2, .setTokens [1, 2, 5, 6]]
    (.init rfl) (by decide +kernel : (foldlM (fun s e => if Keeps sumHasher s e then
      some (step sumHasher s e) else none) ({} : Session) _).isSome = true)
  exact (session_hashes_current hs (by decide : 0 % sumHasher.chunkSize = 0)
    (by decide : 4 % sumHasher.chunkSize = 0) (by decide +kernel)).trans (by decide +kernel)

/-- The first chunk is replaced after it was hashed; and a read goes beyond the tokens. -/
theorem session_hashes_stale :
    let s := after [.setTokens [1, 2], .getHashes 0 2, .setTokens [5, 6]]
    let s' := after [.setTokens [1, 2]]
    ((system sumHasher).Reachable s ∧ (s.getHashes sumHasher 0 2).1 = .ok [.int 3] ∧
      sumHasher.computeChunkHashes s.tokenIds = [.int 11]) ∧
    (system sumHasher).Reachable s' ∧ (s'.getHashes sumHasher 0 4).1 = .ok [.int 3, .int 3] ∧
      sumHasher.computeChunkHashes s'.tokenIds = [.int 3] := by
  refine ⟨⟨.foldl (fun _ _ => rfl) _ (.init rfl), ?_⟩,
    .foldl (fun _ _ => rfl) _ (.init rfl), ?_⟩ <;>
    decide +kernel

end Session

end LMCache.MultiProcess
