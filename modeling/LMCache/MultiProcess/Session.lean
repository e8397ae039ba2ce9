import LMCache.MultiProcess.Keys
import LMCache.Lib.Transition

/-! # Sessions

`store` and `retrieve` turn keys in token mode into object keys with the help of a session per
request, which keeps the tokens and the hashes computed so far.  First every key updates its
session (`update_session_for_key`), then the keys are resolved (`resolve_keys`).

* **Exceptions** leave the sessions as they are at that point, so every function returns the
  sessions also when it raises.
* **The loop** of `_compute_hash` raises the counter by one in every pass; it is a recursion
  on the number of passes.
* Creation times and the removal of expired sessions, which nothing calls, are left out. -/

namespace LMCache.MultiProcess

open List

/-! ### The model -/

structure Session where
  tokenIds : List ℤ := []
  chunkHashes : List HashVal := []
  lastPrefixHash : Option HashVal := none
  numChunksProcessed : ℕ := 0
deriving DecidableEq, Repr

namespace Session

def setTokens (s : Session) (fullTokenIds : List ℤ) : Session := { s with tokenIds := fullTokenIds }

/-- One pass of the loop of `_compute_hash`. -/
def hashNext (hasher : TokenHasher) (s : Session) : Session :=
  let cs := s.numChunksProcessed * hasher.chunkSize
  let chunk := (s.tokenIds.drop cs).take hasher.chunkSize
  let prefixHash := s.lastPrefixHash.getD hasher.noneHash
  let h := hasher.hashTokens chunk (some prefixHash)
  { s with
    lastPrefixHash := some h
    chunkHashes := s.chunkHashes ++ [h]
    numChunksProcessed := s.numChunksProcessed + 1 }

def hashChunks (hasher : TokenHasher) : ℕ → Session → Session
  | 0, s => s
  | n + 1, s => hashChunks hasher n (s.hashNext hasher)

def computeHash (hasher : TokenHasher) (s : Session) (endChunk : ℕ) : Session :=
  hashChunks hasher (endChunk - s.numChunksProcessed) s

def getHashes (hasher : TokenHasher) (s : Session) (start stop : ℕ) :
    Except PyError (List HashVal) × Session :=
  if start % hasher.chunkSize ≠ 0 then
    (.error ⟨.assertionError,
      s!"start ({start}) must be a multiple of chunk_size ({hasher.chunkSize})"⟩, s)
  else if stop % hasher.chunkSize ≠ 0 then
    (.error ⟨.assertionError,
      s!"end ({stop}) must be a multiple of chunk_size ({hasher.chunkSize})"⟩, s)
  else
    let s := s.computeHash hasher (stop / hasher.chunkSize)
    (.ok ((s.chunkHashes.take (stop / hasher.chunkSize)).drop (start / hasher.chunkSize)), s)

end Session

abbrev Sessions := String → Option Session

def Sessions.getOrCreate (m : Sessions) (requestId : String) : Session :=
  (m requestId).getD {}

def Sessions.remove (m : Sessions) (requestId : String) : Sessions :=
  Function.update m requestId none

/-- The hashes of a key from the session of its request. -/
def sessionHashes (hasher : TokenHasher) (key : IPCCacheEngineKey) (requestId : String)
    (s : Session) (m : Sessions) : Except PyError (List HashVal) × Sessions :=
  let r := s.getHashes hasher key.start key.stop
  (r.1, Function.update m requestId (some r.2))

def noRequestId : PyError := ⟨.assertionError, "Token mode requires request_id in key"⟩

def updateSessionForKey (hasher : TokenHasher) (key : IPCCacheEngineKey) (m : Sessions) :
    Except PyError Unit × Sessions :=
  match key.tokenIds with
  | none => (.ok (), m)
  | some tokenIds =>
    match key.requestId with
    | none => (.error noRequestId, m)
    | some requestId =>
      let session := (m.getOrCreate requestId).setTokens tokenIds
      let r := sessionHashes hasher key requestId session m
      (r.1.map fun _ => (), r.2)

/-- One pass of the loop of `resolve_keys`. -/
def resolveKey (hasher : TokenHasher) (key : IPCCacheEngineKey) (m : Sessions) :
    Except PyError (List IPCCacheEngineKey) × Sessions :=
  match key.tokenIds with
  | none => (.ok [key], m)
  | some _ =>
    match key.requestId with
    | none => (.error noRequestId, m)
    | some requestId =>
      let r := sessionHashes hasher key requestId (m.getOrCreate requestId) m
      (r.1.map fun hashes => hashes.map (key.ofHash none), r.2)

def updateSessions (hasher : TokenHasher) : List IPCCacheEngineKey → Sessions →
    Except PyError Unit × Sessions
  | [], m => (.ok (), m)
  | key :: keys, m =>
    match updateSessionForKey hasher key m with
    | (.error e, m) => (.error e, m)
    | (.ok (), m) => updateSessions hasher keys m

/-- The keys are kept apart; `resolve_keys` appends them to one list. -/
def resolveKeys (hasher : TokenHasher) : List IPCCacheEngineKey → Sessions →
    Except PyError (List (List IPCCacheEngineKey)) × Sessions
  | [], m => (.ok [], m)
  | key :: keys, m =>
    match resolveKey hasher key m with
    | (.error e, m) => (.error e, m)
    | (.ok resolved, m) =>
      let r := resolveKeys hasher keys m
      (r.1.map (resolved :: ·), r.2)

inductive TransferOp where
  | store
  | retrieve
deriving DecidableEq, Repr

def TransferOp.workerIdMessage : TransferOp → String
  | .store => "Must store with worker_id != None"
  | .retrieve => "Must retrieve with worker_id != None"

/-- The object keys that `store` and `retrieve` derive at their beginning. -/
def transferObjectKeys (hasher : TokenHasher) (op : TransferOp) (keys : List IPCCacheEngineKey)
    (m : Sessions) : Except PyError (List ObjectKey) × Sessions :=
  match updateSessions hasher keys m with
  | (.error e, m) => (.error e, m)
  | (.ok (), m) =>
    match resolveKeys hasher keys m with
    | (.error e, m) => (.error e, m)
    | (.ok resolved, m) =>
      let ipcKeys := resolved.flatten
      if ipcKeys.all fun k => k.workerId.isSome then (ipcKeysToObjectKeys ipcKeys, m)
      else (.error ⟨.assertionError, op.workerIdMessage⟩, m)

/-! ### Sessions along a history -/

open HashChain

section sessions
variable {hasher : TokenHasher} {history : List ℤ} {s : Session}

/-- The hashes of a session are those of the first chunks of the history. -/
structure Session.Ok (hasher : TokenHasher) (history : List ℤ) (s : Session) : Prop where
  tokens : s.tokenIds <+: history
  hashes : s.chunkHashes = (List.range s.numChunksProcessed).map (hasher.chunkHash history)
  last : s.lastPrefixHash.getD hasher.noneHash =
    chainHash hasher.hashFunc hasher.noneHash hasher.chunkSize history s.numChunksProcessed

theorem Session.ok_new (hasher : TokenHasher) (history : List ℤ) :
    Session.Ok hasher history {} where
  tokens := nil_prefix
  hashes := rfl
  last := rfl

theorem Session.Ok.setTokens (h : s.Ok hasher history) {tokenIds : List ℤ}
    (htokens : tokenIds <+: history) : (s.setTokens tokenIds).Ok hasher history :=
  ⟨htokens, h.hashes, h.last⟩

theorem Session.Ok.hashNext (h : s.Ok hasher history)
    (hlen : (s.numChunksProcessed + 1) * hasher.chunkSize ≤ s.tokenIds.length) :
    (s.hashNext hasher).Ok hasher history := by
  have hhash : hasher.hashTokens
      ((s.tokenIds.drop (s.numChunksProcessed * hasher.chunkSize)).take hasher.chunkSize)
      (some (s.lastPrefixHash.getD hasher.noneHash)) =
        hasher.chunkHash history s.numChunksProcessed := by
    obtain ⟨rest, hrest⟩ := h.tokens
    have hchunk : chunk hasher.chunkSize history s.numChunksProcessed =
        chunk hasher.chunkSize s.tokenIds s.numChunksProcessed := by
      rw [← chunk_take history (Nat.lt_succ_self _), ← hrest, take_append_of_le_length hlen,
        chunk_take _ (Nat.lt_succ_self _)]
    rw [TokenHasher.chunkHash, chainHash, hchunk, ← h.last]
    rfl
  refine ⟨h.tokens, ?_, ?_⟩
  · simp only [Session.hashNext]
    rw [hhash, h.hashes, range_succ, map_append, map_singleton]
  · simp only [Session.hashNext]
    rw [hhash]
    rfl

theorem Session.hashNext_numChunksProcessed (s : Session) :
    (s.hashNext hasher).numChunksProcessed = s.numChunksProcessed + 1 := rfl

theorem Session.Ok.hashChunks (h : s.Ok hasher history) {n : ℕ}
    (hlen : (s.numChunksProcessed + n) * hasher.chunkSize ≤ s.tokenIds.length ∨ n = 0) :
    (Session.hashChunks hasher n s).Ok hasher history ∧
      (Session.hashChunks hasher n s).numChunksProcessed = s.numChunksProcessed + n := by
  induction n generalizing s with
  | zero => exact ⟨h, rfl⟩
  | succ n ih =>
    have hlen : (s.numChunksProcessed + (n + 1)) * hasher.chunkSize ≤ s.tokenIds.length := by
      simpa using hlen
    have hfirst : (s.numChunksProcessed + 1) * hasher.chunkSize ≤ s.tokenIds.length :=
      (Nat.mul_le_mul_right _ (by omega)).trans hlen
    obtain ⟨hok, hnum⟩ := ih (h.hashNext hfirst) (Or.inl (by
      rw [Session.hashNext_numChunksProcessed, Nat.add_assoc, Nat.add_comm 1 n]
      exact hlen))
    refine ⟨hok, ?_⟩
    rw [Session.hashChunks, hnum, Session.hashNext_numChunksProcessed]
    omega

/-- **`get_hashes`** returns the hashes of the history when the chunks are computed already or
their tokens are there. -/
theorem Session.Ok.getHashes (h : s.Ok hasher history) {start stop : ℕ}
    (hstart : start % hasher.chunkSize = 0) (hstop : stop % hasher.chunkSize = 0)
    (hlen : stop ≤ s.tokenIds.length ∨ stop / hasher.chunkSize ≤ s.numChunksProcessed) :
    (s.getHashes hasher start stop).1 =
        .ok (((range (stop / hasher.chunkSize)).drop (start / hasher.chunkSize)).map
          (hasher.chunkHash history)) ∧
      (s.getHashes hasher start stop).2.Ok hasher history ∧
      stop / hasher.chunkSize ≤ (s.getHashes hasher start stop).2.numChunksProcessed ∧
      s.numChunksProcessed ≤ (s.getHashes hasher start stop).2.numChunksProcessed := by
  have hcase : (s.numChunksProcessed + (stop / hasher.chunkSize - s.numChunksProcessed)) *
      hasher.chunkSize ≤ s.tokenIds.length ∨
        stop / hasher.chunkSize - s.numChunksProcessed = 0 := by
    by_cases hdone : stop / hasher.chunkSize ≤ s.numChunksProcessed
    · right
      omega
    · left
      have hle : stop ≤ s.tokenIds.length := by tauto
      rw [Nat.add_sub_cancel' (Nat.le_of_not_le hdone)]
      exact (Nat.div_mul_le_self _ _).trans hle
  obtain ⟨hok, hnum⟩ := h.hashChunks hcase
  have hge : stop / hasher.chunkSize ≤
      (s.computeHash hasher (stop / hasher.chunkSize)).numChunksProcessed := by
    rw [Session.computeHash, hnum]
    omega
  have hget : s.getHashes hasher start stop =
      (.ok (((s.computeHash hasher (stop / hasher.chunkSize)).chunkHashes.take
          (stop / hasher.chunkSize)).drop (start / hasher.chunkSize)),
        s.computeHash hasher (stop / hasher.chunkSize)) := by
    simp [Session.getHashes, hstart, hstop]
  rw [hget]
  refine ⟨?_, hok, hge, ?_⟩
  · have hhashes : (s.computeHash hasher (stop / hasher.chunkSize)).chunkHashes =
        (range (s.computeHash hasher (stop / hasher.chunkSize)).numChunksProcessed).map
          (hasher.chunkHash history) := hok.hashes
    rw [hhashes, ← map_take, ← map_drop, take_range, min_eq_left hge]
  · rw [Session.computeHash, hnum]
    omega

theorem Session.getHashes_error {start stop : ℕ} {e : PyError}
    (h : (s.getHashes hasher start stop).1 = .error e) :
    (s.getHashes hasher start stop).2 = s ∧
      ¬ (start % hasher.chunkSize = 0 ∧ stop % hasher.chunkSize = 0) := by
  unfold Session.getHashes at h ⊢
  grind

theorem Session.getHashes_ok {start stop : ℕ} {hashes : List HashVal}
    (h : (s.getHashes hasher start stop).1 = .ok hashes) :
    start % hasher.chunkSize = 0 ∧ stop % hasher.chunkSize = 0 := by
  unfold Session.getHashes at h
  grind

end sessions

/-! ### Keys along histories -/

section managers
variable {hasher : TokenHasher} {history : String → List ℤ} {m : Sessions}

/-- Every session is one of the history of its request. -/
def Sessions.Good (hasher : TokenHasher) (history : String → List ℤ) (m : Sessions) : Prop :=
  ∀ requestId s, m requestId = some s → s.Ok hasher (history requestId)

/-- The tokens of a key are a beginning of the history, and its range lies inside of them. -/
def IPCCacheEngineKey.InHistory (history : String → List ℤ) (key : IPCCacheEngineKey) : Prop :=
  ∀ tokenIds requestId, key.tokenIds = some tokenIds → key.requestId = some requestId →
    tokenIds <+: history requestId ∧ key.stop ≤ tokenIds.length

def Sessions.Processed (hasher : TokenHasher) (m : Sessions) (key : IPCCacheEngineKey) : Prop :=
  ∀ tokenIds, key.tokenIds = some tokenIds → ∃ requestId, key.requestId = some requestId ∧
    key.start % hasher.chunkSize = 0 ∧ key.stop % hasher.chunkSize = 0 ∧
    key.stop / hasher.chunkSize ≤ (m.getOrCreate requestId).numChunksProcessed

def Sessions.Le (m m' : Sessions) : Prop := ∀ requestId,
  (m.getOrCreate requestId).numChunksProcessed ≤ (m'.getOrCreate requestId).numChunksProcessed

theorem Sessions.Good.getOrCreate (h : m.Good hasher history) (requestId : String) :
    (m.getOrCreate requestId).Ok hasher (history requestId) := by
  unfold Sessions.getOrCreate
  cases hs : m requestId with
  | none => exact Session.ok_new _ _
  | some s => exact h requestId s hs

theorem Sessions.Good.update (h : m.Good hasher history) {requestId : String} {s : Session}
    (hs : s.Ok hasher (history requestId)) :
    Sessions.Good hasher history (Function.update m requestId (some s)) := by
  intro r s' hs'
  by_cases hr : r = requestId
  · grind
  · rw [Function.update_of_ne hr] at hs'
    exact h r s' hs'

theorem Sessions.le_update {requestId : String} {s : Session}
    (hs : (m.getOrCreate requestId).numChunksProcessed ≤ s.numChunksProcessed) :
    m.Le (Function.update m requestId (some s)) := by
  intro r
  by_cases hr : r = requestId
  · subst hr
    simpa [Sessions.getOrCreate] using hs
  · simp [Sessions.getOrCreate, Function.update_of_ne hr]

theorem Sessions.Processed.mono {m' : Sessions} {key : IPCCacheEngineKey}
    (h : m.Processed hasher key) (hle : m.Le m') : m'.Processed hasher key := by
  intro tokenIds htokens
  obtain ⟨requestId, hr, hstart, hstop, hnum⟩ := h tokenIds htokens
  exact ⟨requestId, hr, hstart, hstop, hnum.trans (hle requestId)⟩

/-- **An update** keeps the sessions good, also when it raises; when it does not, the chunks of
the key are computed. -/
theorem updateSessionForKey_spec (hm : m.Good hasher history) {key : IPCCacheEngineKey}
    (hkey : key.InHistory history) :
    (updateSessionForKey hasher key m).2.Good hasher history ∧
      m.Le (updateSessionForKey hasher key m).2 ∧
      ((updateSessionForKey hasher key m).1 = .ok () →
        (updateSessionForKey hasher key m).2.Processed hasher key) := by
  fun_cases updateSessionForKey
  case case1 htokens =>
    refine ⟨hm, fun _ => le_rfl, ?_⟩
    intro _ tokenIds htokens'
    simp [htokens] at htokens'
  case case2 => exact ⟨hm, fun _ => le_rfl, nofun⟩
  case case3 tokenIds htokens requestId hrequest session r =>
    obtain ⟨hpre, hlen⟩ := hkey tokenIds requestId htokens hrequest
    have hok := (hm.getOrCreate requestId).setTokens hpre
    dsimp only [r, session, sessionHashes]
    cases hget : (((m.getOrCreate requestId).setTokens tokenIds).getHashes hasher key.start
        key.stop).1 with
    | error e =>
      obtain ⟨hsame, -⟩ := Session.getHashes_error hget
      rw [hsame]
      refine ⟨hm.update hok, Sessions.le_update le_rfl, nofun⟩
    | ok hashes =>
      obtain ⟨hstart, hstop⟩ := Session.getHashes_ok hget
      obtain ⟨-, hok', hnum, hle⟩ := hok.getHashes hstart hstop (Or.inl hlen)
      refine ⟨hm.update hok', Sessions.le_update hle, ?_⟩
      intro _ tokenIds' _
      refine ⟨requestId, hrequest, hstart, hstop, ?_⟩
      simpa [Sessions.getOrCreate] using hnum

theorem updateSessions_spec (hm : m.Good hasher history) {keys : List IPCCacheEngineKey}
    (hkeys : ∀ key ∈ keys, key.InHistory history) :
    (updateSessions hasher keys m).2.Good hasher history ∧
      m.Le (updateSessions hasher keys m).2 ∧
      ((updateSessions hasher keys m).1 = .ok () →
        ∀ key ∈ keys, (updateSessions hasher keys m).2.Processed hasher key) := by
  fun_induction updateSessions hasher keys m
  case case1 => exact ⟨hm, fun _ => le_rfl, fun _ key hkey => by simp at hkey⟩
  case case2 hr =>
    obtain ⟨hgood, hle, -⟩ := hr ▸ updateSessionForKey_spec hm (hkeys _ mem_cons_self)
    exact ⟨hgood, hle, fun h => by cases h⟩
  case case3 hr ih =>
    obtain ⟨hgood, hle, hproc⟩ := hr ▸ updateSessionForKey_spec hm (hkeys _ mem_cons_self)
    obtain ⟨hgood', hle', hproc'⟩ := ih hgood (forall_mem_cons.mp hkeys).2
    refine ⟨hgood', fun r => (hle r).trans (hle' r), ?_⟩
    intro hok k hk
    rcases mem_cons.mp hk with hk | hk
    · exact hk ▸ (hproc rfl).mono hle'
    · exact hproc' hok k hk

end managers

end LMCache.MultiProcess
