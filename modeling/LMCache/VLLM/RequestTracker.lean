import LMCache.Lib.Dict
import LMCache.Lib.Text
import LMCache.VLLM.StartLoad

/-! # What the scheduler remembers of a request

The scheduler's side of the vLLM connector keeps a `RequestTracker` for each request that was
scheduled: the tokens and blocks it has so far and how many tokens are saved.  `ReqMeta` is made
from it in every step and tells the workers which tokens to load and to save.

* **The tracker** is made from a new request, extended when a running request is scheduled again
  and restored from all tokens of the request when a preempted one is resumed
  (`RequestTracker.update`).
* **The cut.**  Tokens behind the last full chunk are left out of the metadata as long as the
  prompt is not complete, or always when partial chunks are discarded (`numTokensToSave`).  The cut
  is made for saving, and the tokens to load are taken from what is left.

`fromRequestTracker_spec` says what the metadata holds.  Texts are hashed by a given function; the
log messages are left out. -/

namespace LMCache.VLLM

open List

/-! ### Requests -/

inductive ConfigValue where
  | none
  | bool (b : Bool)
  | int (i : ℤ)
  | text (s : String)
deriving DecidableEq, Repr

/-- `bool(value)`. -/
def ConfigValue.truthy : ConfigValue → Bool
  | none => false
  | bool b => b
  | int i => i ≠ 0
  | text s => s ≠ ""

abbrev RequestConfigs := List (String × ConfigValue)

/-- `extract_request_configs`, of the `kv_transfer_params` of the sampling parameters. -/
def extractRequestConfigs (kvTransferParams : Option RequestConfigs) : Option RequestConfigs :=
  match kvTransferParams with
  | .none => .none
  | some params =>
    match params.filter fun p => (Text.after? "lmcache." p.1).isSome with
    | [] => .none
    | configs => some configs

structure PlaceholderRange where
  offset : ℕ
  length : ℕ
deriving DecidableEq, Repr

def applyMmHashesToTokenIds (hexHashToInt16 : String → ℤ) (tokenIds : List ℤ)
    (mmHashes : List String) (mmPositions : List PlaceholderRange) : List ℤ :=
  (mmHashes.zip mmPositions).foldl (fun tokenIds (hash, placeholder) =>
    tokenIds.mapIdx fun i token =>
      if placeholder.offset ≤ i ∧ i < placeholder.offset + placeholder.length then
        hexHashToInt16 hash
      else token) tokenIds

structure DisaggSpec where
  reqId : String
  receiverId : String
  receiverHost : String
  receiverInitPort : ℕ
  receiverAllocPort : ℕ
deriving DecidableEq, Repr

structure SaveSpec where
  skipLeadingTokens : ℕ
  canSave : Bool
deriving DecidableEq, Repr

/-- A `LoadSpec` with its flag `can_load`. -/
structure OfferedLoad extends LoadSpec where
  canLoad : Bool
deriving DecidableEq, Repr

structure NewRequestData where
  reqId : String
  promptTokenIds : List ℤ
  /-- The block ids of the only group. -/
  blockIds : List ℕ
  numComputedTokens : ℕ
  kvTransferParams : Option RequestConfigs
  mmHashes : List String
  mmPositions : List PlaceholderRange

/-- The forms of `new_block_ids`. -/
inductive NewBlockIds where
  | none
  | groups (blocks : List (List ℕ))
  | list (blocks : List ℕ)
deriving DecidableEq, Repr

def NewBlockIds.first : NewBlockIds → List ℕ
  | none => []
  | groups [] => []
  | groups (blocks :: _) => blocks
  | list blocks => blocks

/-! ### The tracker -/

structure RequestTracker where
  reqId : String
  promptLen : ℕ
  tokenIds : List ℤ
  allocatedBlockIds : List ℕ
  numSavedTokens : ℕ
  disaggSpec : Option DisaggSpec
  mmHashes : List String
  mmPositions : List PlaceholderRange
  requestConfigs : Option RequestConfigs
  isDecodePhase : Bool
  skipSave : Bool
deriving DecidableEq, Repr

namespace RequestTracker

def fromNewRequest (newRequest : NewRequestData) (disaggSpec : Option DisaggSpec)
    (numTokensToCompute lmcacheCachedTokens : ℕ) (skipSave : Bool) : RequestTracker where
  reqId := newRequest.reqId
  promptLen := newRequest.promptTokenIds.length
  tokenIds := newRequest.promptTokenIds.take numTokensToCompute
  allocatedBlockIds := newRequest.blockIds
  numSavedTokens := lmcacheCachedTokens
  disaggSpec := disaggSpec
  mmHashes := newRequest.mmHashes
  mmPositions := newRequest.mmPositions
  requestConfigs := extractRequestConfigs newRequest.kvTransferParams
  isDecodePhase := false
  skipSave := skipSave

/-- `update`; a preempted request comes with all its tokens. -/
def update (t : RequestTracker) (newTokenIds : List ℤ) (newBlockIds : NewBlockIds)
    (preempted : Bool) (lmcacheCachedTokens vllmCachedTokens : ℕ)
    (allTokenIds : Option (List ℤ)) : Except PyError RequestTracker := do
  let t ←
    if preempted then
      match allTokenIds with
      | none =>
        .error ⟨.assertionError, "Preempted request " ++ t.reqId ++ " has no all_token_ids"⟩
      | some allTokenIds =>
        let numComputedTokens := max lmcacheCachedTokens vllmCachedTokens
        let numTokensNeeded := max (numComputedTokens + newTokenIds.length) lmcacheCachedTokens
        .ok { t with
          allocatedBlockIds := newBlockIds.first
          numSavedTokens := lmcacheCachedTokens
          tokenIds := allTokenIds.take numTokensNeeded }
    else
      .ok { t with
        allocatedBlockIds := t.allocatedBlockIds ++ newBlockIds.first
        tokenIds := t.tokenIds ++ newTokenIds }
  return if newTokenIds.length = 1 then { t with isDecodePhase := true } else t

end RequestTracker

/-! ### The metadata of a step -/

/-- `ReqMeta`, with the fields that saving reads. -/
structure StepReqMeta extends ReqMeta where
  reqId : String
  isLastPrefill : Bool
  saveSpec : SaveSpec
  disaggSpec : Option DisaggSpec
  requestConfigs : Option RequestConfigs
deriving DecidableEq, Repr

inductive KvRole where
  | producer
  | consumer
  | both
deriving DecidableEq, Repr

structure SchedulerConfig extends Connector where
  discardPartialChunks : Bool
  saveDecodeCache : Bool
  skipLastNTokens : ℕ
  kvRole : KvRole
  forceSkipSave : Bool
  priorityLimit : Option ℤ
  hexHashToInt16 : String → ℤ

def cdiv (a b : ℕ) : ℕ := (a + b - 1) / b

namespace SchedulerConfig
variable (c : SchedulerConfig)

def isLastPrefill (tracker : RequestTracker) : Bool := tracker.promptLen ≤ tracker.tokenIds.length

def skipSave (tracker : RequestTracker) : Bool :=
  let chunkBoundary := cdiv (tracker.numSavedTokens + 1) c.lmcacheChunkSize * c.lmcacheChunkSize
  let requestSkip :=
    match (tracker.requestConfigs.getD []).lookup "lmcache.skip_save" with
    | none => false
    | some value => value.truthy
  tracker.disaggSpec.isNone &&
    (tracker.skipSave
      || (decide (0 < tracker.numSavedTokens)
          && decide (tracker.tokenIds.length < chunkBoundary))
      || (tracker.isDecodePhase && !c.saveDecodeCache)
      || requestSkip)

def numTokensToSave (tracker : RequestTracker) : ℕ :=
  if !isLastPrefill tracker || c.discardPartialChunks then
    tracker.tokenIds.length / c.lmcacheChunkSize * c.lmcacheChunkSize
  else tracker.tokenIds.length

def metaTokenIds (tracker : RequestTracker) : List ℤ :=
  let tokenIds := tracker.tokenIds.take (c.numTokensToSave tracker)
  if tracker.mmHashes = [] then tokenIds
  else applyMmHashesToTokenIds c.hexHashToInt16 tokenIds tracker.mmHashes tracker.mmPositions

/-- `from_request_tracker`: the metadata, if there is something to load or to save, and the
tracker. -/
def fromRequestTracker (tracker : RequestTracker) (loadSpec : Option OfferedLoad) :
    Option StepReqMeta × RequestTracker :=
  if c.skipSave tracker && loadSpec.isNone then (none, tracker)
  else
    let tokenIds := c.metaTokenIds tracker
    (some
      { reqId := tracker.reqId
        tokenIds := tokenIds
        slotMapping := slotMappingOf c.blockSize tracker.allocatedBlockIds tokenIds.length
        isLastPrefill := isLastPrefill tracker
        saveSpec := ⟨tracker.numSavedTokens, !c.skipSave tracker⟩
        loadSpec := (loadSpec.filter OfferedLoad.canLoad).map OfferedLoad.toLoadSpec
        disaggSpec := tracker.disaggSpec
        requestConfigs := tracker.requestConfigs },
      if c.skipSave tracker then tracker
      else { tracker with numSavedTokens := c.numTokensToSave tracker })

end SchedulerConfig

/-! ### Lengths -/

@[simp] theorem length_applyMmHashesToTokenIds (hexHashToInt16 : String → ℤ) (tokenIds : List ℤ)
    (mmHashes : List String) (mmPositions : List PlaceholderRange) :
    (applyMmHashesToTokenIds hexHashToInt16 tokenIds mmHashes mmPositions).length =
      tokenIds.length := by
  unfold applyMmHashesToTokenIds
  induction mmHashes.zip mmPositions generalizing tokenIds with
  | nil => rfl
  | cons feature features ih =>
    grind

theorem length_slotMappingOf (blockSize : ℕ) (blocks : List ℕ) (numTokens : ℕ) :
    (slotMappingOf blockSize blocks numTokens).length =
      min numTokens (blocks.length * blockSize) := by
  simp [slotMappingOf, length_flatMap]

namespace SchedulerConfig
variable (c : SchedulerConfig) (tracker : RequestTracker)

theorem numTokensToSave_le : c.numTokensToSave tracker ≤ tracker.tokenIds.length := by
  unfold numTokensToSave
  split
  · exact Nat.div_mul_le_self _ _
  · exact le_rfl

theorem length_metaTokenIds : (c.metaTokenIds tracker).length = c.numTokensToSave tracker := by
  have hle := c.numTokensToSave_le tracker
  fun_cases metaTokenIds
  · exact length_take_of_le hle
  · rw [length_applyMmHashesToTokenIds, length_take_of_le hle]

/-- What is not cut: the full chunks, and all of a complete prompt when partial chunks are kept. -/
theorem le_numTokensToSave_iff {tracker : RequestTracker} {n : ℕ}
    (hn : n ≤ tracker.tokenIds.length) :
    n ≤ c.numTokensToSave tracker ↔
      n ≤ tracker.tokenIds.length / c.lmcacheChunkSize * c.lmcacheChunkSize ∨
        c.discardPartialChunks = false ∧ tracker.promptLen ≤ tracker.tokenIds.length := by
  unfold numTokensToSave isLastPrefill
  split
  · next hcut =>
      refine ⟨Or.inl, fun h => h.resolve_right fun hkept => ?_⟩
      simp [hkept.1, hkept.2] at hcut
  · next hcut => exact ⟨fun _ => Or.inr (by simpa [and_comm] using hcut), fun _ => hn⟩

/-- **`from_request_tracker`**: metadata with a load is made of a load that is allowed, and its
tokens and slots are those that are left after the cut. -/
theorem fromRequestTracker_spec {tracker : RequestTracker} {loadSpec : Option OfferedLoad}
    {reqMeta : StepReqMeta} (h : (c.fromRequestTracker tracker loadSpec).1 = some reqMeta) :
    reqMeta.reqId = tracker.reqId ∧ reqMeta.isLastPrefill = isLastPrefill tracker ∧
      reqMeta.tokenIds.length = c.numTokensToSave tracker ∧
      reqMeta.slotMapping.length =
        min (c.numTokensToSave tracker) (tracker.allocatedBlockIds.length * c.blockSize) ∧
      ∀ spec, reqMeta.loadSpec = some spec →
        ∃ offered, loadSpec = some offered ∧ offered.canLoad = true ∧
          offered.toLoadSpec = spec := by
  unfold fromRequestTracker at h
  split at h
  · nomatch h
  · rw [← Option.some.inj h]
    refine ⟨rfl, rfl, c.length_metaTokenIds tracker, ?_, fun spec hspec => ?_⟩
    · rw [length_slotMappingOf, length_metaTokenIds]
    · obtain ⟨offered, hoffered, heq⟩ := Option.map_eq_some_iff.mp hspec
      obtain ⟨hload, hcan⟩ := Option.filter_eq_some_iff.mp hoffered
      exact ⟨offered, hload, hcan, heq⟩

theorem fromRequestTracker_reqId (loadSpec : Option OfferedLoad) :
    (c.fromRequestTracker tracker loadSpec).2.reqId = tracker.reqId := by
  unfold fromRequestTracker
  grind

theorem fromRequestTracker_tokenIds (loadSpec : Option OfferedLoad) :
    (c.fromRequestTracker tracker loadSpec).2.tokenIds = tracker.tokenIds := by
  unfold fromRequestTracker
  grind

end SchedulerConfig

theorem take_add_length_new (allTokenIds : List ℤ) (numComputed numNew : ℕ) :
    allTokenIds.take (numComputed + ((allTokenIds.drop numComputed).take numNew).length) =
      allTokenIds.take (numComputed + numNew) := by
  rw [take_eq_take_iff, length_take, length_drop]
  omega

theorem RequestTracker.update_reqId {t t' : RequestTracker} {newTokenIds : List ℤ}
    {newBlockIds : NewBlockIds} {preempted : Bool} {lmcacheCachedTokens vllmCachedTokens : ℕ}
    {allTokenIds : Option (List ℤ)}
    (h : t.update newTokenIds newBlockIds preempted lmcacheCachedTokens vllmCachedTokens
      allTokenIds = .ok t') : t'.reqId = t.reqId := by
  cases preempted with
  | true =>
    cases allTokenIds with
    | none => nomatch h
    | some allTokenIds =>
      cases h
      split <;> rfl
  | false =>
    cases h
    split <;> rfl

/-- **A resumed request** has the tokens that one of the two caches holds and the new ones. -/
theorem RequestTracker.update_resumed (t : RequestTracker) (newTokenIds allTokenIds : List ℤ)
    (newBlockIds : NewBlockIds) (lmcacheCachedTokens vllmCachedTokens : ℕ) :
    ∃ t', t.update newTokenIds newBlockIds true lmcacheCachedTokens vllmCachedTokens
        (some allTokenIds) = .ok t' ∧
      t'.tokenIds =
        allTokenIds.take (max lmcacheCachedTokens vllmCachedTokens + newTokenIds.length) ∧
      t'.allocatedBlockIds = newBlockIds.first ∧ t'.promptLen = t.promptLen := by
  have hneeded : max (max lmcacheCachedTokens vllmCachedTokens + newTokenIds.length)
      lmcacheCachedTokens = max lmcacheCachedTokens vllmCachedTokens + newTokenIds.length := by
    omega
  refine ⟨_, rfl, ?_, ?_, ?_⟩
  · dsimp only
    split <;> simp [hneeded]
  · dsimp only
    split <;> rfl
  · dsimp only
    split <;> rfl

end LMCache.VLLM
