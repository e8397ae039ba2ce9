import LMCache.Controller.FullSyncRuns

/-! # Full sync: the worker's side

`FullSyncSender.start_full_sync` sends a start message until it is accepted, all batches, an end
message, and status queries until the controller lets it go; missing batches are sent again.  The
model follows the call from one await to the next.

* **Batches.** `batches` cuts the snapshot into slices.
* **Messages.** A message is given by its kind and the snapshot of its call.
* **Call.** `Call` is a call in progress and `Call.next` its next step: a reply that came or did
  not come, the next message of a loop, or an exception.  A call ends with `CallStep.returned`.

Delays and the freeze mode of the engine are left out: they decide when a step is taken, not what
it does. -/

namespace LMCache.Controller

open List

/-! ### Batches -/

structure SenderConfig where
  address : WorkerAddress
  batchSize : ℕ
  maxRetryCount : ℕ
  maxPollAttempts : ℕ

namespace SenderConfig
variable (cfg : SenderConfig) (keys : List ℤ)

def batchCount : ℕ := max ((keys.length + cfg.batchSize - 1) / cfg.batchSize) 1

/-- `keys[start_idx:end_idx]`. -/
def batchKeys (batchId : ℕ) : List ℤ :=
  let startIdx := batchId * cfg.batchSize
  let endIdx := min (startIdx + cfg.batchSize) keys.length
  (keys.take endIdx).drop startIdx

def batches : List (List ℤ) := (List.range (cfg.batchCount keys)).map (cfg.batchKeys keys)

end SenderConfig

/-! ### The call `start_full_sync` -/

inductive SyncPhase where
  /-- waits for the reply to the start message -/
  | starting (attempt : ℕ)
  /-- the loop of `_send_key_batches` -/
  | sending (batchId : ℕ)
  /-- waits for the reply to a status query -/
  | polling (pollAttempt resendCount : ℕ)
  /-- the loop of `_resend_missing_batches` -/
  | resending (missing : List ℕ) (pollAttempt resendCount : ℕ)
deriving DecidableEq, Repr

structure Call where
  syncId : String
  keys : List ℤ
  phase : SyncPhase
deriving DecidableEq, Repr

inductive CallStep where
  | running (call : Call)
  | returned (success : Bool)
deriving DecidableEq, Repr

inductive SenderEvent where
  /-- the reply to the start message; `none` for an error or a time-out -/
  | startReply (ret : Option FullSyncStartRetMsg)
  /-- the next message of a loop -/
  | sendNext
  /-- the reply to the status query -/
  | statusReply (ret : Option FullSyncStatusRetMsg)
  /-- an exception, which ends the call -/
  | raise
deriving DecidableEq

namespace Call

def nextAttempt (cfg : SenderConfig) (call : Call) (attempt : ℕ) : CallStep × List SyncMsg :=
  if attempt < cfg.maxRetryCount then
    (.running { call with phase := .starting attempt }, [.start call.syncId])
  else (.returned false, [])

/-- The loop over the status query.  When it runs out, the call still returns `True`. -/
def nextPoll (cfg : SenderConfig) (call : Call) (pollAttempt resendCount : ℕ) :
    CallStep × List SyncMsg :=
  if pollAttempt < cfg.maxPollAttempts then
    (.running { call with phase := .polling pollAttempt resendCount }, [.status call.syncId])
  else (.returned true, [])

/-- `start_full_sync` up to its first await.  A batch size of `0` raises `ZeroDivisionError`. -/
def start (cfg : SenderConfig) (syncId : String) (keys : List ℤ) : CallStep × List SyncMsg :=
  if cfg.batchSize = 0 then (.returned false, [])
  else nextAttempt cfg ⟨syncId, keys, .starting 0⟩ 0

def onStartReply (cfg : SenderConfig) (call : Call) (attempt : ℕ)
    (ret : Option FullSyncStartRetMsg) : CallStep × List SyncMsg :=
  if ret.any (·.accepted) then (.running { call with phase := .sending 0 }, [])
  else nextAttempt cfg call (attempt + 1)

def onStatusReply (cfg : SenderConfig) (call : Call) (pollAttempt resendCount : ℕ) :
    Option FullSyncStatusRetMsg → CallStep × List SyncMsg
  | none => nextPoll cfg call (pollAttempt + 1) resendCount
  | some status =>
    if status.canExitFreeze then (.returned true, [])
    else if status.missingBatches ≠ [] ∧ resendCount < cfg.maxRetryCount then
      (.running { call with
        phase := .resending status.missingBatches pollAttempt (resendCount + 1) }, [])
    else nextPoll cfg call (pollAttempt + 1) resendCount

/-- The end message, and the first or next status query. -/
def finishAndPoll (cfg : SenderConfig) (call : Call) (pollAttempt resendCount : ℕ) :
    CallStep × List SyncMsg :=
  let (step, msgs) := nextPoll cfg call pollAttempt resendCount
  (step, .finish call.syncId :: msgs)

/-- The next step of the call; `none` when it waits for something else. -/
def next (cfg : SenderConfig) (call : Call) (e : SenderEvent) :
    Option (CallStep × List SyncMsg) :=
  match e, call.phase with
  | .raise, _ => some (.returned false, [])
  | .startReply ret, .starting attempt => some (call.onStartReply cfg attempt ret)
  | .sendNext, .sending batchId =>
    if batchId < cfg.batchCount call.keys then
      some (.running { call with phase := .sending (batchId + 1) },
        [.batch call.syncId batchId])
    else some (call.finishAndPoll cfg 0 0)
  | .statusReply ret, .polling pollAttempt resendCount =>
    some (call.onStatusReply cfg pollAttempt resendCount ret)
  | .sendNext, .resending (batchId :: missing) pollAttempt resendCount =>
    some (.running { call with phase := .resending missing pollAttempt resendCount },
      [.batch call.syncId batchId])
  | .sendNext, .resending [] pollAttempt resendCount =>
    some (call.finishAndPoll cfg (pollAttempt + 1) resendCount)
  | _, _ => none

def Own (call : Call) (out : CallStep × List SyncMsg) : Prop :=
  (∀ m ∈ out.2, m.syncId = call.syncId) ∧
    ∀ call', out.1 = .running call' → call'.syncId = call.syncId ∧ call'.keys = call.keys

section own
variable {cfg : SenderConfig} {call : Call}

theorem own_running (phase : SyncPhase) {msgs : List SyncMsg}
    (h : ∀ m ∈ msgs, m.syncId = call.syncId) :
    call.Own (.running { call with phase := phase }, msgs) := by
  refine ⟨h, fun call' hcall => ?_⟩
  grind

theorem own_returned (success : Bool) : call.Own (.returned success, []) :=
  ⟨fun _ hm => absurd hm not_mem_nil, fun _ hcall => nomatch hcall⟩

theorem own_nextAttempt (attempt : ℕ) : call.Own (nextAttempt cfg call attempt) := by
  unfold nextAttempt
  split_ifs
  · exact own_running _ (by simp [SyncMsg.syncId])
  · exact own_returned false

variable (pollAttempt resendCount : ℕ)

theorem own_nextPoll : call.Own (nextPoll cfg call pollAttempt resendCount) := by
  unfold nextPoll
  split_ifs
  · exact own_running _ (by simp [SyncMsg.syncId])
  · exact own_returned true

theorem own_finishAndPoll : call.Own (finishAndPoll cfg call pollAttempt resendCount) := by
  obtain ⟨hmsgs, hcall⟩ := @own_nextPoll cfg call pollAttempt resendCount
  refine ⟨fun m hm => ?_, hcall⟩
  rcases mem_cons.mp hm with rfl | hm
  · rfl
  · exact hmsgs m hm

theorem own_onStatusReply (ret : Option FullSyncStatusRetMsg) :
    call.Own (onStatusReply cfg call pollAttempt resendCount ret) := by
  cases ret with
  | none => exact own_nextPoll _ _
  | some status =>
    unfold onStatusReply
    dsimp only
    split_ifs
    · exact own_returned true
    · exact own_running _ (by simp)
    · exact own_nextPoll _ _

theorem own_start (syncId : String) (keys : List ℤ) (phase : SyncPhase) :
    Own ⟨syncId, keys, phase⟩ (start cfg syncId keys) := by
  unfold start
  split_ifs
  · exact own_returned false
  · exact @own_nextAttempt cfg ⟨syncId, keys, .starting 0⟩ 0

/-- **A call speaks of its own sync only.** -/
theorem own_next {e : SenderEvent} {out : CallStep × List SyncMsg}
    (h : call.next cfg e = some out) : call.Own out := by
  revert h
  fun_cases call.next cfg e <;> rintro ⟨⟩
  · exact own_returned false
  · unfold onStartReply
    split_ifs
    · exact own_running _ (by simp)
    · exact own_nextAttempt _
  · exact own_running _ (by simp [SyncMsg.syncId])
  · exact own_finishAndPoll _ _
  · exact own_onStatusReply _ _ _
  · exact own_running _ (by simp [SyncMsg.syncId])
  · exact own_finishAndPoll _ _

end own

end Call

end LMCache.Controller
