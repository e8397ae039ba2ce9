import LMCache.Lib.Transition
import LMCache.RawBlock.Backend

/-! # Runs of the raw block backend

Any number of threads put, remove, pin and look up chunks, while the event loop runs one
`_submit_write` for every chunk in flight.  The steps are the sections under a lock and the pieces
in which the device is written.

* **Putting.**  A thread in `batched_submit_put_task` registers its next chunk (`register`) and
  begins the put (`place`); an exception ends the batch.
* **Writing.**  A task writes the header and the payload in pieces of any length, and may fail at
  every piece.  Then it enters the chunk in the index, saves the manifest when that is due, and
  takes its key out of the put tasks.  A task whose write has failed leaves its chunk in flight.
* **Saving.**  The data is collected under the lock; the file is replaced later, in one step.

The last three fields of a state are not the backend's: the device, the manifest file with the slots
that were in flight when its data was collected, and the payload of the last completed put of
each key. -/

namespace LMCache

variable {K : Type}

/-- A manifest, with the slots that were in flight when it was made. -/
structure Saved where
  manifest : Manifest
  inflightSlots : List ℕ

/-- A thread in `batched_submit_put_task`; `registered` between the two sections of its next
item. -/
structure Putting (K : Type) where
  items : List (K × ObjData)
  registered : Bool

/-- Where `_submit_write` is; `pending` is what it has still to write. -/
inductive WriteStage where
  | writing (pending : List (ℕ × List UInt8))
  | stored
  | saving (saved : Saved)
  | ending
  | ended

/-- Where `_submit_write` begins; a payload that is too long raises. -/
def WriteStage.first : Option (List (ℕ × List UInt8)) → WriteStage
  | none => .ending
  | some pending => .writing pending

/-- A task that runs `_submit_write`. -/
structure WriteTask (K : Type) where
  key : K
  offset : ℕ
  payload : List UInt8
  stage : WriteStage

structure RawBlockState (K : Type) where
  backend : RawBlockBackend K
  putters : List (Putting K)
  tasks : List (WriteTask K)
  device : ℕ → UInt8
  file : Option Saved
  lastPut : K → Option (List UInt8)

/-- The steps of `_submit_write`. -/
inductive TaskEvent where
  | write (n : ℕ)
  | writeFails
  | finishWrite
  | maybeSave
  | replaceFile
  | saveFails
  | discard
deriving DecidableEq, Repr

inductive RawBlockEvent (K : Type) where
  | submit (keys : List K) (objs : List ObjData)
  | register (thread : ℕ)
  | place (thread : ℕ) (sizeBytes : Except PyError ℕ)
  | task (i : ℕ) (e : TaskEvent)
  | contains (key : K) (pin : Bool)
  | batchedAsyncContains (keys : List K) (pin : Bool)
  | pin (key : K)
  | unpin (key : K)
  | remove (key : K)
  | touch (key : K)

def RawBlockBackend.indexSlots (b : RawBlockBackend K) : List ℕ :=
  b.index.entries.map fun p => p.2.offset / b.slotBytes

def RawBlockBackend.inflightSlots (b : RawBlockBackend K) : List ℕ :=
  b.inflight.entries.map fun p => p.2.offset / b.slotBytes

namespace RawBlockState

/-- The payload that is completed with the section of `_submit_write` under the lock. -/
def completes [DecidableEq K] (s : RawBlockState K) (t : WriteTask K) : K → Option (List UInt8) :=
  match s.backend.inflight.get? t.key with
  | some x => if x.canceled then s.lastPut else Function.update s.lastPut t.key (some t.payload)
  | none => s.lastPut

def setStage (s : RawBlockState K) (i : ℕ) (t : WriteTask K) (stage : WriteStage) :
    RawBlockState K :=
  { s with tasks := s.tasks.set i { t with stage } }

variable [DecidableEq K]

/-- The first section for the next item: an item whose key has a put task is left out. -/
def register (s : RawBlockState K) (i : ℕ) (key : K) (obj : ObjData) (items : List (K × ObjData)) :
    RawBlockState K :=
  if key ∈ s.backend.putTasks then { s with putters := s.putters.set i ⟨items, false⟩ }
  else
    { s with
      backend := { s.backend with putTasks := insert key s.backend.putTasks }
      putters := s.putters.set i ⟨(key, obj) :: items, true⟩ }

/-- The second section, and the start of `_submit_write`. -/
def place (codec : KeyCodec K) (sizeBytes : Except PyError ℕ) (s : RawBlockState K) (i : ℕ)
    (key : K)
    (obj : ObjData) (items : List (K × ObjData)) : RawBlockState K :=
  match s.backend.beginPut sizeBytes key obj with
  | (.error _, b) => { s with backend := b, putters := s.putters.set i ⟨[], false⟩ }
  | (.ok none, b) => { s with backend := b, putters := s.putters.set i ⟨items, false⟩ }
  | (.ok (some offset), b) =>
    match b.encodeHeader codec key obj.byteArray.length with
    | none => { s with backend := b, putters := s.putters.set i ⟨[], false⟩ }
    | some header =>
      let stage := WriteStage.first (b.writesOf offset header obj.byteArray)
      { s with
        backend := b
        putters := s.putters.set i ⟨items, false⟩
        tasks := s.tasks ++ [⟨key, offset, obj.byteArray, stage⟩] }

/-- At most `n` bytes of the next write go to the device. -/
def write (s : RawBlockState K) (i n : ℕ) (t : WriteTask K) (a : ℕ) (bytes : List UInt8)
    (pending : List (ℕ × List UInt8)) : RawBlockState K :=
  let rest := bytes.drop n
  { s.setStage i t (.writing (if rest.isEmpty then pending else (a + n, rest) :: pending)) with
    device := ByteStore.write s.device a (bytes.take n) }

/-- `_maybe_save_manifest`, up to the end of the section under the lock. -/
def maybeSave (codec : KeyCodec K) (s : RawBlockState K) (i : ℕ) (t : WriteTask K) :
    RawBlockState K :=
  let b := s.backend
  if b.manifestWriteInterval = 0 then s.setStage i t .ending
  else if b.writesSinceManifestSave + 1 < b.manifestWriteInterval then
    { s.setStage i t .ending with
      backend := { b with writesSinceManifestSave := b.writesSinceManifestSave + 1 } }
  else
    { s.setStage i t (.saving ⟨b.saveManifest codec, b.inflightSlots⟩) with
      backend := { b with writesSinceManifestSave := 0 } }

/-- A step of the task `t`, which has the position `i`; `none` when it is somewhere else. -/
def taskStep (codec : KeyCodec K) (s : RawBlockState K) (i : ℕ) (t : WriteTask K) (e : TaskEvent) :
    Option (RawBlockState K) :=
  match e, t.stage with
  | .write n, .writing ((a, bytes) :: pending) => some (s.write i n t a bytes pending)
  | .writeFails, .writing _ => some (s.setStage i t .ending)
  | .finishWrite, .writing [] =>
    some { s.setStage i t .stored with
      backend := s.backend.finishWrite t.key
      lastPut := s.completes t }
  | .maybeSave, .stored => some (s.maybeSave codec i t)
  | .replaceFile, .saving saved => some { s.setStage i t .ending with file := some saved }
  | .saveFails, .saving _ => some (s.setStage i t .ending)
  | .discard, .ending =>
    some { s.setStage i t .ended with
      backend := { s.backend with putTasks := s.backend.putTasks.erase t.key } }
  | _, _ => none

/-- A step of a thread or of a task; `none` when it is not there. -/
def step (codec : KeyCodec K) (s : RawBlockState K) : RawBlockEvent K → Option (RawBlockState K)
  | .submit keys objs => some { s with putters := s.putters ++ [⟨keys.zip objs, false⟩] }
  | .register i =>
    match s.putters[i]? with
    | some ⟨(key, obj) :: items, false⟩ => some (s.register i key obj items)
    | _ => none
  | .place i sizeBytes =>
    match s.putters[i]? with
    | some ⟨(key, obj) :: items, true⟩ => some (s.place codec sizeBytes i key obj items)
    | _ => none
  | .task i e => s.tasks[i]?.bind fun t => s.taskStep codec i t e
  | .contains key pin => some { s with backend := (s.backend.contains key pin).2 }
  | .batchedAsyncContains keys pin =>
    some { s with backend := (s.backend.batchedAsyncContains pin keys).2 }
  | .pin key => some { s with backend := (s.backend.pin key).2 }
  | .unpin key => some { s with backend := (s.backend.unpin key).2 }
  | .remove key => some { s with backend := (s.backend.remove key).2 }
  | .touch key => some { s with backend := s.backend.touch key }

end RawBlockState

/-- **What a step can do**: it is one of a task, or it leaves the device, the file and the completed
puts alone and adds a task at most. -/
theorem RawBlockState.step_cases [DecidableEq K] {codec : KeyCodec K} {s s' : RawBlockState K}
    {e : RawBlockEvent K} (h : s.step codec e = some s') :
    (∃ i t e', e = .task i e' ∧ s.tasks[i]? = some t ∧ s.taskStep codec i t e' = some s') ∨
      (s'.device = s.device ∧ s'.file = s.file ∧ s'.lastPut = s.lastPut ∧
        (s'.tasks = s.tasks ∨ ∃ t, s'.tasks = s.tasks ++ [t] ∧
          ∀ saved, t.stage ≠ .saving saved)) := by
  revert h
  fun_cases step codec s e <;> intro h
  case case6 i e =>
    obtain ⟨t, ht, htask⟩ := Option.bind_eq_some_iff.mp h
    exact Or.inl ⟨i, t, e, rfl, ht, htask⟩
  all_goals cases h
  all_goals refine Or.inr ?_
  case case2 =>
    unfold register
    split_ifs <;> exact ⟨rfl, rfl, rfl, Or.inl rfl⟩
  case case4 sizeBytes key obj _ _ =>
    unfold place
    generalize s.backend.beginPut sizeBytes key obj = r
    obtain ⟨_ | _ | _, b⟩ := r
    · exact ⟨rfl, rfl, rfl, Or.inl rfl⟩
    · exact ⟨rfl, rfl, rfl, Or.inl rfl⟩
    · dsimp only
      split
      · exact ⟨rfl, rfl, rfl, Or.inl rfl⟩
      · refine ⟨rfl, rfl, rfl, Or.inr ⟨_, rfl, fun saved => ?_⟩⟩
        cases b.writesOf _ _ obj.byteArray with
        | none => exact nofun
        | some pending => exact nofun
  all_goals exact ⟨rfl, rfl, rfl, Or.inl rfl⟩

/-- All runs of a backend that starts without a manifest, on any device. -/
def rawBlockSystem [DecidableEq K] (codec : KeyCodec K) (config : RawBlockConfig) :
    LTS (RawBlockState K) (RawBlockEvent K) where
  init s := ∃ b device, RawBlockBackend.new config = .ok b ∧
    s = ⟨b, [], [], device, none, fun _ => none⟩
  step s e s' := s.step codec e = some s'

def RawBlockState.start (b : RawBlockBackend K) (device : ℕ → UInt8) : RawBlockState K :=
  ⟨b, [], [], device, none, fun _ => none⟩

theorem RawBlockState.exists_run [DecidableEq K] (codec : KeyCodec K) (device : ℕ → UInt8)
    {config : RawBlockConfig} {b : RawBlockBackend K} (hb : RawBlockBackend.new config = .ok b)
    {P : RawBlockState K → Prop} (es : List (RawBlockEvent K))
    (h : ∃ s ∈ es.foldlM (step codec) (start b device), P s) :
    ∃ s, (rawBlockSystem codec config).Reachable s ∧ P s :=
  LTS.Reachable.exists_replay (S := rawBlockSystem codec config) (fun _ _ _ => id) es
    (.init ⟨b, device, hb, rfl⟩) h

/-! ### A small device -/

def textCodec : KeyCodec String where
  toText := id
  fromText := some
  dtype _ := ⟨"uint8", 1⟩
  chunkHash key := some key.length

/-- A device of `n` slots, each with a payload of eight bytes. -/
def smallConfig (n : ℕ) : RawBlockConfig where
  devicePath := "/dev/sdx"
  capacityBytes := n * 32
  blockAlign := 8
  headerBytes := 24
  slotBytes := some 32
  useOdirect := false
  manifestWriteInterval := 1
  fullChunkBytes := 8

/-- The backend of a device of `n` slots. -/
def smallBackend (n : ℕ) : RawBlockBackend String where
  devicePath := "/dev/sdx"
  capacityBytes := n * 32
  blockAlign := 8
  headerBytes := 24
  slotBytes := 32
  useOdirect := false
  manifestWriteInterval := 1

theorem new_smallConfig (n : ℕ) : RawBlockBackend.new (smallConfig n) = .ok (smallBackend n) := by
  simp [RawBlockBackend.new, smallConfig, smallBackend]

def smallObj (x : UInt8) : ObjData := ⟨[x], [1], ⟨"uint8", 1⟩, none, .kv2ltd⟩

/-- The steps of a put of one chunk up to its write: the thread has the number `thread`. -/
def beginsPut (thread : ℕ) (key : String) (x : UInt8) : List (RawBlockEvent String) :=
  [.submit [key] [smallObj x], .register thread, .place thread (.ok 0)]

/-- The steps of `_submit_write`; the header and the payload are written at once. -/
def completesPut (i : ℕ) : List (RawBlockEvent String) :=
  [.task i (.write 24), .task i (.write 1), .task i .finishWrite, .task i .maybeSave,
    .task i .replaceFile, .task i .discard]

end LMCache
