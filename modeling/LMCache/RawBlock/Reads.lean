import LMCache.RawBlock.DeviceContents

/-! # Reads of the raw block backend

`get_blocking` looks its entry up under the lock and reads the device without it.  A reader is a
second kind of thread beside those of `rawBlockSystem`: it has looked an entry up, and the bytes of
the payload arrive in pieces, between which all other threads go on.

* `ReadState` adds the readers, and the completed puts as a history.
* `Keeps` is the condition on a step that no entry which is being read leaves the index.

**Main result**: `reads_return_own_payloads`: under this condition a read returns the payload of a
completed put of its key.  Without it the slot may be evicted and written for another key between
the lookup and the read (`read_returns_foreign_payload`). -/

namespace LMCache

open List

variable {K : Type}

/-- A thread in `get_blocking` after the lookup: its buffer, the bytes that have arrived, and what
it has returned. -/
structure Reader (K : Type) where
  key : K
  entry : BlockEntry
  buf : List UInt8
  got : List UInt8
  result : Option (List UInt8)

def Reader.Reading (r : Reader K) : Prop := r.got.length < r.entry.metadata.size

instance (r : Reader K) : Decidable r.Reading := Nat.decLt _ _

/-- The backend with its readers; `stored` is the history of the completed puts. -/
structure ReadState (K : Type) where
  base : RawBlockState K
  readers : List (Reader K)
  stored : List (K × List UInt8)

inductive ReadEvent (K : Type) where
  | base (e : RawBlockEvent K)
  | lookup (key : K) (buf : Option (List UInt8))
  | pread (i n : ℕ)
  | preadFails (i : ℕ)
  | finish (i : ℕ)

def RawBlockState.completedBy [DecidableEq K] (s : RawBlockState K) :
    RawBlockEvent K → List (K × List UInt8)
  | .task i .finishWrite =>
    match s.tasks[i]? with
    | none => []
    | some t =>
      match s.backend.inflight.get? t.key with
      | none => []
      | some x => if x.canceled then [] else [(t.key, t.payload)]
  | _ => []

namespace ReadState

variable [DecidableEq K]

/-- The lookup under the lock, and the allocation: a thread that raises or returns `None` is
gone. -/
def lookup (s : ReadState K) (key : K) (buf : Option (List UInt8)) : ReadState K :=
  match s.base.backend.index.get? key, buf with
  | some entry, some buf =>
    if buf.length < entry.metadata.size then s
    else { s with readers := s.readers ++ [⟨key, entry, buf, [], none⟩] }
  | _, _ => s

/-- At most `n` bytes more arrive. -/
def pread (s : ReadState K) (i n : ℕ) (r : Reader K) : ReadState K :=
  let b := s.base.backend
  let piece := ByteStore.read s.base.device (r.entry.offset + b.headerBytes + r.got.length)
    (min n (r.entry.metadata.size - r.got.length))
  { s with readers := s.readers.set i { r with got := r.got ++ piece } }

/-- The last section under the lock, and the return. -/
def finish (s : ReadState K) (i : ℕ) (r : Reader K) : ReadState K :=
  { s with
    base := { s.base with backend := s.base.backend.touch r.key }
    readers := s.readers.set i
      { r with result := some (r.got ++ r.buf.drop r.entry.metadata.size) } }

/-- A step of a thread of the backend, or of a reader. -/
def step (codec : KeyCodec K) (s : ReadState K) : ReadEvent K → Option (ReadState K)
  | .base e => (s.base.step codec e).map fun base =>
    { s with base, stored := s.stored ++ s.base.completedBy e }
  | .lookup key buf => some (s.lookup key buf)
  | .pread i n => s.readers[i]?.bind fun r => if r.Reading then some (s.pread i n r) else none
  | .preadFails i =>
    if i < s.readers.length then some { s with readers := s.readers.eraseIdx i } else none
  | .finish i => s.readers[i]?.bind fun r =>
    if r.Reading ∨ r.result.isSome then none else some (s.finish i r)

end ReadState

def readSystem [DecidableEq K] (codec : KeyCodec K) (config : RawBlockConfig) :
    LTS (ReadState K) (ReadEvent K) where
  init s := (rawBlockSystem codec config).init s.base ∧ s.readers = [] ∧ s.stored = []
  step s e s' := s.step codec e = some s'

namespace ReadState

variable [DecidableEq K] {codec : KeyCodec K} {s s' : ReadState K}

/-! ### Conditions on a step -/

/-- The objects that are put fit in their slots, and buffers have the size of their chunk. -/
def Fits (s : ReadState K) : ReadEvent K → Prop
  | .base e => s.base.Fitting e
  | .lookup key (some buf) => ∀ entry ∈ s.base.backend.index.get? key,
      buf.length = entry.metadata.shape.numel * entry.metadata.dtype.itemsize
  | _ => True

/-- No entry that is being read leaves the index. -/
def Keeps (codec : KeyCodec K) (s : ReadState K) (e : ReadEvent K) : Prop :=
  ∀ s' ∈ s.step codec e, ∀ r ∈ s.readers, r.Reading →
    s.base.backend.index.get? r.key = some r.entry → s'.base.backend.index.get? r.key = some r.entry

instance (s : ReadState K) (e : ReadEvent K) : Decidable (s.Fits e) := by
  unfold Fits
  split <;> infer_instance

instance (s : ReadState K) (e : ReadEvent K) : Decidable (s.Keeps codec e) := by
  unfold Keeps
  infer_instance

end ReadState

/-! ### Completed puts -/

theorem RawBlockState.lastPut_step [DecidableEq K] {codec : KeyCodec K} {s s' : RawBlockState K}
    {e : RawBlockEvent K} (hstep : s.step codec e = some s') :
    s'.lastPut = s.lastPut ∨ ∃ key payload, s.completedBy e = [(key, payload)] ∧
      key ∈ s.backend.inflight.keys ∧
      s'.lastPut = Function.update s.lastPut key (some payload) := by
  rcases step_cases hstep with ⟨i, t, e', rfl, ht, htask⟩ | ⟨-, -, hlast, -⟩
  · revert htask
    fun_cases taskStep codec s i t e' <;> rintro ⟨⟩
    case case3 =>
      cases hx : s.backend.inflight.get? t.key with
      | none => exact Or.inl (by simp only [completes, hx])
      | some x =>
        cases hcanceled : x.canceled with
        | true => exact Or.inl (by simp only [completes, hx, hcanceled, if_true])
        | false =>
          refine Or.inr ⟨t.key, t.payload, ?_, Dict.mem_keys_iff.mpr ⟨x, hx⟩, ?_⟩
          · simp [completedBy, ht, hx, hcanceled]
          · simp [completes, hx, hcanceled]
    case case4 => fun_cases maybeSave <;> exact Or.inl rfl
    all_goals exact Or.inl rfl
  · exact Or.inl hlast

namespace ReadState

variable [DecidableEq K] {codec : KeyCodec K} {s s' : ReadState K}

/-! ### The invariant -/

/-- What a reader has got so far is the beginning of a payload that was put under its key; as long
as it reads, that is the last completed put, and its entry is in the index. -/
structure Reads (s : ReadState K) (r : Reader K) (payload : List UInt8) : Prop where
  mem : (r.key, payload) ∈ s.stored
  size : r.entry.metadata.size = payload.length
  buf : r.buf.length = payload.length
  got : r.got = payload.take r.got.length
  reading : r.Reading → s.base.backend.index.get? r.key = some r.entry ∧
    s.base.lastPut r.key = some payload
  result : ∀ bytes, r.result = some bytes → bytes = payload

structure ReadInv (s : ReadState K) : Prop where
  slots : s.base.SlotInv
  device : s.base.DeviceInv
  stored : ∀ key payload, s.base.lastPut key = some payload → (key, payload) ∈ s.stored
  readers : ∀ r ∈ s.readers, ∃ payload, s.Reads r payload

theorem Reads.got_eq {r : Reader K} {payload : List UInt8} (h : s.Reads r payload)
    (hread : ¬ r.Reading) : r.got = payload := by
  have hlen := Nat.not_lt.mp hread
  rw [h.size] at hlen
  exact h.got.trans (take_of_length_le hlen)

/-- **The other threads**: the entry that is read stays, so its key is not put again. -/
theorem ReadInv.base (h : s.ReadInv) {e : RawBlockEvent K} {base : RawBlockState K}
    (hfit : s.base.Fitting e) (hkeep : ∀ r ∈ s.readers, r.Reading →
      s.base.backend.index.get? r.key = some r.entry → base.backend.index.get? r.key = some r.entry)
    (hstep : s.base.step codec e = some base) :
    ReadInv { s with base, stored := s.stored ++ s.base.completedBy e } := by
  have hlast := RawBlockState.lastPut_step hstep
  refine ⟨h.slots.step hstep, h.device.step h.slots hfit hstep, fun key payload hput => ?_,
    fun r hr => ?_⟩
  · rcases hlast with heq | ⟨key', payload', hcompleted, -, heq⟩
    · exact mem_append_left _ (h.stored key payload (heq ▸ hput))
    · dsimp only at hput ⊢
      rw [heq, Function.update_apply] at hput
      split_ifs at hput with hkey
      · grind
      · exact mem_append_left _ (h.stored key payload hput)
  · obtain ⟨payload, hreads⟩ := h.readers r hr
    refine ⟨payload, { hreads with mem := mem_append_left _ hreads.mem, reading := fun hreading =>
      ?_ }⟩
    obtain ⟨hentry, hput⟩ := hreads.reading hreading
    refine ⟨hkeep r hr hreading hentry, ?_⟩
    rcases hlast with heq | ⟨key', payload', -, hinflight, heq⟩
    · exact heq ▸ hput
    · dsimp only
      rw [heq, Function.update_of_ne]
      · exact hput
      · rintro rfl
        exact h.slots.backend.apart _ hinflight (Dict.mem_keys_iff.mpr ⟨_, hentry⟩)

theorem ReadInv.lookup (h : s.ReadInv) {key : K} {buf : Option (List UInt8)}
    (hfit : s.Fits (.lookup key buf)) : (s.lookup key buf).ReadInv := by
  fun_cases ReadState.lookup
  · exact h
  next entry buf hentry _ =>
    refine { h with readers := fun r hr => ?_ }
    rcases mem_append.mp hr with hr | hr
    · obtain ⟨payload, hreads⟩ := h.readers r hr
      exact ⟨payload, { hreads with }⟩
    · obtain rfl := mem_singleton.mp hr
      obtain ⟨payload, hput, hstored⟩ := h.device.index key entry hentry
      have hbuf : buf.length = _ := hfit entry hentry
      exact ⟨payload, h.stored key payload hput, hstored.size,
        (hbuf.trans hstored.numel.symm).trans hstored.size, rfl, fun _ => ⟨hentry, hput⟩, nofun⟩
  · exact h

/-- **A piece arrives**: the slot still has the payload. -/
theorem ReadInv.pread (h : s.ReadInv) {i : ℕ} (n : ℕ) {r : Reader K} (hr : s.readers[i]? = some r)
    (hreading : r.Reading) : (s.pread i n r).ReadInv := by
  refine { h with readers := fun r' hr' => ?_ }
  rcases mem_or_eq_of_mem_set hr' with hr' | rfl
  · obtain ⟨payload, hreads⟩ := h.readers r' hr'
    exact ⟨payload, { hreads with }⟩
  · obtain ⟨payload, hreads⟩ := h.readers r (mem_of_getElem? hr)
    obtain ⟨hentry, hput⟩ := hreads.reading hreading
    obtain ⟨payload', hput', hstored⟩ := h.device.index r.key r.entry hentry
    obtain rfl : payload' = payload := Option.some.inj (hput'.symm.trans hput)
    have hlt : r.got.length < payload'.length := hreads.size ▸ hreading
    refine ⟨payload', { hreads with got := ?_, reading := fun _ => ⟨hentry, hput⟩ }⟩
    rw [ByteStore.read_add (n := payload'.length) (by rw [hreads.size]; omega), hstored.read]
    generalize hk : min n (r.entry.metadata.size - r.got.length) = k
    have hle : k ≤ payload'.length - r.got.length := by
      rw [← hk, hreads.size]
      exact Nat.min_le_right _ _
    have hlen : (r.got ++ (payload'.drop r.got.length).take k).length = r.got.length + k := by
      rw [length_append, length_take, length_drop, Nat.min_eq_left hle]
    rw [hlen, take_add, ← hreads.got]

/-- A read is over: its device reads are the whole payload, and its buffer has no room for more. -/
theorem ReadInv.finish (h : s.ReadInv) {i : ℕ} {r : Reader K} (hr : s.readers[i]? = some r)
    (hreading : ¬ r.Reading) : (s.finish i r).ReadInv := by
  refine ⟨h.slots.of_places rfl, h.device.of_places rfl rfl, h.stored, fun r' hr' => ?_⟩
  rcases mem_or_eq_of_mem_set hr' with hr' | rfl
  · obtain ⟨payload, hreads⟩ := h.readers r' hr'
    exact ⟨payload, { hreads with }⟩
  · obtain ⟨payload, hreads⟩ := h.readers r (mem_of_getElem? hr)
    refine ⟨payload, { hreads with result := fun bytes hbytes => ?_ }⟩
    cases hbytes
    rw [hreads.got_eq hreading, drop_eq_nil_of_le (by rw [hreads.buf, hreads.size]), append_nil]

theorem ReadInv.step (h : s.ReadInv) {e : ReadEvent K} (hfit : s.Fits e) (hkeep : s.Keeps codec e)
    (hstep : s.step codec e = some s') : s'.ReadInv := by
  cases e with
  | base e =>
    obtain ⟨base, hbase, rfl⟩ := Option.map_eq_some_iff.mp hstep
    exact h.base hfit (hkeep _ hstep) hbase
  | lookup key buf =>
    cases hstep
    exact h.lookup hfit
  | pread i n =>
    obtain ⟨r, hr, hif⟩ := Option.bind_eq_some_iff.mp hstep
    split_ifs at hif with hreading
    cases hif
    exact h.pread n hr hreading
  | preadFails i =>
    dsimp only [ReadState.step] at hstep
    split_ifs at hstep
    cases hstep
    refine { h with readers := fun r hr => ?_ }
    obtain ⟨payload, hreads⟩ := h.readers r (mem_of_mem_eraseIdx hr)
    exact ⟨payload, { hreads with }⟩
  | finish i =>
    obtain ⟨r, hr, hif⟩ := Option.bind_eq_some_iff.mp hstep
    split_ifs at hif with hover
    cases hif
    exact h.finish hr fun hreading => hover (Or.inl hreading)

theorem readInv_reachable {config : RawBlockConfig}
    (h : ((readSystem codec config).restrict fun s e => s.Fits e ∧ s.Keeps codec e).Reachable s) :
    s.ReadInv := by
  refine h.invariant ?_ ?_
  · rintro s ⟨hinit, hreaders, -⟩
    have hslots := RawBlockState.slotInv_reachable (.init hinit)
    obtain ⟨b, device, hb, hbase⟩ := hinit
    refine ⟨hslots, hbase ▸ RawBlockState.deviceInv_start hb device, ?_, ?_⟩
    · rw [hbase]
      exact nofun
    · rw [hreaders]
      exact nofun
  · rintro s e s' hs ⟨⟨hfit, hkeep⟩, hstep⟩
    exact hs.step hfit hkeep hstep

/-- **Reads.**  In every run of puts that fit and of reads whose entries stay in the index until the
device is read, what a read returns was put under its key. -/
theorem reads_return_own_payloads {config : RawBlockConfig}
    (h : ((readSystem codec config).restrict fun s e => s.Fits e ∧ s.Keeps codec e).Reachable s)
    {r : Reader K} (hr : r ∈ s.readers) {bytes : List UInt8} (hresult : r.result = some bytes) :
    (r.key, bytes) ∈ s.stored := by
  obtain ⟨payload, hreads⟩ := (readInv_reachable h).readers r hr
  rw [hreads.result bytes hresult]
  exact hreads.mem

theorem exists_run (ok : ReadState K → ReadEvent K → Prop) [∀ s e, Decidable (ok s e)]
    (codec : KeyCodec K) {config : RawBlockConfig} {b : RawBlockBackend K}
    (hb : RawBlockBackend.new config = .ok b) {P : ReadState K → Prop} (es : List (ReadEvent K))
    (h : ∃ s ∈ es.foldlM (LTS.guard ok (step codec)) ⟨.start b 0, [], []⟩, P s) :
    ∃ s, ((readSystem codec config).restrict ok).Reachable s ∧ P s :=
  LTS.Reachable.exists_guard (S := readSystem codec config) (fun _ _ _ => id) es
    (.init ⟨⟨b, 0, hb, rfl⟩, rfl, rfl⟩) h

/-- What the readers have returned, under which keys. -/
def returned (s : ReadState K) : List (K × List UInt8) :=
  s.readers.filterMap fun r => r.result.map fun bytes => (r.key, bytes)

/-- A read of the chunk `a` around a put of the chunk `b`. -/
def readAround : List (ReadEvent String) :=
  (beginsPut 0 "a" 1 ++ completesPut 0).map .base ++ [.lookup "a" (some [0])] ++
    (beginsPut 1 "b" 2 ++ completesPut 1).map .base ++ [.pread 0 1, .finish 0]

theorem reads_return_own_payloads_two_slots : ∃ s,
    ((readSystem textCodec (smallConfig 2)).restrict
      fun s e => s.Fits e ∧ s.Keeps textCodec e).Reachable s ∧
    ∃ r ∈ s.readers, r.result = some [1] ∧ (r.key, [1]) ∈ s.stored := by
  obtain ⟨s, hs, r, hr, hresult⟩ := exists_run (fun s e => s.Fits e ∧ s.Keeps textCodec e) textCodec
    (new_smallConfig 2) (P := fun s => ∃ r ∈ s.readers, r.result = some [1]) readAround
    (by decide +kernel)
  exact ⟨s, hs, r, hr, hresult, reads_return_own_payloads hs hr hresult⟩

/-- **Foreign bytes**: with one slot the put of `b` evicts `a` after its lookup and writes its slot
before it is read. -/
theorem read_returns_foreign_payload : ∃ s,
    ((readSystem textCodec (smallConfig 1)).restrict Fits).Reachable s ∧
    s.returned = [("a", [2])] ∧ s.stored = [("a", [1]), ("b", [2])] := by
  exact exists_run Fits textCodec (new_smallConfig 1) readAround (by decide +kernel)

end ReadState

end LMCache
