import LMCache.RawBlock.SlotConservation

/-! # What is on the device

A task writes inside the slot of its chunk, as long as chunks fit in their slots; so it leaves all
other slots alone.

* `Stored`: the payload of a chunk is in its slot, and its metadata are right.
* `DeviceInv`: the chunks of the index are stored, and a chunk in flight is stored once its task
  has written what is left.
* `Fitting`: the condition on a run, that the objects which are put fit.

**Main result**: `deviceInv_reachable`. -/

namespace LMCache

open List RawBlockBackend ByteStore

theorem le_roundUp (x : ℕ) {align : ℕ} (h : 0 < align) : x ≤ roundUp x align := by
  have hmod := Nat.mod_lt (x + align - 1) h
  have hdiv := Nat.div_add_mod (x + align - 1) align
  rw [roundUp, Nat.mul_comm]
  omega

namespace RawBlockBackend

variable {K : Type} {b b' : RawBlockBackend K} {device device' : ℕ → UInt8} {offset : ℕ}
  {m : DiskCacheMetadata} {payload header : List UInt8} {obj : ObjData}

/-! ### Chunks that fit -/

/-- The header and the payload of a chunk stay inside of a slot, and its bytes are as many as its
shape and dtype say. -/
structure ObjFits (b : RawBlockBackend K) (obj : ObjData) : Prop where
  header : b.transferLen (max 24 b.headerBytes) ≤ b.slotBytes
  payload : b.headerBytes + b.transferLen obj.byteArray.length ≤ b.slotBytes
  size : obj.byteArray.length = obj.shape.numel * obj.dtype.itemsize

instance : Decidable (b.ObjFits obj) :=
  decidable_of_iff (b.transferLen (max 24 b.headerBytes) ≤ b.slotBytes ∧
    b.headerBytes + b.transferLen obj.byteArray.length ≤ b.slotBytes ∧
    obj.byteArray.length = obj.shape.numel * obj.dtype.itemsize)
    ⟨fun h => ⟨h.1, h.2.1, h.2.2⟩, fun h => ⟨h.header, h.payload, h.size⟩⟩

/-- The payload of a chunk is in the slot at `offset`, and its metadata are right. -/
structure Stored (b : RawBlockBackend K) (device : ℕ → UInt8) (offset : ℕ) (m : DiskCacheMetadata)
    (payload : List UInt8) : Prop where
  size : m.size = payload.length
  numel : m.size = m.shape.numel * m.dtype.itemsize
  fits : b.headerBytes + payload.length ≤ b.slotBytes
  read : ByteStore.read device (offset + b.headerBytes) payload.length = payload

/-- A write inside of the slot at `offset`. -/
def Inside (b : RawBlockBackend K) (offset : ℕ) (w : ℕ × List UInt8) : Prop :=
  offset ≤ w.1 ∧ w.1 + w.2.length ≤ offset + b.slotBytes

theorem ObjFits.of_static (h : b.ObjFits obj) (hb : b'.static = b.static) : b'.ObjFits obj := by
  simp only [static, Prod.mk.injEq] at hb
  obtain ⟨-, halign, hheader, hslot, hdirect, -⟩ := hb
  refine ⟨?_, ?_, h.size⟩
  · rw [transferLen, hheader, hdirect, halign, hslot]
    exact h.header
  · rw [transferLen, hheader, hdirect, halign, hslot]
    exact h.payload

theorem Stored.of_static (h : b.Stored device offset m payload) (hb : b'.static = b.static) :
    b'.Stored device offset m payload := by
  simp only [static, Prod.mk.injEq] at hb
  obtain ⟨-, -, hheader, hslot, -⟩ := hb
  refine ⟨h.size, h.numel, ?_, ?_⟩
  · rw [hheader, hslot]
    exact h.fits
  · rw [hheader]
    exact h.read

theorem Stored.congr (h : b.Stored device offset m payload)
    (heq : ∀ x, offset ≤ x → x < offset + b.slotBytes → device' x = device x) :
    b.Stored device' offset m payload := by
  refine { h with read := Eq.trans ?_ h.read }
  have hfits := h.fits
  exact read_congr fun x hle hlt => heq x (by omega) (by omega)

theorem Inside.write_eq {w : ℕ × List UInt8} {offset' : ℕ} (h : b.Inside offset w)
    (hapart : offset + b.slotBytes ≤ offset' ∨ offset' + b.slotBytes ≤ offset) {x : ℕ}
    (hle : offset' ≤ x) (hlt : x < offset' + b.slotBytes) : write device w.1 w.2 x = device x := by
  obtain ⟨hstart, hstop⟩ := h
  exact write_outside (by omega)

/-! ### The writes of a put -/

theorem length_assignSlice {l v : List UInt8} {i j : ℕ} (hi : i ≤ l.length)
    (hv : i + v.length = j) :
    (assignSlice l i j v).length = max j l.length := by
  rw [assignSlice, length_append, length_append, length_take, length_drop]
  omega

theorem length_littleEndian (n x : ℕ) : (littleEndian n x).length = n := by
  induction n generalizing x with
  | zero => rfl
  | succ n ih => rw [littleEndian, length_cons, ih]

theorem length_encodeHeader {codec : KeyCodec K} {key : K} {n : ℕ}
    (h : b.encodeHeader codec key n = some header) : header.length = max 24 b.headerBytes := by
  obtain ⟨chunkHash, -, rfl⟩ := Option.map_eq_some_iff.mp h
  have h₁ : (assignSlice (replicate b.headerBytes 0) 0 8 [76, 77, 67, 66, 76, 75, 48, 49]).length =
      max 8 b.headerBytes := by
    rw [length_assignSlice (j := 8) (Nat.zero_le _) rfl, length_replicate]
  have h₂ : ∀ v : List UInt8, v.length = 8 → (assignSlice (assignSlice (replicate b.headerBytes 0)
      0 8 [76, 77, 67, 66, 76, 75, 48, 49]) 8 16 v).length = max 16 b.headerBytes := by
    intro v hv
    rw [length_assignSlice (by omega) (by omega), h₁]
    omega
  rw [length_assignSlice (by rw [h₂ _ (length_littleEndian ..)]; omega)
    (by rw [length_littleEndian]), h₂ _ (length_littleEndian ..)]
  omega

theorem le_transferLen (h : 0 < b.blockAlign) (n : ℕ) : n ≤ b.transferLen n := by
  unfold transferLen
  split_ifs
  · exact le_roundUp n h
  · exact le_rfl

theorem length_padded {total : ℕ} (h : payload.length ≤ total) :
    (padded payload total).length = total := by
  rw [padded, length_append, length_replicate]
  omega

/-- **The writes of a put** stay inside of its slot, and leave its payload there. -/
theorem ObjFits.writesOf (h : b.ObjFits obj) (offset : ℕ) (halign : 0 < b.blockAlign)
    (hheader : header.length = max 24 b.headerBytes) :
    ∃ pending, b.writesOf offset header obj.byteArray = some pending ∧
      (∀ w ∈ pending, b.Inside offset w) ∧
      ∀ device, b.Stored (writeAll device pending) offset (metadataOf obj) obj.byteArray := by
  have hpayload := h.payload
  have hlen := le_transferLen halign obj.byteArray.length
  refine ⟨_, if_neg (by omega), fun w hw => ?_, fun device => ⟨rfl, h.size, by omega, ?_⟩⟩
  · rcases mem_pair.mp hw with rfl | rfl
    · refine ⟨le_rfl, ?_⟩
      rw [length_padded (le_transferLen halign _), hheader]
      exact Nat.add_le_add_left h.header offset
    · refine ⟨Nat.le_add_right _ _, ?_⟩
      rw [length_padded hlen]
      omega
  · rw [writeAll_cons, writeAll_cons, writeAll_nil,
      read_take ((length_padded hlen).symm ▸ hlen), read_write, padded,
      take_left]

/-- What a task has still to write: it stays in the slot, and completes it. -/
structure Completes [DecidableEq K] (b : RawBlockBackend K) (device : ℕ → UInt8) (t : WriteTask K)
    (pending : List (ℕ × List UInt8)) : Prop where
  inside : ∀ w ∈ pending, b.Inside t.offset w
  stored : ∃ x, b.inflight.get? t.key = some x ∧ x.offset = t.offset ∧
    b.Stored (ByteStore.writeAll device pending) t.offset x.metadata t.payload

end RawBlockBackend

namespace RawBlockState

variable {K : Type} [DecidableEq K] {codec : KeyCodec K} {s s' : RawBlockState K}

/-! ### The invariant -/

structure DeviceInv (s : RawBlockState K) : Prop where
  align : 0 < s.backend.blockAlign
  putters : ∀ p ∈ s.putters, ∀ q ∈ p.items, s.backend.ObjFits q.2
  tasks : ∀ (i : ℕ) t pending, s.tasks[i]? = some t → t.stage = .writing pending →
    s.backend.Completes s.device t pending
  index : ∀ key e, s.backend.index.get? key = some e → ∃ payload, s.lastPut key = some payload ∧
    s.backend.Stored s.device e.offset e.metadata payload

/-- The objects that a step puts fit in their slots. -/
def Fitting (s : RawBlockState K) : RawBlockEvent K → Prop
  | .submit _ objs => ∀ obj ∈ objs, s.backend.ObjFits obj
  | _ => True

instance (s : RawBlockState K) (e : RawBlockEvent K) : Decidable (s.Fitting e) := by
  cases e <;> unfold Fitting <;> infer_instance

variable {b : RawBlockBackend K} {i : ℕ} {t : WriteTask K} {config : RawBlockConfig}

section
variable (h : s.DeviceInv)

include h

theorem DeviceInv.setBackend (hstatic : b.static = s.backend.static)
    (hindex : ∀ key e, b.index.get? key = some e → s.backend.index.get? key = some e)
    (hinflight : ∀ key x, s.backend.inflight.get? key = some x →
      ∃ x', b.inflight.get? key = some x' ∧ x'.offset = x.offset ∧ x'.metadata = x.metadata) :
    DeviceInv { s with backend := b } := by
  have hslot : b.slotBytes = s.backend.slotBytes := congrArg (fun p => p.2.2.2.1) hstatic
  have halign : b.blockAlign = s.backend.blockAlign := congrArg (fun p => p.2.1) hstatic
  refine ⟨halign ▸ h.align, fun p hp q hq => (h.putters p hp q hq).of_static hstatic,
    fun i t pending ht hstage => ?_, fun key e he => ?_⟩
  · obtain ⟨hinside, x, hx, hoffset, hstored⟩ := h.tasks i t pending ht hstage
    obtain ⟨x', hx', hoffset', hmeta⟩ := hinflight t.key x hx
    refine ⟨fun w hw => ?_, x', hx', hoffset'.trans hoffset, ?_⟩
    · rw [RawBlockBackend.Inside, hslot]
      exact hinside w hw
    · rw [hmeta]
      exact hstored.of_static hstatic
  · obtain ⟨payload, hlast, hstored⟩ := h.index key e (hindex key e he)
    exact ⟨payload, hlast, hstored.of_static hstatic⟩

theorem DeviceInv.of_places (hplaces : b.places = s.backend.places)
    (hstatic : b.static = s.backend.static) : DeviceInv { s with backend := b } := by
  have hindex : b.index = s.backend.index := congrArg (fun p => p.1) hplaces
  have hinflight : b.inflight = s.backend.inflight := congrArg (fun p => p.2.1) hplaces
  exact h.setBackend hstatic (fun key e he => hindex ▸ he) fun key x hx =>
    ⟨x, hinflight ▸ hx, rfl, rfl⟩

theorem DeviceInv.setStage (i : ℕ) (t : WriteTask K) (stage : WriteStage)
    (hstage : ∀ pending, stage ≠ .writing pending) : (s.setStage i t stage).DeviceInv := by
  refine { h with tasks := fun j t' pending ht' hwriting => ?_ }
  rw [RawBlockState.setStage, getElem?_set] at ht'
  split_ifs at ht' with hij hlt
  · grind
  · exact h.tasks j t' pending ht' hwriting

theorem DeviceInv.setPutters {putters : List (Putting K)}
    (hputters : ∀ p ∈ putters, ∀ q ∈ p.items, s.backend.ObjFits q.2) :
    DeviceInv { s with putters } := { h with putters := hputters }

theorem DeviceInv.mem_putters {items items' : List (K × ObjData)}
    {registered : Bool} (hi : s.putters[i]? = some ⟨items, registered⟩) (hsub : items' ⊆ items)
    (registered' : Bool) :
    ∀ p ∈ s.putters.set i ⟨items', registered'⟩, ∀ q ∈ p.items, s.backend.ObjFits q.2 := by
  intro p hp q hq
  rcases mem_or_eq_of_mem_set hp with hp | rfl
  · exact h.putters p hp q hq
  · exact h.putters _ (mem_of_getElem? hi) q (hsub hq)

/-! ### Steps of a task -/

omit h in
theorem writeAll_rest (device : ℕ → UInt8) (n a : ℕ) (bytes : List UInt8)
    (pending : List (ℕ × List UInt8)) :
    ByteStore.writeAll (ByteStore.write device a (bytes.take n))
        (if (bytes.drop n).isEmpty then pending else (a + n, bytes.drop n) :: pending) =
      ByteStore.writeAll device ((a, bytes) :: pending) := by
  rw [writeAll_cons, write_take_drop device a n bytes]
  split_ifs with hempty
  · rw [isEmpty_iff.mp hempty, write_nil]
  · rfl

/-- A piece that is written leaves the slots of the other keys as they are. -/
theorem DeviceInv.write_other (hs : s.SlotInv) {a x : ℕ} (n : ℕ) {bytes : List UInt8}
    {pending : List (ℕ × List UInt8)} (ht : s.tasks[i]? = some t)
    (hstage : t.stage = .writing ((a, bytes) :: pending)) {p : K × ℕ} (hp : p ∈ s.backend.owners)
    (hne : p.1 ≠ t.key) (hle : p.2 ≤ x) (hlt : x < p.2 + s.backend.slotBytes) :
    ByteStore.write s.device a (bytes.take n) x = s.device x := by
  obtain ⟨hinside, y, hy, hoffset, -⟩ := h.tasks i t _ ht hstage
  obtain ⟨hstart, hstop⟩ := hinside _ mem_cons_self
  have hpiece : s.backend.Inside t.offset (a, bytes.take n) := by
    refine ⟨hstart, ?_⟩
    dsimp only at hstop ⊢
    rw [length_take]
    omega
  have hapart := hs.backend.apart_of_ne (mem_owners_inflight hy) hp hne.symm
  exact hpiece.write_eq (hoffset ▸ hapart) hle hlt

/-- **A piece is written**: the other slots stay as they are. -/
theorem DeviceInv.write (hs : s.SlotInv) {a : ℕ} (n : ℕ) {bytes : List UInt8}
    {pending : List (ℕ × List UInt8)} (ht : s.tasks[i]? = some t)
    (hstage : t.stage = .writing ((a, bytes) :: pending)) :
    (s.write i n t a bytes pending).DeviceInv := by
  obtain ⟨hinside, x, hx, hoffset, hstored⟩ := h.tasks i t _ ht hstage
  obtain ⟨hstart, hstop⟩ := hinside _ mem_cons_self
  have hall := writeAll_rest s.device n a bytes pending
  have hrest : ∀ w ∈ (if (bytes.drop n).isEmpty then pending else (a + n, bytes.drop n) :: pending),
      s.backend.Inside t.offset w := by
    intro w hw
    split_ifs at hw with hempty
    · exact hinside w (mem_cons_of_mem _ hw)
    · rcases List.mem_cons.mp hw with rfl | hw
      · rw [List.isEmpty_iff, List.drop_eq_nil_iff] at hempty
        refine ⟨by dsimp only; omega, ?_⟩
        grind
      · exact hinside w (mem_cons_of_mem _ hw)
  unfold RawBlockState.write
  dsimp only
  generalize (if (bytes.drop n).isEmpty then pending else _) = rest at hall hrest
  refine ⟨h.align, h.putters, fun j t' pending' ht' hwriting => ?_, fun key e he => ?_⟩
  · dsimp only [RawBlockState.setStage] at ht'
    rw [getElem?_set] at ht'
    split_ifs at ht' with hij hlt
    · cases ht'
      cases hwriting
      exact ⟨hrest, x, hx, hoffset, hall ▸ hstored⟩
    · obtain ⟨hinside', x', hx', hoffset', hstored'⟩ := h.tasks j t' pending' ht' hwriting
      have hne : t'.key ≠ t.key := fun hkey => hij
        (hs.unique i j t t' ⟨ht, _, hstage⟩ ⟨ht', _, hwriting⟩ hkey.symm)
      refine ⟨hinside', x', hx', hoffset', hstored'.congr fun y hle hlt => ?_⟩
      exact writeAll_congr pending' (h.write_other hs n ht hstage
        (mem_owners_inflight hx') hne (hoffset' ▸ hle) (hoffset' ▸ hlt))
  · obtain ⟨payload, hlast, hkeeps⟩ := h.index key e he
    have hne : key ≠ t.key := by
      rintro rfl
      exact hs.backend.apart t.key (Dict.mem_keys_iff.mpr ⟨x, hx⟩) (Dict.mem_keys_iff.mpr ⟨e, he⟩)
    exact ⟨payload, hlast, hkeeps.congr fun y =>
      h.write_other hs n ht hstage (mem_owners_index he) hne⟩

omit h in
theorem get?_index_finishWrite (b : RawBlockBackend K) (key k : K) :
    (b.finishWrite key).index.get? k =
      match b.inflight.get? key with
      | none => b.index.get? k
      | some x =>
        if x.canceled then b.index.get? k
        else if k = key then some ⟨x.offset, x.metadata.size, x.metadata⟩ else b.index.get? k := by
  unfold finishWrite
  cases b.inflight.get? key with
  | none => rfl
  | some x =>
    dsimp only
    cases x.canceled with
    | true => rfl
    | false => exact Dict.get?_set

omit h in
theorem static_finishWrite (b : RawBlockBackend K) (key : K) :
    (b.finishWrite key).static = b.static := by
  fun_cases finishWrite <;> rfl

/-- **A put completes**: its payload is on the device. -/
theorem DeviceInv.finishWrite (hs : s.SlotInv) (ht : s.tasks[i]? = some t)
    (hstage : t.stage = .writing []) :
    DeviceInv { s.setStage i t .stored with
      backend := s.backend.finishWrite t.key
      lastPut := s.completes t } := by
  obtain ⟨-, x, hx, hoffset, hstored⟩ := h.tasks i t [] ht hstage
  have hstatic := static_finishWrite s.backend t.key
  have hset := h.setStage i t .stored nofun
  have hslot : (s.backend.finishWrite t.key).slotBytes = s.backend.slotBytes :=
    congrArg (fun p => p.2.2.2.1) hstatic
  have halign : (s.backend.finishWrite t.key).blockAlign = s.backend.blockAlign :=
    congrArg (fun p => p.2.1) hstatic
  refine ⟨halign ▸ h.align, fun p hp q hq => (h.putters p hp q hq).of_static hstatic,
    fun j t' pending ht' hwriting => ?_, fun key e he => ?_⟩
  · obtain ⟨hinside, x', hx', hoffset', hstored'⟩ := hset.tasks j t' pending ht' hwriting
    -- the other tasks that write have other keys
    have hne : t'.key ≠ t.key := by
      intro hkey
      have ht₀ := ht'
      dsimp only [RawBlockState.setStage] at ht₀
      rw [getElem?_set] at ht₀
      split_ifs at ht₀ with hij hlt
      · grind
      · exact hij (hs.unique i j t t' ⟨ht, _, hstage⟩ ⟨ht₀, _, hwriting⟩ hkey.symm)
    refine ⟨fun w hw => ?_, x', ?_, hoffset', hstored'.of_static hstatic⟩
    · rw [RawBlockBackend.Inside, hslot]
      exact hinside w hw
    · rw [inflight_finishWrite, if_neg hne]
      exact hx'
  · dsimp only at he ⊢
    rw [get?_index_finishWrite, hx] at he
    rw [completes, hx]
    dsimp only at he ⊢
    split_ifs at he with hcanceled hkey
    · rw [if_pos hcanceled]
      obtain ⟨payload, hlast, hkeeps⟩ := h.index key e he
      exact ⟨payload, hlast, hkeeps.of_static hstatic⟩
    · cases he
      rw [if_neg hcanceled, hkey, Function.update_self]
      exact ⟨t.payload, rfl, hoffset ▸ hstored.of_static hstatic⟩
    · rw [if_neg hcanceled, Function.update_of_ne hkey]
      obtain ⟨payload, hlast, hkeeps⟩ := h.index key e he
      exact ⟨payload, hlast, hkeeps.of_static hstatic⟩

theorem DeviceInv.taskStep (hs : s.SlotInv) (ht : s.tasks[i]? = some t)
    {e : TaskEvent} (hstep : s.taskStep codec i t e = some s') : s'.DeviceInv := by
  revert hstep
  fun_cases RawBlockState.taskStep codec s i t e <;> rintro ⟨⟩
  case case1 n a bytes pending hstage => exact h.write hs n ht hstage
  case case3 hstage => exact h.finishWrite hs ht hstage
  case case4 =>
    fun_cases maybeSave
    · exact h.setStage i t _ (by simp)
    · exact (h.setStage i t .ending (by simp)).of_places rfl rfl
    · exact (h.setStage i t (.saving _) (by simp)).of_places rfl rfl
  case case5 =>
    have hset := h.setStage i t .ending (by simp)
    exact { hset with }
  case case7 => exact (h.setStage i t .ended (by simp)).of_places rfl rfl
  all_goals exact h.setStage i t _ (by simp)

/-! ### Puts -/

theorem DeviceInv.append
    (hnew : ∀ pending, t.stage = .writing pending → s.backend.Completes s.device t pending) :
    DeviceInv { s with tasks := s.tasks ++ [t] } := by
  refine { h with tasks := fun i t' pending ht' hwriting => ?_ }
  rcases Writing.of_append ⟨ht', pending, hwriting⟩ with hold | ⟨-, rfl⟩
  · exact h.tasks i t' pending hold.1 hwriting
  · exact hnew pending hwriting

/-- **A put begins** in a slot of its own. -/
theorem DeviceInv.place (hs : s.SlotInv) (sizeBytes : Except PyError ℕ)
    {key : K} {obj : ObjData} {items : List (K × ObjData)}
    (hi : s.putters[i]? = some ⟨(key, obj) :: items, true⟩) :
    (s.place codec sizeBytes i key obj items).DeviceInv := by
  have hfits : s.backend.ObjFits obj :=
    h.putters _ (mem_of_getElem? hi) (key, obj) mem_cons_self
  obtain ⟨-, b₁, -, heffect⟩ := hs.backend.beginPut sizeBytes key obj
  obtain ⟨hstatic, hindex, hkeep⟩ := hs.backend.beginPut_frame sizeBytes key obj
  have hset : ∀ items', items' ⊆ (key, obj) :: items → DeviceInv { s with
      putters := s.putters.set i ⟨items', false⟩
      backend := (s.backend.beginPut sizeBytes key obj).2 } := fun items' hsub =>
    (h.setPutters (h.mem_putters hi hsub false)).setBackend hstatic hindex fun k x hx =>
      ⟨x, hkeep k x hx, rfl, rfl⟩
  have htail := hset items (subset_cons_self (key, obj) items)
  fun_cases RawBlockState.place codec sizeBytes s i key obj items
  case case2 hput => rwa [hput] at htail
  case case4 offset b hput header hheader stage =>
    simp only [hput] at htail heffect hstatic
    rcases heffect with ⟨-, -, hnone⟩ | ⟨_, heq, -, -, hb⟩
    · exact absurd rfl (hnone offset)
    · cases heq
      obtain ⟨pending, hwrites, hinside, hstored⟩ :=
        (hfits.of_static hstatic).writesOf offset htail.align (length_encodeHeader hheader)
      have hx : b.inflight.get? key = some ⟨offset, metadataOf obj, false⟩ := by
        rw [hb, Dict.get?_set, if_pos rfl]
      refine htail.append fun pending' hpending => ?_
      obtain rfl : pending = pending' := by simpa [stage, hwrites, WriteStage.first] using hpending
      exact ⟨hinside, _, hx, rfl, hstored s.device⟩
  all_goals
    have hnil := hset [] (nil_subset _)
    rwa [‹s.backend.beginPut sizeBytes key obj = _›] at hnil

/-- **Every step** keeps the invariant, if the objects that are put fit. -/
theorem DeviceInv.step (hs : s.SlotInv) {e : RawBlockEvent K}
    (hfit : s.Fitting e) (hstep : s.step codec e = some s') : s'.DeviceInv := by
  revert hfit hstep
  fun_cases RawBlockState.step codec s e <;> intro hfit hstep
  case case6 =>
    obtain ⟨t, ht, htask⟩ := Option.bind_eq_some_iff.mp hstep
    exact h.taskStep hs ht htask
  all_goals cases hstep
  case case1 keys objs =>
    refine h.setPutters fun p hp q hq => ?_
    rcases mem_append.mp hp with hp | hp
    · exact h.putters p hp q hq
    · obtain rfl := mem_singleton.mp hp
      exact hfit q.2 (of_mem_zip (show (q.1, q.2) ∈ keys.zip objs from hq)).2
  case case2 key obj items hi =>
    unfold register
    split_ifs
    · exact h.setPutters (h.mem_putters hi (subset_cons_self (key, obj) items) false)
    · have hputters := h.setPutters (h.mem_putters hi (List.Subset.refl _) true)
      exact hputters.of_places rfl rfl
  case case4 sizeBytes _ _ _ hi => exact h.place hs sizeBytes hi
  case case7 key pin =>
    obtain ⟨hplaces, hstatic⟩ := s.backend.places_contains key pin
    exact h.of_places hplaces hstatic
  case case8 keys pin =>
    obtain ⟨hplaces, hstatic⟩ := s.backend.places_batchedAsyncContains keys pin
    exact h.of_places hplaces hstatic
  case case9 key =>
    obtain ⟨hplaces, hstatic⟩ := s.backend.places_pin key
    exact h.of_places hplaces hstatic
  case case10 key =>
    obtain ⟨hplaces, hstatic⟩ := s.backend.places_unpin key
    exact h.of_places hplaces hstatic
  case case11 key =>
    refine h.setBackend rfl (fun k e he => ?_) fun k x hx => ?_
    · change (s.backend.index.erase key).get? k = some e at he
      grind
    · show ∃ x', (s.backend.inflight.modify key _).get? k = some x' ∧ _
      grind
  case case12 => exact h.of_places rfl rfl

end

theorem deviceInv_start (h : new config = .ok b) (device : ℕ → UInt8) :
    (start b device).DeviceInv := by
  unfold new at h
  dsimp only at h
  split_ifs at h with hpath halign hslot
  cases h
  exact ⟨Nat.pos_of_ne_zero halign, nofun, nofun, nofun⟩

/-- **The device in every run** in which the objects that are put fit. -/
theorem deviceInv_reachable (h : ((rawBlockSystem codec config).restrict Fitting).Reachable s) :
    s.DeviceInv := by
  have hinv : s.SlotInv ∧ s.DeviceInv := by
    refine h.invariant (I := fun s => SlotInv s ∧ DeviceInv s) ?_ ?_
    · rintro s ⟨b, device, hb, rfl⟩
      have hinit : (rawBlockSystem codec config).Reachable (start b device) :=
        .init ⟨b, device, hb, rfl⟩
      exact ⟨slotInv_reachable hinit, deviceInv_start hb device⟩
    · rintro s e s' ⟨hs, hd⟩ ⟨hfit, hstep⟩
      exact ⟨hs.step hstep, hd.step hs hfit hstep⟩
  exact hinv.2

/-- What is computed of the state after a run in which all objects fit is true of a reachable
state. -/
theorem exists_fitting_run (codec : KeyCodec K) (device : ℕ → UInt8)
    (hb : new config = .ok b) {P : RawBlockState K → Prop} (es : List (RawBlockEvent K))
    (h : ∃ s ∈ es.foldlM (LTS.guard Fitting (step codec)) (start b device), P s) :
    ∃ s, ((rawBlockSystem codec config).restrict Fitting).Reachable s ∧ P s :=
  LTS.Reachable.exists_guard (S := rawBlockSystem codec config) (fun _ _ _ => id) es
    (.init ⟨b, device, hb, rfl⟩) h

/-- **Writes stay inside of their slots** if the objects that are put fit, so that a put changes no
byte in the slot of another key. -/
theorem writes_stay_inside (h : ((rawBlockSystem codec config).restrict Fitting).Reachable s)
    {pending : List (ℕ × List UInt8)} (ht : s.tasks[i]? = some t)
    (hstage : t.stage = .writing pending) :
    (∀ w ∈ pending, s.backend.Inside t.offset w) ∧
      ∀ n, s.step codec (.task i (.write n)) = some s' →
        ∀ p ∈ s.backend.owners, p.1 ≠ t.key → ∀ x, p.2 ≤ x → x < p.2 + s.backend.slotBytes →
          s'.device x = s.device x := by
  have hinv := deviceInv_reachable h
  refine ⟨(hinv.tasks i t pending ht hstage).inside, fun n hstep p hp hne x hle hlt => ?_⟩
  cases pending with
  | nil => simp [step, ht, taskStep, hstage] at hstep
  | cons w pending =>
    simp only [step, ht, Option.bind_some, taskStep, hstage] at hstep
    cases hstep
    exact hinv.write_other (slotInv_reachable h.of_restrict) n ht hstage hp hne hle hlt

/-- The payload of a put of one byte stands in its slot, after the header. -/
theorem writes_stay_inside_payload :
    ∃ (s : RawBlockState String) (t : WriteTask String) (w : ℕ × List UInt8),
      s.tasks[0]? = some t ∧ w = (24, [5]) ∧ s.backend.Inside t.offset w := by
  obtain ⟨s, hs, t, ht, hstage⟩ := exists_fitting_run textCodec (fun _ => 0) (new_smallConfig 2)
    (P := fun s => ∃ t, s.tasks[0]? = some t ∧ t.stage = .writing [(24, [5])])
    (beginsPut 0 "a" 5 ++ [.task 0 (.write 24)]) ⟨_, rfl, _, rfl, rfl⟩
  have hinside : _ ∧ ∀ n, s.step _ _ = some s → _ := writes_stay_inside hs ht hstage
  exact ⟨s, t, _, ht, rfl, hinside.1 _ mem_cons_self⟩

/-- Without `O_DIRECT` the length of a payload is not checked: the last of nine bytes of `a` is in
the slot of `b`, where the header of `b` began. -/
theorem write_overruns_slot :
    ∃ s, (rawBlockSystem textCodec (smallConfig 2)).Reachable s ∧
      s.backend.owners = [("b", 32), ("a", 0)] ∧ s.backend.slotBytes = 32 ∧ s.device 32 = 9 := by
  exact exists_run textCodec (fun _ => 0) (new_smallConfig 2)
    ([.submit ["a"] [⟨[1, 2, 3, 4, 5, 6, 7, 8, 9], [9], ⟨"uint8", 1⟩, none, .kv2ltd⟩], .register 0,
      .place 0 (.ok 0)] ++ beginsPut 1 "b" 5 ++ completesPut 1 ++
      [.task 0 (.write 24), .task 0 (.write 9)]) (by decide +kernel)

end RawBlockState

end LMCache
