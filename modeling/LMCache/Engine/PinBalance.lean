import LMCache.Engine.LookupPins

/-! # Are the pins of lookups balanced?

The pins of lookups are balanced when the pin count of every key in every backend is the number of
pins taken by lookups whose id has not been unpinned since (`Balanced`).

* `balanced_lookupUnpin_iff`: unpinning an id keeps the balance exactly when nothing is owed
  under it.
* `PinsRecorded`: a lookup under an id that has no record yet, with whole chunks; one whose last
  chunk was pinned nowhere, layer-wise; and pins only in backends that count them.
* **Main result**: `lookup_pins_balanced`. -/

namespace LMCache.LookupState

open List LookupConfig

variable {H : Type} [DecidableEq H] {c : LookupConfig H} {s s' : LookupState H}

/-! ### Unpinning -/

theorem pinCount_foldl_unpinKey (b : PinBackend H) (keys : List (CacheEngineKey H))
    (s : LookupState H) {n : String} (hheld : n = b.name → ∀ k ∈ keys, b.holds k = true)
    (key : CacheEngineKey H) :
    (keys.foldl (fun s key => s.unpinKey b key) s).pinCount n key =
      if n = b.name then (b.mode.unpin)^[keys.count key] (s.pinCount n key)
      else s.pinCount n key := by
  induction keys generalizing s with
  | nil => simp
  | cons k keys ih =>
    rw [foldl_cons, ih _ fun hn k' hk' => hheld hn k' (mem_cons_of_mem _ hk')]
    by_cases hn : n = b.name
    · have hk := hheld hn k mem_cons_self
      by_cases hkey : key = k
      · subst hkey
        simp [hn, unpinKey, hk, Function.iterate_succ]
      · simp [hn, unpinKey, hkey, Ne.symm hkey]
    · simp [hn, unpinKey]

variable {b : PinBackend H}

omit [DecidableEq H] in
theorem filter_name (hb : b ∈ c.storageBackends) :
    (c.storageBackends.filter fun b' => b'.name = b.name) = [b] := by
  have hall : ∀ b' ∈ c.storageBackends.filter fun b' => b'.name = b.name, b' = b := fun b' hb' => by
    rw [mem_filter, decide_eq_true_eq] at hb'
    exact eq_of_name hb'.1 hb hb'.2
  have hnodup : (c.storageBackends.filter fun b' => b'.name = b.name).Nodup :=
    (List.Nodup.of_map _ c.names_nodup).filter _
  have hmem : b ∈ c.storageBackends.filter fun b' => b'.name = b.name :=
    mem_filter.mpr ⟨hb, by simp⟩
  have hrep := eq_replicate_of_mem hall
  have hlen : (c.storageBackends.filter fun b' => b'.name = b.name).length = 1 :=
    le_antisymm (nodup_replicate.mp (hrep ▸ hnodup)) (length_pos_of_mem hmem)
  rw [hrep, hlen, replicate_one]

theorem pinCount_batchedUnpin (hb : b ∈ c.storageBackends) {location : String}
    {keys : List (CacheEngineKey H)} (hheld : location = b.name → ∀ k ∈ keys, b.holds k = true)
    (key : CacheEngineKey H) :
    (s.batchedUnpin c keys location).pinCount b.name key =
      (b.mode.unpin)^[if location = b.name then keys.count key else 0] (s.pinCount b.name key) := by
  unfold batchedUnpin
  by_cases hl : location = b.name
  · subst hl
    rw [filter_name hb, foldl_cons, foldl_nil, pinCount_foldl_unpinKey b keys s
      fun _ => hheld rfl]
    simp
  · rw [if_neg hl, Function.iterate_zero, id]
    refine foldlRecOn (motive := fun s' : LookupState H => s'.pinCount b.name key =
      s.pinCount b.name key) _ _ rfl fun s₁ h₁ b' hb' => ?_
    have hn : b.name ≠ b'.name := fun heq =>
        hl (by simpa [heq, eq_comm] using (mem_filter.mp hb').2)
    rw [pinCount_foldl_unpinKey b' keys s₁ fun h => absurd h hn, if_neg hn, h₁]

theorem pinCount_foldl_batchedUnpin (hb : b ∈ c.storageBackends) (items : BlockMapping H)
    (hheld : ∀ e ∈ items, e.1 = b.name → ∀ k ∈ e.2, b.holds k = true) (s : LookupState H)
    (key : CacheEngineKey H) :
    (items.foldl (fun s e => s.batchedUnpin c e.2 e.1) s).pinCount b.name key =
      (b.mode.unpin)^[mappedPins items b.name key] (s.pinCount b.name key) := by
  induction items generalizing s with
  | nil => rfl
  | cons e items ih =>
    rw [foldl_cons, ih (forall_mem_cons.mp hheld).2,
      pinCount_batchedUnpin hb (hheld e mem_cons_self), ← Function.iterate_add_apply,
      mappedPins_cons, Nat.add_comm]

theorem foldl_batchedUnpin_frame (items : BlockMapping H) (s : LookupState H) :
    (items.foldl (fun s e => s.batchedUnpin c e.2 e.1) s).lookupPins = s.lookupPins ∧
      (items.foldl (fun s e => s.batchedUnpin c e.2 e.1) s).outstanding = s.outstanding := by
  let Same (s' : LookupState H) : Prop :=
    s'.lookupPins = s.lookupPins ∧ s'.outstanding = s.outstanding
  refine foldlRecOn (motive := Same) items _ ⟨rfl, rfl⟩ fun s₁ h₁ e _ => ?_
  refine foldlRecOn (motive := Same) _ _ h₁ fun s₂ h₂ b _ => ?_
  exact foldlRecOn (motive := Same) _ _ h₂ fun s₃ h₃ key _ => h₃

omit [DecidableEq H] in
theorem iterate_unpin_counts (h : b.counts = true) {n : ℤ} {j : ℕ} (hj : (j : ℤ) ≤ n) :
    (b.mode.unpin)^[j] n = n - j := by
  induction j generalizing n with
  | zero => simp
  | succ j ih =>
    have hone : b.mode.unpin n = n - 1 := by
      unfold PinBackend.counts at h
      cases hm : b.mode with
      | counted => exact if_neg (by omega)
      | signed => rfl
      | flagged => simp [hm] at h
      | refCounted => simp [hm] at h
      | ignored => simp [hm] at h
    rw [Function.iterate_succ_apply, hone, ih (by omega)]
    omega

omit [DecidableEq H] in
theorem iterate_unpin_of_not_takesPins (hb : b ∈ c.storageBackends) (h : b.takesPins = false)
    (n : ℤ) (j : ℕ) : (b.mode.unpin)^[j] n = n := by
  have hid : b.mode.unpin n = n := by
    by_cases hpd : b.name = "PDBackend"
    · rw [c.pd_mode b hb hpd]
      rfl
    · have hm : b.mode = .ignored := by
        simpa [PinBackend.takesPins, PinBackend.pinned, hpd] using h
      rw [hm]
      rfl
  exact Function.iterate_fixed hid j

theorem pinsOf_filter (pins : List (Option String × String × CacheEngineKey H))
    (owner : Option String) (location : String) (key : CacheEngineKey H) :
    pinsOf pins location key = pinsOf (pins.filter fun p => p.1 ≠ owner) location key +
      pins.count (owner, location, key) := by
  have hsplit := countP_eq_countP_filter_add pins
    (fun p => decide (p.2 = (location, key))) (fun p => decide (p.1 ≠ owner))
  rw [pinsOf, hsplit, pinsOf, Nat.add_right_inj]
  change pinsOf (pins.filter _) location key = _
  have howner : ∀ p ∈ pins.filter (fun p => !decide (p.1 ≠ owner)), p.1 = owner :=
    fun p hp => by simpa using (mem_filter.mp hp).2
  rw [pinsOf_eq_count howner, count_filter (by simp)]

theorem outstanding_lookupUnpin (id : String) :
    (s.lookupUnpin c id).outstanding = s.outstanding.filter fun p => p.1 ≠ some id := by
  fun_cases lookupUnpin
  · rfl
  next pins _ _ =>
    rw [(foldl_batchedUnpin_frame pins.entries s).2]

theorem record_lookupUnpin (id id' location : String) :
    (s.lookupUnpin c id).record id' location =
      if id' = id then [] else s.record id' location := by
  unfold lookupUnpin record
  cases hget : s.lookupPins.get? id with
  | none =>
    grind
  | some pins =>
    dsimp only
    rw [(foldl_batchedUnpin_frame pins.entries s).1, Dict.get?_erase]
    by_cases hid : id' = id <;> simp [hid]

section unpin
variable {owed : String → String → CacheEngineKey H → ℕ}

/-- **Unpinning** takes away what is recorded. -/
theorem pinCount_lookupUnpin (h : Books c s owed) (id : String) {b : PinBackend H}
    (hb : b ∈ c.storageBackends) (key : CacheEngineKey H) :
    (s.lookupUnpin c id).pinCount b.name key = s.pinCount b.name key -
      if c.takes b.name then ((s.record id b.name).count key : ℤ) else 0 := by
  fun_cases lookupUnpin
  next hget => simp [record, hget]
  next pins hget _ =>
    have hrec : s.record id b.name = (pins.get? b.name).getD [] := by simp [record, hget]
    have hheld : ∀ e ∈ pins.entries, e.1 = b.name → ∀ k ∈ e.2, b.holds k = true := by
      intro e he hname k hk
      refine h.held id b hb k ?_
      rw [hrec, ← hname, Dict.get?_eq_some_iff.mpr he]
      exact hk
    rw [pinCount_foldl_batchedUnpin hb pins.entries hheld s key, mappedPins_entries, ← hrec]
    cases ht : c.takes b.name with
    | false =>
      have hno : b.takesPins = false := (takes_name hb).symm.trans ht
      rw [iterate_unpin_of_not_takesPins hb hno]
      simp
    | true =>
      have hle : (s.record id b.name).count key ≤
          s.outstanding.count (some id, b.name, key) := by
        rw [h.record id b.name key ht]
        exact Nat.le_add_right _ _
      by_cases hzero : (s.record id b.name).count key = 0
      · simp [hzero]
      · have hmem : (some id, b.name, key) ∈ s.outstanding :=
          count_pos_iff.mp (by omega)
        have hcounts := (h.counted _ hmem).2 b hb rfl
          ((takes_name hb).symm.trans ht)
        have hsum := pinsOf_filter s.outstanding (some id) b.name key
        rw [iterate_unpin_counts hcounts (by rw [h.balanced b hb]; omega), if_pos rfl]

theorem balanced_lookupUnpin_iff (h : Books c s owed) (id : String) :
    Balanced c (s.lookupUnpin c id) ↔
      ∀ location key, c.takes location = true → owed id location key = 0 := by
  have hcount : ∀ b ∈ c.storageBackends, ∀ key,
      (s.lookupUnpin c id).pinCount b.name key =
          pinsOf (s.lookupUnpin c id).outstanding b.name key ↔
        (c.takes b.name = true → owed id b.name key = 0) := by
    intro b hb key
    have hsum := pinsOf_filter s.outstanding (some id) b.name key
    rw [pinCount_lookupUnpin h id hb, outstanding_lookupUnpin, h.balanced b hb]
    cases ht : c.takes b.name with
    | false =>
      have hnone : s.outstanding.count (some id, b.name, key) = 0 :=
        count_eq_zero.mpr fun hmem => by simpa [ht] using (h.counted _ hmem).1
      grind
    | true =>
      have hrec := h.record id b.name key ht
      grind
  constructor
  · intro hbal location key ht
    obtain ⟨b, hb, rfl, -⟩ := exists_of_takes ht
    exact (hcount b hb key).mp (hbal b hb key) ht
  · intro hzero b hb key
    exact (hcount b hb key).mpr fun ht => hzero b.name key ht

end unpin

theorem settled_lookupUnpin (h : Settled c s) (id : String) : Settled c (s.lookupUnpin c id) where
  balanced := (balanced_lookupUnpin_iff h id).mpr fun _ _ _ => rfl
  record := fun id' location key ht => by
    rw [outstanding_lookupUnpin, record_lookupUnpin]
    by_cases hid : id' = id
    · have hnot : (some id', location, key) ∉
          s.outstanding.filter fun p => decide (p.1 ≠ some id) := fun hmem => by
        simpa [hid] using (mem_filter.mp hmem).2
      rw [count_eq_zero.mpr hnot, if_pos hid]
      rfl
    · rw [count_filter (by simpa using hid), h.record id' location key ht, if_neg hid]
  held := fun id' b hb k hk => by
    rw [record_lookupUnpin] at hk
    split_ifs at hk with hid
    · exact absurd hk not_mem_nil
    · exact h.held id' b hb k hk
  counted := fun p hp => by
    rw [outstanding_lookupUnpin] at hp
    exact h.counted p (mem_of_mem_filter hp)

/-! ### Runs -/

def probes (c : LookupConfig H) (s : LookupState H)
    (chunks : List (ChunkInfo (CacheEngineKey H))) (searchRange : List String) :
    List (BlockMapping H) :=
  if c.useLayerwise then probed c (s.activeBackends c searchRange) chunks
  else [blockMapping (s.activeBackends c searchRange) (chunks.map ChunkInfo.key)]

/-- The record under the id has the pins of the lookup and still those of before. -/
def Recorded (c : LookupConfig H) (s : LookupState H)
    (chunks : List (ChunkInfo (CacheEngineKey H))) (searchRange : List String) (id : String) :
    Prop :=
  if c.useLayerwise then
    ∀ e ∈ stopMapping c (s.activeBackends c searchRange) chunks, c.takes e.1 = false
  else
    blockMapping (s.activeBackends c searchRange) (chunks.map ChunkInfo.key) = [] ∨
      ∀ b ∈ c.storageBackends, b.takesPins = true → s.record id b.name = []

instance (chunks : List (ChunkInfo (CacheEngineKey H))) (searchRange : List String) (id : String) :
    Decidable (Recorded c s chunks searchRange id) :=
  inferInstanceAs (Decidable (if c.useLayerwise then _ else _ ∨ _))

/-- A lookup pins in backends that count their pins, and all pins are recorded. -/
def PinsRecorded (c : LookupConfig H) (s : LookupState H) : LookupEvent H → Prop
  | .lookup chunks searchRange id true =>
    (∀ mapping ∈ s.probes c chunks searchRange, Counting c mapping) ∧
      Recorded c s chunks searchRange id
  | _ => True

instance (mapping : BlockMapping H) : Decidable (Counting c mapping) :=
  inferInstanceAs (Decidable (∀ e ∈ mapping, _))

instance (e : LookupEvent H) : Decidable (PinsRecorded c s e) :=
  match e with
  | .lookup chunks searchRange id true =>
    inferInstanceAs (Decidable ((∀ mapping ∈ s.probes c chunks searchRange, Counting c mapping) ∧
      Recorded c s chunks searchRange id))
  | .lookup _ _ _ false => isTrue trivial
  | .unpin _ => isTrue trivial
  | .setFreeze _ => isTrue trivial
  | .setBypassed _ => isTrue trivial

theorem mappedPins_eq_zero_iff {mapping : BlockMapping H} (hne : ∀ e ∈ mapping, e.2 ≠ []) :
    (∀ location key, c.takes location = true → mappedPins mapping location key = 0) ↔
      ∀ e ∈ mapping, c.takes e.1 = false := by
  constructor
  · intro hzero e he
    by_contra ht
    obtain ⟨k, hk⟩ := exists_mem_of_ne_nil _ (hne e he)
    have hsum := hzero e.1 k (by simpa using ht)
    rw [mappedPins, sum_eq_zero_iff] at hsum
    have hcount := hsum _ (mem_map.mpr ⟨e, he, rfl⟩)
    grind
  · intro hno location key ht
    rw [mappedPins, sum_eq_zero_iff]
    grind

omit [DecidableEq H] in
theorem ne_nil_of_mem_stopMapping {active : List (PinBackend H)}
    {chunks : List (ChunkInfo (CacheEngineKey H))} {e : String × List (CacheEngineKey H)}
    (h : e ∈ stopMapping c active chunks) : e.2 ≠ [] := by
  fun_induction stopMapping c active chunks with
  | case1 => exact absurd h not_mem_nil
  | case2 _ _ _ _ ih => exact ih h
  | case3 => exact (mem_blockMapping h).1

/-- **A lookup** leaves nothing owed exactly when its pins are recorded. -/
theorem books_lookup (h : Settled c s) (chunks : List (ChunkInfo (CacheEngineKey H)))
    (searchRange : List String) (id : String)
    (hc : ∀ mapping ∈ s.probes c chunks searchRange, Counting c mapping) :
    ∃ owed, Books c (s.lookup c chunks searchRange (some id) true).2 owed ∧
      (∀ id' location key, id' ≠ id → owed id' location key = 0) ∧
      ((∀ location key, c.takes location = true → owed id location key = 0) ↔
        Recorded c s chunks searchRange id) := by
  have hsub := activeBackends_sublist (c := c) s searchRange
  unfold lookup
  unfold probes at hc
  unfold Recorded
  by_cases hl : c.useLayerwise = true
  · simp only [hl, if_true] at hc ⊢
    refine ⟨_, books_lookupLayers (fun b hb => hsub.subset hb) id chunks 0 h hc,
      fun id' location key hne => if_neg hne, ?_⟩
    rw [← mappedPins_eq_zero_iff fun e he => ne_nil_of_mem_stopMapping he]
    simp only [owing, if_true]
  · simp only [hl, Bool.false_eq_true, if_false] at hc ⊢
    refine ⟨_, books_lookupChunks hsub id chunks h (hc _ mem_cons_self),
      fun id' location key hne => if_neg fun hid => hne hid.2, ?_⟩
    by_cases hm : blockMapping (s.activeBackends c searchRange) (chunks.map ChunkInfo.key) = []
    · simp [hm]
    · simp only [ne_eq, hm, not_false_eq_true, and_self, if_true, false_or]
      constructor
      · intro hzero b hb hpins
        refine eq_nil_iff_forall_not_mem.mpr fun k hk => ?_
        have := hzero b.name k ((takes_name hb).trans hpins)
        exact count_eq_zero.mp this hk
      · intro hnil location key ht
        obtain ⟨b, hb, rfl, hpins⟩ := exists_of_takes ht
        rw [hnil b hb hpins]
        rfl

theorem lookup_unpinned (chunks : List (ChunkInfo (CacheEngineKey H)))
    (searchRange : List String) (id : Option String) :
    (s.lookup c chunks searchRange id false).2 = s := by
  fun_cases lookup
  · generalize 0 = res
    induction chunks generalizing res with
    | nil => rfl
    | cons chunk chunks ih =>
      rw [lookupLayers, batchedContains_unpinned]
      split
      · exact ih _
      · rfl
  · unfold lookupChunks
    simp only [Bool.false_and, Bool.false_eq_true, if_false, batchedContains_unpinned]

theorem settled_new : Settled c (.new : LookupState H) where
  balanced := fun _ _ _ => rfl
  record := fun _ _ _ _ => rfl
  held := fun _ _ _ _ hk => absurd hk not_mem_nil
  counted := fun _ hp => absurd hp not_mem_nil

theorem settled_step {e : LookupEvent H} (h : Settled c s) (he : PinsRecorded c s e) :
    Settled c (s.step c e) := by
  cases e with
  | lookup chunks searchRange id pin =>
    cases pin with
    | true =>
      obtain ⟨owed, hbooks, hothers, hiff⟩ := books_lookup h chunks searchRange id he.1
      refine (settled_iff hbooks).mpr fun id' location key ht => ?_
      by_cases hid : id' = id
      · exact hid ▸ hiff.mpr he.2 location key ht
      · exact hothers id' location key hid
    | false =>
      change Settled c (s.lookup c chunks searchRange (some id) false).2
      rw [lookup_unpinned]
      exact h
  | unpin id => exact settled_lookupUnpin h id
  | setFreeze freeze => exact { h with }
  | setBypassed bypassedBackends => exact { h with }

/-- **The pins of lookups are balanced** along every run in which they are recorded.  From a state
of such a run, a lookup that pins in backends that count their pins, followed by the unpin of its
id, keeps the balance exactly when its pins are recorded. -/
theorem lookup_pins_balanced
    (h : ((lookupSystem c).restrict (PinsRecorded c)).Reachable s) :
    Balanced c s ∧
      ∀ chunks searchRange id, (∀ mapping ∈ s.probes c chunks searchRange, Counting c mapping) →
        (Balanced c ((s.step c (.lookup chunks searchRange id true)).step c (.unpin id)) ↔
          Recorded c s chunks searchRange id) := by
  have hsettled : Settled c s := by
    induction h with
    | init hinit => exact hinit ▸ settled_new
    | step _ hstep ih => exact hstep.2 ▸ settled_step ih hstep.1
  refine ⟨hsettled.balanced, fun chunks searchRange id hc => ?_⟩
  obtain ⟨owed, hbooks, -, hiff⟩ := books_lookup hsettled chunks searchRange id hc
  exact (balanced_lookupUnpin_iff hbooks id).trans hiff

/-! ### Two layers of one chunk -/

def smallKey : CacheEngineKey ℤ :=
  { modelName := "m", worldSize := 1, workerId := 0, chunkHash := 7, dtype := ⟨"torch.uint8", 1⟩ }

/-- One backend, which holds the chunk and its layer 0. -/
def smallConfig (name : String) (mode : PinMode) (useLayerwise : Bool)
    (h : name = "PDBackend" → mode = .refCounted) : LookupConfig ℤ where
  storageBackends := [⟨name, mode, fun k => k = smallKey || k = smallKey.layer 0⟩]
  useLayerwise := useLayerwise
  numLayers := 2
  names_nodup := nodup_singleton name
  pd_mode := fun b hb => by
    rw [mem_singleton.mp hb]
    exact h

def lookupSmall (id : String) : LookupEvent ℤ := .lookup [⟨smallKey, 0, 16⟩] [] id true

def after (c : LookupConfig ℤ) (es : List (LookupEvent ℤ)) : LookupState ℤ :=
  es.foldl (step c) .new

theorem reachable_after (c : LookupConfig ℤ) (es : List (LookupEvent ℤ)) :
    (lookupSystem c).Reachable (after c es) :=
  LTS.Reachable.foldl (fun _ _ => rfl) es (.init rfl)

def cpuWhole : LookupConfig ℤ := smallConfig "LocalCPUBackend" .counted false (by decide)

def cpuLayers : LookupConfig ℤ := smallConfig "LocalCPUBackend" .counted true (by decide)

def sharedDisk : LookupConfig ℤ := smallConfig "SharedDiskBackend" .refCounted false (by decide)

def rawBlock : LookupConfig ℤ := smallConfig "RustRawBlockBackend" .flagged false (by decide)

/-- Two requests pin a chunk and one of them is done. -/
theorem balanced_two_requests :
    let s := after cpuWhole [lookupSmall "r1", lookupSmall "r2", .unpin "r1"]
    s.pinCount "LocalCPUBackend" smallKey = 1 ∧ Balanced cpuWhole s :=
  ⟨by decide +kernel, (lookup_pins_balanced (LTS.Reachable.replay_restrict (fun _ _ => rfl) _
    (.init rfl) (by decide +kernel))).1⟩

/-- A pin that stays although its id was unpinned: after two lookups of whole chunks under one id,
after a layer-wise lookup that finds one layer of two, and in the shared disk backend.  A pin that
goes although its id was not unpinned: in the raw block backend. -/
theorem lookup_pins_unbalanced :
    (∃ s, (lookupSystem cpuWhole).Reachable s ∧
      s = after cpuWhole [lookupSmall "r1", lookupSmall "r1", .unpin "r1"] ∧
      s.pinCount "LocalCPUBackend" smallKey = 1 ∧ s.outstanding = [] ∧
      ¬ Balanced cpuWhole s) ∧
    (∃ s, (lookupSystem cpuLayers).Reachable s ∧
      s = after cpuLayers [lookupSmall "r1", .unpin "r1"] ∧
      s.pinCount "LocalCPUBackend" (smallKey.layer 0) = 1 ∧ s.outstanding = [] ∧
      ¬ Balanced cpuLayers s) ∧
    (∃ s, (lookupSystem sharedDisk).Reachable s ∧
      s = after sharedDisk [lookupSmall "r1", .unpin "r1"] ∧
      s.pinCount "SharedDiskBackend" smallKey = 1 ∧ s.outstanding = [] ∧
      ¬ Balanced sharedDisk s) ∧
    ∃ s, (lookupSystem rawBlock).Reachable s ∧
      s = after rawBlock [lookupSmall "r1", lookupSmall "r2", .unpin "r1"] ∧
      s.pinCount "RustRawBlockBackend" smallKey = 0 ∧
      s.outstanding = [(some "r2", "RustRawBlockBackend", smallKey)] ∧ ¬ Balanced rawBlock s :=
  ⟨⟨_, reachable_after _ _, rfl, by decide +kernel, by decide +kernel, fun h =>
      absurd (h _ mem_cons_self smallKey) (by decide +kernel)⟩,
    ⟨_, reachable_after _ _, rfl, by decide +kernel, by decide +kernel, fun h =>
      absurd (h _ mem_cons_self (smallKey.layer 0)) (by decide +kernel)⟩,
    ⟨_, reachable_after _ _, rfl, by decide +kernel, by decide +kernel, fun h =>
      absurd (h _ mem_cons_self smallKey) (by decide +kernel)⟩,
    ⟨_, reachable_after _ _, rfl, by decide +kernel, by decide +kernel, fun h =>
      absurd (h _ mem_cons_self smallKey) (by decide +kernel)⟩⟩

end LMCache.LookupState
