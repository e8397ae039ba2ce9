import LMCache.Engine.Retrieval
import Mathlib.Data.Finset.Basic

/-! # Reporting what failed to load

At the start of a forward pass the vLLM connector loads for each request the tokens that LMCache
holds behind those that vLLM holds, and tells vLLM the blocks of tokens that could not be loaded.

* **The mask.**  Tokens are loaded in chunks, so the tokens that vLLM holds are masked only up to
  the last full chunk (`tokenMask`); the rest of that chunk is loaded again.
* **The check.**  Failure is noticed by comparing the number of retrieved tokens, which counts
  those that are loaded again, with the number of tokens that vLLM waits for (`loadRequest`).
* **The report.**  `recordFailedBlocks` looks up the blocks of the tokens that were asked for and
  not retrieved.

`failed_tokens_reported`: over the requests of a step every missing token is reported when the
tokens end with a full chunk, or with a chunk of more tokens than are loaded again.
`last_chunk_unreported`: for one request this is exact, since otherwise the loss of the last chunk
goes unnoticed.

Layer-wise loading checks nothing.  Left out are the retrieval itself, which is given by the mask
that it returns, and the statistics. -/

namespace LMCache.VLLM

open List

/-! ### The code -/

structure LoadSpec where
  vllmCachedTokens : ℕ
  lmcacheCachedTokens : ℕ
deriving DecidableEq, Repr

/-- The fields of `ReqMeta` that loading reads. -/
structure ReqMeta where
  tokenIds : List ℤ
  slotMapping : List ℕ
  loadSpec : Option LoadSpec
deriving DecidableEq, Repr

/-- The slot mapping that `from_request_tracker` makes from the blocks of a request. -/
def slotMappingOf (blockSize : ℕ) (allocatedBlockIds : List ℕ) (numTokens : ℕ) : List ℕ :=
  (allocatedBlockIds.flatMap fun block =>
    (List.range blockSize).map fun offset => offset + block * blockSize).take numTokens

/-- The settings of `LMCacheConnectorV1Impl` that loading reads. -/
structure Connector where
  lmcacheChunkSize : ℕ
  blockSize : ℕ
  useLayerwise : Bool
  chunkSize_pos : 0 < lmcacheChunkSize
  blockSize_pos : 0 < blockSize

/-- `slots[i]`. -/
def slotAt (slots : List ℕ) (i : ℕ) : Except PyError ℕ :=
  match slots[i]? with
  | some slot => .ok slot
  | none => .error ⟨.indexError, "index " ++ toString i ++ " is out of bounds"⟩

namespace Connector
variable (c : Connector)

def recordFailedBlocks (expectedMask retMask : List Bool) (slotMapping : List ℕ) :
    Except PyError (Finset ℕ) :=
  if expectedMask.length = 0 then .ok ∅
  else if retMask.length ≠ expectedMask.length then .ok ∅
  else
    let missingMask := List.zipWith (fun expected ret => expected && !ret) expectedMask retMask
    if missingMask.any id then do
      let missingIndices :=
        (List.range missingMask.length).filter fun i => missingMask[i]? = some true
      let slots ← missingIndices.mapM (slotAt (slotMapping.take missingMask.length))
      return (slots.map (· / c.blockSize)).toFinset
    else .ok ∅

def maskedTokenCount (spec : LoadSpec) : ℕ :=
  spec.vllmCachedTokens / c.lmcacheChunkSize * c.lmcacheChunkSize

def tokenMask (numTokens : ℕ) (spec : LoadSpec) : List Bool :=
  setRange (List.replicate numTokens true) 0 (c.maskedTokenCount spec) false

/-- The mask that `retrieve` returns for a request. -/
abbrev Retrieve := ReqMeta → List ℤ → List Bool → List Bool

/-- The call of `retrieve` in `start_load_kv`. -/
def retTokenMask (retrieve : Retrieve) (request : ReqMeta) (spec : LoadSpec) : List Bool :=
  retrieve request (request.tokenIds.take spec.lmcacheCachedTokens)
    ((c.tokenMask request.tokenIds.length spec).take spec.lmcacheCachedTokens)

/-- The body of the loop of `start_load_kv`, for a request with a load spec. -/
def loadRequest (retrieve : Retrieve) (request : ReqMeta) (spec : LoadSpec)
    (invalidBlockIds : Finset ℕ) : Except PyError (Finset ℕ) :=
  if request.tokenIds.length ≠ request.slotMapping.length then .error ⟨.assertionError, ""⟩
  else if c.useLayerwise then .ok invalidBlockIds
  else
    let retTokenMask := c.retTokenMask retrieve request spec
    let numExpectedTokens : ℤ := spec.lmcacheCachedTokens - spec.vllmCachedTokens
    if (retTokenMask.count true : ℤ) < numExpectedTokens then do
      let missingBlocks ← c.recordFailedBlocks
        ((c.tokenMask request.tokenIds.length spec).take spec.lmcacheCachedTokens) retTokenMask
        (request.slotMapping.take spec.lmcacheCachedTokens)
      return invalidBlockIds ∪ missingBlocks
    else .ok invalidBlockIds

/-- `start_load_kv`: the set `_invalid_block_ids` after the loop over the requests. -/
def startLoadKv (retrieve : Retrieve) (requests : List ReqMeta) (invalidBlockIds : Finset ℕ) :
    Except PyError (Finset ℕ) :=
  requests.foldlM (fun invalidBlockIds request =>
    match request.loadSpec with
    | none => .ok invalidBlockIds
    | some spec => c.loadRequest retrieve request spec invalidBlockIds) invalidBlockIds

end Connector

/-! ### Slots and blocks -/

theorem getElem?_flatMap_slots {blockSize : ℕ} (hpos : 0 < blockSize) (blocks : List ℕ) (p : ℕ) :
    (blocks.flatMap fun block =>
      (range blockSize).map fun offset => offset + block * blockSize)[p]? =
      blocks[p / blockSize]?.map fun block => p % blockSize + block * blockSize := by
  induction blocks generalizing p with
  | nil => simp
  | cons block blocks ih =>
    rw [flatMap_cons]
    by_cases hp : p < blockSize
    · rw [getElem?_append_left (by simpa using hp), Nat.div_eq_of_lt hp,
        Nat.mod_eq_of_lt hp]
      simp [hp]
    · obtain ⟨q, rfl⟩ := Nat.exists_eq_add_of_le (not_lt.mp hp)
      rw [getElem?_append_right (by simp), length_map, length_range,
        Nat.add_sub_cancel_left, ih, Nat.add_div_left _ hpos, Nat.add_mod_left,
        getElem?_cons_succ]

theorem getElem?_slotMappingOf {blockSize : ℕ} (hpos : 0 < blockSize) {blocks : List ℕ}
    {numTokens p : ℕ} (hp : p < numTokens) :
    (slotMappingOf blockSize blocks numTokens)[p]?.map (· / blockSize) =
      blocks[p / blockSize]? := by
  have hblock : ∀ block, (p % blockSize + block * blockSize) / blockSize = block := fun block => by
    rw [Nat.add_mul_div_right _ _ hpos, Nat.div_eq_of_lt (Nat.mod_lt _ hpos), Nat.zero_add]
  rw [slotMappingOf, getElem?_take_of_lt hp, getElem?_flatMap_slots hpos, Option.map_map]
  cases blocks[p / blockSize]? with
  | none => rfl
  | some block => simp [hblock]

/-! ### The report -/

theorem mapM_slotAt {slots indices : List ℕ} (h : ∀ i ∈ indices, i < slots.length) :
    ∃ found, indices.mapM (slotAt slots) = .ok found ∧
      ∀ slot, slot ∈ found ↔ ∃ i ∈ indices, slots[i]? = some slot := by
  induction indices with
  | nil => exact ⟨[], rfl, by simp⟩
  | cons i indices ih =>
    obtain ⟨first, hi⟩ : ∃ first, slots[i]? = some first :=
      ⟨_, getElem?_eq_getElem (h i mem_cons_self)⟩
    obtain ⟨found, hfound, hmem⟩ := ih (forall_mem_cons.mp h).2
    refine ⟨first :: found, ?_, fun slot => ?_⟩
    · rw [mapM_cons, hfound, slotAt, hi]
      rfl
    · simp [hmem, hi, eq_comm]

/-- **`record_failed_blocks`** gives the blocks of the tokens that were expected and not
retrieved. -/
theorem Connector.recordFailedBlocks_spec (c : Connector) (expectedMask retMask : List Bool)
    {slotMapping : List ℕ} (hslots : expectedMask.length ≤ slotMapping.length) :
    ∃ blocks, c.recordFailedBlocks expectedMask retMask slotMapping = .ok blocks ∧
      (retMask.length = expectedMask.length →
        ∀ i : ℕ, expectedMask[i]? = some true → retMask[i]? = some false →
          ∀ slot, slotMapping[i]? = some slot → slot / c.blockSize ∈ blocks) := by
  unfold recordFailedBlocks
  by_cases hzero : expectedMask.length = 0
  · refine ⟨∅, if_pos hzero, fun _ i hi => ?_⟩
    rw [length_eq_zero_iff.mp hzero] at hi
    nomatch hi
  by_cases hret : retMask.length ≠ expectedMask.length
  · exact ⟨∅, by rw [if_neg hzero, if_pos hret], fun heq => absurd heq hret⟩
  rw [if_neg hzero, if_neg hret]
  rw [not_not] at hret
  have hmissing : ∀ i : ℕ, expectedMask[i]? = some true → retMask[i]? = some false →
      (zipWith (fun expected ret => expected && !ret) expectedMask retMask)[i]? =
        some true := fun i hi hi' => by simp [getElem?_zipWith, hi, hi']
  have hlength : (zipWith (fun expected ret => expected && !ret) expectedMask
      retMask).length = expectedMask.length := by simp [hret]
  generalize zipWith (fun expected ret => expected && !ret) expectedMask retMask =
    missingMask at *
  dsimp only
  split
  · have hrange : ∀ i ∈ (range missingMask.length).filter
        (fun i => missingMask[i]? = some true),
        i < (slotMapping.take missingMask.length).length := by
      intro i hi
      have := mem_range.mp (mem_of_mem_filter hi)
      rw [length_take]
      omega
    obtain ⟨found, hfound, hmem⟩ := mapM_slotAt hrange
    refine ⟨(found.map (· / c.blockSize)).toFinset, by rw [hfound]; rfl,
      fun _ i hi hi' slot hs => ?_⟩
    have hlt := (List.getElem?_eq_some_iff.mp (hmissing i hi hi')).1
    rw [List.mem_toFinset, List.mem_map]
    refine ⟨slot, (hmem slot).mpr ⟨i, ?_, ?_⟩, rfl⟩
    · exact mem_filter.mpr ⟨mem_range.mpr hlt, decide_eq_true (hmissing i hi hi')⟩
    · rw [getElem?_take_of_lt hlt, hs]
  · next hany =>
      refine ⟨∅, rfl, fun _ i hi hi' => absurd ?_ hany⟩
      exact any_eq_true.mpr ⟨true, mem_of_getElem? (hmissing i hi hi'), rfl⟩

/-! ### The check -/

/-- The masks of a retrieval of `n` tokens: nothing in the masked front, and every chunk behind it
as a whole. -/
structure WholeChunks (chunkSize masked n : ℕ) (mask : List Bool) : Prop where
  length_eq : mask.length = n
  front : ∀ i < masked, mask[i]? ≠ some true
  whole : ∀ i j : ℕ, i < n → j < n → i / chunkSize = j / chunkSize → mask[i]? = mask[j]?

theorem count_take (mask : List Bool) {lo hi : ℕ} (h : lo ≤ hi) :
    (mask.take hi).count true =
      (mask.take lo).count true + ((mask.drop lo).take (hi - lo)).count true := by
  rw [← count_append, ← take_add, Nat.add_sub_cancel' h]

variable {mask : List Bool}

theorem count_window {lo hi : ℕ} (h : ∀ i, lo ≤ i → i < hi → mask[i]? ≠ some true) :
    ((mask.drop lo).take (hi - lo)).count true = 0 := by
  rw [count_eq_zero]
  intro hmem
  obtain ⟨i, hi⟩ := mem_iff_getElem?.mp hmem
  rw [getElem?_take, getElem?_drop] at hi
  split at hi
  · exact h (lo + i) (by omega) (by omega) hi
  · nomatch hi

theorem count_le {front lo hi : ℕ} (hfront : front ≤ lo) (hlo : lo ≤ hi) (hhi : hi ≤ mask.length)
    (hnone : ∀ i < front, mask[i]? ≠ some true)
    (hwindow : ∀ i, lo ≤ i → i < hi → mask[i]? ≠ some true) :
    mask.count true + front + (hi - lo) ≤ mask.length := by
  have hall := count_take mask hhi
  have hrest := count_take mask hlo
  have hmid := count_take mask hfront
  have hzero := count_take mask (Nat.zero_le front)
  rw [take_length] at hall
  rw [count_window hwindow] at hrest
  rw [count_window fun i _ => hnone i, take_zero, count_nil] at hzero
  have hlast := count_le_length (a := true) (l := (mask.drop hi).take (mask.length - hi))
  have hbefore := count_le_length (a := true) (l := (mask.drop front).take (lo - front))
  rw [length_take] at hlast hbefore
  omega

/-- The tokens end with a full chunk, or with one that has more tokens than are loaded again. -/
def LastChunkCounts (chunkSize vllmCachedTokens n : ℕ) : Prop :=
  n % chunkSize = 0 ∨ vllmCachedTokens % chunkSize < n % chunkSize

/-- **A missing chunk shows in the count.** -/
theorem count_lt_of_missing {chunkSize v n : ℕ} (hpos : 0 < chunkSize)
    (h : WholeChunks chunkSize (v / chunkSize * chunkSize) n mask)
    (hlast : LastChunkCounts chunkSize v n) {p : ℕ} (hv : v ≤ p) (hp : p < n)
    (hmissing : mask[p]? = some false) : mask.count true + v < n := by
  have hvdiv := Nat.div_add_mod' v chunkSize
  have hpdiv := Nat.div_add_mod' p chunkSize
  have hvmod := Nat.mod_lt v hpos
  have hpmod := Nat.mod_lt p hpos
  have hfront : v / chunkSize * chunkSize ≤ p / chunkSize * chunkSize :=
    Nat.mul_le_mul_right _ (Nat.div_le_div_right hv)
  -- The whole chunk of `p` is missing, up to the end of the tokens.
  have hwindow : ∀ i, p / chunkSize * chunkSize ≤ i →
      i < min (p / chunkSize * chunkSize + chunkSize) n → mask[i]? ≠ some true := by
    intro i hlo hhi
    have hsame : i / chunkSize = p / chunkSize :=
      Nat.div_eq_of_lt_le hlo (by rw [Nat.succ_mul]; omega)
    rw [h.whole i p (by omega) hp hsame, hmissing]
    simp
  have hcount := count_le hfront (by omega) (by rw [h.length_eq]; omega) h.front hwindow
  rw [h.length_eq] at hcount
  by_cases hfull : p / chunkSize * chunkSize + chunkSize ≤ n
  · omega
  · have hndiv : n / chunkSize = p / chunkSize :=
      Nat.div_eq_of_lt_le (by omega) (by rw [Nat.succ_mul]; omega)
    have hnmod := Nat.div_add_mod' n chunkSize
    rw [hndiv] at hnmod
    rcases hlast with hlast | hlast <;> omega

/-! ### Masks that end early -/

/-- The mask of a retrieval that misses the chunk behind `stop`. -/
def maskUpTo (front stop n : ℕ) : List Bool :=
  List.replicate front false ++ List.replicate (stop - front) true ++
    List.replicate (n - stop) false

theorem getElem?_maskUpTo {front stop n i : ℕ} (hfront : front ≤ stop) (hstop : stop ≤ n)
    (hi : i < n) : (maskUpTo front stop n)[i]? = some (decide (front ≤ i ∧ i < stop)) := by
  unfold maskUpTo
  by_cases h : i < stop
  · rw [getElem?_append_left (by simp; omega)]
    by_cases h' : i < front
    · rw [getElem?_append_left (by simpa using h'), getElem?_replicate, if_pos h']
      simp [h']
    · rw [getElem?_append_right (by simp; omega), getElem?_replicate,
        if_pos (by simp; omega)]
      simp [h, not_lt.mp h']
  · rw [getElem?_append_right (by simp; omega), getElem?_replicate,
      if_pos (by simp; omega)]
    simp [h]

theorem length_maskUpTo {front stop n : ℕ} (hfront : front ≤ stop) (hstop : stop ≤ n) :
    (maskUpTo front stop n).length = n := by
  simp [maskUpTo]
  omega

theorem count_maskUpTo (front stop n : ℕ) : (maskUpTo front stop n).count true = stop - front := by
  simp [maskUpTo, count_replicate]

theorem wholeChunks_maskUpTo {chunkSize k l n : ℕ} (hpos : 0 < chunkSize) (hkl : k ≤ l)
    (hstop : l * chunkSize ≤ n) :
    WholeChunks chunkSize (k * chunkSize) n (maskUpTo (k * chunkSize) (l * chunkSize) n) := by
  have hfront : k * chunkSize ≤ l * chunkSize := Nat.mul_le_mul_right _ hkl
  refine ⟨length_maskUpTo hfront hstop, fun i hi => ?_, fun i j hi hj hsame => ?_⟩
  · rw [getElem?_maskUpTo hfront hstop (by omega)]
    simp [not_le.mpr hi]
  · have hiff : (k * chunkSize ≤ i ∧ i < l * chunkSize) ↔
        (k * chunkSize ≤ j ∧ j < l * chunkSize) := by
      rw [← Nat.le_div_iff_mul_le hpos, ← Nat.le_div_iff_mul_le hpos,
        ← Nat.div_lt_iff_lt_mul hpos, ← Nat.div_lt_iff_lt_mul hpos, hsame]
    rw [getElem?_maskUpTo hfront hstop hi, getElem?_maskUpTo hfront hstop hj,
      decide_eq_decide.mpr hiff]

/-! ### Requests -/

namespace Connector
variable (c : Connector) (retrieve : Retrieve)

/-- The blocks of all tokens of a request that are missing. -/
def Reported (request : ReqMeta) (spec : LoadSpec) (invalidBlockIds : Finset ℕ) : Prop :=
  ∀ p slot, spec.vllmCachedTokens ≤ p → p < spec.lmcacheCachedTokens →
    (c.retTokenMask retrieve request spec)[p]? = some false →
    request.slotMapping[p]? = some slot → slot / c.blockSize ∈ invalidBlockIds

/-- The retrieval for a request returns whole chunks of the unmasked tokens. -/
def ReturnsWholeChunks (request : ReqMeta) (spec : LoadSpec) : Prop :=
  WholeChunks c.lmcacheChunkSize (c.maskedTokenCount spec)
    (min spec.lmcacheCachedTokens request.tokenIds.length) (c.retTokenMask retrieve request spec)

variable {spec : LoadSpec} {request : ReqMeta}

theorem getElem?_tokenMask {numTokens p : ℕ} (hv : spec.vllmCachedTokens ≤ p)
    (hp : p < spec.lmcacheCachedTokens) (hn : p < numTokens) :
    ((c.tokenMask numTokens spec).take spec.lmcacheCachedTokens)[p]? = some true := by
  have hmasked : c.maskedTokenCount spec ≤ p := (Nat.div_mul_le_self _ _).trans hv
  rw [getElem?_take_of_lt hp, tokenMask, getElem?_setRange, getElem?_replicate,
    if_pos hn, Option.map_some, if_neg (by omega)]

theorem length_tokenMask (numTokens : ℕ) (spec : LoadSpec) :
    ((c.tokenMask numTokens spec).take spec.lmcacheCachedTokens).length =
      min spec.lmcacheCachedTokens numTokens := by
  rw [length_take, tokenMask, length_setRange, length_replicate]

/-- **One request**: it adds blocks, and those of all missing tokens when the last chunk
counts. -/
theorem loadRequest_spec (hsync : c.useLayerwise = false) (spec : LoadSpec)
    (hslots : request.slotMapping.length = request.tokenIds.length) (invalidBlockIds : Finset ℕ) :
    ∃ invalid, c.loadRequest retrieve request spec invalidBlockIds = .ok invalid ∧
      invalidBlockIds ⊆ invalid ∧
      (c.ReturnsWholeChunks retrieve request spec →
        LastChunkCounts c.lmcacheChunkSize spec.vllmCachedTokens
          (min spec.lmcacheCachedTokens request.tokenIds.length) →
        c.Reported retrieve request spec invalid) := by
  unfold loadRequest
  rw [if_neg (not_not_intro hslots.symm), if_neg (by simp [hsync])]
  dsimp only
  split
  · obtain ⟨blocks, hblocks, hmem⟩ := c.recordFailedBlocks_spec
      ((c.tokenMask request.tokenIds.length spec).take spec.lmcacheCachedTokens)
      (c.retTokenMask retrieve request spec) (by
        rw [c.length_tokenMask, length_take, hslots])
    refine ⟨invalidBlockIds ∪ blocks, by rw [hblocks]; rfl, Finset.subset_union_left, ?_⟩
    intro hwhole _ p slot hv hp hmissing hslot
    have hlength := hwhole.length_eq.trans (c.length_tokenMask _ spec).symm
    have hn : p < request.tokenIds.length := by
      rw [← hslots]
      exact (List.getElem?_eq_some_iff.mp hslot).1
    exact Finset.mem_union_right _ (hmem hlength p (c.getElem?_tokenMask hv hp hn) hmissing slot
      (by rw [getElem?_take_of_lt hp, hslot]))
  · next hcount =>
      refine ⟨invalidBlockIds, rfl, subset_rfl, ?_⟩
      intro hwhole hlast p slot hv hp hmissing hslot
      have hlt := (List.getElem?_eq_some_iff.mp hmissing).1
      rw [hwhole.length_eq] at hlt
      have := count_lt_of_missing c.chunkSize_pos hwhole hlast hv hlt hmissing
      omega

theorem Reported.mono {invalid invalid' : Finset ℕ} (h : c.Reported retrieve request spec invalid)
    (hsub : invalid ⊆ invalid') : c.Reported retrieve request spec invalid' :=
  fun p slot hv hp hmissing hslot => hsub (h p slot hv hp hmissing hslot)

/-- **All requests of a step**: later requests keep the blocks of earlier ones. -/
theorem startLoadKv_spec (hsync : c.useLayerwise = false) {requests : List ReqMeta}
    (hslots : ∀ r ∈ requests, r.slotMapping.length = r.tokenIds.length)
    (invalidBlockIds : Finset ℕ) :
    ∃ invalid, c.startLoadKv retrieve requests invalidBlockIds = .ok invalid ∧
      invalidBlockIds ⊆ invalid ∧
      ∀ r ∈ requests, ∀ spec, r.loadSpec = some spec → c.ReturnsWholeChunks retrieve r spec →
        LastChunkCounts c.lmcacheChunkSize spec.vllmCachedTokens
          (min spec.lmcacheCachedTokens r.tokenIds.length) →
        c.Reported retrieve r spec invalid := by
  unfold startLoadKv
  induction requests generalizing invalidBlockIds with
  | nil => exact ⟨invalidBlockIds, rfl, subset_rfl, by simp⟩
  | cons request requests ih =>
    have htail := ih (forall_mem_cons.mp hslots).2
    rw [foldlM_cons]
    cases hspec : request.loadSpec with
    | none =>
      obtain ⟨invalid, hrun, hsub, hall⟩ := htail invalidBlockIds
      refine ⟨invalid, hrun, hsub, fun r hr spec hr' => ?_⟩
      rcases mem_cons.mp hr with rfl | hr
      · cases hspec.symm.trans hr'
      · exact hall r hr spec hr'
    | some spec =>
      obtain ⟨next, hnext, hsub, hreported⟩ :=
        c.loadRequest_spec retrieve hsync spec (hslots _ mem_cons_self) invalidBlockIds
      obtain ⟨invalid, hrun, hsub', hall⟩ := htail next
      refine ⟨invalid, ?_, hsub.trans hsub', fun r hr spec' hr' hwhole hlast => ?_⟩
      · dsimp only
        rw [hnext]
        exact hrun
      rcases mem_cons.mp hr with rfl | hr
      · cases hspec.symm.trans hr'
        exact (hreported hwhole hlast).mono c retrieve hsub'
      · exact hall r hr spec' hr' hwhole hlast

/-- **Every token that failed to load is reported**, for each request whose last chunk counts:
its block in the block table is in the set of invalid blocks. -/
theorem failed_tokens_reported (hsync : c.useLayerwise = false) (requests : List ReqMeta)
    (hslots : ∀ r ∈ requests, r.slotMapping.length = r.tokenIds.length)
    (invalidBlockIds : Finset ℕ) :
    ∃ invalid, c.startLoadKv retrieve requests invalidBlockIds = .ok invalid ∧
      ∀ r ∈ requests, ∀ spec, r.loadSpec = some spec →
        spec.vllmCachedTokens ≤ spec.lmcacheCachedTokens →
        c.ReturnsWholeChunks retrieve r spec →
        LastChunkCounts c.lmcacheChunkSize spec.vllmCachedTokens
          (min spec.lmcacheCachedTokens r.tokenIds.length) →
        ∀ blockTable, r.slotMapping = slotMappingOf c.blockSize blockTable r.tokenIds.length →
          ∀ p, spec.vllmCachedTokens ≤ p → p < spec.lmcacheCachedTokens →
            (c.retTokenMask retrieve r spec)[p]? = some false →
            ∃ block ∈ invalid, blockTable[p / c.blockSize]? = some block := by
  obtain ⟨invalid, hrun, -, hall⟩ := c.startLoadKv_spec retrieve hsync hslots invalidBlockIds
  refine ⟨invalid, hrun, ?_⟩
  intro r hr spec hspec _ hwhole hlast blockTable htable p hv hp hmissing
  have hn : p < r.tokenIds.length := by
    have := (List.getElem?_eq_some_iff.mp hmissing).1
    rw [hwhole.length_eq] at this
    omega
  obtain ⟨slot, hslot⟩ : ∃ slot, r.slotMapping[p]? = some slot :=
    ⟨_, getElem?_eq_getElem (by rw [hslots r hr]; exact hn)⟩
  refine ⟨slot / c.blockSize, hall r hr spec hspec hwhole hlast p slot hv hp hmissing hslot, ?_⟩
  rw [← getElem?_slotMappingOf c.blockSize_pos hn, ← htable, hslot, Option.map_some]

def smallConnector : Connector := ⟨4, 2, false, by decide, Nat.zero_lt_two⟩

/-- A request of eight tokens, of which vLLM holds three. -/
def smallRequest (lmcacheCachedTokens : ℕ) : ReqMeta :=
  ⟨[0, 1, 2, 3, 4, 5, 6, 7], slotMappingOf 2 [10, 11, 12, 13] 8, some ⟨3, lmcacheCachedTokens⟩⟩

/-- The second of two full chunks is missing, and both of its blocks are reported. -/
theorem failed_tokens_reported_second_chunk :
    ∃ invalid, smallConnector.startLoadKv (fun _ _ _ => maskUpTo 0 4 8) [smallRequest 8] ∅ =
      .ok invalid ∧ 12 ∈ invalid ∧ 13 ∈ invalid := by
  obtain ⟨invalid, hrun, hall⟩ :=
    smallConnector.failed_tokens_reported (fun _ _ _ => maskUpTo 0 4 8)
    rfl [smallRequest 8] (by decide) ∅
  have hwhole : smallConnector.ReturnsWholeChunks (fun _ _ _ => maskUpTo 0 4 8) (smallRequest 8)
      ⟨3, 8⟩ := wholeChunks_maskUpTo (k := 0) (l := 1) (by decide) (by decide) (by decide)
  have hreported := hall _ (mem_singleton.mpr rfl) ⟨3, 8⟩ rfl (by decide) hwhole (.inl rfl)
    [10, 11, 12, 13] rfl
  obtain ⟨block, hmem, hblock⟩ := hreported 4 (by decide) (by decide) rfl
  obtain ⟨block', hmem', hblock'⟩ := hreported 6 (by decide) (by decide) rfl
  refine ⟨invalid, hrun, ?_, ?_⟩
  · rwa [← Option.some.inj hblock] at hmem
  · rwa [← Option.some.inj hblock'] at hmem'

/-- The last three of seven tokens are missing.  The first chunk brings as many tokens as vLLM
waits for, and nothing is reported. -/
theorem failed_tokens_unreported :
    smallConnector.ReturnsWholeChunks (fun _ _ _ => maskUpTo 0 4 7) (smallRequest 7) ⟨3, 7⟩ ∧
      (smallConnector.retTokenMask (fun _ _ _ => maskUpTo 0 4 7) (smallRequest 7) ⟨3, 7⟩)[4]? =
        some false ∧
      smallConnector.startLoadKv (fun _ _ _ => maskUpTo 0 4 7) [smallRequest 7] ∅ = .ok ∅ :=
  ⟨wholeChunks_maskUpTo (k := 0) (l := 1) (by decide) (by decide) (by decide), rfl, rfl⟩

/-- Some retrieval of whole chunks misses a token of which nothing is reported. -/
def LossUnnoticed (request : ReqMeta) (spec : LoadSpec) (invalidBlockIds : Finset ℕ) : Prop :=
  ∃ retrieve, c.ReturnsWholeChunks retrieve request spec ∧
    c.loadRequest retrieve request spec invalidBlockIds = .ok invalidBlockIds ∧
    ∃ p, spec.vllmCachedTokens ≤ p ∧ p < spec.lmcacheCachedTokens ∧
      (c.retTokenMask retrieve request spec)[p]? = some false

section
variable (hsync : c.useLayerwise = false)
  (hslots : request.slotMapping.length = request.tokenIds.length)
  (hlm : spec.lmcacheCachedTokens ≤ request.tokenIds.length)
  (hlt : spec.vllmCachedTokens < spec.lmcacheCachedTokens)

include hsync hslots hlm hlt

/-- The last chunk is missed, and the others bring as many tokens as vLLM waits for. -/
theorem lossUnnoticed
    (hlast : ¬ LastChunkCounts c.lmcacheChunkSize spec.vllmCachedTokens spec.lmcacheCachedTokens)
    (invalidBlockIds : Finset ℕ) : c.LossUnnoticed request spec invalidBlockIds := by
  have hpos := c.chunkSize_pos
  have hstop := Nat.div_mul_le_self spec.lmcacheCachedTokens c.lmcacheChunkSize
  have hdiv : spec.vllmCachedTokens / c.lmcacheChunkSize ≤
      spec.lmcacheCachedTokens / c.lmcacheChunkSize := Nat.div_le_div_right hlt.le
  have hfront : c.maskedTokenCount spec ≤
      spec.lmcacheCachedTokens / c.lmcacheChunkSize * c.lmcacheChunkSize :=
    Nat.mul_le_mul_right _ hdiv
  have hv := Nat.div_add_mod' spec.vllmCachedTokens c.lmcacheChunkSize
  have hl := Nat.div_add_mod' spec.lmcacheCachedTokens c.lmcacheChunkSize
  unfold LastChunkCounts at hlast
  refine ⟨fun _ _ _ => maskUpTo (c.maskedTokenCount spec)
      (spec.lmcacheCachedTokens / c.lmcacheChunkSize * c.lmcacheChunkSize)
      spec.lmcacheCachedTokens, ?_, ?_, spec.lmcacheCachedTokens - 1, by omega, by omega, ?_⟩
  · rw [ReturnsWholeChunks, min_eq_left hlm]
    exact wholeChunks_maskUpTo hpos hdiv hstop
  · unfold loadRequest
    rw [if_neg (not_not_intro hslots.symm), if_neg (by simp [hsync])]
    dsimp only [retTokenMask]
    rw [count_maskUpTo, if_neg]
    unfold maskedTokenCount at *
    omega
  · rw [retTokenMask, getElem?_maskUpTo hfront hstop (by omega)]
    simp only [Option.some.injEq, decide_eq_false_iff_not]
    omega

/-- **The loss of the last chunk** is reported whatever is retrieved exactly if the last chunk
counts.  It goes unnoticed when that chunk has no more tokens than are loaded again. -/
theorem last_chunk_unreported :
    (LastChunkCounts c.lmcacheChunkSize spec.vllmCachedTokens spec.lmcacheCachedTokens ↔
      ∀ retrieve, c.ReturnsWholeChunks retrieve request spec →
        ∃ invalid, c.loadRequest retrieve request spec ∅ = .ok invalid ∧
          c.Reported retrieve request spec invalid) ∧
    (¬ LastChunkCounts c.lmcacheChunkSize spec.vllmCachedTokens spec.lmcacheCachedTokens →
      ∀ invalidBlockIds, c.LossUnnoticed request spec invalidBlockIds) := by
  have hunreported := c.lossUnnoticed hsync hslots hlm hlt
  refine ⟨⟨fun hlast retrieve hwhole => ?_, fun hall => ?_⟩, hunreported⟩
  · obtain ⟨invalid, hload, -, hreported⟩ := c.loadRequest_spec retrieve hsync spec hslots ∅
    exact ⟨invalid, hload, hreported hwhole (by rwa [min_eq_left hlm])⟩
  · by_contra hlast
    obtain ⟨retrieve, hwhole, hload, p, hv, hp, hmissing⟩ := hunreported hlast ∅
    obtain ⟨invalid, hload', hreported⟩ := hall retrieve hwhole
    cases hload.symm.trans hload'
    have hslot := getElem?_eq_getElem (l := request.slotMapping) (i := p) (by omega)
    exact Finset.notMem_empty _ (hreported p _ hv hp hmissing hslot)

end

theorem last_chunk_unreported_seven :
    ∃ retrieve, smallConnector.ReturnsWholeChunks retrieve (smallRequest 7) ⟨3, 7⟩ ∧
      smallConnector.loadRequest retrieve (smallRequest 7) ⟨3, 7⟩ ∅ = .ok ∅ ∧
      ∃ p, 3 ≤ p ∧ p < 7 ∧
        (smallConnector.retTokenMask retrieve (smallRequest 7) ⟨3, 7⟩)[p]? = some false :=
  (smallConnector.last_chunk_unreported rfl rfl (by decide) (by decide)).2
    (by simp [LastChunkCounts, smallConnector]) ∅

end Connector

end LMCache.VLLM
