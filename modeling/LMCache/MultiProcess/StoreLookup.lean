import LMCache.MultiProcess.Session

/-! # Store and lookup agree on object keys

A lookup hashes the tokens of a request from scratch and asks for the objects of all workers.
A store or retrieve takes the hashes from the session of the request, which has grown along
the earlier calls, and asks for the objects of its own worker.

A run is any sequence of store and retrieve calls, of any requests and workers and also calls
that raise, and of ends of sessions.  Every request has a history: the tokens of all its keys
are beginnings of it, since tokens are only ever appended.  In every state of such a run the
sessions hold hashes of the histories (`sessions_good_inductive`), so that the keys of a
further call are those of the lookup (`transfer_keys_match_lookup`). -/

namespace LMCache.MultiProcess

open List IPCCacheEngineKey HashChain

section resolve
variable {hasher : TokenHasher} {history : String → List ℤ} {m : Sessions}

/-! ### Resolving keys -/

/-- The hash-mode keys of a key, with the hashes of the history. -/
def resolvedKeys (hasher : TokenHasher) (history : String → List ℤ) (key : IPCCacheEngineKey) :
    List IPCCacheEngineKey :=
  match key.tokenIds, key.requestId with
  | some _, some requestId =>
    (((List.range (key.stop / hasher.chunkSize)).drop (key.start / hasher.chunkSize)).map
      (hasher.chunkHash (history requestId))).map (key.ofHash none)
  | _, _ => [key]

theorem resolveKey_spec (hm : m.Good hasher history) {key : IPCCacheEngineKey}
    (hkey : m.Processed hasher key) :
    (resolveKey hasher key m).1 = .ok (resolvedKeys hasher history key) ∧
      (resolveKey hasher key m).2.Good hasher history ∧ m.Le (resolveKey hasher key m).2 := by
  unfold resolveKey resolvedKeys
  cases htokens : key.tokenIds with
  | none => exact ⟨rfl, hm, fun _ => le_rfl⟩
  | some tokenIds =>
    obtain ⟨requestId, hrequest, hstart, hstop, hnum⟩ := hkey tokenIds htokens
    obtain ⟨hget, hok, -, hle⟩ :=
      (hm.getOrCreate requestId).getHashes hstart hstop (Or.inr hnum)
    rw [hrequest]
    dsimp only [sessionHashes]
    rw [hget]
    exact ⟨rfl, hm.update hok, Sessions.le_update hle⟩

theorem resolveKeys_spec (hm : m.Good hasher history) {keys : List IPCCacheEngineKey}
    (hkeys : ∀ key ∈ keys, m.Processed hasher key) :
    (resolveKeys hasher keys m).1 = .ok (keys.map (resolvedKeys hasher history)) ∧
      (resolveKeys hasher keys m).2.Good hasher history := by
  induction keys generalizing m with
  | nil => exact ⟨rfl, hm⟩
  | cons key keys ih =>
    obtain ⟨hres, hgood, hle⟩ := resolveKey_spec hm (hkeys key mem_cons_self)
    rw [resolveKeys]
    generalize resolveKey hasher key m = r at hres hgood hle
    obtain ⟨res, m₁⟩ := r
    subst hres
    obtain ⟨hrest, hgood'⟩ := ih hgood fun k hk => (hkeys k (mem_cons_of_mem _ hk)).mono hle
    refine ⟨?_, hgood'⟩
    dsimp only
    rw [hrest]
    rfl

theorem transferObjectKeys_good (hm : m.Good hasher history) {keys : List IPCCacheEngineKey}
    (hkeys : ∀ key ∈ keys, key.InHistory history) (op : TransferOp) :
    (transferObjectKeys hasher op keys m).2.Good hasher history := by
  obtain ⟨hgood, -, hproc⟩ := updateSessions_spec hm hkeys
  unfold transferObjectKeys
  generalize updateSessions hasher keys m = r at hgood hproc
  obtain ⟨res, m₁⟩ := r
  cases res with
  | error e => exact hgood
  | ok u =>
    obtain ⟨hres, hgood'⟩ := resolveKeys_spec hgood (hproc rfl)
    grind

end resolve

/-! ### Runs -/

inductive SessionEvent where
  | transfer (op : TransferOp) (keys : List IPCCacheEngineKey)
  | endSession (requestId : String)

def sessionSystem (hasher : TokenHasher) : LTS Sessions SessionEvent where
  init m := ∀ requestId, m requestId = none
  step m e m' :=
    match e with
    | .transfer op keys => m' = (transferObjectKeys hasher op keys m).2
    | .endSession requestId => m' = m.remove requestId

/-- The tokens of every request are only ever extended, along its history. -/
def SessionEvent.Extends (history : String → List ℤ) : SessionEvent → Prop
  | .transfer _ keys => ∀ key ∈ keys, key.InHistory history
  | .endSession _ => True

theorem sessions_good_inductive (hasher : TokenHasher) (history : String → List ℤ) :
    ((sessionSystem hasher).restrict fun _ e => e.Extends history).Inductive
      (Sessions.Good hasher history) where
  init := by
    intro m hm requestId s hs
    simp [hm requestId] at hs
  step := by
    rintro m e m' hgood ⟨hext, hstep⟩
    cases e with
    | transfer op keys =>
      rw [show m' = (transferObjectKeys hasher op keys m).2 from hstep]
      exact transferObjectKeys_good hgood hext op
    | endSession requestId =>
      rw [show m' = m.remove requestId from hstep]
      intro r s hs
      by_cases hr : r = requestId
      · simp [Sessions.remove, hr] at hs
      · rw [Sessions.remove, Function.update_of_ne hr] at hs
        exact hgood r s hs

/-! ### One more call -/

/-- A key that `store` and `retrieve` accept: it has a worker, and it has a hash or an aligned
range of the tokens of a request. -/
structure IPCCacheEngineKey.WellFormed (hasher : TokenHasher) (key : IPCCacheEngineKey) : Prop where
  worker : key.workerId.isSome
  hash : key.tokenIds = none → key.chunkHash.isSome
  request : ∀ tokenIds, key.tokenIds = some tokenIds → key.requestId.isSome
  start : ∀ tokenIds, key.tokenIds = some tokenIds → key.start % hasher.chunkSize = 0
  stop : ∀ tokenIds, key.tokenIds = some tokenIds → key.stop % hasher.chunkSize = 0

section call
variable {hasher : TokenHasher} {history : String → List ℤ} {m : Sessions}

theorem updateSessions_ok {keys : List IPCCacheEngineKey}
    (hkeys : ∀ key ∈ keys, key.WellFormed hasher) (m : Sessions) :
    (updateSessions hasher keys m).1 = .ok () := by
  induction keys generalizing m with
  | nil => rfl
  | cons key keys ih =>
    have hkey := hkeys key mem_cons_self
    have hok : (updateSessionForKey hasher key m).1 = .ok () := by
      unfold updateSessionForKey
      cases htokens : key.tokenIds with
      | none => rfl
      | some tokenIds =>
        obtain ⟨requestId, hrequest⟩ := Option.isSome_iff_exists.mp (hkey.request tokenIds htokens)
        have hstart := hkey.start tokenIds htokens
        have hstop := hkey.stop tokenIds htokens
        rw [hrequest]
        simp [sessionHashes, Session.getHashes, hstart, hstop, Except.map]
    rw [updateSessions]
    grind

/-- The object of a key that has a hash and a worker. -/
def ownObject (key : IPCCacheEngineKey) : List ObjectKey :=
  [key.objectKey (key.chunkHash.getD []) (key.workerId.getD 0)]

theorem resolvedKeys_complete {key k : IPCCacheEngineKey} (hkey : key.WellFormed hasher)
    (hk : k ∈ resolvedKeys hasher history key) :
    k.workerId.isSome ∧ k.objectKeys = .ok (ownObject k) := by
  obtain ⟨w, hw⟩ := Option.isSome_iff_exists.mp hkey.worker
  unfold resolvedKeys at hk
  cases htokens : key.tokenIds with
  | none =>
    obtain ⟨b, hb⟩ := Option.isSome_iff_exists.mp (hkey.hash htokens)
    simp only [htokens, mem_singleton] at hk
    subst hk
    simp [objectKeys, ownObject, hb, hw]
  | some tokenIds =>
    obtain ⟨requestId, hrequest⟩ := Option.isSome_iff_exists.mp (hkey.request tokenIds htokens)
    simp only [htokens, hrequest] at hk
    obtain ⟨h, -, rfl⟩ := mem_map.mp hk
    simp [ofHash, objectKeys, ownObject, hw]

/-- **The keys of a call** are those of the histories, key by key. -/
theorem transferObjectKeys_eq (hm : m.Good hasher history) {keys : List IPCCacheEngineKey}
    (hkeys : ∀ key ∈ keys, key.InHistory history) (hwf : ∀ key ∈ keys, key.WellFormed hasher)
    (op : TransferOp) :
    (transferObjectKeys hasher op keys m).1 =
      .ok (keys.map fun key => (resolvedKeys hasher history key).flatMap ownObject).flatten := by
  obtain ⟨hgood, -, hproc⟩ := updateSessions_spec hm hkeys
  have hok := updateSessions_ok hwf m
  unfold transferObjectKeys
  generalize updateSessions hasher keys m = r at hgood hproc hok
  obtain ⟨res, m₁⟩ := r
  subst hok
  obtain ⟨hres, -⟩ := resolveKeys_spec hgood (hproc rfl)
  dsimp only at hres ⊢
  generalize resolveKeys hasher keys m₁ = r at hres
  obtain ⟨res, m₂⟩ := r
  subst hres
  have hall : ∀ k ∈ (keys.map (resolvedKeys hasher history)).flatten,
      k.workerId.isSome ∧ k.objectKeys = .ok (ownObject k) := by
    intro k hk
    obtain ⟨l, hl, hkl⟩ := mem_flatten.mp hk
    obtain ⟨key, hkey, rfl⟩ := mem_map.mp hl
    exact resolvedKeys_complete (hwf key hkey) hkl
  dsimp only
  rw [if_pos (all_eq_true.mpr fun k hk => (hall k hk).1),
    ipcKeysToObjectKeys_ok fun k hk => (hall k hk).2]
  simp [flatMap_def, map_flatten, flatten_flatten, Function.comp_def]

theorem getElem?_resolvedKeys {key : IPCCacheEngineKey} {tokenIds : List ℤ} {requestId : String}
    (htokens : key.tokenIds = some tokenIds) (hrequest : key.requestId = some requestId)
    {w : ℕ} (hw : key.workerId = some w) {i : ℕ} (hstart : key.start / hasher.chunkSize ≤ i)
    (hstop : i < key.stop / hasher.chunkSize) :
    ((resolvedKeys hasher history key).flatMap ownObject)[i - key.start / hasher.chunkSize]? =
      some (key.objectKey (hashToBytes (hasher.chunkHash (history requestId) i)) w) := by
  have hobjects : (resolvedKeys hasher history key).flatMap ownObject =
      ((range (key.stop / hasher.chunkSize)).drop (key.start / hasher.chunkSize)).map
        fun i => key.objectKey (hashToBytes (hasher.chunkHash (history requestId) i)) w := by
    simp only [resolvedKeys, htokens, hrequest]
    rw [flatMap_map, flatMap_map, map_eq_flatMap]
    simp [ownObject, ofHash, objectKey, hw]
  grind

end call

/-- **Store and lookup agree.**  After any run in which tokens are only ever appended, a call
with well-formed keys derives one part of object keys for every key, and the part of a key in
token mode holds, for every chunk of its range, the object that stands at
`i * worldSize + workerId` in the keys of a lookup with the same tokens. -/
theorem transfer_keys_match_lookup (hasher : TokenHasher) (history : String → List ℤ) {m : Sessions}
    (hrun : ((sessionSystem hasher).restrict fun _ e => e.Extends history).Reachable m)
    (op : TransferOp) {keys : List IPCCacheEngineKey}
    (hkeys : ∀ key ∈ keys, key.InHistory history) (hwf : ∀ key ∈ keys, key.WellFormed hasher) :
    ∃ parts : List (List ObjectKey),
      (transferObjectKeys hasher op keys m).1 = .ok parts.flatten ∧ parts.length = keys.length ∧
      ∀ (n : ℕ) (key : IPCCacheEngineKey) (tokenIds : List ℤ) (w : ℕ), keys[n]? = some key →
        key.tokenIds = some tokenIds → key.workerId = some w → w < key.worldSize →
        ∃ lookup part : List ObjectKey, lookupObjectKeys hasher [key.noWorkerIdVersion] =
          .ok lookup ∧
          parts[n]? = some part ∧
          ∀ i, key.start ≤ i * hasher.chunkSize → i * hasher.chunkSize < key.stop →
            ∃ object, part[i - key.start / hasher.chunkSize]? = some object ∧
              lookup[i * key.worldSize + w]? = some object := by
  have hgood := (sessions_good_inductive hasher history).reachable hrun
  refine ⟨_, transferObjectKeys_eq hgood hkeys hwf op, length_map _, ?_⟩
  intro n key tokenIds w hn htokens hw hlt
  have hmem := mem_of_getElem? hn
  have hpos := hasher.chunkSize_pos
  obtain ⟨requestId, hrequest⟩ :=
    Option.isSome_iff_exists.mp ((hwf key hmem).request tokenIds htokens)
  obtain ⟨hpre, hlen⟩ := hkeys key hmem tokenIds requestId htokens hrequest
  refine ⟨_, _, lookupObjectKeys_eq hasher htokens, by rw [getElem?_map, hn, Option.map_some], ?_⟩
  intro i hstart hstop
  have hstop' : i < key.stop / hasher.chunkSize := by
    have hdvd := Nat.div_mul_cancel (Nat.dvd_of_mod_eq_zero ((hwf key hmem).stop tokenIds htokens))
    rw [← hdvd] at hstop
    exact Nat.lt_of_mul_lt_mul_right hstop
  have hstart' : key.start / hasher.chunkSize ≤ i := (Nat.div_le_iff_le_mul_add_pred hpos).mpr
    (by rw [Nat.mul_comm]; omega)
  have hchunk : (i + 1) * hasher.chunkSize ≤ tokenIds.length :=
    ((Nat.mul_le_mul_right _ hstop').trans (Nat.div_mul_le_self _ _)).trans hlen
  refine ⟨_, getElem?_resolvedKeys htokens hrequest hw hstart' hstop', ?_⟩
  rw [← hasher.chunkHash_congr hpre hchunk]
  exact getElem?_flatMap_chunkObjects hlt _ ((Nat.le_div_iff_mul_le hpos).mpr hchunk)

/-- Chunks of two tokens; the hash is the hash before, followed by the tokens. -/
def listHasher : TokenHasher where
  chunkSize := 2
  hashFunc := fun p t => .bytes (hashToBytes p ++ t.map (BitVec.ofInt 8))
  noneHash := .int 7
  chunkSize_pos := Nat.zero_lt_two

/-- A key of worker 1 of 2 for the first tokens of a request. -/
def workerKey (tokenIds : List ℤ) (stop : ℕ) : IPCCacheEngineKey :=
  { modelName := "m", worldSize := 2, workerId := some 1, tokenIds := some tokenIds, start := 0,
    stop := stop, chunkHash := none, requestId := some "r" }

theorem workerKey_inHistory {tokenIds : List ℤ} (rest : List ℤ) {stop : ℕ}
    (hlen : stop ≤ tokenIds.length) :
    (workerKey tokenIds stop).InHistory fun _ => tokenIds ++ rest := by
  intro tokenIds' requestId htokens _
  cases htokens
  exact ⟨prefix_append _ _, hlen⟩

/-- One chunk is stored, then two chunks are retrieved after the request got another token: the
second one is at position 3 of the lookup. -/
theorem transfer_keys_match_lookup_second :
    ∃ m, ((sessionSystem listHasher).restrict fun _ e =>
        e.Extends fun _ => [1, 2, 3, 4]).Reachable m ∧
      ∃ parts : List (List ObjectKey),
        (transferObjectKeys listHasher .retrieve [workerKey [1, 2, 3, 4] 4] m).1 =
          .ok parts.flatten ∧
        ∃ lookup part : List ObjectKey,
          lookupObjectKeys listHasher [(workerKey [1, 2, 3, 4] 4).noWorkerIdVersion] = .ok lookup ∧
          parts[0]? = some part ∧ ∃ object, part[1]? = some object ∧ lookup[3]? = some object := by
  have hinit : ((sessionSystem listHasher).restrict fun _ e =>
      e.Extends fun _ => [1, 2, 3, 4]).Reachable fun _ => none := .init fun _ => rfl
  have hstore : (SessionEvent.transfer .store [workerKey [1, 2, 3] 2]).Extends
      fun _ => [1, 2, 3, 4] := by
    intro key hkey
    rw [mem_singleton.mp hkey]
    exact workerKey_inHistory [4] (by decide)
  have hrun : ((sessionSystem listHasher).restrict fun _ e =>
      e.Extends fun _ => [1, 2, 3, 4]).Reachable
        (transferObjectKeys listHasher .store [workerKey [1, 2, 3] 2] fun _ => none).2 :=
    hinit.step (e := .transfer .store [workerKey [1, 2, 3] 2]) ⟨hstore, rfl⟩
  obtain ⟨parts, heq, -, hparts⟩ := @transfer_keys_match_lookup listHasher (fun _ => [1, 2, 3, 4])
    _ hrun .retrieve [workerKey [1, 2, 3, 4] 4]
    (fun key hkey => by
      rw [mem_singleton.mp hkey]
      exact workerKey_inHistory [] (by decide))
    (fun key hkey => by
      rw [mem_singleton.mp hkey]
      exact ⟨rfl, by simp [workerKey], fun _ _ => rfl, fun _ _ => rfl, fun _ _ => rfl⟩)
  obtain ⟨lookup, part, hlookup, hpart, hchunk⟩ := hparts 0 _ _ 1 rfl rfl rfl (by decide)
  exact ⟨_, hrun, parts, heq, lookup, part, hlookup, hpart, hchunk 1 (by decide) (by decide)⟩

end LMCache.MultiProcess
