import LMCache.Lib.CountedPages
import LMCache.Lib.Transition

/-! # Remote writes of a peer

`P2PBackend.batched_get_non_blocking` allocates a page for each key and sends their numbers to a
peer, which writes the objects that it has into the pages (`_handle_batched_lookup_and_get`) and
answers how many they are.  An attempt that ends in an error of the socket, a timeout above all, is
followed by another one; when none is left, all pages are released.

`remote_writes_held`: provided that the client leaves an attempt only when the peer is through with
it (or when its message was lost), a remote write goes to a page that the call holds, before the
call returns, and no attempt is under way when the call has returned.

`late_remote_write` shows what happens otherwise.

* **Pages**: those of the paged allocator of the client.  Other requests allocate, fill and release
  pages of it at any time.
* **Messages**: each attempt has one, which is lost, or handled at any time.  A reply reaches the
  client only when it waits for this attempt, since each retry makes a new socket.
* **Writes** of one message land one by one, in any order; they have landed when
  `async_batched_write` returns. -/

namespace LMCache.P2P

open List

open CountedPages (releaseAll)

inductive P2PErrorCode where
  | p2pServerError
  | remoteXferHandlerNotInitialized
deriving DecidableEq, Repr

/-- `BatchedLookupAndGetRetMsg` or `P2PErrorMsg`. -/
inductive Reply where
  | batchedLookupAndGetRet (numHitChunks : ℕ)
  | error (errorCode : P2PErrorCode)
deriving DecidableEq, Repr

def Reply.numHitChunks : Reply → ℕ
  | .batchedLookupAndGetRet numHitChunks => numHitChunks
  | .error _ => 0

inductive Attempt (B : Type) where
  | sent
  | lost
  /-- The writes that have not landed, and the number of hits. -/
  | handling (pending : List (ℕ × B)) (numHitChunks : ℕ)
  | replied (reply : Reply)
deriving DecidableEq

/-- The peer will not write for this attempt any more. -/
def Attempt.over {B : Type} : Attempt B → Bool
  | .lost | .replied _ => true
  | .sent | .handling _ _ => false

def Attempt.pending {B : Type} : Attempt B → List (ℕ × B)
  | .handling pending _ => pending
  | _ => []

/-- The client in `batched_get_non_blocking`. -/
inductive Client where
  /-- The keys that were tried, and the first one without a page. -/
  | allocating (tried : ℕ) (failed : Option ℕ)
  | sending (retryCount : ℕ)
  | waiting (retryCount : ℕ)
  | returned (hitMemObjs : List ℕ)
  | raised
deriving DecidableEq, Repr

/-- The client, its peer and the other requests of the client. -/
structure Get (B : Type) where
  pages : CountedPages
  mem : ℕ → B
  /-- The pages that were allocated. -/
  memObjs : List ℕ
  localIndexes : List ℕ
  client : Client
  attempts : List (Attempt B)
  /-- The pages of other requests. -/
  others : List ℕ

inductive ClientEvent where
  | allocate
  | build
  | send
  | recv
  | zmqError
  | connectionError
  | otherError

inductive PeerEvent (B : Type) where
  | lose
  | refuse
  | handle (objects : List B)
  | land (j : ℕ)
  | fail
  | answer

inductive OtherEvent (B : Type) where
  | allocate
  | write (i : ℕ) (b : B)
  | release (i : ℕ)

inductive Event (B : Type) where
  | client (e : ClientEvent)
  | peer (a : ℕ) (e : PeerEvent B)
  | other (e : OtherEvent B)

namespace Get
variable {B : Type}

/-- The hits are returned, the other pages released. -/
def giveBack (s : Get B) (numHitChunks : ℕ) : Get B :=
  { s with
    pages := s.pages.releaseAll (s.memObjs.drop numHitChunks)
    client := .returned (s.memObjs.take numHitChunks) }

/-- The end of the call.  Without indexes the first object is `None`, and its `ref_count_down`
raises. -/
def finish (s : Get B) (numHitChunks : ℕ) : Get B :=
  if s.localIndexes = [] then { s with client := .raised } else s.giveBack numHitChunks

/-- `_cleanup_memory_objects`, which catches what `None` raises, and nothing is returned. -/
def cleanup (s : Get B) : Get B := s.giveBack 0

/-- The reply of the last attempt: the client tries again if the peer did not know it yet. -/
def handleReply (maxRetryCount : ℕ) (s : Get B) (retryCount : ℕ) (reply : Reply) : Get B :=
  if reply = .error .remoteXferHandlerNotInitialized ∧ retryCount < maxRetryCount then
    { s with client := .sending retryCount }
  else s.finish reply.numHitChunks

/-- A step of the client, for a call with `numKeys` keys. -/
def clientStep (numKeys maxRetryCount : ℕ) (s : Get B) : ClientEvent → Option (Get B)
  | .allocate =>
    match s.client with
    | .allocating tried failed =>
      if tried < numKeys then
        match s.pages.take with
        | none => some { s with client := .allocating (tried + 1) (failed <|> some tried) }
        | some (page, pages) =>
          some { s with
            pages := pages
            memObjs := s.memObjs ++ [page]
            client := .allocating (tried + 1) failed }
      else none
    | _ => none
  -- `get_local_mem_indices` asks for the type of the first object, and asserts that of the others.
  | .build =>
    match s.client with
    | .allocating tried failed =>
      if tried = numKeys then
        match failed with
        | none =>
          if s.memObjs = [] then some { s with client := .raised }
          else some { s with localIndexes := s.memObjs, client := .sending 0 }
        | some 0 => some { s with client := .sending 0 }
        | some _ => some { s with client := .raised }
      else none
    | _ => none
  | .send =>
    match s.client with
    | .sending retryCount =>
      if retryCount < maxRetryCount then
        some { s with client := .waiting (retryCount + 1), attempts := s.attempts ++ [.sent] }
      -- Without an attempt there is no `ret_msg`.
      else some { s with client := .raised }
    | _ => none
  | .recv =>
    match s.client, s.attempts.getLast? with
    | .waiting retryCount, some (.replied reply) =>
      some (s.handleReply maxRetryCount retryCount reply)
    | _, _ => none
  | .zmqError =>
    match s.client with
    | .waiting retryCount =>
      if retryCount = maxRetryCount then some s.cleanup
      else some { s with client := .sending retryCount }
    | _ => none
  -- After an error of the socket the connection cannot be made again.
  | .connectionError =>
    match s.client with
    | .waiting _ => some { s with client := .raised }
    | _ => none
  | .otherError =>
    match s.client with
    | .waiting _ => some s.cleanup
    | _ => none

/-- The message of an attempt after an event, and the write that lands. -/
def peerStep (memIndexes : List ℕ) : Attempt B → PeerEvent B → Option (Attempt B × Option (ℕ × B))
  | .sent, .lose => some (.lost, none)
  | .sent, .refuse => some (.replied (.error .remoteXferHandlerNotInitialized), none)
  | .sent, .handle objects =>
    if objects.length ≤ memIndexes.length then
      some (.handling (memIndexes.zip objects) objects.length, none)
    else none
  | .handling pending numHitChunks, .land j =>
    match pending[j]? with
    | some w => some (.handling (pending.eraseIdx j) numHitChunks, some w)
    | none => none
  | .handling [] numHitChunks, .answer =>
    some (.replied (.batchedLookupAndGetRet numHitChunks), none)
  | .sent, .fail | .handling _ _, .fail => some (.replied (.error .p2pServerError), none)
  | _, _ => none

def otherStep (s : Get B) : OtherEvent B → Option (Get B)
  | .allocate =>
    match s.pages.take with
    | none => none
    | some (page, pages) => some { s with pages := pages, others := page :: s.others }
  | .write i b =>
    if i ∈ s.others then some { s with mem := Function.update s.mem i b } else none
  | .release i =>
    if i ∈ s.others then
      some { s with pages := s.pages.release i, others := s.others.erase i }
    else none

def step (numKeys maxRetryCount : ℕ) (s : Get B) : Event B → Option (Get B)
  | .client e => s.clientStep numKeys maxRetryCount e
  | .peer a e =>
    match s.attempts[a]? with
    | none => none
    | some x =>
      match peerStep s.localIndexes x e with
      | none => none
      | some (y, w) =>
        some { s with
          mem := CountedPages.writeAll s.mem w.toList
          attempts := s.attempts.set a y }
  | .other e => s.otherStep e

def system (numKeys maxRetryCount : ℕ) : LTS (Get B) (Event B) where
  init s :=
    s.pages.Owned s.others.count ∧ s.others.Nodup ∧ s.memObjs = [] ∧ s.localIndexes = [] ∧
      s.client = .allocating 0 none ∧ s.attempts = []
  step s e s' := s.step numKeys maxRetryCount e = some s'

/-- **The condition.**  The client leaves an attempt with an error only when the peer is through
with it, or its message was lost. -/
def Settled (s : Get B) : Event B → Prop
  | .client .zmqError | .client .otherError => ∀ x ∈ s.attempts.getLast?, x.over = true
  | _ => True

/-! ### The invariant -/

/-- The pages that the call holds; those that are returned belong to the caller. -/
def mine (s : Get B) : List ℕ :=
  match s.client with
  | .returned hitMemObjs => hitMemObjs
  | _ => s.memObjs

/-- The client waits for the attempt `a`. -/
def WaitsFor (s : Get B) (a : ℕ) : Prop :=
  (∃ retryCount, s.client = .waiting retryCount) ∧ a + 1 = s.attempts.length

/-- **The invariant.**  The peer is through with every attempt except the one that the client waits
for, unless the call has raised, which releases nothing. -/
structure Inv (s : Get B) : Prop where
  owned : s.pages.Owned (s.mine ++ s.others).count
  nodup : (s.mine ++ s.others).Nodup
  indexes : s.localIndexes ⊆ s.memObjs
  pending : ∀ x ∈ s.attempts, ∀ w ∈ x.pending, w.1 ∈ s.localIndexes
  settled : ∀ (a : ℕ) (x : Attempt B), s.attempts[a]? = some x →
    x.over = true ∨ s.WaitsFor a ∨ s.client = .raised

section steps
variable {numKeys maxRetryCount : ℕ} {s s' : Get B}

theorem Inv.all_over (h : Inv s) (hraised : s.client ≠ .raised)
    (hlast : (∃ retryCount, s.client = .waiting retryCount) →
      ∀ x ∈ s.attempts.getLast?, x.over = true) : ∀ x ∈ s.attempts, x.over = true := by
  intro x hx
  obtain ⟨a, ha⟩ := mem_iff_getElem?.mp hx
  obtain hover | ⟨hwait, hlen⟩ | hraise := h.settled a x ha
  · exact hover
  · grind
  · exact absurd hraise hraised

theorem Inv.setClient (h : Inv s) {client : Client}
    (hmine : ({ s with client } : Get B).mine = s.mine)
    (hover : client = .raised ∨ ∀ x ∈ s.attempts, x.over = true) : Inv { s with client } where
  owned := hmine ▸ h.owned
  nodup := hmine ▸ h.nodup
  indexes := h.indexes
  pending := h.pending
  settled _ x hx := hover.elim (fun hraised => .inr (.inr hraised)) fun hover =>
    .inl (hover x (mem_of_getElem? hx))

/-- The call returns. -/
theorem Inv.giveBack (h : Inv s) (hmine : s.mine = s.memObjs)
    (hover : ∀ x ∈ s.attempts, x.over = true) (numHitChunks : ℕ) :
    Inv (s.giveBack numHitChunks) := by
  have howned := h.owned
  have hnodup := h.nodup
  rw [hmine] at howned hnodup
  have hsplit : (s.memObjs ++ s.others).Perm (s.memObjs.drop numHitChunks ++
      (s.memObjs.take numHitChunks ++ s.others)) := by
    conv_lhs => rw [← take_append_drop numHitChunks s.memObjs]
    grind
  refine ⟨(howned.perm hsplit).releaseAll_count, ?_, h.indexes, h.pending, fun a x hx =>
    .inl (hover x (mem_of_getElem? hx))⟩
  exact (nodup_append.mp (hsplit.nodup_iff.mp hnodup)).2.1

theorem Inv.finish (h : Inv s) (hmine : s.mine = s.memObjs)
    (hover : ∀ x ∈ s.attempts, x.over = true) (numHitChunks : ℕ) : Inv (s.finish numHitChunks) := by
  unfold Get.finish
  split_ifs
  · exact h.setClient hmine.symm (.inl rfl)
  · exact h.giveBack hmine hover numHitChunks

theorem mine_eq_memObjs (h : ∀ hits, s.client ≠ .returned hits) : s.mine = s.memObjs := by
  unfold mine
  simp

section allocating
variable {tried : ℕ} {failed : Option ℕ} (hclient : s.client = .allocating tried failed)

include hclient

/-- A page is taken for the next key. -/
theorem Inv.taken (h : Inv s) {page : ℕ} {pages : CountedPages}
    (htake : s.pages.take = some (page, pages)) :
    Inv { s with
      pages := pages
      memObjs := s.memObjs ++ [page]
      client := .allocating (tried + 1) failed } := by
  have hover := h.all_over (by simp [hclient]) (by simp [hclient])
  have howned := h.owned
  have hnodup := h.nodup
  rw [mine_eq_memObjs (by simp [hclient])] at howned hnodup
  obtain ⟨hnew, howned⟩ := howned.take_count htake
  have hperm : (page :: (s.memObjs ++ s.others)).Perm (s.memObjs ++ [page] ++ s.others) := by
    grind
  refine ⟨howned.perm hperm, ?_, fun i hi => mem_append_left _ (h.indexes hi), h.pending,
    fun a x hx => .inl (hover x (mem_of_getElem? hx))⟩
  exact hperm.nodup_iff.mp (nodup_cons.mpr ⟨hnew, hnodup⟩)

/-- The message is built from the pages. -/
theorem Inv.built (h : Inv s) : Inv { s with localIndexes := s.memObjs, client := .sending 0 } := by
  have hover := h.all_over (by simp [hclient]) (by simp [hclient])
  have hmine := mine_eq_memObjs (s := s) (by simp [hclient])
  refine ⟨?_, ?_, fun i hi => hi, fun x hx w hw => h.indexes (h.pending x hx w hw),
    fun a x hx => .inl (hover x (mem_of_getElem? hx))⟩
  · exact hmine ▸ h.owned
  · exact hmine ▸ h.nodup

end allocating

/-- A message is sent, and the client waits for this attempt. -/
theorem Inv.sent (h : Inv s) {retryCount : ℕ} (hclient : s.client = .sending retryCount) :
    Inv { s with client := .waiting (retryCount + 1), attempts := s.attempts ++ [.sent] } := by
  have hover := h.all_over (by simp [hclient]) (by simp [hclient])
  have howned := h.owned
  have hnodup := h.nodup
  rw [mine_eq_memObjs (by simp [hclient])] at howned hnodup
  refine ⟨howned, hnodup, h.indexes, fun x hx w hw => ?_, fun a x hx => ?_⟩
  · obtain hx | hx := mem_append.mp hx
    · exact h.pending x hx w hw
    · rw [mem_singleton.mp hx] at hw
      nomatch hw
  · rw [getElem?_append] at hx
    split at hx
    · exact .inl (hover x (mem_of_getElem? hx))
    · refine .inr (.inl ⟨⟨_, rfl⟩, ?_⟩)
      grind

theorem Inv.client (h : Inv s) {e : ClientEvent} (hok : s.Settled (.client e))
    (hstep : s.clientStep numKeys maxRetryCount e = some s') : Inv s' := by
  have hmine : ∀ client, s.client = client → (∀ hits, client ≠ .returned hits) →
      s.mine = s.memObjs := fun client heq hne => mine_eq_memObjs (heq ▸ hne)
  revert hstep
  fun_cases clientStep numKeys maxRetryCount s e <;> rintro ⟨⟩
  case case1 hclient _ _ | case7 hclient =>
    exact h.setClient (hmine _ hclient nofun).symm
      (.inr (h.all_over (by simp [hclient]) (by simp [hclient])))
  case case2 hclient _ _ _ htake => exact h.taken hclient htake
  case case5 hclient | case8 hclient | case12 hclient _ | case19 hclient =>
    exact h.setClient (hmine _ hclient nofun).symm (.inl rfl)
  case case6 hclient => exact h.built hclient
  case case11 hclient _ => exact h.sent hclient
  case case14 retryCount reply hlast hclient =>
    have hover := h.all_over (by simp [hclient]) fun _ x hx => by
      cases hlast.symm.trans hx
      rfl
    unfold handleReply
    split
    · exact h.setClient (hmine _ hclient nofun).symm (.inr hover)
    · exact h.finish (hmine _ hclient nofun) hover _
  case case16 hclient | case21 hclient =>
    exact h.giveBack (hmine _ hclient nofun) (h.all_over (by simp [hclient]) fun _ => hok) 0
  case case17 hclient _ =>
    exact h.setClient (hmine _ hclient nofun).symm
      (.inr (h.all_over (by simp [hclient]) fun _ => hok))

/-- What the peer does with a message: it is not through with it before, and writes to the pages of
the message. -/
theorem peerStep_eq_some {memIndexes : List ℕ} {x y : Attempt B} {e : PeerEvent B}
    {w : Option (ℕ × B)} (h : peerStep memIndexes x e = some (y, w))
    (hx : ∀ w ∈ x.pending, w.1 ∈ memIndexes) :
    x.over = false ∧ (∀ w ∈ y.pending, w.1 ∈ memIndexes) ∧ ∀ w' ∈ w, w'.1 ∈ memIndexes := by
  revert h hx
  fun_cases peerStep memIndexes x e <;> rintro ⟨⟩ hx
  case case3 => exact ⟨rfl, fun w hw => (of_mem_zip hw).1, nofun⟩
  case case5 hw' =>
    refine ⟨rfl, fun w hw => hx w (mem_of_mem_eraseIdx hw), fun w hw => ?_⟩
    cases hw
    exact hx _ (mem_of_getElem? hw')
  all_goals exact ⟨rfl, nofun, nofun⟩

theorem peerStep_land_ne_none (memIndexes : List ℕ) (x y : Attempt B) (j : ℕ) :
    peerStep memIndexes x (.land j) ≠ some (y, none) := by
  cases x with
  | handling pending numHitChunks =>
    simp only [peerStep]
    split <;> simp
  | sent | lost | replied reply => exact nofun

theorem Inv.peer (h : Inv s) {a : ℕ} {x y : Attempt B} {e : PeerEvent B} {w : Option (ℕ × B)}
    (hx : s.attempts[a]? = some x) (hpeer : peerStep s.localIndexes x e = some (y, w))
    (mem : ℕ → B) :
    Inv { s with mem := mem, attempts := s.attempts.set a y } := by
  have hmem := mem_of_getElem? hx
  obtain ⟨hover, hpending, -⟩ := peerStep_eq_some hpeer (h.pending x hmem)
  refine ⟨h.owned, h.nodup, h.indexes, fun z hz => ?_, fun a' z hz => ?_⟩
  · obtain hz | rfl := mem_or_eq_of_mem_set hz
    · exact h.pending z hz
    · exact hpending
  · rw [getElem?_set] at hz
    simp only [WaitsFor, length_set]
    split at hz
    · rename_i heq
      subst heq
      exact .inr ((h.settled a x hx).resolve_left (by simp [hover]))
    · exact h.settled a' z hz

theorem Inv.other (h : Inv s) {e : OtherEvent B} (hstep : s.otherStep e = some s') : Inv s' := by
  revert hstep
  fun_cases otherStep s e <;> rintro ⟨⟩
  case case2 page pages htake =>
    obtain ⟨hnew, howned⟩ := h.owned.take_count htake
    have hperm : (page :: (s.mine ++ s.others)).Perm (s.mine ++ page :: s.others) :=
      perm_middle.symm
    exact ⟨howned.perm hperm, hperm.nodup_iff.mp (nodup_cons.mpr ⟨hnew, h.nodup⟩), h.indexes,
      h.pending, h.settled⟩
  case case3 => exact { h with }
  case case5 i hi =>
    have hperm : (s.mine ++ s.others).Perm (i :: (s.mine ++ s.others.erase i)) :=
      ((perm_cons_erase hi).append_left _).trans perm_middle
    exact ⟨(h.owned.perm hperm).release_count,
      (nodup_cons.mp (hperm.nodup_iff.mp h.nodup)).2, h.indexes, h.pending, h.settled⟩

/-- **Every step** keeps the invariant. -/
theorem Inv.step (h : Inv s) {e : Event B} (hok : s.Settled e)
    (hstep : s.step numKeys maxRetryCount e = some s') : Inv s' := by
  revert hok hstep
  fun_cases Get.step numKeys maxRetryCount s e <;> intro hok hstep
  case case1 => exact h.client hok hstep
  case case4 hx _ _ hpeer =>
    cases hstep
    exact h.peer hx hpeer _
  case case5 => exact h.other hstep
  all_goals cases hstep

end steps

theorem inv_inductive (numKeys maxRetryCount : ℕ) :
    ((system (B := B) numKeys maxRetryCount).restrict Settled).Inductive Inv where
  init s h := by
    obtain ⟨howned, hnodup, hmemObjs, hindexes, hclient, hattempts⟩ := h
    have hmine : s.mine = [] := (mine_eq_memObjs (by simp [hclient])).trans hmemObjs
    refine ⟨?_, ?_, ?_, ?_, ?_⟩
    · rw [hmine]
      exact howned
    · rw [hmine]
      exact hnodup
    · simp [hindexes]
    all_goals simp [hattempts]
  step _ _ _ h hstep := h.step hstep.1 hstep.2

/-- **No remote write into released memory.**  In every run in which the client leaves an attempt
with an error only when the peer is through with it, a write of the peer lands before the call
returns, in a page that the call holds and nobody else; and when the call has returned, the peer is
through with every attempt. -/
theorem remote_writes_held {numKeys maxRetryCount : ℕ} {s : Get B}
    (hs : ((system numKeys maxRetryCount).restrict Settled).Reachable s) :
    (∀ a j s', s.step numKeys maxRetryCount (.peer a (.land j)) = some s' →
      (∀ hits, s.client ≠ .returned hits) ∧
        ∃ i ∈ s.memObjs, i ∉ s.pages.free ∧ i ∉ s.others ∧ ∀ i', i' ≠ i → s'.mem i' = s.mem i') ∧
    ∀ hits, s.client = .returned hits → ∀ x ∈ s.attempts, x.over = true := by
  have h := (inv_inductive numKeys maxRetryCount).reachable hs
  refine ⟨fun a j s' hstep => ?_, fun hits hclient => h.all_over (by simp [hclient])
    (by simp [hclient])⟩
  simp only [step] at hstep
  split at hstep
  · cases hstep
  rename_i x hx
  split at hstep
  · cases hstep
  rename_i y w hpeer
  cases hstep
  obtain ⟨hover, -, hpages⟩ := peerStep_eq_some hpeer (h.pending x (mem_of_getElem? hx))
  -- The peer is not through with the attempt, so that the client has not returned.
  have hclient : ∀ hits, s.client ≠ .returned hits := fun hits hhits => by
    obtain hx' | ⟨⟨retryCount, hwait⟩, -⟩ | hraised := h.settled a x hx
    · simp [hover] at hx'
    · simp [hhits] at hwait
    · simp [hhits] at hraised
  have hmine := mine_eq_memObjs hclient
  cases w with
  | none => exact absurd hpeer (peerStep_land_ne_none s.localIndexes x y j)
  | some w =>
    have hpage : w.1 ∈ s.memObjs := h.indexes (hpages w rfl)
    have hi : w.1 ∈ s.mine := hmine ▸ hpage
    have hcount : 0 < (s.mine ++ s.others).count w.1 :=
      count_pos_iff.mpr (mem_append_left _ hi)
    refine ⟨hclient, w.1, hpage, h.owned.not_free hcount, fun hother => ?_, fun i' hne => ?_⟩
    · exact (nodup_append.mp h.nodup).2.2 _ hi _ hother rfl
    · refine CountedPages.writeAll_of_forall_ne fun w' hw' => ?_
      grind

instance (s : Get B) (e : Event B) : Decidable (s.Settled e) :=
  match e with
  | .client .zmqError | .client .otherError =>
    inferInstanceAs (Decidable (∀ x ∈ s.attempts.getLast?, x.over = true))
  | .client .allocate | .client .build | .client .send | .client .recv
  | .client .connectionError | .peer _ _ | .other _ => .isTrue trivial

def twoPages : Get ℕ where
  pages := ⟨[0, 1], fun _ => 0⟩
  mem := fun _ => 0
  memObjs := []
  localIndexes := []
  client := .allocating 0 none
  attempts := []
  others := []

theorem twoPages_owned : twoPages.pages.Owned twoPages.others.count :=
  ⟨by decide, fun _ hi => absurd hi (by simp [twoPages])⟩

theorem reachable_twoPages (numKeys maxRetryCount : ℕ) :
    ((system numKeys maxRetryCount).restrict Settled).Reachable twoPages :=
  .init ⟨twoPages_owned, by decide, rfl, rfl, rfl, rfl⟩

/-- The first message is lost, and the peer has one of the two keys. -/
theorem remote_writes_held_retry : ∃ s : Get ℕ,
    ((system 2 2).restrict Settled).Reachable s ∧ s.client = .returned [0] ∧ s.pages.free = [1] ∧
      ∀ x ∈ s.attempts, x.over = true := by
  obtain ⟨s, hs, hclient, hfree⟩ := (reachable_twoPages 2 2).exists_guard
    (P := fun s => s.client = .returned [0] ∧ s.pages.free = [1]) (fun _ _ _ => id)
    [.client .allocate, .client .allocate, .client .build, .client .send, .peer 0 .lose,
      .client .zmqError, .client .send, .peer 1 (.handle [5]), .peer 1 (.land 0), .peer 1 .answer,
      .client .recv] (by decide +kernel)
  exact ⟨s, hs, hclient, hfree, (remote_writes_held hs).2 [0] hclient⟩

/-- After a timeout the peer handles the message.  In the first run the page was released and holds
the data of another request; in the second one it was returned as a hit, to a retry. -/
theorem late_remote_write :
    (∃ s s' : Get ℕ, (system 1 1).Reachable s ∧ s.client = .returned [] ∧ s.others = [0, 1] ∧
      s.step 1 1 (.peer 0 (.land 0)) = some s' ∧ s.mem 0 = 9 ∧ s'.mem 0 = 5) ∧
    ∃ s : Get ℕ, (system 1 2).Reachable s ∧ s.client = .returned [0] ∧
      s.attempts[0]? = some (.handling [(0, 5)] 1) := by
  constructor
  · obtain ⟨s, hs, hclient, hothers, hattempts, hmem⟩ :=
      (reachable_twoPages 1 1).of_restrict.exists_replay (P := fun s => s.client = .returned [] ∧
        s.others = [0, 1] ∧ s.attempts = [.handling [(0, 5)] 1] ∧ s.mem 0 = 9) (fun _ _ _ => id)
      [.client .allocate, .client .build, .client .send, .client .zmqError, .other .allocate,
        .other .allocate, .other (.write 0 9), .peer 0 (.handle [5])] (by decide +kernel)
    let s' : Get ℕ :=
      { s with mem := Function.update s.mem 0 5, attempts := [.handling [] 1] }
    have hstep : s.step 1 1 (.peer 0 (.land 0)) = some s' := by
      simp only [step, hattempts]
      rfl
    exact ⟨s, s', hs, hclient, hothers, hstep, hmem, by simp [s']⟩
  · exact (reachable_twoPages 1 2).of_restrict.exists_replay (fun _ _ _ => id)
      [.client .allocate, .client .build, .client .send, .client .zmqError, .client .send,
        .peer 1 (.handle [5]), .peer 1 (.land 0), .peer 1 .answer, .client .recv,
        .peer 0 (.handle [5])] (by decide +kernel)

end Get

end LMCache.P2P
