import LMCache.PD.ReferenceCounts

/-! # From prefill to decode

The calls of `batched_submit_put_task` of any number of prefill instances, all to one receiver.  A
call asks the receiver for pages, `batched_write` copies the objects for which it got a page, and
after the last prefill the proxy is told that the request can be decoded.  The receiver puts a key
into `data` when it allocates the page, before there is anything in it; the decoder retrieves the
keys of a request that was announced.

* **Keys and objects**: the bytes of the object of a key are the same in all calls, `object k`.
* **Pages**: `meta.address` is the number of the page; `batched_write` copies the `i`th object to
  the page `remote_indexes[i]`.
* **Threads**: the allocation thread serves one request at a time, one key after the other, and
  waits when there is no page; a retrieve of one key is one step.

The response has the numbers of the keys that were sent already and the pages of the others.
`remoteWrites_sent` and `remoteWrites_new` say that the sender, which filters its objects by the
numbers, writes each object to the page that was allocated for its key. -/

namespace LMCache.PD

open List

open CountedPages (writeAll)

/-- One call of `batched_submit_put_task`. -/
structure Call (K : Type) where
  reqId : String
  keys : List K
  isLastPrefill : Bool
deriving DecidableEq

inductive Phase (K : Type) where
  /-- The `AllocRequest` is sent. -/
  | requested
  /-- The receiver is in `_allocate_and_put`, with the keys `done` behind it. -/
  | serving (done rest : List K) (response : AllocResponse)
  | responded (response : AllocResponse)
  | written
  | finished
deriving DecidableEq

/-- The objects of a call that were not sent already. -/
def memObjsToSend {K : Type} (keys : List K) (alreadySentIndexes : List ℕ) : List K :=
  (keys.zipIdx.filter fun x => x.2 ∉ alreadySentIndexes).map Prod.fst

/-- The pages and the keys whose objects are written to them, once the request is answered. -/
def remoteWrites {K : Type} (keys : List K) (response : AllocResponse) : List (ℕ × K) :=
  response.remoteIndexes.zip (memObjsToSend keys response.alreadySentIndexes)

def toWrite {K : Type} (call : Call K) : Phase K → List (ℕ × K)
  | .serving done _ response => remoteWrites done response
  | .responded response => remoteWrites call.keys response
  | _ => []

/-- The keys of a call which the receiver has dealt with, until the call ends. -/
def processed {K : Type} (call : Call K) : Phase K → List K
  | .serving done _ _ => done
  | .responded _ | .written => call.keys
  | _ => []

/-! ### Pages and objects are paired

The response has the numbers of the keys that were sent already and the pages of the others; the
sender filters its objects by the numbers. -/

section pairing
variable {K : Type} {keys : List K} {k : K} {already : List ℕ}

theorem filter_zipIdx_append :
    keys.zipIdx.filter (fun x => x.2 ∉ already ++ [keys.length]) =
      keys.zipIdx.filter fun x => x.2 ∉ already := by
  refine filter_congr fun x hx => ?_
  grind

theorem memObjsToSend_sent :
    memObjsToSend (keys ++ [k]) (already ++ [keys.length]) = memObjsToSend keys already := by
  unfold memObjsToSend
  rw [zipIdx_append, filter_append, filter_zipIdx_append]
  simp

theorem memObjsToSend_new (h : ∀ j ∈ already, j < keys.length) :
    memObjsToSend (keys ++ [k]) already = memObjsToSend keys already ++ [k] := by
  have hnot : keys.length ∉ already := fun hmem => lt_irrefl _ (h _ hmem)
  unfold memObjsToSend
  grind

end pairing

/-- The response of the keys `done` of a call. -/
def Phase.Wf {K : Type} (call : Call K) : Phase K → Prop
  | .serving done rest response =>
    done ++ rest = call.keys ∧ (∀ j ∈ response.alreadySentIndexes, j < done.length) ∧
      response.remoteIndexes.length = (memObjsToSend done response.alreadySentIndexes).length
  | _ => True

section wf
variable {K : Type} {call : Call K} {done rest : List K} {k : K} {response : AllocResponse}
  {page : ℕ}

theorem remoteWrites_sent :
    remoteWrites (done ++ [k])
      { response with alreadySentIndexes := response.alreadySentIndexes ++ [done.length] } =
        remoteWrites done response := by
  simp [remoteWrites, memObjsToSend_sent]

variable (h : Phase.Wf call (.serving done (k :: rest) response))

include h

theorem remoteWrites_new :
    remoteWrites (done ++ [k])
      { response with remoteIndexes := response.remoteIndexes ++ [page] } =
        remoteWrites done response ++ [(page, k)] := by
  obtain ⟨-, hlt, hlen⟩ := h
  simp only [remoteWrites, memObjsToSend_new hlt]
  exact zip_append hlen

theorem wf_sent :
    Phase.Wf call (.serving (done ++ [k]) rest
      { response with alreadySentIndexes := response.alreadySentIndexes ++ [done.length] }) := by
  obtain ⟨hkeys, hlt, hlen⟩ := h
  refine ⟨by simpa using hkeys, fun j hj => ?_, by rwa [memObjsToSend_sent]⟩
  grind

theorem wf_new :
    Phase.Wf call (.serving (done ++ [k]) rest
      { response with remoteIndexes := response.remoteIndexes ++ [page] }) := by
  obtain ⟨hkeys, hlt, hlen⟩ := h
  refine ⟨by simpa using hkeys, fun j hj => ?_, ?_⟩
  · grind
  · rw [memObjsToSend_new hlt, length_append, length_append, hlen]
    rfl

end wf

/-- Senders, receiver and decoder.  `holds` has the keys that the requests have named and the
decoder has not retrieved, with the call and the page. -/
structure Transfer (K B : Type) where
  received : ReceivedPages K
  mem : ℕ → B
  calls : List (Call K × Phase K)
  /-- The call that the allocation thread serves. -/
  serving : Option ℕ
  announced : List String
  holds : List (ℕ × K × ℕ)

inductive TransferEvent (K : Type) where
  | submit (call : Call K)
  | receive (c : ℕ)
  | serveKey
  | respond
  | write (c : ℕ)
  | notify (c : ℕ)
  | retrieve (c : ℕ) (k : K)

namespace Transfer
variable {K B : Type} [DecidableEq K] (object : K → B)

/-- The next key of the request, in `_allocate_and_put`. -/
def allocateAndPut (s : Transfer K B) (c : ℕ) (call : Call K) (done : List K) (k : K)
    (rest : List K) (response : AllocResponse) : Transfer K B :=
  match s.received.data.get? k with
  | some page =>
    { s with
      received := (s.received.contains k true).2
      calls := s.calls.set c (call, .serving (done ++ [k]) rest
        { response with alreadySentIndexes := response.alreadySentIndexes ++ [done.length] })
      holds := (c, k, page) :: s.holds }
  | none =>
    match s.received.pages.take with
    -- The allocation is tried again after a while.
    | none => s
    | some (page, pages) =>
      { s with
        received := ({ s.received with pages := pages } : ReceivedPages K).put k page
        calls := s.calls.set c (call, .serving (done ++ [k]) rest
          { response with remoteIndexes := response.remoteIndexes ++ [page] })
        holds := (c, k, page) :: s.holds }

def step (s : Transfer K B) : TransferEvent K → Option (Transfer K B)
  | .submit call =>
    if call.keys.Nodup then some { s with calls := s.calls ++ [(call, .requested)] } else none
  | .receive c =>
    match s.calls[c]?, s.serving with
    | some (call, .requested), none =>
      some { s with
        calls := s.calls.set c (call, .serving [] call.keys ⟨[], []⟩)
        serving := some c }
    | _, _ => none
  | .serveKey =>
    match s.serving with
    | none => none
    | some c =>
      match s.calls[c]? with
      | some (call, .serving done (k :: rest) response) =>
        some (s.allocateAndPut c call done k rest response)
      | _ => none
  | .respond =>
    match s.serving with
    | none => none
    | some c =>
      match s.calls[c]? with
      | some (call, .serving _ [] response) =>
        some { s with calls := s.calls.set c (call, .responded response), serving := none }
      | _ => none
  | .write c =>
    match s.calls[c]? with
    | some (call, .responded response) =>
      some { s with
        mem := writeAll s.mem ((remoteWrites call.keys response).map (Prod.map id object))
        calls := s.calls.set c (call, .written) }
    | _ => none
  | .notify c =>
    match s.calls[c]? with
    | some (call, .written) =>
      some { s with
        calls := s.calls.set c (call, .finished)
        announced := if call.isLastPrefill then call.reqId :: s.announced else s.announced }
    | _ => none
  | .retrieve c k =>
    match s.calls[c]?, s.received.data.get? k with
    | some (call, .finished), some page =>
      if call.reqId ∈ s.announced ∧ (c, k, page) ∈ s.holds then
        some { s with
          received :=
            { (s.received.remove k).2 with pages := s.received.pages.release page }
          holds := s.holds.erase (c, k, page) }
      else none
    | _, _ => none

def system : LTS (Transfer K B) (TransferEvent K) where
  init s :=
    s.received.data = .empty ∧ s.received.pages.free.Nodup ∧ s.calls = [] ∧ s.serving = none ∧
      s.holds = []
  step s e s' := s.step object e = some s'

def nextKey (s : Transfer K B) : Option K :=
  match s.serving with
  | none => none
  | some c =>
    match s.calls[c]? with
    | some (_, .serving _ (k :: _) _) => some k
    | _ => none

/-- **The condition.**  When the receiver finds the key of a request in `data`, no call has still to
write its page. -/
def KeysWritten (s : Transfer K B) : TransferEvent K → Prop
  | .serveKey => ∀ k ∈ s.nextKey, ∀ page ∈ s.received.data.get? k,
      ∀ x ∈ s.calls, ∀ w ∈ toWrite x.1 x.2, w.1 ≠ page
  | _ => True

end Transfer

end LMCache.PD
