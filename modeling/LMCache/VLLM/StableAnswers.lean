import LMCache.VLLM.AsyncLookup
import LMCache.VLLM.LoadedTokens

/-! # Answers that stay

vLLM may ask the connector again and again how many tokens can be loaded for a request.

`answers_stable`: a call for a request does not raise, and once a number was returned, the same
number is returned until `update_state_after_alloc` or `cancel_lookup` is called for the request, as
long as no call for it finds its lookup past the deadline, blocks are not allocated while the lookup
is ongoing, and no call is made while a cancellation of it is pending.  Nothing is asked of other
requests, of the order of the responses or of the clock.

`answers_after_timeout` has runs in which one of these conditions fails.

The invariant is about one request.  `View` is what the state has of it; `View.Ok` counts the
responses that are still to come and says that all numbers returned follow from the status;
`MarksInv` is about the scan over cancelled lookups, which clears only requests without answers. -/

namespace LMCache.VLLM.AsyncLookup

open List AsyncLookupClient

open SchedulerConfig (needToAllocate)

/-- The number that follows from the hit tokens of a request. -/
def offered (request : Request) (numComputedTokens : ℕ) (hit : Option ℕ) : Option ℕ :=
  if isMockRequest request.requestId then some 0
  else hit.map fun hit => (needToAllocate request numComputedTokens hit).toNat

theorem offered_of_none {request : Request} {numComputedTokens n : ℕ}
    (h : offered request numComputedTokens none = some n) (hit : Option ℕ) :
    offered request numComputedTokens hit = some n := by
  unfold offered at *
  grind

theorem getNumNewMatchedTokens_fst (c : SchedulerConfig) (cached : Option (Option ℕ))
    (request : Request) (numComputedTokens : ℕ) (s : Scheduler) :
    (c.getNumNewMatchedTokens ⟨cached, fun _ _ => none⟩ request numComputedTokens s).1 =
      offered request numComputedTokens cached.join := by
  have hjoin : c.hitTokens ⟨cached, fun _ _ => none⟩ request = cached.join := by
    cases cached <;> rfl
  unfold offered
  cases hmock : isMockRequest request.requestId with
  | true => simp [getNumNewMatchedTokens_mock hmock]
  | false =>
    cases hhit : cached.join with
    | none => simp [getNumNewMatchedTokens_none hmock (hjoin.trans hhit)]
    | some hit => simp [getNumNewMatchedTokens_some hmock (hjoin.trans hhit)]

/-! ### The answers to a request -/

/-- A number that was returned is returned again. -/
def Stable (x y : Answered) : Prop :=
  x.request.numTokens = y.request.numTokens → x.numComputedTokens = y.numComputedTokens →
    ∀ n, x.result = .ok (some n) → y.result = .ok (some n)

/-- The answers to a request follow from its hit tokens. -/
structure AnswersInv (id : String) (answers : List Answered) (hit : Option ℕ) : Prop where
  own : ∀ x ∈ answers, x.request.requestId = id
  ok : ∀ x ∈ answers, ∃ r, x.result = .ok r
  settled : ∀ x ∈ answers, ∀ n, x.result = .ok (some n) →
    offered x.request x.numComputedTokens hit = some n
  stable : answers.Pairwise Stable

namespace AnswersInv
variable {id : String} {answers : List Answered} {hit : Option ℕ}

theorem nil : AnswersInv id [] hit := ⟨nofun, nofun, nofun, .nil⟩

theorem settle (h : AnswersInv id answers none) : AnswersInv id answers hit :=
  ⟨h.own, h.ok, fun x hx n hn => offered_of_none (h.settled x hx n hn) hit, h.stable⟩

theorem concat (h : AnswersInv id answers hit) {request : Request} (hid : request.requestId = id)
    (numComputedTokens : ℕ) :
    AnswersInv id
      (answers ++ [⟨request, numComputedTokens, .ok (offered request numComputedTokens hit)⟩])
      hit := by
  refine ⟨?_, ?_, ?_, ?_⟩
  · exact forall_mem_append.mpr ⟨h.own, forall_mem_singleton.mpr hid⟩
  · exact forall_mem_append.mpr ⟨h.ok, forall_mem_singleton.mpr ⟨_, rfl⟩⟩
  · refine forall_mem_append.mpr ⟨h.settled, forall_mem_singleton.mpr fun n hn => ?_⟩
    exact Except.ok.inj hn
  · refine pairwise_append.mpr ⟨h.stable, pairwise_singleton .., fun x hx y hy => ?_⟩
    obtain rfl := mem_singleton.mp hy
    intro htokens hcomputed n hn
    have hsettled := h.settled x hx n hn
    simp only [offered, needToAllocate, h.own x hx, htokens, hcomputed, ← hid] at hsettled
    exact congrArg Except.ok hsettled

end AnswersInv

/-! ### The invariant -/

structure View where
  status : Option (Option ℕ)
  first : Option ℚ
  /-- How many workers have not responded. -/
  waiting : ℕ
  results : List ℕ
  answers : List Answered

/-- Responses come only while the lookup is ongoing; the answers follow from the status. -/
structure View.Ok (worldSize : ℕ) (id : String) (v : View) : Prop where
  ongoing : v.status = some none →
    (∃ first, v.first = some first) ∧ v.waiting + v.results.length = worldSize
  idle : v.status ≠ some none → v.waiting = 0 ∧ v.results = []
  answers : AnswersInv id v.answers v.status.join

def Phase.todo : Phase → Finset String
  | .scan todo _ => todo
  | .cleanup _ => ∅

def Phase.finished : Phase → List String
  | .scan _ finished => finished
  | .cleanup finished => finished

namespace State
variable (a : AsyncLookupConfig) (c : SchedulerConfig) (id : String) (s : State)

def answersFor : List Answered := s.answers.filter fun x => x.request.requestId = id

def view : View where
  status := s.client.reqsStatus.get? id
  first := s.client.firstLookupTime.get? id
  waiting := s.unanswered.countP fun x => x.2 = id
  results := (s.client.resForEachWorker.get? id).getD []
  answers := s.answersFor id

/-- The lookup of the request is cancelled, and perhaps about to be cleared. -/
def Marked : Prop :=
  id ∈ s.client.abortedLookups ∨
    ∃ call ∈ s.call, id ∈ call.phase.todo ∨ id ∈ call.phase.finished

/-- A request whose lookup is cancelled has no answers and is not asked for. -/
structure MarksInv : Prop where
  pending : s.Marked id → s.answersFor id = [] ∧ ∀ call ∈ s.call, call.request.requestId ≠ id
  finished : ∀ call ∈ s.call, id ∈ call.phase.finished → (s.view id).status ≠ some none

/-- **The invariant**, for one request. -/
structure Inv : Prop where
  ok : (s.view id).Ok a.worldSize id
  marks : s.MarksInv id

/-- **The condition**, for one request. -/
def Undisturbed : Event → Prop
  | .getNumNewMatchedTokens request _ =>
    request.requestId = id → id ∉ s.client.abortedLookups
  | .lookupCache now =>
    ∀ call ∈ s.call, call.request.requestId = id → s.client.reqsStatus.get? id = some none →
      ∀ first ∈ s.client.firstLookupTime.get? id, (now - first) * 1000 ≤ a.timeoutMs
  | .updateStateAfterAlloc request _ =>
    request.requestId = id → s.client.reqsStatus.get? id ≠ some none
  | _ => True

variable {a c id s} {s' : State}

/-! ### What a step leaves alone -/

theorem Inv.frame (h : s.Inv a id) (hview : s'.view id = s.view id)
    (hmarked : s'.Marked id → s.Marked id)
    (hcalls : ∀ call' ∈ s'.call, ∃ call ∈ s.call, call'.request = call.request ∧
      (id ∈ call'.phase.finished →
        id ∈ call.phase.finished ∨ (s.view id).status ≠ some none)) : s'.Inv a id := by
  refine ⟨hview ▸ h.ok, fun hid => ?_, fun call' hcall' hfinished => ?_⟩
  · obtain ⟨hnil, hne⟩ := h.marks.pending (hmarked hid)
    refine ⟨(congrArg View.answers hview).trans hnil, fun call' hcall' => ?_⟩
    grind
  · obtain ⟨call, hcall, -, hold⟩ := hcalls call' hcall'
    rw [hview]
    exact (hold hfinished).elim (h.marks.finished call hcall) fun hne => hne

theorem MarksInv.of_idle (hcall : s.call = none)
    (hanswers : id ∈ s.client.abortedLookups → s.answersFor id = []) : s.MarksInv id := by
  have hnone : ∀ call, call ∉ s.call := by simp [hcall]
  refine ⟨fun hmarked => ⟨?_, fun call hcall' => absurd hcall' (hnone call)⟩,
    fun call hcall' => absurd hcall' (hnone call)⟩
  obtain habort | ⟨call, hcall', -⟩ := hmarked
  · exact hanswers habort
  · exact absurd hcall' (hnone call)

theorem Inv.endCall (h : s.Inv a id) (hview : s'.view id = s.view id) (hcall : s'.call = none)
    (haborted : id ∈ s'.client.abortedLookups → id ∈ s.client.abortedLookups) : s'.Inv a id :=
  ⟨hview ▸ h.ok, .of_idle hcall fun habort =>
    (congrArg View.answers hview).trans (h.marks.pending (.inl (haborted habort))).1⟩

variable {request : Request}

theorem answersFor_concat (id : String) {numComputedTokens : ℕ} {result : Except PyError (Option ℕ)}
    (hanswers : s'.answers = s.answers ++ [⟨request, numComputedTokens, result⟩]) :
    s'.answersFor id = s.answersFor id ++
      if request.requestId = id then [⟨request, numComputedTokens, result⟩] else [] := by
  unfold answersFor
  grind

theorem answersFor_forget : (s.forget id).answersFor id = [] := by
  simp [answersFor, forget]

theorem answersFor_forget_of_ne {id' : String} (hne : id ≠ id') :
    (s.forget id').answersFor id = s.answersFor id := by
  unfold answersFor forget
  rw [filter_filter]
  grind

/-! ### Responses -/

section respond
variable {worker : ℕ} {lookupId : String} (numHitTokens : ℕ)

theorem waiting_respond (id : String) (hmem : (worker, lookupId) ∈ s.unanswered) :
    (s.view id).waiting = ((s.respond a worker lookupId numHitTokens).view id).waiting +
        if lookupId = id then 1 else 0 := by
  unfold view respond
  rw [(perm_cons_erase hmem).countP_eq, countP_cons]
  simp

theorem marked_respond (hmarked : (s.respond a worker lookupId numHitTokens).Marked id) :
    s.Marked id := by
  simpa only [Marked, respond, processResponse, apply_ite, ite_self]
    using hmarked

theorem view_respond_of_ne (hmem : (worker, lookupId) ∈ s.unanswered) (hne : id ≠ lookupId) :
    (s.respond a worker lookupId numHitTokens).view id = s.view id := by
  have hwaiting := waiting_respond (a := a) numHitTokens id hmem
  rw [if_neg hne.symm, Nat.add_zero] at hwaiting
  simp only [view, respond, processResponse] at hwaiting ⊢
  split <;> simp [hne, answersFor, hwaiting]

theorem Inv.respond_own (h : s.Inv a id) (hmem : (worker, id) ∈ s.unanswered) :
    (s.respond a worker id numHitTokens).Inv a id := by
  have hwaiting := waiting_respond (a := a) numHitTokens id hmem
  rw [if_pos rfl] at hwaiting
  have hongoing : (s.view id).status = some none := by
    by_contra hidle
    have := (h.ok.idle hidle).1
    omega
  obtain ⟨hfirst, hcount⟩ := h.ok.ongoing hongoing
  have hanswers := h.ok.answers
  rw [hongoing] at hanswers
  refine ⟨?_, fun hmarked => h.marks.pending (marked_respond numHitTokens hmarked),
    fun call hcall hid => absurd hongoing (h.marks.finished call hcall hid)⟩
  by_cases hlast : (s.view id).results.length + 1 = a.worldSize
  · have hclient : s.client.processResponse a.worldSize id numHitTokens = _ := if_pos hlast
    refine ⟨fun h' => ?_, fun _ => ⟨by omega, ?_⟩, hanswers.settle⟩
    · simp [view, respond, hclient] at h'
    · simp [view, respond, hclient]
  · have hclient : s.client.processResponse a.worldSize id numHitTokens = _ := if_neg hlast
    have hstatus : ((s.respond a worker id numHitTokens).view id).status = some none := by
      simpa [view, respond, hclient] using hongoing
    have hresults : ((s.respond a worker id numHitTokens).view id).results =
        (s.view id).results ++ [numHitTokens] := by
      simp [view, respond, hclient]
    refine ⟨fun _ => ⟨?_, ?_⟩, fun hidle => absurd hstatus hidle, ?_⟩
    · simpa only [view, respond, hclient] using hfirst
    · rw [hresults, length_append, length_singleton]
      omega
    · rw [hstatus]
      exact hanswers

/-- **A response** keeps the invariant. -/
theorem Inv.respond (h : s.Inv a id) (hmem : (worker, lookupId) ∈ s.unanswered) :
    (s.respond a worker lookupId numHitTokens).Inv a id := by
  by_cases hid : id = lookupId
  · subst hid
    exact h.respond_own numHitTokens hmem
  · exact h.frame (view_respond_of_ne numHitTokens hmem hid) (marked_respond numHitTokens)
      fun call hcall => ⟨call, hcall, rfl, .inl⟩

end respond

/-! ### The scan over cancelled lookups -/

section scan
variable {call : Call}

theorem Inv.scan (h : s.Inv a id) (hcall : s.call = some call) {abortedLookups : Finset String}
    {phase : Phase} (haborted : id ∈ abortedLookups → s.Marked id)
    (htodo : id ∈ phase.todo → s.Marked id)
    (hfinished : id ∈ phase.finished → s.Marked id ∧ (s.view id).status ≠ some none) :
    Inv a id
      { s with
        client := { s.client with abortedLookups := abortedLookups }
        call := some { call with phase := phase } } := by
  refine h.frame rfl ?_ ?_
  · rintro (habort | ⟨call', ⟨⟩, hid | hid⟩)
    · exact haborted habort
    · exact htodo hid
    · exact (hfinished hid).1
  · grind

theorem Inv.of_finished (h : s.Inv a id) (hcall : s.call = some call)
    (hid : id ∈ call.phase.finished) : s.Marked id ∧ (s.view id).status ≠ some none :=
  ⟨.inr ⟨call, hcall, .inr hid⟩, h.marks.finished call hcall hid⟩

theorem Inv.check (h : s.Inv a id) (hcall : s.call = some call) {lookupId : String}
    (hstep : s.check lookupId call = some s') : s'.Inv a id := by
  revert hstep
  fun_cases State.check lookupId call s <;> rintro ⟨⟩
  case case1 todo finished hphase hmem =>
    have htodo : id ∈ todo → s.Marked id := fun hid => .inr ⟨call, hcall, .inl (by rwa [hphase])⟩
    have hfinished := fun hid : id ∈ finished => h.of_finished hcall (by rwa [hphase])
    refine h.scan hcall .inl (fun hid => htodo (Finset.mem_of_mem_erase hid)) fun hid => ?_
    simp only [Phase.finished] at hid
    split at hid
    · rename_i n hstatus
      obtain hid | hid := mem_append.mp hid
      · exact hfinished hid
      · obtain rfl := mem_singleton.mp hid
        exact ⟨htodo hmem, by simp [view, hstatus]⟩
    · exact hfinished hid

/-- The status of a request without answers is cleared while its lookup is not ongoing. -/
theorem Inv.clear (h : s.Inv a id) (hidle : (s.view id).status ≠ some none)
    (hclient : s'.client = s.client.clearLookupStatus id)
    (hunanswered : s'.unanswered = s.unanswered) (hnil : s'.answersFor id = []) :
    (s'.view id).Ok a.worldSize id := by
  have hview : s'.view id = { s.view id with status := none, first := none, answers := [] } := by
    simp [view, hclient, hunanswered, hnil, clearLookupStatus]
  rw [hview]
  exact ⟨nofun, fun _ => h.ok.idle hidle, .nil⟩

theorem view_clear_of_ne {lookupId : String} (hne : id ≠ lookupId)
    (hclient : s'.client = s.client.clearLookupStatus lookupId)
    (hunanswered : s'.unanswered = s.unanswered) (hanswers : s'.answersFor id = s.answersFor id) :
    s'.view id = s.view id := by
  simp [view, hclient, hunanswered, hanswers, hne, clearLookupStatus]

theorem Inv.cleanUp (h : s.Inv a id) (hcall : s.call = some call) {lookupId : String}
    {finished : List String} (hphase : call.phase = .cleanup (lookupId :: finished)) :
    Inv a id { s.sendAll a (.lookupCleanup lookupId) with
      client := s.client.clearLookupStatus lookupId
      call := some { call with phase := .cleanup finished } } := by
  have hfinished := fun hid : id ∈ lookupId :: finished => h.of_finished hcall (by rwa [hphase])
  by_cases hid : id = lookupId
  · subst hid
    obtain ⟨hmarked, hidle⟩ := hfinished mem_cons_self
    obtain ⟨hnil, hne⟩ := h.marks.pending hmarked
    refine ⟨h.clear hidle rfl rfl hnil, fun _ => ⟨hnil, ?_⟩, fun _ _ _ => ?_⟩
    · grind
    · simp [view, clearLookupStatus]
  · refine h.frame (view_clear_of_ne hid rfl rfl rfl) ?_ ?_
    · rintro (habort | ⟨call', ⟨⟩, hid' | hid'⟩)
      · exact .inl habort
      · exact absurd hid' (Finset.notMem_empty _)
      · exact (hfinished (mem_cons_of_mem _ hid')).1
    · rintro call' ⟨⟩
      exact ⟨call, hcall, rfl, fun hid' => .inr (hfinished (mem_cons_of_mem _ hid')).2⟩

end scan

/-! ### The answer of a call -/

section answer
variable {request : Request} (numComputedTokens : ℕ)

theorem answers_answer (c : SchedulerConfig) (request : Request) (cached : Option (Option ℕ))
    (s : State) :
    (s.answer c request numComputedTokens cached).answers = s.answers ++
        [⟨request, numComputedTokens, .ok (offered request numComputedTokens cached.join)⟩] := by
  rw [← getNumNewMatchedTokens_fst c cached request numComputedTokens s.connector]
  rfl

theorem Inv.of_answer (hok : (s.view id).Ok a.worldSize id) (hid : request.requestId = id)
    (haborted : id ∉ s.client.abortedLookups) {cached : Option (Option ℕ)}
    (hhit : offered request numComputedTokens cached.join =
      offered request numComputedTokens (s.view id).status.join) :
    (s.answer c request numComputedTokens cached).Inv a id := by
  have hanswers := answersFor_concat id (answers_answer numComputedTokens c request cached s)
  rw [if_pos hid, hhit] at hanswers
  refine ⟨⟨hok.ongoing, hok.idle, ?_⟩, .of_idle rfl fun habort => absurd habort haborted⟩
  change AnswersInv id ((s.answer c request numComputedTokens cached).answersFor id) _
  rw [hanswers]
  exact hok.answers.concat hid numComputedTokens

theorem lookupCache_of_ne (client : AsyncLookupClient) (timeoutMs : ℤ) {lookupId : String} (now : ℚ)
    (hne : id ≠ lookupId) : let client' := (client.lookupCache timeoutMs lookupId now).2
    client'.reqsStatus.get? id = client.reqsStatus.get? id ∧
      client'.firstLookupTime.get? id = client.firstLookupTime.get? id ∧
      client'.resForEachWorker = client.resForEachWorker ∧
      client'.abortedLookups = client.abortedLookups := by
  unfold AsyncLookupClient.lookupCache
  grind

theorem lookupCache_spec (request : Request) (now : ℚ) :
    (s.lookupCache a c request numComputedTokens now).client =
        (s.client.lookupCache a.timeoutMs request.requestId now).2 ∧
      (s.lookupCache a c request numComputedTokens now).call = none ∧
      (∃ result, (s.lookupCache a c request numComputedTokens now).answers =
        s.answers ++ [⟨request, numComputedTokens, result⟩]) ∧
      ∃ n, (s.lookupCache a c request numComputedTokens now).unanswered =
        s.unanswered ++ (range n).map fun worker => (worker, request.requestId) := by
  fun_cases lookupCache
  next hclient => exact ⟨by rw [hclient]; rfl, rfl, ⟨_, rfl⟩, 0, by simp [finish]⟩
  next hclient => exact ⟨by rw [hclient]; rfl, rfl, ⟨_, rfl⟩, a.worldSize, rfl⟩
  next hclient => exact ⟨by rw [hclient]; rfl, rfl, ⟨_, rfl⟩, 0, by simp [answer, finish]⟩

theorem Inv.lookupCache_of_ne (h : s.Inv a id) (hne : id ≠ request.requestId) (now : ℚ) :
    (s.lookupCache a c request numComputedTokens now).Inv a id := by
  obtain ⟨hclient, hcall, ⟨result, hanswers⟩, n, hunanswered⟩ :=
    s.lookupCache_spec (a := a) (c := c) numComputedTokens request now
  obtain ⟨hstatus, hfirst, hresults, haborted⟩ :=
    State.lookupCache_of_ne s.client a.timeoutMs now hne
  have hsame : (s.lookupCache a c request numComputedTokens now).answersFor id =
      s.answersFor id := by
    rw [answersFor_concat id hanswers, if_neg hne.symm, append_nil]
  have hview : (s.lookupCache a c request numComputedTokens now).view id = s.view id := by
    have hzero : ((range n).map fun worker => (worker, request.requestId)).countP
        (fun x => x.2 = id) = 0 := by
      simp [countP_map, Function.comp_def, hne.symm]
    simp only [view, hclient, hstatus, hfirst, hunanswered, countP_append, hzero,
      hresults, hsame, Nat.add_zero]
  refine h.endCall hview hcall fun habort => ?_
  rwa [hclient, haborted] at habort

/-- **The section of `lookup_cache`** keeps the invariant, if the lookup is not past its
deadline. -/
theorem Inv.lookupCache (h : s.Inv a id) {call : Call} (hcall : s.call = some call) {now : ℚ}
    (hok : s.Undisturbed a id (.lookupCache now)) :
    (s.lookupCache a c call.request call.numComputedTokens now).Inv a id := by
  by_cases hid : call.request.requestId = id
  case neg => exact h.lookupCache_of_ne _ (Ne.symm hid) _
  have haborted : id ∉ s.client.abortedLookups := fun habort =>
    (h.marks.pending (.inl habort)).2 call hcall hid
  unfold State.lookupCache AsyncLookupClient.lookupCache
  rw [hid]
  cases hstatus : s.client.reqsStatus.get? id with
  | none =>
    obtain ⟨hwaiting, hresults⟩ := h.ok.idle (by simp [view, hstatus])
    -- The first lookup of the request is sent to all workers.
    refine .of_answer _ ⟨fun _ => ⟨⟨now, ?_⟩, ?_⟩, fun hidle => ?_, ?_⟩ hid (by exact haborted) ?_
    · simp [view, lookup, sendAll]
    · simp only [view] at hwaiting hresults
      simp [view, lookup, sendAll, hwaiting, hresults, countP_map, Function.comp_def]
    · simp [view, lookup, sendAll] at hidle
    · simpa [view, lookup, sendAll, answersFor, hstatus] using h.ok.answers
    · simp [view, lookup, sendAll]
  | some cached =>
    cases cached with
    | none =>
      obtain ⟨first, hfirst⟩ := (h.ok.ongoing hstatus).1
      have hdeadline := hok call hcall hid hstatus first hfirst
      simp only [view] at hfirst
      simp only [getItem, hfirst, if_neg (not_lt.mpr hdeadline)]
      exact .of_answer _ h.ok hid haborted (by simp [view, hstatus])
    | some numHitTokens => exact .of_answer _ h.ok hid haborted (by simp [view, hstatus])

end answer

theorem Inv.callStep (h : s.Inv a id) {call : Call} (hcall : s.call = some call) {e : Event}
    (hok : s.Undisturbed a id e) (hstep : s.callStep a c call e = some s') : s'.Inv a id := by
  revert hok hstep
  fun_cases State.callStep a c call s e <;> intro hok hstep
  case case1 => exact h.check hcall hstep
  case case2 hphase =>
    cases hstep
    exact h.scan hcall (fun hid => .inl (Finset.mem_sdiff.mp hid).1)
      (absurd · (Finset.notMem_empty _))
      fun hid => h.of_finished hcall (by rwa [hphase])
  case case5 hphase =>
    cases hstep
    exact h.cleanUp hcall hphase
  case case7 =>
    cases hstep
    exact h.lookupCache hcall hok
  all_goals cases hstep

/-! ### Between the calls -/

theorem Inv.updateStateAfterAlloc (h : s.Inv a id) (hcall : s.call = none) {numExternalTokens : ℕ}
    (hok : s.Undisturbed a id (.updateStateAfterAlloc request numExternalTokens)) :
    (s.updateStateAfterAlloc request numExternalTokens).Inv a id := by
  by_cases hid : id = request.requestId
  · subst hid
    exact ⟨h.clear (hok rfl) rfl rfl answersFor_forget, .of_idle hcall fun _ => answersFor_forget⟩
  · have hanswers := answersFor_forget_of_ne (s := s) hid
    have hview : (s.updateStateAfterAlloc request numExternalTokens).view id = s.view id :=
      view_clear_of_ne hid rfl rfl hanswers
    exact h.endCall hview hcall fun habort => habort

theorem Inv.cancelLookup (h : s.Inv a id) (hcall : s.call = none) (lookupId : String) :
    Inv a id { s.forget lookupId with client := s.client.cancelLookup lookupId } := by
  by_cases hid : id = lookupId
  · subst hid
    have hnil : (s.forget id).answersFor id = [] := answersFor_forget
    refine ⟨⟨h.ok.ongoing, h.ok.idle, ?_⟩, .of_idle hcall fun _ => hnil⟩
    change AnswersInv id ((s.forget id).answersFor id) _
    rw [hnil]
    exact .nil
  · refine h.endCall ?_ hcall (Finset.mem_of_mem_insert_of_ne · hid)
    exact congrArg (fun answers => { s.view id with answers := answers })
      (answersFor_forget_of_ne hid)

theorem Inv.idleStep (h : s.Inv a id) (hcall : s.call = none) {e : Event}
    (hok : s.Undisturbed a id e) (hstep : s.idleStep c e = some s') : s'.Inv a id := by
  revert hok hstep
  fun_cases State.idleStep c s e <;> rintro hok ⟨⟩
  case case1 request numComputedTokens hmock =>
    by_cases hid : request.requestId = id
    · exact .of_answer _ h.ok hid (hok hid) ((if_pos hmock).trans (if_pos hmock).symm)
    · have hanswers := answersFor_concat id (answers_answer numComputedTokens c request none s)
      rw [if_neg hid, append_nil] at hanswers
      have hview : (s.answer c request numComputedTokens none).view id = s.view id :=
        congrArg (fun answers => { s.view id with answers := answers }) hanswers
      exact h.endCall hview rfl fun habort => habort
  case case2 =>
    refine ⟨h.ok, fun hmarked => ?_, ?_⟩
    · have habort : id ∈ s.client.abortedLookups := by
        obtain habort | ⟨call', ⟨⟩, hid | hid⟩ := hmarked
        · exact habort
        · exact hid
        · nomatch hid
      refine ⟨(h.marks.pending (.inl habort)).1, ?_⟩
      rintro call' ⟨⟩ hid
      exact hok hid habort
    · rintro call' ⟨⟩ hid
      nomatch hid
  case case3 => exact h.updateStateAfterAlloc hcall hok
  case case4 lookupId => exact h.cancelLookup hcall lookupId
  case case5 => exact ⟨h.ok, h.marks.pending, h.marks.finished⟩

/-- **The invariant holds in every run** in which the request is not disturbed. -/
theorem inv_inductive (a : AsyncLookupConfig) (c : SchedulerConfig) (id : String) :
    ((system a c).restrict (Undisturbed a id)).Inductive (Inv a id) where
  init := by
    rintro s ⟨hclient, hcall, hunanswered, -, hanswers⟩
    have hview : s.view id = ⟨none, none, 0, [], []⟩ := by
      simp [view, answersFor, hclient, hunanswered, hanswers]
    refine ⟨?_, .of_idle hcall fun _ => by simp [answersFor, hanswers]⟩
    rw [hview]
    exact ⟨nofun, fun _ => ⟨rfl, rfl⟩, .nil⟩
  step s e s' h := by
    rintro ⟨hok, hstep⟩
    revert hok hstep
    change _ → s.step a c e = some s' → _
    fun_cases step a c s e <;> intro hok hstep
    case case1 hmem =>
      cases hstep
      exact h.respond _ hmem
    case case2 => nomatch hstep
    case case3 hcall _ => exact h.callStep hcall hok hstep
    case case4 hcall _ => exact h.idleStep hcall hok hstep

/-- **Answers are stable.**  In every run in which the request is not disturbed no call for it
raises, and a number that was returned for it is returned by each later call with as many tokens,
until `update_state_after_alloc` or `cancel_lookup` is called for it. -/
theorem answers_stable (hs : ((system a c).restrict (Undisturbed a id)).Reachable s) :
    (∀ x ∈ s.answersFor id, ∃ r, x.result = .ok r) ∧ (s.answersFor id).Pairwise Stable :=
  have h := (inv_inductive a c id).reachable hs
  ⟨h.ok.answers.ok, h.ok.answers.stable⟩

instance (a : AsyncLookupConfig) (id : String) (s : State) (e : Event) :
    Decidable (s.Undisturbed a id e) :=
  match e with
  | .getNumNewMatchedTokens request _ => inferInstanceAs (Decidable
      (request.requestId = id → id ∉ s.client.abortedLookups))
  | .lookupCache now => inferInstanceAs (Decidable
      (∀ call ∈ s.call, call.request.requestId = id → s.client.reqsStatus.get? id = some none →
        ∀ first ∈ s.client.firstLookupTime.get? id, (now - first) * 1000 ≤ a.timeoutMs))
  | .updateStateAfterAlloc request _ => inferInstanceAs (Decidable
      (request.requestId = id → s.client.reqsStatus.get? id ≠ some none))
  | .check _ | .endScan | .cleanUp | .respond .. | .cancelLookup _ | .otherCall _ => .isTrue trivial

def fresh : State where
  client := ⟨.empty, .empty, .empty, ∅⟩
  connector := ⟨.empty, .empty, .empty, [], .empty⟩
  call := none
  unanswered := []
  sent := []
  answers := []

theorem reachable_fresh (a : AsyncLookupConfig) (c : SchedulerConfig) (id : String) :
    ((system a c).restrict (Undisturbed a id)).Reachable fresh :=
  .init ⟨rfl, rfl, rfl, rfl, rfl⟩

/-- A call for a request of ten tokens, at a reading of the clock. -/
def callAt (now : ℚ) : List Event :=
  [.getNumNewMatchedTokens ((System.tenTokens 0).get "r") 0, .endScan, .lookupCache now]

/-- Two workers respond between four calls. -/
theorem answers_stable_two_workers : ∃ s : State,
    ((system ⟨2, 3000⟩ (System.fourTokens 0)).restrict (Undisturbed ⟨2, 3000⟩ "r")).Reachable s ∧
      (s.answersFor "r").map (fun x => x.result.toOption) =
        [some none, some none, some (some 6), some (some 6)] ∧
      (s.answersFor "r").Pairwise Stable := by
  obtain ⟨s, hs, hresults⟩ := (reachable_fresh ⟨2, 3000⟩ (System.fourTokens 0) "r").exists_guard
    (P := fun s => (s.answersFor "r").map (fun x => x.result.toOption) =
      [some none, some none, some (some 6), some (some 6)]) (fun _ _ _ => id)
    (callAt 0 ++ [.respond 0 "r" 8] ++ callAt 2 ++ [.respond 1 "r" 6] ++ callAt 4 ++ callAt 9)
    (by decide +kernel)
  exact ⟨s, hs, hresults, (answers_stable hs).2⟩

/-- **Answers that change.**  A lookup past its deadline is answered with 0, and then the next call
raises; or the worker responds, and the next call returns another number.  Blocks are allocated
after such an answer, and the late response of one worker is counted for the next lookup.  A lookup
is cancelled and asked for again; it ends during the call, and the next call clears it. -/
theorem answers_after_timeout :
    (∃ s : State, (system ⟨1, 3000⟩ (System.fourTokens 0)).Reachable s ∧
      (s.answersFor "r").map (fun x => x.result.toOption) = [some none, some (some 0), none]) ∧
    (∃ s : State, (system ⟨1, 3000⟩ (System.fourTokens 0)).Reachable s ∧
      (s.answersFor "r").map (fun x => x.result.toOption) =
        [some none, some (some 0), some (some 8)]) ∧
    (∃ s : State, (system ⟨2, 3000⟩ (System.fourTokens 0)).Reachable s ∧
      (s.answersFor "r").map (fun x => x.result.toOption) =
        [some none, some (some 8), some (some 4)]) ∧
    ∃ s : State, (system ⟨1, 3000⟩ (System.fourTokens 0)).Reachable s ∧
      (s.answersFor "r").map (fun x => x.result.toOption) = [some (some 8), some none] := by
  have hone := (reachable_fresh ⟨1, 3000⟩ (System.fourTokens 0) "r").of_restrict
  have htwo := (reachable_fresh ⟨2, 3000⟩ (System.fourTokens 0) "r").of_restrict
  refine ⟨?_, ?_, ?_, ?_⟩
  · exact hone.exists_replay (fun _ _ _ => id) (callAt 0 ++ callAt 4 ++ callAt 5)
      (by decide +kernel)
  · exact hone.exists_replay (fun _ _ _ => id)
      (callAt 0 ++ callAt 4 ++ [.respond 0 "r" 8] ++ callAt 5) (by decide +kernel)
  · exact htwo.exists_replay (fun _ _ _ => id)
      (callAt 0 ++ callAt 4 ++
        [.updateStateAfterAlloc ((System.tenTokens 0).get "r") 0, .respond 0 "r" 8] ++ callAt 5 ++
        [.respond 1 "r" 8] ++ callAt 6 ++ [.respond 0 "r" 4, .respond 1 "r" 4] ++ callAt 7)
      (by decide +kernel)
  · exact hone.exists_replay (fun _ _ _ => id)
      (callAt 0 ++ [.cancelLookup "r",
        .getNumNewMatchedTokens ((System.tenTokens 0).get "r") 0, .check "r", .endScan,
        .respond 0 "r" 8, .lookupCache 1,
        .getNumNewMatchedTokens ((System.tenTokens 0).get "r") 0, .check "r", .endScan, .cleanUp,
        .lookupCache 2]) (by decide +kernel)

end State

end LMCache.VLLM.AsyncLookup
