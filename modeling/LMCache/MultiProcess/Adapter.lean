import LMCache.Lib.Dict
import LMCache.Lib.Transition
import LMCache.Python

/-! # Finished requests of the worker adapter

`LMCacheMPWorkerAdapter` sends store and retrieve requests to the server and gets a future for
each.  The engine tells it which requests are finished, and it tells the engine which of these may
be freed: those that have no store in flight.

* **Futures.**  A future is a number; `futures` lists the batches of request ids that were
  submitted, in order, and which of them are complete.  It is a ghost: the adapter only sees the
  answers of `query`.
* **Merged batches.**  A batch is tracked under its first id, together with the other ids.
* **Runs.**  `adapterSystem` has any submissions, completions in any order, and calls of
  `get_finished` with any sets of ids.

`mem_getFinished` says which ids a call returns.  `get_finished_respects_stores` gives the condition
under which none of them has a store in flight, for every call in every state, and the runs in which
this is always so. -/

namespace LMCache.MultiProcess

open List Dict

/-! ### The adapter -/

/-- The futures of one kind: the future of a batch under its first id, with the other ids. -/
abbrev Tracked := Dict String (ℕ × List String)

structure WorkerAdapter where
  storeFutures : Tracked
  retrieveFutures : Tracked
  finishedStores : Finset String
  previouslyFinished : Finset String

namespace WorkerAdapter

def new : WorkerAdapter := ⟨.empty, .empty, ∅, ∅⟩

def submitStoreRequest (a : WorkerAdapter) (requestId : String) (future : ℕ) : WorkerAdapter :=
  { a with storeFutures := a.storeFutures.set requestId (future, []) }

def submitRetrieveRequest (a : WorkerAdapter) (requestId : String) (future : ℕ) : WorkerAdapter :=
  { a with retrieveFutures := a.retrieveFutures.set requestId (future, []) }

/-- The last line of the two functions for batches; the request was sent before. -/
def track (futures : Tracked) (requestIds : List String) (future : ℕ) : Except PyError Tracked :=
  match requestIds with
  | [] => .error ⟨.indexError, "list index out of range"⟩
  | requestId :: others => .ok (futures.set requestId (future, others))

def batchedSubmitStoreRequests (a : WorkerAdapter) (requestIds : List String) (future : ℕ) :
    Except PyError WorkerAdapter :=
  (track a.storeFutures requestIds future).map fun t => { a with storeFutures := t }

def batchedSubmitRetrieveRequests (a : WorkerAdapter) (requestIds : List String) (future : ℕ) :
    Except PyError WorkerAdapter :=
  (track a.retrieveFutures requestIds future).map fun t => { a with retrieveFutures := t }

/-- The ids of the batches whose futures are complete. -/
def finishedIds (query : ℕ → Bool) (futures : Tracked) : Finset String :=
  (futures.entries.flatMap fun e => if query e.2.1 then e.1 :: e.2.2 else []).toFinset

def updateAndGetFinishedStore (a : WorkerAdapter) : Finset String × WorkerAdapter :=
  let safeFinished := a.finishedStores ∩ a.previouslyFinished
  (safeFinished,
    { a with
      finishedStores := a.finishedStores \ a.previouslyFinished
      previouslyFinished := a.previouslyFinished \ safeFinished })

/-- `get_finished`: the finished stores and retrieves. -/
def getFinished (a : WorkerAdapter) (query : ℕ → Bool) (fromEngine : Finset String) :
    (Finset String × Finset String) × WorkerAdapter :=
  let finishedStores := finishedIds query a.storeFutures
  let finishedRetrieves := finishedIds query a.retrieveFutures
  let a :=
    { a with
      storeFutures := a.storeFutures.filterKeys fun id => decide (id ∉ finishedStores)
      retrieveFutures := a.retrieveFutures.filterKeys fun id => decide (id ∉ finishedRetrieves)
      finishedStores := a.finishedStores ∪ finishedStores }
  let pending := fromEngine.filter fun id => id ∈ a.finishedStores ∨ id ∈ a.storeFutures.keys
  let r := { a with
    previouslyFinished := a.previouslyFinished ∪ pending : WorkerAdapter }.updateAndGetFinishedStore
  ((fromEngine \ pending ∪ r.1, finishedRetrieves), r.2)

/-- A finished store of the id is on record: among the finished ones, or tracked and complete. -/
def Recorded (a : WorkerAdapter) (query : ℕ → Bool) (id : String) : Prop :=
  id ∈ a.finishedStores ∪ finishedIds query a.storeFutures

section finished
variable {a : WorkerAdapter} {query : ℕ → Bool} {fromEngine : Finset String} {id : String}

theorem mem_finishedIds {futures : Tracked} : id ∈ finishedIds query futures ↔
    ∃ first future others, futures.get? first = some (future, others) ∧ query future = true ∧
      id ∈ first :: others := by
  unfold finishedIds
  rw [mem_toFinset, mem_flatMap]
  constructor
  · rintro ⟨⟨first, future, others⟩, hmem, hid⟩
    split_ifs at hid with hq
    · exact ⟨first, future, others, get?_eq_some_iff.mpr hmem, hq, hid⟩
    · simp at hid
  · rintro ⟨first, future, others, hget, hq, hid⟩
    refine ⟨_, get?_eq_some_iff.mp hget, ?_⟩
    rwa [if_pos hq]

/-- **What `get_finished` returns**: the ids of this call that have no store on record and none
tracked under their name, and those of this and earlier calls that have a finished one. -/
theorem mem_getFinished : id ∈ (a.getFinished query fromEngine).1.1 ↔
    id ∈ fromEngine ∧ ¬ a.Recorded query id ∧ id ∉ a.storeFutures.keys ∨
      a.Recorded query id ∧ (id ∈ fromEngine ∨ id ∈ a.previouslyFinished) := by
  have hkeys : ∀ p : String → Bool, id ∈ (a.storeFutures.filterKeys p).keys ↔
      p id = true ∧ id ∈ a.storeFutures.keys := by
    grind
  unfold getFinished updateAndGetFinishedStore Recorded
  grind

theorem storeFutures_getFinished : (a.getFinished query fromEngine).2.storeFutures =
    a.storeFutures.filterKeys fun id => decide (id ∉ finishedIds query a.storeFutures) := rfl

theorem recorded_of_mem_finishedStores
    (h : id ∈ (a.getFinished query fromEngine).2.finishedStores) : a.Recorded query id :=
  (Finset.mem_sdiff.mp h).1

end finished

end WorkerAdapter

/-! ### Runs -/

/-- A submitted request: the ids of its batch, and whether it is complete. -/
structure Future where
  ids : List String
  isStore : Bool
  done : Bool
deriving DecidableEq, Repr

structure AdapterRun where
  adapter : WorkerAdapter
  futures : List Future

inductive AdapterEvent where
  | submitStore (id : String)
  | batchedStore (ids : List String)
  | submitRetrieve (id : String)
  | batchedRetrieve (ids : List String)
  | complete (future : ℕ)
  | getFinished (fromEngine : Finset String)

namespace AdapterRun

/-- The answer of `query`. -/
def query (s : AdapterRun) (i : ℕ) : Bool := s.futures[i]?.any Future.done

/-- A store that contains the id is not complete. -/
def InFlight (s : AdapterRun) (id : String) : Prop :=
  ∃ f ∈ s.futures, f.isStore = true ∧ f.done = false ∧ id ∈ f.ids

/-- The set of finished stores that `get_finished` returns. -/
def finishedSending (s : AdapterRun) (fromEngine : Finset String) : Finset String :=
  (s.adapter.getFinished s.query fromEngine).1.1

/-- After a request was sent; the adapter is as it was if the call raised. -/
def submitted (s : AdapterRun) (ids : List String) (isStore : Bool)
    (a : Except PyError WorkerAdapter) : AdapterRun :=
  ⟨match a with
    | .ok a => a
    | .error _ => s.adapter,
    s.futures ++ [⟨ids, isStore, false⟩]⟩

end AdapterRun

def AdapterEvent.run (s : AdapterRun) : AdapterEvent → AdapterRun
  | .submitStore id =>
    s.submitted [id] true (.ok (s.adapter.submitStoreRequest id s.futures.length))
  | .batchedStore ids =>
    s.submitted ids true (s.adapter.batchedSubmitStoreRequests ids s.futures.length)
  | .submitRetrieve id =>
    s.submitted [id] false (.ok (s.adapter.submitRetrieveRequest id s.futures.length))
  | .batchedRetrieve ids =>
    s.submitted ids false (s.adapter.batchedSubmitRetrieveRequests ids s.futures.length)
  | .complete future =>
    { s with futures := s.futures.modify future fun f => { f with done := true } }
  | .getFinished fromEngine =>
    { s with adapter := (s.adapter.getFinished s.query fromEngine).2 }

def adapterSystem : LTS AdapterRun AdapterEvent where
  init s := s = ⟨.new, []⟩
  step s e s' := s' = e.run s

/-! ### Stores in flight -/

section inflight
variable {s : AdapterRun} {fromEngine : Finset String} {id : String}

/-- Every id with a store in flight is tracked under its own name when the engine finishes it, and
then no other store of it is finished. -/
def AdapterRun.Safe (s : AdapterRun) (fromEngine : Finset String) : Prop :=
  ∀ id, s.InFlight id → (id ∈ fromEngine → id ∈ s.adapter.storeFutures.keys) ∧
    (id ∈ fromEngine ∨ id ∈ s.adapter.previouslyFinished → ¬ s.adapter.Recorded s.query id)

theorem AdapterRun.safe_iff :
    s.Safe fromEngine ↔ ∀ id ∈ s.finishedSending fromEngine, ¬ s.InFlight id := by
  unfold AdapterRun.Safe AdapterRun.finishedSending
  refine forall_congr' fun id => ?_
  rw [WorkerAdapter.mem_getFinished]
  tauto

/-- No store of the id is tracked or waits to be reported. -/
def WorkerAdapter.Untracked (a : WorkerAdapter) (id : String) : Prop :=
  id ∉ a.finishedStores ∧ ∀ first v, a.storeFutures.get? first = some v → id ∉ first :: v.2

/-- A store is submitted only for ids without another store, and the engine does not finish an id
that is in a merged store in flight but not its first. -/
def AdapterRun.Disciplined (s : AdapterRun) : AdapterEvent → Prop
  | .submitStore id => s.adapter.Untracked id
  | .batchedStore ids => ∀ id ∈ ids, s.adapter.Untracked id
  | .getFinished fromEngine =>
    ∀ id ∈ fromEngine, s.InFlight id → id ∈ s.adapter.storeFutures.keys
  | _ => True

/-- Incomplete stores are tracked, and no id is in two tracked stores or in a tracked and a finished
one. -/
structure AdapterRun.Inv (s : AdapterRun) : Prop where
  tracked : ∀ i f first others, s.futures[i]? = some f → f.isStore = true → f.done = false →
    f.ids = first :: others → s.adapter.storeFutures.get? first = some (i, others)
  disjoint : ∀ first first' v v', s.adapter.storeFutures.get? first = some v →
    s.adapter.storeFutures.get? first' = some v' →
    ∀ id ∈ first :: v.2, id ∈ first' :: v'.2 → first = first'
  unfinished : ∀ first v, s.adapter.storeFutures.get? first = some v →
    ∀ id ∈ first :: v.2, id ∉ s.adapter.finishedStores

theorem AdapterRun.Inv.not_recorded (h : s.Inv) (hid : s.InFlight id) :
    ¬ s.adapter.Recorded s.query id := by
  obtain ⟨f, hf, hstore, hdone, hmem⟩ := hid
  obtain ⟨i, hi⟩ := mem_iff_getElem?.mp hf
  obtain ⟨first, others, hids⟩ := exists_cons_of_ne_nil (ne_nil_of_mem hmem)
  have hget := h.tracked i f first others hi hstore hdone hids
  rw [hids] at hmem
  intro hrecorded
  rcases Finset.mem_union.mp hrecorded with hfin | hfin
  · exact h.unfinished first _ hget id hmem hfin
  · obtain ⟨first', j, others', hget', hq, hmem'⟩ := WorkerAdapter.mem_finishedIds.mp hfin
    obtain rfl := h.disjoint first first' _ _ hget hget' id hmem hmem'
    rw [hget, Option.some.injEq, Prod.mk.injEq] at hget'
    rw [← hget'.1, AdapterRun.query, hi, Option.any_some, hdone] at hq
    cases hq

theorem AdapterRun.Inv.append (h : s.Inv) {a : WorkerAdapter} {f : Future}
    (hfutures : a.storeFutures = s.adapter.storeFutures)
    (hfinished : a.finishedStores = s.adapter.finishedStores)
    (hf : f.isStore = false ∨ f.ids = []) :
    AdapterRun.Inv ⟨a, s.futures ++ [f]⟩ := by
  refine ⟨fun i g first others hi hstore hdone hids => ?_, ?_, ?_⟩
  · rw [getElem?_append] at hi
    split_ifs at hi with hlt
    · rw [hfutures]
      exact h.tracked i g first others hi hstore hdone hids
    · grind
  · simpa [hfutures] using h.disjoint
  · simpa [hfutures, hfinished] using h.unfinished

/-- A new store. -/
theorem AdapterRun.Inv.store (h : s.Inv) {first : String} {others : List String}
    (hids : ∀ id ∈ first :: others, s.adapter.Untracked id) :
    AdapterRun.Inv
      ⟨{ s.adapter with
          storeFutures := s.adapter.storeFutures.set first (s.futures.length, others) },
        s.futures ++ [⟨first :: others, true, false⟩]⟩ := by
  have hfree : s.adapter.storeFutures.get? first = none := by
    by_contra hne
    obtain ⟨v, hv⟩ := Option.ne_none_iff_exists'.mp hne
    exact (hids first mem_cons_self).2 first v hv mem_cons_self
  refine ⟨fun i f k ks hi hstore hdone hk => ?_, fun k k' v v' hv hv' id hid hid' => ?_,
    fun k v hv id hid => ?_⟩
  · rw [getElem?_append] at hi
    rw [get?_set]
    split_ifs at hi with hlt
    · have hget := h.tracked i f k ks hi hstore hdone hk
      grind
    · grind
  · rw [get?_set] at hv hv'
    split_ifs at hv with hk
    · cases hv
      split_ifs at hv' with hk'
      · rw [hk, hk']
      · exact absurd hid' ((hids id (hk ▸ hid)).2 k' v' hv')
    · split_ifs at hv' with hk'
      · cases hv'
        exact absurd hid ((hids id (hk' ▸ hid')).2 k v hv)
      · exact h.disjoint k k' v v' hv hv' id hid hid'
  · rw [get?_set] at hv
    split_ifs at hv with hk
    · cases hv
      exact (hids id (hk ▸ hid)).1
    · exact h.unfinished k v hv id hid

theorem AdapterRun.Inv.complete (h : s.Inv) (j : ℕ) :
    AdapterRun.Inv { s with futures := s.futures.modify j fun f => { f with done := true } } := by
  refine { h with tracked := fun i f first others hi hstore hdone hids => ?_ }
  rw [getElem?_modify] at hi
  obtain ⟨g, hg, rfl⟩ := Option.map_eq_some_iff.mp hi
  by_cases hij : j = i
  · simp [hij] at hdone
  · simp only [if_neg hij] at hstore hdone hids
    exact h.tracked i g first others hg hstore hdone hids

theorem AdapterRun.Inv.getFinished (h : s.Inv) (fromEngine : Finset String) :
    AdapterRun.Inv { s with adapter := (s.adapter.getFinished s.query fromEngine).2 } := by
  -- the first id of a tracked batch is among the finished ids only if the batch is complete
  have hkeep : ∀ first v, (s.adapter.getFinished s.query fromEngine).2.storeFutures.get? first =
      some v → s.adapter.storeFutures.get? first = some v ∧
        first ∉ WorkerAdapter.finishedIds s.query s.adapter.storeFutures := by
    intro first v hv
    rw [WorkerAdapter.storeFutures_getFinished, get?_filterKeys] at hv
    grind
  refine ⟨fun i f first others hi hstore hdone hids => ?_, ?_, fun first v hv id hid hfin => ?_⟩
  · have hfirst : first ∉ WorkerAdapter.finishedIds s.query s.adapter.storeFutures := fun hfin =>
      h.not_recorded ⟨f, mem_iff_getElem?.mpr ⟨i, hi⟩, hstore, hdone, by simp [hids]⟩
        (Finset.mem_union_right _ hfin)
    rw [WorkerAdapter.storeFutures_getFinished, get?_filterKeys, if_pos (decide_eq_true hfirst)]
    exact h.tracked i f first others hi hstore hdone hids
  · intro first first' v v' hv hv'
    exact h.disjoint first first' v v' (hkeep first v hv).1 (hkeep first' v' hv').1
  · obtain ⟨hv, hfirst⟩ := hkeep first v hv
    rcases Finset.mem_union.mp (WorkerAdapter.recorded_of_mem_finishedStores hfin) with hold | hnew
    · exact h.unfinished first v hv id hid hold
    · obtain ⟨first', j, others, hget, hq, hmem⟩ := WorkerAdapter.mem_finishedIds.mp hnew
      obtain rfl := h.disjoint first first' v _ hv hget id hid hmem
      exact hfirst (WorkerAdapter.mem_finishedIds.mpr ⟨first, j, others, hget, hq, mem_cons_self⟩)

theorem adapter_inductive : (adapterSystem.restrict AdapterRun.Disciplined).Inductive
    AdapterRun.Inv where
  init := by
    rintro s rfl
    refine ⟨?_, ?_, ?_⟩ <;> simp [WorkerAdapter.new]
  step := by
    rintro s e s' h ⟨hok, rfl⟩
    cases e with
    | submitStore id =>
      refine h.store fun id' hid' => ?_
      rw [mem_singleton.mp hid']
      exact hok
    | batchedStore ids =>
      cases ids with
      | nil => exact h.append rfl rfl (Or.inr rfl)
      | cons first others => exact h.store hok
    | submitRetrieve id => exact h.append rfl rfl (Or.inl rfl)
    | batchedRetrieve ids =>
      cases ids <;> exact h.append rfl rfl (Or.inl rfl)
    | complete future => exact h.complete future
    | getFinished fromEngine => exact h.getFinished fromEngine

/-- **Stores in flight.**  A call of `get_finished` returns no id with a store in flight exactly if
the state and the ids of the engine are `Safe`; and in every run whose steps are `Disciplined` this
is so at every call that is. -/
theorem get_finished_respects_stores (s : AdapterRun) (fromEngine : Finset String) :
    ((∀ id ∈ s.finishedSending fromEngine, ¬ s.InFlight id) ↔ s.Safe fromEngine) ∧
    ((adapterSystem.restrict AdapterRun.Disciplined).Reachable s →
      s.Disciplined (.getFinished fromEngine) →
      ∀ id ∈ s.finishedSending fromEngine, ¬ s.InFlight id) := by
  refine ⟨AdapterRun.safe_iff.symm, fun hs hok => ?_⟩
  have hinv := adapter_inductive.reachable hs
  exact AdapterRun.safe_iff.mp fun id hid =>
    ⟨fun hmem => hok id hmem hid, fun _ => hinv.not_recorded hid⟩

end inflight

def adapterAfter (events : List AdapterEvent) : AdapterRun :=
  events.foldl (fun s e => e.run s) ⟨.new, []⟩

/-- Two requests are stored together.  The first is held back until the store is complete, and then
it is returned. -/
theorem get_finished_respects_stores_pair :
    (∀ id ∈ (adapterAfter [.batchedStore ["a", "b"]]).finishedSending {"a"},
      ¬ (adapterAfter [.batchedStore ["a", "b"]]).InFlight id) ∧
    (adapterAfter [.batchedStore ["a", "b"]]).InFlight "a" ∧
    (adapterAfter [.batchedStore ["a", "b"], .getFinished {"a"}, .complete 0]).finishedSending ∅ =
      {"a"} := by
  have hstart : (adapterSystem.restrict AdapterRun.Disciplined).Reachable ⟨.new, []⟩ := .init rfl
  have hstore : (adapterSystem.restrict AdapterRun.Disciplined).Reachable
      (adapterAfter [.batchedStore ["a", "b"]]) :=
    hstart.step (e := .batchedStore ["a", "b"])
      ⟨fun id _ => ⟨by simp [WorkerAdapter.new], by simp [WorkerAdapter.new]⟩, rfl⟩
  refine ⟨(get_finished_respects_stores _ {"a"}).2 hstore fun id hid _ => ?_, ?_, by decide +kernel⟩
  · rw [Finset.mem_singleton.mp hid]
    decide +kernel
  · exact ⟨⟨["a", "b"], true, false⟩, by simp [adapterAfter, AdapterEvent.run,
      AdapterRun.submitted], rfl, rfl, by simp⟩

/-- The second request of a merged store is returned at once. -/
theorem get_finished_ignores_merged_store :
    "b" ∈ (adapterAfter [.batchedStore ["a", "b"]]).finishedSending {"b"} ∧
      (adapterAfter [.batchedStore ["a", "b"]]).InFlight "b" := by
  refine ⟨by decide +kernel, ⟨["a", "b"], true, false⟩, ?_, rfl, rfl, by simp⟩
  simp [adapterAfter, AdapterEvent.run, AdapterRun.submitted]

end LMCache.MultiProcess
