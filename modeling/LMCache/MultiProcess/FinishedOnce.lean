import LMCache.MultiProcess.Adapter

/-! # Finished requests are reported once

The engine may report the same finished request in several calls of `get_finished`, and the adapter
should return it once.  It forgets an id when it returns it: an id that is reported again has no
store on record, and is returned again.

* `SendingRun`: a run of the adapter with the sets of finished stores that its calls have returned.
* `Unrepeated`: no id is reported after it was returned; before that it may be reported any number
  of times.

**Main result**: `get_finished_at_most_once`, for the runs in which every call is `Unrepeated`. -/

namespace LMCache.MultiProcess

namespace WorkerAdapter

variable {a : WorkerAdapter} {query : ℕ → Bool} {fromEngine : Finset String} {id : String}

/-- What waits for a store is tracked under its own name. -/
def Waiting (a : WorkerAdapter) : Prop := ∀ id ∈ a.previouslyFinished, id ∈ a.storeFutures.keys

/-- **What waits after a call**: it has waited before or was reported, it is not returned, and it is
still tracked. -/
theorem mem_previouslyFinished_getFinished (h : a.Waiting)
    (hid : id ∈ (a.getFinished query fromEngine).2.previouslyFinished) :
    (id ∈ a.previouslyFinished ∨ id ∈ fromEngine) ∧
      id ∈ (a.getFinished query fromEngine).2.storeFutures.keys ∧
      id ∉ (a.getFinished query fromEngine).1.1 := by
  have hkeys : ∀ id, id ∈ (a.getFinished query fromEngine).2.storeFutures.keys ↔
      id ∉ finishedIds query a.storeFutures ∧ id ∈ a.storeFutures.keys := by
    intro id
    rw [storeFutures_getFinished, Dict.mem_keys_iff, Dict.mem_keys_iff]
    by_cases hfin : id ∈ finishedIds query a.storeFutures <;> simp [hfin]
  have hid' : (id ∈ a.previouslyFinished ∨ id ∈ fromEngine ∧ (a.Recorded query id ∨
      id ∈ (a.getFinished query fromEngine).2.storeFutures.keys)) ∧ ¬a.Recorded query id := by
    unfold getFinished updateAndGetFinishedStore at hid
    simp only [Finset.mem_sdiff, Finset.mem_union, Finset.mem_filter, Finset.mem_inter] at hid
    unfold Recorded
    grind
  obtain ⟨hsource, hrecorded⟩ := hid'
  have htracked : id ∈ (a.getFinished query fromEngine).2.storeFutures.keys := by
    rcases hsource with hold | ⟨-, hnew⟩
    · refine (hkeys id).mpr ⟨fun hfin => hrecorded ?_, h id hold⟩
      exact Finset.mem_union_right _ hfin
    · exact hnew.resolve_left hrecorded
  refine ⟨hsource.imp_right And.left, htracked, fun hreturned => ?_⟩
  rcases mem_getFinished.mp hreturned with ⟨-, -, hnot⟩ | ⟨hrec, -⟩
  · exact hnot ((hkeys id).mp htracked).2
  · exact hrecorded hrec

theorem Waiting.getFinished (h : a.Waiting) (query : ℕ → Bool) (fromEngine : Finset String) :
    (a.getFinished query fromEngine).2.Waiting :=
  fun _ hid => (mem_previouslyFinished_getFinished h hid).2.1

theorem Waiting.set (h : a.Waiting) (first : String) (v : ℕ × List String) :
    Waiting { a with storeFutures := a.storeFutures.set first v } :=
  fun id hid => Dict.mem_keys_set.mpr (Or.inr (h id hid))

end WorkerAdapter

/-! ### Runs -/

/-- A run with the sets of finished stores that were returned, in order. -/
structure SendingRun where
  run : AdapterRun
  returned : List (Finset String)

namespace SendingRun

def step (s : SendingRun) (e : AdapterEvent) : SendingRun :=
  ⟨e.run s.run,
    match e with
    | .getFinished fromEngine => s.returned ++ [s.run.finishedSending fromEngine]
    | _ => s.returned⟩

def Unrepeated (s : SendingRun) : AdapterEvent → Prop
  | .getFinished fromEngine => ∀ ids ∈ s.returned, Disjoint ids fromEngine
  | _ => True

instance (s : SendingRun) : (e : AdapterEvent) → Decidable (s.Unrepeated e)
  | .getFinished fromEngine =>
    inferInstanceAs (Decidable (∀ ids ∈ s.returned, Disjoint ids fromEngine))
  | .submitStore _ | .batchedStore _ | .submitRetrieve _ | .batchedRetrieve _ | .complete _ =>
    inferInstanceAs (Decidable True)

end SendingRun

def sendingSystem : LTS SendingRun AdapterEvent where
  init s := s = ⟨⟨.new, []⟩, []⟩
  step s e s' := s' = s.step e

namespace SendingRun

/-- No id is in two returned sets, and none of them waits. -/
structure Once (s : SendingRun) : Prop where
  waiting : s.run.adapter.Waiting
  fresh : ∀ ids ∈ s.returned, Disjoint ids s.run.adapter.previouslyFinished
  once : s.returned.Pairwise Disjoint

variable {s : SendingRun}

theorem Once.keep (h : s.Once) {run : AdapterRun} (hwaiting : run.adapter.Waiting)
    (hprevious : run.adapter.previouslyFinished = s.run.adapter.previouslyFinished) :
    Once ⟨run, s.returned⟩ :=
  ⟨hwaiting, fun ids hids => hprevious ▸ h.fresh ids hids, h.once⟩

/-- **A call** returns ids that were not returned before. -/
theorem Once.getFinished (h : s.Once) {fromEngine : Finset String}
    (hok : s.Unrepeated (.getFinished fromEngine)) : (s.step (.getFinished fromEngine)).Once := by
  refine ⟨h.waiting.getFinished _ _, fun ids hids => ?_, ?_⟩
  · refine Finset.disjoint_left.mpr fun id hid hprevious => ?_
    obtain ⟨hsource, -, hnot⟩ :=
      WorkerAdapter.mem_previouslyFinished_getFinished h.waiting hprevious
    rcases List.mem_append.mp hids with hold | hnew
    · rcases hsource with hwaited | hreported
      · exact Finset.disjoint_left.mp (h.fresh ids hold) hid hwaited
      · exact Finset.disjoint_left.mp (hok ids hold) hid hreported
    · rw [List.mem_singleton.mp hnew] at hid
      exact hnot hid
  · refine List.pairwise_append.mpr ⟨h.once, List.pairwise_singleton _ _,
      fun ids hids new hnew => ?_⟩
    rw [List.mem_singleton.mp hnew]
    refine Finset.disjoint_left.mpr fun id hid hreturned => ?_
    -- A returned id was reported in this call or has waited for its store.
    rcases WorkerAdapter.mem_getFinished.mp hreturned with ⟨hreported, -⟩ | ⟨-, hreported | hwaited⟩
    · exact Finset.disjoint_left.mp (hok ids hids) hid hreported
    · exact Finset.disjoint_left.mp (hok ids hids) hid hreported
    · exact Finset.disjoint_left.mp (h.fresh ids hids) hid hwaited

theorem Once.step (h : s.Once) {e : AdapterEvent} (hok : s.Unrepeated e) : (s.step e).Once := by
  cases e with
  | submitStore id => exact h.keep (h.waiting.set _ _) rfl
  | batchedStore ids =>
    cases ids with
    | nil => exact h.keep h.waiting rfl
    | cons first others => exact h.keep (h.waiting.set _ _) rfl
  | submitRetrieve id => exact h.keep h.waiting rfl
  | batchedRetrieve ids =>
    cases ids <;> exact h.keep h.waiting rfl
  | complete future => exact h.keep h.waiting rfl
  | getFinished fromEngine => exact h.getFinished hok

/-- **At most once.**  In every run with any submissions and completions, in which the engine
reports no id after it was returned, no id is in two of the sets that `get_finished` has
returned. -/
theorem get_finished_at_most_once (h : (sendingSystem.restrict Unrepeated).Reachable s) :
    s.returned.Pairwise Disjoint := by
  have honce : s.Once := by
    refine h.invariant ?_ ?_
    · rintro s rfl
      exact ⟨nofun, nofun, List.Pairwise.nil⟩
    · rintro s e _ hs ⟨hok, rfl⟩
      exact hs.step hok
  exact honce.once

/-- A request is reported twice while its store is in flight, and returned once. -/
theorem get_finished_at_most_once_pending :
    ∃ s, (sendingSystem.restrict Unrepeated).Reachable s ∧ s.returned = [∅, ∅, {"a"}, ∅] ∧
      s.returned.Pairwise Disjoint := by
  have hstart : (sendingSystem.restrict Unrepeated).Reachable ⟨⟨.new, []⟩, []⟩ := .init rfl
  obtain ⟨s, hs, hreturned⟩ := hstart.exists_guard (P := fun s => s.returned = [∅, ∅, {"a"}, ∅])
    (f := fun s e => some (s.step e)) (fun _ _ _ h => (Option.some.inj h).symm)
    [.submitStore "a", .getFinished {"a"}, .getFinished {"a"}, .complete 0, .getFinished ∅,
      .getFinished ∅] (by decide +kernel)
  exact ⟨s, hs, hreturned, get_finished_at_most_once hs⟩

/-- **Twice**: the store of the request is complete, and the engine reports the request in two
calls. -/
theorem get_finished_returns_twice :
    ∃ s, sendingSystem.Reachable s ∧ s.returned = [{"a"}, {"a"}] := by
  have hstart : sendingSystem.Reachable ⟨⟨.new, []⟩, []⟩ := .init rfl
  exact hstart.exists_replay (f := fun s e => some (s.step e))
    (fun _ _ _ h => (Option.some.inj h).symm)
    [.submitStore "a", .complete 0, .getFinished {"a"}, .getFinished {"a"}] (by decide +kernel)

end SendingRun

end LMCache.MultiProcess
