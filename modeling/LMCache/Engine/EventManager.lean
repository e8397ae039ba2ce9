import LMCache.Lib.Dict
import LMCache.Lib.Transition
import LMCache.Python

/-! # The event manager

`EventManager` keeps the future of an event in the dictionary of its status.  `add_event` does not
look into the other dictionaries: an id that is done and added again is in two of them.

**Main result**: `event_status_unique`, when an id is added only while it has no event. -/

namespace LMCache

open Function Dict

inductive EventType where
  | loading
deriving DecidableEq

/-- `str` of the type. -/
def EventType.text : EventType → String
  | .loading => "EventType.LOADING"

inductive EventStatus where
  | ongoing
  | done
  | notFound
deriving DecidableEq

instance : Fintype EventStatus := ⟨{.ongoing, .done, .notFound}, by rintro (_ | _ | _) <;> decide⟩

/-- `self.events`, by type and status. -/
abbrev EventManager (F : Type) := EventType × EventStatus → Dict String F

namespace EventManager
variable {F : Type} (m : EventManager F) (t : EventType) (id : String)

def addEvent (future : F) : EventManager F :=
  update m (t, .ongoing) ((m (t, .ongoing)).set id future)

def popEvent : Except PyError F × EventManager F :=
  match (m (t, .done)).get? id with
  | none => (.error ⟨.assertionError, "Event " ++ id ++ " of type " ++ t.text ++
      " is not done or not found."⟩, m)
  | some future => (.ok future, update m (t, .done) ((m (t, .done)).erase id))

/-- The loop over the statuses, in the order of the class. -/
def find : Option (EventStatus × F) :=
  [.ongoing, .done, .notFound].findSome? fun a => ((m (t, a)).get? id).map fun event => (a, event)

def updateEventStatus (status : EventStatus) : Except PyError Unit × EventManager F :=
  match m.find t id with
  | none => (.error ⟨.keyError, "Event " ++ id ++ " of type " ++ t.text ++ " not found."⟩, m)
  | some (a, event) =>
    let m : EventManager F := update m (t, a) ((m (t, a)).erase id)
    (.ok (), update m (t, status) ((m (t, status)).set id event))

def getEventStatus : EventStatus := ((m.find t id).map Prod.fst).getD .notFound

end EventManager

/-! ### Runs -/

/-- The manager, the latest event of each id with the status it was given, and the futures that were
added and not popped. -/
structure EventRun (F : Type) where
  manager : EventManager F
  latest : EventType × String → Option (F × EventStatus)
  unpopped : EventType × String → List F

inductive EventCall (F : Type) where
  | add (t : EventType) (id : String) (future : F)
  | updateStatus (t : EventType) (id : String) (status : EventStatus)
  | pop (t : EventType) (id : String)

namespace EventRun
variable {F : Type} [DecidableEq F]

def step (s : EventRun F) : EventCall F → EventRun F
  | .add t id future =>
    ⟨s.manager.addEvent t id future, update s.latest (t, id) (some (future, .ongoing)),
      update s.unpopped (t, id) (s.unpopped (t, id) ++ [future])⟩
  | .updateStatus t id status =>
    { s with
      manager := (s.manager.updateEventStatus t id status).2
      latest := update s.latest (t, id) ((s.latest (t, id)).map fun e => (e.1, status)) }
  | .pop t id =>
    match s.manager.popEvent t id with
    | (.error _, m) => { s with manager := m }
    | (.ok future, m) =>
      ⟨m, update s.latest (t, id) none,
        update s.unpopped (t, id) ((s.unpopped (t, id)).erase future)⟩

def new : EventRun F := ⟨fun _ => .empty, fun _ => none, fun _ => []⟩

def system : LTS (EventRun F) (EventCall F) where
  init s := s = new
  step s e s' := some (s.step e) = some s'

/-- An id is added when it has no event. -/
def Fresh (s : EventRun F) : EventCall F → Prop
  | .add t id _ => ∀ status, id ∉ (s.manager (t, status)).keys
  | _ => True

instance (s : EventRun F) : DecidablePred s.Fresh := fun e => by
  cases e <;> unfold Fresh <;> infer_instance

/-- The dictionaries have the latest events, each under its status, and no other future is left. -/
def Exact (s : EventRun F) : Prop :=
  ∀ t id, (∀ status, (s.manager (t, status)).get? id =
      (s.latest (t, id)).bind fun e => if e.2 = status then some e.1 else none) ∧
    s.unpopped (t, id) = ((s.latest (t, id)).map Prod.fst).toList

variable {s : EventRun F}

omit [DecidableEq F] in
theorem Exact.find_eq (h : s.Exact) (t : EventType) (id : String) :
    s.manager.find t id = (s.latest (t, id)).map Prod.swap := by
  simp only [EventManager.find, (h t id).1]
  rcases s.latest (t, id) with _ | ⟨f, _ | _ | _⟩ <;> rfl

theorem Exact.step (h : s.Exact) {e : EventCall F} (hok : s.Fresh e) : (s.step e).Exact := by
  intro t' id'
  obtain ⟨hget, hunpopped⟩ := h t' id'
  cases e with
  | add t id future =>
    by_cases hid : id' = id
    · subst hid
      have hnone : s.latest (t', id') = none := by
        refine Option.eq_none_iff_forall_ne_some.mpr fun e hl => ?_
        have hmem := hget e.2
        rw [hl, Option.bind_some, if_pos rfl] at hmem
        exact hok e.2 (mem_keys_iff.mpr ⟨_, hmem⟩)
      rw [hnone] at hget hunpopped
      refine ⟨fun status => ?_, by simp [EventRun.step, hunpopped]⟩
      cases status <;> simp [EventRun.step, EventManager.addEvent, hget]
    · refine ⟨fun status => ?_, by simpa [EventRun.step, hid] using hunpopped⟩
      cases status <;> simp [EventRun.step, EventManager.addEvent, hid, hget]
  | updateStatus t id status =>
    simp only [EventRun.step, EventManager.updateEventStatus, h.find_eq]
    rcases hl : s.latest (t, id) with _ | ⟨f, old⟩
    · rw [Option.map_none, Option.map_none, ← hl, update_eq_self]
      exact h t' id'
    · by_cases hid : id' = id
      · subst hid
        rw [hl] at hget hunpopped
        refine ⟨fun a => ?_, by simpa using hunpopped⟩
        cases status <;> cases a <;> cases old <;> simp [hget]
      · refine ⟨fun a => ?_, by simpa [hid] using hunpopped⟩
        cases status <;> cases a <;> cases old <;> simp [hid, hget]
  | pop t id =>
    simp only [EventRun.step, EventManager.popEvent, (h t id).1]
    rcases hl : s.latest (t, id) with _ | ⟨f, _ | _ | _⟩
    case some.done =>
      by_cases hid : id' = id
      · subst hid
        rw [hl] at hget hunpopped
        refine ⟨fun a => ?_, by simp [hunpopped]⟩
        cases a <;> simp [hget]
      · refine ⟨fun a => ?_, by simpa [hid] using hunpopped⟩
        cases a <;> simp [hid, hget]
    all_goals exact h t' id'

/-- **One status per event**: when an id is added only while it has no event, it is never in two
dictionaries, `get_event_status` is the status that its latest event was given, and a future that
was added and not popped is in a dictionary. -/
theorem event_status_unique (h : (system.restrict Fresh).Reachable s) (t : EventType)
    (id : String) :
    (∀ a b, id ∈ (s.manager (t, a)).keys → id ∈ (s.manager (t, b)).keys → a = b) ∧
    s.manager.getEventStatus t id = ((s.latest (t, id)).map Prod.snd).getD .notFound ∧
    ∀ future ∈ s.unpopped (t, id), ∃ a, (s.manager (t, a)).get? id = some future := by
  have hexact : s.Exact := by
    refine h.invariant ?_ ?_
    · rintro s rfl t id
      exact ⟨fun _ => rfl, rfl⟩
    · rintro s e s' hs ⟨hok, hstep⟩
      cases hstep
      exact hs.step hok
  obtain ⟨hget, hunpopped⟩ := hexact t id
  simp only [mem_keys_iff, hget, hunpopped, EventManager.getEventStatus, hexact.find_eq]
  rcases s.latest (t, id) with _ | ⟨f, status⟩ <;> simp

/-- A lookup that is done, popped and made again. -/
theorem event_status_unique_again : ∃ s : EventRun ℕ,
    (system.restrict Fresh).Reachable s ∧ s.manager.getEventStatus .loading "r" = .ongoing := by
  have hstart : (system.restrict Fresh).Reachable (new : EventRun ℕ) := .init rfl
  obtain ⟨s, hs, hlatest⟩ := hstart.exists_guard (fun _ _ _ => id)
    (P := fun s => s.latest (.loading, "r") = some (2, .ongoing))
    [.add .loading "r" 1, .updateStatus .loading "r" .done, .pop .loading "r", .add .loading "r" 2]
    (by decide +kernel)
  refine ⟨s, hs, ?_⟩
  rw [(event_status_unique hs .loading "r").2.1, hlatest]
  rfl

/-- **An id that is added again while it is done** is in two dictionaries, and when the second event
is done too the future of the first is in none although it was not popped. -/
theorem readded_future_dropped : (∃ s : EventRun ℕ, system.Reachable s ∧
      "r" ∈ (s.manager (.loading, .ongoing)).keys ∧ "r" ∈ (s.manager (.loading, .done)).keys) ∧
    ∃ s : EventRun ℕ, system.Reachable s ∧ 1 ∈ s.unpopped (.loading, "r") ∧
      ∀ a, (s.manager (.loading, a)).get? "r" ≠ some 1 := by
  have hstart : system.Reachable (new : EventRun ℕ) := .init rfl
  constructor
  · exact hstart.exists_replay (fun _ _ _ => id) [.add .loading "r" 1,
      .updateStatus .loading "r" .done, .add .loading "r" 2] (by decide +kernel)
  · exact hstart.exists_replay (fun _ _ _ => id) [.add .loading "r" 1,
      .updateStatus .loading "r" .done, .add .loading "r" 2, .updateStatus .loading "r" .done]
      (by decide +kernel)

end EventRun

end LMCache
