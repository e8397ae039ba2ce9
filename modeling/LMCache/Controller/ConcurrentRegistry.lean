import LMCache.Controller.Registry
import LMCache.Lib.Transition

/-! # Registrations from several threads

`register_worker` and `deregister_worker` do their work in several lock sections: the node of the
instance is looked up or created, a worker is added to it or removed from it, and an instance
without workers is removed from the tree.  Other threads run between any two sections.

* **Nodes.**  Threads hold references to instance nodes, so the nodes are in a heap, and the tree
  maps an instance to the number of its node.  A node that has left the tree stays in the heap.
* **Calls.**  A call is at one of the points between its sections (`RegisterStage`,
  `DeregisterStage`).  Lookups without a lock are sections of their own.  A lock that is not
  acquired in time would raise; this is left out.
* **Ghost.**  `live` has the workers whose `register_worker` has returned and for which no call of
  `deregister_worker` was started since.

**Main result**: `registered_worker_found`.  If no call of `register_worker` overlaps a call of
`deregister_worker` for the same instance, every live worker is found. -/

namespace LMCache.Controller

open List Dict

/-- Before the lookup, before the section that creates the instance, before the worker is added. -/
inductive RegisterStage where
  | start
  | create
  | add (node : ℕ)
  | returned
deriving DecidableEq, Repr

/-- Before the lookup, before the worker is removed, before the first and the second look whether
the node has workers. -/
inductive DeregisterStage where
  | start
  | remove (node : ℕ)
  | check (node : ℕ)
  | cleanUp (node : ℕ)
  | returned
deriving DecidableEq, Repr

inductive RegistryCall where
  | register (instanceId : String) (workerId : ℤ) (peerInitUrl : Option String)
      (stage : RegisterStage)
  | deregister (instanceId : String) (workerId : ℤ) (stage : DeregisterStage)
deriving DecidableEq, Repr

structure RegistryThreads where
  heap : List InstanceNode
  instances : Dict String ℕ
  calls : List RegistryCall
  live : Finset (String × ℤ)

inductive RegistryThreadEvent where
  | register (instanceId : String) (workerId : ℤ) (peerInitUrl : Option String)
  | deregister (instanceId : String) (workerId : ℤ)
  | run (thread : ℕ)
deriving DecidableEq, Repr

namespace RegistryThreads

variable (s : RegistryThreads)

def getWorker (i : String) (w : ℤ) : Option WorkerNode :=
  (s.instances.get? i).bind fun n => s.heap[n]?.bind fun node => node.workers.get? w

def hasWorkers (n : ℕ) : Bool := s.heap[n]?.any InstanceNode.hasWorkers

def newInstance (i : String) : RegistryThreads :=
  { s with
    heap := s.heap ++ [{ instanceId := i }]
    instances := s.instances.set i s.heap.length }

/-- `add_worker`, after which `register_worker` returns. -/
def addWorker (i : String) (w : ℤ) (url : Option String) (n : ℕ) : RegistryThreads :=
  { s with
    heap := s.heap.modify n fun node => node.addWorker { workerId := w, peerInitUrl := url }
    live := insert (i, w) s.live }

def removeWorker (w : ℤ) (n : ℕ) : RegistryThreads :=
  { s with heap := s.heap.modify n fun node => node.removeWorker w }

/-- Under the lock of the tree: the instance is removed if its node, as the caller knows it, has no
workers. -/
def cleanUp (i : String) (n : ℕ) : RegistryThreads :=
  if !s.hasWorkers n && decide (i ∈ s.instances.keys) then
    { s with instances := s.instances.erase i }
  else s

/-- The next section of `register_worker`. -/
def runRegister (i : String) (w : ℤ) (url : Option String) :
    RegisterStage → Option (RegistryThreads × RegisterStage)
  | .start =>
    match s.instances.get? i with
    | some n => some (s, .add n)
    | none => some (s, .create)
  | .create =>
    match s.instances.get? i with
    | some n => some (s, .add n)
    | none => some (s.newInstance i, .add s.heap.length)
  | .add n => some (s.addWorker i w url n, .returned)
  | .returned => none

/-- The next section of `deregister_worker`. -/
def runDeregister (i : String) (w : ℤ) :
    DeregisterStage → Option (RegistryThreads × DeregisterStage)
  | .start =>
    match s.instances.get? i with
    | some n => some (s, .remove n)
    | none => some (s, .returned)
  | .remove n => some (s.removeWorker w n, .check n)
  | .check n => some (s, if s.hasWorkers n then .returned else .cleanUp n)
  | .cleanUp n => some (s.cleanUp i n, .returned)
  | .returned => none

def setCall (t : ℕ) (c : RegistryCall) : RegistryThreads := { s with calls := s.calls.set t c }

def runCall (t : ℕ) : RegistryCall → Option RegistryThreads
  | .register i w url stage =>
    (s.runRegister i w url stage).map fun p => p.1.setCall t (.register i w url p.2)
  | .deregister i w stage =>
    (s.runDeregister i w stage).map fun p => p.1.setCall t (.deregister i w p.2)

def step (s : RegistryThreads) : RegistryThreadEvent → Option RegistryThreads
  | .register i w url => some { s with calls := s.calls ++ [.register i w url .start] }
  | .deregister i w =>
    some { s with
      calls := s.calls ++ [.deregister i w .start]
      live := s.live.erase (i, w) }
  | .run t => s.calls[t]?.bind (s.runCall t)

def empty : RegistryThreads := ⟨[], Dict.empty, [], ∅⟩

end RegistryThreads

def registryThreads : LTS RegistryThreads RegistryThreadEvent where
  init s := s = .empty
  step s e s' := s.step e = some s'

/-- The instance that a call in progress is about, and whether it registers. -/
def RegistryCall.active : RegistryCall → Option (Bool × String)
  | .register _ _ _ .returned => none
  | .deregister _ _ .returned => none
  | .register i _ _ _ => some (true, i)
  | .deregister i _ _ => some (false, i)

/-- The node that a call of `deregister_worker` holds. -/
def DeregisterStage.node : DeregisterStage → Option ℕ
  | .remove n | .check n | .cleanUp n => some n
  | _ => none

namespace RegistryThreads

/-- A call of one kind does not start while one of the other kind is in progress for the
instance. -/
def Exclusive (s : RegistryThreads) : RegistryThreadEvent → Prop
  | .register i _ _ => ∀ c ∈ s.calls, c.active ≠ some (false, i)
  | .deregister i _ => ∀ c ∈ s.calls, c.active ≠ some (true, i)
  | .run _ => True

instance (s : RegistryThreads) : (e : RegistryThreadEvent) → Decidable (s.Exclusive e)
  | .register i _ _ => inferInstanceAs (Decidable (∀ c ∈ s.calls, c.active ≠ some (false, i)))
  | .deregister i _ => inferInstanceAs (Decidable (∀ c ∈ s.calls, c.active ≠ some (true, i)))
  | .run _ => inferInstanceAs (Decidable True)

/-! ### The invariant -/

def Owns (s : RegistryThreads) (i : String) (n : ℕ) : Prop :=
  ∃ node, s.heap[n]? = some node ∧ node.instanceId = i

def CallOk (s : RegistryThreads) : RegistryCall → Prop
  | .register i _ _ (.add n) => s.instances.get? i = some n
  | .register _ _ _ _ => True
  | .deregister _ _ .returned => True
  | .deregister i w stage => (i, w) ∉ s.live ∧ ∀ n, stage.node = some n →
      s.Owns i n ∧ (s.instances.get? i = none ∨ s.instances.get? i = some n)

structure Linked (s : RegistryThreads) : Prop where
  owner : ∀ i n, s.instances.get? i = some n → s.Owns i n
  live : ∀ i w, (i, w) ∈ s.live → s.getWorker i w ≠ none
  calls : ∀ c ∈ s.calls, s.CallOk c
  exclusive : ∀ c ∈ s.calls, ∀ d ∈ s.calls, ∀ i, c.active = some (true, i) →
    d.active ≠ some (false, i)

variable {s r : RegistryThreads} {t : ℕ} {c : RegistryCall} {i : String} {w : ℤ}
  {url : Option String}

theorem Linked.setCall (h : s.Linked) (hcalls : r.calls = s.calls)
    (howner : ∀ i n, r.instances.get? i = some n → r.Owns i n)
    (hlive : ∀ i w, (i, w) ∈ r.live → r.getWorker i w ≠ none)
    (hothers : ∀ d ∈ s.calls, r.CallOk d) {c' : RegistryCall} (hc : s.calls[t]? = some c)
    (hc' : r.CallOk c') (hactive : c'.active = none ∨ c'.active = c.active) :
    (r.setCall t c').Linked := by
  have hcmem : c ∈ s.calls := mem_of_getElem? hc
  have hmem : ∀ d ∈ (r.setCall t c').calls, d = c' ∨ d ∈ s.calls := fun d hd =>
    (mem_or_eq_of_mem_set hd).elim (fun hd => Or.inr (hcalls ▸ hd)) Or.inl
  have hold : ∀ d ∈ (r.setCall t c').calls, ∀ a, d.active = some a →
      ∃ d' ∈ s.calls, d'.active = some a := by
    grind
  refine ⟨howner, hlive, fun d hd => ?_, fun d hd e he i hdi hei => ?_⟩
  · rcases hmem d hd with rfl | hd
    · exact hc'
    · exact hothers d hd
  · obtain ⟨d', hd', hdi'⟩ := hold d hd _ hdi
    obtain ⟨e', he', hei'⟩ := hold e he _ hei
    exact h.exclusive d' hd' e' he' i hdi' hei'

/-- A call stays as it should be when nodes keep their instances, and the entry of the call's own
instance is the same, or was removed from under a call of `deregister_worker`. -/
theorem CallOk.mono {d : RegistryCall} (h : s.CallOk d) (howns : ∀ i n, s.Owns i n → r.Owns i n)
    (hregister : ∀ i n, d.active = some (true, i) → s.instances.get? i = some n →
      r.instances.get? i = some n) (hderegister : ∀ i, d.active = some (false, i) →
      (r.instances.get? i = s.instances.get? i ∨ r.instances.get? i = none) ∧
        ∀ w, (i, w) ∈ r.live → (i, w) ∈ s.live) : r.CallOk d := by
  have hholds : ∀ {i w stage}, (r.instances.get? i = s.instances.get? i ∨
      r.instances.get? i = none) ∧ (∀ w, (i, w) ∈ r.live → (i, w) ∈ s.live) →
      ((i, w) ∉ s.live ∧ ∀ n, DeregisterStage.node stage = some n →
        s.Owns i n ∧ (s.instances.get? i = none ∨ s.instances.get? i = some n)) →
      ((i, w) ∉ r.live ∧ ∀ n, stage.node = some n →
        r.Owns i n ∧ (r.instances.get? i = none ∨ r.instances.get? i = some n)) := by
    grind
  cases d with
  | register i w url stage =>
    cases stage with
    | add n => exact hregister i n rfl h
    | _ => trivial
  | deregister i w stage =>
    cases stage with
    | returned => trivial
    | _ => exact hholds (hderegister i rfl) h

theorem getWorker_ne_none : s.getWorker i w ≠ none ↔
    ∃ n node, s.instances.get? i = some n ∧ s.heap[n]? = some node ∧ w ∈ node.workers.keys := by
  fun_cases s.getWorker i w
  all_goals simp [get?_eq_none_iff, *]

theorem owns_modify {f : InstanceNode → InstanceNode} {n : ℕ}
    (hheap : r.heap = s.heap.modify n f) (hf : ∀ node, (f node).instanceId = node.instanceId)
    (i : String) (m : ℕ) (h : s.Owns i m) : r.Owns i m := by
  obtain ⟨node, hnode, hi⟩ := h
  unfold Owns
  grind

/-! ### Sections -/

section
variable (h : s.Linked)

include h

theorem Linked.goOn {c' : RegistryCall} (hc : s.calls[t]? = some c)
    (hc' : s.CallOk c') (hactive : c'.active = none ∨ c'.active = c.active) :
    (s.setCall t c').Linked :=
  h.setCall rfl h.owner h.live h.calls hc hc' hactive

/-- **A new instance**: its node is the only one that the tree has for it. -/
theorem Linked.newInstance (hc : s.calls[t]? = some (.register i w url .create))
    (hnone : s.instances.get? i = none) :
    ((s.newInstance i).setCall t (.register i w url (.add s.heap.length))).Linked := by
  have hcmem := mem_of_getElem? hc
  have hold : ∀ {n : ℕ} {node : InstanceNode}, s.heap[n]? = some node →
      (s.newInstance i).heap[n]? = some node := by
    intro n node hnode
    obtain ⟨hlt, -⟩ := List.getElem?_eq_some_iff.mp hnode
    exact (List.getElem?_append_left hlt).trans hnode
  have howns : ∀ j n, s.Owns j n → (s.newInstance i).Owns j n := fun j n ⟨node, hnode, hj⟩ =>
    ⟨node, hold hnode, hj⟩
  have hself : (s.newInstance i).instances.get? i = some s.heap.length :=
    get?_set.trans (if_pos rfl)
  have hget : ∀ {j}, j ≠ i → (s.newInstance i).instances.get? j = s.instances.get? j :=
    fun hj => get?_set.trans (if_neg hj)
  have hne : ∀ {j n}, s.instances.get? j = some n → j ≠ i := by
    grind
  refine h.setCall (r := s.newInstance i) rfl ?_ ?_ ?_ hc hself (Or.inr rfl)
  · intro j n hn
    by_cases hj : j = i
    · rw [hj, hself] at hn
      cases hn
      exact ⟨{ instanceId := i }, by simp [RegistryThreads.newInstance], hj.symm⟩
    · exact howns j n (h.owner j n ((hget hj).symm.trans hn))
  · intro j v hlive
    obtain ⟨n, node, hn, hnode, hv⟩ := getWorker_ne_none.mp (h.live j v hlive)
    exact getWorker_ne_none.mpr ⟨n, node, (hget (hne hn)).trans hn, hold hnode, hv⟩
  · intro d hd
    refine (h.calls d hd).mono howns (fun j n _ hn => (hget (hne hn)).trans hn) fun j hj => ?_
    refine ⟨Or.inl (hget ?_), fun _ => id⟩
    rintro rfl
    exact h.exclusive _ hcmem d hd j rfl hj

/-- **A worker is added** to the node that the tree has for its instance. -/
theorem Linked.addWorker {n : ℕ} (hc : s.calls[t]? = some (.register i w url (.add n))) :
    ((s.addWorker i w url n).setCall t (.register i w url .returned)).Linked := by
  have hcmem := mem_of_getElem? hc
  have hn : s.instances.get? i = some n := h.calls _ hcmem
  have howns : ∀ j m, s.Owns j m → (s.addWorker i w url n).Owns j m :=
    owns_modify rfl fun _ => rfl
  refine h.setCall (r := s.addWorker i w url n) rfl (fun j m hm => howns j m (h.owner j m hm)) ?_ ?_
    hc trivial (Or.inl rfl)
  · intro j v hlive
    rcases Finset.mem_insert.mp hlive with heq | hlive
    · cases heq
      obtain ⟨node, hnode, -⟩ := h.owner i n hn
      refine getWorker_ne_none.mpr
        ⟨n, node.addWorker { workerId := w, peerInitUrl := url }, hn, ?_, ?_⟩
      · show (s.heap.modify n _)[n]? = _
        rw [getElem?_modify, hnode]
        simp
      · exact mem_keys_set.mpr (Or.inl rfl)
    · obtain ⟨m, node, hm, hnode, hv⟩ := getWorker_ne_none.mp (h.live j v hlive)
      refine getWorker_ne_none.mpr ⟨m, if n = m then
        node.addWorker { workerId := w, peerInitUrl := url } else node, hm, ?_, ?_⟩
      · show (s.heap.modify n _)[m]? = _
        rw [getElem?_modify, hnode]
        rfl
      · split_ifs
        · exact mem_keys_set.mpr (Or.inr hv)
        · exact hv
  · intro d hd
    refine (h.calls d hd).mono howns (fun j m _ hm => hm) fun j hj => ⟨Or.inl rfl, fun v hv => ?_⟩
    rcases Finset.mem_insert.mp hv with heq | hv
    · cases heq
      exact absurd hj (h.exclusive _ hcmem d hd i rfl)
    · exact hv

/-- **A worker is removed** from the node of its instance; it is not a live one. -/
theorem Linked.removeWorker {n : ℕ} (hc : s.calls[t]? = some (.deregister i w (.remove n))) :
    ((s.removeWorker w n).setCall t (.deregister i w (.check n))).Linked := by
  obtain ⟨hnot, hnode⟩ := h.calls _ (mem_of_getElem? hc)
  obtain ⟨hown, hget⟩ := hnode n rfl
  have howns : ∀ j m, s.Owns j m → (s.removeWorker w n).Owns j m :=
    owns_modify rfl fun _ => rfl
  refine h.setCall (r := s.removeWorker w n) rfl (fun j m hm => howns j m (h.owner j m hm)) ?_ ?_
    hc ?_ (Or.inr rfl)
  · intro j v hlive
    obtain ⟨m, node, hm, hnode, hv⟩ := getWorker_ne_none.mp (h.live j v hlive)
    refine getWorker_ne_none.mpr ⟨m, if n = m then node.removeWorker w else node, hm, ?_, ?_⟩
    · show (s.heap.modify n _)[m]? = _
      rw [getElem?_modify, hnode]
      rfl
    · split_ifs with hnm
      · subst hnm
        -- The node has one owner, so the worker of the call is another one.
        obtain ⟨node₁, hnode₁, hi⟩ := hown
        obtain ⟨node₂, hnode₂, hj⟩ := h.owner j n hm
        cases hnode₁.symm.trans hnode₂
        refine mem_keys_erase.mpr ⟨?_, hv⟩
        rintro rfl
        exact hnot (hi.symm.trans hj ▸ hlive)
      · exact hv
  · intro d hd
    exact (h.calls d hd).mono howns (fun j m _ hm => hm) fun j _ => ⟨Or.inl rfl, fun _ => id⟩
  · refine ⟨hnot, fun m hm => ?_⟩
    cases hm
    exact ⟨howns i n hown, hget⟩

/-- **An instance is removed** only if the tree has the node without workers for it. -/
theorem Linked.cleanUp {n : ℕ} (hc : s.calls[t]? = some (.deregister i w (.cleanUp n))) :
    ((s.cleanUp i n).setCall t (.deregister i w .returned)).Linked := by
  have hcmem := mem_of_getElem? hc
  obtain ⟨hnot, hnode⟩ := h.calls _ hcmem
  obtain ⟨hown, hget⟩ := hnode n rfl
  unfold RegistryThreads.cleanUp
  split_ifs with hempty
  · have hnobody : s.hasWorkers n = false := by simpa using (Bool.and_eq_true_iff.mp hempty).1
    have herase : ∀ j, (s.instances.erase i).get? j = if j = i then none else s.instances.get? j :=
      fun j => get?_erase
    refine h.setCall (r := { s with instances := s.instances.erase i }) rfl ?_ ?_ ?_ hc trivial
      (Or.inl rfl)
    · intro j m hm
      have hm : (s.instances.erase i).get? j = some m := hm
      rw [herase] at hm
      split_ifs at hm
      exact h.owner j m hm
    · intro j v hlive
      obtain ⟨m, node, hm, hnode, hv⟩ := getWorker_ne_none.mp (h.live j v hlive)
      refine getWorker_ne_none.mpr ⟨m, node, ?_, hnode, hv⟩
      show (s.instances.erase i).get? j = some m
      rw [herase, if_neg ?_, hm]
      rintro rfl
      rcases hget with hnone | hsome
      · cases hnone.symm.trans hm
      · cases hsome.symm.trans hm
        have hlen : node.workers.entries.length = 0 := by
          simpa [hasWorkers, hnode, InstanceNode.hasWorkers] using hnobody
        rw [Dict.keys, length_eq_zero_iff.mp hlen] at hv
        cases hv
    · intro d hd
      refine (h.calls d hd).mono (fun _ _ => id) (fun j m hj hm => ?_) fun j _ => ⟨?_, fun _ => id⟩
      · show (s.instances.erase i).get? j = some m
        rw [herase, if_neg ?_, hm]
        rintro rfl
        exact h.exclusive d hd _ hcmem j hj rfl
      · grind
  · exact h.goOn hc trivial (Or.inl rfl)

/-! ### Runs -/

theorem Linked.runRegister {stage stage' : RegisterStage}
    (hc : s.calls[t]? = some (.register i w url stage))
    (hrun : s.runRegister i w url stage = some (r, stage')) :
    (r.setCall t (.register i w url stage')).Linked := by
  revert hrun
  fun_cases RegistryThreads.runRegister s i w url stage <;> rintro ⟨⟩
  case case1 hn => exact h.goOn hc hn (Or.inr rfl)
  case case2 => exact h.goOn hc trivial (Or.inr rfl)
  case case3 hn => exact h.goOn hc hn (Or.inr rfl)
  case case4 hn => exact h.newInstance hc hn
  case case5 => exact h.addWorker hc

theorem Linked.runDeregister {stage stage' : DeregisterStage}
    (hc : s.calls[t]? = some (.deregister i w stage))
    (hrun : s.runDeregister i w stage = some (r, stage')) :
    (r.setCall t (.deregister i w stage')).Linked := by
  have hok := h.calls _ (mem_of_getElem? hc)
  revert hrun
  fun_cases RegistryThreads.runDeregister s i w stage <;> rintro ⟨⟩
  case case1 n hn =>
    refine h.goOn hc ⟨hok.1, fun m hm => ?_⟩ (Or.inr rfl)
    cases hm
    exact ⟨h.owner i n hn, Or.inr hn⟩
  case case2 => exact h.goOn hc trivial (Or.inl rfl)
  case case3 => exact h.removeWorker hc
  case case4 =>
    split_ifs
    · exact h.goOn hc trivial (Or.inl rfl)
    · exact h.goOn hc hok (Or.inr rfl)
  case case5 => exact h.cleanUp hc

theorem Linked.newCall {live : Finset (String × ℤ)} (hlive : live ⊆ s.live)
    (hc : CallOk { s with live } c)
    (hregister : ∀ i, c.active = some (true, i) → ∀ d ∈ s.calls, d.active ≠ some (false, i))
    (hderegister : ∀ i, c.active = some (false, i) → ∀ d ∈ s.calls, d.active ≠ some (true, i)) :
    Linked { s with calls := s.calls ++ [c], live } := by
  have hkind : ∀ i, c.active = some (true, i) → c.active ≠ some (false, i) := by
    intro i hi
    rw [hi]
    simp
  refine ⟨h.owner, fun i w hmem => h.live i w (hlive hmem), fun d hd => ?_, ?_⟩
  · rcases mem_append.mp hd with hd | hd
    · exact (h.calls d hd).mono (fun _ _ => id) (fun _ _ _ => id) fun i _ =>
        ⟨Or.inl rfl, fun w hw => hlive hw⟩
    · rw [mem_singleton.mp hd]
      exact hc
  · intro d hd e he i hdi hei
    rcases mem_append.mp hd with hd | hd
    · rcases mem_append.mp he with he | he
      · exact h.exclusive d hd e he i hdi hei
      · grind
    · grind

/-- **Every step** of an exclusive run keeps the invariant. -/
theorem Linked.step {e : RegistryThreadEvent} (hok : s.Exclusive e)
    (hstep : s.step e = some r) : r.Linked := by
  cases e with
  | register i w url =>
    cases hstep
    refine h.newCall (Finset.Subset.refl s.live) trivial (fun j hj => ?_) nofun
    cases hj
    exact hok
  | deregister i w =>
    cases hstep
    refine h.newCall (Finset.erase_subset _ _) ⟨Finset.notMem_erase _ _, nofun⟩ nofun fun j hj => ?_
    cases hj
    exact hok
  | run t =>
    obtain ⟨c, hc, hrun⟩ := Option.bind_eq_some_iff.mp hstep
    cases c with
    | register i w url stage =>
      obtain ⟨⟨r', stage'⟩, hsection, rfl⟩ := Option.map_eq_some_iff.mp hrun
      exact h.runRegister hc hsection
    | deregister i w stage =>
      obtain ⟨⟨r', stage'⟩, hsection, rfl⟩ := Option.map_eq_some_iff.mp hrun
      exact h.runDeregister hc hsection

end

/-- **Registered workers are found.**  In every interleaving of calls, as long as no call of
`register_worker` overlaps a call of `deregister_worker` for the same instance, a worker whose
`register_worker` has returned is found, unless a call that deregisters it was started since. -/
theorem registered_worker_found (h : (registryThreads.restrict Exclusive).Reachable s) {i : String}
    {w : ℤ} (hlive : (i, w) ∈ s.live) : ∃ n, s.getWorker i w = some n := by
  have hlinked : s.Linked := by
    refine h.invariant ?_ fun _ _ _ hs hstep => hs.step hstep.1 hstep.2
    rintro s rfl
    exact ⟨nofun, nofun, nofun, nofun⟩
  exact Option.ne_none_iff_exists'.mp (hlinked.live i w hlive)

/-- `n` sections of a thread. -/
def sections (t n : ℕ) : List RegistryThreadEvent := List.replicate n (.run t)

/-- Two registrations are interleaved; then the first worker is deregistered. -/
theorem registered_worker_found_interleaved :
    ∃ s, (registryThreads.restrict Exclusive).Reachable s ∧ ("i", 2) ∈ s.live ∧
      ∃ n, s.getWorker "i" 2 = some n := by
  have hstart : (registryThreads.restrict Exclusive).Reachable .empty := .init rfl
  obtain ⟨s, hs, hmem⟩ := hstart.exists_guard (P := fun s => ("i", 2) ∈ s.live) (fun _ _ _ => id)
    ([.register "i" 1 none, .register "i" 2 none] ++ sections 0 1 ++ sections 1 1 ++
      sections 0 1 ++ sections 1 2 ++ sections 0 1 ++ .deregister "i" 1 :: sections 2 3)
    (by decide +kernel)
  exact ⟨s, hs, hmem, registered_worker_found hs hmem⟩

/-- **Lost registrations.**  Worker 1 is deregistered, and its thread has seen that the instance has
no workers.  Then worker 2 registers: with the node that is about to be removed from the tree, or,
after another thread has removed that node, with a new node, which the first thread removes
instead. -/
theorem registered_worker_lost :
    (∃ s, registryThreads.Reachable s ∧ ("i", 2) ∈ s.live ∧ s.getWorker "i" 2 = none ∧
      ∀ c ∈ s.calls, c.active = none) ∧
    ∃ s, registryThreads.Reachable s ∧ ("i", 2) ∈ s.live ∧ s.getWorker "i" 2 = none ∧
      ∀ c ∈ s.calls, c.active = none := by
  have hstart : registryThreads.Reachable .empty := .init rfl
  refine ⟨?_, ?_⟩
  · exact hstart.exists_replay (fun _ _ _ => id)
      (.register "i" 1 none :: sections 0 3 ++ .deregister "i" 1 :: sections 1 3 ++
        .register "i" 2 none :: sections 2 1 ++ sections 1 1 ++ sections 2 1) (by decide +kernel)
  · exact hstart.exists_replay (fun _ _ _ => id)
      (.register "i" 1 none :: sections 0 3 ++ .deregister "i" 1 :: sections 1 3 ++
        .deregister "i" 9 :: sections 2 4 ++ .register "i" 2 none :: sections 3 3 ++ sections 1 1)
      (by decide +kernel)

end RegistryThreads

end LMCache.Controller
