import LMCache.Lib.Transition
import LMCache.Python
import Mathlib.Algebra.BigOperators.Group.List.Basic
import Mathlib.Algebra.GroupWithZero.Nat

/-! # The weighted semaphore

`WeightedSemaphore` admits the requests of up to half of the chunk budget together and a larger
request alone.  A budget of one chunk has the half `0`: every request is a larger one then, and
taking everything takes nothing.

**Main result**: `semaphore_within_budget`, for a budget of two chunks or more. -/

namespace LMCache

open List

structure WeightedSemaphore where
  concurrentBudgetCap : ℕ
  chunkBudgetCap : ℕ
  currentChunks : ℤ
deriving DecidableEq

namespace WeightedSemaphore
variable (sem : WeightedSemaphore) (n : ℕ)

def new (chunkBudget : ℕ) : WeightedSemaphore :=
  ⟨chunkBudget / 2, chunkBudget, (chunkBudget / 2 : ℕ)⟩

/-- The check of `acquire` before it waits. -/
def check : Except PyError Unit :=
  if sem.chunkBudgetCap < n then
    .error ⟨.valueError, s!"Trying to acquire {n} chunks, Cannot acquire more than " ++
      s!"{sem.chunkBudgetCap} chunksPlease set the max local cpu size to a larger value"⟩
  else .ok ()

/-- The predicate of `wait_for`. -/
def ready : Bool :=
  if n ≤ sem.concurrentBudgetCap then n ≤ sem.currentChunks
  else sem.currentChunks = sem.concurrentBudgetCap

/-- `acquire` after the wait. -/
def take : WeightedSemaphore :=
  { sem with currentChunks := if n ≤ sem.concurrentBudgetCap then sem.currentChunks - n else 0 }

def release : WeightedSemaphore :=
  { sem with
    currentChunks := if n ≤ sem.concurrentBudgetCap then sem.currentChunks + n
      else sem.concurrentBudgetCap }

end WeightedSemaphore

/-! ### The tasks -/

/-- The semaphore, the requests that wait and the admitted ones. -/
structure SemaphoreTasks where
  sem : WeightedSemaphore
  waiting : List ℕ
  held : List ℕ

inductive SemaphoreEvent where
  | acquire (n : ℕ)
  | wake (n : ℕ)
  | release (n : ℕ)

namespace SemaphoreTasks

def grant (s : SemaphoreTasks) (n : ℕ) : SemaphoreTasks :=
  { s with sem := s.sem.take n, held := n :: s.held }

/-- What a task does with the lock of the condition.  A waiting task tests its predicate at any
time, not only when it was notified. -/
def step (s : SemaphoreTasks) : SemaphoreEvent → Option SemaphoreTasks
  | .acquire n =>
    if n = 0 then none
    else match s.sem.check n with
      | .error _ => some s
      | .ok () =>
        if s.sem.ready n then some (s.grant n) else some { s with waiting := n :: s.waiting }
  | .wake n =>
    if n ∈ s.waiting ∧ s.sem.ready n then
      some ({ s with waiting := s.waiting.erase n }.grant n)
    else none
  | .release n =>
    if n ∈ s.held then some { s with sem := s.sem.release n, held := s.held.erase n } else none

def system (chunkBudget : ℕ) : LTS SemaphoreTasks SemaphoreEvent where
  init s := s = ⟨.new chunkBudget, [], []⟩
  step s e s' := s.step e = some s'

/-- A request takes its chunks, and one over the cap takes the cap. -/
structure Inv (chunkBudget : ℕ) (s : SemaphoreTasks) : Prop where
  cap : s.sem.concurrentBudgetCap = chunkBudget / 2
  budget : s.sem.chunkBudgetCap = chunkBudget
  waiting : ∀ n ∈ s.waiting, 1 ≤ n ∧ n ≤ chunkBudget
  held : ∀ n ∈ s.held, 1 ≤ n ∧ n ≤ chunkBudget
  nonneg : 0 ≤ s.sem.currentChunks
  taken : s.sem.currentChunks + (s.held.map (min (chunkBudget / 2))).sum = (chunkBudget / 2 : ℕ)

variable {chunkBudget : ℕ} {s s' : SemaphoreTasks} {n : ℕ}

theorem Inv.grant (h : Inv chunkBudget s) (hn : 1 ≤ n ∧ n ≤ chunkBudget)
    (hready : s.sem.ready n) : Inv chunkBudget (s.grant n) := by
  have htaken := h.taken
  have hnonneg := h.nonneg
  simp only [WeightedSemaphore.ready, h.cap] at hready
  refine ⟨h.cap, h.budget, h.waiting, forall_mem_cons.mpr ⟨hn, h.held⟩, ?_, ?_⟩ <;>
    simp only [SemaphoreTasks.grant, WeightedSemaphore.take, h.cap, map_cons, sum_cons] <;>
    split_ifs at hready ⊢ <;> simp only [decide_eq_true_eq] at hready <;> omega

theorem Inv.release (h : Inv chunkBudget s) (hn : n ∈ s.held) :
    Inv chunkBudget { s with sem := s.sem.release n, held := s.held.erase n } := by
  have htaken := h.taken
  have hnonneg := h.nonneg
  have herase := sum_map_erase (min (chunkBudget / 2)) hn
  refine ⟨h.cap, h.budget, h.waiting, fun m hm => h.held m (mem_of_mem_erase hm), ?_, ?_⟩ <;>
    simp only [WeightedSemaphore.release, h.cap] <;> split_ifs <;> omega

theorem Inv.step (h : Inv chunkBudget s) {e : SemaphoreEvent} (hstep : s.step e = some s') :
    Inv chunkBudget s' := by
  have hsize : ∀ n, ¬ n = 0 → s.sem.check n = .ok () → 1 ≤ n ∧ n ≤ chunkBudget := by
    intro n hn hok
    unfold WeightedSemaphore.check at hok
    have := h.budget
    split_ifs at hok
    omega
  revert hstep
  fun_cases SemaphoreTasks.step s e <;> intro hstep <;> cases hstep
  case case2 => exact h
  case case3 n hn hok hready => exact h.grant (hsize n hn hok) hready
  case case4 n hn hok _ =>
    exact { h with waiting := forall_mem_cons.mpr ⟨hsize n hn hok, h.waiting⟩ }
  case case5 n hn =>
    have herase : Inv chunkBudget { s with waiting := s.waiting.erase n } :=
      { h with waiting := fun m hm => h.waiting m (mem_of_mem_erase hm) }
    exact herase.grant (h.waiting n hn.1) hn.2
  case case7 n hn => exact h.release hn

/-- What is left beside a request over the cap takes nothing. -/
theorem Inv.alone (h : Inv chunkBudget s) (hbudget : 2 ≤ chunkBudget) (hn : n ∈ s.held)
    (hlarge : chunkBudget / 2 < n) : s.held = [n] := by
  have htaken := h.taken
  have hnonneg := h.nonneg
  have herase := sum_map_erase (min (chunkBudget / 2)) hn
  have hrest : s.held.erase n = [] := by
    refine eq_nil_iff_forall_not_mem.mpr fun m hm => ?_
    have hleft := sum_map_erase (min (chunkBudget / 2)) hm
    have hpos := (h.held m (mem_of_mem_erase hm)).1
    omega
  exact (erase_eq_nil_iff.mp hrest).resolve_left (ne_nil_of_mem hn)

/-- **The budget is kept** by every interleaving when it has two chunks or more: the admitted
requests fit into it, the count stays within the cap, and a request over the cap is admitted
alone. -/
theorem semaphore_within_budget (hbudget : 2 ≤ chunkBudget)
    (h : (system chunkBudget).Reachable s) : s.held.sum ≤ chunkBudget ∧
      0 ≤ s.sem.currentChunks ∧ s.sem.currentChunks ≤ s.sem.concurrentBudgetCap ∧
      ∀ n ∈ s.held, s.sem.concurrentBudgetCap < n → s.held = [n] := by
  have hinv : Inv chunkBudget s := by
    refine h.invariant ?_ fun s e s' hs hstep => hs.step hstep
    rintro s rfl
    exact ⟨rfl, rfl, by simp, by simp, Int.natCast_nonneg _, Int.add_zero _⟩
  have htaken := hinv.taken
  rw [hinv.cap]
  refine ⟨?_, hinv.nonneg, by omega, fun n hn hlarge => hinv.alone hbudget hn hlarge⟩
  by_cases hsmall : ∀ n ∈ s.held, n ≤ chunkBudget / 2
  · have hsame : s.held.map (min (chunkBudget / 2)) = s.held.map id :=
      map_congr_left fun n hn => Nat.min_eq_right (hsmall n hn)
    rw [hsame, map_id] at htaken
    have := hinv.nonneg
    omega
  · simp only [not_forall] at hsmall
    obtain ⟨n, hn, hlarge⟩ := hsmall
    rw [hinv.alone hbudget hn (Nat.lt_of_not_le hlarge), sum_singleton]
    exact (hinv.held n hn).2

/-- A request for three of four chunks, while a small one waits. -/
theorem semaphore_within_budget_four : ∃ s, (system 4).Reachable s ∧ s.held = [3] ∧
    s.waiting = [1] ∧ s.held.sum ≤ 4 := by
  have hstart : (system 4).Reachable ⟨.new 4, [], []⟩ := .init rfl
  obtain ⟨s, hs, hheld, hwaiting⟩ := hstart.exists_replay (fun _ _ _ => id)
    (P := fun s => s.held = [3] ∧ s.waiting = [1]) [.acquire 3, .acquire 1]
    (by decide +kernel)
  exact ⟨s, hs, hheld, hwaiting, (semaphore_within_budget (by decide) hs).1⟩

/-- **With a budget of one chunk** two requests are admitted together. -/
theorem semaphore_of_one_exceeded : ∃ s, (system 1).Reachable s ∧ s.held = [1, 1] ∧
    1 < s.held.sum ∧ s.sem.concurrentBudgetCap < 1 := by
  have hstart : (system 1).Reachable ⟨.new 1, [], []⟩ := .init rfl
  exact hstart.exists_replay (fun _ _ _ => id) [.acquire 1, .acquire 1] (by decide +kernel)

end SemaphoreTasks

end LMCache
