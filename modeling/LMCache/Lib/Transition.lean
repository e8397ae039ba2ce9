import Mathlib.Logic.Basic

/-! # Labelled transition systems

A system is a predicate of initial states and a labelled step relation.  `Reachable` is
the set of states reached by finite runs; `Inductive I` says that `I` holds initially and
is kept by every step, and `Reachable.invariant` is the invariant rule.

`restrict ok` keeps the steps that meet `ok` in the state they are taken from, so that
"every run whose steps all meet the condition" is a statement about the reachable states
of `S.restrict ok`. -/

/-- A labelled transition system over states `σ` and events `ε`. -/
structure LTS (σ ε : Type) where
  init : σ → Prop
  step : σ → ε → σ → Prop

namespace LTS

variable {σ ε : Type} (S : LTS σ ε)

/-- The states reached by the finite runs of `S`. -/
inductive Reachable : σ → Prop
  | init {s : σ} : S.init s → Reachable s
  | step {s s' : σ} {e : ε} : Reachable s → S.step s e s' → Reachable s'

/-- `I` holds initially and every step keeps it. -/
structure Inductive (I : σ → Prop) : Prop where
  init : ∀ s, S.init s → I s
  step : ∀ s e s', I s → S.step s e s' → I s'

variable {S} {s : σ} {ok : σ → ε → Prop} {f : σ → ε → Option σ}

/-- **Invariant rule**: what holds initially and is kept by every step holds in every reachable
state. -/
theorem Reachable.invariant {I : σ → Prop} (h : S.Reachable s) (hinit : ∀ s, S.init s → I s)
    (hstep : ∀ s e s', I s → S.step s e s' → I s') : I s := by
  induction h with
  | init h => exact hinit _ h
  | step _ hs ih => exact hstep _ _ _ ih hs

theorem Inductive.reachable {I : σ → Prop} (hI : S.Inductive I) (h : S.Reachable s) : I s :=
  h.invariant hI.init hI.step

variable (S)

/-- The system whose steps are those of `S` that meet `ok`. -/
def restrict (ok : σ → ε → Prop) : LTS σ ε where
  init := S.init
  step s e s' := ok s e ∧ S.step s e s'

variable {S}

/-- A run of the restricted system is a run of the system. -/
theorem Reachable.of_restrict (h : (S.restrict ok).Reachable s) : S.Reachable s := by
  induction h with
  | init h => exact .init h
  | step _ hs ih => exact .step ih hs.2

/-- Replaying events with a total step function. -/
theorem Reachable.foldl {f : σ → ε → σ} (hf : ∀ s e, S.step s e (f s e)) (es : List ε)
    (h : S.Reachable s) : S.Reachable (es.foldl f s) := by
  induction es generalizing s with
  | nil => exact h
  | cons e es ih => exact ih (.step h (hf s e))

/-- Replaying events with an executable step function. -/
theorem Reachable.replay (hf : ∀ s e s', f s e = some s' → S.step s e s') (es : List ε) {s' : σ}
    (h : S.Reachable s) (hrun : es.foldlM f s = some s') : S.Reachable s' := by
  induction es generalizing s with
  | nil =>
    grind
  | cons e es ih =>
    rw [List.foldlM_cons] at hrun
    obtain ⟨s₁, hs₁, hrest⟩ := Option.bind_eq_some_iff.mp hrun
    exact ih (.step h (hf s e s₁ hs₁)) hrest

/-- What holds in the state after a run holds in a reachable state. -/
theorem Reachable.exists_replay (hf : ∀ s e s', f s e = some s' → S.step s e s') (es : List ε)
    (h : S.Reachable s) {P : σ → Prop} (hrun : ∃ s' ∈ es.foldlM f s, P s') :
    ∃ s', S.Reachable s' ∧ P s' := by
  obtain ⟨s', hs', hP⟩ := hrun
  exact ⟨s', Reachable.replay hf es h hs', hP⟩

/-- A step function that stops at an event which does not meet a condition. -/
def guard (ok : σ → ε → Prop) [∀ s e, Decidable (ok s e)] (f : σ → ε → Option σ) (s : σ) (e : ε) :
    Option σ := if ok s e then f s e else none

/-- What holds in the state after a run whose events all meet a condition holds in a state that is
reachable with such events. -/
theorem Reachable.exists_guard [∀ s e, Decidable (ok s e)]
    (hf : ∀ s e s', f s e = some s' → S.step s e s') (es : List ε)
    (h : (S.restrict ok).Reachable s) {P : σ → Prop}
    (hrun : ∃ s' ∈ es.foldlM (guard ok f) s, P s') : ∃ s', (S.restrict ok).Reachable s' ∧ P s' := by
  refine exists_replay (fun s e s' hstep => ?_) es h hrun
  by_cases hok : ok s e
  · rw [guard, if_pos hok] at hstep
    exact ⟨hok, hf s e s' hstep⟩
  · rw [guard, if_neg hok] at hstep
    cases hstep

/-- Replaying events that all meet a condition which can be checked. -/
theorem Reachable.replay_restrict [∀ s e, Decidable (ok s e)] {f : σ → ε → σ}
    (hf : ∀ s e, S.step s e (f s e)) (es : List ε) (h : (S.restrict ok).Reachable s)
    (hok : (es.foldlM (fun s e => if ok s e then some (f s e) else none) s).isSome = true) :
    (S.restrict ok).Reachable (es.foldl f s) := by
  induction es generalizing s with
  | nil => exact h
  | cons e es ih =>
    rw [List.foldlM_cons] at hok
    by_cases he : ok s e
    · rw [if_pos he] at hok
      exact ih (.step h ⟨he, hf s e⟩) hok
    · simp [he] at hok

end LTS
