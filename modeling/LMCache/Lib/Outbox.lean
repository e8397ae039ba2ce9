import LMCache.Lib.Transition
import Mathlib.Data.Finset.Basic

/-! # Announcing the changes of a set

The sections of a system change a set of keys, and every change is announced by a message.  A
section sends its messages itself, or it leaves them to its thread, which sends them some time after
the section has ended.  The queue of the receiver then need not have the messages in the order of
the changes.

* `Change`: a key is added or dropped; `applyAll` carries changes out.
* `Announcer`: a system with its set of keys and its messages, in the order of the changes.
* `Announcer.outbox`: the runs of the system together with the threads that send.
* `Announcer.Unrivalled`: no section changes the key while a thread still has a message about it.

**Main results**: `getLast?_changes`, the last change of a key tells whether it is in the set;
`Announcer.queue_in_order`, the messages about a key without rivals are queued in the order of the
changes. -/

/-- A change of a set of keys. -/
inductive Change (K : Type) where
  | add (k : K)
  | drop (k : K)
deriving DecidableEq, Repr

namespace Change

open List

variable {K : Type} [DecidableEq K]

def key : Change K → K
  | .add k => k
  | .drop k => k

/-- A key that is added is new, and one that is dropped is there. -/
def apply (keys : Finset K) : Change K → Option (Finset K)
  | .add k => if k ∈ keys then none else some (insert k keys)
  | .drop k => if k ∈ keys then some (keys.erase k) else none

def applyAll (keys : Finset K) (l : List (Change K)) : Option (Finset K) :=
  l.foldlM Change.apply keys

/-- The changes of one key. -/
def only (k : K) (l : List (Change K)) : List (Change K) := l.filter fun c => c.key = k

@[simp] theorem only_nil (k : K) : only k [] = [] := rfl

@[simp] theorem only_append (k : K) (l l' : List (Change K)) :
    only k (l ++ l') = only k l ++ only k l' := filter_append ..

theorem only_singleton (k : K) (c : Change K) : only k [c] = if c.key = k then [c] else [] := by
  by_cases h : c.key = k <;> simp [only, h]

theorem only_eq_nil {k : K} {l : List (Change K)} (h : k ∉ l.map key) : only k l = [] := by
  refine filter_eq_nil_iff.mpr fun c hc => ?_
  simpa using fun heq => h (mem_map.mpr ⟨c, hc, heq⟩)

/-- **The last change** of a key tells whether it is in the set. -/
theorem getLast?_changes {l : List (Change K)} {keys : Finset K} (h : applyAll ∅ l = some keys)
    (k : K) : (only k l).getLast? = some (.add k) ↔ k ∈ keys := by
  induction l using reverseRecOn generalizing keys with
  | nil =>
    cases h
    simp
  | append_singleton l c ih =>
    unfold applyAll at h ih
    rw [foldlM_append, Option.bind_eq_bind, Option.bind_eq_some_iff] at h
    obtain ⟨keys', hl, hc⟩ := h
    simp only [foldlM_cons, foldlM_nil, bind_pure] at hc
    rw [only_append, only_singleton]
    cases c with
    | add k' | drop k' =>
      simp only [apply] at hc
      split_ifs at hc
      cases hc
      by_cases hk : k' = k
      · subst hk
        simp [key]
      · simp [key, hk, Ne.symm hk, ih hl]

end Change

/-! ### Announcers -/

/-- A system whose messages are about the changes of its keys.  A section that leaves its messages
to the thread has at most one. -/
structure Announcer (σ ε K μ : Type) where
  system : LTS σ ε
  keys : σ → Finset K
  messages : σ → List μ
  message : Change K → μ
  deferred : σ → ε → Bool
  init_keys : ∀ s, system.init s → keys s = ∅
  init_messages : ∀ s, system.init s → messages s = []
  single : ∀ s e s', system.step s e s' → deferred s e = true →
    (messages s').length ≤ (messages s).length + 1

/-- The state of the system, all changes in order, the messages that threads have still to send, and
the queue of the receiver. -/
structure Outbox (σ K : Type) where
  state : σ
  log : List (Change K)
  pending : List (Change K)
  queue : List (Change K)

/-- A section with its changes, or a thread that sends a message. -/
inductive OutboxEvent (ε K : Type) where
  | run (e : ε) (l : List (Change K))
  | send (i : ℕ)

namespace Announcer

open List Change

variable {σ ε K μ : Type} [DecidableEq K] (A : Announcer σ ε K μ)

/-- From `s` to `s'` the changes `l` were made and announced. -/
def Emits (s s' : σ) (l : List (Change K)) : Prop :=
  Change.applyAll (A.keys s) l = some (A.keys s') ∧ A.messages s' = A.messages s ++ l.map A.message

variable {s' : σ} {k : K} {l : List (Change K)} {o : Outbox σ K}

/-- The state after a section. -/
def after (o : Outbox σ K) (e : ε) (s' : σ) (l : List (Change K)) : Outbox σ K :=
  if A.deferred o.state e then ⟨s', o.log ++ l, o.pending ++ l, o.queue⟩
  else ⟨s', o.log ++ l, o.pending, o.queue ++ l⟩

/-- The thread with number `i` sends its message. -/
def sent (o : Outbox σ K) (i : ℕ) (c : Change K) : Outbox σ K :=
  { o with pending := o.pending.eraseIdx i, queue := o.queue ++ [c] }

/-- The runs of the system and of the threads that send. -/
def outbox : LTS (Outbox σ K) (OutboxEvent ε K) where
  init o := ∃ s, A.system.init s ∧ o = ⟨s, [], [], []⟩
  step o e o' :=
    match e with
    | .run e l => ∃ s', A.system.step o.state e s' ∧ A.Emits o.state s' l ∧ o' = A.after o e s' l
    | .send i => ∃ c, o.pending[i]? = some c ∧ o' = sent o i c

/-- The outbox of a system whose steps are computed. -/
def next [DecidableEq μ] (f : σ → ε → Option σ) (o : Outbox σ K) :
    OutboxEvent ε K → Option (Outbox σ K)
  | .run e l => (f o.state e).bind fun s' =>
    if Change.applyAll (A.keys o.state) l = some (A.keys s') ∧
      A.messages s' = A.messages o.state ++ l.map A.message then some (A.after o e s' l) else none
  | .send i => o.pending[i]?.map (sent o i)

theorem next_step [DecidableEq μ] {f : σ → ε → Option σ}
    (hf : ∀ s e s', f s e = some s' → A.system.step s e s') (o : Outbox σ K)
    (e : OutboxEvent ε K) (o' : Outbox σ K) (h : A.next f o e = some o') :
    A.outbox.step o e o' := by
  cases e with
  | run e l =>
    obtain ⟨s', hs, hif⟩ := Option.bind_eq_some_iff.mp h
    split_ifs at hif with hl
    exact ⟨s', hf _ _ _ hs, hl, (Option.some.inj hif).symm⟩
  | send i =>
    obtain ⟨c, hc, heq⟩ := Option.map_eq_some_iff.mp h
    exact ⟨c, hc, heq.symm⟩

/-- No section changes the key while a thread has a message about it. -/
def Unrivalled (k : K) (o : Outbox σ K) : OutboxEvent ε K → Prop
  | .run _ l => k ∈ l.map Change.key → k ∉ o.pending.map Change.key
  | .send _ => True

instance (k : K) (o : Outbox σ K) : (e : OutboxEvent ε K) → Decidable (Unrivalled k o e)
  | .run _ l => inferInstanceAs (Decidable (k ∈ l.map Change.key → k ∉ o.pending.map Change.key))
  | .send _ => inferInstanceAs (Decidable True)

variable {A}

/-- The log is what the system has done and announced. -/
structure Logged (A : Announcer σ ε K μ) (o : Outbox σ K) : Prop where
  keys : Change.applyAll ∅ o.log = some (A.keys o.state)
  messages : A.messages o.state = o.log.map A.message

theorem Logged.after (h : A.Logged o) {e : ε} (hl : A.Emits o.state s' l) :
    A.Logged (A.after o e s' l) := by
  have hlog : (A.after o e s' l).log = o.log ++ l ∧ (A.after o e s' l).state = s' := by
    unfold Announcer.after
    split_ifs <;> exact ⟨rfl, rfl⟩
  refine ⟨?_, ?_⟩
  · have hkeys := h.keys
    unfold applyAll at hkeys ⊢
    rw [hlog.1, hlog.2, foldlM_append, hkeys]
    exact hl.1
  · rw [hlog.1, hlog.2, map_append, ← h.messages]
    exact hl.2

/-- **The log** of every run. -/
theorem logged_reachable (h : A.outbox.Reachable o) : A.Logged o := by
  refine h.invariant ?_ ?_
  · rintro o ⟨s, hs, rfl⟩
    exact ⟨by rw [A.init_keys s hs]; rfl, A.init_messages s hs⟩
  · rintro o (⟨e, l⟩ | i) o' ho hstep
    · obtain ⟨s', -, hl, rfl⟩ := hstep
      exact ho.after hl
    · obtain ⟨c, -, rfl⟩ := hstep
      exact ⟨ho.keys, ho.messages⟩

/-- The queue and the pending message about a key are the changes of the key. -/
structure InOrder (k : K) (o : Outbox σ K) : Prop where
  order : Change.only k o.queue ++ Change.only k o.pending = Change.only k o.log
  pending : (Change.only k o.pending).length ≤ 1

omit [DecidableEq K] in
theorem eraseIdx_split {i : ℕ} {c : Change K} (h : l[i]? = some c) :
    ∃ l₁ l₂, l = l₁ ++ c :: l₂ ∧ l.eraseIdx i = l₁ ++ l₂ := by
  obtain ⟨hi, rfl⟩ := List.getElem?_eq_some_iff.mp h
  refine ⟨l.take i, l.drop (i + 1), ?_, List.eraseIdx_eq_take_drop_succ ..⟩
  rw [cons_getElem_drop_succ, take_append_drop]

theorem InOrder.sent (h : InOrder k o) {i : ℕ} {c : Change K} (hc : o.pending[i]? = some c) :
    InOrder k (sent o i c) := by
  obtain ⟨l₁, l₂, hpending, herase⟩ := eraseIdx_split hc
  have horder := h.order
  have hlen := h.pending
  rw [hpending, ← singleton_append, only_append, only_append, Change.only_singleton] at horder hlen
  unfold Announcer.sent
  rw [herase]
  by_cases hk : c.key = k
  · -- The message is the only one about the key.
    rw [if_pos hk, length_append, length_append, length_singleton] at hlen
    have h₁ : only k l₁ = [] := length_eq_zero_iff.mp (by omega)
    have h₂ : only k l₂ = [] := length_eq_zero_iff.mp (by omega)
    rw [if_pos hk, h₁, h₂] at horder
    refine ⟨?_, ?_⟩
    · simpa [only_singleton, hk, h₁, h₂] using horder
    · simp [h₁, h₂]
  · rw [if_neg hk] at horder hlen
    refine ⟨?_, ?_⟩
    · simpa [only_singleton, hk] using horder
    · simpa using hlen

theorem InOrder.after (h : InOrder k o) {e : ε} (hstep : A.system.step o.state e s')
    (hl : A.Emits o.state s' l) (hok : k ∈ l.map Change.key → k ∉ o.pending.map Change.key) :
    InOrder k (A.after o e s' l) := by
  have hfree : only k l = [] ∨ only k o.pending = [] := by
    by_cases hk : k ∈ l.map key
    · exact Or.inr (only_eq_nil (hok hk))
    · exact Or.inl (only_eq_nil hk)
  have horder := h.order
  have hpending := h.pending
  unfold Announcer.after
  by_cases hd : A.deferred o.state e = true
  · have hsingle := A.single _ _ _ hstep hd
    rw [hl.2, length_append, length_map] at hsingle
    have hlen : (only k l).length ≤ l.length := length_filter_le ..
    rw [if_pos hd]
    refine ⟨?_, ?_⟩
    · rw [only_append, only_append, ← horder, append_assoc]
    · rw [only_append, length_append]
      grind
  · rw [if_neg hd]
    refine ⟨?_, hpending⟩
    rw [only_append, only_append, ← horder]
    grind

/-- **Messages in order**: those about a key without rivals are queued in the order of its
changes. -/
theorem queue_in_order (h : (A.outbox.restrict (Unrivalled k)).Reachable o) : InOrder k o := by
  refine h.invariant ?_ ?_
  · rintro o ⟨s, -, rfl⟩
    exact ⟨rfl, Nat.zero_le 1⟩
  · rintro o (⟨e, l⟩ | i) o' ho ⟨hok, hstep⟩
    · obtain ⟨s', hs, hl, rfl⟩ := hstep
      exact ho.after hs hl hok
    · obtain ⟨c, hc, rfl⟩ := hstep
      exact ho.sent hc

/-- The log is what the system has announced; the messages about the key are queued in the order of
the log; and when none of them is pending, the last one in the queue tells whether the key is
there. -/
structure Announced (A : Announcer σ ε K μ) (k : K) (o : Outbox σ K) : Prop where
  messages : A.messages o.state = o.log.map A.message
  order : Change.only k o.queue ++ Change.only k o.pending = Change.only k o.log
  last : k ∉ o.pending.map Change.key →
    ((Change.only k o.queue).getLast? = some (.add k) ↔ k ∈ A.keys o.state)

theorem announced_reachable (h : (A.outbox.restrict (Unrivalled k)).Reachable o) :
    A.Announced k o := by
  have hlogged := logged_reachable h.of_restrict
  have horder := (queue_in_order h).order
  refine ⟨hlogged.messages, horder, fun hpending => ?_⟩
  rw [only_eq_nil hpending, append_nil] at horder
  rw [horder]
  exact getLast?_changes hlogged.keys k

end Announcer
