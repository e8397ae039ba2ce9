import LMCache.Distributed.ReserveWrite

/-! # A log of the writes

The manager does not record whether a write was finished.  Here the successful calls of
`reserve_write` and `finish_write` are logged next to it, newest event first, as the returned
dictionaries tell them.  `Completed` and `Pending` say what happened to a key since its last
successful `reserve_write`.

`l1LogSystem` is the system of all calls with the log.  A call with distinct keys answers
every key once (`nodup_reserveWrite`), so that its log is that of its loops. -/

namespace LMCache

open List L1Manager

/-- A successful `reserve_write`, with the expiration of its lock, or `finish_write`. -/
inductive WriteEvent (K : Type) where
  | reserved (key : K) (expires : ℤ)
  | finished (key : K)
deriving DecidableEq, Repr

def WriteEvent.key {K : Type} : WriteEvent K → K
  | .reserved key _ => key
  | .finished key => key

/-! ### The log -/

section log
variable {K : Type} {log after after' : List (WriteEvent K)} {key : K} {expires expires' : ℤ}
  {ev : WriteEvent K}

/-- The last successful `reserve_write` of the key, and what happened after it. -/
def LastReserved (log : List (WriteEvent K)) (key : K) (expires : ℤ) (after : List (WriteEvent K)) :
    Prop :=
  (∃ before, log = after ++ .reserved key expires :: before) ∧ ∀ t, .reserved key t ∉ after

/-- The last successful `reserve_write` of the key was followed by a successful
`finish_write`. -/
def Completed (log : List (WriteEvent K)) (key : K) : Prop :=
  ∃ expires after, LastReserved log key expires after ∧ .finished key ∈ after

/-- It was not; its lock expires at the time `expires`. -/
def Pending (log : List (WriteEvent K)) (key : K) (expires : ℤ) : Prop :=
  ∃ after, LastReserved log key expires after ∧ .finished key ∉ after

theorem LastReserved.unique (h : LastReserved log key expires after)
    (h' : LastReserved log key expires' after') : expires = expires' ∧ after = after' := by
  obtain ⟨⟨before, rfl⟩, hno⟩ := h
  obtain ⟨⟨before', heq⟩, hno'⟩ := h'
  rcases append_eq_append_iff.mp heq with hlonger | hshorter
  · obtain ⟨rest, rfl, hrest⟩ := hlonger
    cases rest with
    | nil =>
      cases hrest
      exact ⟨rfl, by simp⟩
    | cons ev rest =>
      grind
  · obtain ⟨rest, rfl, hrest⟩ := hshorter
    cases rest with
    | nil =>
      cases hrest
      exact ⟨rfl, by simp⟩
    | cons ev rest =>
      grind

theorem LastReserved.cons (h : LastReserved log key expires after)
    (hev : ∀ t, ev ≠ .reserved key t) : LastReserved (ev :: log) key expires (ev :: after) := by
  obtain ⟨⟨before, rfl⟩, hno⟩ := h
  refine ⟨⟨before, rfl⟩, fun t hmem => ?_⟩
  grind

theorem Pending.not_completed (h : Pending log key expires) : ¬ Completed log key := by
  rintro ⟨expires', after', hlast', hmem⟩
  obtain ⟨after, hlast, hnot⟩ := h
  rw [(hlast.unique hlast').2] at hnot
  exact hnot hmem

theorem Pending.expires_eq (h : Pending log key expires) (h' : Pending log key expires') :
    expires = expires' := by
  obtain ⟨after, hlast, -⟩ := h
  obtain ⟨after', hlast', -⟩ := h'
  exact (hlast.unique hlast').1

theorem pending_reserved (log : List (WriteEvent K)) (key : K) (expires : ℤ) :
    Pending (.reserved key expires :: log) key expires :=
  ⟨[], ⟨⟨log, rfl⟩, fun _ => not_mem_nil⟩, not_mem_nil⟩

theorem Pending.finish (h : Pending log key expires) : Completed (.finished key :: log) key := by
  obtain ⟨after, hlast, -⟩ := h
  exact ⟨expires, _, hlast.cons (by simp), mem_cons_self⟩

theorem Completed.cons (h : Completed log key) (hev : ev.key ≠ key) :
    Completed (ev :: log) key := by
  obtain ⟨expires, after, hlast, hmem⟩ := h
  refine ⟨expires, _, hlast.cons ?_, mem_cons_of_mem _ hmem⟩
  rintro t rfl
  exact hev rfl

theorem Pending.cons (h : Pending log key expires) (hev : ev.key ≠ key) :
    Pending (ev :: log) key expires := by
  obtain ⟨after, hlast, hnot⟩ := h
  refine ⟨_, hlast.cons ?_, fun hmem => ?_⟩
  · rintro t rfl
    exact hev rfl
  · rcases mem_cons.mp hmem with heq | hmem
    · exact hev (heq ▸ rfl)
    · exact hnot hmem

end log

variable {K : Type} {clock : ℕ → ℤ}

/-- The log after an answer of `reserve_write`. -/
def logReserved (ttl : ℤ) (log : List (WriteEvent K)) (a : Answer K L1OperationResult) :
    List (WriteEvent K) :=
  if a.result.1 = .success then .reserved a.item (a.time + ttl) :: log else log

/-- The log after an answer of `finish_write`. -/
def logFinished (log : List (WriteEvent K)) (a : Answer K L1Error) : List (WriteEvent K) :=
  if a.result = .success then .finished a.item :: log else log

/-- The log after an answer of the first loop of `reserve_write`. -/
def logAnswered (ttl : ℤ) (log : List (WriteEvent K))
    (a : Answer (K × Bool) (Option L1OperationResult)) : List (WriteEvent K) :=
  match a.result with
  | none => log
  | some r => logReserved ttl log ⟨a.item.1, r, a.time⟩

theorem foldl_answered (ttl : ℤ) (answers : List (Answer (K × Bool) (Option L1OperationResult)))
    (log : List (WriteEvent K)) :
    (answered answers).foldl (logReserved ttl) log = answers.foldl (logAnswered ttl) log := by
  induction answers generalizing log with
  | nil => rfl
  | cons a answers ih =>
    rw [foldl_cons, ← ih]
    cases hr : a.result <;> simp [answered, logAnswered, hr]

theorem logReserved_of_ne {ttl : ℤ} (log : List (WriteEvent K)) (a : Answer K L1OperationResult)
    (h : a.result.1 ≠ .success) : logReserved ttl log a = log := if_neg h

/-! ### Distinct keys -/

variable (m : L1Manager K)

theorem items_answerAll (keys : List K) (r : L1OperationResult) :
    (m.answerAll clock keys r).map (fun a => a.item) = keys := by
  simp [answerAll, Function.comp_def]

theorem answered_perm (answers : List (Answer (K × Bool) (Option L1OperationResult))) :
    ((answered answers).map (fun a => a.item) ++ (needToAllocate answers).map Prod.fst).Perm
      ((answers.map fun a => a.item).map Prod.fst) := by
  induction answers with
  | nil => exact .nil
  | cons a answers ih =>
    cases hr : a.result with
    | none =>
      simp only [answered, needToAllocate, hr, Option.map_none, filterMap_cons,
        Option.isNone_none, filter_cons_of_pos, map_cons]
      exact perm_middle.trans (ih.cons _)
    | some r =>
      simp only [answered, needToAllocate, hr, Option.map_some, filterMap_cons,
        Option.isNone_some, Bool.false_eq_true, not_false_eq_true, filter_cons_of_neg,
        map_cons, cons_append]
      exact ih.cons _

variable [DecidableEq K]

theorem allocateNew_sublist (y : Layout) (need : List (K × Bool)) :
    ((m.allocateNew clock y need).1.map fun a => a.item).Sublist (need.map Prod.fst) := by
  fun_cases allocateNew
  case case1 => rw [items_answerAll]
  case case2 allocated m₁ ids _ _ =>
    have hitems := items_forItems clock (insertNew clock) m₁ (need.zip ids)
    have hsub := ((zip_sublist need ids).1.map Prod.fst)
    rw [← hitems, map_map, map_map] at hsub
    rw [map_map]
    exact hsub

theorem nodup_reserveWrite {keys : List K} (hkeys : keys.Nodup) (isTemporary : List Bool)
    (y : Layout) (mode : WriteMode) :
    ((m.reserveWrite clock keys isTemporary y mode).answers.map fun a => a.item).Nodup := by
  have hperm := answered_perm
    (m.forItems clock (reserveWriteKey clock mode) (keys.zip isTemporary)).1
  rw [items_forItems] at hperm
  have hnodup := hperm.nodup_iff.mpr (hkeys.sublist (zip_sublist keys isTemporary).1)
  fun_cases reserveWrite
  · exact (nodup_append.mp hnodup).1
  · rw [map_append, items_answerAll]
    exact hnodup
  · rw [map_append]
    exact hnodup.sublist ((List.Sublist.refl _).append (allocateNew_sublist _ _ _))

/-! ### Logged runs -/

/-- The returned dictionary: the last assignment to every key. -/
def returned {R : Type} : List (Answer K R) → List (Answer K R)
  | [] => []
  | a :: answers =>
    if a.item ∈ answers.map (fun a => a.item) then returned answers else a :: returned answers

structure LoggedRun (K : Type) extends L1Run K where
  log : List (WriteEvent K)

/-- The log after a call, from what the call returns. -/
def L1Call.logged (clock : ℕ → ℤ) (m : L1Manager K) (log : List (WriteEvent K)) :
    L1Call K → List (WriteEvent K)
  | .reserveWrite _ keys isTemporary layoutDesc mode =>
    (returned (m.reserveWrite clock keys isTemporary layoutDesc mode).answers).foldl
      (logReserved (m.ttlMs .write)) log
  | .finishWrite _ keys => (returned (m.finishWrite clock keys).answers).foldl logFinished log
  | _ => log

def l1LogSystem (K : Type) [DecidableEq K] (clock : ℕ → ℤ) : LTS (LoggedRun K) (L1Call K) where
  init s := (l1System K clock).init s.toL1Run ∧ s.log = []
  step s c s' := s' = ⟨c.run clock s.toL1Run, c.logged clock s.manager s.log⟩

/-- A call that reserves or finishes writes names every key once. -/
def DistinctKeys (_ : LoggedRun K) : L1Call K → Prop
  | .reserveWrite _ keys _ _ _ => keys.Nodup
  | .finishWrite _ keys => keys.Nodup
  | _ => True

theorem returned_eq_self {R : Type} {answers : List (Answer K R)}
    (h : (answers.map fun a => a.item).Nodup) : returned answers = answers := by
  induction answers with
  | nil => rfl
  | cons a answers ih =>
    rw [map_cons, nodup_cons] at h
    rw [returned, if_neg h.1, ih h.2]

end LMCache
