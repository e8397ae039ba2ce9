import LMCache.Distributed.CollectedObjects
import LMCache.Distributed.EntryInvariant
import LMCache.Distributed.LRUEvictionPolicy
import Mathlib.Data.Rat.Floor

/-! # Eviction rounds

`get_eviction_actions` names the first keys of `_order`, as many as the ratio asks for; a round of
the eviction loop deletes them when the memory usage has reached the watermark.

* **Recency.**  A history is the list of the single events, the newest one first.  `Tracked` and
  `lastUse` are defined on it alone: a key is tracked if it was created and not removed since, and
  its last use is the time of its last creation or touch.  `order_after` says that `_order` has
  exactly the tracked keys, in the order of their last uses.
* **Locks.**  The policy knows nothing of locks.  A victim that is locked is skipped by `delete`,
  and the next round names it again, since its place in `_order` does not change.

**Main results**: `lru_picks_oldest`, `eviction_progress`. -/

namespace LMCache

open List

variable {K : Type} [DecidableEq K]

/-! ### The code -/

inductive EvictionDestination where
  | discard
  | l2Cache
deriving DecidableEq, Repr

structure EvictionAction (K : Type) where
  keys : List K
  destination : EvictionDestination
deriving DecidableEq, Repr

/-- `target_count`, for `n` tracked keys. -/
def targetCount (n : ℕ) (expectedRatio : ℚ) : ℕ :=
  let ratio := max 0 (min 1 expectedRatio)
  let target := ((n : ℚ) * ratio).floor.toNat
  if 0 < ratio ∧ target = 0 ∧ 0 < n then 1 else target

namespace LRUEvictionPolicy

/-- `get_eviction_actions`; the first registered destination, or the default one. -/
def getEvictionActions (p : LRUEvictionPolicy K) (destinations : List EvictionDestination)
    (default : EvictionDestination) (expectedRatio : ℚ) : List (EvictionAction K) :=
  if p.order.keys.isEmpty then []
  else
    let target := targetCount p.order.keys.length expectedRatio
    if target = 0 then []
    else [⟨p.order.keys.take target, destinations.head?.getD default⟩]

end LRUEvictionPolicy

namespace EvictionRun

/-- The memory usage as the eviction loop computes it. -/
def usage (s : EvictionRun K) : ℚ :=
  let (usedBytes, totalBytes) := s.manager.memoryManager.getMemoryUsage
  if totalBytes = 0 then 0 else usedBytes / totalBytes

/-- A round of `_eviction_loop`; every destination is treated as `DISCARD`. -/
def evictionRound (clock : ℕ → ℤ) (watermark evictionRatio : ℚ) (s : EvictionRun K) :
    EvictionRun K :=
  if s.usage < watermark then s
  else
    (s.policy.getEvictionActions [] .discard evictionRatio).foldl
      (fun s action => s.run clock (.delete action.keys)) s

def victims (evictionRatio : ℚ) (s : EvictionRun K) : List K :=
  s.policy.order.keys.take (targetCount s.policy.order.keys.length evictionRatio)

end EvictionRun

/-! ### Recency -/

inductive PolicyEvent where
  | created
  | touched
  | removed
deriving DecidableEq, Repr

/-- The history of single events, the newest one first. -/
abbrev History (K : Type) := List (PolicyEvent × K)

namespace History

def Tracked (key : K) : History K → Prop
  | [] => False
  | (e, k) :: h =>
    if k = key then
      match e with
      | .created => True
      | .touched => Tracked key h
      | .removed => False
    else Tracked key h

instance decidableTracked (key : K) : (h : History K) → Decidable (Tracked key h)
  | [] => inferInstanceAs (Decidable False)
  | (e, k) :: h =>
    have : Decidable (Tracked key h) := decidableTracked key h
    if hk : k = key then
      match e with
      | .created => .isTrue (by simp [Tracked, hk])
      | .touched => decidable_of_iff (Tracked key h) (by simp [Tracked, hk])
      | .removed => .isFalse (by simp [Tracked, hk])
    else decidable_of_iff (Tracked key h) (by simp [Tracked, hk])

/-- The time of the last creation or touch, from 1 on. -/
def lastUse (key : K) : History K → ℕ
  | [] => 0
  | (e, k) :: h => if k = key ∧ e ≠ .removed then h.length + 1 else lastUse key h

def trackedKeys (h : History K) : List K := (h.map Prod.snd).dedup.filter fun k => Tracked k h

theorem lastUse_le (key : K) (h : History K) : lastUse key h ≤ h.length := by
  induction h with
  | nil => exact le_rfl
  | cons e h ih =>
    rw [lastUse, length_cons]
    split_ifs <;> omega

theorem mem_of_tracked {key : K} {h : History K} (ht : Tracked key h) : key ∈ h.map Prod.snd := by
  induction h with
  | nil => exact ht.elim
  | cons e h ih =>
    obtain ⟨e, k⟩ := e
    by_cases hk : k = key
    · simp [hk]
    · simp only [Tracked, if_neg hk] at ht
      exact mem_cons_of_mem _ (ih ht)

end History

namespace LRUEvictionPolicy

open History

def on (p : LRUEvictionPolicy K) : PolicyEvent × K → LRUEvictionPolicy K
  | (.created, key) => p.onKeysCreated [key]
  | (.touched, key) => p.onKeysTouched [key]
  | (.removed, key) => p.onKeysRemoved [key]

def call (p : LRUEvictionPolicy K) : PolicyEvent × List K → LRUEvictionPolicy K
  | (.created, keys) => p.onKeysCreated keys
  | (.touched, keys) => p.onKeysTouched keys
  | (.removed, keys) => p.onKeysRemoved keys

def historyOf (calls : List (PolicyEvent × List K)) : History K :=
  (calls.flatMap fun c => c.2.map fun key => (c.1, key)).reverse

theorem call_eq (p : LRUEvictionPolicy K) (c : PolicyEvent × List K) :
    p.call c = (c.2.map fun key => (c.1, key)).foldl on p := by
  obtain ⟨e, keys⟩ := c
  rw [foldl_map]
  cases e <;> rfl

theorem foldl_call (calls : List (PolicyEvent × List K)) (p : LRUEvictionPolicy K) :
    calls.foldl call p = (historyOf calls).foldr (fun e p => p.on e) p := by
  rw [historyOf, foldr_reverse]
  induction calls generalizing p with
  | nil => rfl
  | cons c calls ih => rw [foldl_cons, ih, call_eq, flatMap_cons, foldl_append]

theorem keys_moveToEnd (d : Dict K Unit) {key : K} (h : key ∈ d.keys) :
    ∃ d', d.moveToEnd key = some d' ∧ d'.keys = d.keys.filter (· ≠ key) ++ [key] := by
  obtain ⟨v, hv⟩ := Dict.mem_keys_iff.mp h
  refine ⟨_, by rw [Dict.moveToEnd, hv]; rfl, ?_⟩
  rw [Dict.keys, Dict.entries_set_of_notMem (by simp), map_append]
  simp [Dict.erase, Dict.filterKeys, Dict.keys, filter_map, Function.comp_def]

theorem moveToEnd_of_notMem (d : Dict K Unit) {key : K} (h : key ∉ d.keys) :
    d.moveToEnd key = none := by
  rw [Dict.moveToEnd, Dict.get?_eq_none_iff.mpr h]
  rfl

/-- **A single event** moves its key to the end, or takes it away. -/
theorem keys_on (p : LRUEvictionPolicy K) (e : PolicyEvent) (key : K) :
    (p.on (e, key)).order.keys =
      if e = .removed then p.order.keys.filter (· ≠ key)
      else if e = .created ∨ key ∈ p.order.keys then p.order.keys.filter (· ≠ key) ++ [key]
      else p.order.keys := by
  by_cases hmem : key ∈ p.order.keys
  · obtain ⟨d', hd, hkeys⟩ := keys_moveToEnd p.order hmem
    cases e with
    | created => simp [on, onKeysCreated, hd, hkeys]
    | touched => simp [on, onKeysTouched, hd, hkeys, hmem]
    | removed => simp [on, onKeysRemoved, Dict.erase, Dict.filterKeys, Dict.keys, filter_map,
        Function.comp_def]
  · have hnone := moveToEnd_of_notMem p.order hmem
    have hfilter : p.order.keys.filter (· ≠ key) = p.order.keys :=
      filter_eq_self.mpr fun k hk => decide_eq_true fun heq => hmem (heq ▸ hk)
    cases e with
    | created =>
      simp only [on, onKeysCreated, foldl_cons, foldl_nil, hnone, Option.getD_none, hfilter]
      simp [Dict.keys, Dict.entries_set_of_notMem hmem]
    | touched => simp [on, onKeysTouched, hnone, hmem]
    | removed =>
      simp only [on, onKeysRemoved, foldl_cons, foldl_nil, Dict.erase_of_notMem hmem, hfilter,
        if_true]

/-- What `_order` says of the history. -/
structure Ordered (p : LRUEvictionPolicy K) (h : History K) : Prop where
  tracked : ∀ key, key ∈ p.order.keys ↔ Tracked key h
  recent : p.order.keys.Pairwise fun a b => lastUse a h < lastUse b h

theorem Ordered.on {p : LRUEvictionPolicy K} {h : History K} (hp : Ordered p h)
    (e : PolicyEvent) (key : K) : Ordered (p.on (e, key)) ((e, key) :: h) := by
  have hother : ∀ k, k ≠ key → lastUse k ((e, key) :: h) = lastUse k h := fun k hk => by
    simp [lastUse, Ne.symm hk]
  have hfilter : (p.order.keys.filter (· ≠ key)).Pairwise fun a b =>
      lastUse a ((e, key) :: h) < lastUse b ((e, key) :: h) := by
    refine (hp.recent.filter _).imp_of_mem fun ha hb hlt => ?_
    grind
  refine ⟨fun k => ?_, ?_⟩
  · have htracked := hp.tracked k
    cases e <;> simp only [keys_on, Tracked] <;> grind
  · rw [keys_on]
    split_ifs with hremoved hmoved
    · exact hfilter
    · refine pairwise_append.mpr ⟨hfilter, pairwise_singleton _ _, fun a ha b hb => ?_⟩
      have hne : a ≠ key := of_decide_eq_true (mem_filter.mp ha).2
      rw [mem_singleton.mp hb, hother a hne, lastUse, if_pos ⟨rfl, hremoved⟩]
      exact Nat.lt_succ_of_le (lastUse_le a h)
    · rw [not_or] at hmoved
      refine hp.recent.imp_of_mem fun ha hb hlt => ?_
      rw [hother _ fun heq => hmoved.2 (heq ▸ ha), hother _ fun heq => hmoved.2 (heq ▸ hb)]
      exact hlt

/-- **The order after any events.** -/
theorem order_after (h : History K) :
    Ordered (h.foldr (fun e p => p.on e) ⟨.empty⟩ : LRUEvictionPolicy K) h := by
  induction h with
  | nil => exact ⟨fun key => by simp [Tracked, Dict.keys, Dict.empty], Pairwise.nil⟩
  | cons e h ih => exact ih.on e.1 e.2

theorem Ordered.length {p : LRUEvictionPolicy K} {h : History K} (hp : Ordered p h) :
    p.order.keys.length = (trackedKeys h).length := by
  refine Perm.length_eq ((perm_ext_iff_of_nodup p.order.nodup ((nodup_dedup _).filter _)).mpr
    fun key => ?_)
  rw [mem_filter, mem_dedup, decide_eq_true_eq, and_iff_right_of_imp mem_of_tracked]
  exact hp.tracked key

end LRUEvictionPolicy

theorem targetCount_le (n : ℕ) (ratio : ℚ) : targetCount n ratio ≤ n := by
  unfold targetCount
  dsimp only
  split_ifs with h
  · exact h.2.2
  · have hle : (n : ℚ) * max 0 (min 1 ratio) ≤ n := by
      apply mul_le_of_le_one_right (Nat.cast_nonneg n)
      exact max_le zero_le_one (min_le_left _ _)
    have hfloor : ((n : ℚ) * max 0 (min 1 ratio)).floor ≤ (n : ℤ) := by
      have := (Rat.floor_le ((n : ℚ) * max 0 (min 1 ratio))).trans hle
      exact_mod_cast this
    omega

/-- **The target**: the share of the keys, rounded down, or one key. -/
theorem cast_targetCount (n : ℕ) (ratio : ℚ) : (targetCount n ratio : ℤ) =
    max ⌊n * max 0 (min 1 ratio)⌋ (if 0 < ratio ∧ 0 < n then 1 else 0) := by
  have hpos : 0 < max 0 (min 1 ratio) ↔ 0 < ratio := by simp
  have hfloor : 0 ≤ ⌊n * max 0 (min 1 ratio)⌋ :=
    Int.floor_nonneg.mpr (mul_nonneg (Nat.cast_nonneg n) (le_max_left _ _))
  unfold targetCount
  dsimp only
  change 0 ≤ ((n : ℚ) * max 0 (min 1 ratio)).floor at hfloor
  change _ = max ((n : ℚ) * max 0 (min 1 ratio)).floor _
  by_cases hratio : 0 < ratio
  · simp only [hpos, hratio, true_and]
    split_ifs <;> omega
  · simp only [hpos, hratio, false_and, if_false]
    omega

namespace LRUEvictionPolicy

open History

omit [DecidableEq K] in
theorem getEvictionActions_eq (p : LRUEvictionPolicy K) (destinations : List EvictionDestination)
    (default : EvictionDestination) (ratio : ℚ) :
    p.getEvictionActions destinations default ratio =
      let keys := p.order.keys.take (targetCount p.order.keys.length ratio)
      if keys = [] then [] else [⟨keys, destinations.head?.getD default⟩] := by
  unfold getEvictionActions
  simp only [List.isEmpty_iff, take_eq_nil_iff]
  split_ifs <;> simp_all

/-- **The oldest keys are picked**, as many as the ratio between 0 and 1 gives, rounded down, but at
least one key if there is one and the ratio is positive. -/
theorem lru_picks_oldest (calls : List (PolicyEvent × List K))
    (destinations : List EvictionDestination) (default : EvictionDestination) (ratio : ℚ) :
    let p : LRUEvictionPolicy K := calls.foldl call ⟨.empty⟩
    let h := historyOf calls
    let n := (trackedKeys h).length
    ∃ keys, p.getEvictionActions destinations default ratio =
        (if keys = [] then [] else [⟨keys, destinations.head?.getD default⟩]) ∧
      (keys.length : ℤ) =
        max ⌊n * max 0 (min 1 ratio)⌋ (if 0 < ratio ∧ 0 < n then 1 else 0) ∧
      keys.Nodup ∧ (∀ k ∈ keys, Tracked k h) ∧
      keys.Pairwise (fun a b => lastUse a h < lastUse b h) ∧
      ∀ k ∈ keys, ∀ k', Tracked k' h → k' ∉ keys → lastUse k h < lastUse k' h := by
  intro p h n
  let target := targetCount n ratio
  have hp : Ordered p h := by
    show Ordered (calls.foldl call ⟨.empty⟩) _
    rw [foldl_call]
    exact order_after h
  have hlen := hp.length
  have htarget : target ≤ p.order.keys.length := hlen ▸ targetCount_le _ _
  have hsplit := take_append_drop target p.order.keys
  refine ⟨p.order.keys.take target, ?_, ?_, p.order.nodup.sublist (take_sublist _ _),
    fun k hk => (hp.tracked k).mp (mem_of_mem_take hk), hp.recent.sublist (take_sublist _ _),
    fun k hk k' hk' hnot => ?_⟩
  · rw [getEvictionActions_eq, hlen]
  · rw [length_take_of_le htarget]
    exact cast_targetCount n ratio
  · have hdrop : k' ∈ p.order.keys.drop target := by
      have := (hp.tracked k').mpr hk'
      grind
    have hrecent := hp.recent
    grind

/-- Half of three keys, of which the first was touched again: the second one is picked. -/
theorem lru_picks_oldest_touched :
    let calls : List (PolicyEvent × List ℕ) := [(.created, [1, 2, 3]), (.touched, [1])]
    ∃ keys, (calls.foldl call ⟨.empty⟩).getEvictionActions [] .discard (1 / 2) =
        (if keys = [] then [] else [⟨keys, .discard⟩]) ∧ (keys.length : ℤ) = 1 ∧
      ∀ k ∈ keys, ∀ k', Tracked k' (historyOf calls) → k' ∉ keys →
        lastUse k (historyOf calls) < lastUse k' (historyOf calls) := by
  intro calls
  obtain ⟨keys, hactions, hlen, -, -, -, holdest⟩ := lru_picks_oldest calls [] .discard (1 / 2)
  exact ⟨keys, hactions, hlen.trans (by decide +kernel), holdest⟩

end LRUEvictionPolicy

/-! ### Progress -/

open L1Manager

/-- The object is there, and neither of its locks is held. -/
def Unlocked (clock : ℕ → ℤ) (m : L1Manager K) (key : K) : Prop :=
  ∃ e ∈ m.objects.lookup key, e.readLock.isLocked (clock m.ticks) = false ∧
    e.writeLock.isLocked (clock m.ticks) = false

instance (clock : ℕ → ℤ) (m : L1Manager K) (key : K) : Decidable (Unlocked clock m key) :=
  inferInstanceAs (Decidable (∃ e ∈ m.objects.lookup key, _))

section delete
variable {clock : ℕ → ℤ} {m : L1Manager K} {key : K}

/-- **What a loop of `delete` takes away**: the first free key, and maybe more. -/
theorem deleteLoop_iff (keys : List K) : (∃ key ∈ m.objects.keys,
    key ∉ (m.forItems clock (deleteKey clock) keys).2.objects.keys) ↔
      SomeFree clock m m.ticks keys := by
  have hloop := (removing_deleteKey clock).loop clock keys m
  have hfrees : deleteFrees clock m keys = [] ↔
      removedBy (m.forItems clock (deleteKey clock) keys).1 = [] := by
    rw [deleteFrees, ← map_snd_removedBy, map_eq_nil_iff]
  simp only [← hloop.mem_keys]
  rw [← not_iff_not, ← deleteFrees_eq_nil_iff, hfrees, ← map_eq_nil_iff (f := Prod.fst),
    eq_nil_iff_forall_not_mem, not_exists]

/-- A key that is unlocked before the loop is still free when the loop reaches it. -/
theorem someFree_of_unlocked (hc : Monotone clock) {keys : List K} (hkey : key ∈ keys)
    (h : Unlocked clock m key) {now : ℕ} (hnow : m.ticks ≤ now) : SomeFree clock m now keys := by
  obtain ⟨e, hl, hread, hwrite⟩ := h
  have hfree : ∀ t, m.ticks ≤ t → e.readLock.isLocked (clock t) = false ∧
      e.writeLock.isLocked (clock t) = false := fun t ht =>
    ⟨TTLLock.isLocked_mono hread (hc ht), TTLLock.isLocked_mono hwrite (hc ht)⟩
  induction keys generalizing now with
  | nil => exact absurd hkey not_mem_nil
  | cons k keys ih =>
    rw [SomeFree, SomeHit]
    by_cases hk : key = k
    · subst hk
      simp [deleteProbe, Option.mem_def.mp hl, (hfree now hnow).1, (hfree (now + 1) (by omega)).2]
    · split
      · trivial
      next n _ => exact ih ((mem_cons.mp hkey).resolve_left hk) (hnow.trans (Nat.le_add_right _ n))

end delete

namespace EvictionRun

/-- **Progress**: a round above the watermark deletes an object exactly if one of the keys it names
is free when `delete` comes to it, as is every key that is unlocked before the round. -/
theorem eviction_progress (clock : ℕ → ℤ) (s : EvictionRun K) {watermark : ℚ}
    (evictionRatio : ℚ) (husage : watermark ≤ s.usage) :
    ((∃ key ∈ s.manager.objects.keys,
        key ∉ (s.evictionRound clock watermark evictionRatio).manager.objects.keys) ↔
      SomeFree clock s.manager s.manager.ticks (s.victims evictionRatio)) ∧
    (Monotone clock → (∃ key ∈ s.victims evictionRatio, Unlocked clock s.manager key) →
      SomeFree clock s.manager s.manager.ticks (s.victims evictionRatio)) := by
  constructor
  · rw [evictionRound, if_neg (not_lt.mpr husage), LRUEvictionPolicy.getEvictionActions_eq, victims]
    dsimp only
    split_ifs with hnone
    · rw [hnone]
      simp [SomeFree, SomeHit]
    · rw [← deleteLoop_iff]
      rfl
  · rintro hc ⟨key, hkey, h⟩
    exact someFree_of_unlocked hc hkey h le_rfl

/-- Two keys are written; then the older one, or the newer one, is reserved for reading. -/
def twoKeys (reserved : ℕ) : EvictionRun ℕ :=
  after (fun _ => 0) [.reserveWrite 0 [1, 2] [false, false]
    sixBytes .all, .finishWrite 0 [1, 2], .reserveRead 1 [reserved]]

theorem eviction_progress_oldest : ∃ key ∈ (twoKeys 2).manager.objects.keys,
    key ∉ ((twoKeys 2).evictionRound (fun _ => 0) (1 / 5) (1 / 2)).manager.objects.keys :=
  have h := @eviction_progress _ _ (fun _ => 0) (twoKeys 2) (1 / 5) (1 / 2) (by decide +kernel)
  h.1.mpr (h.2 (fun _ _ _ => le_rfl) (by decide +kernel))

/-- The older key is locked and the only victim: the newer key is tracked and unlocked, but nothing
is deleted, and the next round names the locked key again. -/
theorem eviction_stalls :
    let s := twoKeys 1
    (evictionSystem ℕ fun _ => 0).Reachable s ∧ 1 / 5 ≤ s.usage ∧ 2 ∈ s.policy.order.keys ∧
      Unlocked (fun _ => 0) s.manager 2 ∧
      let s' := s.evictionRound (fun _ => 0) (1 / 5) (1 / 2)
      s'.manager.objects.keys = s.manager.objects.keys ∧
        s'.victims (1 / 2) = s.victims (1 / 2) := by
  refine ⟨reachable_after _ _, ?_⟩
  decide +kernel

end EvictionRun

end LMCache
