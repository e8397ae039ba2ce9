import Mathlib.Data.Set.Card

/-! # Insertion-ordered dictionaries

A `Dict` is a list of entries with distinct keys.  `set` changes the value of a key where it
stands and appends a new key at the end, so that the entries are in the order in which their keys
came first; `ofList` makes one assignment after the other.

* `get?_set`, `get?_filterKeys`, `get?_erase`: what a key has after one operation.
* `entries_ofList`: with distinct keys, nothing is lost.
* `length_ofList_lt`: with a repeated key, there are fewer entries than assignments.
* `encard_pairs`: a dictionary of sets has as many pairs as its entries have elements. -/

/-- A dictionary in the order of insertion. -/
structure Dict (K V : Type) where
  entries : List (K × V)
  nodup : (entries.map Prod.fst).Nodup

namespace Dict

open List

variable {K V : Type}

def keys (d : Dict K V) : List K := d.entries.map Prod.fst

def empty : Dict K V := ⟨[], nodup_nil⟩

variable [DecidableEq K]

def get? (d : Dict K V) (k : K) : Option V := d.entries.lookup k

/-- Assign in place, or at the end. -/
def setEntry (k : K) (v : V) : List (K × V) → List (K × V)
  | [] => [(k, v)]
  | e :: es => if e.1 = k then (k, v) :: es else e :: setEntry k v es

theorem mem_map_fst_setEntry {k k' : K} {v : V} {es : List (K × V)} :
    k' ∈ (setEntry k v es).map Prod.fst ↔ k' = k ∨ k' ∈ es.map Prod.fst := by
  induction es with
  | nil => simp [setEntry]
  | cons e es ih =>
    by_cases h : e.1 = k
    · simp [setEntry, h]
    · rw [setEntry, if_neg h, map_cons, mem_cons, ih, map_cons, mem_cons]
      exact or_left_comm

theorem nodup_setEntry {k : K} {v : V} {es : List (K × V)} (h : (es.map Prod.fst).Nodup) :
    ((setEntry k v es).map Prod.fst).Nodup := by
  induction es with
  | nil => simp [setEntry]
  | cons e es ih =>
    obtain ⟨hnot, hes⟩ := nodup_cons.mp h
    by_cases hk : e.1 = k
    · rw [setEntry, if_pos hk, map_cons, nodup_cons, ← hk]
      exact ⟨hnot, hes⟩
    · rw [setEntry, if_neg hk, map_cons, nodup_cons, mem_map_fst_setEntry]
      exact ⟨by simp [hk, hnot], ih hes⟩

/-- `d[k] = v`. -/
def set (d : Dict K V) (k : K) (v : V) : Dict K V :=
  ⟨setEntry k v d.entries, nodup_setEntry d.nodup⟩

omit [DecidableEq K] in
/-- The entries whose keys satisfy `p`. -/
def filterKeys (d : Dict K V) (p : K → Bool) : Dict K V :=
  ⟨d.entries.filter fun e => p e.1, d.nodup.sublist (List.Sublist.map _ filter_sublist)⟩

omit [DecidableEq K] in
theorem entries_filterKeys (d : Dict K V) (p : K → Bool) :
    (d.filterKeys p).entries = d.entries.filter fun e => p e.1 := rfl

/-- `d.pop(k, None)`. -/
def erase (d : Dict K V) (k : K) : Dict K V := d.filterKeys fun k' => decide (k' ≠ k)

/-- Change the value of `k`, if there is one. -/
def modify (d : Dict K V) (k : K) (f : V → V) : Dict K V :=
  match d.get? k with
  | none => d
  | some v => d.set k (f v)

/-- `d.move_to_end(k)`; `none` when the key is not there. -/
def moveToEnd (d : Dict K V) (k : K) : Option (Dict K V) :=
  (d.get? k).map fun v => (d.erase k).set k v

/-- The assignments of a list, one after the other. -/
def ofList (l : List (K × V)) : Dict K V := l.foldl (fun d e => d.set e.1 e.2) empty

section lemmas
variable {d : Dict K V} {k k' : K} {v : V} {l : List (K × V)}

@[simp, grind =] theorem get?_empty : (empty : Dict K V).get? k = none := rfl

theorem get?_eq_none_iff : d.get? k = none ↔ k ∉ d.keys := by
  unfold get? keys
  grind

theorem get?_eq_some_iff : d.get? k = some v ↔ (k, v) ∈ d.entries := by
  obtain ⟨es, hd⟩ := d
  unfold get?
  induction es with
  | nil => simp
  | cons e es ih =>
    obtain ⟨k', v'⟩ := e
    obtain ⟨hnot, hes⟩ := nodup_cons.mp hd
    grind

@[grind =] theorem mem_keys_iff : k ∈ d.keys ↔ ∃ v, d.get? k = some v := by
  rw [← Option.ne_none_iff_exists', ne_eq, get?_eq_none_iff, not_not]

theorem lookup_setEntry (es : List (K × V)) :
    (setEntry k v es).lookup k' = if k' = k then some v else es.lookup k' := by
  induction es with
  | nil =>
    by_cases h : k' = k <;> simp [setEntry, h]
  | cons e es ih =>
    by_cases he : e.1 = k
    · rw [setEntry, if_pos he, lookup_cons, lookup_cons, he]
      grind
    · rw [setEntry, if_neg he, lookup_cons, lookup_cons, ih]
      grind

@[simp, grind =] theorem get?_set : (d.set k v).get? k' = if k' = k then some v else d.get? k' :=
  lookup_setEntry d.entries

@[simp, grind =] theorem mem_keys_set : k' ∈ (d.set k v).keys ↔ k' = k ∨ k' ∈ d.keys :=
  mem_map_fst_setEntry

@[simp, grind =] theorem get?_filterKeys {p : K → Bool} :
    (d.filterKeys p).get? k = if p k then d.get? k else none := by
  ext v
  rw [get?_eq_some_iff]
  by_cases h : p k = true
  · simp [filterKeys, h, get?_eq_some_iff]
  · simp [filterKeys, h]

@[simp, grind =] theorem get?_erase : (d.erase k).get? k' = if k' = k then none else d.get? k' := by
  by_cases h : k' = k <;> simp [erase, h]

@[simp, grind =] theorem get?_modify {f : V → V} :
    (d.modify k f).get? k' = if k' = k then (d.get? k).map f else d.get? k' := by
  unfold modify
  grind

variable {d' : Dict K V} (p : K → Bool)

/-- Moving a key changes no value. -/
theorem get?_moveToEnd (h : d.moveToEnd k = some d') : d'.get? k' = d.get? k' := by
  obtain ⟨v, hv, rfl⟩ := Option.map_eq_some_iff.mp h
  grind

@[simp, grind =] theorem mem_keys_erase : k' ∈ (d.erase k).keys ↔ k' ≠ k ∧ k' ∈ d.keys := by
  rw [mem_keys_iff, mem_keys_iff]
  by_cases h : k' = k <;> simp [h]

/-- Erasing a key that is not there. -/
theorem erase_of_notMem (h : k ∉ d.keys) : d.erase k = d := by
  have hentries : (d.erase k).entries = d.entries :=
    filter_eq_self.mpr fun e he => decide_eq_true fun hk => h (hk ▸ mem_map_of_mem he)
  cases d
  exact mk.injEq .. ▸ hentries

/-- Erasing a key takes its entry away. -/
theorem perm_erase (h : d.get? k = some v) : d.entries.Perm ((k, v) :: (d.erase k).entries) := by
  have hnodup : d.entries.Nodup := d.nodup.of_map
  have hnot : (k, v) ∉ (d.erase k).entries := fun hmem =>
    of_decide_eq_true (mem_filter.mp hmem).2 rfl
  refine (perm_ext_iff_of_nodup hnodup
    (nodup_cons.mpr ⟨hnot, hnodup.filter _⟩)).mpr fun e => ?_
  rw [mem_cons, erase, filterKeys, mem_filter, decide_eq_true_eq]
  by_cases hk : e.1 = k
  · constructor
    · intro he
      have hv := get?_eq_some_iff.mpr he
      grind
    · rintro (rfl | ⟨-, hne⟩)
      · exact get?_eq_some_iff.mp h
      · exact absurd hk hne
  · grind

variable {A : Type}

/-- Changing the value of a key changes nothing that does not depend on it. -/
theorem map_entries_modify {f : V → V} {g : K × V → A} (hg : ∀ v, g (k, f v) = g (k, v)) :
    (d.modify k f).entries.map g = d.entries.map g := by
  fun_cases modify
  · rfl
  next v hv =>
    obtain ⟨es, hd⟩ := d
    unfold get? at hv
    show (setEntry k (f v) es).map g = es.map g
    dsimp only at hv
    clear hd
    induction es with
    | nil => cases hv
    | cons e es ih =>
      rw [lookup_cons] at hv
      by_cases hk : e.1 = k
      · have hbeq : (k == e.1) = true := by rw [hk, beq_self_eq_true]
        rw [hbeq] at hv
        have he : e = (k, v) := Prod.ext hk (Option.some.inj hv)
        rw [setEntry, if_pos hk, map_cons, map_cons, hg, he]
      · have hbeq : (k == e.1) = false := beq_eq_false_iff_ne.mpr (Ne.symm hk)
        rw [hbeq] at hv
        rw [setEntry, if_neg hk, map_cons, map_cons, ih hv]

/-! ### Searching the entries -/

theorem exists_of_findSome? {f : K × V → Option A} {a : A}
    (h : d.entries.findSome? f = some a) : ∃ k v, d.get? k = some v ∧ f (k, v) = some a := by
  obtain ⟨⟨k, v⟩, hmem, hf⟩ := exists_of_findSome?_eq_some h
  exact ⟨k, v, get?_eq_some_iff.mpr hmem, hf⟩

theorem isSome_findSome? {f : K × V → Option A} :
    (d.entries.findSome? f).isSome ↔ ∃ k v, d.get? k = some v ∧ (f (k, v)).isSome := by
  rw [findSome?_isSome_iff]
  constructor
  · rintro ⟨⟨k, v⟩, hmem, hf⟩
    exact ⟨k, v, get?_eq_some_iff.mpr hmem, hf⟩
  · rintro ⟨k, v, hget, hf⟩
    exact ⟨(k, v), get?_eq_some_iff.mp hget, hf⟩

/-! ### Lists of assignments -/

/-- A new key is appended. -/
theorem entries_set_of_notMem (h : k ∉ d.keys) : (d.set k v).entries = d.entries ++ [(k, v)] := by
  obtain ⟨es, hd⟩ := d
  unfold set keys at *
  dsimp only at h ⊢
  clear hd
  induction es with
  | nil => rfl
  | cons e es ih =>
    rw [map_cons, mem_cons, not_or] at h
    rw [setEntry, if_neg (Ne.symm h.1), ih h.2, cons_append]

/-- Moving a key keeps the entries. -/
theorem perm_moveToEnd (h : d.moveToEnd k = some d') : d'.entries.Perm d.entries := by
  obtain ⟨v, hv, rfl⟩ := Option.map_eq_some_iff.mp h
  have hnot : k ∉ (d.erase k).keys := fun hmem => (mem_keys_erase.mp hmem).1 rfl
  rw [entries_set_of_notMem hnot]
  exact (perm_append_comm.trans (List.Perm.refl _)).trans (perm_erase hv).symm

/-- A key that is there keeps its place. -/
theorem length_set_of_mem (h : k ∈ d.keys) : (d.set k v).entries.length = d.entries.length := by
  obtain ⟨es, hd⟩ := d
  unfold set keys at *
  dsimp only at h ⊢
  clear hd
  induction es with
  | nil => simp at h
  | cons e es ih =>
    by_cases hk : e.1 = k
    · simp [setEntry, hk]
    · rw [setEntry, if_neg hk, length_cons, length_cons, ih]
      exact (mem_cons.mp h).resolve_left (Ne.symm hk)

theorem foldl_set_of_nodup (h : (d.keys ++ l.map Prod.fst).Nodup) :
    (l.foldl (fun d e => d.set e.1 e.2) d).entries = d.entries ++ l := by
  induction l generalizing d with
  | nil => simp
  | cons e l ih =>
    have hnot : e.1 ∉ d.keys := fun hmem =>
      (nodup_append.mp h).2.2 _ hmem _ (by simp) rfl
    have hset := entries_set_of_notMem (v := e.2) hnot
    rw [foldl_cons, ih, hset, append_assoc, singleton_append]
    unfold keys
    rw [hset, map_append, append_assoc]
    exact h

/-- **Distinct keys**: the entries are the assignments. -/
theorem entries_ofList (h : (l.map Prod.fst).Nodup) : (ofList l).entries = l :=
  foldl_set_of_nodup (d := empty) h

/-- **A repeated key**: an assignment is lost. -/
theorem length_ofList_lt (h : ¬ (l.map Prod.fst).Nodup) : (ofList l).entries.length < l.length := by
  have hkeys : ∀ k ∈ (ofList l).keys, k ∈ l.map Prod.fst := by
    refine foldlRecOn (motive := fun d : Dict K V => ∀ k ∈ d.keys, k ∈ l.map Prod.fst) l _ nofun
      fun d hd e he k hk => ?_
    rcases mem_keys_set.mp hk with rfl | hk
    · exact mem_map_of_mem he
    · exact hd k hk
  by_contra hge
  have hperm := (subperm_of_subset (ofList l).nodup hkeys).perm_of_length_le (by
    simpa [keys] using hge)
  exact h (hperm.nodup_iff.mp (ofList l).nodup)

theorem get?_foldl_set (hl : ∀ e ∈ l, e.1 = k → e.2 = v) (d : Dict K V) :
    (l.foldl (fun d e => d.set e.1 e.2) d).get? k =
      if k ∈ l.map Prod.fst then some v else d.get? k := by
  induction l generalizing d with
  | nil => simp
  | cons e l ih =>
    grind

/-- When all assignments to a key agree, it has their value. -/
theorem get?_ofList (hl : ∀ e ∈ l, e.1 = k → e.2 = v) :
    (ofList l).get? k = if k ∈ l.map Prod.fst then some v else none :=
  get?_foldl_set hl empty

omit [DecidableEq K] in
theorem eq_of_entries (h : d.entries = d'.entries) : d = d' := by
  cases d
  cases d'
  exact Dict.mk.injEq .. ▸ h

theorem filter_setEntry (es : List (K × V)) :
    (setEntry k v es).filter (fun e => p e.1) =
      if p k then setEntry k v (es.filter fun e => p e.1) else es.filter fun e => p e.1 := by
  induction es with
  | nil => by_cases hp : p k <;> simp [setEntry, hp]
  | cons e es ih =>
    by_cases hk : e.1 = k
    · by_cases hp : p k <;> simp [setEntry, hk, hp]
    · by_cases hp : p k <;> by_cases hpe : p e.1 <;> simp_all [setEntry]

theorem filterKeys_set :
    (d.set k v).filterKeys p = if p k then (d.filterKeys p).set k v else d.filterKeys p := by
  apply eq_of_entries
  rw [apply_ite Dict.entries]
  exact filter_setEntry p d.entries

theorem filterKeys_foldl_set (l : List (K × V)) (d : Dict K V) :
    (l.foldl (fun d e => d.set e.1 e.2) d).filterKeys p =
      (l.filter fun e => p e.1).foldl (fun d e => d.set e.1 e.2) (d.filterKeys p) := by
  induction l generalizing d with
  | nil => rfl
  | cons e l ih =>
    rw [foldl_cons, ih, filterKeys_set]
    by_cases hp : p e.1 <;> simp [hp]

/-- Assignments to other keys do not matter to the entries that are kept. -/
theorem filterKeys_ofList (l : List (K × V)) :
    (ofList l).filterKeys p = ofList (l.filter fun e => p e.1) :=
  filterKeys_foldl_set p l empty

/-! ### Dictionaries of sets -/

/-- **Counting pairs**: the pairs of a key and an element of its set, counted entry by entry. -/
theorem encard_pairs {f : V → Set A} {count : V → ℕ}
    (hcount : ∀ v, (f v).encard = count v) (d : Dict K V) :
    {p : K × A | ∃ v, d.get? p.1 = some v ∧ p.2 ∈ f v}.encard =
      (d.entries.map fun e => count e.2).sum := by
  simp only [get?_eq_some_iff]
  obtain ⟨es, hd⟩ := d
  induction es with
  | nil => simp
  | cons e es ih =>
    obtain ⟨hnot, hes⟩ := nodup_cons.mp hd
    have hunion : {p : K × A | ∃ v, (p.1, v) ∈ e :: es ∧ p.2 ∈ f v} =
        ({e.1} ×ˢ f e.2) ∪ {p : K × A | ∃ v, (p.1, v) ∈ es ∧ p.2 ∈ f v} := by
      ext ⟨k, a⟩
      grind
    have hdisj : Disjoint ({e.1} ×ˢ f e.2)
        {p : K × A | ∃ v, (p.1, v) ∈ es ∧ p.2 ∈ f v} := by
      grind
    have hsingle : ({e.1} ×ˢ f e.2).encard = count e.2 := by simp [hcount]
    rw [hunion, Set.encard_union_eq hdisj, hsingle, ih hes, map_cons, sum_cons, Nat.cast_add]

end lemmas

end Dict
