import LMCache.Engine.Lookup

/-! # The pins of a probe

A lookup probes the backends with `batched_contains`.  The block mapping it gets names the keys
found in each backend, and the keys of the backends that take pins are pinned.

* `mappedPins` counts the pins of a mapping, `taken` lists them.
* `pinned_batchedContains`: after a probe, the pin counts and the outstanding pins have grown by
  those of the mapping, in the backends that count their pins.
* `mem_blockMapping`, `sublist_blockMapping`: what a mapping looks like. -/

namespace LMCache

open List PinBackend

variable {H : Type} [DecidableEq H]

/-! ### Counting pins -/

/-- The pins of a key in one location of a mapping. -/
def mappedPins (mapping : BlockMapping H) (location : String) (key : CacheEngineKey H) : ℕ :=
  (mapping.map fun e => if e.1 = location then e.2.count key else 0).sum

namespace LookupConfig
variable (c : LookupConfig H)

def takes (location : String) : Bool :=
  c.storageBackends.any fun b => b.name == location && b.takesPins

def counting (location : String) : Prop :=
  ∀ b ∈ c.storageBackends, b.name = location → b.takesPins = true → b.counts = true

instance (location : String) : Decidable (c.counting location) :=
  inferInstanceAs (Decidable (∀ b ∈ c.storageBackends, _ → _ → _))

variable {c}

omit [DecidableEq H] in
theorem eq_of_name {b b' : PinBackend H} (hb : b ∈ c.storageBackends)
    (hb' : b' ∈ c.storageBackends) (h : b.name = b'.name) : b = b' :=
  inj_on_of_nodup_map c.names_nodup hb hb' h

omit [DecidableEq H] in
theorem takes_name {b : PinBackend H} (hb : b ∈ c.storageBackends) :
    c.takes b.name = b.takesPins := by
  rw [Bool.eq_iff_iff, takes, any_eq_true]
  constructor
  · rintro ⟨b', hb', h⟩
    rw [Bool.and_eq_true, beq_iff_eq] at h
    rw [eq_of_name hb hb' h.1.symm]
    exact h.2
  · exact fun h => ⟨b, hb, by simp [h]⟩

omit [DecidableEq H] in
theorem exists_of_takes {location : String} (h : c.takes location = true) :
    ∃ b ∈ c.storageBackends, b.name = location ∧ b.takesPins = true := by
  obtain ⟨b, hb, h⟩ := any_eq_true.mp h
  grind

end LookupConfig

namespace LookupState

variable {c : LookupConfig H} {s s' : LookupState H}

/-- The keys recorded under an id in one location. -/
def record (s : LookupState H) (id location : String) : List (CacheEngineKey H) :=
  ((s.lookupPins.get? id).bind fun pins => pins.get? location).getD []

def taken (c : LookupConfig H) (owner : Option String) (mapping : BlockMapping H) :
    List (Option String × String × CacheEngineKey H) :=
  mapping.flatMap fun e => if c.takes e.1 then e.2.map fun k => (owner, e.1, k) else []

/-- Every location of the mapping that takes pins counts them. -/
def Counting (c : LookupConfig H) (mapping : BlockMapping H) : Prop :=
  ∀ e ∈ mapping, c.counting e.1

theorem mappedPins_cons (e : String × List (CacheEngineKey H)) (mapping : BlockMapping H)
    (location : String) (key : CacheEngineKey H) :
    mappedPins (e :: mapping) location key =
      (if e.1 = location then e.2.count key else 0) + mappedPins mapping location key := by
  simp [mappedPins]

variable {owner : Option String}

theorem count_map_pin {owner' : Option String} {location location' : String}
    (keys : List (CacheEngineKey H)) (key : CacheEngineKey H) :
    (keys.map fun k => (owner, location, k)).count (owner', location', key) =
      if owner' = owner ∧ location = location' then keys.count key else 0 := by
  induction keys with
  | nil => simp
  | cons k keys ih =>
    grind

theorem count_taken (owner owner' : Option String) (mapping : BlockMapping H) (location : String)
    (key : CacheEngineKey H) :
    (taken c owner mapping).count (owner', location, key) =
      if owner' = owner ∧ c.takes location = true then mappedPins mapping location key else 0 := by
  induction mapping with
  | nil => simp [taken, mappedPins]
  | cons e mapping ih =>
    rw [taken, flatMap_cons, count_append, mappedPins_cons]
    change _ + (taken c owner mapping).count _ = _
    rw [ih]
    by_cases he : e.1 = location
    · subst he
      by_cases ht : c.takes e.1 = true
      · rw [if_pos ht, count_map_pin]
        grind
      · simp [ht]
    · have hzero : (if c.takes e.1 = true then e.2.map fun k => (owner, e.1, k) else []).count
          (owner', location, key) = 0 := by
        split_ifs
        · rw [count_map_pin, if_neg fun h => he h.2]
        · rfl
      rw [hzero, if_neg he, Nat.zero_add, Nat.zero_add]

/-- The number of outstanding pins of a key in a location. -/
def pinsOf (pins : List (Option String × String × CacheEngineKey H)) (location : String)
    (key : CacheEngineKey H) : ℕ :=
  pins.countP fun p => p.2 = (location, key)

theorem pinsOf_append (l l' : List (Option String × String × CacheEngineKey H))
    (location : String) (key : CacheEngineKey H) :
    pinsOf (l ++ l') location key = pinsOf l location key + pinsOf l' location key :=
  countP_append

theorem pinsOf_eq_count {pins : List (Option String × String × CacheEngineKey H)}
    (h : ∀ p ∈ pins, p.1 = owner) (location : String) (key : CacheEngineKey H) :
    pinsOf pins location key = pins.count (owner, location, key) := by
  rw [pinsOf, List.count]
  refine countP_congr fun p hp => ?_
  grind

omit [DecidableEq H] in
theorem owner_of_mem_taken {mapping : BlockMapping H}
    {p : Option String × String × CacheEngineKey H} (h : p ∈ taken c owner mapping) :
    p.1 = owner ∧ c.takes p.2.1 = true ∧ ∃ e ∈ mapping, e.1 = p.2.1 := by
  obtain ⟨e, he, hp⟩ := mem_flatMap.mp h
  grind

/-! ### What probing pins -/

structure Pinned (c : LookupConfig H) (owner : Option String) (mapping : BlockMapping H)
    (s s' : LookupState H) : Prop where
  lookupPins : s'.lookupPins = s.lookupPins
  outstanding : s'.outstanding = s.outstanding ++ taken c owner mapping
  pinCount : Counting c mapping → ∀ location key, s'.pinCount location key =
    s.pinCount location key + if c.takes location then (mappedPins mapping location key : ℤ) else 0

theorem Pinned.refl (owner : Option String) (s : LookupState H) : Pinned c owner [] s s :=
  ⟨rfl, by simp [taken], fun _ location key => by simp [mappedPins]⟩

theorem Pinned.cons {e : String × List (CacheEngineKey H)} {mapping : BlockMapping H}
    {s'' : LookupState H} (h : Pinned c owner [e] s s') (h' : Pinned c owner mapping s' s'') :
    Pinned c owner (e :: mapping) s s'' where
  lookupPins := h'.lookupPins.trans h.lookupPins
  outstanding := by
    rw [h'.outstanding, h.outstanding, append_assoc]
    simp [taken]
  pinCount := fun hc location key => by
    rw [h'.pinCount (forall_mem_cons.mp hc).2,
      h.pinCount (fun e' he' => by
        rw [mem_singleton.mp he']
        exact hc e mem_cons_self), mappedPins_cons, mappedPins_cons]
    split_ifs <;> simp [mappedPins, add_assoc]

omit [DecidableEq H] in
theorem pin_of_counts {b : PinBackend H} (h : b.counts = true) (n : ℤ) : b.mode.pin n = n + 1 := by
  unfold counts at h
  cases hm : b.mode with
  | counted => rfl
  | signed => rfl
  | flagged => simp [hm] at h
  | refCounted => simp [hm] at h
  | ignored => simp [hm] at h

theorem pinned_pinKeys {b : PinBackend H} (hb : b ∈ c.storageBackends) (owner : Option String)
    (keys : List (CacheEngineKey H)) (s : LookupState H) :
    Pinned c owner [(b.name, keys)] s (s.pinKeys owner true b keys) := by
  have htakes := LookupConfig.takes_name hb
  unfold pinKeys
  cases hpin : b.pinned true with
  | false =>
    have hno : c.takes b.name = false := by rw [htakes, takesPins, hpin]; rfl
    refine ⟨rfl, by simp [taken, hno], fun _ location key => ?_⟩
    by_cases hl : b.name = location
    · simp [← hl, hno]
    · simp [mappedPins, hl]
  | true =>
    have hno : b.mode = .ignored → c.takes b.name = false := fun hm => by
      simp [htakes, takesPins, hm]
    have hyes : b.mode ≠ .ignored → c.takes b.name = true := fun hm => by
      simp [htakes, takesPins, hm, hpin]
    simp only [if_true]
    induction keys generalizing s with
    | nil => exact ⟨rfl, by simp [taken], fun _ location key => by simp [mappedPins]⟩
    | cons k keys ih =>
      obtain ⟨hrec, hout, hcount⟩ := ih (s.pinKey owner b k)
      rw [foldl_cons]
      refine ⟨hrec, ?_, fun hc location key => ?_⟩
      · rw [hout]
        by_cases hm : b.mode = .ignored
        · simp [taken, hno hm, pinKey, hm]
        · simp [taken, hyes hm, pinKey, hm]
      · rw [hcount (fun e he => by
          rw [mem_singleton.mp he]
          exact hc (b.name, k :: keys) mem_cons_self)]
        by_cases hl : b.name = location
        · subst hl
          by_cases hm : b.mode = .ignored
          · simp [hno hm, pinKey, hm, PinMode.pin]
          · have hcounts := hc _ mem_cons_self b hb rfl (htakes ▸ hyes hm)
            simp only [hyes hm, if_true, pinKey, true_and, mappedPins, map_cons,
              map_nil, sum_cons, sum_nil, pin_of_counts hcounts,
              count_cons]
            grind
        · simp [pinKey, mappedPins, hl, Ne.symm hl]

/-- The block mapping of `batched_contains`. -/
def blockMapping : List (PinBackend H) → List (CacheEngineKey H) → BlockMapping H
  | [], _ => []
  | b :: bs, keys =>
    let hits := keys.takeWhile b.holds
    if hits = [] then blockMapping bs keys
    else if keys.drop hits.length = [] then [(b.name, hits)]
    else (b.name, hits) :: blockMapping bs (keys.drop hits.length)

theorem batchedContains_fst (owner : Option String) (pin : Bool) (bs : List (PinBackend H))
    (keys : List (CacheEngineKey H)) (s : LookupState H) :
    (batchedContains owner pin bs keys s).1 = blockMapping bs keys := by
  induction bs generalizing keys s with
  | nil => rfl
  | cons b bs ih =>
    rw [batchedContains, blockMapping]
    grind

theorem batchedContains_unpinned (owner : Option String) (bs : List (PinBackend H))
    (keys : List (CacheEngineKey H)) (s : LookupState H) :
    (batchedContains owner false bs keys s).2 = s := by
  induction bs generalizing keys s with
  | nil => rfl
  | cons b bs ih =>
    have hsame : ∀ hits, s.pinKeys owner false b hits = s := fun hits => by
      simp [pinKeys, pinned]
    rw [batchedContains]
    grind

/-- **Probing** pins what the mapping has. -/
theorem pinned_batchedContains {bs : List (PinBackend H)} (hbs : ∀ b ∈ bs, b ∈ c.storageBackends)
    (owner : Option String) (keys : List (CacheEngineKey H)) (s : LookupState H) :
    Pinned c owner (blockMapping bs keys) s (batchedContains owner true bs keys s).2 := by
  induction bs generalizing keys s with
  | nil => exact .refl owner s
  | cons b bs ih =>
    have hb := hbs b mem_cons_self
    have hbs := (forall_mem_cons.mp hbs).2
    have hpin := pinned_pinKeys hb owner (keys.takeWhile b.holds) s
    rw [batchedContains, blockMapping]
    split_ifs with hnil hall
    · rw [hnil]
      have hsame : s.pinKeys owner true b [] = s := by
        unfold pinKeys
        split_ifs <;> rfl
      rw [hsame]
      exact ih hbs keys s
    · exact hpin
    · exact hpin.cons (ih hbs _ _)

omit [DecidableEq H] in
theorem mem_blockMapping {bs : List (PinBackend H)} {keys : List (CacheEngineKey H)}
    {e : String × List (CacheEngineKey H)} (h : e ∈ blockMapping bs keys) :
    e.2 ≠ [] ∧ ∃ b ∈ bs, b.name = e.1 ∧ ∀ k ∈ e.2, b.holds k = true := by
  fun_induction blockMapping bs keys
  case case1 => exact absurd h not_mem_nil
  case case2 ih => exact (ih h).imp_right fun ⟨b', hb', he⟩ => ⟨b', mem_cons_of_mem _ hb', he⟩
  case case3 b bs keys hits hne hend =>
    rw [mem_singleton.mp h]
    exact ⟨hne, b, mem_cons_self, rfl, fun k hk => mem_takeWhile_imp hk⟩
  case case4 b bs keys hits hne hend ih =>
    rcases mem_cons.mp h with rfl | h
    · exact ⟨hne, b, mem_cons_self, rfl, fun k hk => mem_takeWhile_imp hk⟩
    · exact (ih h).imp_right fun ⟨b', hb', he⟩ => ⟨b', mem_cons_of_mem _ hb', he⟩

omit [DecidableEq H] in
theorem sublist_blockMapping (bs : List (PinBackend H)) (keys : List (CacheEngineKey H)) :
    ((blockMapping bs keys).map Prod.fst).Sublist (bs.map name) := by
  induction bs generalizing keys with
  | nil => exact List.Sublist.refl _
  | cons b bs ih =>
    rw [blockMapping]
    grind

end LookupState

end LMCache
