import LMCache.Lib.Transition
import LMCache.Receiver.ReceivedPages

/-! # The references of a PD receiver

A `PDBackend` in the role of a receiver is used by two threads.  The allocation thread serves the
requests of the senders: for each key it takes a reference on the object that is there, or
allocates an object and puts it into `data`.  The engine thread retrieves objects: it gets them by
their keys, copies them, and then for each one calls `remove`, which takes the key away if there is
one reference, and `ref_count_down`.  Both threads stop between any two sections under a lock.

`references_balanced`: the reference count of an object in `data` is the number of the requests for
its key since it was put there, less the number of retrieves of this object that came to their end;
the key is taken away in the middle of the retrieve that brings this number to zero, and the page is
given back at its end.

`late_retrieve_counts` shows two states in which this reading matters.

The allocator of pages is given by its free pages and reference counts; bytes are left out. -/

namespace LMCache.PD

open List Function ReceivedPages

structure AllocResponse where
  alreadySentIndexes : List ℕ
  remoteIndexes : List ℕ
deriving DecidableEq, Repr

/-- The allocation thread in `_allocate_and_put`, at the key with number `idx`. -/
inductive AllocThread (K : Type) where
  | idle
  | checking (idx : ℕ) (keys : List K) (response : AllocResponse)
  | allocating (idx : ℕ) (k : K) (keys : List K) (response : AllocResponse)
  | putting (idx : ℕ) (k : K) (page : ℕ) (keys : List K) (response : AllocResponse)

/-- Both threads and the receiver.  The last three fields are ghosts: for each page the requests for
its key and the completed retrieves since it was allocated, and for each key the retrieves that came
to their end since its object was put. -/
structure State (K : Type) where
  received : ReceivedPages K
  alloc : AllocThread K
  /-- The objects that the engine has got, in the order in which it will remove them. -/
  got : List (K × ℕ)
  /-- The object between `remove` and `ref_count_down`. -/
  removed : Option (K × ℕ)
  named : ℕ → ℕ
  completed : ℕ → ℕ
  completedOfKey : K → ℕ

inductive Event (K : Type) where
  | request (keys : List K)
  | contains
  | allocate
  | put
  | respond
  | getBlocking (k : K)
  | remove
  | refCountDown
  | abort

namespace State
variable {K : Type} [DecidableEq K]

def step (s : State K) : Event K → Option (State K)
  | .request keys =>
    match s.alloc with
    | .idle => some { s with alloc := .checking 0 keys ⟨[], []⟩ }
    | _ => none
  | .contains =>
    match s.alloc with
    | .checking idx (k :: keys) response =>
      match s.received.data.get? k, s.received.contains k true with
      | some page, (_, received) =>
        some { s with
          received := received
          alloc := .checking (idx + 1) keys
            { response with alreadySentIndexes := response.alreadySentIndexes ++ [idx] }
          named := update s.named page (s.named page + 1) }
      | none, (_, received) =>
        some { s with received := received, alloc := .allocating idx k keys response }
    | _ => none
  | .allocate =>
    match s.alloc with
    | .allocating idx k keys response =>
      match s.received.pages.take with
      -- The allocation is tried again after a while.
      | none => some s
      | some (page, pages) =>
        some { s with
          received := { s.received with pages := pages }
          alloc := .putting idx k page keys response
          named := update s.named page 1
          completed := update s.completed page 0 }
    | _ => none
  | .put =>
    match s.alloc with
    | .putting idx k page keys response =>
      some { s with
        received := s.received.put k page
        alloc := .checking (idx + 1) keys
          { response with remoteIndexes := response.remoteIndexes ++ [page] }
        completedOfKey := update s.completedOfKey k 0 }
    | _ => none
  | .respond =>
    match s.alloc with
    | .checking _ [] _ => some { s with alloc := .idle }
    | _ => none
  | .getBlocking k =>
    -- The engine gets each key of a retrieve once; without an object the assertion fails.
    match s.received.data.get? k, s.removed with
    | some page, none =>
      if k ∈ s.got.map Prod.fst then none else some { s with got := s.got ++ [(k, page)] }
    | _, _ => none
  | .remove =>
    match s.got, s.removed with
    | (k, page) :: got, none =>
      some { s with
        received := (s.received.remove k).2
        got := got
        removed := some (k, page) }
    | _, _ => none
  | .refCountDown =>
    match s.removed with
    | none => none
    | some (k, page) =>
      some { s with
        received := { s.received with pages := s.received.pages.release page }
        removed := none
        completed := update s.completed page (s.completed page + 1)
        completedOfKey := update s.completedOfKey k (s.completedOfKey k + 1) }
  -- A retrieve fails before it removes anything.
  | .abort => if s.removed = none then some { s with got := [] } else none

def system : LTS (State K) (Event K) where
  init s :=
    s.received.data = .empty ∧ s.received.pages.free.Nodup ∧ s.alloc = .idle ∧ s.got = [] ∧
      s.removed = none ∧ s.named = (fun _ => 0) ∧ s.completed = fun _ => 0
  step s e s' := s.step e = some s'

def fresh (s : State K) : Option (K × ℕ) :=
  match s.alloc with
  | .putting _ k page _ _ => some (k, page)
  | _ => none

/-- The key that is not in `data` for the allocation thread. -/
def missing (s : State K) : Option K :=
  match s.alloc with
  | .putting _ k _ _ _ => some k
  | .allocating _ k _ _ => some k
  | _ => none

/-- **The invariant.**  The references are those of the requests that are not used up. -/
structure Inv (s : State K) : Prop where
  owned : s.received.pages.Owned fun i => s.named i - s.completed i
  injective : s.received.Injective
  data : ∀ k i, s.received.data.get? k = some i → s.completed i < s.named i
  got : ∀ k i, (k, i) ∈ s.got → s.received.data.get? k = some i
  got_nodup : (s.got.map Prod.fst).Nodup
  removed : ∀ k i, s.removed = some (k, i) → s.completed i < s.named i ∧ k ∉ s.got.map Prod.fst ∧
    ∀ k', s.received.data.get? k' = some i → k' = k ∧ s.completed i + 1 < s.named i
  missing : ∀ k, s.missing = some k → s.received.data.get? k = none
  fresh : ∀ k i, s.fresh = some (k, i) → s.completed i < s.named i ∧
    (∀ k', s.received.data.get? k' ≠ some i) ∧ ∀ k', s.removed ≠ some (k', i)

/-! ### The steps keep the invariant -/

section steps
variable {s s' : State K}

theorem Inv.setAlloc (h : Inv s) {alloc : AllocThread K}
    (hmissing : ({ s with alloc := alloc } : State K).missing = none)
    (hfresh : ({ s with alloc := alloc } : State K).fresh = none) :
    Inv { s with alloc := alloc } where
  owned := h.owned
  injective := h.injective
  data := h.data
  got := h.got
  got_nodup := h.got_nodup
  removed := h.removed
  missing k hk := by simp [hmissing] at hk
  fresh k i hi := by simp [hfresh] at hi

theorem held_named {named completed : ℕ → ℕ} {page : ℕ} (h : completed page < named page) (i : ℕ) :
    update named page (named page + 1) i - completed i =
      update (fun i => named i - completed i) page (named page - completed page + 1) i := by
  by_cases hi : i = page
  · grind
  · rw [update_of_ne hi, update_of_ne hi]

theorem le_update_succ {f : ℕ → ℕ} {page : ℕ} (i : ℕ) : f i ≤ update f page (f page + 1) i := by
  by_cases hi : i = page
  · grind
  · rw [update_of_ne hi]

section
variable (h : Inv s)

include h

/-- A request for a key of `data` gets a reference. -/
theorem Inv.retained {k : K} {page idx : ℕ} {keys : List K} {response : AllocResponse}
    (hget : s.received.data.get? k = some page) :
    Inv { s with
      received := { s.received with pages := s.received.pages.retain page }
      alloc := .checking idx keys response
      named := update s.named page (s.named page + 1) } := by
  have hpage := h.data k page hget
  have hle : ∀ i, s.named i ≤ update s.named page (s.named page + 1) i :=
    le_update_succ
  refine ⟨?_, h.injective, fun k' i hi => ?_, h.got, h.got_nodup, fun k' i hi => ?_, nofun, nofun⟩
  · exact (h.owned.retain (Nat.sub_pos_of_lt hpage)).congr (held_named hpage)
  · exact (h.data k' i hi).trans_le (hle i)
  · obtain ⟨hlt, hnot, hdata⟩ := h.removed k' i hi
    grind

theorem Inv.allocated {k : K} {page idx : ℕ} {pages : CountedPages} {keys : List K}
    {response : AllocResponse} (halloc : s.alloc = .allocating idx k keys response)
    (htake : s.received.pages.take = some (page, pages)) :
    Inv { s with
      received := { s.received with pages := pages }
      alloc := .putting idx k page keys response
      named := update s.named page 1
      completed := update s.completed page 0 } := by
  obtain ⟨hzero, howned⟩ := h.owned.take htake
  -- Nobody holds the page, so that it is none of those that are in use.
  have hne : ∀ i, s.completed i < s.named i → i ≠ page := fun i hi heq => by
    subst heq
    omega
  have hlt : ∀ i, s.completed i < s.named i →
      update s.completed page 0 i < update s.named page 1 i := fun i hi => by
    rwa [update_of_ne (hne i hi), update_of_ne (hne i hi)]
  refine ⟨howned.congr fun i => ?_, h.injective, fun k' i hi => hlt i (h.data k' i hi), h.got,
    h.got_nodup, fun k' i hi => ?_, fun k' hk' => ?_, fun k' i hi => ?_⟩
  · grind
  · obtain ⟨hi_lt, hnot, hdata⟩ := h.removed k' i hi
    grind
  · cases hk'
    exact h.missing k (by simp [State.missing, halloc])
  · cases hi
    refine ⟨by simp, fun k' hk' => hne page (h.data k' page hk') rfl, fun k' hk' => ?_⟩
    exact hne page (h.removed k' page hk').1 rfl

theorem Inv.put {k : K} {page idx idx' : ℕ} {keys keys' : List K}
    {response response' : AllocResponse} (halloc : s.alloc = .putting idx k page keys response)
    {completedOfKey : K → ℕ} :
    Inv { s with
      received := s.received.put k page
      alloc := .checking idx' keys' response'
      completedOfKey := completedOfKey } := by
  have hmissing := h.missing k (by simp [State.missing, halloc])
  obtain ⟨hlt, hnew, hremoved⟩ := h.fresh k page (by simp [State.fresh, halloc])
  refine ⟨h.owned, h.injective.put k hnew, fun k' i hi => ?_, fun k' i hi => ?_, h.got_nodup,
    fun k' i hi => ?_, nofun, nofun⟩
  · simp only [ReceivedPages.put, Dict.get?_set] at hi
    split at hi
    · cases hi
      exact hlt
    · exact h.data k' i hi
  · have hold := h.got k' i hi
    have hne : k' ≠ k := fun heq => by
      grind
    simpa [ReceivedPages.put, hne] using hold
  · obtain ⟨hi_lt, hnot, hdata⟩ := h.removed k' i hi
    refine ⟨hi_lt, hnot, fun k'' hk'' => ?_⟩
    simp only [ReceivedPages.put, Dict.get?_set] at hk''
    grind

theorem Inv.getBlocking {k : K} {page : ℕ} (hnone : s.removed = none)
    (hget : s.received.data.get? k = some page) (hnot : k ∉ s.got.map Prod.fst) :
    Inv { s with got := s.got ++ [(k, page)] } := by
  refine { h with got := fun k' i hi => ?_, got_nodup := ?_, removed := fun k' i hi => ?_ }
  · obtain hi | hi := mem_append.mp hi
    · exact h.got k' i hi
    · cases mem_singleton.mp hi
      exact hget
  · rw [map_append, nodup_append]
    refine ⟨h.got_nodup, nodup_singleton _, fun k₁ hk₁ k₂ hk₂ heq => hnot ?_⟩
    rwa [heq, mem_singleton.mp hk₂] at hk₁
  · cases hnone.symm.trans hi

theorem Inv.remove {k : K} {page : ℕ} {got : List (K × ℕ)}
    (hgot : s.got = (k, page) :: got) :
    Inv { s with received := (s.received.remove k).2, got := got, removed := some (k, page) } := by
  have hget := h.got k page (by simp [hgot])
  have hlt := h.data k page hget
  have hnodup := h.got_nodup
  rw [hgot, map_cons, nodup_cons] at hnodup
  refine ⟨?_, h.injective.remove k, fun k' i hi => ?_, fun k' i hi => ?_, hnodup.2,
    fun k' i hi => ?_, fun k' hk' => ?_, fun k' i hi => ?_⟩
  · rw [remove_pages]
    exact h.owned
  · exact h.data k' i (get?_of_remove hi)
  · -- The engine gets a key once, so that the key is none of those that it still has to remove.
    have hmem : k' ∈ got.map Prod.fst := mem_map.mpr ⟨(k', i), hi, rfl⟩
    have hne : k' ≠ k := fun heq => hnodup.1 (heq ▸ hmem)
    rw [get?_remove_of_ne hne]
    exact h.got k' i (by simp [hgot, hi])
  · cases hi
    refine ⟨hlt, hnodup.1, fun k'' hk'' => ?_⟩
    have hold := get?_of_remove hk''
    obtain rfl := h.injective k'' k page hold hget
    rw [get?_remove_self hget] at hk''
    have hrefs := h.owned.refs_eq (Nat.sub_pos_of_lt hlt)
    grind
  · have hold := h.missing k' hk'
    by_contra hsome
    obtain ⟨i, hi⟩ := Option.ne_none_iff_exists'.mp hsome
    rw [get?_of_remove hi] at hold
    nomatch hold
  · obtain ⟨hi_lt, hnew, -⟩ := h.fresh k' i hi
    refine ⟨hi_lt, fun k'' hk'' => hnew k'' (get?_of_remove hk''), fun k'' hk'' => ?_⟩
    cases hk''
    exact hnew k hget

theorem Inv.refCountDown {k : K} {page : ℕ} (hremoved : s.removed = some (k, page))
    {completedOfKey : K → ℕ} :
    Inv { s with
      received := { s.received with pages := s.received.pages.release page }
      removed := none
      completed := update s.completed page (s.completed page + 1)
      completedOfKey := completedOfKey } := by
  obtain ⟨hlt, hnot, hdata⟩ := h.removed k page hremoved
  refine ⟨?_, h.injective, fun k' i hi => ?_, h.got, h.got_nodup, nofun, h.missing,
    fun k' i hi => ?_⟩
  · refine (h.owned.release (Nat.sub_pos_of_lt hlt)).congr fun i => ?_
    grind
  · by_cases hpage : i = page
    · grind
    · simpa [hpage] using h.data k' i hi
  · obtain ⟨hi_lt, hnew, hne⟩ := h.fresh k' i hi
    grind

/-- **Every step** keeps the invariant. -/
theorem Inv.step {e : Event K} (hstep : s.step e = some s') : Inv s' := by
  revert hstep
  fun_cases State.step s e <;> rintro ⟨⟩
  case case1 => exact h.setAlloc rfl rfl
  case case3 hcontains hget =>
    rw [ReceivedPages.contains, hget] at hcontains
    cases hcontains
    exact h.retained hget
  case case4 k _ _ _ _ _ hcontains hget =>
    rw [ReceivedPages.contains, hget] at hcontains
    cases hcontains
    refine { h with missing := fun k' hk' => ?_, fresh := nofun }
    cases hk'
    exact hget
  case case6 => exact h
  case case7 halloc _ _ htake => exact h.allocated halloc htake
  case case9 halloc => exact h.put halloc
  case case11 => exact h.setAlloc rfl rfl
  case case14 hnone hget hnot => exact h.getBlocking hnone hget hnot
  case case16 hgot => exact h.remove hgot
  case case19 hremoved => exact h.refCountDown hremoved
  case case20 hnone =>
    refine { h with got := nofun, got_nodup := nodup_nil, removed := fun k i hi => ?_ }
    cases hnone.symm.trans hi

end

end steps

theorem inv_inductive : (system (K := K)).Inductive Inv where
  init s h := by
    obtain ⟨hdata, hnodup, halloc, hgot, hremoved, hnamed, hcompleted⟩ := h
    refine ⟨⟨hnodup, fun i hi => ?_⟩, fun k k' i hk => ?_, fun k i hk => ?_, fun k i hk => ?_, ?_,
      fun k i hk => ?_, fun k hk => ?_, fun k i hk => ?_⟩
    · simp [hnamed] at hi
    all_goals simp_all [State.missing, State.fresh]
  step _ _ _ h hstep := h.step hstep

/-! ### When a key leaves, and when a page is given back -/

inductive Touches (s s' : State K) : Event K → Prop
  | nothing {e : Event K} : e ≠ .remove → e ≠ .refCountDown → s'.received = s.received →
      Touches s s' e
  | retain (page : ℕ) : s'.received = { s.received with pages := s.received.pages.retain page } →
      Touches s s' .contains
  | take {page : ℕ} {pages : CountedPages} : s.received.pages.take = some (page, pages) →
      s'.received = { s.received with pages := pages } → Touches s s' .allocate
  | put {k : K} (page : ℕ) : s.missing = some k → s'.received = s.received.put k page →
      Touches s s' .put
  | remove {k : K} {page : ℕ} : s.got.head? = some (k, page) →
      s'.received = (s.received.remove k).2 → Touches s s' .remove
  | release {k : K} {page : ℕ} : s.removed = some (k, page) →
      s'.received = { s.received with pages := s.received.pages.release page } →
      s'.named = s.named → s'.completed = update s.completed page (s.completed page + 1) →
      Touches s s' .refCountDown

section leaving
variable {s s' : State K} {e : Event K}

theorem touches_of_step (hstep : s.step e = some s') : Touches s s' e := by
  revert hstep
  fun_cases step s e <;> rintro ⟨⟩
  case case3 page _ received hcontains hget =>
    refine .retain page ?_
    simpa [ReceivedPages.contains, hget] using (congrArg Prod.snd hcontains).symm
  case case4 received hcontains hget =>
    refine .nothing nofun nofun ?_
    simpa [ReceivedPages.contains, hget] using (congrArg Prod.snd hcontains).symm
  case case7 htake => exact .take htake rfl
  case case9 page _ _ halloc => exact .put page (by simp [State.missing, halloc]) rfl
  case case16 hgot => exact .remove (by rw [hgot]; rfl) rfl
  case case19 hremoved => exact .release hremoved rfl rfl rfl
  -- The other sections do not touch the receiver.
  all_goals exact .nothing nofun nofun rfl

/-- **The key leaves** `data` in the `remove` of the retrieve that will bring the number of
references to zero. -/
theorem Inv.leaves_iff (h : Inv s) (hstep : s.step e = some s') {k : K} {i : ℕ}
    (hget : s.received.data.get? k = some i) :
    s'.received.data.get? k ≠ some i ↔
      e = .remove ∧ s.got.head? = some (k, i) ∧ s.completed i + 1 = s.named i := by
  cases touches_of_step hstep with
  | nothing hremove _ hsame => simp [hsame, hget, hremove]
  | retain page hsame => simp [hsame, hget]
  | take htake hsame => simp [hsame, hget]
  | release hremoved hsame => simp [hsame, hget]
  | put page hmissing hput =>
    have hnone := h.missing _ hmissing
    have hne : k ≠ _ := fun heq => by
      rw [heq, hnone] at hget
      nomatch hget
    simp [hput, ReceivedPages.put, hne, hget]
  | @remove k' page hhead hremove =>
    have hgot := h.got k' page (mem_of_mem_head? hhead)
    rw [hremove, hhead]
    by_cases hk : k = k'
    · subst hk
      cases hget.symm.trans hgot
      have hlt := h.data k i hget
      have hrefs := h.owned.refs_eq (Nat.sub_pos_of_lt hlt)
      rw [ReceivedPages.get?_remove_self hget]
      grind
    · rw [ReceivedPages.get?_remove_of_ne hk, hget]
      simp [Ne.symm hk]

/-- **A page is given back** at the end of the retrieve that brings its number of references to
zero. -/
theorem Inv.freed_iff (h : Inv s) (hstep : s.step e = some s') {i : ℕ}
    (hfree : i ∉ s.received.pages.free) :
    i ∈ s'.received.pages.free ↔
      e = .refCountDown ∧ (∃ k, s.removed = some (k, i)) ∧ s'.completed i = s'.named i := by
  cases touches_of_step hstep with
  | nothing _ hdown hsame => simp [hsame, hfree, hdown]
  | retain page hsame => simp [hsame, hfree]
  | put page _ hput => simp [hput, ReceivedPages.put, hfree]
  | remove hhead hremove => simp [hremove, hfree]
  | take htake hsame =>
    have hsub := (CountedPages.take_eq_some htake).1
    grind
  | @release k page hremoved hsame hnamed hcompleted =>
    obtain ⟨hlt, -, -⟩ := h.removed k page hremoved
    have hrefs := h.owned.refs_eq (Nat.sub_pos_of_lt hlt)
    rw [hsame, hremoved, hnamed, hcompleted]
    constructor
    · intro hmem
      obtain hmem | ⟨rfl, hle⟩ := CountedPages.mem_release_free hmem
      · exact absurd hmem hfree
      · grind
    · rintro ⟨-, ⟨k', hk'⟩, heq⟩
      cases hk'
      rw [update_self] at heq
      exact h.owned.mem_free_of_last (by omega)

end leaving

/-- **The references of a receiver are balanced.**  In every run the reference count of an object in
`data` and the retrieves of it that came to their end are together the requests for its key since it
was put; an object leaves `data` exactly in the `remove` of the retrieve that makes the two numbers
equal, and its page is given back exactly in the `ref_count_down` of this retrieve. -/
theorem references_balanced {s : State K} (hs : system.Reachable s) :
    (∀ k i, s.received.data.get? k = some i →
      s.received.pages.refs i + s.completed i = s.named i ∧ s.completed i < s.named i ∧
        i ∉ s.received.pages.free) ∧
    ∀ e s', s.step e = some s' →
      (∀ k i, s.received.data.get? k = some i → (s'.received.data.get? k ≠ some i ↔
        e = .remove ∧ s.got.head? = some (k, i) ∧ s.completed i + 1 = s.named i)) ∧
      ∀ i, i ∉ s.received.pages.free → (i ∈ s'.received.pages.free ↔
        e = .refCountDown ∧ (∃ k, s.removed = some (k, i)) ∧ s'.completed i = s'.named i) := by
  have h := inv_inductive.reachable hs
  refine ⟨fun k i hget => ?_, fun e s' hstep => ⟨fun k i hget => h.leaves_iff hstep hget,
    fun i hfree => h.freed_iff hstep hfree⟩⟩
  have hlt := h.data k i hget
  have hrefs := h.owned.refs_eq (Nat.sub_pos_of_lt hlt)
  exact ⟨by omega, hlt, h.owned.not_free (Nat.sub_pos_of_lt hlt)⟩

def twoPages : State ℕ where
  received := ⟨⟨[0, 1], fun _ => 0⟩, .empty⟩
  alloc := .idle
  got := []
  removed := none
  named := fun _ => 0
  completed := fun _ => 0
  completedOfKey := fun _ => 0

theorem reachable_twoPages : (system (K := ℕ)).Reachable twoPages :=
  .init ⟨rfl, by decide, rfl, rfl, rfl, rfl, rfl⟩

/-- The events of a request for one key that is not in `data`. -/
def requestOf (k : ℕ) : List (Event ℕ) :=
  [Event.request [k], Event.contains, Event.allocate, Event.put, Event.respond]

/-- Two requests and one retrieve. -/
theorem references_balanced_two_requests : ∃ s : State ℕ, system.Reachable s ∧
    (s.received.data.get? 7 = some 0 ∧ s.named 0 = 2 ∧ s.completed 0 = 1) ∧
      s.received.pages.refs 0 + s.completed 0 = s.named 0 := by
  obtain ⟨s, hs, hfacts⟩ := reachable_twoPages.exists_replay
    (P := fun s => s.received.data.get? 7 = some 0 ∧ s.named 0 = 2 ∧ s.completed 0 = 1)
    (fun _ _ _ => id)
    (requestOf 7 ++ [Event.request [7], Event.contains, Event.respond, Event.getBlocking 7,
      Event.remove, Event.refCountDown]) (by decide +kernel)
  exact ⟨s, hs, hfacts, ((references_balanced hs).1 7 0 hfacts.1).1⟩

/-- A retrieve ends when a new object stands under its key: the object has one reference, with one
request for the key and one completed retrieve of the key since it was put.  And between `remove`
and `ref_count_down` the key is away with one request that is not used up. -/
theorem late_retrieve_counts :
    (∃ s : State ℕ, system.Reachable s ∧ s.received.data.get? 7 = some 1 ∧
      s.received.pages.refs 1 ≠ s.named 1 - s.completedOfKey 7) ∧
    ∃ s : State ℕ, system.Reachable s ∧ s.received.data.get? 7 = none ∧
      s.removed = some (7, 0) ∧ s.named 0 - s.completedOfKey 7 = 1 := by
  constructor
  · exact reachable_twoPages.exists_replay (fun _ _ _ => id)
      (requestOf 7 ++ [Event.getBlocking 7, Event.remove] ++ requestOf 7 ++ [Event.refCountDown])
      (by decide +kernel)
  · exact reachable_twoPages.exists_replay (fun _ _ _ => id)
      (requestOf 7 ++ [Event.getBlocking 7, Event.remove]) (by decide +kernel)

end State

end LMCache.PD
