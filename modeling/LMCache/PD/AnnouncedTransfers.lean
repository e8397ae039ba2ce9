import LMCache.PD.Transfer

/-! # What is announced has been written

`announced_complete`: provided that no request names a key whose page has still to be written by
another call, all keys of a call are in `data`, with their complete objects, when the call comes to
the notification.

`announced_without_data` is a run in which two calls with the same key overlap.

The invariant `Inv` follows each reference of a page to the call that it was taken for.  A page that
a call has still to write is held by this call, so that it is not given to another key in
between. -/

namespace LMCache.PD.Transfer

open List

open CountedPages (writeAll)

variable {K B : Type} [DecidableEq K] (object : K → B)

/-! ### The invariant -/

/-- The call `c` has still to write the object of `k` to the page `i`. -/
def Pending (s : Transfer K B) (c i : ℕ) (k : K) : Prop :=
  ∃ x : Call K × Phase K, s.calls[c]? = some x ∧ (i, k) ∈ toWrite x.1 x.2

/-- The call `c` has not ended, and the receiver has dealt with its key `k`. -/
def Processed (s : Transfer K B) (c : ℕ) (k : K) : Prop :=
  ∃ x : Call K × Phase K, s.calls[c]? = some x ∧ k ∈ PD.processed x.1 x.2

/-- **The invariant.**  Every reference stands for a key that a request has named; what the page of
a key does not hold will be written to it; and a call that was told that a key was sent does not
wait for others. -/
structure Inv (s : Transfer K B) : Prop where
  owned : s.received.pages.Owned (s.holds.map fun x => x.2.2).count
  injective : s.received.Injective
  holds : ∀ c k i, (c, k, i) ∈ s.holds → s.received.data.get? k = some i
  data : ∀ k i, s.received.data.get? k = some i → ∃ c, (c, k, i) ∈ s.holds
  wf : ∀ (c : ℕ) (x : Call K × Phase K), s.calls[c]? = some x → Phase.Wf x.1 x.2
  pending : ∀ c i k, s.Pending c i k → (c, k, i) ∈ s.holds
  processed : ∀ c k, s.Processed c k → ∃ i, (c, k, i) ∈ s.holds ∧
    (s.Pending c i k ∨ s.mem i = object k)
  complete : ∀ k i, s.received.data.get? k = some i → s.mem i = object k ∨ ∃ c, s.Pending c i k

section calls
variable {s : Transfer K B} {c : ℕ} {x y : Call K × Phase K} {calls : List (Call K × Phase K)}

omit [DecidableEq K] in
theorem getElem?_set_eq_some {c' : ℕ} (h : (calls.set c x)[c']? = some y) :
    c' = c ∧ y = x ∨ c' ≠ c ∧ calls[c']? = some y := by
  rw [getElem?_set] at h
  grind

omit [DecidableEq K] in
theorem getElem?_set_self (h : calls[c]? = some y) : (calls.set c x)[c]? = some x := by
  rw [List.getElem?_set_self (List.getElem?_eq_some_iff.mp h).1]

omit [DecidableEq K] in
theorem pending_set (hy : s.calls[c]? = some y) (new : List (ℕ × K))
    (hwrites : toWrite x.1 x.2 = toWrite y.1 y.2 ++ new) (c' i : ℕ) (k : K) :
    Pending { s with calls := s.calls.set c x } c' i k ↔
      s.Pending c' i k ∨ c' = c ∧ (i, k) ∈ new := by
  constructor
  · rintro ⟨z, hz, hmem⟩
    obtain ⟨rfl, rfl⟩ | ⟨-, hz⟩ := getElem?_set_eq_some hz
    · rw [hwrites, mem_append] at hmem
      exact hmem.imp (fun hmem => ⟨y, hy, hmem⟩) fun hmem => ⟨rfl, hmem⟩
    · exact .inl ⟨z, hz, hmem⟩
  · rintro (⟨z, hz, hmem⟩ | ⟨rfl, hmem⟩)
    · by_cases hc : c' = c
      · subst hc
        cases hz.symm.trans hy
        exact ⟨x, getElem?_set_self hy, hwrites ▸ mem_append_left _ hmem⟩
      · exact ⟨z, by rwa [getElem?_set_ne (Ne.symm hc)], hmem⟩
    · exact ⟨x, getElem?_set_self hy, hwrites ▸ mem_append_right _ hmem⟩

omit [DecidableEq K] in
theorem processed_set (hy : s.calls[c]? = some y) {c' : ℕ} {k : K}
    (h : Processed { s with calls := s.calls.set c x } c' k) (new : List K)
    (hkeys : ∀ k ∈ PD.processed x.1 x.2, k ∈ PD.processed y.1 y.2 ∨ k ∈ new) :
    s.Processed c' k ∨ c' = c ∧ k ∈ new := by
  obtain ⟨z, hz, hmem⟩ := h
  obtain ⟨rfl, rfl⟩ | ⟨-, hz⟩ := getElem?_set_eq_some hz
  · exact (hkeys k hmem).imp (fun hmem => ⟨y, hy, hmem⟩) fun hmem => ⟨rfl, hmem⟩
  · exact .inl ⟨z, hz, hmem⟩

theorem Inv.wf_set (h : Inv object s) (hx : Phase.Wf x.1 x.2) (c' : ℕ) (z : Call K × Phase K)
    (hz : (s.calls.set c x)[c']? = some z) : Phase.Wf z.1 z.2 := by
  obtain ⟨-, rfl⟩ | ⟨-, hz⟩ := getElem?_set_eq_some hz
  · exact hx
  · exact h.wf c' z hz

theorem Inv.setCalls (h : Inv object s) (serving : Option ℕ) (announced : List String)
    (hwf : ∀ (c : ℕ) (x : Call K × Phase K), calls[c]? = some x → Phase.Wf x.1 x.2)
    (hpending : ∀ c i k, Pending { s with calls := calls } c i k ↔ s.Pending c i k)
    (hprocessed : ∀ c k, Processed { s with calls := calls } c k → s.Processed c k) :
    Inv object { s with calls := calls, serving := serving, announced := announced } where
  owned := h.owned
  injective := h.injective
  holds := h.holds
  data := h.data
  wf := hwf
  pending c i k hp := h.pending c i k ((hpending c i k).mp hp)
  processed c k hp := by
    obtain ⟨i, hi, hor⟩ := h.processed c k (hprocessed c k hp)
    exact ⟨i, hi, hor.imp_left (hpending c i k).mpr⟩
  complete k i hk := by
    obtain hmem | ⟨c, hc⟩ := h.complete k i hk
    · exact .inl hmem
    · exact .inr ⟨c, (hpending c i k).mpr hc⟩

theorem Inv.setCall (h : Inv object s) (hy : s.calls[c]? = some y) (serving : Option ℕ)
    (announced : List String) (hwf : Phase.Wf x.1 x.2) (hwrites : toWrite x.1 x.2 = toWrite y.1 y.2)
    (hkeys : ∀ k ∈ PD.processed x.1 x.2, k ∈ PD.processed y.1 y.2) :
    Inv object { s with
      calls := s.calls.set c x, serving := serving, announced := announced } := by
  refine h.setCalls object serving announced (h.wf_set object hwf) (fun c' i k => ?_)
    fun c' k hk => ?_
  · simpa using pending_set hy [] (hwrites.trans (append_nil _).symm) c' i k
  · simpa using processed_set hy hk [] fun k hk => .inl (hkeys k hk)

end calls

/-! ### The steps keep the invariant -/

section steps
variable {object} {s s' : Transfer K B} {c : ℕ} {call : Call K} {response : AllocResponse}
  (h : Inv object s)

include h

theorem Inv.submit (call : Call K) :
    Inv object { s with calls := s.calls ++ [(call, .requested)] } := by
  have hnew : ∀ c x, (s.calls ++ [(call, Phase.requested)])[c]? = some x →
      s.calls[c]? = some x ∨ x = (call, Phase.requested) := fun c x hx => by
    rw [getElem?_append] at hx
    split at hx
    · exact .inl hx
    · exact .inr (mem_singleton.mp (mem_of_getElem? hx))
  refine h.setCalls object _ _ (fun c x hx => ?_) (fun c i k => ⟨?_, ?_⟩) ?_
  · obtain hx | rfl := hnew c x hx
    · exact h.wf c x hx
    · trivial
  · rintro ⟨x, hx, hmem⟩
    obtain hx | rfl := hnew c x hx
    · exact ⟨x, hx, hmem⟩
    · nomatch hmem
  · rintro ⟨x, hx, hmem⟩
    exact ⟨x, List.getElem?_append_left (List.getElem?_eq_some_iff.mp hx).1 ▸ hx, hmem⟩
  · rintro c k ⟨x, hx, hmem⟩
    obtain hx | rfl := hnew c x hx
    · exact ⟨x, hx, hmem⟩
    · nomatch hmem

theorem Inv.writeAll_eq (hcall : s.calls[c]? = some (call, .responded response)) {k : K} {i : ℕ}
    (hget : s.received.data.get? k = some i) (hi : s.mem i = object k ∨ s.Pending c i k) :
    writeAll s.mem ((remoteWrites call.keys response).map (Prod.map id object)) i = object k := by
  refine CountedPages.writeAll_eq (fun w hw hwi => ?_) (hi.imp_right fun hp => ?_)
  · obtain ⟨⟨i', k'⟩, hmem, rfl⟩ := mem_map.mp hw
    obtain rfl : i' = i := hwi
    have hget' := h.holds c k' i' (h.pending c i' k' ⟨_, hcall, hmem⟩)
    exact congrArg object (h.injective k' k i' hget' hget)
  · obtain ⟨x, hx, hmem⟩ := hp
    cases hx.symm.trans hcall
    exact ⟨(i, object k), mem_map.mpr ⟨(i, k), hmem, rfl⟩, rfl⟩

theorem Inv.write (hcall : s.calls[c]? = some (call, .responded response)) :
    Inv object { s with
      mem := writeAll s.mem ((remoteWrites call.keys response).map (Prod.map id object))
      calls := s.calls.set c (call, .written) } := by
  -- The call has nothing to write any more, and the other calls what they had before.
  have hpending : ∀ c' i k, Pending { s with calls := s.calls.set c (call, .written) } c' i k ↔
      c' ≠ c ∧ s.Pending c' i k := fun c' i k => by
    constructor
    · rintro ⟨x, hx, hmem⟩
      obtain ⟨-, rfl⟩ | ⟨hne, hx⟩ := getElem?_set_eq_some hx
      · nomatch hmem
      · exact ⟨hne, x, hx, hmem⟩
    · rintro ⟨hne, x, hx, hmem⟩
      exact ⟨x, by rwa [getElem?_set_ne (Ne.symm hne)], hmem⟩
  refine ⟨h.owned, h.injective, h.holds, h.data, fun c' x hx => ?_, fun c' i k hp => ?_,
    fun c' k hp => ?_, fun k i hget => ?_⟩
  · exact h.wf_set object (x := (call, .written)) trivial c' x hx
  · exact h.pending c' i k ((hpending c' i k).mp hp).2
  · have hold : s.Processed c' k := by
      simpa using processed_set hcall hp [] fun k hk => .inl hk
    obtain ⟨i, hi, hor⟩ := h.processed c' k hold
    have hget := h.holds c' k i hi
    refine ⟨i, hi, ?_⟩
    by_cases hc : c' = c
    · exact .inr (h.writeAll_eq hcall hget (hc ▸ hor.symm))
    · exact hor.imp (fun hp => (hpending c' i k).mpr ⟨hc, hp⟩) fun hmem =>
        h.writeAll_eq hcall hget (.inl hmem)
  · obtain hmem | ⟨c', hc'⟩ := h.complete k i hget
    · exact .inl (h.writeAll_eq hcall hget (.inl hmem))
    · by_cases hc : c' = c
      · exact .inl (h.writeAll_eq hcall hget (.inr (hc ▸ hc')))
      · exact .inr ⟨c', (hpending c' i k).mpr ⟨hc, hc'⟩⟩

theorem Inv.serveKey_sent {done rest : List K} {k : K}
    (hcall : s.calls[c]? = some (call, .serving done (k :: rest) response)) {page : ℕ}
    (hget : s.received.data.get? k = some page)
    (hok : ∀ x ∈ s.calls, ∀ w ∈ toWrite x.1 x.2, w.1 ≠ page) :
    Inv object (s.allocateAndPut c call done k rest response) := by
  have hwf := h.wf _ _ hcall
  have hcomplete : s.mem page = object k := by
    refine (h.complete k page hget).resolve_right ?_
    rintro ⟨c', x, hx, hmem⟩
    exact hok x (mem_of_getElem? hx) _ hmem rfl
  obtain ⟨c₀, hc₀⟩ := h.data k page hget
  simp only [allocateAndPut, hget, ReceivedPages.contains, if_true]
  have hpending := pending_set hcall (x := (call, Phase.serving (done ++ [k]) rest
    { response with alreadySentIndexes := response.alreadySentIndexes ++ [done.length] })) []
    (by simp only [toWrite, remoteWrites_sent, append_nil])
  simp only [not_mem_nil, and_false, or_false] at hpending
  refine ⟨?_, h.injective, fun c' k' i hmem => ?_, fun k' i hk' => ?_,
    h.wf_set object (wf_sent hwf), fun c' i k' hp => ?_, fun c' k' hp => ?_, fun k' i hk' => ?_⟩
  · exact h.owned.retain_count (mem_map.mpr ⟨_, hc₀, rfl⟩)
  · obtain heq | hmem := mem_cons.mp hmem
    · cases heq
      exact hget
    · exact h.holds c' k' i hmem
  · obtain ⟨c', hc'⟩ := h.data k' i hk'
    exact ⟨c', mem_cons_of_mem _ hc'⟩
  · exact mem_cons_of_mem _ (h.pending c' i k' ((hpending c' i k').mp hp))
  · obtain hp | ⟨rfl, hk'⟩ := processed_set hcall hp [k] fun k' hk' => mem_append.mp hk'
    · obtain ⟨i, hi, hor⟩ := h.processed c' k' hp
      exact ⟨i, mem_cons_of_mem _ hi, hor.imp_left (hpending c' i k').mpr⟩
    · grind
  · obtain hmem | ⟨c', hc'⟩ := h.complete k' i hk'
    · exact .inl hmem
    · exact .inr ⟨c', (hpending c' i k').mpr hc'⟩

theorem Inv.serveKey_new {done rest : List K} {k : K}
    (hcall : s.calls[c]? = some (call, .serving done (k :: rest) response))
    (hget : s.received.data.get? k = none) {page : ℕ} {pages : CountedPages}
    (htake : s.received.pages.take = some (page, pages)) :
    Inv object (s.allocateAndPut c call done k rest response) := by
  have hwf := h.wf _ _ hcall
  obtain ⟨hnot, howned⟩ := h.owned.take_count htake
  have hnew : ∀ k', s.received.data.get? k' ≠ some page := fun k' hk' => by
    obtain ⟨c', hc'⟩ := h.data k' page hk'
    exact hnot (mem_map.mpr ⟨_, hc', rfl⟩)
  simp only [allocateAndPut, hget, htake]
  have hpending := pending_set hcall (x := (call, Phase.serving (done ++ [k]) rest
    { response with remoteIndexes := response.remoteIndexes ++ [page] })) [(page, k)]
    (by simp only [toWrite, remoteWrites_new hwf])
  have hput : ∀ k' i, ((s.received.data.set k page).get? k' = some i) ↔
      k' = k ∧ i = page ∨ s.received.data.get? k' = some i := fun k' i => by
    grind
  refine ⟨howned, ReceivedPages.Injective.put h.injective k hnew, fun c' k' i hmem => ?_,
    fun k' i hk' => ?_, h.wf_set object (wf_new hwf), fun c' i k' hp => ?_, fun c' k' hp => ?_,
    fun k' i hk' => ?_⟩
  · obtain heq | hmem := mem_cons.mp hmem
    · cases heq
      exact (hput k page).mpr (.inl ⟨rfl, rfl⟩)
    · exact (hput k' i).mpr (.inr (h.holds c' k' i hmem))
  · obtain ⟨rfl, rfl⟩ | hk' := (hput k' i).mp hk'
    · exact ⟨c, mem_cons_self⟩
    · obtain ⟨c', hc'⟩ := h.data k' i hk'
      exact ⟨c', mem_cons_of_mem _ hc'⟩
  · obtain hp | ⟨rfl, heq⟩ := (hpending c' i k').mp hp
    · exact mem_cons_of_mem _ (h.pending c' i k' hp)
    · grind
  · obtain hp | ⟨rfl, hk'⟩ := processed_set hcall hp [k] fun k' hk' => mem_append.mp hk'
    · obtain ⟨i, hi, hor⟩ := h.processed c' k' hp
      exact ⟨i, mem_cons_of_mem _ hi, hor.imp_left fun hp => (hpending c' i k').mpr (.inl hp)⟩
    · rw [mem_singleton.mp hk']
      exact ⟨page, mem_cons_self, .inl ((hpending c' page k).mpr (.inr ⟨rfl, by simp⟩))⟩
  · obtain ⟨rfl, rfl⟩ | hk' := (hput k' i).mp hk'
    · exact .inr ⟨c, (hpending c i k').mpr (.inr ⟨rfl, by simp⟩)⟩
    · obtain hmem | ⟨c', hc'⟩ := h.complete k' i hk'
      · exact .inl hmem
      · exact .inr ⟨c', (hpending c' i k').mpr (.inl hc')⟩

theorem Inv.retrieve {k : K} {page : ℕ} (hcall : s.calls[c]? = some (call, .finished))
    (hget : s.received.data.get? k = some page) (hheld : (c, k, page) ∈ s.holds) :
    Inv object { s with
      received := { (s.received.remove k).2 with pages := s.received.pages.release page }
      holds := s.holds.erase (c, k, page) } := by
  have hperm := perm_cons_erase hheld
  have howned := h.owned.perm (hperm.map fun x : ℕ × K × ℕ => x.2.2)
  have hrefs := howned.refs_eq (i := page) (by simp)
  rw [map_cons, count_cons_self] at hrefs
  -- The key stays in `data` exactly if another call holds its page.
  have hkept : (s.received.remove k).2.data.get? k = some page ↔
      page ∈ (s.holds.erase (c, k, page)).map fun x => x.2.2 := by
    rw [ReceivedPages.get?_remove_self hget, ← count_pos_iff]
    split
    · simp only [reduceCtorEq, false_iff]
      omega
    · simp only [true_iff]
      omega
  -- The call has ended, so that it has no key behind it.
  have hended : ∀ c' x, s.calls[c']? = some x → (PD.processed x.1 x.2 ≠ [] ∨ toWrite x.1 x.2 ≠ []) →
      c' ≠ c := fun c' x hx hne heq => by
    subst heq
    cases hx.symm.trans hcall
    exact hne.elim (fun hne => hne rfl) fun hne => hne rfl
  have hstays : ∀ c' k' i, c' ≠ c → (c', k', i) ∈ s.holds →
      (c', k', i) ∈ s.holds.erase (c, k, page) :=
    fun c' k' i hne hmem => (mem_erase_of_ne fun heq => hne (congrArg Prod.fst heq)).mpr hmem
  refine ⟨howned.release_count, h.injective.remove k, fun c' k' i hmem => ?_, fun k' i hk' => ?_,
    h.wf, fun c' i k' hp => ?_, fun c' k' hp => ?_, fun k' i hk' => ?_⟩
  · have hold := h.holds c' k' i (mem_of_mem_erase hmem)
    by_cases hk : k' = k
    · grind
    · exact (ReceivedPages.get?_remove_of_ne hk).trans hold
  · have hold := ReceivedPages.get?_of_remove hk'
    by_cases hk : k' = k
    · subst hk
      cases hold.symm.trans hget
      obtain ⟨⟨c'', k'', i''⟩, hmem, rfl⟩ := mem_map.mp (hkept.mp hk')
      obtain rfl := h.injective k'' k' i'' (h.holds c'' k'' i'' (mem_of_mem_erase hmem)) hget
      exact ⟨c'', hmem⟩
    · obtain ⟨c', hc'⟩ := h.data k' i hold
      exact ⟨c', (mem_erase_of_ne fun heq => hk (congrArg (fun x => x.2.1) heq)).mpr hc'⟩
  · obtain ⟨x, hx, hmem⟩ := hp
    exact hstays c' k' i (hended c' x hx (.inr (ne_nil_of_mem hmem)))
      (h.pending c' i k' ⟨x, hx, hmem⟩)
  · obtain ⟨x, hx, hmem⟩ := hp
    obtain ⟨i, hi, hor⟩ := h.processed c' k' ⟨x, hx, hmem⟩
    exact ⟨i, hstays c' k' i (hended c' x hx (.inl (ne_nil_of_mem hmem))) hi, hor⟩
  · exact h.complete k' i (ReceivedPages.get?_of_remove hk')

/-- **Every step** keeps the invariant. -/
theorem Inv.step {e : TransferEvent K} (hok : s.KeysWritten e) (hstep : s.step object e = some s') :
    Inv object s' := by
  revert hok hstep
  fun_cases Transfer.step object s e <;> rintro hok ⟨⟩
  case case1 call _ => exact h.submit call
  case case3 hcall => exact h.setCall object hcall _ _ ⟨rfl, nofun, rfl⟩ rfl nofun
  case case6 hserving call done k rest response hcall =>
    cases hget : s.received.data.get? k with
    | some page =>
      refine h.serveKey_sent hcall hget (hok k ?_ page hget)
      simp [nextKey, hserving, hcall]
    | none =>
      cases htake : s.received.pages.take with
      | none =>
        simp only [allocateAndPut, hget, htake]
        exact h
      | some x => exact h.serveKey_new hcall hget htake
  case case9 hcall =>
    obtain ⟨hkeys, -, -⟩ := h.wf _ _ hcall
    rw [append_nil] at hkeys
    refine h.setCall object hcall _ _ trivial ?_ fun k hk => ?_
    · simp only [toWrite, hkeys]
    · exact hkeys ▸ hk
  case case11 hcall => exact h.write hcall
  case case13 hcall => exact h.setCall object hcall _ _ trivial rfl nofun
  case case15 hget hcall hguard => exact h.retrieve hcall hget hguard.2

end steps

theorem inv_inductive : ((system object).restrict KeysWritten).Inductive (Inv object) where
  init s h := by
    obtain ⟨hdata, hnodup, hcalls, -, hholds⟩ := h
    refine ⟨⟨hnodup, fun i hi => ?_⟩, fun k k' i hk => ?_, fun c k i hk => ?_, fun k i hk => ?_,
      fun c x hx => ?_, fun c i k hp => ?_, fun c k hp => ?_, fun k i hk => ?_⟩
    · simp [hholds] at hi
    all_goals simp_all [Pending, Processed]
  step _ _ _ h hstep := h.step hstep.1 hstep.2

/-- **A transfer is complete when it is announced.**  In every run in which no request finds a key
in `data` whose page has still to be written, each key of a call that comes to the notification of
the proxy is in `data`, with a page that holds its object. -/
theorem announced_complete {s s' : Transfer K B} {c : ℕ}
    (hs : ((system object).restrict KeysWritten).Reachable s)
    (hstep : s.step object (.notify c) = some s') :
    ∃ call, s.calls[c]? = some (call, .written) ∧ s'.calls[c]? = some (call, .finished) ∧
      ∀ k ∈ call.keys, ∃ page, s'.received.data.get? k = some page ∧ s'.mem page = object k := by
  have h := (inv_inductive object).reachable hs
  simp only [step] at hstep
  split at hstep
  case h_2 => nomatch hstep
  rename_i call hcall
  cases hstep
  refine ⟨call, hcall, getElem?_set_self hcall, fun k hk => ?_⟩
  obtain ⟨page, hpage, hor⟩ := h.processed c k ⟨_, hcall, hk⟩
  refine ⟨page, h.holds c k page hpage, hor.resolve_left ?_⟩
  -- A call that has written has nothing to write.
  rintro ⟨x, hx, hmem⟩
  cases hx.symm.trans hcall
  nomatch hmem

instance (s : Transfer K B) (e : TransferEvent K) : Decidable (s.KeysWritten e) :=
  match e with
  | .serveKey => inferInstanceAs (Decidable (∀ k ∈ s.nextKey, ∀ page ∈ s.received.data.get? k,
      ∀ x ∈ s.calls, ∀ w ∈ toWrite x.1 x.2, w.1 ≠ page))
  | .submit _ | .receive _ | .respond | .write _ | .notify _ | .retrieve _ _ => .isTrue trivial

def threePages : Transfer ℕ ℕ where
  received := ⟨⟨[0, 1, 2], fun _ => 0⟩, .empty⟩
  mem := fun _ => 0
  calls := []
  serving := none
  announced := []
  holds := []

def lastPrefill (reqId : String) (keys : List ℕ) : Call ℕ := ⟨reqId, keys, true⟩

/-- The second of two calls with a key in common, when the first one has written it. -/
theorem announced_complete_overlapping : ∃ s s' : Transfer ℕ ℕ,
    ((system (· + 100)).restrict KeysWritten).Reachable s ∧
      s.step (· + 100) (.notify 1) = some s' ∧
      ∀ k ∈ [8, 9], ∃ page, s'.received.data.get? k = some page ∧ s'.mem page = k + 100 := by
  have hstart : ((system (B := ℕ) (K := ℕ) (· + 100)).restrict KeysWritten).Reachable threePages :=
    .init ⟨rfl, by decide, rfl, rfl, rfl⟩
  obtain ⟨s, hs, hcall⟩ := hstart.exists_guard
    (P := fun s => s.calls[1]? = some (lastPrefill "b" [8, 9], .written)) (fun _ _ _ => id)
    [.submit (lastPrefill "a" [7, 8]), .receive 0, .serveKey, .serveKey, .respond, .write 0,
      .submit (lastPrefill "b" [8, 9]), .receive 1, .serveKey, .serveKey, .respond, .notify 0,
      .retrieve 0 8, .write 1] (by decide +kernel)
  obtain ⟨s', hstep⟩ : ∃ s', s.step (· + 100) (.notify 1) = some s' := by
    simp only [step, hcall]
    exact ⟨_, rfl⟩
  obtain ⟨call, hcall', -, hkeys⟩ := announced_complete (· + 100) hs hstep
  obtain rfl : (lastPrefill "b" [8, 9]) = call :=
    congrArg Prod.fst (Option.some.inj (hcall.symm.trans hcall'))
  exact ⟨s, s', hs, hstep, hkeys⟩

/-- Two calls with the same key.  The second one is told that the key was sent already, and notifies
the proxy when the page is still empty. -/
theorem announced_without_data : ∃ s s' : Transfer ℕ ℕ, (system (· + 100)).Reachable s ∧
    s.calls[1]? = some (lastPrefill "b" [7], .written) ∧
    s.step (· + 100) (.notify 1) = some s' ∧
      s'.received.data.get? 7 = some 0 ∧ s'.mem 0 = 0 := by
  have hstart : (system (B := ℕ) (K := ℕ) (· + 100)).Reachable threePages :=
    .init ⟨rfl, by decide, rfl, rfl, rfl⟩
  obtain ⟨s, hs, hcall, hget, hmem⟩ := hstart.exists_replay
    (P := fun s => s.calls[1]? = some (lastPrefill "b" [7], .written) ∧
      s.received.data.get? 7 = some 0 ∧ s.mem 0 = 0) (fun _ _ _ => id)
    [.submit (lastPrefill "a" [7]), .receive 0, .serveKey, .respond,
      .submit (lastPrefill "b" [7]), .receive 1, .serveKey, .respond, .write 1] (by decide +kernel)
  let s' : Transfer ℕ ℕ :=
    { s with
      calls := s.calls.set 1 (lastPrefill "b" [7], .finished)
      announced := "b" :: s.announced }
  have hstep : s.step (· + 100) (.notify 1) = some s' := by
    simp only [step, hcall]
    rfl
  exact ⟨s, s', hs, hcall, hstep, hget, hmem⟩

end LMCache.PD.Transfer
