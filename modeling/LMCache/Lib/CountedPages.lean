import Mathlib.Data.List.Nodup

/-! # Pages with reference counts

A pool of pages is a queue of free pages and a reference count for each page.  `take` hands out the
page at the head of the queue with one reference, `retain` adds a reference, and `release` takes one
away and puts the page back when none is left.  Nothing stops a release of a page that is free
already: it is put back twice.

`Owned p held` says that the references of page `i` are held by `held i` owners.  As long as each
owner releases what it holds and nothing else, `Owned` is kept, and a page that somebody holds is
not free: it is not handed out again.  The rules are stated once more for a list that has each page
as often as it is held.  `writeAll` writes the contents of several pages. -/

/-- The free pages, and the reference counts of all pages. -/
structure CountedPages where
  free : List ℕ
  refs : ℕ → ℕ

namespace CountedPages

open List Function

/-- Hand out a page, if there is one. -/
def take (p : CountedPages) : Option (ℕ × CountedPages) :=
  match p.free with
  | [] => none
  | i :: free => some (i, ⟨free, update p.refs i 1⟩)

/-- One more reference. -/
def retain (p : CountedPages) (i : ℕ) : CountedPages :=
  { p with refs := update p.refs i (p.refs i + 1) }

/-- One reference less; the page is free when none is left. -/
def release (p : CountedPages) (i : ℕ) : CountedPages where
  free := if p.refs i - 1 = 0 then p.free ++ [i] else p.free
  refs := update p.refs i (p.refs i - 1)

/-- One reference less for each page of a list. -/
def releaseAll (p : CountedPages) (is : List ℕ) : CountedPages := is.foldl release p

/-- The page `i` has `held i` owners. -/
structure Owned (p : CountedPages) (held : ℕ → ℕ) : Prop where
  nodup : p.free.Nodup
  counted : ∀ i, 0 < held i → i ∉ p.free ∧ p.refs i = held i

section
variable {p q : CountedPages} {held held' : ℕ → ℕ} {i j : ℕ}

@[simp] theorem retain_free : (p.retain i).free = p.free := rfl

theorem retain_refs : (p.retain i).refs = update p.refs i (p.refs i + 1) := rfl

theorem release_refs : (p.release i).refs = update p.refs i (p.refs i - 1) := rfl

/-- A page that is released with other references left is not put back. -/
theorem release_free_of_lt (h : 1 < p.refs i) : (p.release i).free = p.free :=
  if_neg (by omega)

/-- The last reference is released. -/
theorem release_free_of_le (h : p.refs i ≤ 1) : (p.release i).free = p.free ++ [i] :=
  if_pos (by omega)

/-- Only the page itself is put back. -/
theorem mem_release_free (h : j ∈ (p.release i).free) : j ∈ p.free ∨ j = i ∧ p.refs i ≤ 1 := by
  by_cases hlast : p.refs i ≤ 1
  · rw [release_free_of_le hlast, mem_append, mem_singleton] at h
    exact h.imp_right fun heq => ⟨heq, hlast⟩
  · rw [release_free_of_lt (by omega)] at h
    exact .inl h

theorem take_eq_some (h : p.take = some (i, q)) :
    p.free = i :: q.free ∧ q.refs = update p.refs i 1 := by
  unfold take at h
  grind

/-! ### Ownership -/

namespace Owned

section
variable (h : Owned p held)

include h

theorem not_free (hi : 0 < held i) : i ∉ p.free := (h.counted i hi).1

theorem refs_eq (hi : 0 < held i) : p.refs i = held i := (h.counted i hi).2

theorem congr (heq : ∀ i, held' i = held i) : Owned p held' where
  nodup := h.nodup
  counted i hi := by
    rw [heq] at hi ⊢
    exact h.counted i hi

/-- **A page that is handed out** had no owner, and has one now. -/
theorem take (htake : p.take = some (i, q)) : held i = 0 ∧ Owned q (update held i 1) := by
  obtain ⟨hfree, hrefs⟩ := take_eq_some htake
  have hnodup := h.nodup
  rw [hfree] at hnodup
  obtain ⟨hnot, hnodup⟩ := nodup_cons.mp hnodup
  have hzero : held i = 0 := by
    by_contra hne
    exact h.not_free (Nat.pos_of_ne_zero hne) (by rw [hfree]; exact mem_cons_self)
  refine ⟨hzero, hnodup, fun j hj => ?_⟩
  by_cases hji : j = i
  · simp_all
  · rw [update_of_ne hji] at hj ⊢
    obtain ⟨hfree_j, hrefs_j⟩ := h.counted j hj
    simp_all

/-- **An owner more.** -/
theorem retain (hi : 0 < held i) : Owned (p.retain i) (update held i (held i + 1)) where
  nodup := h.nodup
  counted j hj := by
    by_cases hji : j = i
    · subst hji
      exact ⟨h.not_free hi, by
        rw [retain_refs, update_self, update_self, h.refs_eq hi]⟩
    · rw [update_of_ne hji] at hj ⊢
      obtain ⟨hfree, hrefs⟩ := h.counted j hj
      exact ⟨hfree, by rw [retain_refs, update_of_ne hji, hrefs]⟩

/-- **An owner less**: the page is free when it was the last one. -/
theorem release (hi : 0 < held i) : Owned (p.release i) (update held i (held i - 1)) where
  nodup := by
    by_cases hlast : p.refs i ≤ 1
    · rw [release_free_of_le hlast]
      exact nodup_append.mpr ⟨h.nodup, nodup_singleton i, fun j hj k hk heq =>
        h.not_free hi (mem_singleton.mp hk ▸ heq ▸ hj)⟩
    · rw [release_free_of_lt (by omega)]
      exact h.nodup
  counted j hj := by
    have hrefs := h.refs_eq hi
    by_cases hji : j = i
    · subst hji
      rw [update_self] at hj ⊢
      rw [release_free_of_lt (by omega), release_refs, update_self, hrefs]
      exact ⟨h.not_free hi, rfl⟩
    · rw [update_of_ne hji] at hj ⊢
      obtain ⟨hfree, hrefs_j⟩ := h.counted j hj
      refine ⟨fun hmem => ?_, by rw [release_refs, update_of_ne hji, hrefs_j]⟩
      obtain hmem | ⟨heq, -⟩ := mem_release_free hmem
      · exact hfree hmem
      · exact hji heq

/-- The last owner gives the page back. -/
theorem mem_free_of_last (hi : held i = 1) : i ∈ (p.release i).free := by
  have hrefs := h.refs_eq (hi ▸ Nat.one_pos)
  rw [release_free_of_le (by omega)]
  exact mem_append_right _ (mem_singleton_self i)

end

/-! ### A list of owners

`owners` has each page as often as it is held. -/

variable {owners owners' : List ℕ}

theorem perm (h : Owned p owners.count) (hperm : owners.Perm owners') : Owned p owners'.count :=
  h.congr fun i => (hperm.count_eq i).symm

theorem take_count (h : Owned p owners.count) (htake : p.take = some (i, q)) :
    i ∉ owners ∧ Owned q (i :: owners).count := by
  obtain ⟨hzero, howned⟩ := h.take htake
  refine ⟨count_eq_zero.mp hzero, howned.congr fun j => ?_⟩
  grind

theorem retain_count (h : Owned p owners.count) (hi : i ∈ owners) :
    Owned (p.retain i) (i :: owners).count := by
  refine (h.retain (count_pos_iff.mpr hi)).congr fun j => ?_
  grind

theorem release_count (h : Owned p (i :: owners).count) : Owned (p.release i) owners.count := by
  refine (h.release (by rw [count_cons_self]; omega)).congr fun j => ?_
  grind

theorem releaseAll_count {is : List ℕ} (h : Owned p (is ++ owners).count) :
    Owned (p.releaseAll is) owners.count := by
  induction is generalizing p with
  | nil => exact h
  | cons i is ih => exact ih h.release_count

end Owned

end

/-! ### The contents of the pages -/

section
variable {I B : Type} [DecidableEq I] {mem : I → B} {writes : List (I × B)} {i : I} {b : B}

/-- A batch of writes, one after the other. -/
def writeAll (mem : I → B) (writes : List (I × B)) : I → B :=
  writes.foldl (fun mem w => update mem w.1 w.2) mem

/-- A page that is not written keeps its contents. -/
theorem writeAll_of_forall_ne (h : ∀ w ∈ writes, w.1 ≠ i) : writeAll mem writes i = mem i := by
  refine foldlRecOn (motive := fun mem' : I → B => mem' i = mem i) writes _ rfl
    fun mem' hmem w hw => ?_
  exact (update_of_ne (Ne.symm (h w hw)) ..).trans hmem

/-- A page to which only `b` is written holds `b`, if it is written or held `b` before. -/
theorem writeAll_eq (h : ∀ w ∈ writes, w.1 = i → w.2 = b)
    (hi : mem i = b ∨ ∃ w ∈ writes, w.1 = i) : writeAll mem writes i = b := by
  induction writes generalizing mem with
  | nil => exact hi.resolve_right fun ⟨w, hw, _⟩ => nomatch hw
  | cons w writes ih =>
    refine ih (forall_mem_cons.mp h).2 ?_
    grind

end

end CountedPages
