import LMCache.Lib.CountedPages
import LMCache.Lib.Dict

/-! # Pages that were received

The receivers of `PDBackend` and of `SharedDiskBackend` keep the objects that they were sent in
`data`, by key.  An object is a page of a paged allocator with its reference count; `data` holds the
reference with which it was allocated.  The two classes have the same methods on `data`, each one
section under the lock `data_lock`: `contains`, `put` and `remove`. -/

namespace LMCache

/-- `data` and the pages of the allocator. -/
structure ReceivedPages (K : Type) where
  pages : CountedPages
  data : Dict K ℕ

namespace ReceivedPages
variable {K : Type} [DecidableEq K]

/-- `contains`: a pin is a reference. -/
def contains (r : ReceivedPages K) (k : K) (pin : Bool) : Bool × ReceivedPages K :=
  match r.data.get? k with
  | none => (false, r)
  | some page => (true, if pin then { r with pages := r.pages.retain page } else r)

def put (r : ReceivedPages K) (k : K) (page : ℕ) : ReceivedPages K :=
  { r with data := r.data.set k page }

/-- `remove`: the key stays when there are other references.  The reference of `data` is not
released here. -/
def remove (r : ReceivedPages K) (k : K) : Bool × ReceivedPages K :=
  match r.data.get? k with
  | none => (false, r)
  | some page => (true, if r.pages.refs page = 1 then { r with data := r.data.erase k } else r)

def Injective (r : ReceivedPages K) : Prop :=
  ∀ k k' page, r.data.get? k = some page → r.data.get? k' = some page → k = k'

variable {r : ReceivedPages K}

theorem Injective.put (h : r.Injective) (k : K) {page : ℕ}
    (hnew : ∀ k', r.data.get? k' ≠ some page) : (r.put k page).Injective := by
  intro k₁ k₂ i h₁ h₂
  simp only [ReceivedPages.put, Dict.get?_set] at h₁ h₂
  split at h₁ <;> split at h₂
  · rename_i hk₁ hk₂
    rw [hk₁, hk₂]
  · cases h₁
    exact absurd h₂ (hnew k₂)
  · cases h₂
    exact absurd h₁ (hnew k₁)
  · exact h k₁ k₂ i h₁ h₂

theorem get?_of_remove {k k' : K} {page : ℕ} (h : (r.remove k).2.data.get? k' = some page) :
    r.data.get? k' = some page := by
  unfold remove at h
  grind

theorem Injective.remove (h : r.Injective) (k : K) :
    (r.remove k).2.Injective := fun k₁ k₂ page h₁ h₂ =>
  h k₁ k₂ page (get?_of_remove h₁) (get?_of_remove h₂)

/-- **`remove`** takes the key away when the reference of `data` is the only one. -/
theorem get?_remove_self {k : K} {page : ℕ} (h : r.data.get? k = some page) :
    (r.remove k).2.data.get? k = if r.pages.refs page = 1 then none else some page := by
  unfold remove
  grind

theorem get?_remove_of_ne {k k' : K} (h : k' ≠ k) :
    (r.remove k).2.data.get? k' = r.data.get? k' := by
  unfold remove
  grind

@[simp] theorem remove_pages (r : ReceivedPages K) (k : K) : (r.remove k).2.pages = r.pages := by
  unfold remove
  grind

end ReceivedPages

end LMCache
