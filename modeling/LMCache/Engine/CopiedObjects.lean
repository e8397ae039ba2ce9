import Mathlib.Data.List.Basic
import Mathlib.Data.Nat.Basic

/-! # Objects that are copied for another allocator

`batched_put` copies its objects for a backend with another allocator.  `allocate_and_copy_objects`
passes over the keys that the allocator backend contains, stops when there is no memory, and returns
as many of the keys as it has copied objects, counted from the first one on.

**Main result**: `copied_objects_paired`.  The two lists are of equal length, and the objects belong
to the keys if no memory is found behind a key that is passed over (`InOrder`), and only then if the
objects hold different data.  In `copied_under_other_key` some is, and the data of a chunk is stored
under the key of another one. -/

namespace LMCache

open List

/-- What is used of an allocator backend: whether it contains a key, the object that it allocates
for a shape, a dtype and a format, whether that object has a tensor, and its release if it has
none. -/
structure AllocatorBackend (S K M O : Type) where
  contains : S → K → Bool
  allocate : S → M → Option O × S
  hasTensor : O → Bool
  refCountDown : S → O → S

namespace AllocatorBackend

variable {S K M O B : Type} (a : AllocatorBackend S K M O)

/-- The loop over the keys and the source objects, each one with its metadata and its data.  An
allocated object is returned with the data that was copied to it. -/
def copyLoop : S → List (K × M × B) → List (O × B) × S
  | s, [] => ([], s)
  | s, (key, src) :: items =>
    if a.contains s key then copyLoop s items
    else
      match a.allocate s src.1 with
      | (none, s) => ([], s)
      | (some memoryObj, s) =>
        if !a.hasTensor memoryObj then ([], a.refCountDown s memoryObj)
        else
          let r := copyLoop s items
          ((memoryObj, src.2) :: r.1, r.2)

def allocateAndCopyObjects (s : S) (keys : List K) (srcMemoryObjs : List (M × B)) :
    List K × List (O × B) × S :=
  let r := a.copyLoop s (keys.zip srcMemoryObjs)
  (keys.take r.1.length, r.1, r.2)

/-- There is no memory for the first of the items whose key is not contained. -/
def Stuck (s : S) (items : List (K × M × B)) : Prop :=
  ∀ x ∈ items.find? (fun x => !a.contains s x.1), ∀ memoryObj ∈ (a.allocate s x.2.1).1,
    a.hasTensor memoryObj = false

/-- **The condition.**  There is no memory behind a key that is passed over. -/
def InOrder : S → List (K × M × B) → Prop
  | _, [] => True
  | s, (key, src) :: items =>
    if a.contains s key then a.Stuck s items
    else
      match a.allocate s src.1 with
      | (none, _) => True
      | (some memoryObj, s) => a.hasTensor memoryObj → InOrder s items

/-- The `i`-th object holds the data of the `i`-th returned key. -/
def Paired (keys : List K) (srcMemoryObjs : List (M × B)) (r : List K × List (O × B) × S) : Prop :=
  ∀ (i : ℕ) key memoryObj data, r.1[i]? = some key → r.2.1[i]? = some (memoryObj, data) →
    keys[i]? = some key ∧ ∃ metadata, srcMemoryObjs[i]? = some (metadata, data)

variable {a} {s : S}

theorem length_copyLoop_le (s : S) (items : List (K × M × B)) :
    (a.copyLoop s items).1.length ≤ items.length := by
  fun_induction copyLoop a s items with
  | case1 | case3 | case4 => exact Nat.zero_le _
  | case2 s key src items _ ih => exact Nat.le_succ_of_le ih
  | case5 s key src items _ memoryObj s' _ _ r ih => exact Nat.succ_le_succ ih

theorem copyLoop_eq_nil_iff (s : S) (items : List (K × M × B)) :
    (a.copyLoop s items).1 = [] ↔ a.Stuck s items := by
  fun_induction copyLoop a s items with
  | case1 => simp [Stuck]
  | case2 s key src items hcontains ih => simpa [Stuck, find?_cons, hcontains] using ih
  | case3 s key src items hcontains s' halloc => simp [Stuck, hcontains, halloc]
  | case4 s key src items hcontains obj s' halloc hnone =>
    simpa [Stuck, find?_cons, hcontains, halloc] using hnone
  | case5 s key src items hcontains obj s' halloc hsome r ih =>
    simpa [Stuck, find?_cons, hcontains, halloc] using hsome

theorem data_mem_of_copyLoop {x : O × B} {items : List (K × M × B)}
    (hx : x ∈ (a.copyLoop s items).1) : x.2 ∈ items.map fun x => x.2.2 := by
  fun_induction copyLoop a s items with
  | case1 | case3 | case4 => cases hx
  | case2 s key src items _ ih => exact mem_cons_of_mem _ (ih hx)
  | case5 s key src items _ memoryObj s' _ _ r ih =>
    rcases mem_cons.mp hx with rfl | hx
    · exact mem_cons_self
    · exact mem_cons_of_mem _ (ih hx)

/-- The data of the objects is that of the first items. -/
def Aligned (a : AllocatorBackend S K M O) (s : S) (items : List (K × M × B)) : Prop :=
  (a.copyLoop s items).1.map Prod.snd =
    (items.map fun x => x.2.2).take (a.copyLoop s items).1.length

theorem aligned_of_inOrder {items : List (K × M × B)} (h : a.InOrder s items) :
    a.Aligned s items := by
  unfold Aligned
  revert h
  fun_induction copyLoop a s items with
  | case1 | case3 | case4 => exact fun _ => rfl
  | case2 s key src items hcontains ih =>
    intro h
    rw [InOrder, if_pos hcontains, ← copyLoop_eq_nil_iff] at h
    rw [h]
    rfl
  | case5 s key src items hcontains memoryObj s' halloc htensor r ih =>
    intro h
    rw [InOrder, if_neg hcontains, halloc] at h
    exact congrArg (src.2 :: ·) (ih (h (by simpa using htensor)))

theorem inOrder_of_aligned {items : List (K × M × B)} (hdata : (items.map fun x => x.2.2).Nodup)
    (h : a.Aligned s items) : a.InOrder s items := by
  unfold Aligned at h
  revert h
  fun_induction copyLoop a s items with
  | case1 => exact fun _ => trivial
  | case2 s key src items hcontains ih =>
    -- the first object would hold the data of the key that was passed over
    intro h
    rw [InOrder, if_pos hcontains, ← copyLoop_eq_nil_iff]
    cases hloop : (a.copyLoop s items).1 with
    | nil => rfl
    | cons x xs =>
      rw [hloop] at h
      have hmem := data_mem_of_copyLoop (a := a) (s := s) (hloop ▸ mem_cons_self (a := x))
      rw [(cons.inj h).1] at hmem
      exact absurd hmem (nodup_cons.mp hdata).1
  | case3 s key src items hcontains s' halloc =>
    rw [InOrder, if_neg hcontains, halloc]
    exact fun _ => trivial
  | case4 s key src items hcontains obj s' halloc hnone =>
    intro _
    rw [InOrder, if_neg hcontains, halloc]
    exact fun hsome => absurd hsome (by simpa using hnone)
  | case5 s key src items hcontains memoryObj s' halloc _ r ih =>
    intro h
    rw [InOrder, if_neg hcontains, halloc]
    exact fun _ => ih (nodup_cons.mp hdata).2 (cons.inj h).2

theorem paired_iff (s : S) (keys : List K) (srcMemoryObjs : List (M × B)) :
    Paired keys srcMemoryObjs (a.allocateAndCopyObjects s keys srcMemoryObjs) ↔
      a.Aligned s (keys.zip srcMemoryObjs) := by
  have hle := length_copyLoop_le (a := a) s (keys.zip srcMemoryObjs)
  constructor
  · intro h
    refine ext_getElem? fun i => ?_
    rcases lt_or_ge i (a.copyLoop s (keys.zip srcMemoryObjs)).1.length with hi | hi
    · have hzip := Nat.lt_of_lt_of_le hi hle
      have hkeys : i < keys.length := by
        rw [length_zip] at hzip
        omega
      obtain ⟨-, metadata, hsrc⟩ := h i keys[i] _ _
        ((getElem?_take_of_lt hi).trans (getElem?_eq_getElem hkeys)) (getElem?_eq_getElem hi)
      have hx : (keys.zip srcMemoryObjs)[i]? = some (keys[i], _) :=
        getElem?_zip_eq_some.mpr ⟨getElem?_eq_getElem hkeys, hsrc⟩
      simp [getElem?_take_of_lt hi, hx, hi]
    · rw [getElem?_eq_none (by simpa using hi),
        getElem?_eq_none (Nat.le_trans (length_take_le ..) hi)]
  · intro h i key memoryObj data hkey hobj
    have hdata := congrArg (·[i]?) h
    have hobj : (a.copyLoop s (keys.zip srcMemoryObjs)).1[i]? = some (memoryObj, data) := hobj
    have hi : i < (a.copyLoop s (keys.zip srcMemoryObjs)).1.length :=
      (List.getElem?_eq_some_iff.mp hobj).1
    simp only [getElem?_map, hobj, Option.map_some, getElem?_take_of_lt hi] at hdata
    obtain ⟨x, hx, rfl⟩ := Option.map_eq_some_iff.mp hdata.symm
    exact ⟨(getElem?_take_of_lt hi).symm.trans hkey, x.2.1, (getElem?_zip_eq_some.mp hx).2⟩

/-- **Copied objects and their keys.**  As many keys are returned as objects, and each object holds
the data of its key if there is no memory behind a key that is passed over; if the source objects
hold different data, only then. -/
theorem copied_objects_paired (s : S) (keys : List K) (srcMemoryObjs : List (M × B)) :
    let r := a.allocateAndCopyObjects s keys srcMemoryObjs
    r.1.length = r.2.1.length ∧
      (a.InOrder s (keys.zip srcMemoryObjs) → Paired keys srcMemoryObjs r) ∧
      (((keys.zip srcMemoryObjs).map fun x => x.2.2).Nodup →
        (Paired keys srcMemoryObjs r ↔ a.InOrder s (keys.zip srcMemoryObjs))) := by
  have henough := fun h => (paired_iff s keys srcMemoryObjs).mpr (aligned_of_inOrder (a := a) h)
  refine ⟨?_, henough, fun hdata => ⟨fun h => ?_, henough⟩⟩
  · have hle := length_copyLoop_le (a := a) s (keys.zip srcMemoryObjs)
    rw [length_zip] at hle
    exact length_take_of_le (Nat.le_trans hle (Nat.min_le_left ..))
  · exact inOrder_of_aligned hdata ((paired_iff s keys srcMemoryObjs).mp h)

/-- A backend that contains the keys of its state, and has memory for every object. -/
def roomy : AllocatorBackend (List ℕ) ℕ Unit ℕ where
  contains s key := key ∈ s
  allocate s _ := (some 0, s)
  hasTensor _ := true
  refCountDown s _ := s

/-- The last key is passed over. -/
theorem copied_objects_paired_last :
    let r := roomy.allocateAndCopyObjects [2] [1, 2] [((), 10), ((), 20)]
    r.1 = [1] ∧ Paired [1, 2] [((), 10), ((), 20)] r :=
  ⟨rfl, ((copied_objects_paired [2] [1, 2] [((), 10), ((), 20)]).2.2 (by decide)).mpr
    (by simp [InOrder, Stuck, roomy])⟩

/-- **A shift**: the first key is passed over, and is returned with the data of the second one. -/
theorem copied_under_other_key :
    let r := roomy.allocateAndCopyObjects [1] [1, 2] [((), 10), ((), 20)]
    r.1 = [1] ∧ r.2.1 = [(0, 20)] ∧ ¬ Paired [1, 2] [((), 10), ((), 20)] r := by
  refine ⟨rfl, rfl, fun h => ?_⟩
  obtain ⟨-, _, hsrc⟩ := h 0 1 0 20 rfl rfl
  simp at hsrc

end AllocatorBackend

end LMCache
