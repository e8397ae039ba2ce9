import Mathlib.Data.Set.Function
import LMCache.Lib.Transition

/-! # The connector to a shared disk

`LocalSharedDiskConnector` keeps the value of a key in a file of its own.  There are two ways to
write.  The buffered one opens the file with `"wb"`, which empties it, and writes everything.  The
direct one, for values whose length is a multiple of the block size when `use_odirect` is set, opens
the file without `O_TRUNC` and calls `os.write` once, which may write fewer bytes than it is given;
its result is not looked at.  `read_into` fills a buffer as far as the file goes and does not
compare the lengths.

`reads_last_value`: provided that every direct write is complete and not shorter than the file that
it overwrites, and that nothing raises, `read` returns the last value since the last `delete`, and
`read_into` gets it into a buffer of its length.

`stale_and_short_values` has the three ways in which this fails.

A file is its bytes, and what is written is read.  The result of the system calls is a parameter of
each call; after an exception the file is as it may be. -/

namespace LMCache.SharedDisk

open Function

abbrev Bytes := List UInt8

abbrev Files := String → Option Bytes

/-- `LocalSharedDiskConnector`. -/
structure Connector where
  basePath : String
  useOdirect : Bool
  blockSize : ℕ

/-- How the system calls of a write end: with the number of bytes that `os.write` returns, or with
an exception and the file that is left. -/
inductive WriteResult where
  | wrote (n : ℕ)
  | raised (left : Option Bytes)

namespace Connector
variable (c : Connector)

/-- `os.path.join`, for a name that does not begin with a slash. -/
def osPathJoin (base name : String) : String :=
  if base = "" ∨ base.toList.getLast? = some '/' then base ++ name else base ++ "/" ++ name

def safeChar : Char → Char
  | '/' => '-'
  | ':' => '_'
  | char => char

def keyToPath (key : String) : String :=
  osPathJoin c.basePath (String.ofList (key.toList.map safeChar) ++ ".bin")

def direct (data : Bytes) : Bool := c.useOdirect && data.length % c.blockSize = 0

def overwrite (old new : Bytes) : Bytes := new ++ old.drop new.length

def write (files : Files) (key : String) (data : Bytes) : WriteResult → Bool × Files
  | .raised left => (false, update files (c.keyToPath key) left)
  | .wrote n =>
    let path := c.keyToPath key
    let file :=
      if c.direct data then overwrite ((files path).getD []) (data.take n) else data
    (true, update files path (some file))

def read (files : Files) (key : String) : Option Bytes := files (c.keyToPath key)

def readInto (files : Files) (key : String) (buffer : Bytes) : Bool × Bytes :=
  match files (c.keyToPath key) with
  | none => (false, buffer)
  | some file => (true, overwrite buffer (file.take buffer.length))

def delete (files : Files) (key : String) (raises : Bool) : Bool × Files :=
  if raises then (false, files) else (true, update files (c.keyToPath key) none)

/-! ### The two ways to write -/

/-- A direct write that leaves the value in the file: all bytes are written, and none is left of the
old file. -/
def Whole (files : Files) (key : String) (data : Bytes) (n : ℕ) : Prop :=
  c.direct data = true →
    data.length ≤ n ∧ ∀ old ∈ files (c.keyToPath key), old.length ≤ data.length

theorem overwrite_of_length_le {old new : Bytes} (h : old.length ≤ new.length) :
    overwrite old new = new := by
  unfold overwrite
  rw [List.drop_eq_nil_of_le h, List.append_nil]

variable {c} {files : Files} {key : String} {data : Bytes} {n : ℕ}

/-- **The file of a whole write is the value.** -/
theorem write_wrote (h : c.Whole files key data n) :
    c.write files key data (.wrote n) = (true, update files (c.keyToPath key) (some data)) := by
  unfold write
  dsimp only
  split
  · rename_i hdirect
    obtain ⟨hn, hold⟩ := h hdirect
    rw [List.take_of_length_le hn, overwrite_of_length_le]
    cases hfile : files (c.keyToPath key) with
    | none => exact Nat.zero_le _
    | some old => exact hold old hfile
  · rfl

theorem readInto_some {buffer : Bytes} (h : files (c.keyToPath key) = some data)
    (hlen : buffer.length = data.length) : c.readInto files key buffer = (true, data) := by
  unfold readInto
  rw [h]
  dsimp only
  rw [List.take_of_length_le hlen.ge, overwrite_of_length_le hlen.le]

end Connector

/-! ### Whole runs -/

/-- The files, and the last values that were written. -/
structure Store where
  files : Files
  values : String → Option Bytes

inductive StoreEvent where
  | write (key : String) (data : Bytes) (result : WriteResult)
  | delete (key : String) (raises : Bool)

namespace Store
variable (c : Connector)

/-- `write` and `delete`, and the value that a call stands for when it returns `True`. -/
def step (s : Store) : StoreEvent → Store
  | .write key data result =>
    match c.write s.files key data result with
    | (true, files) => ⟨files, update s.values key (some data)⟩
    | (false, files) => ⟨files, s.values⟩
  | .delete key raises =>
    match c.delete s.files key raises with
    | (true, files) => ⟨files, update s.values key none⟩
    | (false, files) => ⟨files, s.values⟩

def system : LTS Store StoreEvent where
  init s := s.files = (fun _ => none) ∧ s.values = fun _ => none
  step s e s' := s' = s.step c e

/-- **The condition.**  The keys are among `keys`, writes are whole, and nothing raises. -/
def Whole (keys : Set String) (s : Store) : StoreEvent → Prop
  | .write key data (.wrote n) => key ∈ keys ∧ c.Whole s.files key data n
  | .write _ _ (.raised _) => False
  | .delete key raises => key ∈ keys ∧ raises = false

def Represents (keys : Set String) (s : Store) : Prop :=
  ∀ key ∈ keys, s.files (c.keyToPath key) = s.values key

variable {c}

/-- One key changes, in its file and in the values. -/
theorem Represents.update {keys : Set String} {s : Store} (h : s.Represents c keys)
    (hpaths : keys.InjOn c.keyToPath) {key : String} (hkey : key ∈ keys) (value : Option Bytes) :
    Represents c keys ⟨update s.files (c.keyToPath key) value, update s.values key value⟩ := by
  intro key' hkey'
  by_cases heq : key' = key
  · subst heq
    simp
  · have hne : c.keyToPath key' ≠ c.keyToPath key := fun hpath => heq (hpaths hkey' hkey hpath)
    simpa [heq, hne] using h key' hkey'

theorem represents_inductive {keys : Set String} (hpaths : keys.InjOn c.keyToPath) :
    ((system c).restrict (Whole c keys)).Inductive (Represents c keys) where
  init s h key _ := by rw [h.1, h.2]
  step s e s' h hstep := by
    obtain ⟨hok, rfl⟩ := hstep
    cases e with
    | write key data result =>
      cases result with
      | raised left => exact hok.elim
      | wrote n =>
        simp only [step, Connector.write_wrote hok.2]
        exact h.update hpaths hok.1 (some data)
    | delete key raises =>
      obtain ⟨hkey, rfl⟩ := hok
      exact h.update hpaths hkey none

/-- **`read` returns the last value**, and `read_into` gets it.  For keys with distinct paths, in
every run in which direct writes are complete and not shorter than the file, and in which nothing
raises. -/
theorem reads_last_value {keys : Set String} (hpaths : keys.InjOn c.keyToPath) {s : Store}
    (hs : ((system c).restrict (Whole c keys)).Reachable s) {key : String} (hkey : key ∈ keys) :
    c.read s.files key = s.values key ∧
      ∀ buffer, (∀ value ∈ s.values key, buffer.length = value.length) →
        c.readInto s.files key buffer = (s.values key).elim (false, buffer) fun value =>
          (true, value) := by
  have h := (represents_inductive hpaths).reachable hs key hkey
  refine ⟨h, fun buffer hlen => ?_⟩
  cases hvalue : s.values key with
  | none => simp [Connector.readInto, h, hvalue]
  | some value =>
    exact Connector.readInto_some (h.trans hvalue) (hlen value hvalue)

/-- A connector with direct writes, of two bytes a block. -/
def twoByteBlocks : Connector := ⟨"/d", true, 2⟩

theorem reachable_empty (keys : Set String) :
    ((system twoByteBlocks).restrict (Whole twoByteBlocks keys)).Reachable
      ⟨fun _ => none, fun _ => none⟩ :=
  .init ⟨rfl, rfl⟩

/-- A value of one block is overwritten by one of two, and a second key is written and deleted. -/
theorem reads_last_value_two_blocks :
    ∃ s : Store, ((system twoByteBlocks).restrict (Whole twoByteBlocks {"k", "l"})).Reachable s ∧
      twoByteBlocks.read s.files "k" = some [3, 4, 5, 6] ∧
      twoByteBlocks.read s.files "l" = none := by
  have hpaths : Set.InjOn twoByteBlocks.keyToPath {"k", "l"} := by
    rintro _ (rfl | rfl) _ (rfl | rfl) h
    · rfl
    · exact absurd h (by decide)
    · exact absurd h (by decide)
    · rfl
  have hk := (reachable_empty {"k", "l"}).step (e := StoreEvent.write "k" [1, 2] (.wrote 2))
    ⟨⟨.inl rfl, fun _ => ⟨le_rfl, by decide⟩⟩, rfl⟩
  have hl := hk.step (e := StoreEvent.write "l" [7, 8] (.wrote 2))
    ⟨⟨.inr rfl, fun _ => ⟨le_rfl, by decide⟩⟩, rfl⟩
  have hover := hl.step (e := StoreEvent.write "k" [3, 4, 5, 6] (.wrote 4))
    ⟨⟨.inl rfl, fun _ => ⟨le_rfl, by decide⟩⟩, rfl⟩
  have hs := hover.step (e := StoreEvent.delete "l" false) ⟨⟨.inr rfl, rfl⟩, rfl⟩
  exact ⟨_, hs, (reads_last_value hpaths hs (.inl rfl)).1.trans (by decide),
    (reads_last_value hpaths hs (.inr rfl)).1.trans (by decide)⟩

def run (events : List StoreEvent) : Store :=
  events.foldl (step twoByteBlocks) ⟨fun _ => none, fun _ => none⟩

theorem reachable_run (events : List StoreEvent) : (system twoByteBlocks).Reachable (run events) :=
  (reachable_empty ∅).of_restrict.foldl (fun _ _ => rfl) events

/-- A shorter value after a longer one; a short write; a buffer that is longer than the value. -/
theorem stale_and_short_values :
    (∃ s, (system twoByteBlocks).Reachable s ∧ s.values "k" = some [5, 6] ∧
      twoByteBlocks.read s.files "k" = some [5, 6, 3, 4]) ∧
    (∃ s, (system twoByteBlocks).Reachable s ∧ s.values "k" = some [5, 6] ∧
      twoByteBlocks.read s.files "k" = some [5]) ∧
    ∃ s, (system twoByteBlocks).Reachable s ∧ s.values "k" = some [5, 6] ∧
      twoByteBlocks.readInto s.files "k" [0, 0, 9] = (true, [5, 6, 9]) :=
  ⟨⟨_, reachable_run [.write "k" [1, 2, 3, 4] (.wrote 4), .write "k" [5, 6] (.wrote 2)], rfl, rfl⟩,
    ⟨_, reachable_run [.write "k" [5, 6] (.wrote 1)], rfl, rfl⟩,
    ⟨_, reachable_run [.write "k" [5, 6] (.wrote 2)], rfl, rfl⟩⟩

end Store

end LMCache.SharedDisk
