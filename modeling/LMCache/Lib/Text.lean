import Mathlib.Data.List.DropRight
import Mathlib.Tactic.IntervalCases

/-! # Texts

The operations on texts from which a record format with separators is made, as Python has
them, and what undoes what.

* `split`, `join`: the fields between separators (`split_join`, `split_append`).
* `splitOnce`: the two parts around the first separator (`splitOnce_append`).
* `strip`: the text without white space at its ends.
* `formatInt`, `parseInt`: integers in a base up to 16 (`parseInt_formatInt`).  `parseInt`
  takes what `int(s, base)` takes: white space around the number, a sign, the prefix `0x` of
  base 16 and single underscores between digits.  Digits outside of ASCII are left out. -/

namespace Text

open List

/-! ### Fields -/

/-- `s.split(c)`. -/
def split (c : Char) (s : String) : List String := (s.toList.splitOn c).map String.ofList

/-- `c.join(fields)`. -/
def join (c : Char) (fields : List String) : String := (String.singleton c).intercalate fields

/-- `s.split(c, 1)`, when there is a separator. -/
def splitOnce (c : Char) (s : String) : Option (String × String) :=
  match s.toList.dropWhile (· ≠ c) with
  | [] => none
  | _ :: rest => some (String.ofList (s.toList.takeWhile (· ≠ c)), String.ofList rest)

/-- The rest of a text after a given beginning. -/
def after? (beginning s : String) : Option String :=
  (s.toList.dropPrefix? beginning.toList).map String.ofList

variable {c : Char} {s t : String}

theorem split_append : split c (s ++ String.singleton c ++ t) = split c s ++ split c t := by
  simp [split, splitOn_append_cons_self]

theorem split_of_notMem (h : c ∉ s.toList) : split c s = [s] := by
  simp [split, splitOn_eq_singleton h]

theorem join_cons_cons (fields : List String) :
    join c (s :: t :: fields) = s ++ String.singleton c ++ join c (t :: fields) := by
  apply String.ext
  simp [join, String.toList_intercalate]

theorem join_singleton : join c [s] = s := by
  apply String.ext
  simp [join]

/-- The fields come back when none of them contains the separator. -/
theorem split_join {fields : List String} (hne : fields ≠ [])
    (h : ∀ field ∈ fields, c ∉ field.toList) : split c (join c fields) = fields := by
  induction fields with
  | nil => exact absurd rfl hne
  | cons s fields ih =>
    have hs := h s mem_cons_self
    cases fields with
    | nil => rw [join_singleton, split_of_notMem hs]
    | cons t fields =>
      rw [join_cons_cons, split_append, split_of_notMem hs,
        ih (cons_ne_nil _ _) (forall_mem_cons.mp h).2]
      rfl

theorem splitOnce_append (h : c ∉ s.toList) :
    splitOnce c (s ++ String.singleton c ++ t) = some (s, t) := by
  have hne : ∀ x ∈ s.toList, decide (x ≠ c) = true := fun x hx =>
    decide_eq_true fun heq => h (heq ▸ hx)
  have hlist : (s ++ String.singleton c ++ t).toList = s.toList ++ c :: t.toList := by simp
  rw [splitOnce, hlist, dropWhile_append_of_pos hne, takeWhile_append_of_pos hne]
  simp

theorem splitOnce_of_mem (h : c ∈ s.toList) :
    splitOnce c s = some (String.ofList (s.toList.takeWhile (· ≠ c)),
      String.ofList (s.toList.dropWhile (· ≠ c)).tail) := by
  rw [splitOnce]
  split
  · next hnil => exact absurd (dropWhile_eq_nil_iff.mp hnil c h) (by simp)
  · next hcons => rw [hcons, tail_cons]

theorem isSome_after?_iff : (after? s t).isSome ↔ s.toList <+: t.toList := by
  rw [after?, Option.isSome_map, Option.isSome_iff_exists]
  constructor
  · rintro ⟨rest, hrest⟩
    obtain ⟨beginning, hlist, heq⟩ := dropPrefix?_eq_some_iff.mp hrest
    exact ⟨rest, by rw [hlist, eq_of_beq heq]⟩
  · rintro ⟨rest, hrest⟩
    exact ⟨rest, dropPrefix?_eq_some_iff.mpr ⟨s.toList, hrest.symm, beq_self_eq_true _⟩⟩

theorem after?_append : after? s (s ++ t) = some t := by
  have h : (s.toList ++ t.toList).dropPrefix? s.toList = some t.toList :=
    dropPrefix?_eq_some_iff.mpr ⟨s.toList, rfl, beq_self_eq_true _⟩
  rw [after?, String.toList_append, h]
  simp

theorem eq_append_of_after? {rest : String} (h : after? s t = some rest) : t = s ++ rest := by
  obtain ⟨cs, hcs, rfl⟩ := Option.map_eq_some_iff.mp h
  obtain ⟨beginning, hlist, heq⟩ := dropPrefix?_eq_some_iff.mp hcs
  apply String.ext
  rw [hlist, eq_of_beq heq]
  simp

/-! ### White space -/

/-- `str.isspace` of one character. -/
def isSpace (c : Char) : Bool :=
  (0x09 ≤ c.toNat && c.toNat ≤ 0x0d) || (0x1c ≤ c.toNat && c.toNat ≤ 0x20) || c.toNat == 0x85 ||
    c.toNat == 0xa0 || c.toNat == 0x1680 || (0x2000 ≤ c.toNat && c.toNat ≤ 0x200a) ||
    c.toNat == 0x2028 || c.toNat == 0x2029 || c.toNat == 0x202f || c.toNat == 0x205f ||
    c.toNat == 0x3000

def strip (s : String) : String :=
  String.ofList ((s.toList.dropWhile isSpace).rdropWhile isSpace)

theorem strip_of_noSpace (h : ∀ c ∈ s.toList, isSpace c = false) : strip s = s := by
  have hdrop : s.toList.dropWhile isSpace = s.toList :=
    dropWhile_eq_self_iff.mpr fun hl => by simp [h _ (getElem_mem hl)]
  have hright : s.toList.rdropWhile isSpace = s.toList :=
    rdropWhile_eq_self_iff.mpr fun hl => by simp [h _ (getLast_mem hl)]
  rw [strip, hdrop, hright, String.ofList_toList]

/-! ### Integers -/

/-- The value of a digit. -/
def digitValue (c : Char) : Option ℕ :=
  if '0' ≤ c ∧ c ≤ '9' then some (c.toNat - '0'.toNat)
  else if 'a' ≤ c ∧ c ≤ 'z' then some (c.toNat - 'a'.toNat + 10)
  else if 'A' ≤ c ∧ c ≤ 'Z' then some (c.toNat - 'A'.toNat + 10)
  else none

/-- One more digit behind a number. -/
def appendDigit (base value : ℕ) (c : Char) : Option ℕ :=
  match digitValue c with
  | some d => if d < base then some (value * base + d) else none
  | none => none

/-- The rest of a number: digits, each of which may follow an underscore. -/
def parseDigits (base : ℕ) : ℕ → List Char → Option ℕ
  | value, [] => some value
  | value, '_' :: c :: cs => (appendDigit base value c).bind fun value => parseDigits base value cs
  | value, c :: cs => (appendDigit base value c).bind fun value => parseDigits base value cs

/-- A number without a sign. -/
def parseNat (base : ℕ) : List Char → Option ℕ
  | [] => none
  | c :: cs =>
    if base = 16 ∧ c = '0' ∧ (cs.head? = some 'x' ∨ cs.head? = some 'X') then
      if cs.tail = [] then none else parseDigits base 0 cs.tail
    else (appendDigit base 0 c).bind fun value => parseDigits base value cs

/-- `int(s, base)`. -/
def parseInt (base : ℕ) (s : String) : Option ℤ :=
  match (strip s).toList with
  | '-' :: cs => (parseNat base cs).map fun n : ℕ => -(n : ℤ)
  | '+' :: cs => (parseNat base cs).map Int.ofNat
  | cs => (parseNat base cs).map Int.ofNat

/-- An integer in a base: `f"{i}"`, `f"{i:x}"`. -/
def formatInt (base : ℕ) (i : ℤ) : String :=
  String.ofList ((if i < 0 then ['-'] else []) ++ Nat.toDigits base i.natAbs)

/-- The value of digits, the first one first. -/
def digitsValue (base value : ℕ) (ds : List ℕ) : ℕ :=
  ds.foldl (fun value d => value * base + d) value

variable {base : ℕ} {ds : List ℕ}

/-- The text of a number is made of digits below the base, and they have its value. -/
theorem exists_digits (hbase : 1 < base) (n : ℕ) :
    ∃ ds, Nat.toDigits base n = ds.map Nat.digitChar ∧ (∀ d ∈ ds, d < base) ∧ ds ≠ [] ∧
      digitsValue base 0 ds = n := by
  induction n using Nat.strong_induction_on with
  | h n ih =>
    rw [Nat.toDigits_eq_if hbase]
    by_cases hn : n < base
    · exact ⟨[n], by simp [hn], by simpa using hn, by simp, by simp [digitsValue]⟩
    · have hlt : n / base < n := Nat.div_lt_self (by omega) hbase
      obtain ⟨ds, htext, hds, -, hvalue⟩ := ih (n / base) hlt
      refine ⟨ds ++ [n % base], by simp [hn, htext], ?_, by simp, ?_⟩
      · intro d hd
        rcases mem_append.mp hd with hd | hd
        · exact hds d hd
        · rw [mem_singleton.mp hd]
          exact Nat.mod_lt _ (by omega)
      · have happend : digitsValue base 0 (ds ++ [n % base]) =
            digitsValue base 0 ds * base + n % base := by simp [digitsValue]
        rw [happend, hvalue]
        exact Nat.div_add_mod' n base

theorem digitValue_digitChar {d : ℕ} (h : d < 16) : digitValue (Nat.digitChar d) = some d := by
  interval_cases d <;> decide

/-- A digit is none of the other characters that a number may hold. -/
theorem digitChar_ne {d : ℕ} (h : d < 16) :
    isSpace (Nat.digitChar d) = false ∧
      Nat.digitChar d ∉ ['-', '+', '_', 'x', 'X'] := by
  interval_cases d <;> decide

theorem appendDigit_digitChar {d : ℕ} (hbase : base ≤ 16) (h : d < base) (value : ℕ) :
    appendDigit base value (Nat.digitChar d) = some (value * base + d) := by
  rw [appendDigit, digitValue_digitChar (h.trans_le hbase)]
  exact if_pos h

theorem parseDigits_digits (hbase : base ≤ 16) (h : ∀ d ∈ ds, d < base) (value : ℕ) :
    parseDigits base value (ds.map Nat.digitChar) = some (digitsValue base value ds) := by
  induction ds generalizing value with
  | nil => rfl
  | cons d ds ih =>
    have hd := h d mem_cons_self
    rw [map_cons, parseDigits, appendDigit_digitChar hbase hd]
    · exact ih (forall_mem_cons.mp h).2 _
    · intro c cs heq
      exact absurd heq fun hunderscore => by
        have := (digitChar_ne (hd.trans_le hbase)).2
        simp [hunderscore] at this

theorem parseNat_digits (hle : base ≤ 16) (hne : ds ≠ []) (hds : ∀ d ∈ ds, d < base) :
    parseNat base (ds.map Nat.digitChar) = some (digitsValue base 0 ds) := by
  cases ds with
  | nil => exact absurd rfl hne
  | cons d ds =>
    have hrest : ∀ d ∈ ds, d < base := (forall_mem_cons.mp hds).2
    -- The second character is a digit, so that there is no prefix.
    have hnot : ¬ ((ds.map Nat.digitChar).head? = some 'x' ∨
        (ds.map Nat.digitChar).head? = some 'X') := by
      cases ds with
      | nil => simp
      | cons e ds =>
        have he := (digitChar_ne ((hrest e mem_cons_self).trans_le hle)).2
        simp only [mem_cons, not_or] at he
        simp [he]
    rw [map_cons, parseNat, if_neg fun h => hnot h.2.2,
      appendDigit_digitChar hle (hds d mem_cons_self), Option.bind_some,
      parseDigits_digits hle hrest]
    rfl

/-- **Digits without a sign** are read as their value. -/
theorem parseInt_digits (hle : base ≤ 16) (hne : ds ≠ []) (hds : ∀ d ∈ ds, d < base) :
    parseInt base (String.ofList (ds.map Nat.digitChar)) = some (digitsValue base 0 ds : ℤ) := by
  have hother : ∀ c ∈ ds.map Nat.digitChar, isSpace c = false ∧ c ∉ ['-', '+', '_', 'x', 'X'] := by
    intro c hc
    obtain ⟨d, hd, rfl⟩ := mem_map.mp hc
    exact digitChar_ne ((hds d hd).trans_le hle)
  have hstrip : strip (String.ofList (ds.map Nat.digitChar)) =
      String.ofList (ds.map Nat.digitChar) := by
    apply strip_of_noSpace
    rw [String.toList_ofList]
    exact fun c hc => (hother c hc).1
  have hsign : ∀ c cs, ds.map Nat.digitChar = c :: cs → c ∉ ['-', '+', '_', 'x', 'X'] :=
    fun c cs heq => (hother c (heq ▸ mem_cons_self)).2
  rw [parseInt, hstrip, String.toList_ofList]
  split
  · next heq => exact absurd (by simp) (hsign _ _ heq)
  · next heq => exact absurd (by simp) (hsign _ _ heq)
  · rw [parseNat_digits hle hne hds]
    rfl

/-- A character that is no digit does not occur among digits. -/
theorem notMem_digits (hds : ∀ d ∈ ds, d < 16) (hdigit : digitValue c = none) :
    c ∉ ds.map Nat.digitChar := by
  intro h
  obtain ⟨d, hd, rfl⟩ := mem_map.mp h
  rw [digitValue_digitChar (hds d hd)] at hdigit
  exact absurd hdigit (Option.some_ne_none d)

theorem exists_digitChar (hbase : 1 < base) {n : ℕ} (h : c ∈ Nat.toDigits base n) :
    ∃ d < base, c = Nat.digitChar d := by
  obtain ⟨ds, htext, hds, -, -⟩ := exists_digits hbase n
  rw [htext] at h
  obtain ⟨d, hd, rfl⟩ := mem_map.mp h
  exact ⟨d, hds d hd, rfl⟩

/-- The text of an integer is made of a sign and digits. -/
theorem mem_formatInt (hbase : 1 < base) {i : ℤ} (h : c ∈ (formatInt base i).toList) :
    c = '-' ∨ ∃ d < base, c = Nat.digitChar d := by
  rw [formatInt, String.toList_ofList, mem_append] at h
  rcases h with h | h
  · split at h
    · exact .inl (mem_singleton.mp h)
    · exact absurd h not_mem_nil
  · exact .inr (exists_digitChar hbase h)

/-- A character that is neither a digit nor the sign does not occur in an integer. -/
theorem notMem_formatInt (hbase : 1 < base) (hle : base ≤ 16) {i : ℤ} (hsign : c ≠ '-')
    (hdigit : digitValue c = none) : c ∉ (formatInt base i).toList := by
  intro h
  rcases mem_formatInt hbase h with rfl | ⟨d, hd, rfl⟩
  · exact hsign rfl
  · rw [digitValue_digitChar (hd.trans_le hle)] at hdigit
    exact absurd hdigit (Option.some_ne_none d)

theorem strip_formatInt (hbase : 1 < base) (hle : base ≤ 16) (i : ℤ) :
    strip (formatInt base i) = formatInt base i := by
  apply strip_of_noSpace
  intro c hc
  rcases mem_formatInt hbase hc with rfl | ⟨d, hd, rfl⟩
  · decide
  · exact (digitChar_ne (hd.trans_le hle)).1

/-- **Integers come back from their texts.** -/
theorem parseInt_formatInt (hbase : 1 < base) (hle : base ≤ 16) (i : ℤ) :
    parseInt base (formatInt base i) = some i := by
  obtain ⟨ds, htext, hds, hne, hvalue⟩ := exists_digits hbase i.natAbs
  by_cases hi : i < 0
  · have hparse := parseNat_digits hle hne hds
    have habs : -((digitsValue base 0 ds : ℕ) : ℤ) = i := by omega
    rw [parseInt, strip_formatInt hbase hle, formatInt, String.toList_ofList, if_pos hi, htext,
      singleton_append]
    exact (congrArg (Option.map fun n : ℕ => -(n : ℤ)) hparse).trans (congrArg some habs)
  · have habs : ((digitsValue base 0 ds : ℕ) : ℤ) = i := by omega
    rw [formatInt, if_neg hi, nil_append, htext, parseInt_digits hle hne hds, habs]

end Text
