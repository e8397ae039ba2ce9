import LMCache.Engine.KeyText
import LMCache.SharedDisk.Connector

/-! # The names of stored chunks

Two backends name a file after the text of a key, and NIXL an object.  Characters that a name may
not hold are replaced, and the name of an object is quoted as in a URL.  `names_identify_keys`: two
texts get one name exactly if they differ only in characters that are replaced by the same one, as
in `names_collide`. -/

namespace LMCache

open List Text SharedDisk.Connector

/-! ### Names -/

/-- `LocalDiskBackend._key_to_path`. -/
def diskKeyToPath (path : String) (k : BuiltKey) : String :=
  let flat := k.toString.toList.map fun c => if c = '/' then '-' else c
  osPathJoin path (String.ofList flat ++ ".pt")

/-- A byte in `url_quote` without further safe characters. -/
def quoteByte (b : UInt8) : List Char :=
  let c := Char.ofNat b.toNat
  let digit := fun d => (Nat.digitChar d).toUpper
  if c.isAlphanum ∨ c ∈ ['_', '.', '-', '~'] then [c]
  else ['%', digit (b.toNat / 16), digit (b.toNat % 16)]

def urlQuote (s : String) : String :=
  String.ofList (s.toByteArray.data.toList.flatMap quoteByte)

/-- `replace("/", "_").replace("@", "_")`. -/
def flatChar (c : Char) : Char := if c = '/' ∨ c = '@' then '_' else c

/-- `NixlDynamicStorageBackend._format_object_key`. -/
def formatObjectKey (k : BuiltKey) : String :=
  urlQuote (String.ofList (k.toString.toList.map flatChar))

/-! ### Injectivity -/

/-- The numbers of the bytes that were quoted. -/
def unquote : List Char → List ℕ
  | '%' :: c :: d :: cs => ((digitValue c).getD 0 * 16 + (digitValue d).getD 0) :: unquote cs
  | c :: cs => c.toNat :: unquote cs
  | [] => []

theorem unquote_quoteByte (b : UInt8) (cs : List Char) :
    unquote (quoteByte b ++ cs) = b.toNat :: unquote cs := by
  have hb := b.toNat_lt
  have hdigit : ∀ d < 16, digitValue (Nat.digitChar d).toUpper = some d := by decide
  unfold quoteByte
  dsimp only
  split_ifs with hsafe
  · have hc : (Char.ofNat b.toNat).toNat = b.toNat := by
      rw [Char.toNat_ofNat, if_pos (.inl (by omega))]
    have hne : Char.ofNat b.toNat ≠ '%' := by
      intro heq
      rw [heq] at hsafe
      exact absurd hsafe (by decide)
    rw [singleton_append, unquote, hc]
    exact fun _ _ _ heq _ => hne heq
  · rw [cons_append, cons_append, cons_append, nil_append, unquote, hdigit _ (by omega),
      hdigit _ (by omega)]
    simp only [Option.getD_some]
    rw [Nat.div_add_mod' b.toNat 16]

theorem urlQuote_injective : Function.Injective urlQuote := by
  have hbytes : ∀ bs, unquote (flatMap quoteByte bs) = bs.map UInt8.toNat := by
    intro bs
    induction bs with
    | nil => rfl
    | cons b bs ih => rw [flatMap_cons, unquote_quoteByte, ih, map_cons]
  intro s t h
  have hlist := congrArg unquote (String.ofList_injective h)
  rw [hbytes, hbytes] at hlist
  have hdata := Array.toList_inj.mp (map_injective_iff.mpr (fun _ _ => UInt8.toNat_inj.mp) hlist)
  exact String.toByteArray_inj.mp (ByteArray.ext hdata)

theorem osPathJoin_injective (path : String) : Function.Injective (osPathJoin path) := by
  unfold osPathJoin
  split_ifs
  · exact fun _ _ => (String.append_right_inj path).mp
  · exact fun _ _ => (String.append_right_inj (path ++ "/")).mp

/-- The texts differ only in characters of one class. -/
def Alike (classes : List (List Char)) (k k' : BuiltKey) : Prop :=
  Forall₂ (fun c d => c = d ∨ ∃ cs ∈ classes, c ∈ cs ∧ d ∈ cs) k.toString.toList k'.toString.toList

theorem map_eq_iff_alike {f : Char → Char} {classes : List (List Char)} (k k' : BuiltKey)
    (hf : ∀ c d, f c = f d ↔ c = d ∨ ∃ cs ∈ classes, c ∈ cs ∧ d ∈ cs) :
    k.toString.toList.map f = k'.toString.toList.map f ↔ Alike classes k k' := by
  rw [Alike, ← forall₂_eq_eq_eq, forall₂_map_left_iff, forall₂_map_right_iff]
  simp only [hf]

/-- **Names identify keys** exactly if their texts differ in more than the characters that a backend
does not tell apart. -/
theorem names_identify_keys (c : SharedDisk.Connector) (path : String) (k k' : BuiltKey) :
    (diskKeyToPath path k = diskKeyToPath path k' ↔ Alike [['/', '-']] k k') ∧
      (c.keyToPath k.toString = c.keyToPath k'.toString ↔ Alike [['/', '-'], [':', '_']] k k') ∧
      (formatObjectKey k = formatObjectKey k' ↔ Alike [['/', '@', '_']] k k') := by
  have hfile : ∀ f base suffix,
      osPathJoin base (String.ofList (k.toString.toList.map f) ++ suffix) =
        osPathJoin base (String.ofList (k'.toString.toList.map f) ++ suffix) ↔
      k.toString.toList.map f = k'.toString.toList.map f := by
    intro f base suffix
    rw [(osPathJoin_injective base).eq_iff, String.append_left_inj, String.ofList_inj]
  refine ⟨?_, ?_, ?_⟩
  · refine (hfile _ path ".pt").trans (map_eq_iff_alike k k' fun c d => ?_)
    simp only [exists_eq_left, mem_cons, not_mem_nil, or_false]
    grind
  · refine (hfile _ c.basePath ".bin").trans (map_eq_iff_alike k k' fun c d => ?_)
    have hsafe : ∀ c, safeChar c = if c = '/' then '-' else if c = ':' then '_' else c := by
      intro c
      unfold safeChar
      split <;> simp_all
    simp only [hsafe, mem_cons, not_mem_nil, or_false, exists_eq_or_imp, exists_eq_left]
    grind
  · rw [formatObjectKey, formatObjectKey, urlQuote_injective.eq_iff, String.ofList_inj]
    refine map_eq_iff_alike k k' fun c d => ?_
    simp only [exists_eq_left, mem_cons, not_mem_nil, or_false]
    grind [flatChar]

/-- A key of the model `modelName`. -/
def namedKey (modelName : String) : BuiltKey :=
  ⟨⟨modelName, 1, 0, .int 1, .float16, none, none⟩, none, "half", rfl,
    (by decide : torchDtypeToStrDtype.get? .float16 = some "half")⟩

/-- A `/` of one text may meet a `-` of the other, as long as the texts differ elsewhere. -/
theorem names_identify_keys_elsewhere :
    diskKeyToPath "/mnt" (namedKey "meta/a") ≠ diskKeyToPath "/mnt" (namedKey "gpt-2") ∧
      formatObjectKey (namedKey "meta/a") ≠ formatObjectKey (namedKey "gpt-2") := by
  have ha : (namedKey "meta/a").toString = "meta/a@1@0@1@half" := by decide +kernel
  have hb : (namedKey "gpt-2").toString = "gpt-2@1@0@1@half" := by decide +kernel
  obtain ⟨hdisk, -, hobject⟩ :=
    names_identify_keys ⟨"/mnt", false, 1⟩ "/mnt" (namedKey "meta/a") (namedKey "gpt-2")
  rw [Ne, hdisk, Ne, hobject]
  simp [Alike, ha, hb]

/-- **Names collide** for models that differ in a character that is replaced. -/
theorem names_collide :
    (namedKey "a/b").toString ≠ (namedKey "a-b").toString ∧
      (namedKey "a/b").toString ≠ (namedKey "a_b").toString ∧
      diskKeyToPath "/mnt" (namedKey "a/b") = diskKeyToPath "/mnt" (namedKey "a-b") ∧
      keyToPath ⟨"/mnt", false, 1⟩ (namedKey "a/b").toString =
        keyToPath ⟨"/mnt", false, 1⟩ (namedKey "a-b").toString ∧
      formatObjectKey (namedKey "a/b") = formatObjectKey (namedKey "a_b") := by
  decide +kernel

end LMCache
