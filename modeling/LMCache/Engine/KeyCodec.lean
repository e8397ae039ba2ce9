import LMCache.Engine.KeyText

/-! # What comes back of a key

* **From the text** (`fromString_toString`): `from_string` of the class of the key gives the key
  with its hash read as a hexadecimal number and with the dtype that the table has for the name.
  So a hash in `bytes` comes back as an `int`, and the dtypes `float8_e4m3fn` and `float8_e5m2`
  come back as the variants `fnuz` that share their names.
* **From the dictionary** (`fromDict_toDict`): the hash is kept, the dtype goes through the same
  table, and the layer is lost, for `LayerCacheEngineKey` inherits `to_dict`.
* `key_codecs_invert`: an equal key comes back exactly outside of these cases.

Both round trips cut the text at the separators that were put in (`split_toString`) and read each
field back; the tags are what the loop over the configuration makes of their entries
(`tagList_received`). -/

namespace LMCache

open List Text Dict

/-! ### Dtypes -/

theorem dtype_table : ∀ e ∈ torchDtypeToStrDtype.entries,
    strDtypeToTorchDtype.get? e.2 = some e.1.received ∧
      torchDtypeToStrDtype.get? e.1.received = some e.2 ∧ '@' ∉ e.2.toList := by
  decide +kernel

theorem received_eq_iff {dtype : Dtype} :
    dtype.received = dtype ↔ dtype ∉ [Dtype.float8E4m3fn, Dtype.float8E5m2] := by
  simp only [mem_cons, not_mem_nil, or_false, not_or, Dtype.received]
  constructor
  · intro h
    constructor <;> (rintro rfl; exact absurd h (by decide))
  · intro h
    rw [if_neg h.1, if_neg h.2]

theorem buildKey_ok (modelName : String) (worldSize workerId : ℤ) (chunkHash : ChunkHash)
    (requestConfigs : Option (Dict String String)) (layerId : Option ℤ) {dtype : Dtype}
    {dtypeStr : String} (h : torchDtypeToStrDtype.get? dtype = some dtypeStr) :
    ∃ k, buildKey modelName worldSize workerId chunkHash dtype requestConfigs layerId = .ok k ∧
      k.key = ⟨modelName, worldSize, workerId, chunkHash, dtype, requestTags requestConfigs,
        layerId⟩ ∧ k.dtypeStr = dtypeStr := by
  unfold buildKey
  split
  · next str hstr => exact ⟨_, rfl, rfl, Option.some.inj (hstr.symm.trans h)⟩
  · next hnone => exact absurd (hnone.symm.trans h) (Option.some_ne_none _).symm

/-! ### Numbers -/

def ChunkHash.value : ChunkHash → ℤ
  | .int i => i
  | .bytes bs => digitsValue 16 0 (hexDigits bs)

theorem hexDigits_lt {bs : List UInt8} : ∀ d ∈ hexDigits bs, d < 16 := by
  intro d hd
  obtain ⟨b, -, hd⟩ := mem_flatMap.mp hd
  have hb := b.toNat_lt
  simp only [mem_cons, not_mem_nil, or_false] at hd
  omega

theorem notMem_hex (h : ChunkHash) : '@' ∉ h.hex.toList := by
  cases h with
  | int i => exact notMem_formatInt (by decide) le_rfl (by decide) (by decide)
  | bytes bs =>
    rw [ChunkHash.hex, String.toList_ofList]
    exact notMem_digits hexDigits_lt (by decide)

theorem pyInt_formatInt {base : ℕ} (hbase : 1 < base) (hle : base ≤ 16) (i : ℤ) :
    pyInt base (formatInt base i) = .ok i := by
  rw [pyInt, parseInt_formatInt hbase hle]

theorem pyInt_hex {h : ChunkHash} (hne : h ≠ .bytes []) : pyInt 16 h.hex = .ok h.value := by
  cases h with
  | int i => exact pyInt_formatInt (by decide) le_rfl i
  | bytes bs =>
    have hdigits : hexDigits bs ≠ [] := by
      cases bs with
      | nil => exact absurd rfl hne
      | cons b bs => simp [hexDigits]
    rw [pyInt, ChunkHash.hex, parseInt_digits le_rfl hdigits hexDigits_lt]
    rfl

/-! ### Configurations -/

/-- The name and the value that are read from the text of an entry. -/
def receivedConfig (e : String × String) : String × String :=
  (String.ofList ((configText e).toList.takeWhile (· ≠ '%')),
    String.ofList ((configText e).toList.dropWhile (· ≠ '%')).tail)

def isTag (name : String) : Bool := (after? "lmcache.tag." name).isSome

variable (e : String × String) (d : Dict String String)

theorem toList_configText : (configText e).toList = e.1.toList ++ '%' :: e.2.toList := by
  simp [configText]

theorem splitOnce_configText : splitOnce '%' (configText e) = some (receivedConfig e) :=
  splitOnce_of_mem (by rw [toList_configText]; simp)

theorem receivedConfig_of_notMem {e : String × String} (h : '%' ∉ e.1.toList) :
    receivedConfig e = e :=
  Option.some.inj ((splitOnce_configText e).symm.trans (splitOnce_append h))

theorem parseConfigs_map (beginning : String) (invalid : PyError) (es : List (String × String)) :
    parseConfigs beginning invalid (es.map configText) =
      .ok (ofList (es.map fun e => (beginning ++ (receivedConfig e).1, (receivedConfig e).2))) := by
  unfold parseConfigs ofList
  generalize (empty : Dict String String) = d
  induction es generalizing d with
  | nil => rfl
  | cons e es ih =>
    rw [map_cons, foldlM_cons, splitOnce_configText, map_cons, foldl_cons, ← ih]
    rfl

theorem takeWhile_ne_append_cons (c : Char) (cs ds : List Char) :
    (cs ++ c :: ds).takeWhile (· ≠ c) = cs.takeWhile (· ≠ c) := by
  induction cs with
  | nil => simp
  | cons x cs ih =>
    by_cases hx : x = c
    · simp [hx]
    · rw [cons_append, takeWhile_cons_of_pos (by simpa using hx),
        takeWhile_cons_of_pos (by simpa using hx), ih]

theorem isTag_receivedConfig : isTag (receivedConfig e).1 = isTag e.1 := by
  have hplain : ∀ c ∈ "lmcache.tag.".toList, decide (c ≠ '%') = true := by simp
  have hname : (receivedConfig e).1.toList = e.1.toList.takeWhile (· ≠ '%') := by
    rw [receivedConfig, toList_configText, takeWhile_ne_append_cons]
    exact String.toList_ofList
  rw [Bool.eq_iff_iff, isTag, isTag, isSome_after?_iff, isSome_after?_iff, hname]
  constructor
  · exact fun h => h.trans <| takeWhile_prefix _
  · rintro ⟨rest, hrest⟩
    rw [← hrest, takeWhile_append_of_pos hplain]
    exact prefix_append _ _

theorem tagList_filterKeys : tagList (d.filterKeys isTag).entries = tagList d.entries := by
  rw [entries_filterKeys, tagList, tagList, filterMap_filter]
  congr 1
  funext e
  cases h : after? "lmcache.tag." e.1 <;> simp [isTag, h]

/-- **Tags come back** when their names are free of `%`, whatever the other entries are. -/
theorem tagList_received (h : ∀ tag ∈ tagList d.entries, '%' ∉ tag.1.toList) :
    tagList (ofList (d.entries.map receivedConfig)).entries = tagList d.entries := by
  have hsame : ∀ e ∈ d.entries.filter (fun e => isTag e.1), receivedConfig e = e := by
    intro e he
    obtain ⟨hmem, htag⟩ := mem_filter.mp he
    obtain ⟨name, hname⟩ := Option.isSome_iff_exists.mp htag
    have hnot := h (name, e.2) (mem_filterMap.mpr ⟨e, hmem, by simp [hname]⟩)
    apply receivedConfig_of_notMem
    rw [eq_append_of_after? hname, String.toList_append, mem_append, not_or]
    exact ⟨by simp, hnot⟩
  have hfilter : (fun e : String × String => isTag e.1) ∘ receivedConfig = fun e => isTag e.1 := by
    funext e
    rw [Function.comp_apply, isTag_receivedConfig]
  have hkept : (ofList (d.entries.map receivedConfig)).filterKeys isTag =
      ofList (d.filterKeys isTag).entries := by
    rw [filterKeys_ofList, filter_map, hfilter, map_congr_left hsame, map_id', entries_filterKeys]
  rw [← tagList_filterKeys, hkept, entries_ofList (d.filterKeys isTag).nodup, tagList_filterKeys]

theorem nodup_tagList : ((tagList d.entries).map Prod.fst).Nodup := by
  have hnames : (tagList d.entries).map Prod.fst =
      (d.entries.map Prod.fst).filterMap (after? "lmcache.tag.") := by
    rw [tagList, map_filterMap, filterMap_map]
    congr 1
    funext e
    cases h : after? "lmcache.tag." e.1 <;> simp [h]
  rw [hnames]
  refine d.nodup.filterMap fun name name' rest h h' => ?_
  rw [eq_append_of_after? h, eq_append_of_after? h']

theorem requestTags_eq_some {configs : Option (Dict String String)} {tags : List (String × String)}
    (h : requestTags configs = some tags) :
    ∃ d, configs = some d ∧ tagList d.entries = tags ∧ tags ≠ [] := by
  cases configs with
  | none => exact absurd h (Option.some_ne_none _).symm
  | some d =>
    rw [requestTags] at h
    split at h
    · exact absurd h (Option.some_ne_none _).symm
    · next hne =>
        cases h
        exact ⟨d, rfl, rfl, hne⟩

namespace BuiltKey

def tagEntries (k : BuiltKey) : List (String × String) := k.key.tags.getD []

/-- The tags can be told apart in the text of the key. -/
structure PlainTags (k : BuiltKey) : Prop where
  noAt : ∀ tag ∈ k.tagEntries, '@' ∉ tag.1.toList ∧ '@' ∉ tag.2.toList
  noPercent : ∀ tag ∈ k.tagEntries, '%' ∉ tag.1.toList

variable (k : BuiltKey)

/-- **Tags come back** from their fields. -/
theorem parseTags_tagEntries (s : String) (h : ∀ tag ∈ k.tagEntries, '%' ∉ tag.1.toList) :
    ∃ configs, parseTags s (k.tagEntries.map configText) = .ok configs ∧
      requestTags configs = k.key.tags := by
  unfold tagEntries at *
  cases htags : k.key.tags with
  | none => exact ⟨none, by simp [parseTags], rfl⟩
  | some tags =>
    rw [htags, Option.getD_some] at h
    obtain ⟨d, -, rfl, hne⟩ := requestTags_eq_some (k.tags_eq.symm.trans htags)
    set tagged := (tagList d.entries).map fun e => ("lmcache.tag." ++ e.1, e.2) with htagged
    have hentries : (tagList d.entries).map
        (fun e => ("lmcache.tag." ++ (receivedConfig e).1, (receivedConfig e).2)) = tagged :=
      map_congr_left fun e he => by rw [receivedConfig_of_notMem (h e he)]
    have hnodup : (tagged.map Prod.fst).Nodup := by
      have hmap : tagged.map Prod.fst =
          ((tagList d.entries).map Prod.fst).map ("lmcache.tag." ++ ·) := by simp [htagged]
      rw [hmap]
      exact (nodup_tagList d).map fun _ _ => (String.append_right_inj _).mp
    have hback : tagList tagged = tagList d.entries := by
      conv_lhs => rw [tagList]
      simp [htagged, filterMap_map, after?_append]
    refine ⟨some (ofList tagged), ?_, ?_⟩
    · rw [Option.getD_some, parseTags, parseConfigs_map, hentries]
      · rfl
      · exact fun hnil => hne (map_eq_nil_iff.mp hnil)
    · rw [requestTags, entries_ofList hnodup, hback, if_neg hne]

/-! ### Fields -/

theorem notMem_leadingFields (hmodel : '@' ∉ k.key.modelName.toList) :
    ∀ field ∈ k.leadingFields, '@' ∉ field.toList := by
  have hint : ∀ i : ℤ, '@' ∉ (formatInt 10 i).toList := fun i =>
    notMem_formatInt (by decide) (by decide) (by decide) (by decide)
  have hstr := dtype_table _ (get?_eq_some_iff.mp k.dtypeStr_eq)
  intro field hfield
  simp only [leadingFields, cons_append, nil_append, mem_cons] at hfield
  rcases hfield with rfl | rfl | rfl | rfl | rfl | hfield
  · exact hmodel
  · exact hint _
  · exact hint _
  · exact notMem_hex _
  · exact hstr.2.2
  · obtain ⟨i, -, rfl⟩ := mem_map.mp hfield
    exact hint i

/-- **The text is cut where it was joined.** -/
theorem split_toString (hmodel : '@' ∉ k.key.modelName.toList)
    (htags : ∀ tag ∈ k.tagEntries, '@' ∉ tag.1.toList ∧ '@' ∉ tag.2.toList) :
    split '@' k.toString = k.leadingFields ++ k.tagEntries.map configText := by
  have hleading : split '@' (join '@' k.leadingFields) = k.leadingFields :=
    split_join (by simp [leadingFields]) (k.notMem_leadingFields hmodel)
  have hfields : ∀ field ∈ k.tagEntries.map configText, '@' ∉ field.toList := by
    intro field hfield
    obtain ⟨tag, htag, rfl⟩ := mem_map.mp hfield
    rw [toList_configText]
    simpa using htags tag htag
  unfold BuiltKey.toString tagEntries at *
  split
  · next tag tags heq =>
      rw [heq, Option.getD_some] at hfields ⊢
      rw [show ("@" : String) = String.singleton '@' from rfl, split_append, hleading,
        split_join (by simp) hfields]
  · next hnot =>
      have hnil : k.key.tags.getD [] = [] := by
        cases heq : k.key.tags with
        | none => rfl
        | some tags =>
          cases tags with
          | nil => rfl
          | cons tag tags => exact absurd heq (hnot tag tags)
      rw [hnil, hleading, map_nil, append_nil]

/-! ### Round trips -/

theorem dtypeOfStr_dtypeStr : dtypeOfStr k.dtypeStr = .ok k.key.dtype.received := by
  rw [dtypeOfStr, (dtype_table _ (get?_eq_some_iff.mp k.dtypeStr_eq)).1]

theorem received_dtypeStr : torchDtypeToStrDtype.get? k.key.dtype.received = some k.dtypeStr :=
  (dtype_table _ (get?_eq_some_iff.mp k.dtypeStr_eq)).2.1

def received (k : BuiltKey) : CacheEngineKey ChunkHash :=
  { k.key with chunkHash := .int k.key.chunkHash.value, dtype := k.key.dtype.received }

theorem keyOfFields_received (hhash : k.key.chunkHash ≠ .bytes [])
    {configs : Option (Dict String String)} (hconfigs : requestTags configs = k.key.tags) :
    ∃ k', keyOfFields k.key.modelName (formatInt 10 k.key.worldSize)
        (formatInt 10 k.key.workerId) k.key.chunkHash.hex k.dtypeStr configs
        (k.key.layerId.map (formatInt 10)) = .ok k' ∧
      k'.key = k.received ∧ k'.dtypeStr = k.dtypeStr := by
  obtain ⟨k', hbuild, hkey, hstr⟩ := buildKey_ok k.key.modelName k.key.worldSize k.key.workerId
    (.int k.key.chunkHash.value) configs k.key.layerId k.received_dtypeStr
  have hlayer : (k.key.layerId.map (formatInt 10)).mapM (pyInt 10) = .ok k.key.layerId := by
    cases k.key.layerId with
    | none => rfl
    | some i => simp [pyInt_formatInt]
  refine ⟨k', ?_, ?_, hstr⟩
  · rw [keyOfFields, pyInt_formatInt (by decide) (by decide),
      pyInt_formatInt (by decide) (by decide),
      pyInt_hex hhash, dtypeOfStr_dtypeStr, hlayer]
    exact hbuild
  · rw [hkey, hconfigs]
    rfl

/-- **From the text**: the hash as a number, the dtype through the tables, and every other
field as it was. -/
theorem fromString_toString (hmodel : '@' ∉ k.key.modelName.toList) (htags : k.PlainTags)
    (hhash : k.key.chunkHash ≠ .bytes []) :
    ∃ k', k.fromString k.toString = .ok k' ∧ k'.key = k.received ∧ k'.dtypeStr = k.dtypeStr := by
  obtain ⟨configs, hparse, hconfigs⟩ := k.parseTags_tagEntries k.toString htags.noPercent
  obtain ⟨k', hfields, hkey⟩ := k.keyOfFields_received hhash hconfigs
  refine ⟨k', ?_, hkey⟩
  have hsplit := k.split_toString hmodel htags.noAt
  unfold fromString leadingFields at *
  cases hlayer : k.key.layerId with
  | none =>
    rw [hlayer] at hsplit hfields
    change CacheEngineKey.fromString k.toString = _
    rw [CacheEngineKey.fromString, hsplit]
    simp only [Option.toList_none, map_nil, append_nil, cons_append,
      nil_append, hparse, bind, Except.bind]
    exact hfields
  | some layerId =>
    rw [hlayer] at hsplit hfields
    change LayerCacheEngineKey.fromString k.toString = _
    rw [LayerCacheEngineKey.fromString, hsplit]
    simp only [Option.toList_some, map_cons, map_nil, cons_append,
      nil_append, hparse, bind, Except.bind]
    exact hfields

theorem tagEntries_eq {d : Dict String String} (h : k.requestConfigs = some d) :
    k.tagEntries = tagList d.entries := by
  rw [tagEntries, k.tags_eq, h, requestTags]
  split
  · next hnil => rw [hnil, Option.getD_none]
  · rfl

theorem configs_toDict (dictText : KeyDict → String) (k : BuiltKey)
    (htags : ∀ tag ∈ k.tagEntries, '%' ∉ tag.1.toList) :
    ∃ configs, k.toDict.configs dictText = .ok configs ∧ requestTags configs = k.key.tags := by
  rw [k.tags_eq]
  unfold KeyDict.configs toDict
  cases hd : k.requestConfigs with
  | none => exact ⟨none, rfl, rfl⟩
  | some d =>
    rw [k.tagEntries_eq hd] at htags
    dsimp only
    by_cases hes : d.entries = []
    · rw [if_pos hes]
      exact ⟨none, rfl, by rw [requestTags, requestTags, hes]; rfl⟩
    · refine ⟨some (ofList (d.entries.map receivedConfig)), ?_, ?_⟩
      · obtain ⟨e, es, hcons⟩ := exists_cons_of_ne_nil hes
        rw [if_neg hes, hcons]
        change some <$> parseConfigs "" _ ((e :: es).map configText) = _
        rw [parseConfigs_map]
        simp
      · rw [requestTags, requestTags, tagList_received d htags]

/-- **From the dictionary**: the dtype through the tables, no layer, and every other field as it
was. -/
theorem fromDict_toDict (dictText : KeyDict → String) (k : BuiltKey)
    (htags : ∀ tag ∈ k.tagEntries, '%' ∉ tag.1.toList) :
    ∃ k', fromDict dictText k.toDict = .ok k' ∧
      k'.key = { k.key with dtype := k.key.dtype.received, layerId := none } ∧
      k'.dtypeStr = k.dtypeStr := by
  obtain ⟨configs, hparse, hconfigs⟩ := k.configs_toDict dictText htags
  obtain ⟨k', hbuild, hkey, hstr⟩ := buildKey_ok k.key.modelName k.key.worldSize k.key.workerId
    k.key.chunkHash configs none k.received_dtypeStr
  refine ⟨k', ?_, ?_, hstr⟩
  · have hdtype : dtypeOfStr k.toDict.dtype = .ok k.key.dtype.received := k.dtypeOfStr_dtypeStr
    rw [fromDict, hparse, hdtype]
    exact hbuild
  · rw [hkey, hconfigs]

theorem exists_int_of_keyOfFields {modelName worldSize workerId chunkHash dtype : String}
    {configs : Option (Dict String String)} {layerId : Option String} {k : BuiltKey}
    (h : keyOfFields modelName worldSize workerId chunkHash dtype configs layerId = .ok k) :
    ∃ i, k.key.chunkHash = .int i := by
  obtain ⟨_, -, h⟩ := exists_of_bind_eq_ok h
  obtain ⟨_, -, h⟩ := exists_of_bind_eq_ok h
  obtain ⟨i, -, h⟩ := exists_of_bind_eq_ok h
  obtain ⟨_, -, h⟩ := exists_of_bind_eq_ok h
  obtain ⟨_, -, h⟩ := exists_of_bind_eq_ok h
  unfold buildKey at h
  split at h
  · rw [← Except.ok.inj h]
    exact ⟨i, rfl⟩
  · cases h

/-- **A hash that is read** is an `int`, for both classes. -/
theorem exists_int_of_fromString {s : String} {k' : BuiltKey} (h : k.fromString s = .ok k') :
    ∃ i, k'.key.chunkHash = .int i := by
  unfold fromString at h
  cases hlayer : k.key.layerId with
  | none =>
    rw [hlayer] at h
    change CacheEngineKey.fromString s = _ at h
    unfold CacheEngineKey.fromString at h
    split at h
    · obtain ⟨_, -, h⟩ := exists_of_bind_eq_ok h
      exact exists_int_of_keyOfFields h
    · cases h
  | some layerId =>
    rw [hlayer] at h
    change LayerCacheEngineKey.fromString s = _ at h
    unfold LayerCacheEngineKey.fromString at h
    split at h
    · obtain ⟨_, -, h⟩ := exists_of_bind_eq_ok h
      exact exists_int_of_keyOfFields h
    · cases h

/-- **Keys come back.**  An equal key with the same hash is read from the text exactly when the
hash is an `int`, and from the dictionary exactly when the key is that of a whole chunk, both for
the dtypes that do not share their name. -/
theorem key_codecs_invert (dictText : KeyDict → String) (k : BuiltKey)
    (hmodel : '@' ∉ k.key.modelName.toList) (htags : k.PlainTags) :
    ((∃ k', k.fromString k.toString = .ok k' ∧ k'.key = k.key ∧ k'.hashTuple = k.hashTuple) ↔
      (∃ i, k.key.chunkHash = .int i) ∧
        k.key.dtype ∉ [Dtype.float8E4m3fn, Dtype.float8E5m2]) ∧
    ((∃ k', fromDict dictText k.toDict = .ok k' ∧ k'.key = k.key ∧ k'.hashTuple = k.hashTuple) ↔
      k.key.layerId = none ∧ k.key.dtype ∉ [Dtype.float8E4m3fn, Dtype.float8E5m2]) := by
  simp only [← received_eq_iff]
  constructor
  · have hread : ∀ i, k.key.chunkHash = .int i → ∃ k', k.fromString k.toString = .ok k' ∧
        k'.key = k.received ∧ k'.dtypeStr = k.dtypeStr := fun i hi =>
      k.fromString_toString hmodel htags (by rw [hi]; exact ChunkHash.noConfusion)
    constructor
    · rintro ⟨k', hk', heq, -⟩
      obtain ⟨i, hi⟩ := k.exists_int_of_fromString hk'
      rw [heq] at hi
      obtain ⟨k₂, hk₂, hkey, -⟩ := hread i hi
      cases hk'.symm.trans hk₂
      exact ⟨⟨i, hi⟩, congrArg CacheEngineKey.dtype (hkey.symm.trans heq)⟩
    · rintro ⟨⟨i, hi⟩, hsame⟩
      obtain ⟨k', hk', hkey, hstr⟩ := hread i hi
      have heq : k'.key = k.key := by rw [hkey, received, hsame, hi, ChunkHash.value, ← hi]
      exact ⟨k', hk', heq, by rw [hashTuple, hashTuple, heq, hstr]⟩
  · obtain ⟨k₂, hk₂, hkey, hstr⟩ := k.fromDict_toDict dictText htags.noPercent
    constructor
    · rintro ⟨k', hk', heq, -⟩
      cases hk'.symm.trans hk₂
      have hback := hkey.symm.trans heq
      exact ⟨(congrArg CacheEngineKey.layerId hback).symm, congrArg CacheEngineKey.dtype hback⟩
    · rintro ⟨hlayer, hsame⟩
      have heq : k₂.key = k.key := by rw [hkey, hsame, ← hlayer]
      exact ⟨k₂, hk₂, heq, by rw [hashTuple, hashTuple, heq, hstr]⟩

end BuiltKey

/-- A configuration with a tag and with an entry that is not one. -/
def userConfigs : Dict String String :=
  ⟨[("lmcache.tag.user", "a"), ("lmcache.skip_save", "x")], by decide⟩

theorem requestTags_userConfigs : requestTags (some userConfigs) = some [("user", "a")] := by
  decide +kernel

def userKey (chunkHash : ChunkHash) (dtype : Dtype) (layerId : Option ℤ) (dtypeStr : String)
    (h : torchDtypeToStrDtype.get? dtype = some dtypeStr) : BuiltKey where
  key := ⟨"llama", 2, 1, chunkHash, dtype, some [("user", "a")], layerId⟩
  requestConfigs := some userConfigs
  dtypeStr := dtypeStr
  tags_eq := by rw [requestTags_userConfigs]
  dtypeStr_eq := h

theorem get?_float16 : torchDtypeToStrDtype.get? .float16 = some "half" := by decide +kernel

def halfKey (chunkHash : ChunkHash) (layerId : Option ℤ) : BuiltKey :=
  userKey chunkHash .float16 layerId "half" get?_float16

def fp8Key (layerId : Option ℤ) : BuiltKey :=
  userKey (.int 171) .float8E4m3fn layerId "fp8_e4m3" (by decide +kernel)

theorem plainTags_userKey (chunkHash : ChunkHash) (dtype : Dtype) (layerId : Option ℤ)
    (dtypeStr : String) (h : torchDtypeToStrDtype.get? dtype = some dtypeStr) :
    (userKey chunkHash dtype layerId dtypeStr h).PlainTags :=
  ⟨by simp [userKey, BuiltKey.tagEntries], by simp [userKey, BuiltKey.tagEntries]⟩

namespace BuiltKey

theorem key_codecs_invert_tagged :
    (∃ k', (halfKey (.int (-171)) (some 3)).fromString (halfKey (.int (-171)) (some 3)).toString =
        .ok k' ∧ k'.key = (halfKey (.int (-171)) (some 3)).key) ∧
    ∃ k', fromDict (fun _ => "") (halfKey (.bytes [0xab]) none).toDict = .ok k' ∧
      k'.key = (halfKey (.bytes [0xab]) none).key := by
  constructor
  · obtain ⟨k', hk', hkey, -⟩ := (key_codecs_invert (fun _ => "") (halfKey (.int (-171)) (some 3))
      (by simp [halfKey, userKey]) (plainTags_userKey ..)).1.mpr ⟨⟨-171, rfl⟩, by decide⟩
    exact ⟨k', hk', hkey⟩
  · obtain ⟨k', hk', hkey, -⟩ := (key_codecs_invert (fun _ => "") (halfKey (.bytes [0xab]) none)
      (by simp [halfKey, userKey]) (plainTags_userKey ..)).2.mpr ⟨rfl, by decide⟩
    exact ⟨k', hk', hkey⟩

/-- A hash in bytes comes back as an `int`, an FP8 dtype as another one, and the key of a layer
as that of the chunk. -/
theorem key_codecs_change_keys :
    (∃ k', (halfKey (.bytes [0xab]) none).fromString (halfKey (.bytes [0xab]) none).toString =
        .ok k' ∧ k'.key ≠ (halfKey (.bytes [0xab]) none).key) ∧
    (∃ k', (fp8Key none).fromString (fp8Key none).toString = .ok k' ∧
      k'.key ≠ (fp8Key none).key) ∧
    ∃ k', fromDict (fun _ => "") (halfKey (.int 171) (some 3)).toDict = .ok k' ∧
      k'.key ≠ (halfKey (.int 171) (some 3)).key := by
  refine ⟨?_, ?_, ?_⟩
  · obtain ⟨k', hk', hkey, -⟩ := (halfKey (.bytes [0xab]) none).fromString_toString
      (by simp [halfKey, userKey]) (plainTags_userKey ..) (by decide)
    exact ⟨k', hk', by rw [hkey]; decide⟩
  · obtain ⟨k', hk', hkey, -⟩ := (fp8Key none).fromString_toString
      (by simp [fp8Key, userKey]) (plainTags_userKey ..) (by decide)
    exact ⟨k', hk', by rw [hkey]; decide⟩
  · obtain ⟨k', hk', hkey, -⟩ := (halfKey (.int 171) (some 3)).fromDict_toDict (fun _ => "")
      (plainTags_userKey ..).noPercent
    exact ⟨k', hk', by rw [hkey]; decide⟩

end BuiltKey

end LMCache
