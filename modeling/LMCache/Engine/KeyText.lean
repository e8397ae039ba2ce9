import LMCache.Engine.CacheEngineKey
import LMCache.Lib.Dict
import LMCache.Lib.Text

/-! # Keys as texts and as dictionaries

A key travels to remote stores and to the controller as a text, fields joined by `@` with one
field `name%value` per tag, or as a dictionary for msgpack.

* A `BuiltKey` is a key as its constructor leaves it, with the request's configuration and the
  name of its dtype; keys are compared by their field `key`.
* `toString` and `fromString` are the textual form.  The two classes write one format, with a
  field more for a layer, and read it by position.
* `toDict` and `fromDict` are the form for msgpack.

The values of the configuration are texts here.  All FP8 dtypes are taken to exist in `torch`.
Texts in messages are quoted without escapes. -/

namespace LMCache

open Text

/-- The hash of a chunk: of the builtin hash function, or a digest. -/
inductive ChunkHash where
  | int (i : ℤ)
  | bytes (bs : List UInt8)
deriving DecidableEq, Repr

/-! ### The tables of dtypes -/

namespace Dtype

def float16 : Dtype := ⟨"float16", 2⟩
def bfloat16 : Dtype := ⟨"bfloat16", 2⟩
def float32 : Dtype := ⟨"float32", 4⟩
def float64 : Dtype := ⟨"float64", 8⟩
def int8 : Dtype := ⟨"int8", 1⟩
def uint8 : Dtype := ⟨"uint8", 1⟩
def int16 : Dtype := ⟨"int16", 2⟩
def int32 : Dtype := ⟨"int32", 4⟩
def int64 : Dtype := ⟨"int64", 8⟩
def bool : Dtype := ⟨"bool", 1⟩
def float8E4m3fn : Dtype := ⟨"float8_e4m3fn", 1⟩
def float8E4m3fnuz : Dtype := ⟨"float8_e4m3fnuz", 1⟩
def float8E5m2 : Dtype := ⟨"float8_e5m2", 1⟩
def float8E5m2fnuz : Dtype := ⟨"float8_e5m2fnuz", 1⟩

-- Further names of the same objects.
def half : Dtype := float16
def float : Dtype := float32
def double : Dtype := float64

end Dtype

def torchDtypeToStrDtype : Dict Dtype String := Dict.ofList
  [(.half, "half"), (.float16, "half"), (.bfloat16, "bfloat16"), (.float, "float"),
    (.float32, "float"), (.double, "double"), (.float64, "double"), (.int8, "int8"),
    (.uint8, "uint8"), (.int16, "int16"), (.int32, "int32"), (.int64, "int64"), (.bool, "bool"),
    (.float8E4m3fn, "fp8_e4m3"), (.float8E4m3fnuz, "fp8_e4m3"), (.float8E5m2, "fp8_e5m2"),
    (.float8E5m2fnuz, "fp8_e5m2")]

def strDtypeToTorchDtype : Dict String Dtype :=
  Dict.ofList (torchDtypeToStrDtype.entries.map Prod.swap)

/-- The dtype that the tables give back for a dtype. -/
def Dtype.received (dtype : Dtype) : Dtype :=
  if dtype = .float8E4m3fn then .float8E4m3fnuz
  else if dtype = .float8E5m2 then .float8E5m2fnuz
  else dtype

/-! ### Keys -/

/-- The tags among the entries of a request's configuration, without their beginning. -/
def tagList (entries : List (String × String)) : List (String × String) :=
  entries.filterMap fun e => (after? "lmcache.tag." e.1).map fun name => (name, e.2)

/-- The tags that `__post_init__` makes: no tags are `None`. -/
def requestTags : Option (Dict String String) → Option (List (String × String))
  | none => none
  | some configs => if tagList configs.entries = [] then none else some (tagList configs.entries)

/-- A key of either class after `__post_init__`. -/
structure BuiltKey where
  key : CacheEngineKey ChunkHash
  requestConfigs : Option (Dict String String)
  dtypeStr : String
  tags_eq : key.tags = requestTags requestConfigs
  dtypeStr_eq : torchDtypeToStrDtype.get? key.dtype = some dtypeStr

/-- `__post_init__`: a dtype without a name raises. -/
def buildKey (modelName : String) (worldSize workerId : ℤ) (chunkHash : ChunkHash) (dtype : Dtype)
    (requestConfigs : Option (Dict String String)) (layerId : Option ℤ) : Except PyError BuiltKey :=
  match h : torchDtypeToStrDtype.get? dtype with
  | some dtypeStr =>
    .ok ⟨⟨modelName, worldSize, workerId, chunkHash, dtype, requestTags requestConfigs, layerId⟩,
      requestConfigs, dtypeStr, rfl, h⟩
  | none => .error ⟨.valueError, "Unsupported dtype in CacheEngineKey: torch." ++ dtype.name⟩

/-- What `__hash__` hashes; the layer is in the tuple of a `LayerCacheEngineKey` only. -/
def BuiltKey.hashTuple (k : BuiltKey) :
    String × ℤ × ℤ × ChunkHash × String × Option (List (String × String)) × Option ℤ :=
  (k.key.modelName, k.key.worldSize, k.key.workerId, k.key.chunkHash, k.dtypeStr, k.key.tags,
    k.key.layerId)

/-! ### Texts -/

/-- `bytes.hex`: two digits a byte. -/
def hexDigits (bs : List UInt8) : List ℕ := bs.flatMap fun b => [b.toNat / 16, b.toNat % 16]

/-- `chunk_hash_hex`. -/
def ChunkHash.hex : ChunkHash → String
  | .int i => formatInt 16 i
  | .bytes bs => String.ofList ((hexDigits bs).map Nat.digitChar)

/-- `f"{k}%{v}"`. -/
def configText (e : String × String) : String := e.1 ++ "%" ++ e.2

/-- The fields before the tags; the layer is the last one. -/
def BuiltKey.leadingFields (k : BuiltKey) : List String :=
  [k.key.modelName, formatInt 10 k.key.worldSize, formatInt 10 k.key.workerId,
    k.key.chunkHash.hex, k.dtypeStr] ++ k.key.layerId.toList.map (formatInt 10)

/-- `to_string` of both classes. -/
protected def BuiltKey.toString (k : BuiltKey) : String :=
  let s := join '@' k.leadingFields
  match k.key.tags with
  | some (tag :: tags) => s ++ "@" ++ join '@' ((tag :: tags).map configText)
  | _ => s

/-- The entries `name%value` of a list; `invalid` is raised for one without `%`. -/
def parseConfigs (beginning : String) (invalid : PyError) (fields : List String) :
    Except PyError (Dict String String) :=
  fields.foldlM (fun configs kv =>
    match splitOnce '%' kv with
    | some (name, value) => .ok (configs.set (beginning ++ name) value)
    | none => .error invalid) Dict.empty

/-- `ValueError(f"Invalid key string: {s}")`. -/
def invalidKeyString (s : String) : PyError := ⟨.valueError, "Invalid key string: " ++ s⟩

/-- The configuration from the fields of the tags, `None` without tags. -/
def parseTags (s : String) : List String → Except PyError (Option (Dict String String))
  | [] => .ok none
  | tags => some <$> parseConfigs "lmcache.tag." (invalidKeyString s) tags

/-- `int(text, base)`. -/
def pyInt (base : ℕ) (text : String) : Except PyError ℤ :=
  match parseInt base text with
  | some i => .ok i
  | none => .error ⟨.valueError,
      "invalid literal for int() with base " ++ toString base ++ ": '" ++ text ++ "'"⟩

/-- `STR_DTYPE_TO_TORCH_DTYPE[text]`. -/
def dtypeOfStr (text : String) : Except PyError Dtype :=
  match strDtypeToTorchDtype.get? text with
  | some dtype => .ok dtype
  | none => .error ⟨.keyError, "'" ++ text ++ "'"⟩

/-- The key of the texts of its fields; the hash is read as a hexadecimal number. -/
def keyOfFields (modelName worldSize workerId chunkHash dtype : String)
    (requestConfigs : Option (Dict String String)) (layerId : Option String) :
    Except PyError BuiltKey := do
  let worldSize ← pyInt 10 worldSize
  let workerId ← pyInt 10 workerId
  let chunkHash ← pyInt 16 chunkHash
  let dtype ← dtypeOfStr dtype
  let layerId ← layerId.mapM (pyInt 10)
  buildKey modelName worldSize workerId (.int chunkHash) dtype requestConfigs layerId

def CacheEngineKey.fromString (s : String) : Except PyError BuiltKey :=
  match split '@' s with
  | modelName :: worldSize :: workerId :: chunkHash :: dtype :: tags => do
    let requestConfigs ← parseTags s tags
    keyOfFields modelName worldSize workerId chunkHash dtype requestConfigs none
  | _ => .error (invalidKeyString s)

def LayerCacheEngineKey.fromString (s : String) : Except PyError BuiltKey :=
  match split '@' s with
  | modelName :: worldSize :: workerId :: chunkHash :: dtype :: layerId :: tags => do
    let requestConfigs ← parseTags s tags
    keyOfFields modelName worldSize workerId chunkHash dtype requestConfigs (some layerId)
  | _ => .error (invalidKeyString s)

/-- `from_string` of the class of a key. -/
def BuiltKey.fromString (k : BuiltKey) : String → Except PyError BuiltKey :=
  match k.key.layerId with
  | none => CacheEngineKey.fromString
  | some _ => LayerCacheEngineKey.fromString

/-! ### Dictionaries -/

/-- What `to_dict` gives. -/
structure KeyDict where
  type : String
  modelName : String
  worldSize : ℤ
  workerId : ℤ
  chunkHash : ChunkHash
  dtype : String
  requestConfigs : Option (List String)
deriving DecidableEq, Repr

/-- `CacheEngineKey.to_dict`, which `LayerCacheEngineKey` inherits. -/
def BuiltKey.toDict (k : BuiltKey) : KeyDict where
  type := "CacheEngineKey"
  modelName := k.key.modelName
  worldSize := k.key.worldSize
  workerId := k.key.workerId
  chunkHash := k.key.chunkHash
  dtype := k.dtypeStr
  requestConfigs :=
    match k.requestConfigs with
    | none => none
    | some configs =>
      if configs.entries = [] then none else some (configs.entries.map configText)

/-- The configuration in a dictionary, `None` when there are no entries; `dictText` is how a
dictionary is printed. -/
def KeyDict.configs (dictText : KeyDict → String) (d : KeyDict) :
    Except PyError (Option (Dict String String)) :=
  match d.requestConfigs with
  | none | some [] => .ok none
  | some fields =>
    some <$> parseConfigs "" ⟨.valueError, "Invalid key dict: " ++ dictText d⟩ fields

/-- `from_dict`, which makes no layer keys. -/
def BuiltKey.fromDict (dictText : KeyDict → String) (d : KeyDict) : Except PyError BuiltKey := do
  let requestConfigs ← d.configs dictText
  let dtype ← dtypeOfStr d.dtype
  buildKey d.modelName d.worldSize d.workerId d.chunkHash dtype requestConfigs none

end LMCache
