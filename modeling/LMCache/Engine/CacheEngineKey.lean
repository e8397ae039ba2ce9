import LMCache.Memory.MemoryObj

/-! # Cache keys

A `CacheEngineKey` names the KV cache of one chunk, a `LayerCacheEngineKey` that of one layer of
it.  The two classes are one structure here: `layerId` is `none` for a whole chunk.  Keys are
compared by all fields, and a key of one class never equals one of the other, so that equality of
keys is equality of structures.

`tags` are the entries `lmcache.tag.*` of the configuration of the request; its other entries do
not take part in the comparison and are left out.  The hash of a chunk is an `int` or `bytes`;
its type is a parameter. -/

namespace LMCache

/-- `CacheEngineKey`, or `LayerCacheEngineKey` with a layer. -/
structure CacheEngineKey (H : Type) where
  modelName : String
  worldSize : ℤ
  workerId : ℤ
  chunkHash : H
  dtype : Dtype
  tags : Option (List (String × String)) := none
  layerId : Option ℤ := none
deriving DecidableEq, Repr

namespace CacheEngineKey
variable {H : Type} (key : CacheEngineKey H)

/-- The key of one layer. -/
def layer (layerId : ℕ) : CacheEngineKey H := { key with layerId := some (layerId : ℤ) }

/-- `split_layers`: the keys of all layers. -/
def splitLayers (numLayers : ℕ) : List (CacheEngineKey H) := (List.range numLayers).map key.layer

@[simp] theorem chunkHash_layer (i : ℕ) : (key.layer i).chunkHash = key.chunkHash := rfl

theorem layer_injective : Function.Injective key.layer := by
  intro i j h
  exact Int.ofNat.inj (Option.some.inj (congrArg layerId h))

theorem nodup_splitLayers (numLayers : ℕ) : (key.splitLayers numLayers).Nodup :=
  List.nodup_range.map key.layer_injective

end CacheEngineKey

end LMCache
