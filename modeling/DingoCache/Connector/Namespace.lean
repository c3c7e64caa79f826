import DingoCache.Connector.Identity

/-!
# Namespace and Object Descriptors in Python

`RankCoordinate`, `NamespaceDescriptor` and `ObjectDescriptor` of
`integration/common/src/dfkv_common/identity.py`, which the connectors serialise, and
the parser that finds the tenant in a namespace for `namespace_tenant_hash`.
-/

namespace DingoCache.Connector

open Library

/-! ## Descriptors -/

def namespaceMagic : Bytes := utf8 "DFKVNS" ++ [0, 2]

def objectMagic : Bytes := utf8 "DFKVOBJ2"

inductive PoolKind where
  | attention
  | mla
  | mamba
  | swa
  | indexer
  | draftAttention
  | draftMla
  | draftIndexer
  | custom
deriving DecidableEq

def PoolKind.code : PoolKind → Nat
  | .attention => 1
  | .mla => 2
  | .mamba => 3
  | .swa => 4
  | .indexer => 5
  | .draftAttention => 6
  | .draftMla => 7
  | .draftIndexer => 8
  | .custom => 65535

def PoolKind.all : List PoolKind :=
  [.attention, .mla, .mamba, .swa, .indexer, .draftAttention, .draftMla, .draftIndexer, .custom]

/-- `_uint`, of an `int`. -/
def uint (value : Int) (bits : Nat) (name : String) (nonzero : Bool) : Except PyError Unit :=
  if (if nonzero then 1 else 0) ≤ value ∧ value < 2 ^ bits then .ok ()
  else .error (.valueError (name ++ " must be a " ++ (if nonzero then "positive " else "") ++
    "uint" ++ toString bits))

structure RankCoordinate where
  worldSize : Int := 1
  rank : Int := -1
deriving DecidableEq

def RankCoordinate.validate (c : RankCoordinate) (axis : String) : Except PyError Unit :=
  if ¬(1 ≤ c.worldSize ∧ c.worldSize ≤ 0xFFFFFFFF) then
    .error (.valueError (axis ++ " world_size must be within uint32 and positive"))
  else if c.rank < -1 ∨ c.worldSize ≤ c.rank then
    .error (.valueError (axis ++ " rank must be -1 or within world_size"))
  else .ok ()

/-- `RankCoordinate.serialize`; the mask keeps the low 32 bits of the rank. -/
def RankCoordinate.serialize (c : RankCoordinate) : Bytes :=
  putLE 4 c.worldSize.toNat ++ putLE 4 (c.rank % 0x100000000).toNat

/-- `NamespaceDescriptor`, with the texts as their bytes. -/
structure NamespaceDescriptor where
  tenantId : Bytes
  modelId : Bytes
  modelRevision : Bytes
  poolKind : Int
  poolName : Bytes
  dtype : Bytes
  layoutFingerprint : Int
  blockTokens : Int
  groupId : Int
  layerBegin : Int
  layerCount : Int
  tp : RankCoordinate := {}
  dp : RankCoordinate := {}
  pp : RankCoordinate := {}
deriving DecidableEq

def NamespaceDescriptor.validate (d : NamespaceDescriptor) : Except PyError Unit := do
  let _ ← requiredBytes d.tenantId "tenant_id"
  let _ ← requiredBytes d.modelId "model_id"
  let _ ← requiredBytes d.modelRevision "model_revision"
  let _ ← requiredBytes d.poolName "pool_name"
  let _ ← requiredBytes d.dtype "dtype"
  if ¬PoolKind.all.any fun kind => (kind.code : Int) == d.poolKind then
    throw (.valueError "pool_kind is not a defined PoolKind")
  uint d.layoutFingerprint 64 "layout_fingerprint" true
  uint d.blockTokens 32 "block_tokens" true
  uint d.groupId 32 "group_id" false
  uint d.layerBegin 32 "layer_begin" false
  uint d.layerCount 32 "layer_count" true
  if 0xFFFFFFFF < d.layerBegin + d.layerCount then
    throw (.valueError "layer range must not overflow uint32")
  d.tp.validate "tp"
  d.dp.validate "dp"
  d.pp.validate "pp"

/-- The bytes that `NamespaceDescriptor.serialize` joins. -/
def NamespaceDescriptor.joined (d : NamespaceDescriptor) : Bytes :=
  namespaceMagic ++ (field d.tenantId ++ (field d.modelId ++ (field d.modelRevision ++
    (putLE 2 d.poolKind.toNat ++ (field d.poolName ++ (field d.dtype ++
      (putLE 8 d.layoutFingerprint.toNat ++ (putLE 4 d.blockTokens.toNat ++
        (putLE 4 d.groupId.toNat ++ (putLE 4 d.layerBegin.toNat ++ (putLE 4 d.layerCount.toNat ++
          (d.tp.serialize ++ (d.dp.serialize ++ d.pp.serialize)))))))))))))

def NamespaceDescriptor.serialize (d : NamespaceDescriptor) : Except PyError Bytes := do
  d.validate
  return d.joined

/-- `ObjectDescriptor`, with the component as its bytes. -/
structure ObjectDescriptor where
  logicalKey : Bytes
  component : Bytes
  chunkIndex : Int := 0
  chunkCount : Int := 1
deriving DecidableEq

def ObjectDescriptor.validate (o : ObjectDescriptor) : Except PyError Unit := do
  let _ ← requiredBytes o.logicalKey "logical_key"
  let component ← requiredBytes o.component "component"
  if 256 < component.length then
    throw (.valueError "component exceeds 256 bytes")
  uint o.chunkIndex 32 "chunk_index" false
  uint o.chunkCount 32 "chunk_count" true
  if o.chunkCount ≤ o.chunkIndex then
    throw (.valueError "chunk_index must be within chunk_count")

/-- The bytes that `ObjectDescriptor.serialize` joins. -/
def ObjectDescriptor.joined (o : ObjectDescriptor) (namespaceBytes : Bytes) : Bytes :=
  objectMagic ++ (field namespaceBytes ++ (field o.logicalKey ++ (field o.component ++
    (putLE 4 o.chunkIndex.toNat ++ putLE 4 o.chunkCount.toNat))))

def ObjectDescriptor.serialize (o : ObjectDescriptor) (d : NamespaceDescriptor) :
    Except PyError Bytes := do
  o.validate
  let namespaceBytes ← d.serialize
  return o.joined namespaceBytes

/-! ## The tenant of a namespace -/

variable (ns : Bytes) (pos : Nat)

/-- `field` of `_canonical_namespace_tenant`, with the position as a value. -/
def tenantField : Option (Bytes × Nat) :=
  if ns.length < pos + 4 then none
  else
    let size := getLE ((ns.drop pos).take 4)
    if size = 0 ∨ 1048576 < size ∨ ns.length < pos + 4 + size then none
    else some ((ns.drop (pos + 4)).take size, pos + 4 + size)

def parsedPoolKind (kind : Nat) : Bool := (1 ≤ kind && kind ≤ 8) || kind == 0xFFFF

/-- The read of the pool kind in `_canonical_namespace_tenant`. -/
def poolKindField : Option (Nat × Nat) :=
  if ns.length < pos + 2 then none
  else if parsedPoolKind (getLE ((ns.drop pos).take 2)) then
    some (getLE ((ns.drop pos).take 2), pos + 2)
  else none

def refusedAxis (axis : Nat × Nat) : Bool :=
  axis.1 == 0 || (axis.2 != 0xFFFFFFFF && axis.1 ≤ axis.2)

/-- The fixed tail of `_canonical_namespace_tenant`: what `unpack_from` gives, and the checks of it.
-/
def tailAccepted : Bool :=
  let layoutFingerprint := getLE ((ns.drop pos).take 8)
  let word := fun k => getLE ((ns.drop (pos + 8 + 4 * k)).take 4)
  if ns.length ≠ pos + (8 + 4 * 4 + 3 * 8) then false
  else if layoutFingerprint = 0 ∨ word 0 = 0 ∨ word 3 = 0 ∨ 0xFFFFFFFF < word 2 + word 3 then false
  else !(List.any [(word 4, word 5), (word 6, word 7), (word 8, word 9)] refusedAxis)

/-- The texts and the pool kind of `_canonical_namespace_tenant`; the tenant is the first text. -/
def namespaceTexts : Option (Bytes × Nat) := do
  let (first, pos) ← tenantField ns pos
  let (_, pos) ← tenantField ns pos
  let (_, pos) ← tenantField ns pos
  let (_, pos) ← poolKindField ns pos
  let (_, pos) ← tenantField ns pos
  let (_, pos) ← tenantField ns pos
  some (first, pos)

def canonicalNamespaceTenant : Option Bytes :=
  if ¬namespaceMagic.isPrefixOf ns then none
  else do
    let (first, pos) ← namespaceTexts ns namespaceMagic.length
    if tailAccepted ns pos then some first else none

def tenantHashMagic : Bytes := utf8 "DFKVTENANT1"

/-- The bytes that `tenant_hash` hashes. -/
def tenantHashInput (identity : Bytes) : Bytes :=
  tenantHashMagic ++ (putLE 8 identity.length ++ identity)

/-- The bytes that `namespace_tenant_hash` hashes. -/
def namespaceTenantHashInput : Bytes :=
  tenantHashInput ((canonicalNamespaceTenant ns).getD ns)

end DingoCache.Connector
