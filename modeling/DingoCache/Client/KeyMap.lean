import DingoCache.Connector.Namespace

/-!
# Namespace and Object Descriptors in C++

`src/common/namespace.cc` and `src/client/key_map.h`: the native side of the identities,
with the parser that finds the tenant in a namespace and the bytes that `TenantHash` and
`ToBlockKey` hash.
-/

namespace DingoCache.Client

open Library Connector

/-! ## Descriptors -/

def kMaxFieldBytes : Nat := 2 ^ 20

def kMaxComponentBytes : Nat := 256

/-- `ValidRequiredField`; the text is what `SetError` sets. -/
def validRequiredField (value : Bytes) (name : String) : Except String Unit :=
  if value = [] then .error (name ++ " must not be empty")
  else if kMaxFieldBytes < value.length then .error (name ++ " exceeds 1 MiB")
  else .ok ()

/-- `AppendString`; the length is cut to 32 bits. -/
def appendString (value : Bytes) : Bytes := putLE 4 value.length ++ value

structure RankCoordinate where
  worldSize : UInt32 := 1
  rank : Int32 := -1
deriving DecidableEq

def RankCoordinate.validate (c : RankCoordinate) (axis : String) : Except String Unit :=
  if c.worldSize = 0 then .error (axis ++ " world_size must be positive")
  else if c.rank < -1 ∨ (0 ≤ c.rank ∧ c.worldSize ≤ c.rank.toUInt32) then
    .error (axis ++ " rank must be -1 or within world_size")
  else .ok ()

def appendRank (c : RankCoordinate) : Bytes :=
  putLE 4 c.worldSize.toNat ++ putLE 4 c.rank.toUInt32.toNat

/-- `NamespaceDescriptor`; the pool kind is any number of the type of the enumeration. -/
structure NamespaceDescriptor where
  tenantId : Bytes
  modelId : Bytes
  modelRevision : Bytes
  poolKind : UInt16 := 65535
  poolName : Bytes
  dtype : Bytes
  layoutFingerprint : UInt64 := 0
  blockTokens : UInt32 := 0
  groupId : UInt32 := 0
  layerBegin : UInt32 := 0
  layerCount : UInt32 := 0
  tp : RankCoordinate := {}
  dp : RankCoordinate := {}
  pp : RankCoordinate := {}
deriving DecidableEq

def NamespaceDescriptor.validate (d : NamespaceDescriptor) : Except String Unit := do
  validRequiredField d.tenantId "tenant_id"
  validRequiredField d.modelId "model_id"
  validRequiredField d.modelRevision "model_revision"
  validRequiredField d.poolName "pool_name"
  validRequiredField d.dtype "dtype"
  if d.layoutFingerprint = 0 then
    throw "layout_fingerprint must be nonzero"
  if d.blockTokens = 0 then
    throw "block_tokens must be positive"
  if d.layerCount = 0 ∨ 0xFFFFFFFF - d.layerCount < d.layerBegin then
    throw "layer range must be nonempty and must not overflow"
  d.tp.validate "tp"
  d.dp.validate "dp"
  d.pp.validate "pp"

def NamespaceDescriptor.serialize (d : NamespaceDescriptor) : Bytes :=
  namespaceMagic ++ (appendString d.tenantId ++ (appendString d.modelId ++
    (appendString d.modelRevision ++ (putLE 2 d.poolKind.toNat ++ (appendString d.poolName ++
      (appendString d.dtype ++ (putLE 8 d.layoutFingerprint.toNat ++
        (putLE 4 d.blockTokens.toNat ++ (putLE 4 d.groupId.toNat ++
          (putLE 4 d.layerBegin.toNat ++ (putLE 4 d.layerCount.toNat ++
            (appendRank d.tp ++ (appendRank d.dp ++ appendRank d.pp)))))))))))))

structure ObjectDescriptor where
  logicalKey : Bytes
  component : Bytes
  chunkIndex : UInt32 := 0
  chunkCount : UInt32 := 1
deriving DecidableEq

def ObjectDescriptor.validate (o : ObjectDescriptor) : Except String Unit := do
  validRequiredField o.logicalKey "logical_key"
  validRequiredField o.component "component"
  if kMaxComponentBytes < o.component.length then
    throw "component exceeds 256 bytes"
  if o.chunkCount = 0 ∨ o.chunkCount ≤ o.chunkIndex then
    throw "chunk_index must be within nonzero chunk_count"

def ObjectDescriptor.serialize (o : ObjectDescriptor) (d : NamespaceDescriptor) : Bytes :=
  objectMagic ++ (appendString d.serialize ++ (appendString o.logicalKey ++
    (appendString o.component ++ (putLE 4 o.chunkIndex.toNat ++ putLE 4 o.chunkCount.toNat))))

/-! ## The tenant of a namespace -/

variable (ns : Bytes) (pos : Nat)

/-- The lambdas `u16`, `u32` and `u64` of `CanonicalTenantIdentity`: the number in the next `n`
bytes, and the position behind it. -/
def uintAt (n pos : Nat) : Option (Nat × Nat) :=
  if ns.length < pos ∨ ns.length - pos < n then none
  else some (getLE ((ns.drop pos).take n), pos + n)

/-- The lambda `field`: offset and length of a field. -/
def fieldAt : Option ((Nat × Nat) × Nat) := do
  let (n, pos) ← uintAt ns 4 pos
  if n = 0 ∨ 2 ^ 20 < n ∨ ns.length - pos < n then none
  else some ((pos, n), pos + n)

def axesAt (ns : Bytes) : Nat → Nat → Option (Unit × Nat)
  | 0, pos => some ((), pos)
  | axes + 1, pos => do
    let (worldSize, pos) ← uintAt ns 4 pos
    let (rank, pos) ← uintAt ns 4 pos
    if worldSize = 0 ∨ (rank ≠ 0xFFFFFFFF ∧ worldSize ≤ rank) then none
    else axesAt ns axes pos

/-- What `CanonicalTenantIdentity` reads behind the pool name and the data type. -/
def tailAt : Option (Unit × Nat) := do
  let (layoutFingerprint, pos) ← uintAt ns 8 pos
  let (blockTokens, pos) ← uintAt ns 4 pos
  let (_, pos) ← uintAt ns 4 pos
  let (layerBegin, pos) ← uintAt ns 4 pos
  let (layerCount, pos) ← uintAt ns 4 pos
  if layoutFingerprint = 0 ∨ blockTokens = 0 ∨ layerCount = 0 ∨
      0xFFFFFFFF < layerBegin + layerCount then none
  else axesAt ns 3 pos

/-- The read of the pool kind, with the check of it. -/
def poolKindAt : Option (Nat × Nat) := do
  let (poolKind, pos) ← uintAt ns 2 pos
  if ¬((1 ≤ poolKind ∧ poolKind ≤ 8) ∨ poolKind = 65535) then none else some (poolKind, pos)

/-- The texts and the pool kind in front of that; the tenant is the first text. -/
def textsAt : Option ((Nat × Nat) × Nat) := do
  let (first, pos) ← fieldAt ns pos
  let (_, pos) ← fieldAt ns pos
  let (_, pos) ← fieldAt ns pos
  let (_, pos) ← poolKindAt ns pos
  let (_, pos) ← fieldAt ns pos
  let (_, pos) ← fieldAt ns pos
  some (first, pos)

/-- `CanonicalTenantIdentity`: offset and length of the tenant. -/
def canonicalTenantIdentity : Option (Nat × Nat) :=
  if ns.length < namespaceMagic.length + 4 ∨ ns.take namespaceMagic.length ≠
    namespaceMagic then none
  else do
    let (first, pos) ← textsAt ns namespaceMagic.length
    let (_, pos) ← tailAt ns pos
    if pos ≠ ns.length then none else some first

/-- The tenant that `CanonicalTenantIdentity` finds. -/
def canonicalTenant : Option Bytes :=
  (canonicalTenantIdentity ns).map fun tenant => (ns.drop tenant.1).take tenant.2

/-- The bytes that `TenantHash` hashes. -/
def nativeTenantHashInput : Bytes :=
  let identity := (canonicalTenant ns).getD ns
  utf8 "DFKVTENANT1" ++ (putLE 8 identity.length ++ identity)

/-- The bytes that `ToBlockKey` hashes for the digest. -/
def blockKeyInput (ns objectKey : Bytes) : Bytes :=
  utf8 "DFKVKEY2" ++ (putLE 8 ns.length ++ (ns ++ (putLE 8 objectKey.length ++ objectKey)))

end DingoCache.Client
