import DingoCache.Connector.Identity
import DingoCache.Library.ExceptList
import DingoCache.Library.LeadingRun

/-!
# vLLM: Prefix Lookup

`DfkvStoreWorker.lookup` of `integration/vllm/src/dfkv_vllm/worker.py`, with the masks of
`coordinator.py`, the key coordinates of `_key_stripe_identity` and `_key_namespaces`, and
the keys that a LOAD requests (`ChunkedTokenDatabase.process_tokens` in `data.py`).

The store is the set of keys it holds.  A key is kept as the `PoolKey` value, whose encoding
by `to_bytes` may raise, and a block hash as the hex digits that a key carries.
-/

namespace DingoCache.Vllm

open Library Connector

/-! ## Topology and keys -/

/-- The sizes of a deployment. -/
structure Topology where
  dpSize : Nat := 1
  tpSize : Nat := 1
  pcpSize : Nat := 1
  dcpSize : Nat := 1
  ppSize : Nat := 1
  useMla : Bool := false
  totalKvHeads : Nat := 1
  tp_pos : 0 < tpSize := by decide
  pcp_pos : 0 < pcpSize := by decide
  dcp_pos : 0 < dcpSize := by decide
  heads_pos : 0 < totalKvHeads := by decide

def Topology.numKvHead (t : Topology) : Nat := if t.useMla then 1 else t.totalKvHeads

structure KeyStripeIdentity where
  tpRank : Int
  dcpRank : Nat
  stripeIdx : Nat
  stripeStep : Nat
deriving DecidableEq

/-- `key_tp_rank`: the head that a TP rank holds. -/
def keyTpRank (tpSize numKvHeads tpRank : Nat) : Nat :=
  let replicaStep := if numKvHeads < tpSize then tpSize / numKvHeads else 1
  if 1 < replicaStep then tpRank / replicaStep else tpRank

def expectedDcpRank (pcpSize dcpSize tpRank pcpRank : Nat) : Nat :=
  (tpRank * pcpSize + pcpRank) % dcpSize

/-- What `_key_stripe_identity` returns once the DCP rank is checked. -/
def stripeOf (tpRank tpSize pcpRank pcpSize dcpRank dcpSize numKvHeads : Nat) (useMla : Bool) :
    KeyStripeIdentity :=
  let replicaRanks := (List.range tpSize).filter fun candidate =>
    keyTpRank tpSize numKvHeads candidate = keyTpRank tpSize numKvHeads tpRank &&
      expectedDcpRank pcpSize dcpSize candidate pcpRank = dcpRank
  { tpRank :=
      if useMla && pcpSize == 1 && dcpSize == 1 then -1 else keyTpRank tpSize numKvHeads tpRank
    dcpRank := dcpRank
    stripeIdx := replicaRanks.idxOf tpRank
    stripeStep := replicaRanks.length }

def keyStripeIdentity (tpRank tpSize pcpRank pcpSize dcpRank dcpSize numKvHeads : Nat)
    (useMla : Bool) : Except PyError KeyStripeIdentity :=
  let expected := expectedDcpRank pcpSize dcpSize tpRank pcpRank
  if dcpRank ≠ expected then
    .error (.runtimeError ("vLLM DCP rank does not match the PCP x TP group layout: tp=" ++
      toString tpRank ++ "/" ++ toString tpSize ++ " pcp=" ++ toString pcpRank ++ "/" ++
      toString pcpSize ++ " dcp=" ++ toString dcpRank ++ "/" ++ toString dcpSize ++
      " expected_dcp_rank=" ++ toString expected))
  else .ok (stripeOf tpRank tpSize pcpRank pcpSize dcpRank dcpSize numKvHeads useMla)

/-- One coordinate of `_key_namespaces`. -/
structure Coordinate where
  tpRank : Int
  pcpRank : Nat
  dcpRank : Nat
deriving DecidableEq

def keyNamespaces (tpSize pcpSize dcpSize numKvHeads : Nat) (useMla tpSharded : Bool) :
    Except PyError (List Coordinate) := do
  let ranks := (List.range pcpSize).flatMap fun pcp => (List.range tpSize).map fun tp => (pcp, tp)
  let namespaces ← ranks.mapM fun r => do
    let dcpRank := expectedDcpRank pcpSize dcpSize r.2 r.1
    if tpSharded then return ⟨r.2, r.1, dcpRank⟩
    let identity ← keyStripeIdentity r.2 tpSize r.1 pcpSize dcpRank dcpSize numKvHeads useMla
    return ⟨identity.tpRank, r.1, dcpRank⟩
  return namespaces.eraseDups

/-- `KeyMetadata`, without the model name, which no key carries. -/
structure KeyMetadata where
  dpSize : Nat
  dpRank : Int
  tpSize : Nat
  tpRank : Int
  pcpSize : Nat
  pcpRank : Nat
  dcpSize : Nat
  dcpRank : Nat
  ppSize : Nat
  ppRank : Nat
  groupId : Nat
  poolName : String
deriving DecidableEq

structure PoolKey where
  keyMetadata : KeyMetadata
  chunkHash : Bytes
deriving DecidableEq

/-- What `pool_key` is given. -/
structure KeyParts where
  pageHash : Bytes
  pool : Bytes
  axes : Axes
  groupId : Int
  component : Bytes

def KeyParts.key (p : KeyParts) : Except PyError Bytes :=
  poolKeyOf p.pageHash p.pool p.axes p.groupId p.component

/-- The layout that the keys of the vLLM connector name, `VLLM_RAW_LAYOUT`. -/
def vllmRawLayout : String := "vllm-multiwr-v4"

/-- What `PoolKey.to_bytes` hands to `pool_key`. -/
def PoolKey.parts (k : PoolKey) : KeyParts where
  pageHash := k.chunkHash
  pool := utf8 k.keyMetadata.poolName
  axes :=
    { dpSize := k.keyMetadata.dpSize, dpRank := k.keyMetadata.dpRank
      tpSize := k.keyMetadata.tpSize, tpRank := k.keyMetadata.tpRank
      pcpSize := k.keyMetadata.pcpSize, pcpRank := k.keyMetadata.pcpRank
      dcpSize := k.keyMetadata.dcpSize, dcpRank := k.keyMetadata.dcpRank
      ppSize := k.keyMetadata.ppSize, ppRank := k.keyMetadata.ppRank }
  groupId := k.keyMetadata.groupId
  component := utf8 vllmRawLayout

def PoolKey.toBytes (k : PoolKey) : Except PyError Bytes := k.parts.key

/-! ## Groups and masks -/

/-- A cache group: its block size, whether its unwrapped spec is a `MambaSpec`, and whether it takes
part in prefix caching. -/
structure Group where
  blockSize : Nat
  mamba : Bool := false
  prefixCacheable : Bool := true
deriving DecidableEq

/-- The groups of a worker; the constructor of the coordinator has asserted the divisibilities. -/
structure Layout where
  groups : List Group
  hashBlockSize : Nat
  /-- `lcm_block_size`, the scheduler's block size. -/
  lcmBlockSize : Nat
  lcm_pos : 0 < lcmBlockSize
  hash_pos : 0 < hashBlockSize
  block_dvd : ∀ g ∈ groups, g.blockSize ∣ lcmBlockSize
  hash_dvd : ∀ g ∈ groups, g.prefixCacheable = true → hashBlockSize ∣ g.blockSize
  hash_dvd_lcm : hashBlockSize ∣ lcmBlockSize

/-- What the workers of one pipeline stage share. `hitBlocks i n` is the answer of the engine's
manager for group `i` and length `n` on the all-present template pool: which blocks it does not
leave null. `blockHashList` lists the entries of the engine's `BlockHashListWithBlockSize` for the
hashes, the size of their blocks and the size of the blocks asked for. Both belong to the engine and
are arbitrary here. -/
structure Stage where
  topology : Topology
  layout : Layout
  ppRank : Nat := 0
  hitBlocks : Nat → Nat → List Bool
  blockHashList : List Bytes → Nat → Nat → List Bytes

namespace Stage

variable (s : Stage)

def cacheMask (alignedTokenLen : Nat) : Except PyError (List (List Bool)) :=
  if alignedTokenLen % s.layout.lcmBlockSize ≠ 0 then .error .assertionError
  else if alignedTokenLen = 0 then .ok (s.layout.groups.map fun _ => [])
  else .ok (s.layout.groups.zipIdx.map fun x =>
    if x.1.prefixCacheable then s.hitBlocks x.2 alignedTokenLen else [])

def loadMask (tokenLen : Nat) : Except PyError (List (List Bool)) :=
  s.cacheMask (tokenLen / s.layout.lcmBlockSize * s.layout.lcmBlockSize)

def blockHashesForSpec (hashes : List Bytes) (blockSize : Nat) : List Bytes :=
  if blockSize = s.layout.hashBlockSize then hashes
  else s.blockHashList hashes s.layout.hashBlockSize blockSize

end Stage

/-- The turns of a loop over the chunks of a group before it breaks at `len` tokens. -/
def chunksBelow (blockSize len : Nat) (hashes : List Bytes) : List (Bytes × Nat) :=
  hashes.zipIdx.takeWhile fun x => x.2 * blockSize < len

/-- A worker of a stage. -/
structure Worker (s : Stage) where
  tpRank : Fin s.topology.tpSize
  pcpRank : Fin s.topology.pcpSize

namespace Worker

variable {s : Stage} (w : Worker s)

/-- `dcp_rank`; the constructor of the worker has checked it. -/
def dcpRank : Nat := expectedDcpRank s.topology.pcpSize s.topology.dcpSize w.tpRank w.pcpRank

def headOrTpRank : Int :=
  (stripeOf w.tpRank s.topology.tpSize w.pcpRank s.topology.pcpSize w.dcpRank s.topology.dcpSize
    s.topology.numKvHead s.topology.useMla).tpRank

variable (g : Group) (store : PoolKey → Bool) (entries : List (ObjectMeta × List PoolKey))

/-- The metadata of the token database of group `i`. -/
def metadata (i : Nat) : KeyMetadata :=
  let sharded := g.mamba && g.prefixCacheable
  { dpSize := s.topology.dpSize
    dpRank := -1
    tpSize := s.topology.tpSize
    tpRank := if sharded then w.tpRank else w.headOrTpRank
    pcpSize := s.topology.pcpSize
    pcpRank := w.pcpRank
    dcpSize := s.topology.dcpSize
    dcpRank := w.dcpRank
    ppSize := s.topology.ppSize
    ppRank := s.ppRank
    groupId := i
    poolName := if sharded then "mamba" else "kv" }

def processTokens (i tokenLen : Nat) (hashes : List Bytes) (maskNum : Nat) :
    List (Nat × Nat × PoolKey) :=
  if g.prefixCacheable = false ∨ hashes = [] then []
  else (chunksBelow g.blockSize tokenLen (s.blockHashesForSpec hashes g.blockSize)).filterMap
    fun x =>
    if x.2 * g.blockSize < maskNum then none
    else some (x.2 * g.blockSize, min (x.2 * g.blockSize + g.blockSize) tokenLen,
      ⟨w.metadata g i, x.1⟩)

/-- The keys that a LOAD of `tokenLen` tokens requests (`key_list` of `_handle_request`). -/
def loadKeys (tokenLen : Nat) (hashes : List Bytes) (maskNum : Nat) :
    Except PyError (List PoolKey) := do
  let masks ← s.loadMask tokenLen
  let keys := s.layout.groups.zipIdx.flatMap fun x =>
    (w.processTokens x.1 x.2 tokenLen hashes maskNum).filterMap fun t =>
      if (masks.getD x.2 []).getD (t.1 / x.1.blockSize) false then some t.2.2 else none
  let _ ← keys.mapM PoolKey.toBytes
  return keys

/-! ## One candidate -/

/-- The metadata of a probed object. -/
structure ObjectMeta where
  logicalChunk : Nat
  group : Nat
  chunkId : Nat
  hash : Bytes
deriving DecidableEq

/-- What one group contributes to a probe: its objects, each with one key for every coordinate, and
the logical chunks for which a required hash is missing. -/
structure GroupProbe where
  entries : List (ObjectMeta × List PoolKey) := []
  missing : List Nat := []
deriving DecidableEq

def keyAt (i : Nat) (hash : Bytes) (c : Coordinate) : PoolKey :=
  ⟨{ w.metadata g i with
      tpRank := c.tpRank
      pcpRank := c.pcpRank
      dcpRank := c.dcpRank }, hash⟩

/-- The objects of a group that the mask selects, with their keys. -/
def groupEntries (chunks : List (Bytes × Nat)) (i : Nat) (mask : List Bool)
    (namespaces : List Coordinate) : List (ObjectMeta × List PoolKey) :=
  chunks.filterMap fun x =>
    if mask.getD x.2 false then
      some (⟨x.2 * g.blockSize / s.layout.lcmBlockSize, i, x.2, x.1⟩,
        namespaces.map (w.keyAt g i x.1))
    else none

def groupProbe (hashes : List Bytes) (aligned : Nat) (g : Group) (i : Nat) (mask : List Bool) :
    Except PyError GroupProbe := do
  if mask = [] then return {}
  let namespaces ← keyNamespaces s.topology.tpSize (w.metadata g i).pcpSize (w.metadata g i).dcpSize
    s.topology.numKvHead ((w.metadata g i).tpRank < 0) g.mamba
  let chunks := chunksBelow g.blockSize aligned (s.blockHashesForSpec hashes g.blockSize)
  let entries := w.groupEntries g chunks i mask namespaces
  let _ ← (entries.flatMap (·.2)).mapM PoolKey.toBytes
  let ungenerated := List.range' chunks.length
    (min mask.length (aligned / g.blockSize) - chunks.length)
  return { entries
           missing := (ungenerated.filter (mask.getD · false)).map fun chunkId =>
             chunkId * g.blockSize / s.layout.lcmBlockSize }

/-- A candidate length after its probe, and the keys that were probed. -/
structure Candidate where
  hit : Nat
  keys : List PoolKey
deriving DecidableEq

/-- The pairs of `candidate_meta` and `candidate_keys`. -/
def candidates : List (ObjectMeta × PoolKey) :=
  entries.flatMap fun e => e.2.map (e.1, ·)

/-- `present_per_object.get(object_meta, 0)`. -/
def present (o : ObjectMeta) : Nat :=
  (candidates entries).countP fun c => c.1 = o && store c.2

/-- `complete_chunks[idx]`. -/
def complete (missing : List Nat) (idx : Nat) : Bool :=
  !missing.contains idx &&
    entries.all fun e => e.1.logicalChunk ≠ idx || present store entries e.1 == e.2.length

def judge (lcmBlockSize aligned : Nat) (probes : List GroupProbe) : Candidate :=
  let entries := probes.flatMap (·.entries)
  let keys := (candidates entries).map (·.2)
  if keys = [] then ⟨0, []⟩
  else
    let chunks := (List.range (aligned / lcmBlockSize)).map
      (complete store entries (probes.flatMap (·.missing)))
    ⟨leadingRun chunks * lcmBlockSize, keys⟩

def lookupCandidate (hashes : List Bytes) (tokenLen : Nat) : Except PyError Candidate := do
  if hashes = [] ∨ tokenLen = 0 then return ⟨0, []⟩
  let aligned := tokenLen / s.layout.lcmBlockSize * s.layout.lcmBlockSize
  let masks ← s.loadMask aligned
  if aligned = 0 then return ⟨0, []⟩
  let probes ← s.layout.groups.zipIdx.mapM fun x =>
    w.groupProbe hashes aligned x.1 x.2 (masks.getD x.2 [])
  return judge store s.layout.lcmBlockSize aligned probes

/-! ## The lookup -/

/-- The client as the lookup uses it: which keys exist, and the answers of `retain_limits` and
`retain_precheck`, `none` where the call raises. -/
structure Client where
  store : PoolKey → Bool
  retainLimits : Option (Int × Int) := none
  retainPrecheck : List PoolKey → Option Bool := fun _ => none

/-- `applied_ttl`; no key is probed where `first_candidate_keys` is `None`. -/
def appliedTtl (client : Client) (retainTtlS : Int) (firstCandidateKeys : List PoolKey) : Int :=
  if retainTtlS ≤ 0 ∨ firstCandidateKeys = [] then 0
  else match client.retainLimits with
    | none => 0
    | some (supported, maxTtl) =>
      if supported ≠ 1 ∨ maxTtl ≤ 0 then 0
      else if client.retainPrecheck firstCandidateKeys = some true then min retainTtlS maxTtl
      else 0

theorem judge_hit_le {lcmBlockSize aligned : Nat} (probes : List GroupProbe) :
    (judge store lcmBlockSize aligned probes).hit ≤ aligned := by
  unfold judge
  dsimp only
  split
  · exact Nat.zero_le _
  · refine (Nat.mul_le_mul_right _ (leadingRun_le _)).trans ?_
    rw [List.length_map, List.length_range]
    exact Nat.div_mul_le_self _ _

theorem lookupCandidate_le {store : PoolKey → Bool} {hashes : List Bytes} {tokenLen : Nat}
    {c : Candidate} (h : w.lookupCandidate store hashes tokenLen = .ok c) : c.hit ≤ tokenLen := by
  unfold lookupCandidate at h
  split at h
  · cases h
    exact Nat.zero_le _
  · obtain ⟨masks, -, h⟩ := bind_eq_ok_iff.mp h
    split at h
    · cases h
      exact Nat.zero_le _
    · obtain ⟨probes, -, h⟩ := bind_eq_ok_iff.mp h
      cases h
      exact (judge_hit_le store probes).trans (Nat.div_mul_le_self _ _)

/-- The loop of `lookup`. -/
def lookupLoop (client : Client) (hashes : List Bytes) (retainTtlS : Int)
    (firstCandidateKeys : List PoolKey) (candidate : Nat) : Except PyError (Nat × Int) :=
  if candidate = 0 then .ok (0, appliedTtl client retainTtlS firstCandidateKeys)
  else
    match _h : w.lookupCandidate client.store hashes candidate with
    | .error e => .error e
    | .ok c =>
      let first := if firstCandidateKeys = [] then c.keys else firstCandidateKeys
      if c.hit = candidate then .ok (c.hit, appliedTtl client retainTtlS first)
      else lookupLoop client hashes retainTtlS first c.hit
termination_by candidate
decreasing_by exact lt_of_le_of_ne (w.lookupCandidate_le _h) (by assumption)

def lookup (client : Client) (tokenLen : Nat) (hashes : List Bytes) (retainTtlS : Int) :
    Except PyError (Nat × Int) :=
  w.lookupLoop client hashes retainTtlS [] (tokenLen / s.layout.lcmBlockSize *
    s.layout.lcmBlockSize)

end Worker

end DingoCache.Vllm
