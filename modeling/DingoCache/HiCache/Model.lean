import DingoCache.Connector.Identity
import DingoCache.Library.ExceptList
import DingoCache.Library.LeadingRun

/-!
# HiCache: Existence Probes and Device Reads

The existence probe of `integration/hicache/dfkv_hicache.py`: `batch_exists`,
`batch_exists_v2` and the key builders they share with the reads, and
`_flatten_device`, which splits an object into the scatter groups that a device
read requests.  The store is the set of keys it holds; it does not change during a
call, and the native probe answers for it.
-/

namespace DingoCache.HiCache

open Library Connector

/-! ## The connector -/

/-- The fields of the connector that the probe and the reads use. -/
structure Connector where
  isMla : Bool
  tpSize : Int := 1
  tpRank : Int := 0
  enablePp : Bool := false
  ppSize : Int := 1
  ppRank : Int := 0
  pcpSize : Int := 1
  pcpRank : Int := 0
  storagePcpRank : Int := 0
  /-- `prefill_cp_storage_layout == "replicated"`. -/
  prefillCpReplicated : Bool := false
  dcpSize : Int := 1
  dcpRank : Int := 0
  /-- `dfkv_max_sg_segs(h)`, zero where the call fails. -/
  maxSgSegs : Nat := 0
  /-- `mem_pool_device is not None`. -/
  memPoolDevice : Bool := false
  poolComponentNames : List (String × List String) := []
  poolReplicated : List (String × Bool) := []
  /-- The names in `_sidecar_device_pools`. -/
  sidecarDevicePools : List String := []
deriving DecidableEq

namespace Connector

variable (c : Connector)

def sgWidth : Nat := if c.maxSgSegs = 0 then 29 else c.maxSgSegs

def sgGroupKey (sk : Bytes) (ci : Nat) : Except PyError Bytes := sgKey sk c.sgWidth ci

def storagePcp (replicated : Bool) : Int × Int :=
  (c.pcpSize, if replicated && c.prefillCpReplicated then c.storagePcpRank else c.pcpRank)

def axes (replicated : Bool) : Axes :=
  { tpSize := c.tpSize
    tpRank := if replicated then -1 else c.tpRank
    pcpSize := (c.storagePcp replicated).1
    pcpRank := (c.storagePcp replicated).2
    dcpSize := c.dcpSize
    dcpRank := c.dcpRank
    ppSize := if c.enablePp then c.ppSize else 1
    ppRank := if c.enablePp then c.ppRank else 0 }

def keys (pageHash : Bytes) : Except PyError (List Bytes) :=
  (if c.isMla then ["all"] else ["k", "v"]).mapM (poolKey pageHash "kv" (c.axes c.isMla) 0)

def sub : Nat := if c.isMla then 1 else 2

def poolComponents (poolName : String) : Except PyError (List String) :=
  match c.poolComponentNames.lookup poolName with
  | some names => .ok names
  | none => .error (.runtimeError ("pool '" ++ poolName ++ "' has no discovered layout"))

def poolIsReplicated (poolName : String) : Except PyError Bool :=
  match c.poolReplicated.lookup poolName with
  | some replicated => .ok replicated
  | none => .error (.runtimeError ("pool '" ++ poolName ++ "' has no discovered layout"))

def isMainName (poolName : String) : Bool := poolName = "kv" || poolName = "__default__"

def poolKeys (poolName : String) (pageHash : Bytes) : Except PyError (List Bytes) :=
  if isMainName poolName then c.keys pageHash
  else do
    let components ← c.poolComponents poolName
    let replicated ← c.poolIsReplicated poolName
    components.mapM (poolKey pageHash poolName (c.axes replicated) 0)

/-- `_fold`; the flat results of the callers have `sub` entries for every page. -/
def fold (flatResults : List Bool) (npages sub : Nat) : List Bool :=
  (List.range npages).map fun i => (List.range sub).all fun j => flatResults.getD
    (i * sub + j) false

/-- The keys that stand for one page: group 0 of each object of a device pool, the bare keys of a
host pool. -/
def pageProbe (device : Bool) (keysFn : Bytes → Except PyError (List Bytes)) (pageHash : Bytes) :
    Except PyError (List Bytes) := do
  let sks ← keysFn pageHash
  sks.mapM fun sk => if device then c.sgGroupKey sk 0 else .ok sk

/-- What a probe of `pages` finds, page by page. -/
def probe (store : Bytes → Bool) (device : Bool) (keysFn : Bytes → Except PyError (List Bytes))
    (sub : Nat) (pages : List Bytes) : Except PyError (List Bool) := do
  let sks ← pages.mapM (c.pageProbe device keysFn)
  return fold (sks.flatten.map store) pages.length sub

end Connector

inductive PoolHitPolicy where
  | allPages
  | trailingPages
deriving DecidableEq

/-- `PoolTransfer`, as the probe reads it. -/
structure PoolTransfer where
  name : String
  keys : List Bytes := []
  hitPolicy : PoolHitPolicy
deriving DecidableEq

/-- `max(1, len(tr.keys) if tr.keys else 1)`. -/
def PoolTransfer.trailing (tr : PoolTransfer) : Nat := max 1 tr.keys.length

namespace Connector

variable (c : Connector)

/-- How many scatter groups an object of `n` segments has. -/
def nchunks (n : Nat) : Nat := max 1 ((n + c.sgWidth - 1) / c.sgWidth)

end Connector

end DingoCache.HiCache
