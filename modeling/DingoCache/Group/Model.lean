import DingoCache.Store.Invariant

/-!
# DiskCacheGroup: Tenant Quotas

The writes of `disk_cache_group.cc`: `Cache`, `CacheDirect`, `CacheDirectBatch` and
`Remove` of concurrent callers under the tenant stripes, with the quota admission of
new keys.  A disk is the map of its committed payload lengths: it may drop keys at any
time, and a write adds its key once.

A single write goes through admission as a batch of one item does.
-/

namespace DingoCache.Group

open Library Slab Store
open Function (update)

/-! ## Options and admission -/

/-- The disks, their routing and the quotas. -/
structure Config where
  diskCount : Nat
  /-- `RouteIndex`; `none` is `kInvalidDisk`. -/
  routeIndex : BlockKey → Option Nat
  tenantQuotas : List (UInt64 × Nat) := []
  tenantDefaultQuotaBytes : Nat := 0

def Config.tenantLimit (o : Config) (tenant : UInt64) : Nat :=
  (o.tenantQuotas.lookup tenant).getD o.tenantDefaultQuotaBytes

/-- `QuotaAllowsNewLocked`. -/
def Config.quotaAllowsNew (o : Config) (tenant : UInt64) (current additional : Nat) : Bool :=
  let limit := o.tenantLimit tenant
  limit = 0 || (current ≤ limit && additional ≤ limit - current)

def kTenantStripes : Nat := 256

def tenantStripe (tenant : UInt64) : Nat := tenant.toNat % kTenantStripes

/-- One value to write; `data` says that a buffer was given. -/
structure Item where
  key : BlockKey
  len : Nat
  data : Bool := true
deriving DecidableEq

def Item.tenant (item : Item) : UInt64 := item.key.tenantHash

/-- The calls that change the disks. -/
inductive Request where
  | cache (item : Item)
  | cacheDirect (item : Item)
  | cacheDirectBatch (items : List Item)
  | remove (key : BlockKey)
deriving DecidableEq

def Request.items : Request → List Item
  | cache item | cacheDirect item => [item]
  | cacheDirectBatch items => items
  | remove _ => []

def Request.tenants : Request → List UInt64
  | remove key => [key.tenantHash]
  | req => req.items.map Item.tenant

/-- An item after its admission: `out`, `charge`, and whether the engine still has it. -/
structure Judged where
  item : Item
  out : Status
  charge : Bool := false
  pending : Bool := false
deriving DecidableEq

/-- The loop over the earlier items of the batch: `none` for a repeated key, otherwise the bytes
that the tenant asks for, which saturate. -/
def additionalFor (item : Item) : List Judged → Nat → Option Nat
  | [], additional => some additional
  | j :: rest, additional =>
    if j.out ≠ .ok ∨ j.item.tenant ≠ item.tenant then additionalFor item rest additional
    else if j.item.key = item.key then none
    else if j.charge then
      if 2 ^ 64 - 1 - j.item.len < additional then some (2 ^ 64 - 1)
      else additionalFor item rest (additional + j.item.len)
    else additionalFor item rest additional

/-! ## Calls in progress -/

/-- Where a call stands. -/
inductive Stage where
  | locking (req : Request) (stripe : Nat)
  | judging (rest : List Item) (judged : List Judged)
  | summing (item : Item) (rest : List Item) (judged : List Judged) (additional disk current : Nat)
  | writing (judged : List Judged)
  | removing (key : BlockKey)
  | returned (out : List Status)
deriving DecidableEq

/-- The disks, `tenant_stripes_` with their holders, and the calls. -/
structure DiskCacheGroup where
  disks : Nat → AList (fun _ : BlockKey => Nat)
  stripes : Nat → Option Nat := fun _ => none
  calls : Nat → Option Stage := fun _ => none
  spawned : Nat := 0

/-- The steps of the callers, and the evictions of a disk. `fault` is a failed `Lookup`; `commit`
says whether the engine adds the key, `st` what it returns. -/
inductive Step where
  | start (req : Request)
  | lock (t : Nat)
  | judge (t : Nat) (fault : Bool)
  | sum (t : Nat)
  | write (t i : Nat) (commit : Bool) (st : Status)
  | finish (t : Nat)
  | remove (t : Nat) (done : Bool) (st : Status)
  | evict (disk : Nat) (keys : List BlockKey)
deriving DecidableEq

namespace DiskCacheGroup

variable (o : Config) (s : DiskCacheGroup) (item : Item) (t : Nat)

def setStage (stage : Stage) : DiskCacheGroup :=
  { s with calls := update s.calls t (some stage) }

def startStage (req : Request) : Stage :=
  match req with
  | .cache item | .cacheDirect item =>
    if item.len = 0 ∨ item.data = false ∨ o.routeIndex item.key = none then .returned [.invalid]
    else .locking req 0
  | .cacheDirectBatch items => if items = [] then .returned [] else .locking req 0
  | .remove key => if o.routeIndex key = none then .returned [.invalid] else .locking req 0

def lockedStage : Request → Stage
  | .remove key => .removing key
  | req => .judging req.items []

def lock (req : Request) (stripe : Nat) : Option DiskCacheGroup :=
  if kTenantStripes ≤ stripe then some (s.setStage t (lockedStage req))
  else if stripe ∈ req.tenants.map tenantStripe then
    if s.stripes stripe = none then
      some ({ s with stripes := update s.stripes stripe (some t) }.setStage t
        (.locking req (stripe + 1)))
    else none
  else some (s.setStage t (.locking req (stripe + 1)))

def judgeItem (rest : List Item) (judged : List Judged) (fault : Bool) : Stage :=
  match o.routeIndex item.key with
  | none => .judging rest (judged ++ [{ item := item, out := .invalid }])
  | some disk =>
    if item.len = 0 ∨ item.data = false then
      .judging rest (judged ++ [{ item := item, out := .invalid }])
    else if fault then .judging rest (judged ++ [{ item := item, out := .ioError }])
    else
      match (s.disks disk).lookup item.key with
      | some _ => .judging rest (judged ++ [{ item := item, out := .ok }])
      | none =>
        match additionalFor item judged item.len with
        | none => .judging rest (judged ++ [{ item := item, out := .ok }])
        | some additional => .summing item rest judged additional 0 0

def grant (rest : List Item) (judged : List Judged) (additional current : Nat) : Stage :=
  if o.quotaAllowsNew item.tenant current additional then
    .judging rest (judged ++ [{ item := item, out := .ok, charge := true }])
  else .judging rest (judged ++ [{ item := item, out := .quotaExceeded }])

def submit (j : Judged) : Judged :=
  if j.out = .ok then { j with out := .ioError, pending := true } else j

/-- What the engine of a disk does with an item: a key that it has stays as it is. -/
def writeItem (m : AList fun _ : BlockKey => Nat) (item : Item) (commit : Bool) :
    AList fun _ : BlockKey => Nat :=
  if commit = true ∧ m.lookup item.key = none then m.insert item.key item.len else m

def unlock (out : List Status) : DiskCacheGroup :=
  { s with stripes := fun stripe => if s.stripes stripe = some t then none else s.stripes stripe
    }.setStage t (.returned out)

def step : Step → Option DiskCacheGroup
  | .start req => some { s.setStage s.spawned (startStage o req) with spawned := s.spawned + 1 }
  | .lock t =>
    match s.calls t with
    | some (.locking req stripe) => s.lock t req stripe
    | _ => none
  | .judge t fault =>
    match s.calls t with
    | some (.judging [] judged) => some (s.setStage t (.writing (judged.map submit)))
    | some (.judging (item :: rest) judged) =>
      some (s.setStage t (judgeItem o s item rest judged fault))
    | _ => none
  | .sum t =>
    match s.calls t with
    | some (.summing item rest judged additional disk current) =>
      if disk < o.diskCount then
        some (s.setStage t (.summing item rest judged additional (disk + 1)
          (current + DiskSlabStore.usage (s.disks disk) item.tenant)))
      else some (s.setStage t (grant o item rest judged additional current))
    | _ => none
  | .write t i commit st =>
    match s.calls t with
    | some (.writing judged) =>
      match judged[i]? with
      | some j =>
        match o.routeIndex j.item.key with
        | some disk =>
          if j.pending then
            some ({ s with
              disks := update s.disks disk (writeItem (s.disks disk) j.item commit)
              }.setStage t (.writing (judged.set i { j with out := st, pending := false })))
          else none
        | none => none
      | none => none
    | _ => none
  | .finish t =>
    match s.calls t with
    | some (.writing judged) =>
      if judged.all fun j => !j.pending then some (s.unlock t (judged.map Judged.out)) else none
    | _ => none
  | .remove t done st =>
    match s.calls t with
    | some (.removing key) =>
      match o.routeIndex key with
      | some disk =>
        some ({ s with
          disks := if done then update s.disks disk ((s.disks disk).erase key)
            else s.disks }.unlock t [st])
      | none => none
    | _ => none
  | .evict disk keys =>
    some { s with disks := update s.disks disk (keys.foldl (fun m k => m.erase k)
      (s.disks disk)) }

/-- `TenantUsedBytes`, over the first `n` disks. -/
def tenantUsedBytes (tenant : UInt64) (n : Nat) : Nat :=
  ((List.range n).map fun disk => DiskSlabStore.usage (s.disks disk) tenant).sum

end DiskCacheGroup

end DingoCache.Group
