import DingoCache.Library.MapTotal
import DingoCache.Store.Record
import DingoCache.Slab.Held

/-!
# DiskSlabStore: Data Model

State of `src/cache/disk_slab_store.{h,cc}` while it serves requests: the
allocator, the maps under `mu_`, the two kinds of files, and the requests in
progress.  A request is a `Thread` whose constructor says which critical section
or which unlocked I/O comes next.

Maps keyed by `key.Filename()` are keyed by the key itself.  `commits` and
`zombies` are not fields of the source: the first lists the payloads each key
has had committed, the second the writes an abandoned submission ring may still
carry out.
-/

namespace DingoCache.Store

open Library Slab
open Function (update)

/-! ## Options -/

inductive Status where
  | ok
  | notFound
  | cacheFull
  | quotaExceeded
  | ioError
  | invalid
  | resourceExhausted
  | noCompatibleRail
deriving DecidableEq

/-- `DiskSlabStore::Options` with the allocator knobs the environment sets. `directWrites` is the
resolved mode, `DirectWritesActive()`, and `quotient` is the allocator's quotient for `max_waste =
0.25`. -/
structure Options where
  dir : String := "cache"
  capacityBytes : Nat := 2 ^ 30
  extentBytes : Nat := 2 ^ 30
  slotGranularity : Nat := 2 ^ 20
  directWrites : Bool := false
  quotient : Nat → Nat := fun _ => 0
  coldStealEnabled : Bool := true
  coldWindow : Nat := 0

namespace Options

def numExtents (o : Options) : Nat := o.capacityBytes / o.extentBytes

/-- `max_slots_per_extent_`. -/
def maxSlots (o : Options) : Nat := o.extentBytes / o.slotGranularity

/-- Largest `off_t`. -/
def offMax : Nat := 2 ^ 63 - 1

/-- `ValidateOptions`: the startup error, if there is one. -/
def validateOptions (o : Options) : Option String :=
  if o.dir.isEmpty then some "cache directory is empty"
  else if o.capacityBytes = 0 then some "capacity_bytes must be non-zero"
  else if o.extentBytes = 0 ∨ uint32Max < o.extentBytes then
    some "extent_bytes must fit uint32 and be non-zero"
  else if o.slotGranularity < 4096 ∨ uint32Max < o.slotGranularity ∨
      o.slotGranularity % 4096 ≠ 0 then
    some "slot_granularity must be a non-zero 4 KiB multiple fitting uint32"
  else if o.extentBytes % o.slotGranularity ≠ 0 then
    some "extent_bytes must be divisible by slot_granularity"
  else if o.capacityBytes < o.extentBytes ∨ o.capacityBytes % o.extentBytes ≠ 0 then
    some "capacity_bytes must be an exact positive multiple of extent_bytes"
  else if uint32Max < o.numExtents ∨ o.maxSlots = 0 ∨ uint32Max < o.maxSlots then
    some "slab geometry exceeds uint32 limits"
  else if offMax / o.maxSlots / kRecBytes < o.numExtents then
    some "slots.tbl geometry exceeds off_t"
  else none

def slab (o : Options) : Slab.Options :=
  { extentBytes := o.extentBytes
    numExtents := o.numExtents
    align := o.slotGranularity
    quotient := o.quotient
    onExtentBind := true
    onExtentEvict := true
    onSlotEvict := true
    coldStealEnabled := o.coldStealEnabled
    coldWindow := o.coldWindow }

def tableOffset (o : Options) (extent slot : Nat) : Nat :=
  extent * o.maxSlots * kRecBytes + slot * kRecBytes

end Options

/-! ## Requests -/

def padLen (len : Nat) : Nat := (len + 4095) / 4096 * 4096

/-- One `Cache`, `CacheDirect` or item of `CacheDirectBatch`. `aligned` says that the buffer is 4
KiB aligned; `Cache` never uses direct I/O and is the unaligned case. -/
structure PutJob where
  key : BlockKey
  data : List UInt8
  aligned : Bool := false
  cap : Nat := 0

/-- The bytes that go to the slot: zero-padded on the direct path. -/
def Options.payloadBuffer (o : Options) (job : PutJob) (ref : SlotRef) : List UInt8 :=
  if o.directWrites = true ∧ job.aligned = true ∧ padLen job.data.length ≤ job.cap ∧
      padLen job.data.length ≤ ref.slotSize then
    job.data ++ List.replicate (padLen job.data.length - job.data.length) 0
  else job.data

/-- The four read calls. -/
inductive ReadKind where
  | range
  | rangeInto
  | rangeDirect (aligned : Bool)
  | rangeDirectPrep
deriving DecidableEq

/-- One `Range`, `RangeInto`, `RangeDirect` or `RangeDirectPrep`. -/
structure ReadJob where
  key : BlockKey
  kind : ReadKind
  offset : Nat := 0
  length : Nat := 0
  cap : Nat := 0

/-- What a read does once it holds the slot: `window start len head n` reads `len` bytes of the
extent at `start` and delivers `n` of them from `head` on. -/
inductive ReadPlan where
  | reject (status : Status)
  | empty
  | window (start len head n : Nat)

/-- The bytes a read asks for; length zero means "to the end". -/
def ReadJob.span (job : ReadJob) (plen : Nat) : Nat :=
  min (if job.length ≠ 0 then job.length else plen - job.offset) (plen - job.offset)

def ReadJob.plan (o : Options) (job : ReadJob) (ref : SlotRef) (plen : Nat) : ReadPlan :=
  let n := job.span plen
  let abs := ref.offset + job.offset
  let aoff := abs / 4096 * 4096
  let head := abs - aoff
  let alen := padLen (head + n)
  if plen < job.offset then .reject .invalid
  else if job.offset = plen then .empty
  else
    match job.kind with
    | .range => .window abs n 0 n
    | .rangeInto => .window abs (min n job.cap) 0 (min n job.cap)
    | .rangeDirect aligned =>
      if o.directWrites = true ∧ aligned = true ∧ alen ≤ job.cap then .window aoff alen head n
      else .window abs (min n job.cap) 0 (min n job.cap)
    | .rangeDirectPrep =>
      if job.cap < alen then .reject .invalid else .window aoff alen head n

/-- Where a request stands. `writing` and `finishing` are the leader of a flight between its two
critical sections, `reading` is a reader or lease holder between acquire and release, `stored` and
`fetched` have returned. -/
inductive Thread where
  | judging (job : PutJob)
  | waiting (job : PutJob)
  | following (job : PutJob) (flight : Nat)
  | writing (job : PutJob) (ref : SlotRef) (flight done : Nat)
  | finishing (job : PutJob) (ref : SlotRef) (flight : Nat) (ioOk : Bool)
  | stored (job : PutJob) (status : Status)
  | acquiring (job : ReadJob)
  | reading (job : ReadJob) (ref : SlotRef) (plen : Nat) (buf : List UInt8)
  | fetched (job : ReadJob) (status : Status) (data : List UInt8) (valueLen : Nat)

/-! ## The store -/

/-- A write the kernel accepted and whose completion was lost. -/
structure Zombie where
  ref : SlotRef
  buf : List UInt8

structure DiskSlabStore where
  opt : Options
  alloc : SlabAllocator
  payloadLen : AList (fun _ : BlockKey => Nat) := ∅
  tenantUsed : UInt64 → Nat := fun _ => 0
  inflight : BlockKey → Nat := fun _ => 0
  deferredRemove : BlockKey → Bool := fun _ => false
  putFlights : BlockKey → Option Nat := fun _ => none
  flightResult : Nat → Option Status := fun _ => none
  flightCount : Nat := 0
  failed : Bool := false
  table : Bytes := fun _ => 0
  extents : Nat → Bytes := fun _ _ => 0
  threads : Nat → Option Thread := fun _ => none
  spawned : Nat := 0
  zombies : List Zombie := []
  commits : BlockKey → List (List UInt8) := fun _ => []

namespace DiskSlabStore

variable (s : DiskSlabStore) (t : Nat) (key : BlockKey) (ref : SlotRef)

/-- The committed length of `key`. -/
def len : Option Nat := s.payloadLen.lookup key

/-- `IsCached` of a healthy store. -/
def isCached : Bool := (s.len key).isSome

/-- The record of slot `(extent, slot)` in `slots.tbl`. -/
def recordAt (extent slot : Nat) : Option SlotRecord :=
  decode fun i => s.table (s.opt.tableOffset extent slot + i)

/-! ## Metadata -/

/-- `WriteRecord`; `ok` is the outcome of the write. -/
def writeRecord (r : SlotRecord) (valid ok : Bool) : DiskSlabStore × Bool :=
  if s.failed then (s, false)
  else if ok then
    ({ s with table :=
        s.table.pwrite (s.opt.tableOffset ref.extent ref.slot) ((r.encode valid).pread
          0 kRecBytes) },
      true)
  else ({ s with failed := true }, false)

def applyCall (o : Options) (table : Bytes) : MetaCall × Bool → Bytes
  | (.extentBind e, true) => table.pwrite (o.tableOffset e 0) (List.replicate
      (o.maxSlots * kRecBytes) 0)
  | (.extentEvict e _ _, true) =>
    table.pwrite (o.tableOffset e 0) (List.replicate (o.maxSlots * kRecBytes) 0)
  | (.slotEvict ref, true) =>
    table.pwrite (o.tableOffset ref.extent ref.slot) (List.replicate kRecBytes 0)
  | (_, false) => table

def absorb (a : SlabAllocator) : DiskSlabStore :=
  { s with
    alloc := a
    table := a.env.calls.foldl (applyCall s.opt) s.table
    failed := s.failed || a.env.calls.any (fun c => !c.2) }

/-- `CommitPayloadLocked`. -/
def commitPayload (len : Nat) : DiskSlabStore :=
  let old := (s.len key).getD 0
  { s with
    payloadLen := s.payloadLen.insert key len
    tenantUsed :=
      update s.tenantUsed key.tenantHash (s.tenantUsed key.tenantHash - old + len) }

/-- `ErasePayloadLocked`. -/
def erasePayload : DiskSlabStore :=
  match s.len key with
  | none => s
  | some len =>
    { s with
      payloadLen := s.payloadLen.erase key
      tenantUsed :=
        update s.tenantUsed key.tenantHash (s.tenantUsed key.tenantHash - len) }

def eraseEvicted (evicted : List BlockKey) : DiskSlabStore := evicted.foldl erasePayload s

/-- The record that invalidates the slot of `key`. -/
def tombstone : SlotRecord :=
  { key := key, slotSize := ref.slotSize, payloadLen := 0 }

/-- The durable removal of a key: the record first, then the slot. -/
def invalidate (ok : Bool) : DiskSlabStore × Bool :=
  let w := s.writeRecord ref (tombstone key ref) false ok
  if w.2 then ({ w.1 with alloc := (w.1.alloc.remove key).1 }, true) else (w.1, false)

/-- `ReleaseInflightLocked`; `ok` is the outcome of a record write. -/
def releaseInflight (ok : Bool) : DiskSlabStore × Bool :=
  let a := (s.alloc.unpin key).1
  if s.inflight key = 0 then ({ s with alloc := a }, true)
  else
    let s := { s with
      alloc := a, inflight := update s.inflight key (s.inflight key - 1) }
    if s.inflight key ≠ 0 ∨ s.deferredRemove key = false then (s, true)
    else
      let s := { s with deferredRemove := update s.deferredRemove key false }
      let g := s.alloc.get key
      let s := { s with alloc := g.1 }
      match g.2 with
      | none => (s.erasePayload key, true)
      | some ref =>
        let w := s.invalidate key ref ok
        (w.1.erasePayload key, w.2)

/-! ## Critical sections -/

def setThread (th : Thread) : DiskSlabStore :=
  { s with threads := update s.threads t (some th) }

def spawn (th : Thread) : DiskSlabStore :=
  { s with threads := update s.threads s.spawned (some th), spawned := s.spawned + 1 }

def completePut (flight : Nat) (result : Status) : DiskSlabStore :=
  { s with flightResult := update s.flightResult flight (some result) }

def lead (job : PutJob) (outcomes : List Bool) : DiskSlabStore :=
  let flight := s.flightCount
  let s := { s with flightCount := s.flightCount + 1 }
  if s.alloc.contains job.key then
    (s.completePut flight .ioError).setThread t (.stored job .ioError)
  else
    let r := (s.alloc.armed outcomes).put job.key job.data.length
    let s := s.absorb r.1
    if r.2.ok = false then (s.completePut flight .ioError).setThread t (.stored job .ioError)
    else
      ({ s with
          alloc := (s.alloc.pin job.key).1
          inflight := update s.inflight job.key (s.inflight job.key + 1)
          putFlights := update s.putFlights job.key (some flight) }.eraseEvicted
        r.2.evicted).setThread t (.writing job r.2.ref flight 0)

/-- The first critical section of `CacheImpl`, and of one item of `CacheDirectBatch`. -/
def judge (job : PutJob) (outcomes : List Bool) : DiskSlabStore :=
  if s.failed then s.setThread t (.stored job .ioError)
  else if s.isCached job.key then s.setThread t (.stored job .ok)
  else
    match s.putFlights job.key with
    | some flight => s.setThread t (.following job flight)
    | none =>
      if s.deferredRemove job.key then s.setThread t (.waiting job) else s.lead t job outcomes

def finish (job : PutJob) (flight : Nat) (ioOk ok : Bool) : DiskSlabStore :=
  let removed := s.deferredRemove job.key
  let r := s.releaseInflight job.key ok
  let close := fun (s : DiskSlabStore) (result : Status) =>
    ({ s with putFlights := update s.putFlights job.key none }.completePut flight
      result).setThread t (.stored job result)
  if ioOk = false ∨ r.2 = false ∨ r.1.failed = true then
    close (if removed then r.1 else { r.1 with alloc := (r.1.alloc.remove job.key).1 }) .ioError
  else if removed then close r.1 .ok
  else
    let s := r.1.commitPayload job.key job.data.length
    close { s with commits := update s.commits job.key (job.data :: s.commits job.key) } .ok

/-- `AcquireForRead` and the miss that follows when it fails. -/
def acquire (job : ReadJob) : DiskSlabStore :=
  let miss := s.setThread t (.fetched job (if s.failed then .ioError else .notFound) [] 0)
  match s.len job.key with
  | none => miss
  | some plen =>
    let g := s.alloc.getAndPin job.key
    match g.2 with
    | none => miss
    | some ref =>
      { s with
        alloc := g.1
        inflight := update s.inflight job.key (s.inflight job.key + 1) }.setThread t
        (.reading job ref plen [])

def readResult (o : Options) (job : ReadJob) (ref : SlotRef) (plen : Nat) (buf : List UInt8)
    (releaseOk : Bool) : Thread :=
  match job.plan o ref plen with
  | .reject status => .fetched job (if releaseOk then status else .ioError) [] 0
  | .empty => .fetched job (if releaseOk then .ok else .ioError) [] plen
  | .window _ len head n =>
    if buf.length = len ∧ (releaseOk = true ∨ job.kind = .rangeDirectPrep) then
      .fetched job .ok ((buf.drop head).take n) plen
    else .fetched job .ioError [] 0

/-- The last critical section of a read, and the destruction of a lease. -/
def release (job : ReadJob) (ref : SlotRef) (plen : Nat) (buf : List UInt8)
    (ok : Bool) : DiskSlabStore :=
  let r := s.releaseInflight job.key ok
  r.1.setThread t (readResult s.opt job ref plen buf r.2)

def remove (ok : Bool) : DiskSlabStore × Status :=
  if s.failed then (s, .ioError)
  else
    let g := s.alloc.get key
    let s := { s with alloc := g.1 }
    match g.2 with
    | none => (s, .notFound)
    | some ref =>
      if s.inflight key ≠ 0 then
        ({ s with deferredRemove := update s.deferredRemove key true }.erasePayload key, .ok)
      else
        let w := s.invalidate key ref ok
        if w.2 then (w.1.erasePayload key, .ok) else (w.1, .ioError)

/-- `Retain` under the lock. -/
def retain (s : DiskSlabStore) (key : BlockKey) (ttlS : Nat) (mode : RetainMode) (nowS : Nat)
    (ok : Bool) : DiskSlabStore × RetainCode :=
  match s.len key with
  | none => (s, .miss)
  | some plen =>
    let r := s.alloc.retain key ttlS mode nowS
    let s := { s with alloc := r.1 }
    if r.2.persist then
      let w := s.writeRecord r.2.ref
        { key := key
          slotSize := r.2.ref.slotSize
          payloadLen := plen
          retainUntil := r.2.deadline
          retainTtlS := r.2.ttlS } true ok
      (w.1, if w.2 then r.2.code else .miss)
    else (s, r.2.code)

/-- A critical section of `ReclaimTick`: an allocator call that evicts. -/
def reclaim (r : SlabAllocator × List BlockKey) : DiskSlabStore :=
  (s.absorb r.1).eraseEvicted r.2

end DiskSlabStore

end DingoCache.Store
