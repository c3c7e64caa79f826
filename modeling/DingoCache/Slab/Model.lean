import DingoCache.Library.RingFamily
import DingoCache.Library.DenseTable

/-!
# SlabAllocator: Data Model

State of `src/cache/slab_allocator.{h,cc}`: size classes with per-extent free
slots, extents, the dense slot-metadata table, the intrusive rings, the key
index and the retention wheel.

Three representation choices differ from the C++ text:

- `kNoSlot` and `kUnbound` are `none`; vectors are a size and a total function.
- `FlatKeyIndex` is the finite map it implements (`KeyIndex`).
- Counters are natural numbers.  The pin count of a slot is a `uint32_t` that wraps.

The persistence callbacks are the environment:
`CallbackEnv.outcomes` lists the results of the next invocations (an exhausted
list answers success) and `calls` records every invocation with its result.
-/

namespace DingoCache.Slab

open Library
open Function (update)

/-! ## Keys, placements and callbacks -/

/-- `BlockKey`: tenant-scoped native digest. -/
structure BlockKey where
  digestHi : UInt64 := 0
  digestLo : UInt64 := 0
  tenantHash : UInt64 := 0
deriving DecidableEq

/-- `SlabAllocator::SlotRef`: physical placement of a key's value. -/
structure SlotRef where
  cls : Nat := 0
  extent : Nat := 0
  slot : Nat := 0
  slotSize : Nat := 0
  offset : Nat := 0
deriving DecidableEq

/-- One invocation of a persistence callback. -/
inductive MetaCall where
  | extentBind (extent : Nat)
  | extentEvict (extent totalSlots residentSlots : Nat)
  | slotEvict (ref : SlotRef)
deriving DecidableEq

/-- Outcomes of the coming callback invocations and the log of the past ones. -/
structure CallbackEnv where
  outcomes : List Bool := []
  calls : List (MetaCall × Bool) := []

/-- `SlabAllocator::Options`, with the environment knobs the constructor reads.
    `quotient m` is the value of `static_cast<uint64_t>(m / (1.0 - waste))`
    (0 when `max_waste` is 0); the `on*` flags say which callbacks are installed. -/
structure Options where
  extentBytes : Nat := 2 ^ 30
  numExtents : Nat := 8
  align : Nat := 4096
  quotient : Nat → Nat := fun _ => 0
  onExtentBind : Bool := false
  onExtentEvict : Bool := false
  onSlotEvict : Bool := false
  coldStealEnabled : Bool := true
  coldWindow : Nat := 0

/-- `kStripeWays`: target write parallelism and capacity floor per class. -/
def kStripeWays : Nat := 8

def kReadHeatUnit : Nat := 1024

def kReadDecayOps : Nat := 64

/-- `kWheelTickS`: seconds per bucket of the retention wheel. -/
def kWheelTickS : Nat := 10

def uint32Max : Nat := 2 ^ 32 - 1

/-! ## Slot metadata, classes and extents -/

/-- `SlotMeta` without its link fields. `refs` stays below `2 ^ 32`. -/
structure SlotMeta where
  key : BlockKey := {}
  ref : SlotRef := {}
  usefulBytes : Nat := 0
  freeNext : Option Nat := none
  readTouches : Nat := 0
  accessSeq : Nat := 0
  refs : Nat := 0
  retainUntil : Nat := 0
  retainTtlS : Nat := 0
  retainPersistedUntil : Nat := 0
  referenced : Bool := false
  removePending : Bool := false
  live : Bool := false

/-- `slots_` and the chain of its free entries. -/
structure SlotTable where
  slots : Nat → SlotMeta := fun _ => {}
  size : Nat := 0
  freeHead : Option Nat := none

/-- `Class`. A missing entry of `free_by_ext` is the empty list. -/
structure SizeClass where
  slotSize : Nat := 0
  slotsPerExtent : Nat := 0
  freeByExt : Nat → List Nat := fun _ => []
  extRr : List Nat := []
  rrNext : Nat := 0
  freeCount : Nat := 0
  residentCount : Nat := 0
  boundExtents : Nat := 0
  puts : Nat := 0
  usefulBytes : Nat := 0
  readTouches : Nat := 0
  readHeat : Nat := 0
  heatSeq : Nat := 0
  ring : Ring := {}
  protectedSlots : Nat := 0

structure ExtentMeta where
  cls : Option Nat := none
  freeSlots : Nat := 0
  totalSlots : Nat := 0
  pinned : Nat := 0
  youngestSeq : Nat := 0
  accessSeqSum : Nat := 0
  usefulBytes : Nat := 0
  readHeat : Nat := 0
  heatSeq : Nat := 0
  residentHead : Option Nat := none
  residentCount : Nat := 0
  protectedSlots : Nat := 0

/-- The class, global and extent links of all slot-metadata records. -/
structure SlabLinks where
  cls : Links := Links.empty
  global : Links := Links.empty
  extent : Links := Links.empty

/-- The key index as a finite map with its size. -/
structure KeyIndex where
  find : BlockKey → Option Nat := fun _ => none
  size : Nat := 0

/-- `FlatKeyIndex::Insert` of an absent key. -/
def KeyIndex.insert (x : KeyIndex) (k : BlockKey) (i : Nat) : KeyIndex :=
  { find := update x.find k (some i), size := x.size + 1 }

/-- `FlatKeyIndex::Insert` of a present key, which the source reports as a failure. -/
def KeyIndex.overwrite (x : KeyIndex) (k : BlockKey) (i : Nat) : KeyIndex :=
  { x with find := update x.find k (some i) }

def KeyIndex.erase (x : KeyIndex) (k : BlockKey) : KeyIndex :=
  match x.find k with
  | some _ => { find := update x.find k none, size := x.size - 1 }
  | none => x

/-! ## Retention state and counters -/

structure RetainOptions where
  enabled : Bool := false
  budgetBytes : Nat := 0
  classPct : Nat := 80
  maxTtlS : Nat := 3600
  persistMinDeltaS : Nat := 60

structure WheelEntry where
  key : BlockKey
  until_ : Nat

inductive RetainMode where
  | set
  | refresh
deriving DecidableEq

inductive RetainCode where
  | miss
  | hitUnprotected
  | protectedNew
  | refreshed
  | upgraded
  | unchanged
  | denied
deriving DecidableEq

/-- The retention fields of the allocator. -/
structure Retention where
  opt : RetainOptions := {}
  protectedBytes : Nat := 0
  protectedSlots : Nat := 0
  expired : Nat := 0
  evictSkipped : Nat := 0
  results : RetainCode → Nat := fun _ => 0
  wheel : Nat → List WheelEntry := fun _ => []
  wheelSize : Nat := 0
  wheelEntries : Nat := 0
  wheelTick : Nat := 0
  nowS : Nat := 0

/-- Cumulative counters that no decision reads back. -/
structure Stats where
  evictions : Nat := 0
  steals : Nat := 0
  coldSteals : Nat := 0
  watermarkEvictions : Nat := 0
  watermarkScanSteps : Nat := 0
  extentReturns : Nat := 0

structure SlabAllocator where
  opt : Options := {}
  classes : Nat → SizeClass := fun _ => {}
  classCount : Nat := 0
  extents : Nat → ExtentMeta := fun _ => {}
  table : SlotTable := {}
  links : SlabLinks := {}
  globalRing : Ring := {}
  index : KeyIndex := {}
  unbound : Nat := 0
  usedBytes : Nat := 0
  stats : Stats := {}
  putSeq : Nat := 0
  activitySeq : Nat := 0
  retention : Retention := {}
  env : CallbackEnv := {}
  /-- History: a pin took the count of some slot from `2 ^ 32 - 1` to zero. -/
  pinsWrapped : Bool := false

/-- `slots_[i]`. -/
def SlabAllocator.slots (a : SlabAllocator) (i : Nat) : SlotMeta := a.table.slots i

/-- Result of a public operation, as far as the operation has one. -/
structure PutResult where
  ok : Bool := false
  ref : SlotRef := {}
  handle : Option Nat := none
  evicted : List BlockKey := []

inductive ExtentBindResult where
  | bound
  | unavailable
  | persistenceError
deriving DecidableEq

/-! ## Free slots of one class -/

namespace SizeClass

variable (c : SizeClass) (extent : Nat)

/-- `PushFreeLocked`. -/
def pushFree (extent slot : Nat) : SizeClass :=
  { c with
    freeByExt := update c.freeByExt extent (c.freeByExt extent ++ [slot])
    extRr := if c.freeByExt extent = [] then c.extRr ++ [extent] else c.extRr
    freeCount := c.freeCount + 1 }

/-- The rotation cursor `PopFreeLocked` uses. -/
def popCursor : Nat := if c.rrNext ≥ c.extRr.length then 0 else c.rrNext

/-- `PopFreeLocked`: a free slot of the next extent in rotation. -/
def popFree : Option (SizeClass × Nat × Nat) :=
  match c.extRr[c.popCursor]? with
  | none => none
  | some extent =>
    match (c.freeByExt extent).getLast? with
    | none => none
    | some slot =>
      let rest := (c.freeByExt extent).dropLast
      some ({ c with
        freeByExt := update c.freeByExt extent rest
        freeCount := c.freeCount - 1
        extRr := if rest = [] then swapRemove c.extRr c.popCursor else c.extRr
        rrNext := if rest = [] then c.popCursor else c.popCursor + 1 }, extent, slot)

/-- `DropFromRotationLocked`. -/
def dropFromRotation : SizeClass :=
  match scanIdx c.extRr extent with
  | none => c
  | some i =>
    let rr := swapRemove c.extRr i
    let next := if c.rrNext > i then c.rrNext - 1 else c.rrNext
    { c with extRr := rr, rrNext := if next ≥ rr.length ∧ rr ≠ [] then 0 else next }

/-- `TakeFreeSlotLocked`: claim one given free slot. -/
def takeFreeSlot (extent slot : Nat) : Option SizeClass :=
  match scanIdx (c.freeByExt extent) slot with
  | none => none
  | some i =>
    let rest := swapRemove (c.freeByExt extent) i
    let c' := { c with
      freeByExt := update c.freeByExt extent rest
      freeCount := c.freeCount - 1 }
    some (if rest = [] then c'.dropFromRotation extent else c')

/-- `DropExtentFreeLocked`. An extent without free slots is in no rotation, so a present but empty
bucket and an absent one are treated alike. -/
def dropExtentFree : SizeClass :=
  if c.freeByExt extent = [] then c
  else
    { c with
      freeCount := c.freeCount - (c.freeByExt extent).length
      freeByExt := update c.freeByExt extent [] }.dropFromRotation extent

/-- The loop of `BindExtentLocked` that pushes every slot of a fresh extent. -/
def pushExtent : SizeClass :=
  (List.range c.slotsPerExtent).foldl (fun c slot => c.pushFree extent slot) c

end SizeClass

/-! ## Geometry -/

namespace Options

/-- `AlignUp` on 64-bit operands (0 on overflow). -/
def alignUp (x a : Nat) : Nat :=
  if a ≤ 1 then x else if x > 2 ^ 64 - 1 - (a - 1) then 0 else ((x + (a - 1)) / a) * a

def maxAligned (o : Options) : Nat :=
  min (o.extentBytes / o.align * o.align) (uint32Max / o.align * o.align)

/-- The bucket after `current`: the largest aligned slot the quotient allows. -/
def nextBucket (o : Options) (current : Nat) : Nat :=
  min (max (o.quotient (current + o.align) / o.align * o.align) (current + o.align)) o.maxAligned

/-- The loop of `CanonicalSlotSize`; every round moves `current` up, so `alignedLen` rounds are
enough. -/
def canonicalLoop (o : Options) (alignedLen : Nat) : Nat → Nat → Nat
  | 0, current => current
  | fuel + 1, current =>
    if current < alignedLen then
      if o.nextBucket current ≤ current then alignedLen
      else canonicalLoop o alignedLen fuel (o.nextBucket current)
    else current

def canonicalSlotSize (o : Options) (alignedLen : Nat) : Nat :=
  canonicalLoop o alignedLen alignedLen o.align % 2 ^ 32

/-- The class loop of the constructor, from one slot size upwards. -/
def classSizes (o : Options) : Nat → Nat → List Nat
  | 0, _ => []
  | fuel + 1, slotSize =>
    if slotSize ≤ o.maxAligned then
      if slotSize = o.maxAligned then [slotSize]
      else if o.canonicalSlotSize (slotSize + o.align) ≤ slotSize then [slotSize]
      else slotSize :: classSizes o fuel (o.canonicalSlotSize (slotSize + o.align))
    else []

def normalize (o : Options) : Options :=
  { o with
    align := if o.align = 0 then 1 else o.align
    numExtents := if o.numExtents = 0 then 1 else o.numExtents }

end Options

namespace SlabAllocator

/-- `SlabAllocator(Options)`. -/
def new (o : Options) : SlabAllocator :=
  let o := o.normalize
  let sizes := o.classSizes (o.maxAligned + 1) o.align
  { opt := o
    unbound := o.numExtents
    classCount := sizes.length
    classes := fun c =>
      match sizes[c]? with
      | some s => { slotSize := s, slotsPerExtent := o.extentBytes / s % 2 ^ 32 }
      | none => {} }

/-- `ClassForExactSize`; `none` is `classes_.size()`. -/
def classForExactSize (a : SlabAllocator) (slotSize : Nat) : Option Nat :=
  (List.range a.classCount).find? fun i => (a.classes i).slotSize = slotSize

def classForLen (a : SlabAllocator) (alignedLen : Nat) : Option Nat :=
  a.classForExactSize (a.opt.canonicalSlotSize alignedLen)

end SlabAllocator

end DingoCache.Slab
