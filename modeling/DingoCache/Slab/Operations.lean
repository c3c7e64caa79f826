import DingoCache.Slab.Model

/-!
# SlabAllocator: Operations

The internal functions of `src/cache/slab_allocator.cc`:

- residency changes: `bindExtent`, `installResident`, `detachResident`,
  `touchLocked`, `protectLocked`, `unprotectLocked`,
- capacity eviction: class CLOCK sweep, extent steals, global sweep.

The C++ references into the slot table are written as one update of the whole
state per source block; loops recurse on the bound the source gives them.
-/

namespace DingoCache.Slab

open Library
open Function (update)

/-! ## One resident more or fewer -/

/-- Class counters when `m` becomes resident and the ring is `ring`. -/
def SizeClass.addResident (x : SizeClass) (ring : Ring) (m : SlotMeta) : SizeClass :=
  { x with
    ring := ring
    residentCount := x.residentCount + 1
    usefulBytes := x.usefulBytes + m.usefulBytes }

/-- Extent counters when `m` becomes resident under index `i`. -/
def ExtentMeta.addResident (x : ExtentMeta) (i : Nat) (m : SlotMeta) : ExtentMeta :=
  { x with
    residentHead := some i
    residentCount := x.residentCount + 1
    freeSlots := x.freeSlots - 1
    usefulBytes := x.usefulBytes + m.usefulBytes
    accessSeqSum := x.accessSeqSum + m.accessSeq }

/-- Class counters when the resident `m` is forgotten. -/
def SizeClass.dropResident (x : SizeClass) (ring : Ring) (m : SlotMeta) : SizeClass :=
  { x with
    ring := ring
    residentCount := x.residentCount - 1
    usefulBytes := x.usefulBytes - m.usefulBytes }

/-- Extent counters when the resident `m` is forgotten. -/
def ExtentMeta.dropResident (x : ExtentMeta) (head : Option Nat) (m : SlotMeta) : ExtentMeta :=
  { x with
    residentHead := head
    residentCount := x.residentCount - 1
    accessSeqSum := x.accessSeqSum - m.accessSeq
    pinned := if 0 < m.refs then x.pinned - 1 else x.pinned
    freeSlots := x.freeSlots + 1
    usefulBytes := x.usefulBytes - m.usefulBytes }

namespace SlabAllocator

/-! ## Callbacks, heat and the slot table -/

variable (a : SlabAllocator) (c e : Nat) (i : Nat)

/-- One invocation of a persistence callback; an absent callback succeeds. -/
def invoke (installed : Bool) (call : MetaCall) : SlabAllocator × Bool :=
  if installed then
    ({ a with env :=
        { outcomes := a.env.outcomes.tail
          calls := a.env.calls ++ [(call, a.env.outcomes.headD true)] } },
      a.env.outcomes.headD true)
  else (a, true)

def decayedHeat (heat heatSeq : Nat) : Nat :=
  if heat = 0 then 0
  else if (a.activitySeq - heatSeq) / kReadDecayOps ≥ 63 then 0
  else heat / 2 ^ ((a.activitySeq - heatSeq) / kReadDecayOps)

/-- `ExtentHeatLocked`. -/
def extentHeat (x : ExtentMeta) : Nat := a.decayedHeat x.readHeat x.heatSeq

/-- `StealsBeforeLocked`: empty first, then oldest mean access, then coldest, then fewest useful
bytes. -/
def stealsBefore (x y : ExtentMeta) : Bool :=
  if decide (x.residentCount = 0) ≠ decide (y.residentCount = 0) then x.residentCount = 0
  else if x.accessSeqSum * y.residentCount ≠ y.accessSeqSum * x.residentCount then
    x.accessSeqSum * y.residentCount < y.accessSeqSum * x.residentCount
  else if a.extentHeat x ≠ a.extentHeat y then a.extentHeat x < a.extentHeat y
  else x.usefulBytes < y.usefulBytes

/-- The index `AcquireSlotMetaLocked` hands out. -/
def acquireIndex (t : SlotTable) : Nat := t.freeHead.getD t.size

/-- The table after `AcquireSlotMetaLocked`. -/
def acquireSlotMeta (t : SlotTable) : SlotTable :=
  match t.freeHead with
  | some i =>
    { t with freeHead := (t.slots i).freeNext, slots := update t.slots i {} }
  | none => { t with size := t.size + 1, slots := update t.slots t.size {} }

/-- `slots_[i] = m` on the fields the links do not hold. -/
def setSlot (m : SlotMeta) : SlabAllocator :=
  { a with table := { a.table with slots := update a.table.slots i m } }

/-! ## Binding and residency -/

/-- The state change of `BindExtentLocked` once the metadata is prepared. -/
def bindExtent : SlabAllocator :=
  { a with
    classes := update a.classes c
      { (a.classes c).pushExtent e with boundExtents := (a.classes c).boundExtents + 1 }
    extents := update a.extents e
      { cls := some c
        totalSlots := (a.classes c).slotsPerExtent
        freeSlots := (a.classes c).slotsPerExtent }
    unbound := a.unbound - 1 }

def bindExtentLocked (metadataPrepared : Bool) : SlabAllocator × ExtentBindResult :=
  if a.classCount ≤ c ∨ a.opt.numExtents ≤ e ∨ (a.extents e).cls ≠ none then (a, .unavailable)
  else if (a.classes c).slotsPerExtent = 0 then (a, .unavailable)
  else
    let call := a.invoke (!metadataPrepared && a.opt.onExtentBind) (.extentBind e)
    if call.2 then (call.1.bindExtent c e, .bound) else (call.1, .persistenceError)

def bindFreeExtent (c : Nat) : SlabAllocator × ExtentBindResult :=
  if a.unbound = 0 then (a, .unavailable)
  else
    match (List.range a.opt.numExtents).find? fun e => (a.extents e).cls = none with
    | none => (a, .unavailable)
    | some e => a.bindExtentLocked c e false

/-- Give an extent back to the unbound pool: the block shared by `FreeSlotLocked` and
`StealExtentLocked`. -/
def unbindExtent : SlabAllocator :=
  { a with
    classes := update a.classes c
      { (a.classes c).dropExtentFree e with boundExtents := (a.classes c).boundExtents - 1 }
    extents := update a.extents e {}
    unbound := a.unbound + 1 }

/-- Publish a filled record: `index_.Insert`, `LinkResidentLocked` and the counters that `Put` and
`RestoreBulk` both update. -/
def installResident (m : SlotMeta) : SlabAllocator :=
  let cls := a.classes m.ref.cls
  let ext := a.extents m.ref.extent
  let cl := linkBeforeHand a.links.cls cls.ring i
  let gl := linkBeforeHand a.links.global a.globalRing i
  { a with
    table := { a.table with slots := update a.table.slots i m }
    index := a.index.insert m.key i
    links :=
      { cls := cl.1, global := gl.1, extent := a.links.extent.pushFront ext.residentHead i }
    globalRing := gl.2
    classes := update a.classes m.ref.cls (cls.addResident cl.2 m)
    extents := update a.extents m.ref.extent (ext.addResident i m)
    usedBytes := a.usedBytes + m.ref.slotSize }

def protectLocked : SlabAllocator :=
  let m := a.slots i
  let cls := a.classes m.ref.cls
  let ext := a.extents m.ref.extent
  { a with
    extents := update a.extents m.ref.extent
      { ext with protectedSlots := ext.protectedSlots + 1 }
    classes := update a.classes m.ref.cls
      { cls with protectedSlots := cls.protectedSlots + 1 }
    retention :=
      { a.retention with
        protectedBytes := a.retention.protectedBytes + m.ref.slotSize
        protectedSlots := a.retention.protectedSlots + 1 } }

/-- `UnprotectLocked`. The source guards every decrement against zero, which is the truncated
subtraction. -/
def unprotectLocked : SlabAllocator :=
  let m := a.slots i
  let cls := a.classes m.ref.cls
  let ext := a.extents m.ref.extent
  { a with
    table := { a.table with slots := update a.table.slots i { m with retainUntil := 0 } }
    extents := update a.extents m.ref.extent
      { ext with protectedSlots := ext.protectedSlots - 1 }
    classes := update a.classes m.ref.cls
      { cls with protectedSlots := cls.protectedSlots - 1 }
    retention :=
      { a.retention with
        protectedBytes := a.retention.protectedBytes - m.ref.slotSize
        protectedSlots := a.retention.protectedSlots - 1 } }

/-- The class ring after `FreeSlotLocked` unlinked `i`. -/
def ringAfterFree (L : Links) (cls : SizeClass) (i : Nat) : Ring :=
  if cls.residentCount - 1 = 0 then { (unlinkRing L cls.ring i).2 with hand := none }
  else (unlinkRing L cls.ring i).2

/-- `FreeSlotLocked` from the unlinking to the free chain. -/
def detachResident : SlabAllocator :=
  let m := a.slots i
  let cls := a.classes m.ref.cls
  let ext := a.extents m.ref.extent
  { a with
    classes := update a.classes m.ref.cls
      ((cls.pushFree m.ref.extent m.ref.slot).dropResident (ringAfterFree a.links.cls cls i) m)
    globalRing := (unlinkRing a.links.global a.globalRing i).2
    links :=
      { cls := (unlinkRing a.links.cls cls.ring i).1.clear i
        global := (unlinkRing a.links.global a.globalRing i).1.clear i
        extent := (a.links.extent.unlink i).clear i }
    extents := update a.extents m.ref.extent
      (ext.dropResident (a.links.extent.headUnlink ext.residentHead i) m)
    index := a.index.erase m.key
    usedBytes := a.usedBytes - m.ref.slotSize
    table :=
      { a.table with
        slots := update a.table.slots i { freeNext := a.table.freeHead }
        freeHead := some i } }

/-- The last block of `FreeSlotLocked`: an idle extent of a wide class goes back. -/
def returnIdleExtent : SlabAllocator :=
  if (a.extents e).freeSlots = (a.extents e).totalSlots ∧
      kStripeWays < (a.classes c).extRr.length then
    { a.unbindExtent c e with
      stats := { a.stats with extentReturns := a.stats.extentReturns + 1 } }
  else a

/-- The first line of `FreeSlotLocked`. -/
def unprotectIfRetained : SlabAllocator :=
  if (a.slots i).retainUntil ≠ 0 then a.unprotectLocked i else a

def freeSlotLocked : SlabAllocator :=
  ((a.unprotectIfRetained i).detachResident i).returnIdleExtent
    (a.slots i).ref.cls (a.slots i).ref.extent

def touchLocked : SlabAllocator :=
  let m := a.slots i
  let b := { a with activitySeq := a.activitySeq + 1 }
  let cls := a.classes m.ref.cls
  let ext := a.extents m.ref.extent
  let cl := moveBehindHand a.links.cls cls.ring i
  let gl := moveBehindHand a.links.global a.globalRing i
  { b with
    table := { a.table with
      slots := update a.table.slots i
        { m with
          referenced := true
          readTouches := m.readTouches + 1
          accessSeq := b.activitySeq } }
    links := { a.links with cls := cl.1, global := gl.1 }
    globalRing := gl.2
    classes := update a.classes m.ref.cls
      { cls with
        ring := cl.2
        readHeat := b.decayedHeat cls.readHeat cls.heatSeq + kReadHeatUnit
        heatSeq := b.activitySeq
        readTouches := cls.readTouches + 1 }
    extents := update a.extents m.ref.extent
      { ext with
        readHeat := b.extentHeat ext + kReadHeatUnit
        heatSeq := b.activitySeq
        accessSeqSum := ext.accessSeqSum + (b.activitySeq - m.accessSeq) } }

/-! ## Capacity eviction -/

/-- `++evictions_`. -/
def noteEviction : SlabAllocator :=
  { a with stats := { a.stats with evictions := a.stats.evictions + 1 } }

/-- The victim block of `EvictOneFrom`: invalidate the record, then forget it. -/
def evictVictim : SlabAllocator × Bool × List BlockKey :=
  let call := a.invoke a.opt.onSlotEvict (.slotEvict (a.slots i).ref)
  if call.2 then ((call.1.freeSlotLocked i).noteEviction, true, [(a.slots i).key])
  else (call.1, false, [])

/-- The class hand after the sweep looked at `i`. -/
def advanceClassHand (c i : Nat) : SlabAllocator :=
  { a with
    classes := update a.classes c
      { a.classes c with ring := advanceHand a.links.cls (a.classes c).ring i } }

/-- `++retain_evict_skipped_`. -/
def noteRetainSkip : SlabAllocator :=
  { a with retention := { a.retention with evictSkipped := a.retention.evictSkipped + 1 } }

/-- The CLOCK sweep of `EvictOneFrom`, with its step limit and its fallback victim. -/
def evictSweep (c : Nat) : Nat → SlabAllocator → Option Nat → SlabAllocator × Bool × List BlockKey
  | 0, a, fallback => evictFallback a fallback
  | n + 1, a, fallback =>
    if (a.classes c).residentCount = 0 then evictFallback a fallback
    else
      match (a.classes c).ring.hand.or (a.classes c).ring.head with
      | none => evictFallback a fallback
      | some i =>
        let b := a.advanceClassHand c i
        if 0 < (a.slots i).refs then evictSweep c n b fallback
        else if (a.slots i).retainUntil ≠ 0 then evictSweep c n b.noteRetainSkip fallback
        else if (a.slots i).referenced then
          evictSweep c n (b.setSlot i { a.slots i with referenced := false }) (fallback.or (some i))
        else b.evictVictim i
where
  /-- After the sweep: evict the first unprotected slot it met. -/
  evictFallback (a : SlabAllocator) : Option Nat → SlabAllocator × Bool × List BlockKey
    | none => (a, false, [])
    | some i => if (a.slots i).live then a.evictVictim i else (a, false, [])

def evictOneFrom (c : Nat) : SlabAllocator × Bool × List BlockKey :=
  if (a.classes c).residentCount = 0 then (a, false, [])
  else evictSweep c (2 * (a.classes c).residentCount + 2) a none

/-- The loop of `StealExtentLocked` over the residents of the stolen extent. -/
def drainExtent (e : Nat) : Nat → SlabAllocator → SlabAllocator × List BlockKey
  | 0, a => (a, [])
  | n + 1, a =>
    match (a.extents e).residentHead with
    | none => (a, [])
    | some i =>
      let r := drainExtent e n (a.freeSlotLocked i).noteEviction
      (r.1, (a.slots i).key :: r.2)

/-- Freeing the last resident may already have returned the extent. -/
def unbindIfBound (old e : Nat) : SlabAllocator :=
  if (a.extents e).cls ≠ none then a.unbindExtent old e else a

/-- `++steals_`. -/
def noteSteal : SlabAllocator :=
  { a with stats := { a.stats with steals := a.stats.steals + 1 } }

/-- `StealExtentLocked` after the durable wipe: forget the residents, unbind, rebind. -/
def rebindExtent (e old target : Nat) : SlabAllocator × ExtentBindResult × List BlockKey :=
  let d := drainExtent e (a.extents e).residentCount a
  let r := (d.1.unbindIfBound old e).bindExtentLocked target e true
  (if r.2 = .bound then r.1.noteSteal else r.1, r.2, d.2)

def stealExtentLocked (e target : Nat) : SlabAllocator × ExtentBindResult × List BlockKey :=
  match (a.extents e).cls with
  | none => (a, .unavailable, [])
  | some old =>
    if a.classCount ≤ target ∨ (a.classes target).slotsPerExtent = 0 ∨
        (a.extents e).pinned ≠ 0 ∨ (a.extents e).protectedSlots ≠ 0 then
      (a, .unavailable, [])
    else
      let call := a.invoke a.opt.onExtentBind (.extentBind e)
      if call.2 then call.1.rebindExtent e old target else (call.1, .persistenceError, [])

/-- The scan shared by the steal functions: the first extent no later eligible one goes before. -/
def bestExtent (eligible : Nat → Bool) (before : Nat → Nat → Bool) : Option Nat :=
  (List.range a.opt.numExtents).foldl
    (fun best e =>
      if eligible e then
        match best with
        | none => some e
        | some b => if before e b then some e else some b
      else best) none

/-- Bound to another class, unpinned and unprotected. -/
def stealable (target e : Nat) : Bool :=
  (a.extents e).cls ≠ none && (a.extents e).cls ≠ some target &&
    (a.extents e).pinned = 0 && (a.extents e).protectedSlots = 0

def stealExtentFor (target minDonorExtents : Nat) :
    SlabAllocator × ExtentBindResult × List BlockKey :=
  let eligible := fun e =>
    a.stealable target e &&
      !(decide (0 < minDonorExtents) &&
        decide ((a.classes ((a.extents e).cls.getD 0)).boundExtents ≤ minDonorExtents))
  match a.bestExtent eligible fun e b => a.stealsBefore (a.extents e) (a.extents b) with
  | none => (a, .unavailable, [])
  | some e => a.stealExtentLocked e target

/-- The victim order of `StealColdExtentFor`. -/
def colderThan (x y : ExtentMeta) : Bool :=
  a.extentHeat x < a.extentHeat y ||
    (a.extentHeat x = a.extentHeat y && x.usefulBytes < y.usefulBytes) ||
    (a.extentHeat x = a.extentHeat y && x.usefulBytes = y.usefulBytes &&
      x.youngestSeq < y.youngestSeq)

/-- `++cold_steals_`. -/
def noteColdSteal : SlabAllocator :=
  { a with stats := { a.stats with coldSteals := a.stats.coldSteals + 1 } }

/-- The number of recent puts that make an extent too young for a cold steal. -/
def coldStealWindow : Nat :=
  if a.opt.coldWindow ≠ 0 then a.opt.coldWindow else a.index.size

def stealColdExtentFor (target : Nat) : SlabAllocator × ExtentBindResult × List BlockKey :=
  if a.opt.coldStealEnabled = false ∨ a.coldStealWindow = 0 ∨ a.putSeq ≤ a.coldStealWindow then
    (a, .unavailable, [])
  else
    let eligible := fun e =>
      a.stealable target e && (a.extents e).residentCount ≠ 0 &&
        (a.extents e).youngestSeq < a.putSeq - a.coldStealWindow
    match a.bestExtent eligible fun e b => a.colderThan (a.extents e) (a.extents b) with
    | none => (a, .unavailable, [])
    | some e =>
      let r := a.stealExtentLocked e target
      (if r.2.1 = .bound then r.1.noteColdSteal else r.1, r.2)

def stealFrom (donor target : Nat) : SlabAllocator × Bool × List BlockKey :=
  if donor = target ∨ a.classCount ≤ donor ∨ a.classCount ≤ target ∨
      (a.classes target).slotsPerExtent = 0 then (a, false, [])
  else
    let eligible := fun e =>
      (a.extents e).cls = some donor && (a.extents e).pinned = 0 &&
        (a.extents e).protectedSlots = 0
    match a.bestExtent eligible fun e b => a.stealsBefore (a.extents e) (a.extents b) with
    | none => (a, false, [])
    | some e =>
      let r := a.stealExtentLocked e target
      (r.1, r.2.1 = .bound, r.2.2)

/-- The loop of `ReclaimClass`, one round per remaining victim. -/
def reclaimLoop (c targetFree : Nat) : Nat → SlabAllocator → SlabAllocator × Nat × List BlockKey
  | 0, a => (a, 0, [])
  | n + 1, a =>
    if (a.classes c).freeCount < targetFree ∧ a.unbound = 0 then
      let x := a.evictOneFrom c
      if x.2.1 = false then (x.1, 0, x.2.2)
      else if (x.1.classes c).freeCount ≤ (a.classes c).freeCount then (x.1, 1, x.2.2)
      else
        let r := reclaimLoop c targetFree n x.1
        (r.1, r.2.1 + 1, x.2.2 ++ r.2.2)
    else (a, 0, [])

def reclaimClass (c targetFree maxVictims : Nat) : SlabAllocator × Nat × List BlockKey :=
  if a.classCount ≤ c then (a, 0, []) else reclaimLoop c targetFree maxVictims a

/-- The callback `EvictColdToTarget` makes for one victim; a configuration with only a whole-extent
callback refuses a partial eviction. -/
def coldCallback : SlabAllocator × Bool :=
  let m := a.slots i
  let ext := a.extents m.ref.extent
  if ext.residentCount = 1 ∧ a.opt.onExtentEvict = true then
    a.invoke true (.extentEvict m.ref.extent ext.totalSlots 1)
  else if a.opt.onSlotEvict then a.invoke true (.slotEvict m.ref)
  else (a, !a.opt.onExtentEvict)

/-- `global_hand_ = next`. -/
def advanceGlobalHand : SlabAllocator :=
  { a with globalRing := advanceHand a.links.global a.globalRing i }

/-- `++watermark_scan_steps_`. -/
def noteScanStep : SlabAllocator :=
  { a with stats := { a.stats with watermarkScanSteps := a.stats.watermarkScanSteps + 1 } }

/-- `++watermark_evictions_`. -/
def noteWatermark : SlabAllocator :=
  { a with stats := { a.stats with watermarkEvictions := a.stats.watermarkEvictions + 1 } }

/-- The loop of `EvictColdToTarget`: first argument the steps left, then the victims left. -/
def evictColdLoop (targetBytes : Nat) : Nat → Nat → SlabAllocator → SlabAllocator × List BlockKey
  | 0, _, a => (a, [])
  | n + 1, victims, a =>
    match a.globalRing.hand with
    | none => (a, [])
    | some i =>
      if 0 < victims ∧ targetBytes < a.usedBytes then
        let b := a.noteScanStep
        if 0 < (a.slots i).refs then evictColdLoop targetBytes n victims (b.advanceGlobalHand i)
        else if (a.slots i).retainUntil ≠ 0 then
          evictColdLoop targetBytes n victims (b.noteRetainSkip.advanceGlobalHand i)
        else
          let call := b.coldCallback i
          if call.2 then
            let r := evictColdLoop targetBytes n (victims - 1)
              (call.1.freeSlotLocked i).noteEviction.noteWatermark
            (r.1, (a.slots i).key :: r.2)
          else (call.1, [])
      else (a, [])

/-- `EvictColdToTarget`; the result of the source is the number of keys listed. -/
def evictColdToTarget (targetBytes maxVictims : Nat) : SlabAllocator × List BlockKey :=
  evictColdLoop targetBytes
    (if (2 ^ 64 - 1) / 4 < maxVictims then 2 ^ 64 - 1 else 4 * maxVictims) maxVictims a

end SlabAllocator

end DingoCache.Slab
