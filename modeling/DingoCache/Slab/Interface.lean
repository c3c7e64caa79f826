import DingoCache.Slab.Operations

/-!
# SlabAllocator: Public Interface

The public calls of `SlabAllocator`, and runs of them:

- `Put` with its allocation loop, `Get`, `GetAndPin`, `Contains`, `Remove`,
  both forms of `Pin` and `Unpin`,
- `RestoreBulk` with its validation pass,
- `ConfigureRetention`, `Retain` and `ExpireRetention`,
-/

namespace DingoCache.Slab

open Library
open Function (update)

namespace SlabAllocator

/-! ## Put -/

/-- The striping loop of `Put`: bind free extents until the class has `kStripeWays` extents with
free slots. `false` is a failed bind record. -/
def stripeLoop (c : Nat) : Nat → SlabAllocator → SlabAllocator × Bool
  | 0, a => (a, true)
  | n + 1, a =>
    if (a.classes c).extRr.length < kStripeWays then
      let r := a.bindFreeExtent c
      match r.2 with
      | .bound => stripeLoop c n r.1
      | .persistenceError => (r.1, false)
      | .unavailable => (r.1, true)
    else (a, true)

/-- What one round of the allocation loop of `Put` came to. -/
inductive PutRound where
  | placed (extent slot : Nat)
  | again
  | failed

/-- The result of a steal inside the allocation loop, `none` meaning "try the next source of slots".
-/
def PutRound.ofBind : ExtentBindResult → Option PutRound
  | .bound => some .again
  | .persistenceError => some .failed
  | .unavailable => none

variable (a : SlabAllocator) (i c : Nat) (key : BlockKey)

/-- The tail of a round: class CLOCK, then a steal from any class. -/
def putEvict : SlabAllocator × PutRound × List BlockKey :=
  let x := a.evictOneFrom c
  if x.2.1 then (x.1, .again, x.2.2)
  else
    let r := x.1.stealExtentFor c 0
    (r.1, (PutRound.ofBind r.2.1).getD .failed, x.2.2 ++ r.2.2)

/-- The middle of a round: a cold extent of another class. -/
def putSteal : SlabAllocator × PutRound × List BlockKey :=
  let r := a.stealColdExtentFor c
  match PutRound.ofBind r.2.1 with
  | some o => (r.1, o, r.2.2)
  | none =>
    let x := r.1.putEvict c
    (x.1, x.2.1, r.2.2 ++ x.2.2)

/-- A round that found no free slot: grow towards the striping width first. -/
def putGrow : SlabAllocator × PutRound × List BlockKey :=
  if (a.classes c).boundExtents < kStripeWays then
    let r := a.stealExtentFor c kStripeWays
    match PutRound.ofBind r.2.1 with
    | some o => (r.1, o, r.2.2)
    | none =>
      let x := r.1.putSteal c
      (x.1, x.2.1, r.2.2 ++ x.2.2)
  else a.putSteal c

/-- One round of the allocation loop of `Put`. -/
def putRound : SlabAllocator × PutRound × List BlockKey :=
  let r := stripeLoop c kStripeWays a
  if r.2 = false then (r.1, .failed, [])
  else
    match (r.1.classes c).popFree with
    | some (cls, e, s) =>
      ({ r.1 with classes := update r.1.classes c cls }, .placed e s, [])
    | none => r.1.putGrow c

/-- The allocation loop of `Put`. -/
def putLoop (c : Nat) : Nat → SlabAllocator → SlabAllocator × Option (Nat × Nat) × List BlockKey
  | 0, a => (a, none, [])
  | n + 1, a =>
    let r := a.putRound c
    match r.2.1 with
    | .placed e s => (r.1, some (e, s), r.2.2)
    | .failed => (r.1, none, r.2.2)
    | .again =>
      let x := putLoop c n r.1
      (x.1, x.2.1, r.2.2 ++ x.2.2)

/-- Rounds after which the allocation loop has ended: every repeated round forgets a resident or
takes an extent of another class. -/
def putRounds : Nat := a.table.size + a.opt.numExtents + 2

/-- The record `Put` fills. -/
def putMeta (len c e s : Nat) : SlotMeta :=
  { key := key
    ref :=
      { cls := c
        extent := e
        slot := s
        slotSize := (a.classes c).slotSize
        offset := s * (a.classes c).slotSize }
    usefulBytes := len
    accessSeq := a.activitySeq
    live := true }

/-- The counters only `Put` moves. -/
def notePut (c e : Nat) : SlabAllocator :=
  { a with
    putSeq := a.putSeq + 1
    classes := update a.classes c { a.classes c with puts := (a.classes c).puts + 1 }
    extents := update a.extents e
      { a.extents e with youngestSeq := max (a.extents e).youngestSeq (a.putSeq + 1) } }

/-- A fresh slot-metadata record: `AcquireSlotMetaLocked`. -/
def acquire : SlabAllocator :=
  { a with
    table := acquireSlotMeta a.table
    links :=
      { cls := a.links.cls.clear (acquireIndex a.table)
        global := a.links.global.clear (acquireIndex a.table)
        extent := a.links.extent.clear (acquireIndex a.table) } }

/-- `Put` once a slot is taken from the free lists. -/
def putPlaced (len c e s : Nat) : SlabAllocator × Option Nat :=
  let i := acquireIndex a.table
  let b := a.acquire
  match b.index.find key with
  | some _ =>
    -- the key appeared meanwhile: give the record and the slot back
    ({ b with
        putSeq := b.putSeq + 1
        index := b.index.overwrite key i
        table :=
          { b.table with
            slots := update b.table.slots i { freeNext := b.table.freeHead }
            freeHead := some i }
        classes := update b.classes c ((b.classes c).pushFree e s) }, none)
  | none => ((b.installResident i (b.putMeta key len c e s)).notePut c e, some i)

/-- `Put` of a key that is not in the index. -/
def putNew (len : Nat) : SlabAllocator × PutResult :=
  if len = 0 ∨ a.opt.extentBytes < len ∨ uint32Max < len then (a, {})
  else if Options.alignUp len a.opt.align = 0 ∨
      a.opt.extentBytes < Options.alignUp len a.opt.align then (a, {})
  else
    match a.classForLen (Options.alignUp len a.opt.align) with
    | none => (a, {})
    | some c =>
      let r := putLoop c a.putRounds a
      match r.2.1 with
      | none => (r.1, { evicted := r.2.2 })
      | some (e, s) =>
        let x := r.1.putPlaced key len c e s
        match x.2 with
        | none => (x.1, { evicted := r.2.2 })
        | some i =>
          (x.1, { ok := true, ref := (x.1.slots i).ref, handle := some i, evicted := r.2.2 })

def put (len : Nat) : SlabAllocator × PutResult :=
  let a' := { a with activitySeq := a.activitySeq + 1 }
  match a.index.find key with
  | none => a'.putNew key len
  | some i =>
    if (a.slots i).removePending then (a', {})
    else
      (a'.setSlot i { a.slots i with referenced := true },
        { ok := true, ref := (a.slots i).ref, handle := some i })

/-! ## Lookup, pins and removal -/

def contains : Bool :=
  match a.index.find key with
  | none => false
  | some i => !(a.slots i).removePending

/-- The resident a lookup of `key` may use. -/
def findVisible : Option Nat :=
  match a.index.find key with
  | none => none
  | some i => if (a.slots i).removePending then none else some i

def get : SlabAllocator × Option SlotRef :=
  match a.findVisible key with
  | none => (a, none)
  | some i => (a.touchLocked i, some (a.slots i).ref)

/-- One more pin on slot `i`: `++refs` of a `uint32_t`, with no check of the bound. -/
def pinSlot : SlabAllocator :=
  let m := a.slots i
  let ext := a.extents m.ref.extent
  { a with
    table :=
      { a.table with slots := update a.table.slots i { m with refs := (m.refs + 1) % 2 ^ 32 } }
    extents := update a.extents m.ref.extent
      { ext with pinned := if m.refs = 0 then ext.pinned + 1 else ext.pinned }
    pinsWrapped := a.pinsWrapped || decide ((m.refs + 1) % 2 ^ 32 = 0) }

/-- One pin fewer on slot `i`, before a deferred remove takes effect. -/
def unpinSlot : SlabAllocator :=
  let m := a.slots i
  let ext := a.extents m.ref.extent
  { a with
    table := { a.table with slots := update a.table.slots i { m with refs := m.refs - 1 } }
    extents := update a.extents m.ref.extent
      { ext with pinned := if m.refs - 1 = 0 then ext.pinned - 1 else ext.pinned } }

/-- The release block both forms of `Unpin` share. -/
def unpinAt : SlabAllocator :=
  if (a.slots i).refs - 1 = 0 ∧ (a.slots i).removePending = true then
    (a.unpinSlot i).freeSlotLocked i
  else a.unpinSlot i

def getAndPin : SlabAllocator × Option SlotRef :=
  match a.findVisible key with
  | none => (a, none)
  | some i => ((a.touchLocked i).pinSlot i, some (a.slots i).ref)

/-- `Pin(key)`. -/
def pin : SlabAllocator × Bool :=
  match a.findVisible key with
  | none => (a, false)
  | some i => (a.pinSlot i, true)

/-- `Unpin(key)`. -/
def unpin : SlabAllocator × Bool :=
  match a.index.find key with
  | none => (a, false)
  | some i => if (a.slots i).refs = 0 then (a, false) else (a.unpinAt i, true)

/-- `Pin(key, handle)`. -/
def pinHandle (handle : Option Nat) : SlabAllocator × Bool :=
  match handle with
  | none => (a, false)
  | some i =>
    if a.table.size ≤ i ∨ (a.slots i).live = false ∨ (a.slots i).key ≠ key ∨
        (a.slots i).removePending = true then (a, false)
    else (a.pinSlot i, true)

/-- `Unpin(key, handle)`. -/
def unpinHandle (handle : Option Nat) : SlabAllocator × Bool :=
  match handle with
  | none => (a, false)
  | some i =>
    if a.table.size ≤ i ∨ (a.slots i).live = false ∨ (a.slots i).key ≠ key ∨
        (a.slots i).refs = 0 then (a, false)
    else (a.unpinAt i, true)

inductive RemoveResult where
  | removed
  | deferred
  | notFound
deriving DecidableEq

def remove : SlabAllocator × RemoveResult :=
  match a.index.find key with
  | none => (a, .notFound)
  | some i =>
    if 0 < (a.slots i).refs then
      (a.setSlot i { a.slots i with removePending := true, referenced := false }, .deferred)
    else (a.freeSlotLocked i, .removed)

/-! ## RestoreBulk -/

end SlabAllocator

structure RestoreEntry where
  key : BlockKey
  slotSize : Nat := 0
  extent : Nat := 0
  slot : Nat := 0
  valueBytes : Nat := 0
  retainUntil : Nat := 0
  retainTtlS : Nat := 0

/-- The order `RestoreBulk` sorts keys by. -/
def BlockKey.le (x y : BlockKey) : Prop :=
  x.tenantHash < y.tenantHash ∨ x.tenantHash = y.tenantHash ∧
    (x.digestHi < y.digestHi ∨ x.digestHi = y.digestHi ∧ x.digestLo ≤ y.digestLo)

instance : DecidableRel BlockKey.le := fun x y => by unfold BlockKey.le; infer_instance

/-- `std::adjacent_find(...) != end()`. -/
def adjacentDup : List BlockKey → Bool
  | x :: y :: rest => x == y || adjacentDup (y :: rest)
  | _ => false

namespace SlabAllocator

variable (a : SlabAllocator) (x : RestoreEntry)

def restoreEntryOk : Bool :=
  x.slotSize ≠ 0 && x.extent < a.opt.numExtents && x.slotSize ≤ a.opt.extentBytes &&
    x.valueBytes ≤ x.slotSize && a.opt.canonicalSlotSize x.slotSize = x.slotSize &&
    (a.classForExactSize x.slotSize).isSome && x.slot < a.opt.extentBytes / x.slotSize &&
    (a.index.find x.key).isNone

/-- In an extent that is already bound, the slot must be a free one of that size. -/
def restoreSlotOk : Bool :=
  match (a.extents x.extent).cls with
  | none => true
  | some c => (a.classes c).slotSize = x.slotSize && ((a.classes c).freeByExt
      x.extent).contains x.slot

/-- The validation loop, with the placements and extent sizes seen so far. -/
def restoreValid (a : SlabAllocator) :
    List RestoreEntry → List (Nat × Nat) → List (Nat × Nat) → Bool
  | [], _, _ => true
  | x :: xs, placements, sizes =>
    a.restoreEntryOk x && !placements.contains (x.extent, x.slot) &&
      ((sizes.lookup x.extent).getD x.slotSize = x.slotSize : Bool) && a.restoreSlotOk x &&
      restoreValid a xs ((x.extent, x.slot) :: placements)
        (if (sizes.lookup x.extent).isSome then sizes else (x.extent, x.slotSize) :: sizes)

/-- `PushWheelLocked`. -/
def pushWheel (r : Retention) (key : BlockKey) (deadline : Nat) : Retention :=
  if r.wheelSize = 0 then r
  else
    let bucket := deadline / kWheelTickS % r.wheelSize
    { r with
      wheel := update r.wheel bucket (r.wheel bucket ++ [⟨key, deadline⟩])
      wheelEntries := r.wheelEntries + 1 }

/-- `PushWheelLocked` on the allocator. -/
def pushWheelLocked (key : BlockKey) (deadline : Nat) : SlabAllocator :=
  { a with retention := pushWheel a.retention key deadline }

/-- The record `RestoreBulk` fills. -/
def restoreMeta (c : Nat) (x : RestoreEntry) : SlotMeta :=
  { key := x.key
    ref :=
      { cls := c
        extent := x.extent
        slot := x.slot
        slotSize := x.slotSize
        offset := x.slot * x.slotSize }
    usefulBytes := x.valueBytes
    live := true }

def restoreRetention (i : Nat) (x : RestoreEntry) : SlabAllocator :=
  let r := a.retention
  let ttl := min x.retainTtlS r.opt.maxTtlS
  if r.opt.enabled = true ∧ r.nowS < x.retainUntil ∧ x.retainTtlS ≠ 0 then
    let deadline := min x.retainUntil (r.nowS + ttl)
    (((a.setSlot i { a.slots i with
      retainTtlS := ttl
      retainUntil := deadline
      retainPersistedUntil := deadline }).protectLocked i).pushWheelLocked x.key deadline)
  else if r.opt.enabled then a.setSlot i { a.slots i with retainTtlS := ttl }
  else a

/-- `RestoreBulk` from a bound extent on. -/
def restoreBound (c : Nat) (x : RestoreEntry) : SlabAllocator × Bool :=
  match (a.classes c).takeFreeSlot x.extent x.slot with
  | none => (a, false)
  | some cls =>
    let b := { a with classes := update a.classes c cls }
    let i := acquireIndex b.table
    let d := b.acquire
    match d.index.find x.key with
    | some _ => ({ d.setSlot i (restoreMeta c x) with index := d.index.overwrite x.key i }, false)
    | none => ((d.installResident i (restoreMeta c x)).restoreRetention i x, true)

/-- The install loop body of `RestoreBulk`. -/
def restoreOne : SlabAllocator × Bool :=
  match a.classForExactSize x.slotSize with
  | none => (a, false)
  | some c =>
    if (a.extents x.extent).cls = none then
      let r := a.bindExtentLocked c x.extent true
      if r.2 = .bound then r.1.restoreBound c x else (r.1, false)
    else a.restoreBound c x

/-- The install loop of `RestoreBulk`. -/
def restoreLoop : List RestoreEntry → SlabAllocator → SlabAllocator × Bool
  | [], a => (a, true)
  | x :: xs, a => if (a.restoreOne x).2 then restoreLoop xs (a.restoreOne x).1 else a.restoreOne x

def restoreBulk (entries : List RestoreEntry) : SlabAllocator × Bool :=
  if a.restoreValid entries [] [] = true ∧
      adjacentDup ((entries.map (·.key)).insertionSort BlockKey.le) = false then
    restoreLoop entries a
  else (a, false)

/-! ## Retention -/

def configureRetention (options : RetainOptions) (nowS : Nat) : SlabAllocator :=
  let opt :=
    { options with
      enabled := options.enabled && options.maxTtlS ≠ 0
      classPct := min options.classPct 100 }
  { a with
    retention :=
      { a.retention with
        opt := opt
        nowS := nowS
        wheel := fun _ => []
        wheelSize := if opt.enabled then opt.maxTtlS / kWheelTickS + 2 else 0
        wheelEntries := 0
        wheelTick := nowS / kWheelTickS - 1 } }

/-- `ClassProtectCapLocked`. -/
def classProtectCap (cls : SizeClass) : Nat :=
  min (cls.boundExtents * cls.slotsPerExtent * a.retention.opt.classPct / 100) uint32Max

/-- `retain_now_s_` never steps back. -/
def advanceClock (nowS : Nat) : SlabAllocator :=
  { a with retention := { a.retention with nowS := max a.retention.nowS nowS } }

end SlabAllocator

structure RetainOutcome where
  code : RetainCode := .miss
  ref : SlotRef := {}
  deadline : Nat := 0
  ttlS : Nat := 0
  persist : Bool := false

namespace SlabAllocator

variable (a : SlabAllocator) (m : SlotMeta)

/-- The TTL a `Retain` call applies to the record `m`. -/
def effectiveTtl (ttlS : Nat) (mode : RetainMode) : Nat :=
  let stored := min m.retainTtlS a.retention.opt.maxTtlS
  match mode with
  | .refresh => stored
  | .set => max stored (min ttlS a.retention.opt.maxTtlS)

/-- A new protection does not fit the byte budget or the class cap. -/
def retainDenied : Bool :=
  a.retention.opt.budgetBytes < a.retention.protectedBytes + m.ref.slotSize ||
    a.classProtectCap (a.classes m.ref.cls) < (a.classes m.ref.cls).protectedSlots + 1

/-- The code `Retain` reports for a granted protection. -/
def retainCode (eff newUntil : Nat) : RetainCode :=
  if m.retainUntil = 0 then .protectedNew
  else if min m.retainTtlS a.retention.opt.maxTtlS < eff then .upgraded
  else if m.retainUntil < newUntil then .refreshed
  else .unchanged

/-- The granting half of `Retain`. -/
def retainGrant (i eff : Nat) : SlabAllocator × RetainOutcome :=
  let m := a.slots i
  let newUntil := max m.retainUntil (min (a.retention.nowS + eff) uint32Max)
  let code := a.retainCode m eff newUntil
  let b := if m.retainUntil = 0 then a.protectLocked i else a
  let moved := newUntil ≠ m.retainUntil ∨ m.retainUntil = 0
  let floor := max a.retention.opt.persistMinDeltaS (eff / 4)
  let persist :=
    code = .protectedNew ∨ code = .upgraded ∨ (m.retainPersistedUntil + floor) % 2 ^ 32 ≤ newUntil
  let d := b.setSlot i
    { m with
      retainTtlS := eff
      retainUntil := newUntil
      retainPersistedUntil := if persist then newUntil else m.retainPersistedUntil }
  (if moved then d.pushWheelLocked m.key newUntil else d,
    { code := code, ref := m.ref, deadline := newUntil, ttlS := eff, persist := persist })

/-- `Retain` of a visible resident with retention enabled. -/
def retainFound (i ttlS : Nat) (mode : RetainMode) : SlabAllocator × RetainOutcome :=
  let b := if mode = .refresh then a.touchLocked i else a
  let m := b.slots i
  let eff := b.effectiveTtl m ttlS mode
  if eff = 0 then (b, { code := .hitUnprotected, ref := m.ref })
  else if m.retainUntil = 0 ∧ b.retainDenied m = true then
    (b, { code := .denied, ref := m.ref, ttlS := m.retainTtlS })
  else b.retainGrant i eff

/-- `++retain_results_[code]`. -/
def noteRetain (code : RetainCode) : SlabAllocator :=
  { a with
    retention :=
      { a.retention with
        results := update a.retention.results code (a.retention.results code + 1) } }

/-- `Retain` up to the result counter. -/
def retainKey (key : BlockKey) (ttlS : Nat) (mode : RetainMode) : SlabAllocator × RetainOutcome :=
  match a.findVisible key with
  | none => (a, { code := .miss })
  | some i =>
    if a.retention.opt.enabled then a.retainFound i ttlS mode
    else (a, { code := .hitUnprotected })

def retain (key : BlockKey) (ttlS : Nat) (mode : RetainMode) (nowS : Nat) :
    SlabAllocator × RetainOutcome :=
  let r := (a.advanceClock nowS).retainKey key ttlS mode
  (r.1.noteRetain r.2.code, r.2)

/-- An expired wheel entry releases the resident it is still the deadline of. -/
def expireEntry (x : WheelEntry) : SlabAllocator × Nat :=
  let b := { a with retention := { a.retention with wheelEntries := a.retention.wheelEntries - 1 } }
  match a.index.find x.key with
  | none => (b, 0)
  | some i =>
    if (a.slots i).live = false ∨ (a.slots i).retainUntil ≠ x.until_ then (b, 0)
    else
      let d := b.unprotectLocked i
      ({ d.setSlot i { d.slots i with referenced := false } with
          retention := { d.retention with expired := d.retention.expired + 1 } }, 1)

/-- One bucket of the wheel: the state, the entries that stay, the number cleared. -/
def drainBucket : List WheelEntry → SlabAllocator → SlabAllocator × List WheelEntry × Nat
  | [], a => (a, [], 0)
  | x :: xs, a =>
    if a.retention.nowS < x.until_ then
      ((drainBucket xs a).1, x :: (drainBucket xs a).2.1, (drainBucket xs a).2.2)
    else
      ((drainBucket xs (a.expireEntry x).1).1, (drainBucket xs (a.expireEntry x).1).2.1,
        (a.expireEntry x).2 + (drainBucket xs (a.expireEntry x).1).2.2)

/-- The tick loop of `ExpireRetention`; first argument the ticks still to drain. -/
def expireLoop : Nat → SlabAllocator → SlabAllocator × Nat
  | 0, a => (a, 0)
  | n + 1, a =>
    let tick := a.retention.wheelTick + 1
    let bucket := tick % a.retention.wheelSize
    let d := drainBucket (a.retention.wheel bucket) a
    let b := { d.1 with
      retention :=
        { d.1.retention with
          wheelTick := tick
          wheel := update d.1.retention.wheel bucket d.2.1 } }
    ((expireLoop n b).1, d.2.2 + (expireLoop n b).2)

def expireRetention (nowS : Nat) : SlabAllocator × Nat :=
  let b := a.advanceClock nowS
  let target := b.retention.nowS / kWheelTickS - 1
  if b.retention.wheelSize = 0 ∨ target ≤ b.retention.wheelTick then (b, 0)
  else
    -- after a long stall one full lap visits every bucket
    let start := max b.retention.wheelTick (target - b.retention.wheelSize)
    expireLoop (target - start) { b with retention := { b.retention with wheelTick := start } }

end SlabAllocator

/-! ## Runs -/

/-- A public call. -/
inductive Op where
  | put (key : BlockKey) (len : Nat)
  | get (key : BlockKey)
  | getAndPin (key : BlockKey)
  | contains (key : BlockKey)
  | pin (key : BlockKey)
  | unpin (key : BlockKey)
  | pinHandle (key : BlockKey) (handle : Option Nat)
  | unpinHandle (key : BlockKey) (handle : Option Nat)
  | remove (key : BlockKey)
  | restoreBulk (entries : List RestoreEntry)
  | stealFrom (donor target : Nat)
  | reclaimClass (cls targetFree maxVictims : Nat)
  | evictColdToTarget (targetBytes maxVictims : Nat)
  | configureRetention (options : RetainOptions) (nowS : Nat)
  | retain (key : BlockKey) (ttlS : Nat) (mode : RetainMode) (nowS : Nat)
  | expireRetention (nowS : Nat)

/-- What a call returns: success, a placement if it yields one, and the keys it evicted. -/
structure OpResult where
  ok : Bool := true
  ref : SlotRef := {}
  evicted : List BlockKey := []

namespace SlabAllocator

def apply (a : SlabAllocator) : Op → SlabAllocator × OpResult
  | .put key len =>
    ((a.put key len).1,
      { ok := (a.put key len).2.ok, ref := (a.put key len).2.ref,
        evicted := (a.put key len).2.evicted })
  | .get key => ((a.get key).1, { ok := (a.get key).2.isSome, ref := (a.get key).2.getD {} })
  | .getAndPin key =>
    ((a.getAndPin key).1, { ok := (a.getAndPin key).2.isSome, ref := (a.getAndPin key).2.getD {} })
  | .contains key => (a, { ok := a.contains key })
  | .pin key => ((a.pin key).1, { ok := (a.pin key).2 })
  | .unpin key => ((a.unpin key).1, { ok := (a.unpin key).2 })
  | .pinHandle key h => ((a.pinHandle key h).1, { ok := (a.pinHandle key h).2 })
  | .unpinHandle key h => ((a.unpinHandle key h).1, { ok := (a.unpinHandle key h).2 })
  | .remove key => ((a.remove key).1, { ok := (a.remove key).2 ≠ .notFound })
  | .restoreBulk entries => ((a.restoreBulk entries).1, { ok := (a.restoreBulk entries).2 })
  | .stealFrom d t =>
    ((a.stealFrom d t).1, { ok := (a.stealFrom d t).2.1, evicted := (a.stealFrom d t).2.2 })
  | .reclaimClass c t m =>
    ((a.reclaimClass c t m).1, { evicted := (a.reclaimClass c t m).2.2 })
  | .evictColdToTarget t m =>
    ((a.evictColdToTarget t m).1, { evicted := (a.evictColdToTarget t m).2 })
  | .configureRetention o n => (a.configureRetention o n, {})
  | .retain key ttl mode now =>
    ((a.retain key ttl mode now).1, { ref := (a.retain key ttl mode now).2.ref })
  | .expireRetention now => ((a.expireRetention now).1, {})

/-- One public call whose callbacks answer `outcomes`, in order. -/
def step (a : SlabAllocator) (outcomes : List Bool) (op : Op) : SlabAllocator × OpResult :=
  ({ a with env := { a.env with outcomes := outcomes } } : SlabAllocator).apply op

/-- What a constructed allocator can become by public calls with arbitrary arguments and callback
outcomes. -/
inductive Reachable (o : Options) : SlabAllocator → Prop
  | new : Reachable o (new o)
  | step {a : SlabAllocator} (outcomes : List Bool) (op : Op) :
      Reachable o a → Reachable o (a.step outcomes op).1

end SlabAllocator

end DingoCache.Slab
