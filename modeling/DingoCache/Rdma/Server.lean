import DingoCache.Rdma.Protocol

/-!
# RdmaServer: One Connection

`RdmaServer::Serve` of `src/cache/rdma_server.cc` once the connection is set up: the
per-slot machines of the multi-window PUT, the leased PUT and the pull GET, the queue
of disk reads, and the in-order replies.  The connection is a state that takes labelled
steps; a label says which part of the serve loop runs next, with every answer that the
pool, the verbs layer and the handlers give on the way.

Addresses are numbers and 0 is the null pointer.  A control request carries the bytes of
its receive buffer, which nobody writes before the buffer is posted again.  The depth-K
ring of deferred receives is a list.  Fields and functions marked *history* are not in
the source: they number what the connection takes and log what it does.
-/

namespace DingoCache.Rdma

open Library Slab Store
open WireOp

/-! ## The connection -/

/-- What `Serve` fixed before the first request. -/
structure Conn where
  /-- `K`, the negotiated depth. -/
  depth : Nat
  /-- The block size that the client declared. -/
  declared : Nat
  maxMsg : Nat
  /-- `recv_lease.data()`, the resident receive slots. -/
  recvBase : Nat
  leasedPutRequested : Bool := true
  /-- Whether the loop of the disk pipeline serves the connection. -/
  uring : Bool := true
  uringDepth : Nat := 16
  rangeHandler : Bool := true
  pinnedRamHandler : Bool := true
  cacheDirectHandler : Bool := true
  depth_pos : 0 < depth
  uringDepth_pos : 0 < uringDepth := by decide
  declared_le : declared ≤ maxMsg
  maxMsg_le : maxMsg ≤ kPayloadHardCap

namespace Conn

variable (c : Conn)

/-- `conn_max`, also the `logical_data_cap`. -/
def connMax : Nat := max kIoAlign (min c.declared c.maxMsg)

def slotSize : Nat := v2SlotSize c.connMax

def slotBase (slot : Nat) : Nat := c.recvBase + slot * c.slotSize

def directBuffer (slot : Nat) : Nat := c.slotBase slot + kV2DataOffset

def directBufferCap : Nat := c.slotSize - kV2DataOffset

end Conn

/-- `ibv_wc::opcode`, as far as the server tells it apart. -/
inductive Opcode where
  | recv
  | recvRdmaWithImm
  | send
  | other
deriving DecidableEq

/-- `ibv_wc`, with what the receive buffer `wrId` holds. -/
structure Wc where
  success : Bool := true
  opcode : Opcode
  /-- `IBV_WC_WITH_IMM`. -/
  withImm : Bool := false
  /-- The immediate in host order. -/
  immData : Nat := 0
  byteLen : Nat := 0
  wrId : Nat := 0
  rbuf : List UInt8 := []

def Wc.received (wc : Wc) : Bool := wc.opcode == .recv || wc.opcode == .recvRdmaWithImm

/-! ## What a connection owns -/

/-- *History*: what a connection takes and has to give back. -/
inductive Resource where
  /-- A staging lease of the receive pool. -/
  | lease (number : Nat)
  /-- The storage pin of a prepared read: its finish callback and its read lease. -/
  | pin (number : Nat)
  /-- The post-read hold of a prepared read. -/
  | hold (number : Nat)
  /-- The registration of one operation. -/
  | mr (number : Nat)
deriving DecidableEq

/-- `RecvSegmentPool::Lease` that is not empty. -/
structure Lease where
  number : Nat
  data : Nat
  size : Nat
deriving DecidableEq

/-- `ibv_mr` of one operation. -/
structure Mr where
  number : Nat
  addr : Nat
  size : Nat
  rkey : Nat
deriving DecidableEq

structure PreparedRead where
  number : Nat := 0
  active : Bool := false
  postReadHold : Bool := false
  status : Status := .invalid
  needsIo : Bool := false
  sourceRegistered : Bool := false
  fd : Option Nat := none
  alignedLen : Nat := 0
  head : Nat := 0
  payloadLen : Nat := 0
  valueLen : Nat := 0
  staging : Nat := 0
  stagingCap : Nat := 0
  fallback : Nat := 0
  fallbackCap : Nat := 0
  data : Nat := 0
deriving DecidableEq

namespace PreparedRead

variable (r : PreparedRead)

/-- *History*: what the read holds. `Abort`, which the destructor and a move assignment also call,
gives back all of it. -/
def resources : List Resource :=
  (if r.active then [.pin r.number] else []) ++ if r.postReadHold then [.hold r.number] else []

/-- `Commit`, with what it gives back: the first call the pin, a later one the hold. -/
def commit : PreparedRead × List Resource :=
  if r.active then ({ r with active := false }, [.pin r.number])
  else ({ r with postReadHold := false }, if r.postReadHold then [.hold r.number] else [])

/-- Where `Stage` copies to. -/
def stageTarget : Nat := if r.fallback ≠ 0 then r.fallback else r.staging

/-- `Stage`, without the copy. -/
def stage : Option PreparedRead :=
  let targetCap := if r.fallback ≠ 0 then r.fallbackCap else r.stagingCap
  if !r.active ∨ !r.sourceRegistered ∨ r.stageTarget = 0 ∨ targetCap < r.payloadLen ∨
      (r.payloadLen ≠ 0 ∧ r.data = 0) then none
  else some { r with data := r.stageTarget, sourceRegistered := false }

end PreparedRead

/-- `MultiPutState`.  *History*: the number of the object and the windows it has had. -/
structure MultiPutState where
  active : Bool := false
  key : BlockKey := {}
  totalLen : Nat := 0
  received : Nat := 0
  nextWindow : Nat := 0
  windowCount : Nat := 0
  object : Nat := 0
  windows : List Nat := []
deriving DecidableEq

structure LeasePutState where
  active : Bool := false
  generation : Nat := 0
  key : BlockKey := {}
  payloadLen : Nat := 0
  lease : Option Lease := none
  mr : Option Mr := none
deriving DecidableEq

structure PullSlotState where
  busy : Bool := false
  generation : Nat := 1
  dataLen : Nat := 0
  valueLen : Nat := 0
  lease : Option Lease := none
  mr : Option Mr := none
  arenaRead : PreparedRead := {}
deriving DecidableEq

/-- *History*: the resource of a lease. -/
def leaseResource (l : Option Lease) : List Resource := l.toList.map (.lease ·.number)

/-- *History*: the resource of a registration. -/
def mrResource (m : Option Mr) : List Resource := m.toList.map (.mr ·.number)

/-- *History*: what a leased PUT holds. -/
def LeasePutState.resources (l : LeasePutState) : List Resource :=
  mrResource l.mr ++ leaseResource l.lease

/-- *History*: what a pull slot holds. -/
def PullSlotState.resources (p : PullSlotState) : List Resource :=
  mrResource p.mr ++ (p.arenaRead.resources ++ leaseResource p.lease)

/-! ## Requests and replies -/

/-- `Request::contiguous_payload`. -/
inductive Payload where
  | null
  /-- In a receive slot or a staging lease. -/
  | shared (addr : Nat)
  /-- In the receive buffer of a control request. -/
  | inline (bytes : List UInt8)
deriving DecidableEq

/-- *History*: a multi-window object and the windows it arrived in. -/
structure MultiPutObject where
  number : Nat
  windowCount : Nat
  windows : List Nat
deriving DecidableEq

structure Request where
  fields : ReqFields := {}
  recvSlot : Nat := 0
  dataSlot : Nat := 0
  contiguousPayload : Payload := .null
  multiPutWindow : Bool := false
  multiPutFinal : Bool := false
  fromLeasePut : Bool := false
  /-- *History*: the object that the final window completes. -/
  object : Option MultiPutObject := none
deriving DecidableEq

/-- The slot of a pull, if its control block is valid. -/
def Request.pullSlot (c : Conn) (request : Request) : Option Nat :=
  match request.contiguousPayload with
  | .inline bytes =>
    match decodePullPrepareControl bytes with
    | some control =>
      if c.depth ≤ control.slotIndex ∨ control.releaseGeneration ≠ 0 then none
      else some control.slotIndex
    | none => none
  | _ => none

/-- What follows the response prefix. -/
inductive Body where
  | empty
  | data (bytes : List UInt8)
  | pullReady (ready : DynamicPullReady)
  | leasePutReady (ready : LeasePutReady)
deriving DecidableEq

/-- A reply: the response prefix and its body. -/
structure Reply where
  status : Status
  valueLen : Nat := 0
  body : Body := .empty
deriving DecidableEq

/-- *History*: a call of `cache_direct_handler_`. -/
structure StoreCall where
  key : BlockKey
  data : Nat
  len : Nat
  cap : Nat
  slot : Nat
  fromLease : Bool
  /-- The bytes of the range when the handler is called. -/
  value : List UInt8
  /-- The request is a window of an object. -/
  window : Bool
  object : Option MultiPutObject
deriving DecidableEq

/-- *History*: a call of the generic `handler_`. -/
structure HandlerCall where
  fields : ReqFields
  payload : Payload
  slot : Nat
  fromLease : Bool
  /-- The bytes of the payload when the handler is called. -/
  value : List UInt8
  window : Bool
  object : Option MultiPutObject
deriving DecidableEq

inductive DiskState where
  | none
  | waiting
  | inflight
  | complete
  | syncFallback
deriving DecidableEq

structure Queued where
  sequence : Nat
  sendSlot : Nat
  recvSlot : Nat
  request : Request
  diskState : DiskState := .none
  token : Nat := 0
  read : PreparedRead := {}
  ready : Bool := false
  reply : Reply := ⟨.invalid, 0, .empty⟩
deriving DecidableEq

def Queued.onDisk (q : Queued) : Bool := q.diskState == .waiting || q.diskState == .inflight

/-- *History*: a reply given to the send queue. -/
structure Posted where
  index : Nat
  sendSlot : Nat
  request : Request
  reply : Reply
deriving DecidableEq

/-- Where the connection is in its life. -/
inductive Phase where
  | serving
  | stopping
  | closed
deriving DecidableEq

/-- *History*: what the slots have taken, given back and done. -/
structure Log where
  /-- The resources taken and given back, newest first. -/
  taken : List Resource := []
  released : List Resource := []
  leases : Nat := 0
  reads : Nat := 0
  mrs : Nat := 0
  objects : Nat := 0
  calls : List StoreCall := []
  handled : List HandlerCall := []
  /-- The slots and generations of the leases and grants announced, newest first. -/
  leasesReady : List (Nat × Nat) := []
  pullsReady : List (Nat × Nat) := []

/-- The machines of the slots, with what the connection adds to the gauges. -/
structure Slots where
  /-- The memory of the receive slots, the leases and the arena. -/
  mem : FlatFile UInt8
  multiPut : Nat → MultiPutState := fun _ => {}
  leasePut : Nat → LeasePutState := fun _ => {}
  pullSlots : Nat → PullSlotState := fun _ => {}
  leasePutActive : Int := 0
  leasePutBytesActive : Int := 0
  dynamicGetActive : Int := 0
  dynamicGetBytesActive : Int := 0
  log : Log := {}

/-- The connection's state. -/
structure State where
  slots : Slots
  /-- `free_send`, the back of the vector first. -/
  freeSend : List Nat
  pendingRecv : List Wc := []
  queue : List Queued := []
  nextSequence : Nat := 0
  nextEmitSequence : Nat := 0
  postedSends : Nat := 0
  nextToken : Nat := 1
  /-- The sends that the adapter has not completed. -/
  sending : List Nat := []
  phase : Phase := .serving
  /-- *History*: the requests accepted and the replies posted, in order. -/
  accepted : List Request := []
  posted : List Posted := []

/-- The connection when the first receive is posted. -/
def State.start (c : Conn) (mem : FlatFile UInt8) : State :=
  { slots := { mem }, freeSend := (List.range c.depth).reverse }

namespace Slots

variable (s : Slots)

/-- *History*: give resources back. -/
@[simps] def give (rs : List Resource) : Slots :=
  { s with log := { s.log with released := rs ++ s.log.released } }

@[simps] def setMem (mem : FlatFile UInt8) : Slots := { s with mem }

@[simps] def setPull (slot : Nat) (p : PullSlotState) : Slots :=
  { s with pullSlots := Function.update s.pullSlots slot p }

@[simps] def setLeasePut (slot : Nat) (l : LeasePutState) : Slots :=
  { s with leasePut := Function.update s.leasePut slot l }

@[simps] def setMultiPut (slot : Nat) (m : MultiPutState) : Slots :=
  { s with multiPut := Function.update s.multiPut slot m }

@[simps] def beginMultiPut (slot : Nat) (m : MultiPutState) : Slots :=
  { s with
    multiPut := Function.update s.multiPut slot m
    log := { s.log with objects := s.log.objects + 1 } }

/-- *History*: a lease is taken. -/
@[simps] def takeLease : Slots :=
  { s with log := { s.log with
      leases := s.log.leases + 1, taken := .lease s.log.leases :: s.log.taken } }

/-- *History*: a registration is made. -/
@[simps] def takeMr : Slots :=
  { s with log := { s.log with mrs := s.log.mrs + 1, taken := .mr s.log.mrs :: s.log.taken } }

/-- *History*: a prepared read is taken over. -/
@[simps] def takeRead (read : PreparedRead) : Slots :=
  { s with log := { s.log with
      reads := s.log.reads + 1, taken := read.resources ++ s.log.taken } }

/-- `AllocateReceiveWithPressure`; `data` is where the pool finds the bytes. -/
def allocate (bytes : Nat) (data : Option Nat) : Slots × Option Lease :=
  match data with
  | none => (s, none)
  | some data =>
    if bytes = 0 then (s, none) else (s.takeLease, some ⟨s.log.leases, data, bytes⟩)

/-- `RegisterLeaseReadRegion` and `RegisterLeaseWriteRegion`. -/
def register (addr size : Nat) (rkey : Option Nat) : Slots × Option Mr :=
  match rkey with
  | none => (s, none)
  | some rkey =>
    if addr = 0 ∨ size = 0 then (s, none) else (s.takeMr, some ⟨s.log.mrs, addr, size, rkey⟩)

theorem allocate_cases (bytes : Nat) (data : Option Nat) : s.allocate bytes data = (s, none) ∨
      ∃ d, 0 < bytes ∧ s.allocate bytes data = (s.takeLease, some ⟨s.log.leases, d, bytes⟩) := by
  unfold allocate
  split
  · exact .inl rfl
  · next d =>
    split
    · exact .inl rfl
    · exact .inr ⟨d, by omega, rfl⟩

theorem register_cases (addr size : Nat) (rkey : Option Nat) :
    s.register addr size rkey = (s, none) ∨
      ∃ k, addr ≠ 0 ∧ s.register addr size rkey = (s.takeMr, some ⟨s.log.mrs, addr, size, k⟩) := by
  unfold register
  split
  · exact .inl rfl
  · next k =>
    split
    · exact .inl rfl
    · next h => exact .inr ⟨k, fun hz => h (.inl hz), rfl⟩

def prepared (read : PreparedRead) : PreparedRead := { read with number := s.log.reads }

@[simps] def countPull (size : Nat) : Slots :=
  { s with
    dynamicGetActive := s.dynamicGetActive + 1
    dynamicGetBytesActive := s.dynamicGetBytesActive + size }

@[simps] def uncountPull (size : Nat) : Slots :=
  { s with
    dynamicGetActive := s.dynamicGetActive - 1
    dynamicGetBytesActive := s.dynamicGetBytesActive - size }

@[simps] def countLeasePut (size : Nat) : Slots :=
  { s with
    leasePutActive := s.leasePutActive + 1
    leasePutBytesActive := s.leasePutBytesActive + size }

@[simps] def uncountLeasePut (size : Nat) : Slots :=
  { s with
    leasePutActive := s.leasePutActive - 1
    leasePutBytesActive := s.leasePutBytesActive - size }

/-- *History*: a grant is announced. -/
@[simps] def announcePull (slot generation : Nat) : Slots :=
  { s with log := { s.log with pullsReady := (slot, generation) :: s.log.pullsReady } }

/-- *History*: a lease is announced. -/
@[simps] def announceLease (slot generation : Nat) : Slots :=
  { s with log := { s.log with leasesReady := (slot, generation) :: s.log.leasesReady } }

/-- *History*: `cache_direct_handler_` is called. -/
@[simps] def logCall (call : StoreCall) : Slots :=
  { s with log := { s.log with calls := call :: s.log.calls } }

/-- *History*: `handler_` is called. -/
@[simps] def logHandled (call : HandlerCall) : Slots :=
  { s with log := { s.log with handled := call :: s.log.handled } }

end Slots

def nextGeneration (generation : Nat) : Nat :=
  if (generation + 1) % 2 ^ 64 = 0 then 1 else (generation + 1) % 2 ^ 64

/-- What the pool, the verbs layer and the handlers answer to one request. -/
structure Outcome where
  /-- The address of the staging lease. -/
  alloc : Option Nat := none
  /-- The remote keys of the registrations, in order. -/
  rkey : Option Nat := none
  rkey' : Option Nat := none
  /-- `pinned_ram_handler_`; `none` is a miss. -/
  pinned : Option PreparedRead := none
  pinnedRkey : Option Nat := none
  /-- `prepare_read_handler_`. -/
  prepared : PreparedRead := {}
  /-- `range_handler_`: status, output, output length, value length. -/
  rangeStatus : Status := .ok
  output : Nat := 0
  outputLen : Nat := 0
  valueLen : Nat := 0
  /-- `cache_direct_handler_`. -/
  cacheStatus : Status := .ok
  /-- `handler_`: status, data, value length. -/
  handlerStatus : Status := .ok
  handlerData : List UInt8 := []
  handlerValueLen : Nat := 0

/-! ## `decode_request` -/

variable (c : Conn) (s : Slots) (wc : Wc) (state : MultiPutState)

/-- The region that a PUT into the slot writes to: base, size and payload cap. -/
def putRegion (dataSlot : Nat) : Nat × Nat × Nat :=
  let lstate := s.leasePut dataSlot
  if lstate.active then
    let size := (lstate.lease.map Lease.size).getD 0
    ((lstate.lease.map Lease.data).getD 0, size, size - kV2DataOffset)
  else (c.slotBase dataSlot, c.slotSize, c.connMax)

def MultiPutState.advance (bytes : Nat) : MultiPutState :=
  { state with
    received := state.received + bytes, nextWindow := state.nextWindow + 1
    windows := state.windows ++ [bytes] }

def MultiPutState.fields : ReqFields :=
  { op := cache.code, key := state.key, offset := kV2MultiWrPutMagic
    length := state.windowCount, payloadLen := state.totalLen }

/-- *History*: the object, with its windows. -/
def MultiPutState.arrived : MultiPutObject :=
  ⟨state.object, state.windowCount, state.windows⟩

def decodeNextWindow (dataSlot : Nat) (request : Request) : Slots × Option Request :=
  let state := s.multiPut dataSlot
  if wc.byteLen = 0 ∨ state.windowCount ≤ state.nextWindow ∨
      state.totalLen - state.received < wc.byteLen then (s, none)
  else
    let state' := state.advance wc.byteLen
    let final := state'.nextWindow == state'.windowCount
    let request := { request with
      fields := state.fields
      multiPutWindow := true
      multiPutFinal := final
      object := if final then some state'.arrived else none }
    if final ≠ (state'.received == state'.totalLen) then (s.setMultiPut dataSlot state', none)
    else (s.setMultiPut dataSlot (if final then {} else state'), some request)

/-- A frame with a prefix: a whole object or the first window of one. -/
def decodeFirstWindow (dataSlot : Nat) (request : Request)
    (frame regionSize cap : Nat) : Slots × Option Request :=
  let lstate := s.leasePut dataSlot
  if wc.byteLen < kReqPrefix then (s, none)
  else
    match decodeReq kNativeProtoRdmaV2 cap (s.mem.pread frame kReqPrefix) with
    | none => (s, none)
    | some fields =>
      if fields.op ≠ cache.code then (s, none)
      else if lstate.active ∧ (fields.payloadLen ≠ lstate.payloadLen ∨ fields.key ≠ lstate.key) then
        (s, none)
      else if fields.offset = kV2MultiWrPutMagic then
        if fields.length ≤ 1 ∨ 2 ^ 32 - 1 < fields.length ∨ fields.payloadLen = 0 then (s, none)
        else
          let windowBytes := wc.byteLen - kReqPrefix
          if windowBytes = 0 ∨ fields.payloadLen ≤ windowBytes then (s, none)
          else
            (s.beginMultiPut dataSlot
                { active := true, key := fields.key, totalLen := fields.payloadLen
                  received := windowBytes, nextWindow := 1, windowCount := fields.length
                  object := s.log.objects, windows := [windowBytes] },
              some { request with fields, multiPutWindow := true })
      else if v2PutCompletionIsValid (wc.opcode == .recvRdmaWithImm) wc.withImm wc.byteLen
          fields.payloadLen cap regionSize then
        (s, some { request with fields })
      else (s, none)

def decodeWrite : Slots × Option Request :=
  let dataSlot := wc.immData
  if c.depth ≤ dataSlot then (s, none)
  else
    let (base, regionSize, cap) := putRegion c s dataSlot
    let frame := base + kV2PutPrefixOffset
    let request : Request :=
      { recvSlot := wc.wrId, dataSlot, fromLeasePut := (s.leasePut dataSlot).active
        contiguousPayload := .shared (frame + kReqPrefix) }
    if (s.multiPut dataSlot).active then decodeNextWindow s wc dataSlot request
    else decodeFirstWindow s wc dataSlot request frame regionSize cap

def decodeControl : Option Request := do
  let recvSlot := wc.wrId
  if wc.byteLen < kReqPrefix then none
  else
    -- A leased PUT names the object, so the process-wide ceiling bounds it.
    let sendMaxPayload :=
      if (wc.rbuf[1]?).map UInt8.toNat = some leasePut.code then c.maxMsg else c.connMax
    let fields ← decodeReq kNativeProtoRdmaV2 sendMaxPayload wc.rbuf
    let request : Request := { fields, recvSlot, dataSlot := recvSlot }
    let payload := Payload.inline (wc.rbuf.drop kReqPrefix)
    if fields.op = range.code then none
    else if fields.op = pullRange.code then
      if fields.payloadLen ≠ kPullPrepareBytes ∨ wc.byteLen ≠ kReqPrefix +
        kPullPrepareBytes then none
      else some { request with contiguousPayload := payload }
    else if fields.op = leasePut.code then
      if !c.leasedPutRequested ∨ fields.payloadLen = 0 ∨ c.maxMsg < fields.payloadLen ∨
          (s.leasePut recvSlot).active ∨ (s.multiPut recvSlot).active then none
      else some request
    else if fields.op = pullRelease.code then
      if wc.byteLen = kReqPrefix then some request else none
    else if (s.multiPut recvSlot).active then none
    else if wc.byteLen < kReqPrefix + fields.payloadLen then none
    else some { request with contiguousPayload := if fields.payloadLen ≠ 0 then payload else .null }

def decodeRequest : Slots × Option Request :=
  let normalRecv := wc.opcode == .recv
  let writeImmRecv := wc.opcode == .recvRdmaWithImm
  if c.depth ≤ wc.wrId ∨ (!normalRecv ∧ !writeImmRecv) ∨ wc.withImm ≠ writeImmRecv then (s, none)
  else if writeImmRecv then decodeWrite c s wc
  else (s, decodeControl c s wc)

/-! ## Pull slots -/

namespace Slots

variable (s : Slots)

variable (slot : Nat) (read : PreparedRead)

/-- `state.lease = ...`: the move assignment gives an old lease back. -/
def assignPullLease (lease : Option Lease) : Slots :=
  let p := s.pullSlots slot
  (s.give (leaseResource p.lease)).setPull slot { p with lease }

/-- `PullSlotState::Reset`. -/
def resetPull : Slots :=
  let p := s.pullSlots slot
  let s := s.give (p.arenaRead.resources ++ leaseResource p.lease)
  let s := p.lease.elim s fun l => s.uncountPull l.size
  s.setPull slot
    { p with
      busy := false, dataLen := 0, valueLen := 0, lease := none, mr := none, arenaRead := {} }

/-- `release_pull`: revoke the registration, finish the read, free the slot. -/
def releasePull : Slots :=
  let p := s.pullSlots slot
  let (read, freed) := p.arenaRead.commit
  let s := (s.give (freed ++ mrResource p.mr)).setPull slot { p with mr := none, arenaRead := read }
  let s := s.resetPull slot
  s.setPull slot { s.pullSlots slot with generation := nextGeneration p.generation }

def grant (address dataLen valueLen : Nat) (mr : Mr) : Slots × Reply :=
  let p := s.pullSlots slot
  let s := (s.give p.arenaRead.resources).setPull slot
    { p with mr := some mr, arenaRead := read, busy := true, dataLen, valueLen }
  (s.announcePull slot p.generation,
    { status := .ok, valueLen
      body := .pullReady
        { slotIndex := slot, slotGeneration := p.generation, dataLen, valueLen, address
          rkey := mr.rkey } })

/-- `error_reply` of `publish_pull`. -/
def pullError (status : Status) (valueLen : Nat) : Slots × Reply :=
  ((s.give read.resources).resetPull slot, { status, valueLen })

/-- The end of `publish_pull`: the disk read is over when the grant is published, and its hold goes
with the grant. -/
def publishGrant (output outputLen valueLen : Nat) (mr : Mr) : Slots × Reply :=
  if read.needsIo then
    (s.give read.commit.2).grant slot read.commit.1 output outputLen valueLen mr
  else s.grant slot read output outputLen valueLen mr

def publishPull (fields : ReqFields) (output outputLen valueLen : Nat)
    (read : PreparedRead) (o : Outcome) : Slots × Reply :=
  if valueLen < fields.offset ∨ fields.length < outputLen ∨ valueLen - fields.offset < outputLen ∨
      (outputLen ≠ 0 ∧ output = 0) then s.pullError slot read .invalid valueLen
  else
    -- An empty result authorizes no payload; its registration is one byte of the lease.
    let output :=
      if outputLen = 0 then ((s.pullSlots slot).lease.map Lease.data).getD 0 else output
    match s.register output (max outputLen 1) o.rkey with
    | (s, some mr) => s.publishGrant slot read output outputLen valueLen mr
    | (s, none) =>
      if read.sourceRegistered then
        match read.stage with
        | none => s.pullError slot read .ioError valueLen
        | some staged =>
          let s := s.setMem (s.mem.pwrite staged.data (s.mem.pread read.data read.payloadLen))
          match s.register staged.data (max outputLen 1) o.rkey' with
          | (s, some mr) => s.publishGrant slot staged staged.data outputLen valueLen mr
          | (s, none) => s.pullError slot staged .ioError valueLen
      else s.pullError slot read .ioError valueLen

def tryPinnedPull (c : Conn) (slot : Nat) (fields : ReqFields) (o : Outcome) :
    Slots × Option Reply :=
  if !c.pinnedRamHandler ∨ fields.length = 0 then (s, none)
  else
    match o.pinned with
    | none => (s, none)
    | some read =>
      let pinned := s.prepared read
      let s := s.takeRead pinned
      if pinned.valueLen < fields.offset ∨ pinned.payloadLen = 0 ∨
          fields.length < pinned.payloadLen ∨
          pinned.valueLen - fields.offset < pinned.payloadLen then (s.give pinned.resources, none)
      else
        match s.register pinned.data pinned.payloadLen o.pinnedRkey with
        | (s, none) => (s.give pinned.resources, none)
        | (s, some mr) =>
          let (s, reply) :=
            s.grant slot pinned pinned.data pinned.payloadLen pinned.valueLen mr
          (s, some reply)

end Slots

/-! ## `build_reply` -/

def invalidReply : Reply := { status := .invalid }

/-- The reply to `kPullRelease`. -/
def buildPullRelease (c : Conn) (s : Slots) (fields : ReqFields) : Slots × Reply :=
  if fields.payloadLen = 0 ∨ c.depth < fields.payloadLen then (s, invalidReply)
  else
    let slot := fields.payloadLen - 1
    let p := s.pullSlots slot
    if !p.busy ∨ p.mr = none ∨ p.generation ≠ fields.length then (s, invalidReply)
    else (s.releasePull slot, { status := .ok })

/-- The staged half of `kPullRange`, with its lease. -/
def stageInto (s : Slots) (slot : Nat) (fields : ReqFields) (o : Outcome) (l : Lease) :
    Slots × Reply :=
  if o.rangeStatus ≠ .ok then
    (s.resetPull slot,
      { status := o.rangeStatus, valueLen := if fields.length = 0 then 0 else o.valueLen })
  else if fields.length = 0 ∧ fields.offset < o.valueLen then (s.resetPull slot, invalidReply)
  else if l.size < o.outputLen ∨ fields.length < o.outputLen ∨
      o.valueLen < o.outputLen ∨ (o.outputLen ≠ 0 ∧ o.output = 0) then
    (s.resetPull slot, invalidReply)
  else
    (s.setMem (s.mem.pwrite l.data (s.mem.pread o.output o.outputLen))).publishPull slot fields
      l.data o.outputLen o.valueLen {} o

/-- The staged half of `kPullRange`. -/
def stagePull (c : Conn) (s : Slots) (slot : Nat) (fields : ReqFields) (o : Outcome) :
    Slots × Reply :=
  let targetCapacity := v2SlotSize (if fields.length = 0 then c.connMax else fields.length)
  if targetCapacity = 0 then (s, invalidReply)
  else
    match s.allocate targetCapacity o.alloc with
    | (s, none) => (s.assignPullLease slot none, { status := .cacheFull })
    | (s, some l) =>
      stageInto ((s.assignPullLease slot (some l)).countPull l.size) slot fields o l

/-- The reply to `kPullRange`. -/
def buildPullRange (c : Conn) (s : Slots) (request : Request) (o : Outcome) : Slots × Reply :=
  let fields := request.fields
  if !c.rangeHandler ∨ fields.payloadLen ≠ kPullPrepareBytes ∨ c.maxMsg < fields.length then
    (s, invalidReply)
  else
    match request.pullSlot c with
    | none => (s, invalidReply)
    | some slot =>
      if (s.pullSlots slot).busy then (s, { status := .cacheFull })
      else
        match s.tryPinnedPull c slot fields o with
        | (s, some reply) => (s, reply)
        | (s, none) => stagePull c s slot fields o

namespace Slots

variable (s : Slots)

/-- `LeasePutState::Reset`. -/
def resetLeasePut (slot : Nat) : Slots :=
  let l := s.leasePut slot
  let s := s.give (leaseResource l.lease)
  let s := if l.active then s.uncountLeasePut ((l.lease.map Lease.size).getD 0) else s
  s.setLeasePut slot
    { l with active := false, key := {}, payloadLen := 0, lease := none, mr := none }

/-- `release_lease_put`: revoke the registration, then `Reset`. -/
def releaseLeasePut (slot : Nat) : Slots :=
  let l := s.leasePut slot
  ((s.give (mrResource l.mr)).setLeasePut slot { l with mr := none }).resetLeasePut slot

end Slots

variable (c : Conn) (s : Slots) (request : Request) (o : Outcome)

/-- The reply to `kLeasePut`; `none` drops the connection. -/
def buildLeasePut : Slots × Option Reply :=
  let slot := request.recvSlot
  let want := request.fields.payloadLen
  if v2SlotSize want = 0 then (s, none)
  else
    let state := s.leasePut slot
    match s.allocate (v2SlotSize want) o.alloc with
    | (s, none) =>
      ((s.give (leaseResource state.lease)).setLeasePut slot { state with lease := none },
        some { status := .cacheFull })
    | (s, some l) =>
      let s := (s.give (leaseResource state.lease)).countLeasePut l.size
      let state := { state with
        lease := some l, active := true, key := request.fields.key, payloadLen := want }
      match s.register l.data l.size o.rkey with
      | (s, none) =>
        ((s.setLeasePut slot { state with mr := none }).releaseLeasePut slot,
          some { status := .ioError })
      | (s, some mr) =>
        let generation := nextGeneration state.generation
        ((s.setLeasePut slot { state with mr := some mr, generation }).announceLease
          slot generation,
          some
            { status := .ok
              body := .leasePutReady
                { slot, generation, rkey := mr.rkey, writeBase := l.data, leaseBytes := l.size } })

/-- The memory when `cache_direct_handler_` gets the range at `data`. -/
def directMem (data : Nat) : FlatFile UInt8 :=
  match request.contiguousPayload with
  | .null => s.mem
  | .shared addr =>
    if addr = data then s.mem else s.mem.pwrite data (s.mem.pread addr request.fields.payloadLen)
  | .inline bytes => s.mem.pwrite data (bytes.take request.fields.payloadLen)

/-- The call of `cache_direct_handler_` on the range at `data`. -/
def directCall (data cap : Nat) : StoreCall :=
  { key := request.fields.key, data, len := request.fields.payloadLen, cap
    slot := request.dataSlot, fromLease := request.fromLeasePut
    value := (directMem s request data).pread data request.fields.payloadLen
    window := request.multiPutWindow, object := request.object }

def storeDirect (data cap : Nat) : Slots :=
  (s.setMem (directMem s request data)).logCall (directCall s request data cap)

/-- The reply to `kCache` with a direct handler. -/
def buildCacheDirect : Slots × Option Reply :=
  let len := request.fields.payloadLen
  if request.fromLeasePut then
    let lstate := s.leasePut request.dataSlot
    match lstate.lease with
    | none => (s, none)
    | some l =>
      if !lstate.active ∨ len = 0 ∨ lstate.payloadLen < len ∨ l.size - kV2DataOffset < len then
        (s, none)
      else
        let s := storeDirect s request (l.data + kV2DataOffset) (l.size - kV2DataOffset)
        (s.releaseLeasePut request.dataSlot, some { status := o.cacheStatus })
  else if len = 0 ∨ c.connMax < len then (s, some invalidReply)
  else
    (storeDirect s request (c.directBuffer request.dataSlot) c.directBufferCap,
      some { status := o.cacheStatus })

def genericPayload : Payload :=
  if request.fields.payloadLen ≠ 0 then request.contiguousPayload else .null

def Payload.value (payload : Payload) (mem : FlatFile UInt8) (len : Nat) : List UInt8 :=
  match payload with
  | .null => []
  | .shared addr => mem.pread addr len
  | .inline bytes => bytes.take len

/-- The call of `handler_`. -/
def genericCall : HandlerCall :=
  { fields := request.fields, payload := genericPayload request, slot := request.dataSlot
    fromLease := request.fromLeasePut
    value := (genericPayload request).value s.mem request.fields.payloadLen
    window := request.multiPutWindow, object := request.object }

/-- The reply of the generic handler; `none` drops the connection. -/
def buildGeneric : Slots × Option Reply :=
  if request.fields.payloadLen ≠ 0 ∧ request.contiguousPayload = .null then (s, some invalidReply)
  else
    let s := s.logHandled (genericCall s request)
    let s :=
      if request.fields.op = cache.code ∧ request.fromLeasePut then
        s.releaseLeasePut request.dataSlot
      else s
    if kV2ControlCap < kRespPrefix ∨ kV2ControlCap - kRespPrefix < o.handlerData.length ∨
        kV2ControlResponseMax < o.handlerData.length then (s, none)
    else
      (s, some
        { status := o.handlerStatus, valueLen := o.handlerValueLen, body := .data o.handlerData })

def buildReply : Slots × Option Reply :=
  let fields := request.fields
  if fields.op = pullRelease.code then
    let (s, reply) := buildPullRelease c s fields
    (s, some reply)
  else if fields.op = pullRange.code then
    let (s, reply) := buildPullRange c s request o
    (s, some reply)
  else if fields.op = leasePut.code then buildLeasePut s request o
  else if fields.op = cache.code ∧ request.multiPutWindow ∧ !request.multiPutFinal then
    (s, some { status := .ok })
  else if fields.op = cache.code ∧ c.cacheDirectHandler then buildCacheDirect c s request o
  else buildGeneric s request o

/-! ## The serve loops -/

/-- What became of a pull before `build_reply`. -/
inductive Prepared where
  /-- A disk read is needed. -/
  | queued (read : PreparedRead)
  | replied (reply : Reply)
  | unhandled

/-- The pull branch of `process_wc`, with its lease. -/
def prepareInto (slot : Nat) (fields : ReqFields) (o : Outcome) (l : Lease) : Slots × Prepared :=
  let read := s.prepared o.prepared
  let s := s.takeRead read
  if read.status = .ok ∧ read.needsIo ∧ read.fd ≠ none ∧ read.alignedLen ≤ l.size ∧
      read.alignedLen ≤ 2 ^ 32 - 1 then
    -- The slot is reserved while the kernel owns the staging bytes.
    (s.setPull slot { s.pullSlots slot with busy := true }, .queued read)
  else if read.status = .ok ∧ !read.needsIo then
    let (s, reply) := s.publishPull slot fields read.data read.payloadLen read.valueLen read o
    (s, .replied reply)
  else if read.status ≠ .ok ∧ read.status ≠ .invalid then
    ((s.give read.resources).resetPull slot,
      .replied { status := read.status, valueLen := read.valueLen })
  else ((s.give read.resources).resetPull slot, .unhandled)

/-- The pull branch of `process_wc`. -/
def preparePull : Slots × Prepared :=
  let fields := request.fields
  if fields.op = pullRange.code ∧ fields.length ≠ 0 ∧ fields.length ≤ c.maxMsg then
    match request.pullSlot c with
    | none => (s, .unhandled)
    | some slot =>
      if (s.pullSlots slot).busy then (s, .unhandled)
      else
        match s.tryPinnedPull c slot fields o with
        | (s, some reply) => (s, .replied reply)
        | (s, none) =>
          match s.allocate (v2SlotSize fields.length) o.alloc with
          | (s, none) => (s.assignPullLease slot none, .unhandled)
          | (s, some l) =>
            prepareInto ((s.assignPullLease slot (some l)).countPull l.size) slot fields o l
  else (s, .unhandled)

/-- `finish_disk_read`, for the entry whose read returned `result`. -/
def finishDiskRead (qd : Queued) (result : Int) (o : Outcome) : Slots × Option Reply :=
  match qd.request.pullSlot c with
  | none => (s, none)
  | some slot =>
    if 0 ≤ result ∧ qd.read.head + qd.read.payloadLen ≤ result.toNat then
      let (s, reply) := s.publishPull slot qd.request.fields qd.read.data qd.read.payloadLen
        qd.read.valueLen qd.read o
      (s, some reply)
    else ((s.give qd.read.resources).resetPull slot, some { status := .ioError })

namespace State

variable (s : State)

@[simps] def setSlots (slots : Slots) : State := { s with slots }

@[simps] def setQueue (queue : List Queued) : State := { s with queue }

@[simps] def halt : State := { s with phase := .stopping }

@[simps] def accept (request : Request) (freeSend : List Nat) : State :=
  { s with
    nextSequence := s.nextSequence + 1, freeSend, accepted := s.accepted ++ [request] }

@[simps] def acceptSync (request : Request) (freeSend : List Nat) : State :=
  { s with freeSend, accepted := s.accepted ++ [request] }

@[simps] def reclaim (c : Conn) (sendSlot : Nat) : State :=
  { s with
    postedSends := if c.uring then s.postedSends - 1 else s.postedSends
    freeSend := sendSlot :: s.freeSend
    sending := s.sending.erase sendSlot }

@[simps] def post (index sendSlot : Nat) (request : Request) (reply : Reply) : State :=
  { s with
    sending := sendSlot :: s.sending
    posted := s.posted ++ [{ index, sendSlot, request, reply }] }

@[simps] def emit (rest : List Queued) : State :=
  { s with
    queue := rest, postedSends := s.postedSends + 1, nextEmitSequence := s.nextEmitSequence + 1 }

@[simps] def tick : State := { s with nextToken := s.nextToken + 1 }

@[simps] def setPending (pendingRecv : List Wc) : State := { s with pendingRecv }

end State

variable (c : Conn) (s : State) (wc : Wc) (o o' : Outcome)

/-- A completed SEND frees its reply buffer; `false` drops the connection. -/
def processSend : State × Bool :=
  if c.depth ≤ wc.wrId then (s, false)
  else if c.uring ∧ s.postedSends = 0 then (s, false)
  else (s.reclaim c wc.wrId, true)

/-- The end of `process_wc` of the disk pipeline, for a request that its pull branch leaves. -/
def processUnhandled (qd : Queued) (o : Outcome) : State × Bool :=
  -- A follower must not wait here for a read that only this loop can finish.
  if qd.request.fields.op = pullRange.code ∧ s.queue.any Queued.onDisk then
    (s.setQueue (s.queue ++ [{ qd with diskState := .syncFallback }]), true)
  else
    match buildReply c s.slots qd.request o with
    | (slots, none) => (s.setSlots slots, false)
    | (slots, some reply) =>
      ((s.setSlots slots).setQueue (s.queue ++ [{ qd with ready := true, reply }]), true)

/-- The second half of `process_wc` of the disk pipeline, for an accepted request. -/
def processRequest (qd : Queued) (o o' : Outcome) : State × Bool :=
  match preparePull c s.slots qd.request o with
  | (slots, .queued read) =>
    ((s.setSlots slots).setQueue (s.queue ++ [{ qd with diskState := .waiting, read }]), true)
  | (slots, .replied reply) =>
    ((s.setSlots slots).setQueue (s.queue ++ [{ qd with ready := true, reply }]), true)
  | (slots, .unhandled) => processUnhandled c (s.setSlots slots) qd o'

/-- `process_wc` of the disk pipeline, for a receive. -/
def processRecv : State × Bool :=
  match decodeRequest c s.slots wc with
  | (slots, none) => (s.setSlots slots, false)
  | (slots, some request) =>
    match s.freeSend with
    | [] => (s.setSlots slots, false)
    | sendSlot :: freeSend =>
      if s.nextSequence = 2 ^ 64 - 1 then (s.setSlots slots, false)
      else
        processRequest c ((s.setSlots slots).accept request freeSend)
          { sequence := s.nextSequence, sendSlot, recvSlot := request.recvSlot, request } o o'

/-- `process_sync_wc`, for a receive. -/
def processSyncRecv (o : Outcome) : State × Bool :=
  match decodeRequest c s.slots wc with
  | (slots, none) => (s.setSlots slots, false)
  | (slots, some request) =>
    match s.freeSend with
    | [] => (s.setSlots slots, false)
    | sendSlot :: freeSend =>
      match buildReply c slots request o with
      | (slots, none) => ((s.setSlots slots).acceptSync request freeSend, false)
      | (slots, some reply) =>
        (((s.setSlots slots).acceptSync request freeSend).post s.accepted.length sendSlot request
          reply, true)

/-- `process_wc` of the loop that serves the connection. -/
def processWc : State × Bool :=
  if !wc.success then (s, false)
  else if wc.opcode = .send then processSend c s wc
  else if c.uring then processRecv c s wc o o'
  else processSyncRecv c s wc o'

/-- `dispatch_completions`, for one completion. -/
def dispatch : State × Bool :=
  if wc.success ∧ wc.received ∧ (s.pendingRecv ≠ [] ∨ s.freeSend = []) then
    if s.pendingRecv.length = c.depth then (s, false)
    else (s.setPending (s.pendingRecv ++ [wc]), true)
  else processWc c s wc o o'

/-- What the connection does next. -/
inductive Label where
  /-- The memory changes: the peer writes, or a handler does. -/
  | memory (mem : FlatFile UInt8)
  /-- A completion is polled. -/
  | completion (wc : Wc) (o o' : Outcome)
  /-- The first deferred receive is taken up. -/
  | pending (o o' : Outcome)
  /-- `submit_waiting` submits a read. -/
  | submit
  /-- `reap_event` finishes the read with the token. -/
  | reap (token : Nat) (result : Int) (o : Outcome)
  /-- `finish_sync_waiting` answers a deferred request. -/
  | finishSync (o : Outcome)
  /-- `emit_ready` posts a reply. -/
  | emit
  /-- The loop ends, for whatever reason. -/
  | stop
  /-- `Drain` waits for the reads in flight. -/
  | drain
  /-- The connection is destroyed. -/
  | close

def settle : State × Bool → State
  | (s, true) => s
  | (s, false) => s.halt

/-- The first entry that meets `p`, with what is in front of it and behind it. -/
def splitFirst (p : Queued → Bool) : List Queued → Option (List Queued × Queued × List Queued)
  | [] => none
  | q :: qs =>
    if p q then some ([], q, qs)
    else (splitFirst p qs).map fun (pre, e, post) => (q :: pre, e, post)

def State.inflight (s : State) : Nat := s.queue.countP (·.diskState == .inflight)

/-- The endpoint goes, and with it the registrations of the slot. -/
def Slots.deregister (s : Slots) (slot : Nat) : Slots :=
  let p := s.pullSlots slot
  let l := s.leasePut slot
  ((s.give (mrResource p.mr ++ mrResource l.mr)).setPull slot
    { p with mr := none }).setLeasePut slot
    { l with mr := none }

/-- The destruction of the connection: the queue, then the endpoint with its registrations, then the
slots. -/
def State.close : State :=
  let slots := s.slots.give (s.queue.flatMap (·.read.resources))
  let slots := (List.range c.depth).foldl Slots.deregister slots
  let slots := (List.range c.depth).foldl Slots.resetLeasePut slots
  let slots := (List.range c.depth).foldl Slots.resetPull slots
  { s with slots, queue := [], phase := .closed }

/-- One step of the connection; `none` if it does not apply. -/
def step : Label → Option State
  | .memory mem => if s.phase ≠ .closed then some (s.setSlots (s.slots.setMem mem)) else none
  | .completion wc o o' =>
    -- The adapter completes a SEND once.
    if s.phase = .serving ∧ (wc.opcode = .send → wc.success → wc.wrId ∈ s.sending) then
      some (settle (dispatch c s wc o o'))
    else none
  | .pending o o' =>
    match s.pendingRecv with
    | [] => none
    | wc :: rest =>
      if s.phase = .serving ∧ s.freeSend ≠ [] then
        some (settle (processWc c (s.setPending rest) wc o o'))
      else none
  | .submit =>
    if s.phase = .serving ∧ s.inflight < c.uringDepth then
      (splitFirst (·.diskState == .waiting) s.queue).map fun (pre, q, post) =>
        (s.setQueue (pre ++ { q with diskState := .inflight, token := s.nextToken } :: post)).tick
    else none
  | .reap token result o =>
    if s.phase = .serving then
      (splitFirst (fun q => q.diskState == .inflight && q.token == token) s.queue).map
        fun (pre, q, post) =>
          match finishDiskRead c s.slots q result o with
          | (slots, none) => (s.setSlots slots).halt
          | (slots, some reply) =>
            (s.setSlots slots).setQueue
              (pre ++ { q with diskState := .complete, read := {}, ready := true, reply } :: post)
    else none
  | .finishSync o =>
    if s.phase = .serving ∧ !s.queue.any Queued.onDisk then
      (splitFirst (·.diskState == .syncFallback) s.queue).map fun (pre, q, post) =>
        match buildReply c s.slots q.request o with
        | (slots, none) => (s.setSlots slots).halt
        | (slots, some reply) =>
          (s.setSlots slots).setQueue
            (pre ++ { q with diskState := .complete, ready := true, reply } :: post)
    else none
  | .emit =>
    match s.queue with
    | [] => none
    | q :: rest =>
      if s.phase = .serving ∧ q.ready ∧ s.postedSends < c.depth then
        if q.sequence ≠ s.nextEmitSequence ∨ s.nextEmitSequence = 2 ^ 64 - 1 then some s.halt
        else some ((s.emit rest).post q.sequence q.sendSlot q.request q.reply)
      else none
  | .stop => if s.phase = .serving then some s.halt else none
  | .drain =>
    if s.phase = .stopping then
      some (s.setQueue (s.queue.map fun q =>
        if q.diskState = .inflight then { q with diskState := .none } else q))
    else none
  | .close => if s.phase = .stopping ∧ s.inflight = 0 then some (s.close c) else none

end DingoCache.Rdma
