import DingoCache.Library.ByteReader

/-!
# The Wire Form of a Membership View

`src/common/membership.h`: the members of a group with their runtime stats and health
reports, `EncodeMembers` and `DecodeMembers`, and the two content epochs.

The decoder reads the member list strictly and the tagged blocks behind it on a
best-effort basis: an unknown tag or an unreadable block ends the scan, and what was
read before it stays in the members.
-/

namespace DingoCache.Mds

open Library

/-! ## Members -/

/-- A `std::string`. -/
abbrev ByteString := List UInt8

/-- `MemberStats`, in wire order. -/
structure MemberStats where
  capacityBytes : UInt64 := 0
  usedBytes : UInt64 := 0
  objects : UInt64 := 0
  hitsTotal : UInt64 := 0
  missesTotal : UInt64 := 0
  evictionsTotal : UInt64 := 0
  putsTotal : UInt64 := 0
  uptimeSeconds : UInt64 := 0
  putBusyTotal : UInt64 := 0
  dioWriteFallbacks : UInt64 := 0
  ramUsedBytes : UInt64 := 0
  ramHitsTotal : UInt64 := 0
deriving DecidableEq

def kMemberStatsFields : Nat := 12

namespace MemberStats

/-- The array `f` of the encoder. -/
def fields (s : MemberStats) : List UInt64 :=
  [s.capacityBytes, s.usedBytes, s.objects, s.hitsTotal, s.missesTotal, s.evictionsTotal,
    s.putsTotal, s.uptimeSeconds, s.putBusyTotal, s.dioWriteFallbacks, s.ramUsedBytes,
    s.ramHitsTotal]

/-- The assignments of the decoder; fields the peer did not send are zero. -/
def ofFields (f : List UInt64) : MemberStats :=
  { capacityBytes := f.getD 0 0, usedBytes := f.getD 1 0, objects := f.getD 2 0
    hitsTotal := f.getD 3 0, missesTotal := f.getD 4 0, evictionsTotal := f.getD 5 0
    putsTotal := f.getD 6 0, uptimeSeconds := f.getD 7 0, putBusyTotal := f.getD 8 0
    dioWriteFallbacks := f.getD 9 0, ramUsedBytes := f.getD 10 0, ramHitsTotal := f.getD 11 0 }

end MemberStats

structure IbDeviceHealth where
  name : ByteString
  portState : UInt8 := 0
  physState : UInt8 := 0
  queryOk : Bool := false
deriving DecidableEq

structure MemberHealth where
  ringEligible : Bool := true
  ibDevices : List IbDeviceHealth := []
deriving DecidableEq

structure MemberInfo where
  id : ByteString
  ip : ByteString
  port : UInt32 := 0
  weight : UInt32 := 1
  tcpPort : UInt32 := 0
  info : ByteString := []
  stats : MemberStats := {}
  hasStats : Bool := false
  health : MemberHealth := {}
  hasHealth : Bool := false
deriving DecidableEq

/-- `RingEligible`: a member without a report is eligible. -/
def MemberInfo.ringEligible (m : MemberInfo) : Bool := !m.hasHealth || m.health.ringEligible

/-! ## The encoder -/

def kMemberExtTcpPort : Nat := 0x54435031

def kMemberExtInfo : Nat := 0x4E464F31

def kMemberExtStats : Nat := 0x31415453

def kMemberExtHealth : Nat := 0x31544C48

def putString (s : ByteString) : ByteString := putLE 4 s.length ++ s

/-- `push_back(b ? 1 : 0)`. -/
def putFlag (b : Bool) : ByteString := [if b then 1 else 0]

variable (ms : List MemberInfo) (m : MemberInfo) (bs : ByteString)

def putMember : ByteString :=
  putString m.id ++ putString m.ip ++ putLE 4 m.port.toNat ++ putLE 4 m.weight.toNat

/-- One entry of the `STA1` block. -/
def putStats : ByteString :=
  putFlag m.hasStats ++
    if m.hasStats then m.stats.fields.flatMap fun f => putLE 8 f.toNat else []

def putDevice (d : IbDeviceHealth) : ByteString :=
  putString d.name ++ [d.portState, d.physState] ++ putFlag d.queryOk

/-- One entry of the `HLT1` block. -/
def putHealth : ByteString :=
  putFlag m.hasHealth ++
    if m.hasHealth then
      putFlag m.health.ringEligible ++ putLE 4 m.health.ibDevices.length ++
        m.health.ibDevices.flatMap putDevice
    else []

/-- The `HLT1` block, written only when some member has a report. -/
def putHealthBlock : ByteString :=
  if ms.any (·.hasHealth) then putLE 4 kMemberExtHealth ++ ms.flatMap putHealth else []

def encodeMembers (epoch : UInt64) : ByteString :=
  putLE 8 epoch.toNat ++ (putLE 4 ms.length ++ (ms.flatMap putMember ++
    (putLE 4 kMemberExtTcpPort ++ ((ms.flatMap fun m => putLE 4 m.tcpPort.toNat) ++
    (putLE 4 kMemberExtInfo ++ ((ms.flatMap fun m => putString m.info) ++
    (putLE 4 kMemberExtStats ++ (UInt8.ofNat kMemberStatsFields :: (ms.flatMap putStats ++
    putHealthBlock ms)))))))))

/-! ## The decoder -/

def readString : Option (ByteString × ByteString) := do
  let (len, bs) ← readLE 4 bs
  readBytes len bs

def readFlag : Option (Bool × ByteString) := do
  let (b, bs) ← readLE 1 bs
  some (b != 0, bs)

def readMember : Option (MemberInfo × ByteString) := do
  let (id, bs) ← readString bs
  let (ip, bs) ← readString bs
  let (port, bs) ← readLE 4 bs
  let (weight, bs) ← readLE 4 bs
  some ({ id, ip, port := .ofNat port, weight := .ofNat weight }, bs)

/-- One entry of the `TCP1` block. -/
def readTcpPort : Option (MemberInfo × ByteString) := do
  let (port, bs) ← readLE 4 bs
  some ({ m with tcpPort := .ofNat port }, bs)

/-- One entry of the `NFO1` block. -/
def readInfo : Option (MemberInfo × ByteString) := do
  let (info, bs) ← readString bs
  some ({ m with info }, bs)

/-- One entry of the `STA1` block, of a peer that sends `nf` fields. The fields behind the known
ones are skipped. -/
def readStats (nf : Nat) (m : MemberInfo) (bs : ByteString) : Option (MemberInfo × ByteString) := do
  let (has, bs) ← readFlag bs
  if has then
    let (raw, bs) ← readBytes (nf * 8) bs
    let f := (List.range (min nf kMemberStatsFields)).map fun k =>
      UInt64.ofNat (getLE ((raw.drop (k * 8)).take 8))
    some ({ m with stats := .ofFields f, hasStats := true }, bs)
  else
    some (m, bs)

/-- One device of a report; a name of more than 128 bytes is refused. -/
def readDevice : Option (IbDeviceHealth × ByteString) := do
  let (nameLen, bs) ← readLE 4 bs
  if nameLen > 128 then none
  else
    let (name, bs) ← readBytes nameLen bs
    let (portState, bs) ← readLE 1 bs
    let (physState, bs) ← readLE 1 bs
    let (queryOk, bs) ← readFlag bs
    some ({ name, portState := .ofNat portState, physState := .ofNat physState, queryOk }, bs)

/-- One entry of the `HLT1` block; a report of more than 64 devices is refused. -/
def readHealth : Option (MemberInfo × ByteString) := do
  let (has, bs) ← readFlag bs
  if has then
    let (ringEligible, bs) ← readFlag bs
    let (devices, bs) ← readLE 4 bs
    if devices > 64 then none
    else
      let (ibDevices, bs) ← readMany readDevice devices bs
      some ({ m with health := { ringEligible, ibDevices }, hasHealth := true }, bs)
  else
    some (m, bs)

/-- The body of one tagged block. `none` ends the scan: the block is unreadable or its tag unknown.
-/
def readBlock (tag : Nat) (ms : List MemberInfo) (bs : ByteString) :
    List MemberInfo × Option ByteString :=
  if tag = kMemberExtTcpPort then
    -- The length of the whole block is checked first.
    if bs.length < ms.length * 4 then (ms, none) else readEach readTcpPort ms bs
  else if tag = kMemberExtInfo then readEach readInfo ms bs
  else if tag = kMemberExtStats then
    match readLE 1 bs with
    | none => (ms, none)
    | some (nf, bs) => readEach (readStats nf) ms bs
  else if tag = kMemberExtHealth then readEach readHealth ms bs
  else (ms, none)

section Consumption

theorem readString_consumes : Consumes readString :=
  (consumes_readLE 4).bind consumes_readBytes

theorem readFlag_consumes : Consumes readFlag :=
  (consumes_readLE 1).bind fun b => consumes_some (b != 0)

theorem readDevice_consumes : Consumes readDevice := by
  refine (consumes_readLE 4).bind fun nameLen => consumes_none.ite ?_
  refine (consumes_readBytes nameLen).bind fun name => ?_
  refine (consumes_readLE 1).bind fun portState => ?_
  refine (consumes_readLE 1).bind fun physState => ?_
  exact readFlag_consumes.bind fun queryOk => consumes_some _

theorem readTcpPort_consumes (m : MemberInfo) : Consumes (readTcpPort m) :=
  (consumes_readLE 4).bind fun _ => consumes_some _

theorem readInfo_consumes (m : MemberInfo) : Consumes (readInfo m) :=
  readString_consumes.bind fun _ => consumes_some _

theorem readStats_consumes (nf : Nat) (m : MemberInfo) : Consumes (readStats nf m) := by
  refine readFlag_consumes.bind fun has => Consumes.ite ?_ (consumes_some m)
  exact (consumes_readBytes (nf * 8)).bind fun raw => consumes_some _

theorem readHealth_consumes (m : MemberInfo) : Consumes (readHealth m) := by
  refine readFlag_consumes.bind fun has => Consumes.ite ?_ (consumes_some m)
  refine readFlag_consumes.bind fun ringEligible => ?_
  refine (consumes_readLE 4).bind fun devices => consumes_none.ite ?_
  exact (readDevice_consumes.readMany devices).bind fun ibDevices => consumes_some _

theorem readBlock_consumes {tag : Nat} {ms : List MemberInfo} {bs rest : ByteString}
    (h : (readBlock tag ms bs).2 = some rest) : rest.length ≤ bs.length := by
  unfold readBlock at h
  split at h
  · split at h
    · cases h
    · exact readEach_consumes readTcpPort_consumes h
  split at h
  · exact readEach_consumes readInfo_consumes h
  split at h
  · split at h
    · cases h
    · next nf bs' hnf =>
      have := readEach_consumes (readStats_consumes nf) h
      have := (of_readLE hnf).2
      omega
  split at h
  · exact readEach_consumes readHealth_consumes h
  · cases h

end Consumption

def readBlocks (ms : List MemberInfo) (bs : ByteString) : List MemberInfo :=
  match _ht : readLE 4 bs with
  | none => ms
  | some (tag, body) =>
    match _hb : (readBlock tag ms body).2 with
    | none => (readBlock tag ms body).1
    | some rest => readBlocks (readBlock tag ms body).1 rest
termination_by bs.length
decreasing_by
  have h1 := (of_readLE _ht).2
  have h2 := readBlock_consumes _hb
  omega

/-- `DecodeMembers`: the members and the epoch. -/
def decodeMembers (bs : ByteString) : Option (List MemberInfo × UInt64) := do
  let (epoch, bs) ← readLE 8 bs
  let (count, bs) ← readLE 4 bs
  let (ms, bs) ← readMany readMember count bs
  some (readBlocks ms bs, .ofNat epoch)

/-! ## Content epochs -/

/-- The lambda `mix` of the epochs, FNV-1a. -/
def mix (h : UInt64) (bs : ByteString) : UInt64 :=
  bs.foldl (fun h b => (h ^^^ b.toUInt64) * 1099511628211) h

/-- `std::sort` by a strict order. -/
def sortBy {α : Type} (lt : α → α → Bool) (l : List α) : List α := l.mergeSort fun a b => !lt b a

def membersEpoch (ms : List MemberInfo) : UInt64 :=
  (sortBy (fun a b => decide (a.id < b.id)) ms).foldl
    (fun h m => mix h (putString m.id ++ putString m.ip ++ putLE 4 m.port.toNat ++
      putLE 4 m.weight.toNat ++ putFlag m.ringEligible)) 1469598103934665603

/-- The order of members in `MembersTopologyEpoch`. -/
def MemberInfo.before (a b : MemberInfo) : Bool :=
  if a.id ≠ b.id then a.id < b.id
  else if a.ip ≠ b.ip then a.ip < b.ip
  else if a.port ≠ b.port then a.port < b.port
  else a.weight < b.weight

/-- The order of devices in `MembersTopologyEpoch`. -/
def IbDeviceHealth.before (a b : IbDeviceHealth) : Bool :=
  if a.name ≠ b.name then a.name < b.name
  else if a.portState ≠ b.portState then a.portState < b.portState
  else if a.physState ≠ b.physState then a.physState < b.physState
  else a.queryOk < b.queryOk

/-- What one member adds to `MembersTopologyEpoch`. -/
def MemberInfo.topology (m : MemberInfo) : ByteString :=
  putString m.id ++ putString m.ip ++ putLE 4 m.port.toNat ++ putLE 4 m.weight.toNat ++
    putFlag m.ringEligible ++ putFlag m.hasHealth ++
    if m.hasHealth then
      putLE 4 m.health.ibDevices.length ++
        (sortBy IbDeviceHealth.before m.health.ibDevices).flatMap putDevice
    else []

def membersTopologyEpoch (ms : List MemberInfo) : UInt64 :=
  (sortBy MemberInfo.before ms).foldl (fun h m => mix h m.topology)
    (mix 1469598103934665603 (putLE 4 ms.length))

end DingoCache.Mds
