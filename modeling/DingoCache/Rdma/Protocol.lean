import DingoCache.Library.ByteReader
import DingoCache.Store.Model

/-!
# The RDMA v2 Frames

Constants and codecs of `src/transport/wire.h` and `src/transport/rdma_protocol.h`
that the RDMA data path uses: the request prefix, the geometry of a receive slot, and
the control blocks of the pull GET and of the leased PUT.
-/

namespace DingoCache.Rdma

open Library Slab Store

/-! ## Constants -/

/-- `kReqPrefix`: version, op, tenant hash, two digests, offset, length, payload length. -/
def kReqPrefix : Nat := 1 + 1 + 8 + 8 + 8 + 8 + 8 + 8

/-- `kRespPrefix`: version, status, data length, stored value length. -/
def kRespPrefix : Nat := 1 + 1 + 8 + 8

def kV2ControlResponseMax : Nat := 32 * 1024

def kV2ControlCap : Nat := kRespPrefix + kV2ControlResponseMax

def kV2DataOffset : Nat := 4096

/-- `kV2PutPrefixOffset`: the prefix ends where the data begins. -/
def kV2PutPrefixOffset : Nat := kV2DataOffset - kReqPrefix

def kV2MultiWrPutMagic : Nat := 0x325257495455504d

def kNativeProtoRdmaV2 : Nat := 8

def kIoAlign : Nat := 4096

def kPayloadHardCap : Nat := 2 ^ 32 - 1 - 2 * kIoAlign

theorem kV2PutPrefixOffset_add : kV2PutPrefixOffset + kReqPrefix = kV2DataOffset := rfl

/-- The codes of `WireOp` that the RDMA server tells apart; every other code goes to the generic
handler. -/
inductive WireOp where
  | cache
  | range
  | pullRange
  | pullRelease
  | leasePut
deriving DecidableEq

def WireOp.code : WireOp → Nat
  | .cache => 1
  | .range => 2
  | .pullRange => 16
  | .pullRelease => 17
  | .leasePut => 18

/-! ## Receive slots -/

/-- `AlignUp`; 0 on overflow or if the alignment is not a power of two. -/
def alignUp (value alignment : Nat) : Nat :=
  if alignment = 0 ∨ alignment &&& (alignment - 1) ≠ 0 ∨ 2 ^ 64 - 1 - (alignment - 1) < value then 0
  else (value + alignment - 1) / alignment * alignment

def v2SlotSize (maxBlockBytes : Nat) : Nat :=
  if 2 ^ 64 - 1 - kV2DataOffset < maxBlockBytes then 0
  else alignUp (kV2DataOffset + maxBlockBytes) kV2DataOffset

def v2PutCompletionCoversFrame (completionBytes payloadLen slotSize : Nat) : Bool :=
  if slotSize < kV2PutPrefixOffset + kReqPrefix then false
  else if slotSize - kV2PutPrefixOffset - kReqPrefix < payloadLen then false
  else completionBytes == kReqPrefix + payloadLen

def v2PutCompletionIsValid (isRdmaWriteWithImm hasImmediate : Bool)
    (completionBytes payloadLen logicalPayloadCap slotSize : Nat) : Bool :=
  isRdmaWriteWithImm && hasImmediate && decide (payloadLen ≤ logicalPayloadCap) &&
    v2PutCompletionCoversFrame completionBytes payloadLen slotSize

theorem le_v2SlotSize {n : Nat} (h : n ≤ kPayloadHardCap) : kV2DataOffset + n ≤ v2SlotSize n := by
  unfold kPayloadHardCap kIoAlign at h
  have hmask : kV2DataOffset &&& (kV2DataOffset - 1) = 0 := by decide
  unfold v2SlotSize alignUp
  rw [if_neg (by unfold kV2DataOffset; omega), hmask, if_neg (by unfold kV2DataOffset; omega)]
  unfold kV2DataOffset
  omega

theorem v2PutCompletionCoversFrame_iff {completionBytes payloadLen slotSize : Nat} :
    v2PutCompletionCoversFrame completionBytes payloadLen slotSize ↔
      kV2DataOffset + payloadLen ≤ slotSize ∧ completionBytes = kReqPrefix + payloadLen := by
  have hadd := kV2PutPrefixOffset_add
  unfold v2PutCompletionCoversFrame
  split
  · simp only [Bool.false_eq_true, false_iff]
    omega
  · split
    · simp only [Bool.false_eq_true, false_iff]
      omega
    · rw [beq_iff_eq]
      omega

theorem v2PutCompletionIsValid_iff {completionBytes payloadLen cap slotSize : Nat} :
    v2PutCompletionIsValid true true completionBytes payloadLen cap slotSize ↔
      payloadLen ≤ cap ∧ kV2DataOffset + payloadLen ≤ slotSize ∧
        completionBytes = kReqPrefix + payloadLen := by
  simp [v2PutCompletionIsValid, v2PutCompletionCoversFrame_iff]

/-! ## The request prefix -/

/-- `ReqFields`, with the three hashes as the key that `Key()` makes of them. -/
structure ReqFields where
  op : Nat := 0
  key : BlockKey := {}
  offset : Nat := 0
  length : Nat := 0
  payloadLen : Nat := 0
deriving DecidableEq

/-- `EncodeReqVersion`. -/
def encodeReq (version : Nat) (f : ReqFields) : List UInt8 :=
  putLE 1 version ++ (putLE 1 f.op ++ (putLE 8 f.key.tenantHash.toNat ++
    (putLE 8 f.key.digestHi.toNat ++ (putLE 8 f.key.digestLo.toNat ++
      (putLE 8 f.offset ++ (putLE 8 f.length ++ putLE 8 f.payloadLen))))))

/-- `DecodeReqVersion`. -/
def decodeReq (version maxPayload : Nat) (p : List UInt8) : Option ReqFields := do
  let (v, p) ← readLE 1 p
  if v ≠ version then none
  else
    let (op, p) ← readLE 1 p
    let (tenantHash, p) ← readLE 8 p
    let (digestHi, p) ← readLE 8 p
    let (digestLo, p) ← readLE 8 p
    let (offset, p) ← readLE 8 p
    let (length, p) ← readLE 8 p
    let (payloadLen, _) ← readLE 8 p
    if payloadLen ≤ maxPayload then
      some { op, offset, length, payloadLen
             key := { digestHi := .ofNat digestHi, digestLo := .ofNat digestLo,
                      tenantHash := .ofNat tenantHash } }
    else none

/-- The fields have their width on the wire. -/
structure ReqFields.Sized (f : ReqFields) : Prop where
  op : f.op < 2 ^ 8
  offset : f.offset < 2 ^ 64
  length : f.length < 2 ^ 64
  payloadLen : f.payloadLen < 2 ^ 64

@[simp] theorem length_encodeReq (version : Nat) (f : ReqFields) :
    (encodeReq version f).length = kReqPrefix := by
  simp [encodeReq, kReqPrefix]

theorem decodeReq_encode {f : ReqFields} (hf : f.Sized) {version maxPayload : Nat}
    (hv : version < 2 ^ 8) (rest : List UInt8) :
    decodeReq version maxPayload (encodeReq version f ++ rest) =
      if f.payloadLen ≤ maxPayload then some f else none := by
  have hone : ∀ n, n < 2 ^ 8 → n % 256 ^ 1 = n := fun n hn => Nat.mod_eq_of_lt hn
  have height : ∀ n, n < 2 ^ 64 → n % 256 ^ 8 = n := fun n hn => Nat.mod_eq_of_lt hn
  have hword : ∀ w : UInt64, w.toNat % 256 ^ 8 = w.toNat := fun w => height _ w.toNat_lt
  simp only [decodeReq, encodeReq, List.append_assoc, readLE_append, Option.bind_eq_bind,
    Option.bind_some, hone version hv, hone f.op hf.op, height _ hf.offset, height _ hf.length,
    height _ hf.payloadLen, hword, ne_eq, not_true_eq_false, if_false, UInt64.ofNat_toNat]

theorem payloadLen_le_of_decodeReq {version maxPayload : Nat} {p : List UInt8} {f : ReqFields}
    (h : decodeReq version maxPayload p = some f) : f.payloadLen ≤ maxPayload := by
  simp only [decodeReq, Option.bind_eq_bind, Option.bind_eq_some_iff] at h
  obtain ⟨⟨v, p₁⟩, -, h⟩ := h
  split at h
  · cases h
  · simp only [Option.bind_eq_some_iff] at h
    obtain ⟨_, _, _, _, _, _, _, _, _, _, _, _, ⟨payloadLen, _⟩, _, h⟩ := h
    split at h
    · next hle =>
      cases h
      exact hle
    · cases h

/-! ## Control blocks -/

structure PullPrepareControl where
  slotIndex : Nat := 0
  releaseGeneration : Nat := 0
deriving DecidableEq

def kPullPrepareMagic : Nat := 0x32525050

def kPullPrepareBytes : Nat := 16

def encodePullPrepareControl (control : PullPrepareControl) : List UInt8 :=
  putLE 4 kPullPrepareMagic ++ (putLE 4 control.slotIndex ++ putLE 8 control.releaseGeneration)

def decodePullPrepareControl (p : List UInt8) : Option PullPrepareControl := do
  let (magic, p) ← readLE 4 p
  if magic ≠ kPullPrepareMagic then none
  else
    let (slotIndex, p) ← readLE 4 p
    let (releaseGeneration, _) ← readLE 8 p
    some { slotIndex, releaseGeneration }

structure DynamicPullReady where
  slotIndex : Nat := 0
  slotGeneration : Nat := 0
  dataLen : Nat := 0
  valueLen : Nat := 0
  address : Nat := 0
  rkey : Nat := 0
deriving DecidableEq

def kDynamicPullReadyMagic : Nat := 0x32525044

def encodeDynamicPullReady (ready : DynamicPullReady) : List UInt8 :=
  putLE 4 kDynamicPullReadyMagic ++ (putLE 4 ready.slotIndex ++ (putLE 8 ready.slotGeneration ++
    (putLE 8 ready.dataLen ++ (putLE 8 ready.valueLen ++ (putLE 8 ready.address ++
      (putLE 4 ready.rkey ++ putLE 4 0))))))

def decodeDynamicPullReady (p : List UInt8) : Option DynamicPullReady := do
  let (magic, p) ← readLE 4 p
  let (slotIndex, p) ← readLE 4 p
  let (slotGeneration, p) ← readLE 8 p
  let (dataLen, p) ← readLE 8 p
  let (valueLen, p) ← readLE 8 p
  let (address, p) ← readLE 8 p
  let (rkey, p) ← readLE 4 p
  let (reserved, _) ← readLE 4 p
  if magic ≠ kDynamicPullReadyMagic ∨ reserved ≠ 0 then none
  else if slotGeneration = 0 ∨ address = 0 ∨ rkey = 0 ∨ valueLen < dataLen ∨
      2 ^ 64 - 1 - address < dataLen then none
  else some { slotIndex, slotGeneration, dataLen, valueLen, address, rkey }

structure LeasePutReady where
  slot : Nat := 0
  generation : Nat := 0
  rkey : Nat := 0
  writeBase : Nat := 0
  leaseBytes : Nat := 0
deriving DecidableEq

def kLeasePutReadyMagic : Nat := 0x3252534c

def encodeLeasePutReady (ready : LeasePutReady) : List UInt8 :=
  putLE 4 kLeasePutReadyMagic ++ (putLE 4 ready.rkey ++ (putLE 4 ready.slot ++ (putLE 4 0 ++
    (putLE 8 ready.writeBase ++ (putLE 8 ready.leaseBytes ++ putLE 8 ready.generation)))))

def decodeLeasePutReady (p : List UInt8) : Option LeasePutReady := do
  let (magic, p) ← readLE 4 p
  let (rkey, p) ← readLE 4 p
  let (slot, p) ← readLE 4 p
  let (_, p) ← readLE 4 p
  let (writeBase, p) ← readLE 8 p
  let (leaseBytes, p) ← readLE 8 p
  let (generation, _) ← readLE 8 p
  if magic ≠ kLeasePutReadyMagic then none
  else if rkey = 0 ∨ writeBase = 0 ∨ leaseBytes < 2 * kV2DataOffset ∨
      leaseBytes % kV2DataOffset ≠ 0 ∨ 2 ^ 64 - 1 - (leaseBytes - 1) < writeBase ∨
      generation = 0 then none
  else some { slot, generation, rkey, writeBase, leaseBytes }

end DingoCache.Rdma
