import DingoCache.Rdma.Protocol

/-!
# Round Trips of the Native Frames

The frames of `src/transport/wire.h`, `src/transport/rdma_protocol.h` and
`src/transport/dev_frame.h`: what the decoder of a frame accepts of what its encoder
wrote, for all values of the fields.

- `decodeResp_encode` and the like: what each decoder makes of each encoded value.
-/

namespace DingoCache.Rdma

open Library Slab Store List

variable {magic : Nat} {info : RecvSegmentInfo} {name : List UInt8}

/-! ## The response prefix -/

def statusCode : Status → Nat
  | .ok => 0
  | .notFound => 1
  | .cacheFull => 2
  | .quotaExceeded => 3
  | .ioError => 4
  | .invalid => 5
  | .resourceExhausted => 6
  | .noCompatibleRail => 7

/-- The enumerator of a byte up to `kInvalid`. -/
def statusOfCode : Nat → Option Status
  | 0 => some .ok
  | 1 => some .notFound
  | 2 => some .cacheFull
  | 3 => some .quotaExceeded
  | 4 => some .ioError
  | 5 => some .invalid
  | _ => none

/-- What a response prefix says. -/
structure RespFields where
  status : Status := .ok
  dataLen : Nat := 0
  valueLen : Nat := 0
deriving DecidableEq

/-- `EncodeRespVersion`. -/
def encodeResp (version : Nat) (f : RespFields) : List UInt8 :=
  putLE 1 version ++ (putLE 1 (statusCode f.status) ++ (putLE 8 f.dataLen ++ putLE 8 f.valueLen))

/-- `DecodeRespVersion`. -/
def decodeResp (version maxData : Nat) (p : List UInt8) : Option RespFields := do
  let (v, p) ← readLE 1 p
  if v ≠ version then none
  else
    let (raw, p) ← readLE 1 p
    let status ← statusOfCode raw
    let (dataLen, p) ← readLE 8 p
    if maxData < dataLen then none
    else
      let (valueLen, _) ← readLE 8 p
      some { status, dataLen, valueLen }

/-- The lengths have their width on the wire. -/
structure RespFields.Sized (f : RespFields) : Prop where
  dataLen : f.dataLen < 2 ^ 64
  valueLen : f.valueLen < 2 ^ 64

def wireStatus (st : Status) : Prop := statusCode st ≤ statusCode .invalid

instance (st : Status) : Decidable (wireStatus st) :=
  inferInstanceAs (Decidable (statusCode st ≤ statusCode .invalid))

theorem statusOfCode_statusCode (st : Status) :
    statusOfCode (statusCode st) = if wireStatus st then some st else none := by
  cases st <;> rfl

theorem statusCode_lt (st : Status) : statusCode st < 256 ^ 1 := by
  cases st <;> decide

theorem decodeResp_encode {f : RespFields} (hf : f.Sized) {version maxData : Nat}
    (hv : version < 2 ^ 8) :
    decodeResp version maxData (encodeResp version f) =
      if wireStatus f.status ∧ f.dataLen ≤ maxData then some f else none := by
  simp only [decodeResp, encodeResp, readLE_putLE 1 hv, readLE_putLE 1 (statusCode_lt f.status),
    readLE_putLE 8 hf.dataLen, readLE_putLE_end 8 hf.valueLen, Option.bind_eq_bind,
    Option.bind_some, ne_eq, not_true_eq_false, if_false, statusOfCode_statusCode]
  by_cases hst : wireStatus f.status
  · by_cases hle : f.dataLen ≤ maxData
    · rw [if_pos hst, Option.bind_some, if_neg (Nat.not_lt.mpr hle), if_pos ⟨hst, hle⟩]
    · rw [if_pos hst, Option.bind_some, if_pos (Nat.lt_of_not_le hle), if_neg fun h => hle h.2]
  · rw [if_neg hst, Option.bind_none, if_neg fun h => hst h.1]

/-! ## The retain trailer -/

structure RetainTrailer where
  serverNowS : Nat := 0
  maxTtlS : Nat := 0
  headroomPct : Nat := 0
deriving DecidableEq

def encodeRetainTrailer (t : RetainTrailer) : List UInt8 :=
  putLE 4 t.serverNowS ++ (putLE 4 t.maxTtlS ++ (putLE 1 t.headroomPct ++ [0, 0, 0]))

/-- `DecodeRetainTrailer`; the caller has seen that the bytes are there. -/
def decodeRetainTrailer (p : List UInt8) : Option RetainTrailer := do
  let (serverNowS, p) ← readLE 4 p
  let (maxTtlS, p) ← readLE 4 p
  let (headroomPct, _) ← readLE 1 p
  some { serverNowS, maxTtlS, headroomPct }

/-- The fields have their width on the wire. -/
structure RetainTrailer.Sized (t : RetainTrailer) : Prop where
  serverNowS : t.serverNowS < 2 ^ 32
  maxTtlS : t.maxTtlS < 2 ^ 32
  headroomPct : t.headroomPct < 2 ^ 8

theorem decodeRetainTrailer_encode {t : RetainTrailer} (ht : t.Sized) :
    decodeRetainTrailer (encodeRetainTrailer t) = some t := by
  simp [decodeRetainTrailer, encodeRetainTrailer, readLE_putLE 4 ht.serverNowS, readLE_putLE 4
    ht.maxTtlS, readLE_putLE 1 ht.headroomPct]

/-! ## Control blocks -/

structure RecvSegmentInfo where
  baseAddr : Nat := 0
  rkey : Nat := 0
  slotSize : Nat := 0
deriving DecidableEq

def kRecvSegmentInfoMagic : Nat := 0x32475352

def kRecvSegmentInfoBytes : Nat := 24

def encodeRecvSegmentInfo (info : RecvSegmentInfo) : List UInt8 :=
  putLE 4 kRecvSegmentInfoMagic ++ (putLE 4 info.rkey ++ (putLE 8 info.baseAddr ++
    putLE 8 info.slotSize))

def decodeRecvSegmentInfo (p : List UInt8) : Option RecvSegmentInfo := do
  let (magic, p) ← readLE 4 p
  if magic ≠ kRecvSegmentInfoMagic then none
  else
    let (rkey, p) ← readLE 4 p
    let (baseAddr, p) ← readLE 8 p
    let (slotSize, _) ← readLE 8 p
    if rkey ≠ 0 ∧ baseAddr ≠ 0 ∧ kV2DataOffset ≤ slotSize ∧ slotSize % kV2DataOffset = 0 ∧
        baseAddr ≤ 2 ^ 64 - 1 - (slotSize - 1) then
      some { baseAddr, rkey, slotSize }
    else none

/-- The fields have their width on the wire. -/
structure RecvSegmentInfo.Sized (info : RecvSegmentInfo) : Prop where
  baseAddr : info.baseAddr < 2 ^ 64
  rkey : info.rkey < 2 ^ 32
  slotSize : info.slotSize < 2 ^ 64

/-- A key, an address, slots of whole pages and a first slot that does not wrap around. -/
@[mk_iff]
structure RecvSegmentInfo.Admissible (info : RecvSegmentInfo) : Prop where
  rkey : info.rkey ≠ 0
  baseAddr : info.baseAddr ≠ 0
  slotSize : kV2DataOffset ≤ info.slotSize
  pages : kV2DataOffset ∣ info.slotSize
  fits : info.baseAddr + info.slotSize ≤ 2 ^ 64

/-- The fields of a pull-prepare block have their width on the wire. -/
structure PullPrepareControl.Sized (control : PullPrepareControl) : Prop where
  slotIndex : control.slotIndex < 2 ^ 32
  releaseGeneration : control.releaseGeneration < 2 ^ 64

/-- The fields of a pull-ready block have their width on the wire. -/
structure DynamicPullReady.Sized (ready : DynamicPullReady) : Prop where
  slotIndex : ready.slotIndex < 2 ^ 32
  slotGeneration : ready.slotGeneration < 2 ^ 64
  dataLen : ready.dataLen < 2 ^ 64
  valueLen : ready.valueLen < 2 ^ 64
  address : ready.address < 2 ^ 64
  rkey : ready.rkey < 2 ^ 32

/-- A generation, an address, a key, no more data than value, and data that ends below the last
address: the end itself is an address, too. -/
@[mk_iff]
structure DynamicPullReady.Admissible (ready : DynamicPullReady) : Prop where
  slotGeneration : ready.slotGeneration ≠ 0
  address : ready.address ≠ 0
  rkey : ready.rkey ≠ 0
  dataLen : ready.dataLen ≤ ready.valueLen
  fits : ready.address + ready.dataLen < 2 ^ 64

/-- The fields of a lease block have their width on the wire. -/
structure LeasePutReady.Sized (ready : LeasePutReady) : Prop where
  slot : ready.slot < 2 ^ 32
  generation : ready.generation < 2 ^ 64
  rkey : ready.rkey < 2 ^ 32
  writeBase : ready.writeBase < 2 ^ 64
  leaseBytes : ready.leaseBytes < 2 ^ 64

/-- A generation, a key, an address, and a lease of two pages or more that does not wrap around. -/
@[mk_iff]
structure LeasePutReady.Admissible (ready : LeasePutReady) : Prop where
  generation : ready.generation ≠ 0
  rkey : ready.rkey ≠ 0
  writeBase : ready.writeBase ≠ 0
  leaseBytes : 2 * kV2DataOffset ≤ ready.leaseBytes
  pages : kV2DataOffset ∣ ready.leaseBytes
  fits : ready.writeBase + ready.leaseBytes ≤ 2 ^ 64

section Blocks

open Classical

theorem decodeRecvSegmentInfo_encode (h : info.Sized) (rest : List UInt8) :
    decodeRecvSegmentInfo (encodeRecvSegmentInfo info ++ rest) =
      if info.Admissible then some info else none := by
  have hmagic : kRecvSegmentInfoMagic < 256 ^ 4 := by decide
  simp only [decodeRecvSegmentInfo, encodeRecvSegmentInfo, append_assoc, readLE_putLE 4 hmagic,
    readLE_putLE 4 h.rkey, readLE_putLE 8 h.baseAddr, readLE_putLE 8 h.slotSize,
    Option.bind_eq_bind, Option.bind_some, ne_eq, not_true_eq_false, if_false]
  refine if_congr ?_ rfl rfl
  rw [RecvSegmentInfo.admissible_iff]
  unfold kV2DataOffset
  omega

theorem decodePullPrepareControl_encode {control : PullPrepareControl} (h : control.Sized) :
    decodePullPrepareControl (encodePullPrepareControl control) = some control := by
  have hmagic : kPullPrepareMagic < 256 ^ 4 := by decide
  simp [decodePullPrepareControl, encodePullPrepareControl, readLE_putLE 4 hmagic, readLE_putLE 4
    h.slotIndex, readLE_putLE_end 8 h.releaseGeneration]

theorem decodeDynamicPullReady_encode {ready : DynamicPullReady} (h : ready.Sized) :
    decodeDynamicPullReady (encodeDynamicPullReady ready) =
      if ready.Admissible then some ready else none := by
  have hmagic : kDynamicPullReadyMagic < 256 ^ 4 := by decide
  have hzero : 0 < 256 ^ 4 := by decide
  simp only [decodeDynamicPullReady, encodeDynamicPullReady, readLE_putLE 4 hmagic,
    readLE_putLE 4 h.slotIndex, readLE_putLE 8 h.slotGeneration, readLE_putLE 8 h.dataLen,
    readLE_putLE 8 h.valueLen, readLE_putLE 8 h.address, readLE_putLE 4 h.rkey,
    readLE_putLE_end 4 hzero, Option.bind_eq_bind, Option.bind_some, ne_eq, not_true_eq_false,
    or_self, if_false]
  have hlt := h.address
  refine (if_congr ?_ rfl rfl).trans (ite_not ..)
  rw [DynamicPullReady.admissible_iff]
  omega

theorem decodeLeasePutReady_encode {ready : LeasePutReady} (h : ready.Sized) :
    decodeLeasePutReady (encodeLeasePutReady ready) =
      if ready.Admissible then some ready else none := by
  have hmagic : kLeasePutReadyMagic < 256 ^ 4 := by decide
  have hzero : 0 < 256 ^ 4 := by decide
  simp only [decodeLeasePutReady, encodeLeasePutReady, readLE_putLE 4 hmagic, readLE_putLE 4 h.rkey,
    readLE_putLE 4 h.slot, readLE_putLE 4 hzero, readLE_putLE 8 h.writeBase,
    readLE_putLE 8 h.leaseBytes, readLE_putLE_end 8 h.generation, Option.bind_eq_bind,
    Option.bind_some, ne_eq, not_true_eq_false, if_false]
  refine (if_congr ?_ rfl rfl).trans (ite_not ..)
  rw [LeasePutReady.admissible_iff]
  unfold kV2DataOffset
  omega

/-! ## Readiness -/

def kV2DynamicOnlyReadinessBytes : Nat := 1 + kRecvSegmentInfoBytes

def kV2RetirementReadinessBytes : Nat := kV2DynamicOnlyReadinessBytes + 8

def encodeV2DynamicOnlyReadiness (info : RecvSegmentInfo) : List UInt8 :=
  putLE 1 1 ++ encodeRecvSegmentInfo info

def decodeV2DynamicOnlyReadiness (p : List UInt8) : Option RecvSegmentInfo :=
  if p.length ≠ kV2DynamicOnlyReadinessBytes then none
  else do
    let (first, p) ← readLE 1 p
    if first ≠ 1 then none else decodeRecvSegmentInfo p

/-- `EncodeV2Readiness`; without a token no byte is counted. -/
def encodeV2Readiness (info : RecvSegmentInfo) (writerToken : Nat) : List UInt8 :=
  if writerToken = 0 then []
  else putLE 1 1 ++ (encodeRecvSegmentInfo info ++ putLE 8 writerToken)

def decodeV2Readiness (p : List UInt8) : Option (RecvSegmentInfo × Nat) :=
  if p.length ≠ kV2RetirementReadinessBytes then none
  else do
    let (first, tail) ← readLE 1 p
    if first ≠ 1 then none
    else
      let info ← decodeRecvSegmentInfo tail
      let (writerToken, _) ← readLE 8 (p.drop kV2DynamicOnlyReadinessBytes)
      if writerToken = 0 then none else some (info, writerToken)

@[simp] theorem length_encodeRecvSegmentInfo (info : RecvSegmentInfo) :
    (encodeRecvSegmentInfo info).length = kRecvSegmentInfoBytes := by
  simp [encodeRecvSegmentInfo, kRecvSegmentInfoBytes]

theorem decodeV2DynamicOnlyReadiness_encode (h : info.Sized) :
    decodeV2DynamicOnlyReadiness (encodeV2DynamicOnlyReadiness info) =
      if info.Admissible then some info else none := by
  have hone : 1 < 256 ^ 1 := by decide
  have hlen : (encodeV2DynamicOnlyReadiness info).length = kV2DynamicOnlyReadinessBytes := by
    simp [encodeV2DynamicOnlyReadiness, kV2DynamicOnlyReadinessBytes]
  have hinfo := decodeRecvSegmentInfo_encode h []
  rw [append_nil] at hinfo
  rw [decodeV2DynamicOnlyReadiness, if_neg (not_not.mpr hlen), encodeV2DynamicOnlyReadiness,
    readLE_putLE 1 hone, Option.bind_eq_bind, Option.bind_some, ← hinfo]
  simp

theorem decodeV2Readiness_encode (h : info.Sized) {writerToken : Nat} (ht : writerToken < 2 ^ 64) :
    decodeV2Readiness (encodeV2Readiness info writerToken) =
      if info.Admissible ∧ writerToken ≠ 0 then some (info, writerToken) else none := by
  have hone : 1 < 256 ^ 1 := by decide
  by_cases hz : writerToken = 0
  · -- Nothing is sent, and nothing is too short.
    rw [encodeV2Readiness, if_pos hz, if_neg fun hc => hc.2 hz]
    rfl
  · set p := putLE 1 1 ++ (encodeRecvSegmentInfo info ++ putLE 8 writerToken) with hp
    have hlen : p.length = kV2RetirementReadinessBytes := by
      simp [hp, kV2RetirementReadinessBytes, kV2DynamicOnlyReadinessBytes, Nat.add_assoc]
    have hdrop : p.drop kV2DynamicOnlyReadinessBytes = putLE 8 writerToken := by
      rw [hp, ← append_assoc]
      apply drop_left'
      simp [kV2DynamicOnlyReadinessBytes]
    rw [encodeV2Readiness, if_neg hz, decodeV2Readiness, if_neg (not_not.mpr hlen), hdrop,
      readLE_putLE_end 8 ht, readLE_putLE 1 hone]
    simp only [Option.bind_eq_bind, Option.bind_some, ne_eq, not_true_eq_false, if_false,
      decodeRecvSegmentInfo_encode h]
    by_cases ha : info.Admissible
    · simp [ha, hz]
    · simp [ha]

end Blocks

/-! ## The device frame -/

def kDevNameBytes : Nat := 32

def kDevCapsV2Magic : Nat := 0x32504344

def kDevProtoV2 : Nat := 2

def kDevFrameCapsTrailerBytes : Nat := 1 + 4 + 8 + 1

def kMaxDeviceNameBytes : Nat := kDevNameBytes - kDevFrameCapsTrailerBytes

/-- A frame of `kDevNameBytes` that starts with the bytes and is zero behind them. -/
def zeroFilled (bs : List UInt8) : List UInt8 :=
  bs ++ replicate (kDevNameBytes - bs.length) 0

/-- `EncodeDevFrame`: the name is cut to leave a zero byte; the capabilities follow it if there is
room. -/
def encodeDevFrame (dev : List UInt8) (maxBlockBytes protocolVersion : Nat) : List UInt8 :=
  let name := dev.take (kDevNameBytes - 1)
  if protocolVersion ≠ kDevProtoV2 ∨ maxBlockBytes = 0 ∨ kMaxDeviceNameBytes < name.length then
    zeroFilled name
  else
    zeroFilled (name ++ (0 :: (putLE 4 kDevCapsV2Magic ++ (putLE 8 maxBlockBytes ++
      putLE 1 kDevProtoV2))))

def parseDevFrameCaps (frame : List UInt8) : Nat :=
  let nul := (frame.takeWhile (· != 0)).length
  if kDevNameBytes < nul + 1 + 4 + 8 + 1 then 0
  else if getLE ((frame.drop (nul + 1)).take 4) ≠ kDevCapsV2Magic ∨
      getLE ((frame.drop (nul + 13)).take 1) ≠ kDevProtoV2 then 0
  else getLE ((frame.drop (nul + 5)).take 8)

theorem takeWhile_zeroByte {rest : List UInt8} (h : 0 ∉ name) :
    (name ++ 0 :: rest).takeWhile (· != 0) = name := by
  have hall : ∀ b ∈ name, (b != 0) := fun b hb => bne_iff_ne.mpr fun heq => h (heq ▸ hb)
  rw [takeWhile_append_of_pos hall, takeWhile_cons]
  simp

theorem getLE_zeros (n : Nat) : getLE (replicate n 0) = 0 := by
  induction n with
  | zero => rfl
  | succ n ih =>
    rw [replicate_succ, getLE, ih]
    rfl

theorem parseDevFrameCaps_name (h : 0 ∉ name) (hlen : name.length < kDevNameBytes) :
    parseDevFrameCaps (zeroFilled name) = 0 := by
  obtain ⟨k, hk⟩ := Nat.exists_eq_add_of_lt hlen
  have hfill : zeroFilled name = name ++ 0 :: replicate k 0 := by
    rw [zeroFilled, ← replicate_succ]
    congr 2
    omega
  -- The bytes in the place of the magic are zero.
  have hmagic : getLE (((name ++ 0 :: replicate k 0).drop (name.length + 1)).take 4) ≠
      kDevCapsV2Magic := by
    rw [drop_length_add_append, drop_succ_cons, drop_zero, take_replicate, getLE_zeros]
    decide
  rw [hfill]
  simp only [parseDevFrameCaps, takeWhile_zeroByte h]
  split
  · rfl
  · rw [if_pos (.inl hmagic)]

theorem parseDevFrameCaps_trailer (h : 0 ∉ name) (hlen : name.length ≤ kMaxDeviceNameBytes)
    {v : Nat} (hv : v < 2 ^ 64) (rest : List UInt8) :
    parseDevFrameCaps (name ++ (0 :: (putLE 4 kDevCapsV2Magic ++ (putLE 8 v ++
      (putLE 1 kDevProtoV2 ++ rest))))) = v := by
  have hroom : ¬kDevNameBytes < name.length + 1 + 4 + 8 + 1 := by
    unfold kMaxDeviceNameBytes kDevNameBytes kDevFrameCapsTrailerBytes at hlen
    unfold kDevNameBytes
    omega
  -- The fields behind the zero byte, one after the other.
  generalize hf : name ++ (0 :: (putLE 4 kDevCapsV2Magic ++ (putLE 8 v ++
    (putLE 1 kDevProtoV2 ++ rest)))) = frame
  have hnul : frame.takeWhile (· != 0) = name := hf ▸ takeWhile_zeroByte h
  have hmagic : frame.drop (name.length + 1) =
      putLE 4 kDevCapsV2Magic ++ (putLE 8 v ++ (putLE 1 kDevProtoV2 ++ rest)) := by
    rw [← hf, drop_length_add_append, drop_succ_cons, drop_zero]
  have hvalue : frame.drop (name.length + 5) = putLE 8 v ++ (putLE 1 kDevProtoV2 ++ rest) := by
    rw [show name.length + 5 = name.length + 1 + 4 from rfl, ← drop_drop, hmagic]
    exact drop_left' (length_putLE 4 _)
  have hproto : frame.drop (name.length + 13) = putLE 1 kDevProtoV2 ++ rest := by
    rw [show name.length + 13 = name.length + 5 + 8 from rfl, ← drop_drop, hvalue]
    exact drop_left' (length_putLE 8 _)
  simp only [parseDevFrameCaps, hnul]
  rw [if_neg hroom, hmagic, hvalue, hproto, take_left' (length_putLE 4 _),
    take_left' (length_putLE 8 _), take_left' (length_putLE 1 _), getLE_putLE,
    getLE_putLE, getLE_putLE, Nat.mod_eq_of_lt (show v < 256 ^ 8 from hv)]
  exact if_neg (by decide)

/-- The capability value is read back if the name leaves room for it. -/
theorem parseDevFrameCaps_encode {dev : List UInt8} (h : 0 ∉ dev) {v : Nat} (hv : v < 2 ^ 64) :
    parseDevFrameCaps (encodeDevFrame dev v kDevProtoV2) =
      if dev.length ≤ kMaxDeviceNameBytes then v else 0 := by
  have hname : 0 ∉ dev.take (kDevNameBytes - 1) := fun hmem => h (mem_of_mem_take hmem)
  have hlen : (dev.take (kDevNameBytes - 1)).length < kDevNameBytes := by
    rw [length_take]
    unfold kDevNameBytes
    omega
  simp only [encodeDevFrame]
  split
  · next hc =>
    rw [parseDevFrameCaps_name hname hlen]
    rcases hc with hc | rfl | hc
    · exact absurd rfl hc
    · exact (ite_self 0).symm
    · rw [if_neg]
      rw [length_take] at hc
      omega
  · next hc =>
    simp only [not_or, Nat.not_lt] at hc
    obtain ⟨-, -, hfit⟩ := hc
    have hshort : dev.length ≤ kMaxDeviceNameBytes := by
      rw [length_take] at hfit
      unfold kMaxDeviceNameBytes kDevNameBytes kDevFrameCapsTrailerBytes at hfit ⊢
      omega
    have htake : dev.take (kDevNameBytes - 1) = dev := by
      apply take_of_length_le
      unfold kMaxDeviceNameBytes kDevNameBytes kDevFrameCapsTrailerBytes at hshort
      unfold kDevNameBytes
      omega
    rw [if_pos hshort, htake, zeroFilled]
    simp only [append_assoc, cons_append]
    exact parseDevFrameCaps_trailer h hshort hv _

/-! ## All frames -/

section Frames

open Classical

theorem decode_other_epoch {version : Nat} {b : UInt8} (hb : b.toNat ≠ version) (limit : Nat)
    (rest : List UInt8) :
    decodeReq version limit (b :: rest) = none ∧ decodeResp version limit (b :: rest) = none := by
  have hread : readLE 1 (b :: rest) = some (b.toNat, rest) := by
    simp [readLE, readBytes, getLE]
  constructor
  · simp only [decodeReq, hread, Option.bind_eq_bind, Option.bind_some, if_pos hb]
  · simp only [decodeResp, hread, Option.bind_eq_bind, Option.bind_some, if_pos hb]

theorem decodeRecvSegmentInfo_magic (hm : magic < 2 ^ 32) (hne : magic ≠ kRecvSegmentInfoMagic)
    (rest : List UInt8) : decodeRecvSegmentInfo (putLE 4 magic ++ rest) = none := by
  simp only [decodeRecvSegmentInfo, readLE_putLE 4 hm, Option.bind_eq_bind, Option.bind_some,
    if_pos hne]

theorem decodePullPrepareControl_magic (hm : magic < 2 ^ 32) (hne : magic ≠ kPullPrepareMagic)
    (rest : List UInt8) : decodePullPrepareControl (putLE 4 magic ++ rest) = none := by
  simp only [decodePullPrepareControl, readLE_putLE 4 hm, Option.bind_eq_bind, Option.bind_some,
    if_pos hne]

theorem decodeDynamicPullReady_magic (hm : magic < 2 ^ 32) (hne : magic ≠ kDynamicPullReadyMagic)
    (rest : List UInt8) : decodeDynamicPullReady (putLE 4 magic ++ rest) = none := by
  rw [Option.eq_none_iff_forall_ne_some]
  intro ready h
  simp only [decodeDynamicPullReady, readLE_putLE 4 hm, Option.bind_eq_bind, Option.bind_some,
    Option.bind_eq_some_iff] at h
  obtain ⟨_, _, _, _, _, _, _, _, _, _, _, _, _, _, h⟩ := h
  rw [if_pos (.inl hne)] at h
  cases h

theorem decodeLeasePutReady_magic (hm : magic < 2 ^ 32) (hne : magic ≠ kLeasePutReadyMagic)
    (rest : List UInt8) : decodeLeasePutReady (putLE 4 magic ++ rest) = none := by
  rw [Option.eq_none_iff_forall_ne_some]
  intro ready h
  simp only [decodeLeasePutReady, readLE_putLE 4 hm, Option.bind_eq_bind, Option.bind_some,
    Option.bind_eq_some_iff] at h
  obtain ⟨_, _, _, _, _, _, _, _, _, _, _, _, h⟩ := h
  rw [if_pos hne] at h
  cases h

theorem decodeReadiness_magic (hm : magic < 2 ^ 32) (hne : magic ≠ kRecvSegmentInfoMagic)
    (first : UInt8) (rest : List UInt8) :
    decodeV2DynamicOnlyReadiness (first :: (putLE 4 magic ++ rest)) = none ∧
      decodeV2Readiness (first :: (putLE 4 magic ++ rest)) = none := by
  have hread : readLE 1 (first :: (putLE 4 magic ++ rest)) =
      some (first.toNat, putLE 4 magic ++ rest) := by
    simp [readLE, readBytes, getLE]
  constructor
  · simp [decodeV2DynamicOnlyReadiness, hread, decodeRecvSegmentInfo_magic hm hne]
  · simp [decodeV2Readiness, hread, decodeRecvSegmentInfo_magic hm hne]

/-- Every frame is read back exactly on its admissible values, where the data of a pull-ready block
has to end below the last address; other epochs and other magics are rejected; a device frame gives
back its capability value if the name leaves room. -/
theorem native_frames_exact :
    (∀ version < 2 ^ 8, ∀ limit, ExactOn (encodeReq version) (decodeReq version limit)
      ReqFields.Sized fun f => f.payloadLen ≤ limit) ∧
    (∀ version < 2 ^ 8, ∀ limit, ExactOn (encodeResp version) (decodeResp version limit)
      RespFields.Sized fun f => wireStatus f.status ∧ f.dataLen ≤ limit) ∧
    ExactOn encodeRetainTrailer decodeRetainTrailer RetainTrailer.Sized (fun _ => True) ∧
    ExactOn encodeRecvSegmentInfo decodeRecvSegmentInfo RecvSegmentInfo.Sized
      RecvSegmentInfo.Admissible ∧
    ExactOn encodePullPrepareControl decodePullPrepareControl PullPrepareControl.Sized
      (fun _ => True) ∧
    ExactOn encodeDynamicPullReady decodeDynamicPullReady DynamicPullReady.Sized
      DynamicPullReady.Admissible ∧
    ExactOn encodeLeasePutReady decodeLeasePutReady LeasePutReady.Sized
      LeasePutReady.Admissible ∧
    ExactOn encodeV2DynamicOnlyReadiness decodeV2DynamicOnlyReadiness RecvSegmentInfo.Sized
      RecvSegmentInfo.Admissible ∧
    ExactOn (fun v : RecvSegmentInfo × Nat => encodeV2Readiness v.1 v.2) decodeV2Readiness
      (fun v => v.1.Sized ∧ v.2 < 2 ^ 64) (fun v => v.1.Admissible ∧ v.2 ≠ 0) ∧
    (∀ version limit rest, ∀ b : UInt8, b.toNat ≠ version →
      decodeReq version limit (b :: rest) = none ∧ decodeResp version limit (b :: rest) = none) ∧
    (∀ magic < 2 ^ 32, ∀ rest,
      (magic ≠ kRecvSegmentInfoMagic → decodeRecvSegmentInfo (putLE 4 magic ++ rest) = none ∧
        ∀ first, decodeV2DynamicOnlyReadiness (first :: (putLE 4 magic ++ rest)) = none ∧
          decodeV2Readiness (first :: (putLE 4 magic ++ rest)) = none) ∧
      (magic ≠ kPullPrepareMagic → decodePullPrepareControl (putLE 4 magic ++ rest) = none) ∧
      (magic ≠ kDynamicPullReadyMagic → decodeDynamicPullReady (putLE 4 magic ++ rest) = none) ∧
      (magic ≠ kLeasePutReadyMagic → decodeLeasePutReady (putLE 4 magic ++ rest) = none)) ∧
    ∀ dev : List UInt8, 0 ∉ dev → ∀ v < 2 ^ 64, parseDevFrameCaps (encodeDevFrame dev
      v kDevProtoV2) =
      if dev.length ≤ kMaxDeviceNameBytes then v else 0 := by
  refine ⟨fun version hv limit => exactOn_of_ite fun f hf => ?_,
    fun version hv limit => exactOn_of_ite fun f hf => decodeResp_encode hf hv,
    exactOn_of_ite fun t ht => ?_, exactOn_of_ite fun info h => ?_,
    exactOn_of_ite fun control h => ?_, exactOn_of_ite fun r h => decodeDynamicPullReady_encode h,
    exactOn_of_ite fun r h => decodeLeasePutReady_encode h,
    exactOn_of_ite fun info h => decodeV2DynamicOnlyReadiness_encode h,
    exactOn_of_ite fun v h => decodeV2Readiness_encode h.1 h.2,
    fun version limit rest b hb => decode_other_epoch hb limit rest,
    fun magic hm rest => ⟨fun hne => ⟨decodeRecvSegmentInfo_magic hm hne rest,
      fun first => decodeReadiness_magic hm hne first rest⟩,
      fun hne => decodePullPrepareControl_magic hm hne rest,
      fun hne => decodeDynamicPullReady_magic hm hne rest,
      fun hne => decodeLeasePutReady_magic hm hne rest⟩,
    fun dev hdev v hv => parseDevFrameCaps_encode hdev hv⟩
  · have h : decodeReq version limit (encodeReq version f ++ []) =
        if f.payloadLen ≤ limit then some f else none := decodeReq_encode hf hv []
    rwa [List.append_nil] at h
  · rw [if_pos trivial]
    exact decodeRetainTrailer_encode ht
  · have h' := decodeRecvSegmentInfo_encode h []
    rwa [List.append_nil] at h'
  · rw [if_pos trivial]
    exact decodePullPrepareControl_encode h

/-- No one bound on the end of a range fits: a pull-ready block whose data ends with the last
address is rejected, a receive segment that ends there is accepted. -/
theorem not_one_bound_on_ranges :
    ¬∃ bound : Nat,
      (∀ r : DynamicPullReady, r.Sized →
        ((decodeDynamicPullReady (encodeDynamicPullReady r)).isSome = true ↔
          r.slotGeneration ≠ 0 ∧ r.address ≠ 0 ∧ r.rkey ≠ 0 ∧ r.dataLen ≤ r.valueLen ∧
            r.address + r.dataLen ≤ bound)) ∧
      (∀ info : RecvSegmentInfo, info.Sized →
        ((decodeRecvSegmentInfo (encodeRecvSegmentInfo info)).isSome = true ↔
          info.rkey ≠ 0 ∧ info.baseAddr ≠ 0 ∧ kV2DataOffset ≤ info.slotSize ∧
            kV2DataOffset ∣ info.slotSize ∧ info.baseAddr + info.slotSize ≤ bound)) := by
  rintro ⟨bound, hpull, hrecv⟩
  have hinfo := hrecv { baseAddr := 2 ^ 64 - 4096, rkey := 1, slotSize := 4096 }
    ⟨by decide, by decide, by decide⟩
  have hbound : 2 ^ 64 ≤ bound := (hinfo.mp (by decide)).2.2.2.2
  have hready := hpull { slotGeneration := 1, dataLen := 4096, valueLen := 4096,
                         address := 2 ^ 64 - 4096, rkey := 1 }
    ⟨by decide, by decide, by decide, by decide, by decide, by decide⟩
  have haccept := hready.mpr ⟨by decide, by decide, by decide, by decide, hbound⟩
  exact absurd haccept (by decide)

end Frames

end DingoCache.Rdma
