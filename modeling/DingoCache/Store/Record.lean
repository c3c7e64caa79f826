import DingoCache.Library.FlatFile
import DingoCache.Slab.Model

/-!
# Records of `slots.tbl`

The 64-byte slot record of `src/cache/disk_slab_store.cc`: what `WriteRecord`
builds and what the `parse_record` step of `Rebuild` makes of 64 bytes found in
the table.
-/

namespace DingoCache.Store

open Library Slab
open FlatFile

variable {q : Bytes}

/-! ## Checksums and fields -/

abbrev Bytes := FlatFile UInt8

def crcBit (crc : UInt32) : UInt32 := (crc >>> 1) ^^^ (0xEDB88320 &&& (0 - (crc &&& 1)))

def crcByte (crc : UInt32) (b : UInt8) : UInt32 :=
  crcBit (crcBit (crcBit (crcBit (crcBit (crcBit (crcBit (crcBit (crc ^^^ b.toUInt32))))))))

def crc32 (bs : List UInt8) : UInt32 := bs.foldl crcByte 0xFFFFFFFF ^^^ 0xFFFFFFFF

/-- `PutU32(p + off, v)`. -/
def putU32 (p : Bytes) (off v : Nat) : Bytes := p.pwrite off (putLE 4 v)

/-- `PutU64(p + off, v)`. -/
def putU64 (p : Bytes) (off v : Nat) : Bytes := p.pwrite off (putLE 8 v)

/-- `GetU32(p + off)`. -/
def getU32 (p : Bytes) (off : Nat) : Nat := getLE (p.pread off 4)

/-- `GetU64(p + off)`. -/
def getU64 (p : Bytes) (off : Nat) : Nat := getLE (p.pread off 8)

section Fields

variable {p : Bytes} {off off' v : Nat} {bs : List UInt8}

theorem getU32_putU32 : getU32 (putU32 p off v) off = v % 2 ^ 32 := by
  have h := p.pread_pwrite_self off (putLE 4 v)
  rw [length_putLE] at h
  rw [getU32, putU32, h, getLE_putLE]
  rfl

theorem getU64_putU64 : getU64 (putU64 p off v) off = v % 2 ^ 64 := by
  have h := p.pread_pwrite_self off (putLE 8 v)
  rw [length_putLE] at h
  rw [getU64, putU64, h, getLE_putLE]
  rfl

theorem getU32_pwrite (h : off' + 4 ≤ off ∨ off + bs.length ≤ off') :
    getU32 (p.pwrite off bs) off' = getU32 p off' := by
  rw [getU32, pread_pwrite_apart h, getU32]

theorem getU64_pwrite (h : off' + 8 ≤ off ∨ off + bs.length ≤ off') :
    getU64 (p.pwrite off bs) off' = getU64 p off' := by
  rw [getU64, pread_pwrite_apart h, getU64]

end Fields

/-! ## The record -/

def kRecBytes : Nat := 64

def kRecMagic : Nat := 0x334C5453

/-- The fields of a record that `Rebuild` turns into an entry. -/
structure SlotRecord where
  key : BlockKey
  slotSize : Nat
  payloadLen : Nat
  retainUntil : Nat := 0
  retainTtlS : Nat := 0
deriving DecidableEq

namespace SlotRecord

/-- The bytes of `WriteRecord` before the checksum is stored. -/
def body (r : SlotRecord) (valid : Bool) : Bytes :=
  let rec0 := putU32 (fun _ => 0) 0 kRecMagic
  let rec1 := rec0.pwrite 8 [if valid then 1 else 0]
  let rec2 := putU32 rec1 12 r.slotSize
  let rec3 := putU64 rec2 16 r.key.digestHi.toNat
  let rec4 := putU64 rec3 24 r.key.digestLo.toNat
  let rec5 := putU32 rec4 32 r.payloadLen
  let rec6 := putU64 rec5 36 r.key.tenantHash.toNat
  let rec7 := putU32 rec6 44 r.retainUntil
  putU32 rec7 48 r.retainTtlS

/-- The bytes `WriteRecord` stores. -/
def encode (r : SlotRecord) (valid : Bool) : Bytes :=
  putU32 (r.body valid) 4 (crc32 ((r.body valid).pread 8 (kRecBytes - 8))).toNat

/-- The entry in a record with a good checksum that is marked valid. -/
def ofBytes (rec : Bytes) : SlotRecord :=
  { key :=
      { digestHi := .ofNat (getU64 rec 16)
        digestLo := .ofNat (getU64 rec 24)
        tenantHash := .ofNat (getU64 rec 36) }
    slotSize := getU32 rec 12
    payloadLen := getU32 rec 32
    retainUntil := getU32 rec 44
    retainTtlS := getU32 rec 48 }

end SlotRecord

open SlotRecord

def checksumOk (rec : Bytes) : Bool :=
  getU32 rec 0 = kRecMagic && (crc32 (rec.pread 8 (kRecBytes - 8))).toNat = getU32 rec 4

def decode (rec : Bytes) : Option SlotRecord :=
  if checksumOk rec = true ∧ rec 8 = 1 then some (.ofBytes rec) else none

/-! ## Reading back -/

theorem getU32_congr {p : Bytes} {off : Nat} (h : ∀ i, i < off + 4 → q i = p i) :
    getU32 q off = getU32 p off :=
  congrArg getLE (pread_congr fun i hi => h (off + i) (by omega))

theorem getU64_congr {p : Bytes} {off : Nat} (h : ∀ i, i < off + 8 → q i = p i) :
    getU64 q off = getU64 p off :=
  congrArg getLE (pread_congr fun i hi => h (off + i) (by omega))

theorem decode_congr {p : Bytes} (h : ∀ i, i < kRecBytes → q i = p i) : decode q = decode p := by
  have h32 (off : Nat) (ho : off + 4 ≤ 64) : getU32 q off = getU32 p off :=
    getU32_congr fun i hi => h i (hi.trans_le ho)
  have h64 (off : Nat) (ho : off + 8 ≤ 64) : getU64 q off = getU64 p off :=
    getU64_congr fun i hi => h i (hi.trans_le ho)
  have hcrc : q.pread 8 (kRecBytes - 8) = p.pread 8 (kRecBytes - 8) :=
    pread_congr fun i hi => h (8 + i) (by unfold kRecBytes at hi ⊢; omega)
  have h8 : q 8 = p 8 := h 8 (by decide)
  simp [decode, checksumOk, ofBytes, h32, h64, hcrc, h8]

section RoundTrip

variable (r : SlotRecord) (valid : Bool)

theorem checksumOk_encode : checksumOk (r.encode valid) := by
  have hmagic : getU32 (r.encode valid) 0 = kRecMagic := by
    unfold encode body putU64
    dsimp only
    simp only [putU32]
    iterate 9 rw [getU32_pwrite (by simp)]
    exact getU32_putU32
  have hcrc : (r.encode valid).pread 8 (kRecBytes - 8) =
      (r.body valid).pread 8 (kRecBytes - 8) := by
    unfold encode putU32
    exact pread_pwrite_apart (by simp)
  have hfield : getU32 (r.encode valid) 4 =
      (crc32 ((r.body valid).pread 8 (kRecBytes - 8))).toNat := by
    rw [encode, getU32_putU32]
    exact Nat.mod_eq_of_lt (UInt32.toNat_lt _)
  simp [checksumOk, hmagic, hcrc, hfield]

theorem encode_flag : r.encode valid 8 = if valid then 1 else 0 := by
  unfold encode body putU64 putU32
  dsimp only
  iterate 8 rw [pwrite_of_apart (by simp)]
  exact pwrite_add (i := 0) (by simp)

theorem ofBytes_encode : ofBytes (r.encode valid) =
    { key := r.key
      slotSize := r.slotSize % 2 ^ 32
      payloadLen := r.payloadLen % 2 ^ 32
      retainUntil := r.retainUntil % 2 ^ 32
      retainTtlS := r.retainTtlS % 2 ^ 32 } := by
  have hword (x : UInt64) : UInt64.ofNat (x.toNat % 2 ^ 64) = x := by
    rw [Nat.mod_eq_of_lt x.toNat_lt, UInt64.ofNat_toNat]
  have h32 (p : Bytes) (off v : Nat) : getU32 (p.pwrite off (putLE 4 v)) off = v % 2 ^ 32 :=
    getU32_putU32
  have h64 (p : Bytes) (off v : Nat) : getU64 (p.pwrite off (putLE 8 v)) off = v % 2 ^ 64 :=
    getU64_putU64
  -- each field is written once, and the other fields lie apart from it
  simp (disch := simp) only [ofBytes, encode, body, putU32, putU64,
    getU32_pwrite, getU64_pwrite, h32, h64, hword]

theorem decode_encode : decode (r.encode true) = some
    { key := r.key
      slotSize := r.slotSize % 2 ^ 32
      payloadLen := r.payloadLen % 2 ^ 32
      retainUntil := r.retainUntil % 2 ^ 32
      retainTtlS := r.retainTtlS % 2 ^ 32 } := by
  simp [decode, checksumOk_encode, encode_flag, ofBytes_encode]

theorem decode_encode_invalid : decode (r.encode false) = none := by
  simp [decode, encode_flag]

end RoundTrip

theorem decode_zero : decode (fun _ => 0) = none := by
  simp [decode]

-- the 64 bytes are never to be unfolded again
attribute [irreducible] encode decode

end DingoCache.Store
