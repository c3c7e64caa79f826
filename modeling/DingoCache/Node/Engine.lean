import DingoCache.Store.Read

/-!
# Storage Engines behind a Node

The reads of the file engine (`kv_store.cc`) and of the slab engine, as the one
interface `StoreEngine` through which a node reads.
-/

namespace DingoCache.Node

open Slab Store List

/-! ## The file engine -/

def alignDown (x : Nat) : Nat := x / 4096 * 4096

/-- `AlignUp`; `none` on overflow. -/
def alignUp (x : Nat) : Option Nat :=
  if 2 ^ 64 - 1 - 4095 < x then none else some ((x + 4095) / 4096 * 4096)

/-- `PreadRangeDirectTo` with an aligned buffer of `ioCap` bytes: the pages around the range, which
may end behind the file, and from them the range. -/
def preadRangeDirectTo (file : List UInt8) (offset n ioCap : Nat) : Option (List UInt8) :=
  match alignUp (offset + n) with
  | none => none
  | some aend =>
    let alen := aend - alignDown offset
    let head := offset - alignDown offset
    let buf := (file.drop (alignDown offset)).take alen
    if ioCap < alen then none
    else if buf.length < head + n then none
    else some ((buf.drop head).take n)

/-- `PreadRangeDirect`, which brings its own buffer. -/
def preadRangeDirect (file : List UInt8) (offset n : Nat) : Option (List UInt8) :=
  match alignUp (offset + n) with
  | none => none
  | some aend => preadRangeDirectTo file offset n (aend - alignDown offset)

/-- `KVStore` as its reads see it: the file of every key in the index. -/
structure KVStore where
  healthy : Bool := true
  index : BlockKey → Option (List UInt8)
  /-- A file is not longer than an `off_t` can say. -/
  size_lt : ∀ k file, index k = some file → file.length < 2 ^ 63

/-- What a read of `n` bytes returns. -/
def readStatus (file : List UInt8) (n : Nat) (data : Option (List UInt8)) : Answer :=
  if n = 0 then ⟨.ok, [], file.length⟩
  else
    match data with
    | none => { status := .ioError }
    | some data => ⟨.ok, data, file.length⟩

namespace KVStore

/-- `Range`, `RangeInto`, `RangeDirect`, and `RangeDirectPrep` with the read it prepares. -/
def read (e : KVStore) (job : ReadJob) : Answer :=
  if e.healthy = false then { status := .ioError }
  else
    match e.index job.key with
    | none => { status := .notFound }
    | some file =>
      let n := job.span file.length
      if file.length < job.offset then { status := .invalid }
      else
        match job.kind with
        | .range => readStatus file n (preadRangeDirect file job.offset n)
        | .rangeInto =>
          let n := min n job.cap
          readStatus file n (preadRangeDirect file job.offset n)
        | .rangeDirect aligned =>
          readStatus file n
            (if aligned then preadRangeDirectTo file job.offset n job.cap else none)
        | .rangeDirectPrep => readStatus file n (preadRangeDirectTo file job.offset n job.cap)

end KVStore

section Aligned

variable {file : List UInt8} {offset n ioCap : Nat}

theorem alignUp_eq (h : offset + n < 2 ^ 63) :
    alignUp (offset + n) = some (alignDown offset + padLen (offset % 4096 + n)) := by
  unfold alignUp
  rw [if_neg (by omega), Option.some.injEq]
  unfold alignDown padLen
  omega

/-- The aligned read delivers the range if its pages fit the buffer. -/
theorem preadRangeDirectTo_eq (hsize : file.length < 2 ^ 63) (h : offset + n ≤ file.length) :
    preadRangeDirectTo file offset n ioCap =
      if ioCap < padLen (offset % 4096 + n) then none else some ((file.drop offset).take n) := by
  unfold preadRangeDirectTo
  rw [alignUp_eq (by omega)]
  have hhead : offset - alignDown offset = offset % 4096 := by
    unfold alignDown
    omega
  have hback : alignDown offset + offset % 4096 = offset := by
    unfold alignDown
    omega
  have hpad := le_padLen (offset % 4096 + n)
  dsimp only
  rw [Nat.add_sub_cancel_left, hhead]
  -- The pages contain the range, also where they end behind the file.
  have hbuf : ¬((file.drop (alignDown offset)).take (padLen (offset % 4096 + n))).length <
      offset % 4096 + n := by
    rw [length_take, length_drop]
    omega
  have hdata : (((file.drop (alignDown offset)).take (padLen (offset % 4096 + n))).drop
      (offset % 4096)).take n = (file.drop offset).take n := by
    rw [drop_take, drop_drop, hback, take_take, Nat.min_eq_left (by omega)]
  rw [if_neg hbuf, hdata]

theorem preadRangeDirect_eq (hsize : file.length < 2 ^ 63) (h : offset + n ≤ file.length) :
    preadRangeDirect file offset n = some ((file.drop offset).take n) := by
  unfold preadRangeDirect
  rw [alignUp_eq (by omega)]
  dsimp only
  rw [preadRangeDirectTo_eq hsize h, Nat.add_sub_cancel_left, if_neg (by omega)]

end Aligned

/-! ## Both engines -/

/-- `StoreEngine`. -/
inductive Engine where
  | slab (store : DiskSlabStore)
  | file (store : KVStore)

namespace Engine

def read : Engine → ReadJob → Answer
  | slab s, job => s.readAlone job
  | file s, job => s.read job

def value : Engine → BlockKey → Option (List UInt8)
  | slab s, key => if s.failed then none else s.value key
  | file s, key => if s.healthy then s.index key else none

def Consistent : Engine → Prop
  | slab s => s.Inv
  | file _ => True

/-- The calls that read whole pages into the buffer of the caller or not at all. A `RangeDirect` of
the slab engine falls back to a read of just the range. -/
def needsPages : Engine → ReadKind → Bool
  | _, .rangeDirectPrep => true
  | file _, .rangeDirect _ => true
  | _, _ => false

/-- The pages of such a call do not fit. -/
def Refuses (e : Engine) (job : ReadJob) (v : List UInt8) : Prop :=
  e.needsPages job.kind = true ∧ job.Narrow v

instance (e : Engine) (job : ReadJob) (v : List UInt8) : Decidable (e.Refuses job v) :=
  inferInstanceAs (Decidable (_ ∧ _))

def refusal : Engine → Status
  | slab _ => .invalid
  | file _ => .ioError

end Engine

/-! ## What the engines answer -/

section Answers

variable {v : List UInt8} {job : ReadJob}

theorem slice_ne_nil (hle : job.offset ≤ v.length) :
    slice v job.offset job.length = [] ↔ job.offset = v.length := by
  rw [← length_eq_zero_iff, length_slice]
  split <;> omega

theorem take_slice {m : Nat} (hm : m ≤ (slice v job.offset job.length).length) :
    (v.drop job.offset).take m = (slice v job.offset job.length).take m := by
  rw [slice_eq, take_take, Nat.min_eq_left (span_eq job v ▸ hm)]

theorem readStatus_some {file data : List UInt8} {n : Nat} (h : n = 0 → data = []) :
    readStatus file n (some data) = ⟨.ok, data, file.length⟩ := by
  unfold readStatus
  split
  · rw [h ‹_›]
  · rfl

theorem readStatus_own (hsize : v.length < 2 ^ 63) (hle : job.offset ≤ v.length) {m : Nat}
    (hm : m ≤ (slice v job.offset job.length).length) :
    readStatus v m (preadRangeDirect v job.offset m) =
      ⟨.ok, (slice v job.offset job.length).take m, v.length⟩ := by
  have hfit : job.offset + m ≤ v.length := by
    rw [length_slice] at hm
    split at hm <;> omega
  rw [preadRangeDirect_eq hsize hfit, take_slice hm]
  exact readStatus_some fun h => by rw [h, take_zero]

theorem readStatus_direct (hsize : v.length < 2 ^ 63) (hle : job.offset ≤ v.length) :
    readStatus v (slice v job.offset job.length).length
        (preadRangeDirectTo v job.offset (slice v job.offset job.length).length job.cap) =
      if job.Narrow v then { status := .ioError }
      else ⟨.ok, slice v job.offset job.length, v.length⟩ := by
  have hfit : job.offset + (slice v job.offset job.length).length ≤ v.length := by
    rw [length_slice]
    split <;> omega
  rw [preadRangeDirectTo_eq hsize hfit, take_slice le_rfl, take_length]
  by_cases heq : job.offset = v.length
  · -- Nothing is read at the end of the value, whatever the buffer.
    have hnil := (slice_ne_nil hle).mpr heq
    rw [if_neg fun h : job.Narrow v => h.1 heq, hnil]
    rfl
  · have hne : (slice v job.offset job.length).length ≠ 0 :=
      fun h => heq ((slice_ne_nil hle).mp (length_eq_zero_iff.mp h))
    by_cases hcap : job.cap < padLen (job.offset % 4096 + (slice v job.offset job.length).length)
    · have hnarrow : job.Narrow v := ⟨heq, hcap⟩
      rw [if_pos hcap, if_pos hnarrow]
      unfold readStatus
      rw [if_neg hne]
    · rw [if_neg hcap, if_neg fun h : job.Narrow v => hcap h.2]
      exact readStatus_some fun h => absurd h hne

theorem take_cap_of_not_narrow (hle : job.offset ≤ v.length) (h : ¬job.Narrow v) :
    (slice v job.offset job.length).take job.cap = slice v job.offset job.length := by
  by_cases heq : job.offset = v.length
  · rw [(slice_ne_nil hle).mpr heq, take_nil]
  · have hcap := Nat.le_of_not_lt fun hcap => h ⟨heq, hcap⟩
    have := le_padLen (job.offset % 4096 + (slice v job.offset job.length).length)
    exact take_of_length_le (by omega)

end Answers

/-- The file engine answers with the range, cut to the buffer of `RangeInto`, and refuses a direct
read whose pages do not fit. -/
theorem KVStore.read_eq {e : KVStore} {job : ReadJob} {v : List UInt8} (hh : e.healthy)
    (hv : e.index job.key = some v) (hal : job.kind ≠ .rangeDirect false) :
    e.read job =
      if v.length < job.offset then { status := .invalid }
      else if (Engine.file e).Refuses job v then { status := .ioError }
      else ⟨.ok, job.delivered v, v.length⟩ := by
  have hsize := e.size_lt _ _ hv
  unfold KVStore.read
  rw [if_neg (by simp [hh]), hv]
  dsimp only
  by_cases hlt : v.length < job.offset
  · rw [if_pos hlt, if_pos hlt]
  rw [if_neg hlt, if_neg hlt, span_eq]
  have hle := Nat.le_of_not_lt hlt
  unfold ReadJob.delivered
  cases hk : job.kind with
  | range =>
    rw [if_neg (by simp [Engine.Refuses, hk, Engine.needsPages])]
    rw [readStatus_own hsize hle le_rfl, take_length]
  | rangeInto =>
    rw [if_neg (by simp [Engine.Refuses, hk, Engine.needsPages])]
    rw [readStatus_own hsize hle (Nat.min_le_left _ _), Nat.min_comm, ← take_take, take_length]
  | rangeDirect aligned =>
    obtain rfl : aligned := by
      cases aligned
      · exact absurd hk hal
      · rfl
    have hiff : (Engine.file e).Refuses job v ↔ job.Narrow v := by
      simp [Engine.Refuses, hk, Engine.needsPages]
    dsimp only
    rw [if_pos rfl, readStatus_direct hsize hle]
    by_cases hnarrow : job.Narrow v
    · rw [if_pos hnarrow, if_pos (hiff.mpr hnarrow)]
    · rw [if_neg hnarrow, if_neg (hnarrow ∘ hiff.mp), take_cap_of_not_narrow hle hnarrow]
  | rangeDirectPrep =>
    have hiff : (Engine.file e).Refuses job v ↔ job.Narrow v := by
      simp [Engine.Refuses, hk, Engine.needsPages]
    simp only [hiff]
    exact readStatus_direct hsize hle

namespace Engine

variable {e : Engine} {job : ReadJob} {v : List UInt8}

theorem read_eq (hc : e.Consistent) (hv : e.value job.key = some v)
    (hal : job.kind ≠ .rangeDirect false) :
    e.read job =
      if v.length < job.offset then { status := .invalid }
      else if e.Refuses job v then { status := e.refusal }
      else ⟨.ok, job.delivered v, v.length⟩ := by
  cases e with
  | slab s =>
    have hf : s.failed = false := by
      by_contra h
      simp [value, h] at hv
    have hv : s.value job.key = some v := by simpa [value, hf] using hv
    rw [read, s.readAlone_eq hc hf job hv, ReadJob.answer]
    have hiff : (job.kind = .rangeDirectPrep ∧ job.Narrow v) ↔ (slab s).Refuses job v := by
      unfold Refuses
      cases job.kind <;> simp [needsPages]
    simp only [hiff, refusal]
  | file s =>
    have hh : s.healthy := by
      by_contra h
      simp [value, h] at hv
    have hv : s.index job.key = some v := by simpa [value, hh] using hv
    exact KVStore.read_eq hh hv hal

theorem read_none (hc : e.Consistent) {key : BlockKey} (hv : e.value key = none) :
    ∃ st, (st = .notFound ∨ st = .ioError) ∧ ∀ job : ReadJob, job.key = key →
      e.read job = { status := st } := by
  cases e with
  | slab s =>
    by_cases hf : s.failed
    · exact ⟨.ioError, .inr rfl, fun job _ => by simp [read, DiskSlabStore.readAlone, hf]⟩
    · have hv : s.value key = none := by simpa [value, hf] using hv
      refine ⟨.notFound, .inl rfl, fun job hkey => ?_⟩
      exact s.readAlone_none hc (by simpa using hf) (hkey ▸ hv)
  | file s =>
    by_cases hh : s.healthy
    · have hv : s.index key = none := by simpa [value, hh] using hv
      refine ⟨.notFound, .inl rfl, fun job hkey => ?_⟩
      simp [read, KVStore.read, hh, hkey, hv]
    · exact ⟨.ioError, .inr rfl, fun job _ => by simp [read, KVStore.read, hh]⟩

end Engine

end DingoCache.Node
