import DingoCache.Library.Interleaving
import DingoCache.Transport.RecvSegment

/-!
# The Pool of Receive Segments

`RecvSegmentPool` of `src/transport/rdma_recv_segment.cc`: chunks of memory, each a
`RecvSegment`, taken up to a maximum and given back when they stay empty.  The calls of
several threads interleave: `Allocate`, `NoteRelease` and `TrimIdle` hold the lock of the
pool, but a lease goes back to its segment under the segment's own lock, at any time.

- `PoolState.step`: the steps of the threads.
-/

namespace DingoCache.Transport

open Library List

variable {chunk : Chunk} {i : Nat} {request : Request} {memory : Memory}

/-! ## The pool -/

inductive LeaseClass where
  | connection
  | staging
deriving DecidableEq

/-- `RecvSegmentPool::Chunk`, with the address of its segment object. -/
structure Chunk where
  ptr : Nat
  segment : RecvSegment
  affinity : Int := -1
  stagingOnly : Bool := false
  emptySinceMs : Nat := 0
deriving DecidableEq

structure RecvSegmentPool where
  chunkBytes : Nat := 0
  maxBytes : Nat := 0
  stagingReserveBytes : Nat := 0
  alignment : Nat := 0
  chunks : List Chunk := []
deriving DecidableEq

/-- What the allocator gives for a chunk: the segment object, and its memory unless there is none
left. -/
structure Memory where
  ptr : Nat
  data : Option Nat
deriving DecidableEq

/-- The reserve that `Init` keeps. -/
def alignedReserve (stagingReserveBytes alignment : Nat) : Nat :=
  if stagingReserveBytes = 0 then 0 else alignUpChecked stagingReserveBytes alignment

def RecvSegmentPool.init (pool : RecvSegmentPool)
    (chunkBytes maxBytes alignment stagingReserveBytes : Nat) (memory : Memory) :
    RecvSegmentPool × Bool :=
  if isPowerOfTwo alignment = false ∨ alignment < 8 ∨ chunkBytes = 0 ∨ maxBytes = 0 then
    (pool, false)
  else
    let alignedChunk := alignUpChecked chunkBytes alignment
    let alignedMax := alignUpChecked maxBytes alignment
    let reserve := alignedReserve stagingReserveBytes alignment
    if alignedChunk = sizeMax ∨ alignedMax = sizeMax ∨ reserve = sizeMax ∨
        alignedMax < alignedChunk ∨
        (reserve ≠ 0 ∧ (reserve ≠ alignedChunk ∨ reserve = alignedMax)) then
      (pool, false)
    else if pool.chunks ≠ [] then
      (pool, pool.chunkBytes == alignedChunk && pool.maxBytes == alignedMax &&
        pool.alignment == alignment && pool.stagingReserveBytes == reserve)
    else
      let segment := RecvSegment.init {} alignedChunk alignment memory.data
      if segment.2 = false then
        ({ pool with
            chunkBytes := 0, maxBytes := 0, alignment := 0, stagingReserveBytes := 0 }, false)
      else
        ({ chunkBytes := alignedChunk
           maxBytes := alignedMax
           stagingReserveBytes := reserve
           alignment
           chunks := [{ ptr := memory.ptr, segment := segment.1,
                        stagingOnly := reserve != 0 }] }, true)

variable (ptr : Nat) (pool : RecvSegmentPool) (s : PoolState)

def RecvSegmentPool.committed : Nat :=
  (pool.chunks.map fun c => c.segment.size).sum

/-- The size of a further chunk, if the maximum allows one. -/
def RecvSegmentPool.growBytes (minimumBytes : Nat) : Option Nat :=
  let alignedMin := alignUpChecked minimumBytes pool.alignment
  if alignedMin = sizeMax then none
  else if pool.maxBytes ≤ pool.committed ∨ pool.maxBytes - pool.committed < alignedMin then none
  else some (min (max pool.chunkBytes alignedMin) (pool.maxBytes - pool.committed))

def RecvSegmentPool.newChunk (minimumBytes : Nat) (affinity : Int)
    (memory : Memory) : Option Chunk :=
  match pool.growBytes minimumBytes with
  | none => none
  | some bytes =>
    let segment := RecvSegment.init {} bytes pool.alignment memory.data
    if segment.2 = false then none
    else some { ptr := memory.ptr, segment := segment.1, affinity }

/-- New memory overlaps no memory in use, and has an end that is an address. -/
def RecvSegmentPool.Allows (bytes : Nat) (memory : Memory) : Prop :=
  (∀ c ∈ pool.chunks, c.ptr ≠ memory.ptr) ∧
    ∀ data ∈ memory.data, data ≠ 0 ∧ data + bytes ≤ sizeMax ∧
      ∀ c ∈ pool.chunks, Apart (c.segment.data, c.segment.size) (data, bytes)

instance (a b : Nat × Nat) : Decidable (Apart a b) :=
  inferInstanceAs (Decidable (_ ∨ _))

instance (pool : RecvSegmentPool) (bytes : Nat) (memory : Memory) :
    Decidable (pool.Allows bytes memory) :=
  inferInstanceAs (Decidable (_ ∧ _))

/-- `NoteRelease` on the chunks. -/
def noteRelease (ptr nowMs : Nat) : List Chunk → List Chunk
  | [] => []
  | chunk :: chunks =>
    if chunk.ptr ≠ ptr then chunk :: noteRelease ptr nowMs chunks
    else if chunk.segment.usedBytes = 0 then { chunk with emptySinceMs := nowMs } :: chunks
    else chunk :: chunks

/-! ## Leases and threads -/

/-- `RecvSegment::Lease`. -/
structure SegmentLease where
  owner : Option Nat := none
  offset : Nat := 0
  size : Nat := 0
deriving DecidableEq

/-- `RecvSegmentPool::Lease`; there is one pool, so its pointer is null or not. -/
structure PoolLease where
  pool : Bool := false
  lease : SegmentLease := {}
  segment : Option Nat := none
deriving DecidableEq

/-- The arguments of `Allocate`. -/
structure Request where
  bytes : Nat
  alignment : Nat
  affinity : Int := -1
  leaseClass : LeaseClass := .connection
deriving DecidableEq

/-- A variable that holds a lease, with the request that the lease was granted for. -/
structure Holder where
  lease : PoolLease := {}
  request : Request
deriving DecidableEq

def Holder.empty (request : Request) : Holder := { request }

def Holder.granted (ptr start : Nat) (request : Request) : Holder where
  lease := { pool := true, lease := { owner := some ptr, offset := start, size := request.bytes },
             segment := some ptr }
  request := request

/-- A call of `Allocate` that holds the lock: the rounds of `try_chunks` to go, each with its
affinity and whether it is for the reserve, and the next chunk of the first. -/
structure Attempt where
  request : Request
  rounds : List (Int × Bool)
  next : Nat := 0
deriving DecidableEq

/-- A call of `TrimIdle` that holds the lock. -/
structure Trim where
  idleMs : Nat
  nowMs : Nat
  i : Nat
deriving DecidableEq

/-- Who holds the lock of the pool. -/
inductive PoolLock where
  | free
  | allocating (attempt : Attempt)
  | trimming (trim : Trim)
deriving DecidableEq

/-- The pool, the holders, the segments that a lease went back to but that are not noted yet, and
the lock. -/
structure PoolState where
  pool : RecvSegmentPool
  holders : List Holder := []
  pending : List Nat := []
  lock : PoolLock := .free
deriving DecidableEq

/-- A step of some thread. A lease is reset, or destroyed, by `release` and then `note`, and
assigned by that and then `assign`. -/
inductive PoolLabel where
  | allocate (request : Request)
  | tryChunk
  | grow (memory : Memory)
  | release (i : Nat)
  | note (k nowMs : Nat)
  | construct (src : Nat)
  | assign (dst src : Nat)
  | trimIdle (idleMs nowMs : Nat)
  | trimChunk
deriving DecidableEq

/-- The rounds of `try_chunks` for a request. -/
def RecvSegmentPool.rounds (request : Request) : List (Int × Bool) :=
  (if request.leaseClass = .staging ∧ pool.stagingReserveBytes ≠ 0 then [(-1, true)] else []) ++
    (if 0 ≤ request.affinity then [(request.affinity, false)] else []) ++ [(-1, false)]

/-- `Allocate` returns. -/
def PoolState.return (chunks : List Chunk) (holder : Holder) : PoolState :=
  { s with
    pool := { s.pool with chunks }
    holders := s.holders ++ [holder]
    lock := .free }

/-- `Allocate` up to the lock. -/
def PoolState.allocate (request : Request) : Option PoolState :=
  if request.bytes = 0 ∨ isPowerOfTwo request.alignment = false then
    some { s with holders := s.holders ++ [.empty request] }
  else
    match s.lock with
    | .free => some { s with lock := .allocating { request, rounds := s.pool.rounds request } }
    | .allocating _ => none
    | .trimming _ => none

/-- One chunk of one round of `try_chunks`. -/
def PoolState.tryRound (a : Attempt) (wanted : Int × Bool)
    (rounds : List (Int × Bool)) : PoolState :=
  match s.pool.chunks[a.next]? with
  | none => { s with lock := .allocating { a with rounds, next := 0 } }
  | some chunk =>
    if chunk.affinity ≠ wanted.1 ∨ chunk.stagingOnly ≠ wanted.2 then
      { s with lock := .allocating { a with next := a.next + 1 } }
    else
      match chunk.segment.allocate a.request.bytes a.request.alignment with
      | none => { s with lock := .allocating { a with next := a.next + 1 } }
      | some (start, segment) =>
        s.return (s.pool.chunks.set a.next { chunk with segment, emptySinceMs := 0 })
          (.granted chunk.ptr start a.request)

def PoolState.tryChunk : Option PoolState :=
  match s.lock with
  | .allocating a =>
    match a.rounds with
    | [] => none
    | wanted :: rounds => some (s.tryRound a wanted rounds)
  | .free => none
  | .trimming _ => none

/-- The end of `Allocate` when no chunk has room: a further chunk, if there can be one. -/
def PoolState.growFor (request : Request) (memory : Memory) : PoolState :=
  match s.pool.newChunk request.bytes request.affinity memory with
  | none => s.return s.pool.chunks (.empty request)
  | some chunk =>
    match chunk.segment.allocate request.bytes request.alignment with
    | none => s.return (s.pool.chunks ++ [chunk]) (.empty request)
    | some (start, segment) =>
      s.return (s.pool.chunks ++ [{ chunk with segment }]) (.granted chunk.ptr start request)

def PoolState.grow (memory : Memory) : Option PoolState :=
  match s.lock with
  | .allocating a =>
    match a.rounds with
    | [] =>
      if s.pool.Allows ((s.pool.growBytes a.request.bytes).getD 0) memory then
        some (s.growFor a.request memory)
      else none
    | _ :: _ => none
  | .free => none
  | .trimming _ => none

/-- The part of `Lease::Reset` under the lock of the segment. -/
def PoolState.release (s : PoolState) (i : Nat) : Option PoolState :=
  s.holders[i]?.map fun holder =>
    { s with
      pool := { s.pool with
        chunks := s.pool.chunks.map fun c =>
          if holder.lease.lease.owner = some c.ptr then
            { c with
              segment := c.segment.release holder.lease.lease.offset holder.lease.lease.size }
          else c }
      holders := s.holders.set i (.empty holder.request)
      pending := if holder.lease.pool then s.pending ++ holder.lease.segment.toList else s.pending }

/-- `NoteRelease` of one of the segments that wait for it. -/
def PoolState.note (k nowMs : Nat) : Option PoolState :=
  match s.lock with
  | .free =>
    s.pending[k]?.map fun ptr =>
      { s with
        pool := { s.pool with chunks := noteRelease ptr nowMs s.pool.chunks }
        pending := s.pending.eraseIdx k }
  | .allocating _ => none
  | .trimming _ => none

/-- The move constructor: a new holder takes the lease. -/
def PoolState.construct (src : Nat) : Option PoolState :=
  s.holders[src]?.map fun holder =>
    { s with holders := s.holders.set src (.empty holder.request) ++ [holder] }

/-- The end of a move assignment: a holder that has been reset takes the lease. -/
def PoolState.assign (dst src : Nat) : Option PoolState :=
  if dst = src then some s
  else
    match s.holders[dst]?, s.holders[src]? with
    | some target, some holder =>
      if target.lease = {} then
        some { s with holders := (s.holders.set src (.empty holder.request)).set dst holder }
      else none
    | _, _ => none

/-- `TrimIdle` up to the lock. -/
def PoolState.trimIdle (idleMs nowMs : Nat) : Option PoolState :=
  if idleMs = 0 then some s
  else
    match s.lock with
    | .free => some { s with lock := .trimming { idleMs, nowMs, i := s.pool.chunks.length } }
    | .allocating _ => none
    | .trimming _ => none

/-- The chunks after the loop body of `TrimIdle` on one of them. -/
def trimOne (chunks : List Chunk) (t : Trim) (chunk : Chunk) : List Chunk :=
  if chunk.segment.usedBytes ≠ 0 then chunks.set (t.i - 1) { chunk with emptySinceMs := 0 }
  else if chunk.emptySinceMs = 0 then chunks.set (t.i - 1) { chunk with emptySinceMs := t.nowMs }
  else if (t.nowMs + 2 ^ 64 - chunk.emptySinceMs) % 2 ^ 64 < t.idleMs then chunks
  else chunks.eraseIdx (t.i - 1)

/-- One turn of the loop of `TrimIdle`, or its end. -/
def PoolState.trimChunk : Option PoolState :=
  match s.lock with
  | .trimming t =>
    if t.i ≤ 1 then some { s with lock := .free }
    else
      s.pool.chunks[t.i - 1]?.map fun chunk =>
        { s with
          pool := { s.pool with chunks := trimOne s.pool.chunks t chunk }
          lock := .trimming { t with i := t.i - 1 } }
  | .free => none
  | .allocating _ => none

def PoolState.step : PoolLabel → Option PoolState
  | .allocate request => s.allocate request
  | .tryChunk => s.tryChunk
  | .grow memory => s.grow memory
  | .release i => s.release i
  | .note k nowMs => s.note k nowMs
  | .construct src => s.construct src
  | .assign dst src => s.assign dst src
  | .trimIdle idleMs nowMs => s.trimIdle idleMs nowMs
  | .trimChunk => s.trimChunk

/-! ## What is held in a segment -/

def Holder.range (h : Holder) : Nat × Nat := (h.lease.lease.offset, h.lease.lease.size)

def heldIn (holders : List Holder) : List (Nat × Nat) :=
  (holders.filter fun h => decide (h.lease.lease.owner = some ptr)).map Holder.range

theorem heldIn_congr {holders holders' : List Holder} (h : holders.Perm holders') (ptr : Nat) :
    (heldIn ptr holders).Perm (heldIn ptr holders') :=
  (h.filter _).map _

theorem heldIn_cons (h : Holder) (holders : List Holder) : heldIn ptr (h :: holders) =
      if h.lease.lease.owner = some ptr then h.range :: heldIn ptr holders
      else heldIn ptr holders := by
  unfold heldIn
  by_cases hown : h.lease.lease.owner = some ptr
  · simp [hown]
  · simp [hown]

theorem heldIn_of_null {h : Holder} (hnull : h.lease = {}) (ptr : Nat) (holders : List Holder) :
    heldIn ptr (h :: holders) = heldIn ptr holders := by
  simp [heldIn_cons, hnull]

@[simp] theorem heldIn_empty (request : Request) (holders : List Holder) :
    heldIn ptr (.empty request :: holders) = heldIn ptr holders :=
  heldIn_of_null rfl ptr holders

/-- A holder without a lease adds nothing. -/
theorem heldIn_append_empty (holders : List Holder) (request : Request) (ptr : Nat) :
    (heldIn ptr holders).Perm (heldIn ptr (holders ++ [.empty request])) := by
  have hcons := heldIn_congr (perm_append_singleton (Holder.empty request) holders) ptr
  rw [heldIn_empty] at hcons
  exact hcons.symm

theorem heldIn_granted (ptr owner start : Nat) (request : Request) (holders : List Holder) :
    heldIn ptr (.granted owner start request :: holders) =
      if owner = ptr then (start, request.bytes) :: heldIn ptr holders
      else heldIn ptr holders := by
  simp [heldIn_cons, Holder.granted, Holder.range]

theorem perm_set {α : Type} {l : List α} {a : α} (h : l[i]? = some a) (b : α) :
    l.Perm (a :: l.eraseIdx i) ∧ (l.set i b).Perm (b :: l.eraseIdx i) := by
  obtain ⟨hi, rfl⟩ := List.getElem?_eq_some_iff.mp h
  exact ⟨(getElem_cons_eraseIdx_perm hi).symm, set_perm_cons_eraseIdx hi b⟩

/-! ## The invariant -/

/-- What no step changes in a chunk. -/
structure Shape where
  ptr : Nat
  data : Nat
  size : Nat
  affinity : Int
  stagingOnly : Bool
deriving DecidableEq

def Chunk.shape (c : Chunk) : Shape where
  ptr := c.ptr
  data := c.segment.data
  size := c.segment.size
  affinity := c.affinity
  stagingOnly := c.stagingOnly

@[simp] theorem Chunk.shape_ptr (c : Chunk) : c.shape.ptr = c.ptr := rfl

/-- The chunks of a pool that began with the given one: they are different objects, with memory of
their own, within the maximum. -/
structure ShapeInv (first : Shape) (maxBytes : Nat) (shapes : List Shape) : Prop where
  ptrs : (shapes.map Shape.ptr).Nodup
  blocks : shapes.Pairwise fun c d => Apart (c.data, c.size) (d.data, d.size)
  memory : ∀ c ∈ shapes, c.data ≠ 0 ∧ c.data + c.size ≤ sizeMax
  committed : (shapes.map Shape.size).sum ≤ maxBytes
  first : ∃ rest, shapes = first :: rest ∧ ∀ c ∈ rest, c.stagingOnly = false

/-- A holder has no lease, or one in a chunk of the pool, as requested. -/
inductive Holds (shapes : List Shape) (h : Holder) : Prop where
  | empty (hnone : h.lease = {})
  | granted (c : Shape) (start : Nat) (hmem : c ∈ shapes) (hlease : h = .granted c.ptr
    start h.request)
      (haligned : (c.data + start) % h.request.alignment = 0)
      (hclass : c.stagingOnly = true → h.request.leaseClass = .staging)

/-- The invariant of the pool. -/
structure PoolInv (first : Shape) (maxBytes : Nat) (s : PoolState) : Prop where
  shapes : ShapeInv first maxBytes (s.pool.chunks.map Chunk.shape)
  maximum : s.pool.maxBytes = maxBytes
  reserve : first.stagingOnly = decide (s.pool.stagingReserveBytes ≠ 0) ∧ first.affinity = -1
  parted : ∀ c ∈ s.pool.chunks, SegmentInv c.segment (heldIn c.ptr s.holders)
  holds : ∀ h ∈ s.holders, Holds (s.pool.chunks.map Chunk.shape) h
  rounds : ∀ a, s.lock = .allocating a → ∀ w, (w, true) ∈ a.rounds → a.request.leaseClass = .staging

theorem ShapeInv.inj {first : Shape} {maxBytes : Nat} {shapes : List Shape}
    (h : ShapeInv first maxBytes shapes) {c d : Shape} (hc : c ∈ shapes) (hd : d ∈ shapes)
    (heq : c.ptr = d.ptr) : c = d :=
  inj_on_of_nodup_map h.ptrs hc hd heq

section Steps

variable {first : Shape} {maxBytes : Nat} {s : PoolState}

theorem PoolInv.moved (h : PoolInv first maxBytes s) {holders : List Holder} {lock : PoolLock}
    (hheld : ∀ ptr, (heldIn ptr s.holders).Perm (heldIn ptr holders))
    (hholders : ∀ x ∈ holders, x.lease = {} ∨ x ∈ s.holders)
    (hlock : ∀ a, lock = .allocating a → ∀ w, (w, true) ∈ a.rounds →
      a.request.leaseClass = .staging) (pending : List Nat) :
    PoolInv first maxBytes { s with holders, lock, pending } where
  shapes := h.shapes
  maximum := h.maximum
  reserve := h.reserve
  parted := fun c hc => (h.parted c hc).congr (hheld c.ptr)
  holds := fun x hx => (hholders x hx).elim .empty (h.holds x)
  rounds := hlock

/-- The chunks change only in how long they have been empty. -/
theorem PoolInv.noted (h : PoolInv first maxBytes s) {chunks : List Chunk}
    (hcores : chunks.map (fun c => (c.shape, c.segment)) =
      s.pool.chunks.map (fun c => (c.shape, c.segment))) :
    PoolInv first maxBytes { s with pool := { s.pool with chunks } } := by
  have hshapes : chunks.map Chunk.shape = s.pool.chunks.map Chunk.shape := by
    have := congrArg (map Prod.fst) hcores
    simpa [map_map, Function.comp_def] using this
  refine ⟨?_, h.maximum, h.reserve, fun c hc => ?_, ?_, h.rounds⟩
  · simp only [hshapes]
    exact h.shapes
  · have hmem : (c.shape, c.segment) ∈ s.pool.chunks.map fun c => (c.shape, c.segment) := by
      rw [← hcores]
      exact mem_map_of_mem hc
    obtain ⟨d, hd, heq⟩ := mem_map.mp hmem
    obtain ⟨hshape, hsegment⟩ := Prod.mk.inj heq
    have hptr : d.ptr = c.ptr := congrArg Shape.ptr hshape
    rw [← hsegment, ← hptr]
    exact h.parted d hd
  · simp only [hshapes]
    exact h.holds

theorem map_noteRelease (ptr nowMs : Nat) (chunks : List Chunk) :
    (noteRelease ptr nowMs chunks).map (fun c => (c.shape, c.segment)) =
      chunks.map (fun c => (c.shape, c.segment)) := by
  induction chunks with
  | nil => rfl
  | cons c chunks ih =>
    unfold noteRelease
    split
    · rw [map_cons, map_cons, ih]
    · split <;> rfl

theorem map_set_same {α β : Type} {l : List α} {a b : α} (f : α → β) (h : l[i]? = some a)
    (hf : f b = f a) : (l.set i b).map f = l.map f := by
  obtain ⟨hi, rfl⟩ := List.getElem?_eq_some_iff.mp h
  have hi' : i < (l.map f).length := by simpa using hi
  have hmap : f l[i] = (l.map f)[i] := (getElem_map f).symm
  rw [map_set, hf, hmap, set_getElem_self]

theorem PoolInv.heldIn_of_fresh (h : PoolInv first maxBytes s) {ptr : Nat}
    (hfresh : ∀ c ∈ s.pool.chunks, c.ptr ≠ ptr) : heldIn ptr s.holders = [] := by
  unfold heldIn
  rw [map_eq_nil_iff, filter_eq_nil_iff]
  intro x hx hown
  rcases h.holds x hx with hnone | ⟨c, start, hmem, hlease, -, -⟩
  · simp [hnone] at hown
  · obtain ⟨d, hd, rfl⟩ := mem_map.mp hmem
    rw [hlease] at hown
    exact hfresh d hd (by simpa [Holder.granted] using hown)

theorem shape_release (chunks : List Chunk) (lease : SegmentLease) :
    (chunks.map fun c => if lease.owner = some c.ptr then
      { c with segment := c.segment.release lease.offset lease.size } else c).map Chunk.shape =
      chunks.map Chunk.shape := by
  rw [map_map]
  refine map_congr_left fun d _ => ?_
  simp only [Function.comp_apply]
  split
  · simp [Chunk.shape, RecvSegment.release_data, RecvSegment.release_size]
  · rfl

theorem PoolInv.released (h : PoolInv first maxBytes s) {s' : PoolState}
    (hstep : s.release i = some s') : PoolInv first maxBytes s' := by
  obtain ⟨x, hx, rfl⟩ := Option.map_eq_some_iff.mp hstep
  obtain ⟨hperm, hset⟩ := perm_set hx (Holder.empty x.request)
  have hheld : ∀ ptr, (heldIn ptr (s.holders.set i (.empty x.request))).Perm
      (heldIn ptr (s.holders.eraseIdx i)) := fun ptr => by
    simpa using heldIn_congr hset ptr
  have hmem : ∀ y ∈ s.holders.set i (.empty x.request), y.lease = {} ∨ y ∈ s.holders := by
    intro y hy
    rcases mem_or_eq_of_mem_set hy with hy | rfl
    · exact .inr hy
    · exact .inl rfl
  rcases h.holds x (mem_of_getElem? hx) with hnone | ⟨c, start, hc, hlease, -, -⟩
  · -- An empty lease: no segment changes.
    have hsame : (s.pool.chunks.map fun c => if x.lease.lease.owner = some c.ptr then
        { c with segment := c.segment.release x.lease.lease.offset x.lease.lease.size } else c) =
        s.pool.chunks := by
      simp [hnone]
    rw [hsame]
    refine h.moved (fun ptr => ?_) hmem h.rounds _
    have hcons := heldIn_congr hperm ptr
    rw [heldIn_cons, if_neg (by simp [hnone])] at hcons
    exact hcons.trans (hheld ptr).symm
  · have hshapes := shape_release s.pool.chunks x.lease.lease
    refine ⟨?_, h.maximum, h.reserve, fun d' hd' => ?_, fun y hy => ?_, h.rounds⟩
    · simp only [hshapes]
      exact h.shapes
    · obtain ⟨d, hd, rfl⟩ := mem_map.mp hd'
      have hold := (h.parted d hd).congr (heldIn_congr hperm d.ptr)
      rw [heldIn_cons] at hold
      by_cases hown : x.lease.lease.owner = some d.ptr
      · rw [if_pos hown] at hold ⊢
        exact hold.release.congr (hheld d.ptr).symm
      · rw [if_neg hown] at hold ⊢
        exact hold.congr (hheld d.ptr).symm
    · simp only [hshapes]
      exact (hmem y hy).elim .empty (h.holds y)

theorem PoolInv.grantedIn (h : PoolInv first maxBytes s) {start : Nat} {segment : RecvSegment}
    (emptySinceMs : Nat) (hchunk : s.pool.chunks[i]? = some chunk)
    (halloc : chunk.segment.allocate request.bytes request.alignment = some (start, segment))
    (hclass : chunk.stagingOnly → request.leaseClass = .staging) :
    PoolInv first maxBytes (s.return (s.pool.chunks.set i { chunk with segment, emptySinceMs })
      (.granted chunk.ptr start request)) := by
  have hmem := mem_of_getElem? hchunk
  obtain ⟨hinv, hdata, hsize, -, -, haligned⟩ := (h.parted chunk hmem).allocate halloc
  have hshape : Chunk.shape { chunk with segment, emptySinceMs } = chunk.shape := by
    simp [Chunk.shape, hdata, hsize]
  have hshapes := map_set_same Chunk.shape hchunk hshape
  obtain ⟨hperm, hset⟩ := perm_set hchunk { chunk with segment, emptySinceMs }
  have happend : ∀ ptr, (heldIn ptr (s.holders ++ [Holder.granted chunk.ptr start request])).Perm
      (heldIn ptr (Holder.granted chunk.ptr start request :: s.holders)) := fun ptr =>
    heldIn_congr (perm_append_singleton _ _) ptr
  -- The other chunks are other objects.
  have hother : ∀ d ∈ s.pool.chunks.eraseIdx i, d.ptr ≠ chunk.ptr := by
    have hnodup := ((hperm.map Chunk.shape).map Shape.ptr).nodup h.shapes.ptrs
    intro d hd heq
    rw [map_cons, map_cons, nodup_cons] at hnodup
    exact hnodup.1 (mem_map.mpr ⟨d.shape, mem_map_of_mem hd, heq⟩)
  refine ⟨?_, h.maximum, h.reserve, fun d hd => ?_, fun y hy => ?_, ?_⟩
  · simp only [PoolState.return, hshapes]
    exact h.shapes
  · simp only [PoolState.return] at hd ⊢
    rcases mem_cons.mp (hset.mem_iff.mp hd) with rfl | hd
    · refine hinv.congr (List.Perm.symm ?_)
      refine (happend chunk.ptr).trans ?_
      rw [heldIn_granted, if_pos rfl]
    · refine (h.parted d (hperm.mem_iff.mpr (mem_cons_of_mem _ hd))).congr (List.Perm.symm ?_)
      refine (happend d.ptr).trans ?_
      rw [heldIn_granted, if_neg (hother d hd).symm]
  · simp only [PoolState.return, hshapes] at hy ⊢
    rcases mem_append.mp hy with hy | hy
    · exact h.holds y hy
    · obtain rfl := mem_singleton.mp hy
      exact .granted chunk.shape start (mem_map_of_mem hmem) rfl haligned hclass
  · intro a ha
    exact absurd ha (by simp [PoolState.return])

theorem newChunk_spec {pool : RecvSegmentPool} {minimumBytes : Nat} {affinity : Int}
    (h : pool.newChunk minimumBytes affinity memory = some chunk) :
    SegmentInv chunk.segment [] ∧ chunk.ptr = memory.ptr ∧
      memory.data = some chunk.segment.data ∧ chunk.stagingOnly = false ∧
      pool.growBytes minimumBytes = some chunk.segment.size ∧
      pool.committed + chunk.segment.size ≤ pool.maxBytes := by
  unfold RecvSegmentPool.newChunk at h
  split at h
  · cases h
  next bytes hgrow =>
  dsimp only at h
  split at h
  · cases h
  next hok =>
  cases h
  obtain ⟨hinv, hdata, hsize, -, -⟩ := segmentInv_init
    (Prod.ext rfl (by simpa using hok) : RecvSegment.init {} bytes pool.alignment memory.data =
      ((RecvSegment.init {} bytes pool.alignment memory.data).1, true))
  refine ⟨hinv, rfl, hdata, rfl, hgrow.trans (congrArg some hsize.symm), ?_⟩
  simp only [hsize]
  unfold RecvSegmentPool.growBytes at hgrow
  dsimp only at hgrow
  split at hgrow
  · cases hgrow
  split at hgrow
  · cases hgrow
  · have := Option.some.inj hgrow
    omega

theorem PoolInv.grown (h : PoolInv first maxBytes s) {minimumBytes : Nat} {affinity : Int}
    (hchunk : s.pool.newChunk minimumBytes affinity memory = some chunk)
    (hallows : s.pool.Allows ((s.pool.growBytes minimumBytes).getD 0) memory) :
    PoolInv first maxBytes
      { s with pool := { s.pool with chunks := s.pool.chunks ++ [chunk] } } := by
  obtain ⟨hinv, hptr, hdata, hstaging, hgrow, hcommitted⟩ := newChunk_spec hchunk
  rw [hgrow, Option.getD_some] at hallows
  obtain ⟨hfresh, hmemory⟩ := hallows
  obtain ⟨hnull, hend, hblocks⟩ := hmemory _ hdata
  have hmap : (s.pool.chunks ++ [chunk]).map Chunk.shape =
      s.pool.chunks.map Chunk.shape ++ [chunk.shape] := by simp
  refine ⟨?_, h.maximum, h.reserve, fun c hc => ?_, fun y hy => ?_, h.rounds⟩
  · simp only [hmap]
    refine ⟨?_, ?_, fun c hc => ?_, ?_, ?_⟩
    · rw [map_append, nodup_append]
      refine ⟨h.shapes.ptrs, nodup_singleton _, fun p hp q hq => ?_⟩
      obtain ⟨c, hc, rfl⟩ := mem_map.mp hp
      obtain ⟨d, hd, rfl⟩ := mem_map.mp hc
      obtain rfl := mem_singleton.mp hq
      simp only [Chunk.shape_ptr, hptr]
      exact hfresh d hd
    · rw [pairwise_append]
      refine ⟨h.shapes.blocks, pairwise_singleton _ _, fun c hc d hd => ?_⟩
      obtain ⟨c', hc', rfl⟩ := mem_map.mp hc
      obtain rfl := mem_singleton.mp hd
      exact hblocks c' hc'
    · rcases mem_append.mp hc with hc | hc
      · exact h.shapes.memory c hc
      · obtain rfl := mem_singleton.mp hc
        exact ⟨hnull, hend⟩
    · have hsum : (s.pool.chunks.map Chunk.shape).map Shape.size =
          s.pool.chunks.map fun c => c.segment.size := by simp [Chunk.shape]
      rw [h.maximum, RecvSegmentPool.committed] at hcommitted
      rw [map_append, sum_append, hsum]
      simpa [Chunk.shape] using hcommitted
    · obtain ⟨rest, hrest, hstag⟩ := h.shapes.first
      refine ⟨rest ++ [chunk.shape], by rw [hrest]; rfl, fun c hc => ?_⟩
      rcases mem_append.mp hc with hc | hc
      · exact hstag c hc
      · obtain rfl := mem_singleton.mp hc
        exact hstaging
  · rcases mem_append.mp hc with hc | hc
    · exact h.parted c hc
    · obtain rfl := mem_singleton.mp hc
      have hnone : heldIn c.ptr s.holders = [] :=
        h.heldIn_of_fresh fun d hd => by rw [hptr]; exact hfresh d hd
      simpa only [hnone] using hinv
  · simp only [hmap]
    rcases h.holds y hy with hnone | ⟨c, start, hc, hlease, haligned, hclass⟩
    · exact .empty hnone
    · exact .granted c start (mem_append_left _ hc) hlease haligned hclass

/-- A chunk in which nothing is held goes, but not the first one. -/
theorem PoolInv.dropped (h : PoolInv first maxBytes s) (hchunk : s.pool.chunks[i + 1]? = some chunk)
    (hempty : chunk.segment.usedBytes = 0) :
    PoolInv first maxBytes
      { s with pool := { s.pool with chunks := s.pool.chunks.eraseIdx (i + 1) } } := by
  have hmem := mem_of_getElem? hchunk
  have hnone : heldIn chunk.ptr s.holders = [] := (h.parted chunk hmem).usedBytes_eq_zero.mp hempty
  have hmap : (s.pool.chunks.eraseIdx (i + 1)).map Chunk.shape =
      (s.pool.chunks.map Chunk.shape).eraseIdx (i + 1) := (eraseIdx_map ..).symm
  have hsub : ((s.pool.chunks.map Chunk.shape).eraseIdx (i + 1)).Sublist
      (s.pool.chunks.map Chunk.shape) := eraseIdx_sublist _ _
  obtain ⟨hperm, -⟩ := perm_set hchunk chunk
  refine ⟨?_, h.maximum, h.reserve, fun c hc => ?_, fun y hy => ?_, h.rounds⟩
  · simp only [hmap]
    refine ⟨h.shapes.ptrs.sublist (hsub.map _), h.shapes.blocks.sublist hsub,
      fun c hc => h.shapes.memory c (hsub.subset hc),
      ((hsub.map _).sum_le_sum (by simp)).trans h.shapes.committed, ?_⟩
    obtain ⟨rest, hrest, hstag⟩ := h.shapes.first
    refine ⟨rest.eraseIdx i, by rw [hrest]; rfl, fun c hc => hstag c (mem_of_mem_eraseIdx hc)⟩
  · exact h.parted c (mem_of_mem_eraseIdx hc)
  · rcases h.holds y hy with hnull | ⟨c, start, hc, hlease, haligned, hclass⟩
    · exact .empty hnull
    · refine .granted c start ?_ hlease haligned hclass
      rcases mem_cons.mp ((hperm.map Chunk.shape).mem_iff.mp hc) with rfl | hc
      · -- The lease would be held in the dropped chunk.
        have hin : y.range ∈ heldIn chunk.ptr s.holders := by
          refine mem_map_of_mem (mem_filter.mpr ⟨hy, ?_⟩)
          rw [hlease]
          simp [Holder.granted]
        rw [hnone] at hin
        cases hin
      · exact hc

theorem PoolInv.failed (h : PoolInv first maxBytes s) (request : Request) :
    PoolInv first maxBytes (s.return s.pool.chunks (.empty request)) := by
  refine h.moved (heldIn_append_empty s.holders request) (fun y hy => ?_) (by simp) s.pending
  rcases mem_append.mp hy with hy | hy
  · exact .inr hy
  · obtain rfl := mem_singleton.mp hy
    exact .inl rfl

theorem rounds_staging {pool : RecvSegmentPool} {w : Int} (h : (w, true) ∈ pool.rounds request) :
    request.leaseClass = .staging := by
  unfold RecvSegmentPool.rounds at h
  by_contra hclass
  rw [if_neg (fun hc => hclass hc.1)] at h
  split at h <;> simp at h

theorem PoolInv.trimmed (h : PoolInv first maxBytes s) {t : Trim} (hi : 1 < t.i)
    (hchunk : s.pool.chunks[t.i - 1]? = some chunk) :
    PoolInv first maxBytes
      { s with pool := { s.pool with chunks := trimOne s.pool.chunks t chunk } } := by
  unfold trimOne
  split
  · exact h.noted (map_set_same _ hchunk rfl)
  split
  · exact h.noted (map_set_same _ hchunk rfl)
  split
  · exact h
  next hused _ _ =>
  obtain ⟨i, hi'⟩ : ∃ i, t.i - 1 = i + 1 := ⟨t.i - 2, by omega⟩
  rw [hi'] at hchunk ⊢
  exact h.dropped hchunk (by simpa using hused)

theorem PoolInv.tried (h : PoolInv first maxBytes s) {a : Attempt} {wanted : Int × Bool}
    {rounds : List (Int × Bool)} (hlock : s.lock = .allocating a)
    (hrounds : a.rounds = wanted :: rounds) :
    PoolInv first maxBytes (s.tryRound a wanted rounds) := by
  have hstage := h.rounds a hlock
  rw [hrounds] at hstage
  have hnext : ∀ lock, (∀ a, lock = .allocating a → ∀ w, (w, true) ∈ a.rounds →
      a.request.leaseClass = .staging) → PoolInv first maxBytes { s with lock } := fun lock hl =>
    h.moved (fun _ => List.Perm.refl _) (fun _ => .inr) hl s.pending
  unfold PoolState.tryRound
  split
  · refine hnext _ fun a' ha' w hw => ?_
    cases ha'
    exact hstage w (mem_cons_of_mem _ hw)
  next chunk hchunk =>
  have hlater : PoolInv first maxBytes
    { s with lock := .allocating { a with next := a.next + 1 } } := by
    refine hnext _ fun a' ha' w hw => ?_
    cases ha'
    exact h.rounds a hlock w hw
  split
  · exact hlater
  next hwanted =>
  split
  · exact hlater
  next start segment halloc =>
  refine h.grantedIn 0 hchunk halloc fun hstaging => ?_
  -- A chunk of the reserve is wanted only in a round of the reserve.
  have hsecond : wanted.2 := by
    simp only [ne_eq, not_or, not_not] at hwanted
    rw [← hwanted.2, hstaging]
  refine hstage wanted.1 ?_
  rw [← hsecond]
  exact mem_cons_self

theorem PoolInv.grownFor (h : PoolInv first maxBytes s)
    (hallows : s.pool.Allows ((s.pool.growBytes request.bytes).getD 0) memory) :
    PoolInv first maxBytes (s.growFor request memory) := by
  unfold PoolState.growFor
  split
  · exact h.failed request
  next chunk hchunk =>
  have hgrown := h.grown hchunk hallows
  split
  · exact hgrown.failed request
  next start segment halloc =>
  have hlast : (s.pool.chunks ++ [chunk])[s.pool.chunks.length]? = some chunk := by simp
  have hstaging := (newChunk_spec hchunk).2.2.2.1
  have hin := hgrown.grantedIn chunk.emptySinceMs hlast halloc fun hs => by simp [hstaging] at hs
  simpa [PoolState.return] using hin

/-- `TrimIdle` drops empty chunks only, and never the first. -/
theorem PoolInv.trimOne_keeps (h : PoolInv first maxBytes s) {t : Trim} (hi : 1 < t.i)
    (hchunk : s.pool.chunks[t.i - 1]? = some chunk) {c : Shape}
    (hc : c ∈ s.pool.chunks.map Chunk.shape) :
    c ∈ (trimOne s.pool.chunks t chunk).map Chunk.shape ∨
      (heldIn c.ptr s.holders = [] ∧ c ≠ first) := by
  have hsame : ∀ ms, (s.pool.chunks.set (t.i - 1) { chunk with emptySinceMs := ms }).map
      Chunk.shape = s.pool.chunks.map Chunk.shape := fun ms => map_set_same Chunk.shape hchunk rfl
  unfold trimOne
  split
  · exact .inl ((hsame 0).symm ▸ hc)
  split
  · exact .inl ((hsame t.nowMs).symm ▸ hc)
  split
  · exact .inl hc
  next hused _ _ =>
  have hmem := mem_of_getElem? hchunk
  have hnone : heldIn chunk.ptr s.holders = [] :=
    (h.parted chunk hmem).usedBytes_eq_zero.mp (by simpa using hused)
  obtain ⟨hperm, -⟩ := perm_set hchunk chunk
  rcases mem_cons.mp ((hperm.map Chunk.shape).mem_iff.mp hc) with rfl | hc
  · refine .inr ⟨hnone, fun heq => ?_⟩
    -- The first chunk is at the front, so it would be in the list twice.
    obtain ⟨rest, hrest, -⟩ := h.shapes.first
    have hnodup := h.shapes.ptrs
    have hat : (s.pool.chunks.map Chunk.shape)[t.i - 1]? = some first := by
      rw [List.getElem?_map, hchunk, Option.map_some, heq]
    obtain ⟨i, hi'⟩ : ∃ i, t.i - 1 = i + 1 := ⟨t.i - 2, by omega⟩
    rw [hrest, hi', List.getElem?_cons_succ] at hat
    rw [hrest, map_cons, nodup_cons] at hnodup
    exact hnodup.1 (mem_map_of_mem (mem_of_getElem? hat))
  · exact .inl hc

end Steps

end DingoCache.Transport
