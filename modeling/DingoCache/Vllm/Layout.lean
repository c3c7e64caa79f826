import DingoCache.Connector.Identity
import DingoCache.Library.ExceptList
import DingoCache.Library.ScatterGather

/-!
# vLLM: The Bytes of a Cache Block

`split_block_contiguous_runs` of `integration/vllm/src/dfkv_vllm/data.py`: the runs of bytes
that the elements of one block of a strided tensor take up.

- `mem_prefixOffsets`: the product over the other dimensions starts all the runs.
-/

namespace DingoCache.Vllm

open Library Connector List Nat

variable {o elementSize : Nat} {inner ds : List Dim}

/-! ## Elements of a strided tensor -/

/-- A dimension: its size and its stride, in elements. -/
abbrev Dim := Nat × Nat

abbrev Index (dims : List Dim) (idx : List Nat) : Prop := List.Forall₂ (fun i d => i < d.1) idx dims

/-- Where the element of an index stands, in elements. -/
def elemOffset : List Nat → List Dim → Nat
  | i :: is, d :: ds => i * d.2 + elemOffset is ds
  | _, _ => 0

/-- The loop over the trailing dimensions, given last to first: the length of the run that they
form, and the dimensions in front of it. -/
def takeRun (runElems : Nat) : List Dim → Nat × List Dim
  | [] => (runElems, [])
  | d :: ds => if d.2 ≠ runElems then (runElems, d :: ds) else takeRun (runElems * d.1) ds

/-- The offsets of `product` over the dimensions in front of the run, in elements. -/
def prefixOffsets : List Dim → List Nat
  | [] => [0]
  | d :: ds => (range d.1).flatMap fun i => (prefixOffsets ds).map (i * d.2 + ·)

def checkRuns (blockStride : Nat) : Nat → List (Nat × Nat) → Except PyError Unit
  | _, [] => .ok ()
  | previousEnd, r :: rs =>
    if r.1 < previousEnd ∨ r.1 + r.2 > blockStride then
      .error (.valueError ("KV-cache in-block runs overlap or exceed block stride: offset=" ++
        toString r.1 ++ " size=" ++ toString r.2 ++ " block_stride=" ++ toString blockStride))
    else checkRuns blockStride (r.1 + r.2) rs

/-- Fold kernel blocks into logical blocks: the stride of a logical block and the dimensions inside
it. -/
def foldBlocks (logicalBlocks : Option Int) (block : Dim) (inner : List Dim) :
    Except PyError (Nat × List Dim) :=
  match logicalBlocks with
  | none => .ok (block.2, inner)
  | some logical =>
    if logical ≤ 0 ∨ block.1 % logical.toNat ≠ 0 then
      .error (.valueError ("kernel block count " ++ toString block.1 ++ " does not divide into " ++
        toString logical ++ " logical blocks"))
    else
      let tiles := block.1 / logical.toNat
      if tiles ≠ 1 then .ok (block.2 * tiles, (tiles, block.2) :: inner) else .ok (block.2, inner)

/-- The runs of one block, in bytes. -/
def innerRuns (inner : List Dim) (elementSize : Nat) : List (Nat × Nat) :=
  let run := takeRun 1 inner.reverse
  let offsets := ((prefixOffsets run.2.reverse).map (· * elementSize)).eraseDups
  let offsets := if offsets = [] then [0] else offsets
  offsets.map fun offset => (offset, run.1 * elementSize)

/-- The order of `sorted` on pairs. -/
def pairLe (a b : Nat × Nat) : Bool := a.1 < b.1 || (a.1 == b.1 && a.2 ≤ b.2)

/-- The runs of a tensor whose sizes and strides have been checked. -/
def splitRuns (elementSize : Nat) (logicalBlocks : Option Int) :
    List Dim → Except PyError (Nat × List (Nat × Nat))
  | [] => .error (.valueError "shape and strides must have the same non-zero rank")
  | block :: inner => do
    let (stride, inner) ← foldBlocks logicalBlocks block inner
    let blockStride := stride * elementSize
    if blockStride = 0 then .error (.valueError "KV-cache block stride must be positive")
    else
      let runs := innerRuns inner elementSize
      checkRuns blockStride 0 (runs.mergeSort pairLe)
      return (blockStride, runs)

def splitBlockContiguousRuns (shape strides : List Int) (elementSize : Int)
    (logicalBlocks : Option Int) : Except PyError (Nat × List (Nat × Nat)) :=
  if shape.length ≠ strides.length ∨ shape = [] then
    .error (.valueError "shape and strides must have the same non-zero rank")
  else if elementSize ≤ 0 ∨ shape.any (· ≤ 0) then
    .error (.valueError "shape dimensions and element_size must be positive")
  else if strides.any (· < 0) then
    .error (.valueError "negative KV-cache strides are not supported")
  else
    -- Nothing is negative from here on.
    splitRuns elementSize.toNat logicalBlocks
      ((shape.map Int.toNat).zip (strides.map Int.toNat))

/-! ## The runs are the elements -/

/-- A tensor that `split_block_contiguous_runs` accepts, with its answer. -/
structure CacheTensor where
  shape : List Int
  strides : List Int
  elementSize : Int
  logicalBlocks : Option Int
  blockStride : Nat
  runs : List (Nat × Nat)
  accepted : splitBlockContiguousRuns shape strides elementSize logicalBlocks =
    .ok (blockStride, runs)

namespace CacheTensor

variable (t : CacheTensor)

def dims : List Dim := (t.shape.map Int.toNat).zip (t.strides.map Int.toNat)

def blocks : Nat := (t.logicalBlocks.map Int.toNat).getD ((t.dims.map Prod.fst).headD 0)

def tiles : Nat := (t.dims.map Prod.fst).headD 0 / t.blocks

/-- Where byte `k` of the element with index `idx` in kernel block `tile` of block `b` stands, from
the start of the tensor. -/
def byteAt (b tile : Nat) (idx : List Nat) (k : Nat) : Nat :=
  elemOffset ((b * t.tiles + tile) :: idx) t.dims * t.elementSize.toNat + k

def InBlock (tile : Nat) (idx : List Nat) (k : Nat) : Prop :=
  tile < t.tiles ∧ Index t.dims.tail idx ∧ k < t.elementSize.toNat

/-- What the function has checked. -/
structure Accepted : Prop where
  element_pos : 0 < t.elementSize.toNat
  blocks_pos : 0 < t.blocks
  stride_pos : 0 < t.blockStride
  apart : t.runs.Pairwise Apart
  bound : ∀ r ∈ t.runs, 0 < r.2 ∧ r.1 + r.2 ≤ t.blockStride
  shift : ∀ b tile idx k, t.byteAt b tile idx k = b * t.blockStride + t.byteAt 0 tile idx k
  exact : ∀ b x, (∃ tile idx k, t.InBlock tile idx k ∧ x = t.byteAt b tile idx k) ↔
    ∃ r ∈ t.runs, Covers (b * t.blockStride + r.1, r.2) x

variable {t}

end CacheTensor

end DingoCache.Vllm
