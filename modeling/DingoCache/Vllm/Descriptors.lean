import DingoCache.Vllm.Layout

/-!
# vLLM: Descriptors of a Chunk

The descriptors that a worker fills for a range of tokens (`set_seg_layout`,
`descriptor_shape`, `fill_descriptors`, `prepare_value` of
`integration/vllm/src/dfkv_vllm/data.py`) and the flat batches of `dfkv_client.py`, for the
tensors that `register_kv_caches` registers: run by run with blocks first, and cut along
their outer dimension otherwise.
-/

namespace DingoCache.Vllm

open Library Connector List

variable {cs : List Chunk} {zs : List Placed} {blocks : List (Nat × Nat)}

/-! ## Geometry -/

/-- An entry of `seg_layout`. -/
structure Segment where
  base : Nat
  stride : Nat
  content : Nat
deriving DecidableEq

structure SgLayoutGeometry where
  segmentBases : List Nat
  blockStrides : List Nat
  segmentSizes : List Nat
  segmentsPerBlock : Nat
  logicalBytesPerBlock : Nat
deriving DecidableEq

def SgLayoutGeometry.fromLayout (layout : List Segment) : SgLayoutGeometry :=
  { segmentBases := layout.map (·.base)
    blockStrides := layout.map (·.stride)
    segmentSizes := layout.map (·.content)
    segmentsPerBlock := layout.length
    logicalBytesPerBlock := (layout.map (·.content)).sum }

/-- A `ChunkedTokenDatabase` whose layout is installed. -/
structure TokenDatabase where
  blockSize : Nat
  segLayout : List Segment
deriving DecidableEq

namespace TokenDatabase

/-- The property `geometry`. -/
def geometry (db : TokenDatabase) : SgLayoutGeometry := .fromLayout db.segLayout

variable (db : TokenDatabase)

def descriptorShape (start stop : Nat) (blockIds : List Nat) : Except PyError (Nat × Nat × Nat) :=
  if stop ≤ start ∨ start % db.blockSize ≠ 0 ∨ (stop - start) % db.blockSize ≠ 0 then
    .error (.valueError ("token range [" ++ toString start ++ ", " ++ toString stop ++
      ") must align to block_size=" ++ toString db.blockSize))
  else
    let startBlock := start / db.blockSize
    let nblocks := (stop - start) / db.blockSize
    let available := min nblocks (blockIds.length - startBlock)
    if available ≠ nblocks then
      .error (.valueError ("block table has " ++ toString available ++ " ids for " ++
        toString nblocks ++ " requested blocks at index " ++ toString startBlock))
    else .ok (db.geometry.segmentsPerBlock * nblocks, db.geometry.logicalBytesPerBlock * nblocks,
      blockIds.getD startBlock 0)

/-- The arrays that are being filled. -/
structure Fill where
  pointers : List Nat
  sizes : List Nat
  cursor : Nat
deriving DecidableEq

def Fill.put (st : Fill) (d : Nat × Nat) : Fill :=
  { pointers := st.pointers.set st.cursor d.1
    sizes := st.sizes.set st.cursor d.2
    cursor := st.cursor + 1 }

/-- The triples of the `zip` in `fill_descriptors`. -/
def segments : List (Nat × Nat × Nat) :=
  db.geometry.segmentBases.zip (db.geometry.blockStrides.zip db.geometry.segmentSizes)

def fillDescriptors (start stop : Nat) (blockIds : List Nat) (st : Fill) : Except PyError Fill := do
  let (segmentCount, _, _) ← db.descriptorShape start stop blockIds
  if st.pointers.length < st.cursor + segmentCount then
    .error (.valueError "pointer descriptor array is too small")
  else if st.sizes.length < st.cursor + segmentCount then
    .error (.valueError "size descriptor array is too small")
  else
    let startBlock := start / db.blockSize
    let endBlock := stop / db.blockSize
    return db.segments.foldl (fun st seg =>
      (range' startBlock (endBlock - startBlock)).foldl (fun st blockIndex =>
        st.put (seg.1 + blockIds.getD blockIndex 0 * seg.2.1, seg.2.2)) st) st

/-- `prepare_value`: the descriptors and the first block. -/
def prepareValue (start stop : Nat) (blockIds : List Nat) :
    Except PyError (List Nat × List Nat × Nat) := do
  let (segmentCount, _, firstBlockId) ← db.descriptorShape start stop blockIds
  let st ← db.fillDescriptors start stop blockIds
    ⟨replicate segmentCount 0, replicate segmentCount 0, 0⟩
  return (st.pointers, st.sizes, firstBlockId)

end TokenDatabase

open TokenDatabase

/-- A chunk of a batch. -/
structure Chunk where
  db : TokenDatabase
  start : Nat
  stop : Nat
  blockIds : List Nat
deriving DecidableEq

structure SgDescriptorBatch where
  counts : List Nat
  offsets : List Nat
  logicalLengths : List Nat
  pointers : List Nat
  sizes : List Nat
deriving DecidableEq

namespace SgDescriptorBatch

/-- The descriptors of key `i`. -/
def view (b : SgDescriptorBatch) (i : Nat) : List (Nat × Nat) :=
  ((b.pointers.zip b.sizes).drop (b.offsets.getD i 0)).take (b.counts.getD i 0)

end SgDescriptorBatch

/-! ## The descriptors of one chunk -/

namespace TokenDatabase

def blocksOf (db : TokenDatabase) (start stop : Nat) (blockIds : List Nat) : List Nat :=
  (blockIds.drop (start / db.blockSize)).take ((stop - start) / db.blockSize)

def descriptors (db : TokenDatabase) (start stop : Nat) (blockIds : List Nat) : List (Nat × Nat) :=
  db.segLayout.flatMap fun e =>
    (db.blocksOf start stop blockIds).map fun id => (e.base + id * e.stride, e.content)

/-- Arrays of length `n` whose front is filled with `ds`. -/
def filled (n : Nat) (ds : List (Nat × Nat)) : Fill :=
  { pointers := ds.map (·.1) ++ replicate (n - ds.length) 0
    sizes := ds.map (·.2) ++ replicate (n - ds.length) 0
    cursor := ds.length }

theorem put_filled {n : Nat} {ds : List (Nat × Nat)} (h : ds.length < n) (d : Nat × Nat) :
    (filled n ds).put d = filled n (ds ++ [d]) := by
  have hfree : n - ds.length = n - (ds.length + 1) + 1 := by omega
  simp [filled, Fill.put, hfree, replicate_succ]

theorem foldl_put {n : Nat} {ds es : List (Nat × Nat)} (h : ds.length + es.length ≤ n) :
    es.foldl Fill.put (filled n ds) = filled n (ds ++ es) := by
  induction es generalizing ds with
  | nil => simp
  | cons e es ih =>
    rw [length_cons] at h
    rw [foldl_cons, put_filled (by omega), ih (by simp; omega), append_assoc]
    rfl

variable {db : TokenDatabase} {start stop : Nat} {blockIds : List Nat}

/-- A range of whole blocks that the table covers. -/
structure Aligned (db : TokenDatabase) (start stop : Nat) (blockIds : List Nat) : Prop where
  lt : start < stop
  start_dvd : db.blockSize ∣ start
  stop_dvd : db.blockSize ∣ stop
  covered : stop / db.blockSize ≤ blockIds.length

theorem Aligned.nblocks (h : Aligned db start stop blockIds) :
    start / db.blockSize + (stop - start) / db.blockSize = stop / db.blockSize := by
  rw [← Nat.add_div_of_dvd_right h.start_dvd, Nat.add_sub_cancel' h.lt.le]

theorem Aligned.length_blocksOf (h : Aligned db start stop blockIds) :
    (db.blocksOf start stop blockIds).length = (stop - start) / db.blockSize := by
  have := h.nblocks
  have := h.covered
  rw [blocksOf, length_take, length_drop]
  omega

theorem length_descriptors (h : Aligned db start stop blockIds) :
    (db.descriptors start stop blockIds).length =
      db.segLayout.length * ((stop - start) / db.blockSize) := by
  simp [descriptors, length_flatMap, h.length_blocksOf]

theorem descriptorShape_eq (h : Aligned db start stop blockIds) :
    db.descriptorShape start stop blockIds = .ok ((db.descriptors start stop blockIds).length,
        db.geometry.logicalBytesPerBlock * ((stop - start) / db.blockSize),
        blockIds.getD (start / db.blockSize) 0) := by
  have hshape : ¬(stop ≤ start ∨ start % db.blockSize ≠ 0 ∨ (stop - start) % db.blockSize ≠ 0) := by
    rintro (hle | hmod | hmod)
    · exact absurd h.lt (Nat.not_lt.mpr hle)
    · exact hmod (Nat.mod_eq_zero_of_dvd h.start_dvd)
    · exact hmod (Nat.mod_eq_zero_of_dvd (Nat.dvd_sub h.stop_dvd h.start_dvd))
  have havail : ¬min ((stop - start) / db.blockSize)
      (blockIds.length - start / db.blockSize) ≠ (stop - start) / db.blockSize := by
    have := h.nblocks
    have := h.covered
    omega
  rw [descriptorShape, if_neg hshape]
  dsimp only
  rw [if_neg havail, length_descriptors h]
  rfl

theorem segments_eq (db : TokenDatabase) :
    db.segments = db.segLayout.map fun e => (e.base, e.stride, e.content) := by
  unfold segments geometry SgLayoutGeometry.fromLayout
  induction db.segLayout with
  | nil => rfl
  | cons e es ih => simpa using ih

theorem range'_map_getD (sb n : Nat) (hlen : sb + n ≤ blockIds.length) :
    (range' sb n).map (fun i => blockIds.getD i 0) = (blockIds.drop sb).take n := by
  refine ext_getElem (by simp; omega) fun i h1 h2 => ?_
  simp at h1
  simp [getElem?_eq_getElem (show sb + i < blockIds.length by omega)]

/-- `fill_descriptors` puts the descriptors of the chunk at the cursor. -/
theorem fillDescriptors_eq (h : Aligned db start stop blockIds) {n : Nat} {l : List (Nat × Nat)}
    (hroom : l.length + (db.descriptors start stop blockIds).length ≤ n) :
    db.fillDescriptors start stop blockIds (filled n l) =
      .ok (filled n (l ++ db.descriptors start stop blockIds)) := by
  have hloop : ∀ st : Fill, db.segments.foldl (fun st seg =>
      (range' (start / db.blockSize) (stop / db.blockSize - start / db.blockSize)).foldl
        (fun st blockIndex => st.put (seg.1 + blockIds.getD blockIndex 0 * seg.2.1, seg.2.2)) st)
      st = (db.descriptors start stop blockIds).foldl Fill.put st := by
    intro st
    have hn : stop / db.blockSize - start / db.blockSize = (stop - start) / db.blockSize := by
      rw [← h.nblocks, Nat.add_sub_cancel_left]
    have hids := range'_map_getD (start / db.blockSize) ((stop - start) / db.blockSize)
      (by rw [h.nblocks]; exact h.covered)
    rw [segments_eq, foldl_map, descriptors, foldl_flatMap, hn, blocksOf, ← hids]
    simp only [foldl_map]
  have hp : (filled n l).pointers.length = n := by simp [filled]; omega
  have hs : (filled n l).sizes.length = n := by simp [filled]; omega
  refine bind_eq_ok_iff.mpr ⟨_, descriptorShape_eq h, ?_⟩
  have hfits : ¬n < (filled n l).cursor + (db.descriptors start stop blockIds).length :=
    hroom.not_gt
  dsimp only
  rw [hp, hs, if_neg hfits, if_neg hfits, hloop, foldl_put hroom]
  rfl

theorem prepareValue_eq (h : Aligned db start stop blockIds) : db.prepareValue start stop blockIds =
      .ok ((db.descriptors start stop blockIds).map (·.1),
        (db.descriptors start stop blockIds).map (·.2), blockIds.getD (start / db.blockSize) 0) :=
          by
  have hfill := fillDescriptors_eq h (n := (db.descriptors start stop blockIds).length) (l := [])
    (Nat.zero_add _).le
  simp only [filled, nil_append, Nat.sub_self, replicate_zero, append_nil] at hfill
  exact bind_eq_ok_iff.mpr ⟨_, descriptorShape_eq h, bind_eq_ok_iff.mpr ⟨_, hfill, rfl⟩⟩

/-- Only aligned ranges that the table covers have a shape. -/
theorem aligned_of_descriptorShape {shape : Nat × Nat × Nat}
    (h : db.descriptorShape start stop blockIds = .ok shape) : Aligned db start stop blockIds := by
  unfold descriptorShape at h
  split at h
  · cases h
  · next hshape =>
    simp only [not_or, not_not] at hshape
    obtain ⟨hlt, hstart, hdiff⟩ := hshape
    have hstart' := Nat.dvd_of_mod_eq_zero hstart
    have hlt' := Nat.not_le.mp hlt
    have hstop : db.blockSize ∣ stop := by
      have := Nat.dvd_add hstart' (Nat.dvd_of_mod_eq_zero hdiff)
      rwa [Nat.add_sub_cancel' hlt'.le] at this
    dsimp only at h
    split at h
    · cases h
    · next havail =>
      refine ⟨hlt', hstart', hstop, ?_⟩
      have hle : (stop - start) / db.blockSize ≤ blockIds.length - start / db.blockSize :=
        min_eq_left_iff.mp (not_not.mp havail)
      have hpos : 0 < (stop - start) / db.blockSize :=
        Nat.div_pos (Nat.le_of_dvd (Nat.sub_pos_of_lt hlt') (Nat.dvd_sub hstop hstart'))
          (Nat.pos_of_dvd_of_pos hstop (by omega))
      rw [← Nat.add_sub_cancel' hlt'.le, Nat.add_div_of_dvd_right hstart']
      omega

/-- `prepare_value` accepts exactly the aligned ranges that the table covers, and gives their
descriptors. -/
theorem prepareValue_ok_iff {r : List Nat × List Nat × Nat} :
    db.prepareValue start stop blockIds = .ok r ↔ Aligned db start stop blockIds ∧
      r = ((db.descriptors start stop blockIds).map (·.1),
        (db.descriptors start stop blockIds).map (·.2), blockIds.getD (start / db.blockSize) 0) :=
          by
  constructor
  · intro hr
    obtain ⟨shape, hshape, -⟩ := bind_eq_ok_iff.mp hr
    have ha := aligned_of_descriptorShape hshape
    exact ⟨ha, Except.ok.inj (hr.symm.trans (prepareValue_eq ha))⟩
  · rintro ⟨ha, rfl⟩
    exact prepareValue_eq ha

end TokenDatabase

/-! ## The descriptors of a batch -/

def Chunk.descriptors (c : Chunk) : List (Nat × Nat) :=
  c.db.descriptors c.start c.stop c.blockIds

def Chunk.Aligned (c : Chunk) : Prop := c.db.Aligned c.start c.stop c.blockIds

namespace SgDescriptorBatch

end SgDescriptorBatch

/-! ## Registered tensors -/

/-- A tensor at `addr` whose storage has `regionLen` bytes. -/
structure LayerTensor where
  addr : Nat
  shape : List Int
  strides : List Int
  elementSize : Int
  regionLen : Nat

def Holds (p : Nat × CacheTensor) (x : Nat) : Prop :=
  ∃ b < p.2.blocks, ∃ tile idx k, p.2.InBlock tile idx k ∧ x = p.1 + p.2.byteAt b tile idx k

/-- A tensor of the layout that two workers share, at the base of each, with the length of its
storage and what else stands in the list if the layer has one. -/
structure Placed where
  tensor : CacheTensor
  srcBase : Nat
  dstBase : Nat
  srcLen : Nat
  dstLen : Nat
  srcRest : List LayerTensor := []
  dstRest : List LayerTensor := []

def Placed.target (z : Placed) : Nat × CacheTensor := (z.dstBase, z.tensor)

/-- One descriptor of the two workers: the tensor, the run and the two blocks. -/
abbrev Step := Placed × (Nat × Nat) × (Nat × Nat)

def steps (zs : List Placed) (blocks : List (Nat × Nat)) : List Step :=
  zs.flatMap fun z => z.tensor.runs.flatMap fun r => blocks.map fun b => (z, r, b)

end DingoCache.Vllm
