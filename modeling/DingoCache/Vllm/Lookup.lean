import DingoCache.Vllm.Model

/-!
# vLLM: The Lookup Admits the Longest Loadable Prefix
-/

namespace DingoCache.Vllm

open Library Connector List Nat
open Stage

variable {i j : Nat} {g : Group}

/-! ## Chunks and masks -/

section Chunks

variable {blockSize len : Nat} {hashes : List Bytes} {hash : Bytes}

theorem takeWhile_zipIdx {n : Nat} (hn : ∀ i, i * blockSize < len ↔ i < n) (k : Nat) :
    (hashes.zipIdx k).takeWhile (fun x => decide (x.2 * blockSize < len)) =
      (hashes.take (n - k)).zipIdx k := by
  simp only [hn]
  induction hashes generalizing k with
  | nil => simp
  | cons a l ih =>
    rw [zipIdx_cons, takeWhile_cons]
    by_cases hk : k < n
    · rw [show n - k = n - (k + 1) + 1 by omega, take_succ_cons, zipIdx_cons, ih]
      simp [hk]
    · simp [hk, Nat.sub_eq_zero_of_le (Nat.le_of_not_lt hk)]

variable (hbs : 0 < blockSize)

include hbs

theorem mul_lt_iff_lt_ceilDiv (i : Nat) : i * blockSize < len ↔ i < len ⌈/⌉ blockSize := by
  rw [Nat.mul_comm, ← not_le, ← not_le, ceilDiv_le_iff_le_mul hbs]

theorem chunksBelow_eq :
    chunksBelow blockSize len hashes = (hashes.take (len ⌈/⌉ blockSize)).zipIdx :=
  takeWhile_zipIdx (mul_lt_iff_lt_ceilDiv hbs) 0

theorem mem_chunksBelow : (hash, i) ∈ chunksBelow blockSize len hashes ↔
      hashes[i]? = some hash ∧ i * blockSize < len := by
  rw [chunksBelow_eq hbs, mem_zipIdx_iff_getElem?, getElem?_take, mul_lt_iff_lt_ceilDiv hbs]
  split <;> simp_all

theorem lt_length_chunksBelow : i < (chunksBelow blockSize len hashes).length ↔
      i < hashes.length ∧ i * blockSize < len := by
  rw [chunksBelow_eq hbs, length_zipIdx, length_take, lt_min_iff,
    mul_lt_iff_lt_ceilDiv hbs, and_comm]

omit hbs

theorem zipIdx_pairwise {α : Type} (l : List α) : l.zipIdx.Pairwise fun x y => x.2 ≠ y.2 := by
  refine pairwise_map.mp ?_
  rw [zipIdx_map_snd]
  exact nodup_range'

end Chunks

namespace Stage

variable {s : Stage} {C : Nat}

/-- The mask of group `i` at an aligned length. -/
def maskAt (s : Stage) (C i : Nat) (g : Group) : List Bool :=
  if g.prefixCacheable then s.hitBlocks i C else []

theorem loadMask_eq (hC : s.layout.lcmBlockSize ∣ C) (hpos : 0 < C) :
    s.loadMask C = .ok (s.layout.groups.zipIdx.map fun x => s.maskAt C x.2 x.1) := by
  unfold loadMask cacheMask
  rw [Nat.div_mul_cancel hC, if_neg (not_not.mpr (Nat.mod_eq_zero_of_dvd hC)), if_neg hpos.ne']
  rfl

/-- Chunk `j` of group `i` is required by a load of `C` tokens. -/
def Required (s : Stage) (C i j : Nat) : Prop :=
  ∃ masks g, s.loadMask C = .ok masks ∧ s.layout.groups[i]? = some g ∧
    (masks.getD i []).getD j false = true ∧ j * g.blockSize < C

/-- The mask of the group has the chunk, which starts below `C`. -/
def Needed (s : Stage) (C i : Nat) (g : Group) (j : Nat) : Prop :=
  (s.maskAt C i g).getD j false = true ∧ j * g.blockSize < C

theorem Needed.prefixCacheable (h : s.Needed C i g j) : g.prefixCacheable := by
  by_contra hno
  simp [Needed, maskAt, hno] at h

theorem getD_masks (hg : s.layout.groups[i]? = some g) :
    (s.layout.groups.zipIdx.map fun x => s.maskAt C x.2 x.1).getD i [] = s.maskAt C i g := by
  simp [getD_eq_getElem?_getD, hg]

theorem Required.group (h : s.Required C i j) : ∃ g, s.layout.groups[i]? = some g := by
  obtain ⟨-, g, -, hg, -⟩ := h
  exact ⟨g, hg⟩

theorem required_iff (hC : s.layout.lcmBlockSize ∣ C) (hpos : 0 < C)
    (hg : s.layout.groups[i]? = some g) : s.Required C i j ↔ s.Needed C i g j := by
  unfold Required Needed
  simp [loadMask_eq hC hpos, hg]

/-- Chunk `j` of group `i` has a hash, and its object exists under the key of every worker of the
stage. -/
def Held (s : Stage) (store : PoolKey → Bool) (hashes : List Bytes) (i j : Nat) : Prop :=
  ∃ g hash, s.layout.groups[i]? = some g ∧
    (s.blockHashesForSpec hashes g.blockSize)[j]? = some hash ∧
    ∀ w : Worker s, store ⟨w.metadata g i, hash⟩ = true

/-- Every object that a load of `C` tokens requires exists. -/
def Loadable (s : Stage) (store : PoolKey → Bool) (hashes : List Bytes) (C : Nat) : Prop :=
  ∀ i j, s.Required C i j → s.Held store hashes i j

theorem Held.at_hash {store : PoolKey → Bool} {hashes : List Bytes}
    (h : s.Held store hashes i j) (hg : s.layout.groups[i]? = some g) :
    ∃ hash, (s.blockHashesForSpec hashes g.blockSize)[j]? = some hash ∧
      ∀ w : Worker s, store ⟨w.metadata g i, hash⟩ := by
  obtain ⟨g', hash, hg', hhash, hstore⟩ := h
  cases hg.symm.trans hg'
  exact ⟨hash, hhash, hstore⟩

theorem blockSize_pos (hg : s.layout.groups[i]? = some g) : 0 < g.blockSize :=
  pos_of_dvd_of_pos (s.layout.block_dvd g (mem_of_getElem? hg)) s.layout.lcm_pos

/-- `BlockHashListWithBlockSize` has an entry for every full block. -/
def FullBlocks (s : Stage) : Prop :=
  ∀ hashes scale, 0 < scale → hashes.length / scale ≤
    (s.blockHashList hashes s.layout.hashBlockSize (s.layout.hashBlockSize * scale)).length

/-- `pool_key` accepts the key of every worker of the stage for every chunk of the hashes. -/
def Encodable (s : Stage) (hashes : List Bytes) : Prop :=
  ∀ i g, s.layout.groups[i]? = some g → ∀ hash ∈ s.blockHashesForSpec hashes g.blockSize,
    ∀ w : Worker s, ∃ b, PoolKey.toBytes ⟨w.metadata g i, hash⟩ = .ok b

/-- Hashes that cover the tokens give every chunk of a group a hash. -/
theorem hash_of_cover {hashes : List Bytes} (hfull : s.FullBlocks)
    (hg : s.layout.groups[i]? = some g)
    (hcache : g.prefixCacheable) (hC : s.layout.lcmBlockSize ∣ C)
    (hcov : C ≤ hashes.length * s.layout.hashBlockSize) (hj : j * g.blockSize < C) :
    j < (s.blockHashesForSpec hashes g.blockSize).length := by
  have hmem := mem_of_getElem? hg
  obtain ⟨q, hq⟩ : g.blockSize ∣ C := (s.layout.block_dvd g hmem).trans hC
  have hbs := blockSize_pos hg
  -- The chunk ends inside the tokens.
  have hend : (j + 1) * g.blockSize ≤ C := by
    rw [hq, Nat.mul_comm] at hj
    rw [hq, Nat.mul_comm]
    exact Nat.mul_le_mul_left _ (Nat.lt_of_mul_lt_mul_left hj)
  unfold blockHashesForSpec
  split
  case isTrue heq =>
    rw [heq] at hend
    exact Nat.le_of_mul_le_mul_right (hend.trans hcov) s.layout.hash_pos
  case isFalse hne =>
    obtain ⟨scale, hscale⟩ := s.layout.hash_dvd g hmem hcache
    have hspos : 0 < scale := pos_of_ne_zero fun h0 => by simp [h0] at hscale; omega
    rw [hscale]
    refine lt_of_lt_of_le ?_ (hfull hashes scale hspos)
    refine (le_div_iff_mul_le hspos).mpr ?_
    refine Nat.le_of_mul_le_mul_right ?_ s.layout.hash_pos
    calc (j + 1) * scale * s.layout.hashBlockSize = (j + 1) * g.blockSize := by
          rw [hscale, mul_assoc, Nat.mul_comm scale]
      _ ≤ C := hend
      _ ≤ hashes.length * s.layout.hashBlockSize := hcov

end Stage

/-! ## Coordinates -/

section Coordinates

def coordinateOf (tpSize pcpSize dcpSize numKvHeads : Nat) (useMla tpSharded : Bool)
    (tpRank pcpRank : Nat) : Coordinate :=
  let dcpRank := expectedDcpRank pcpSize dcpSize tpRank pcpRank
  ⟨if tpSharded then tpRank
    else (stripeOf tpRank tpSize pcpRank pcpSize dcpRank dcpSize numKvHeads useMla).tpRank,
    pcpRank, dcpRank⟩

theorem keyNamespaces_spec (tpSize pcpSize dcpSize numKvHeads : Nat) (useMla tpSharded : Bool) :
    ∃ ns, keyNamespaces tpSize pcpSize dcpSize numKvHeads useMla tpSharded = .ok ns ∧
      ∀ c, c ∈ ns ↔ ∃ tp < tpSize, ∃ pcp < pcpSize,
        c = coordinateOf tpSize pcpSize dcpSize numKvHeads useMla tpSharded tp pcp := by
  refine ⟨_, bind_eq_ok_iff.mpr ⟨_, mapM_eq_ok_map (g := fun r => coordinateOf tpSize
    pcpSize dcpSize
    numKvHeads useMla tpSharded r.2 r.1) fun r _ => ?_, rfl⟩, fun c => ?_⟩
  · cases tpSharded with
    | true => rfl
    | false =>
      unfold keyStripeIdentity
      simp [coordinateOf, bind, Except.bind, pure, Except.pure]
  · simp only [mem_eraseDups, mem_map, mem_flatMap, mem_range]
    constructor
    · rintro ⟨_, ⟨pcp, hpcp, tp, htp, rfl⟩, rfl⟩
      exact ⟨tp, htp, pcp, hpcp, rfl⟩
    · rintro ⟨tp, htp, pcp, hpcp, rfl⟩
      exact ⟨(pcp, tp), ⟨pcp, hpcp, tp, htp, rfl⟩, rfl⟩

variable {s : Stage}

theorem headOrTpRank_neg (w : Worker s) : decide (w.headOrTpRank < 0) =
    (s.topology.useMla && s.topology.pcpSize == 1 && s.topology.dcpSize == 1) := by
  unfold Worker.headOrTpRank stripeOf
  dsimp only
  cases hrep : (s.topology.useMla && s.topology.pcpSize == 1 && s.topology.dcpSize == 1) with
  | true => rfl
  | false => exact decide_eq_false (Int.not_lt.mpr (Int.natCast_nonneg _))

theorem stripeOf_tpRank (w w' : Worker s) :
    (stripeOf w'.tpRank s.topology.tpSize w'.pcpRank s.topology.pcpSize w'.dcpRank
      s.topology.dcpSize s.topology.numKvHead (decide (w.headOrTpRank < 0))).tpRank =
      w'.headOrTpRank := by
  rw [headOrTpRank_neg w, Worker.headOrTpRank, stripeOf, stripeOf]
  dsimp only
  congr 1
  cases s.topology.useMla <;> cases s.topology.pcpSize == 1 <;> cases s.topology.dcpSize == 1 <;>
    rfl

/-- The coordinates that `w` probes for a group are those of the keys that the workers of the stage
load. -/
theorem forall_coordinate_iff (w : Worker s) {ns : List Coordinate} (hcache : g.prefixCacheable)
    (hns : keyNamespaces s.topology.tpSize (w.metadata g i).pcpSize (w.metadata g i).dcpSize
      s.topology.numKvHead (decide ((w.metadata g i).tpRank < 0)) g.mamba = .ok ns)
    {P : PoolKey → Prop} {hash : Bytes} :
    (∀ k ∈ ns.map (w.keyAt g i hash), P k) ↔ ∀ w' : Worker s, P ⟨w'.metadata g i, hash⟩ := by
  obtain ⟨ns', hns', hmem⟩ := keyNamespaces_spec s.topology.tpSize (w.metadata g i).pcpSize
    (w.metadata g i).dcpSize s.topology.numKvHead (decide ((w.metadata g i).tpRank < 0)) g.mamba
  cases hns'.symm.trans hns
  have hkey (w' : Worker s) : w.keyAt g i hash (coordinateOf s.topology.tpSize
      (w.metadata g i).pcpSize (w.metadata g i).dcpSize s.topology.numKvHead
      (decide ((w.metadata g i).tpRank < 0)) g.mamba w'.tpRank w'.pcpRank) =
      ⟨w'.metadata g i, hash⟩ := by
    -- Both sides agree in the shared fields; the TP rank is read off the group's kind.
    cases hm : g.mamba with
    | true => simp [Worker.keyAt, coordinateOf, Worker.metadata, Worker.dcpRank, hm, hcache]
    | false =>
      simpa [Worker.keyAt, coordinateOf, Worker.metadata, Worker.dcpRank, hm, hcache] using
        stripeOf_tpRank w w'
  simp only [forall_mem_map, hmem]
  constructor
  · intro h w'
    rw [← hkey w']
    exact h _ ⟨w'.tpRank, w'.tpRank.isLt, w'.pcpRank, w'.pcpRank.isLt, rfl⟩
  · rintro h _ ⟨tp, htp, pcp, hpcp, rfl⟩
    rw [hkey ⟨⟨tp, htp⟩, ⟨pcp, hpcp⟩⟩]
    exact h _

end Coordinates

/-! ## Counting -/

namespace Worker

section Counting

variable {store : PoolKey → Bool} {entries : List (ObjectMeta × List PoolKey)}

/-- Among objects that are listed once, the answers of an object are those of its keys. -/
theorem present_eq (hnd : (entries.map (·.1)).Nodup) {e : ObjectMeta × List PoolKey}
    (he : e ∈ entries) :
    present store entries e.1 = e.2.countP store := by
  unfold present candidates
  have hself (x : ObjectMeta × List PoolKey) :
      (x.2.map (x.1, ·)).countP (fun c => c.1 = e.1 && store c.2) =
        if x.1 = e.1 then x.2.countP store else 0 := by
    rw [countP_map]
    by_cases hx : x.1 = e.1
    · rw [if_pos hx]
      exact congrArg (x.2.countP ·) (funext fun k => by simp [hx])
    · rw [if_neg hx]
      exact countP_eq_zero.mpr fun k _ => by simp [hx]
  induction entries with
  | nil => exact absurd he not_mem_nil
  | cons x l ih =>
    obtain ⟨hx, hl⟩ := nodup_cons.mp hnd
    rw [flatMap_cons, countP_append, hself]
    rcases mem_cons.mp he with rfl | he
    · -- No later object has this metadata, so the rest counts nothing.
      rw [if_pos rfl, add_eq_left]
      refine countP_eq_zero.mpr fun c hc => ?_
      obtain ⟨y, hy, hc⟩ := mem_flatMap.mp hc
      obtain ⟨k, -, rfl⟩ := mem_map.mp hc
      have hne : y.1 ≠ e.1 := fun h => hx (mem_map.mpr ⟨y, hy, h⟩)
      simp [hne]
    · have hne : x.1 ≠ e.1 := fun h => hx (mem_map.mpr ⟨e, he, h.symm⟩)
      rw [if_neg hne, zero_add, ih hl he]

/-- A logical chunk counts as complete exactly when no required hash of it is missing and all its
objects exist under all their keys. -/
theorem complete_iff (hnd : (entries.map (·.1)).Nodup) {missing : List Nat} {idx : Nat} :
    complete store entries missing idx ↔
      idx ∉ missing ∧ ∀ e ∈ entries, ∀ k ∈ e.2, e.1.logicalChunk = idx → store k := by
  unfold complete
  rw [Bool.and_eq_true, all_eq_true]
  refine and_congr (by simp) (forall₂_congr fun e he => ?_)
  rw [present_eq hnd he, Bool.or_eq_true, decide_eq_true_iff, beq_iff_eq, countP_eq_length,
    ← imp_iff_not_or]
  exact ⟨fun h k hk hidx => h hidx k hk, fun h hidx k hk => h k hk hidx⟩

end Counting

/-! ## One probe -/

section Probe

variable {s : Stage} (w : Worker s) {hashes : List Bytes} {C : Nat}

/-- What a group contributes to the probe at an aligned length: the keys of its needed chunks, by
logical chunk, and the logical chunks without a hash. -/
structure ProbeSpec (hashes : List Bytes) (C i : Nat) (g : Group) (p : GroupProbe) : Prop where
  forall_keys : ∀ P : Nat → PoolKey → Prop, (∀ e ∈ p.entries, ∀ k ∈ e.2, P e.1.logicalChunk k) ↔
      ∀ j hash, (s.blockHashesForSpec hashes g.blockSize)[j]? = some hash → s.Needed C i g j →
        ∀ w' : Worker s, P (j * g.blockSize / s.layout.lcmBlockSize) ⟨w'.metadata g i, hash⟩
  missing : ∀ idx, idx ∈ p.missing ↔ ∃ j, s.Needed C i g j ∧
    (s.blockHashesForSpec hashes g.blockSize).length ≤ j ∧
    idx = j * g.blockSize / s.layout.lcmBlockSize
  nodup : (p.entries.map (·.1)).Nodup
  group : ∀ e ∈ p.entries, e.1.group = i

theorem lt_of_mask {mask : List Bool} (h : mask.getD j false) : j < mask.length := by
  by_contra hge
  simp [getD_eq_getElem?_getD, getElem?_eq_none (Nat.le_of_not_lt hge)] at h

theorem groupProbe_spec (henc : s.Encodable hashes) (hg : s.layout.groups[i]? = some g)
    (hC : s.layout.lcmBlockSize ∣ C) :
    ∃ p, w.groupProbe hashes C g i (s.maskAt C i g) = .ok p ∧ ProbeSpec
      (s := s) hashes C i g p := by
  unfold groupProbe
  split
  case isTrue hnil =>
    refine ⟨_, rfl, ⟨fun P => ?_, fun idx => ?_, nodup_nil, nofun⟩⟩ <;>
      simp [Stage.Needed, hnil]
  case isFalse hne =>
    obtain ⟨ns, hns, -⟩ := keyNamespaces_spec s.topology.tpSize (w.metadata g i).pcpSize
      (w.metadata g i).dcpSize s.topology.numKvHead (decide ((w.metadata g i).tpRank < 0)) g.mamba
    have hcache : g.prefixCacheable := by
      by_contra hno
      exact hne (by simp [maskAt, hno])
    have hbs := blockSize_pos hg
    have hkeys (P : Nat → PoolKey → Prop) :
        (∀ e ∈ w.groupEntries g (chunksBelow g.blockSize C (s.blockHashesForSpec hashes
          g.blockSize)) i
          (s.maskAt C i g) ns, ∀ k ∈ e.2, P e.1.logicalChunk k) ↔
        ∀ j hash, (s.blockHashesForSpec hashes g.blockSize)[j]? = some hash → s.Needed C i g j →
          ∀ w' : Worker s, P (j * g.blockSize / s.layout.lcmBlockSize) ⟨w'.metadata g i, hash⟩ := by
      constructor
      · intro h j hash hj hneed
        refine (forall_coordinate_iff w hcache hns).mp (h (⟨_, i, j, hash⟩, _) ?_)
        exact mem_filterMap.mpr
          ⟨(hash, j), (mem_chunksBelow hbs).mpr ⟨hj, hneed.2⟩, if_pos hneed.1⟩
      · intro h e he
        obtain ⟨⟨hash, j⟩, hx, he⟩ := mem_filterMap.mp he
        obtain ⟨hj, hlt⟩ := (mem_chunksBelow hbs).mp hx
        obtain ⟨hmask, he⟩ := Option.ite_none_right_eq_some.mp he
        cases he
        exact (forall_coordinate_iff w hcache hns).mpr (h j hash hj ⟨hmask, hlt⟩)
    obtain ⟨bytes, hbytes⟩ := exists_mapM_eq_ok (f := PoolKey.toBytes) <| forall_mem_flatMap.mpr <|
      (hkeys fun _ k => ∃ b, k.toBytes = .ok b).mpr fun j hash hj _ w' =>
        henc i g hg hash (mem_of_getElem? hj) w'
    refine ⟨_, bind_eq_ok_iff.mpr ⟨ns, hns, bind_eq_ok_iff.mpr ⟨bytes, hbytes, rfl⟩⟩,
      ⟨hkeys, ?_, ?_, ?_⟩⟩
    · intro idx
      have hdvd : g.blockSize ∣ C := (s.layout.block_dvd g (mem_of_getElem? hg)).trans hC
      have hdiv (j : Nat) : j < C / g.blockSize ↔ j * g.blockSize < C := by
        rw [Nat.lt_div_iff_mul_lt' hdvd, Nat.mul_comm]
      simp only [mem_map, mem_filter, mem_range'_1]
      constructor
      · rintro ⟨j, ⟨⟨hge, hlt⟩, hmask⟩, rfl⟩
        have hjC : j * g.blockSize < C := (hdiv j).mp (by omega)
        refine ⟨j, ⟨hmask, hjC⟩, ?_, rfl⟩
        by_contra hlen
        exact hge.not_gt ((lt_length_chunksBelow hbs).mpr ⟨Nat.lt_of_not_le hlen, hjC⟩)
      · rintro ⟨j, ⟨hmask, hjC⟩, hlen, rfl⟩
        have hge : (chunksBelow g.blockSize C (s.blockHashesForSpec hashes g.blockSize)).length
          ≤ j := by
          by_contra hlt
          exact hlen.not_gt ((lt_length_chunksBelow hbs).mp (Nat.lt_of_not_le hlt)).1
        have hml := lt_of_mask hmask
        have hj := (hdiv j).mpr hjC
        exact ⟨j, ⟨⟨hge, by omega⟩, hmask⟩, rfl⟩
    · -- Objects of a group differ in their chunk number.
      rw [List.Nodup, pairwise_map]
      refine List.Pairwise.filterMap _ ?_ ((zipIdx_pairwise _).sublist (takeWhile_sublist _))
      intro x y hxy e he e' he' heq
      obtain ⟨-, he⟩ := Option.ite_none_right_eq_some.mp he
      obtain ⟨-, he'⟩ := Option.ite_none_right_eq_some.mp he'
      rw [← Option.some.inj he, ← Option.some.inj he'] at heq
      exact hxy (congrArg ObjectMeta.chunkId heq)
    · intro e he
      obtain ⟨x, -, he⟩ := mem_filterMap.mp he
      obtain ⟨-, he⟩ := Option.ite_none_right_eq_some.mp he
      rw [← Option.some.inj he]

theorem mem_groups {x : Group × Nat} : x ∈ s.layout.groups.zipIdx ↔
    s.layout.groups[x.2]? = some x.1 := by
  obtain ⟨g, i⟩ := x
  exact mem_zipIdx_iff_getElem?

/-- What the probe of an aligned length answers. -/
structure CandidateSpec (s : Stage) (store : PoolKey → Bool) (hashes : List Bytes) (C : Nat)
    (c : Candidate) : Prop where
  dvd : s.layout.lcmBlockSize ∣ c.hit
  /-- Without a key nothing is admitted; with one, exactly the leading chunks whose required
      objects exist. -/
  hit : c.keys = [] ∧ c.hit = 0 ∨ ∀ m ≤ C, s.layout.lcmBlockSize ∣ m →
    (m ≤ c.hit ↔ ∀ i j g, s.layout.groups[i]? = some g → s.Required C i j → j * g.blockSize < m →
      s.Held store hashes i j)
  probed : hashes ≠ [] → ∀ i j g hash, s.Required C i j → s.layout.groups[i]? = some g →
    (s.blockHashesForSpec hashes g.blockSize)[j]? = some hash →
    ∀ w' : Worker s, ⟨w'.metadata g i, hash⟩ ∈ c.keys

/-- The probes of all groups. -/
structure ProbesSpec (hashes : List Bytes) (C : Nat) (probes : List GroupProbe) : Prop where
  forall_keys : ∀ P : Nat → PoolKey → Prop,
    (∀ e ∈ probes.flatMap (·.entries), ∀ k ∈ e.2, P e.1.logicalChunk k) ↔
      ∀ i g, s.layout.groups[i]? = some g → ∀ j hash,
        (s.blockHashesForSpec hashes g.blockSize)[j]? = some hash → s.Needed C i g j →
          ∀ w' : Worker s, P (j * g.blockSize / s.layout.lcmBlockSize) ⟨w'.metadata g i, hash⟩
  missing : ∀ idx, idx ∈ probes.flatMap (·.missing) ↔ ∃ i g, s.layout.groups[i]? = some g ∧
    ∃ j, s.Needed C i g j ∧ (s.blockHashesForSpec hashes g.blockSize).length ≤ j ∧
      idx = j * g.blockSize / s.layout.lcmBlockSize
  nodup : ((probes.flatMap (·.entries)).map (·.1)).Nodup

theorem groupProbes_spec (henc : s.Encodable hashes) (hC : s.layout.lcmBlockSize ∣ C) :
    ∃ probes, (s.layout.groups.zipIdx.mapM fun x =>
        w.groupProbe hashes C x.1 x.2 ((s.layout.groups.zipIdx.map fun x => s.maskAt C x.2
          x.1).getD x.2 []))
        = .ok probes ∧ ProbesSpec (s := s) hashes C probes := by
  have hex (x : Group × Nat) (hx : x ∈ s.layout.groups.zipIdx) : ∃ p,
      w.groupProbe hashes C x.1 x.2 (s.maskAt C x.2 x.1) = .ok p ∧
        ProbeSpec (s := s) hashes C x.2 x.1 p := w.groupProbe_spec henc (mem_groups.mp hx) hC
  have : Nonempty GroupProbe := ⟨{}⟩
  choose! f hok hf using hex
  refine ⟨s.layout.groups.zipIdx.map f, mapM_eq_ok_map fun x hx => ?_, fun P => ?_,
    fun idx => ?_, ?_⟩
  · rw [getD_masks (mem_groups.mp hx)]
    exact hok x hx
  · simp only [forall_mem_flatMap, forall_mem_map]
    constructor
    · intro h i g hg
      have hx : (g, i) ∈ s.layout.groups.zipIdx := mem_groups.mpr hg
      exact ((hf _ hx).forall_keys P).mp (h _ hx)
    · intro h x hx
      exact ((hf x hx).forall_keys P).mpr (h x.2 x.1 (mem_groups.mp hx))
  · simp only [mem_flatMap, mem_map, exists_exists_and_eq_and]
    constructor
    · rintro ⟨x, hx, hidx⟩
      exact ⟨x.2, x.1, mem_groups.mp hx, ((hf x hx).missing idx).mp hidx⟩
    · rintro ⟨i, g, hg, hidx⟩
      have hx : (g, i) ∈ s.layout.groups.zipIdx := mem_groups.mpr hg
      exact ⟨_, hx, ((hf _ hx).missing idx).mpr hidx⟩
  · -- Objects of one group are distinct, and different groups have different numbers.
    rw [map_flatMap, nodup_flatMap, forall_mem_map, pairwise_map]
    refine ⟨fun x hx => (hf x hx).nodup, (zipIdx_pairwise _).imp_of_mem fun {x y} hx hy hxy => ?_⟩
    refine disjoint_left.mpr fun o ho ho' => hxy ?_
    obtain ⟨e, he, rfl⟩ := mem_map.mp ho
    obtain ⟨e', he', heq⟩ := mem_map.mp ho'
    rw [← (hf x hx).group e he, ← (hf y hy).group e' he', heq]

/-- A logical chunk is complete exactly when its required objects exist. -/
theorem complete_probes {store : PoolKey → Bool} {probes : List GroupProbe}
    (hp : ProbesSpec (s := s) hashes C probes) (hC : s.layout.lcmBlockSize ∣ C) (hpos : 0 < C)
    {idx : Nat} :
    complete store (probes.flatMap (·.entries)) (probes.flatMap (·.missing)) idx ↔
      ∀ i j g, s.layout.groups[i]? = some g → s.Required C i j →
        j * g.blockSize / s.layout.lcmBlockSize = idx → s.Held store hashes i j := by
  rw [complete_iff hp.nodup, hp.missing, hp.forall_keys fun x k => x = idx → store k = true]
  constructor
  · rintro ⟨hmiss, hall⟩ i j g hg hreq rfl
    have hneed := (required_iff hC hpos hg).mp hreq
    cases hhash : (s.blockHashesForSpec hashes g.blockSize)[j]? with
    | none => exact absurd ⟨i, g, hg, j, hneed, getElem?_eq_none_iff.mp hhash, rfl⟩ hmiss
    | some hash => exact ⟨g, hash, hg, hhash, fun w' => hall i g hg j hash hhash hneed w' rfl⟩
  · intro hall
    constructor
    · rintro ⟨i, g, hg, j, hneed, hge, rfl⟩
      obtain ⟨hash, hhash, -⟩ :=
        (hall i j g hg ((required_iff hC hpos hg).mpr hneed) rfl).at_hash hg
      rw [getElem?_eq_none hge] at hhash
      cases hhash
    · intro i g hg j hash hhash hneed w' hidx
      obtain ⟨hash', hhash', hstore⟩ :=
        (hall i j g hg ((required_iff hC hpos hg).mpr hneed) hidx).at_hash hg
      cases hhash.symm.trans hhash'
      exact hstore w'

theorem lookupCandidate_spec (store : PoolKey → Bool) (henc : s.Encodable hashes)
    (hC : s.layout.lcmBlockSize ∣ C) (hpos : 0 < C) :
    ∃ c, w.lookupCandidate store hashes C = .ok c ∧ CandidateSpec s store hashes C c := by
  by_cases hnil : hashes = []
  · -- Without hashes the probe answers zero at once.
    exact ⟨⟨0, []⟩, if_pos (Or.inl hnil), dvd_zero _, Or.inl ⟨rfl, rfl⟩, fun h => absurd hnil h⟩
  obtain ⟨probes, hprobes, hp⟩ := w.groupProbes_spec henc hC
  refine ⟨judge store s.layout.lcmBlockSize C probes, ?_, ?_⟩
  · unfold lookupCandidate
    rw [if_neg (by simp [hnil, hpos.ne'])]
    dsimp only
    rw [Nat.div_mul_cancel hC, loadMask_eq hC hpos]
    refine bind_eq_ok_iff.mpr ⟨_, rfl, ?_⟩
    rw [if_neg hpos.ne']
    exact bind_eq_ok_iff.mpr ⟨probes, hprobes, rfl⟩
  have hprobed : ∀ i j g hash, s.Required C i j → s.layout.groups[i]? = some g →
      (s.blockHashesForSpec hashes g.blockSize)[j]? = some hash →
      ∀ w' : Worker s, ⟨w'.metadata g i, hash⟩ ∈
        (candidates (probes.flatMap (·.entries))).map (·.2) := by
    intro i j g hash hreq hg hhash
    refine (hp.forall_keys fun _ k => k ∈ (candidates (probes.flatMap (·.entries))).map (·.2)).mp
      (fun e he k hk => ?_) i g hg j hash hhash ((required_iff hC hpos hg).mp hreq)
    exact mem_map.mpr
      ⟨(e.1, k), mem_flatMap.mpr ⟨e, he, mem_map_of_mem hk⟩, rfl⟩
  unfold judge
  dsimp only
  split
  case isTrue hnil =>
    rw [hnil] at hprobed
    exact ⟨dvd_zero _, Or.inl ⟨rfl, rfl⟩, fun _ => hprobed⟩
  case isFalse hne =>
    refine ⟨dvd_mul_left _ _, Or.inr fun m hm hmd => ?_, fun _ => hprobed⟩
    obtain ⟨k, rfl⟩ := hmd
    have hk : k ≤ C / s.layout.lcmBlockSize :=
      (le_div_iff_mul_le s.layout.lcm_pos).mpr (Nat.mul_comm _ k ▸ hm)
    dsimp only
    rw [Nat.mul_comm, Nat.mul_le_mul_right_iff s.layout.lcm_pos,
      le_leadingRun_iff (by simpa using hk)]
    have hat {idx : Nat} (hidx : idx < k) :
        ((range (C / s.layout.lcmBlockSize)).map (complete store (probes.flatMap (·.entries))
          (probes.flatMap (·.missing)))).getD idx false ↔
        ∀ i j g, s.layout.groups[i]? = some g → s.Required C i j →
          j * g.blockSize / s.layout.lcmBlockSize = idx → s.Held store hashes i j := by
      rw [← complete_probes hp hC hpos, getD_eq_getElem?_getD, getElem?_map,
        getElem?_range (hidx.trans_le hk)]
      rfl
    constructor
    · intro h i j g hg hreq hlt
      have hidx : j * g.blockSize / s.layout.lcmBlockSize < k :=
        (div_lt_iff_lt_mul s.layout.lcm_pos).mpr hlt
      exact (hat hidx).mp (h _ hidx) i j g hg hreq rfl
    · intro h idx hidx
      refine (hat hidx).mpr fun i j g hg hreq hj => h i j g hg hreq ?_
      exact (div_lt_iff_lt_mul s.layout.lcm_pos).mp (hj ▸ hidx)

end Probe

/-! ## The lookup -/

end Worker

namespace Stage

def NeedsSome (s : Stage) : Prop :=
  ∀ C, s.layout.lcmBlockSize ∣ C → 0 < C → ∃ i j, s.Required C i j

/-- A chunk that is required at a length is required at every shorter aligned length that still
contains it. -/
def Windowed (s : Stage) : Prop :=
  ∀ C C' i j g, s.layout.lcmBlockSize ∣ C → s.layout.lcmBlockSize ∣ C' → C' ≤ C →
    s.layout.groups[i]? = some g → s.Required C i j → j * g.blockSize < C' → s.Required C' i j

end Stage

namespace Worker

section Lookup

variable {s : Stage} (w : Worker s) {hashes : List Bytes}

theorem mem_loadKeys {C maskNum : Nat} {keys : List PoolKey}
    (h : w.loadKeys C hashes maskNum = .ok keys) {k : PoolKey} (hk : k ∈ keys) :
    ∃ i j g hash, s.Required C i j ∧ s.layout.groups[i]? = some g ∧
      (s.blockHashesForSpec hashes g.blockSize)[j]? = some hash ∧ k = ⟨w.metadata g i, hash⟩ := by
  obtain ⟨masks, hmasks, hout⟩ := bind_eq_ok_iff.mp h
  obtain ⟨_, -, hout⟩ := bind_eq_ok_iff.mp hout
  cases hout
  obtain ⟨⟨g, i⟩, hx, hk⟩ := mem_flatMap.mp hk
  have hg := mem_groups.mp hx
  obtain ⟨t, ht, hk⟩ := mem_filterMap.mp hk
  dsimp only at ht hk hg
  split at hk
  case isFalse => simp at hk
  rename_i hmask
  cases hk
  unfold processTokens at ht
  split at ht
  · simp at ht
  obtain ⟨⟨hash, j⟩, hx, ht⟩ := mem_filterMap.mp ht
  obtain ⟨hj, hlt⟩ := (mem_chunksBelow (blockSize_pos hg)).mp hx
  dsimp only at ht
  split at ht
  · simp at ht
  cases ht
  rw [Nat.mul_div_cancel _ (blockSize_pos hg)] at hmask
  exact ⟨i, j, g, hash, ⟨masks, g, hmasks, hg, hmask, hlt⟩, hg, hj, rfl⟩

theorem CandidateSpec.le_hit {C m : Nat} {c : Candidate} {store : PoolKey → Bool}
    (hc : CandidateSpec s store hashes C c) (hC : s.layout.lcmBlockSize ∣ C) (hpos : 0 < C)
    (hcov : C ≤ hashes.length * s.layout.hashBlockSize) (hfull : s.FullBlocks)
    (hsome : s.NeedsSome) (hwin : s.Windowed) (w : Worker s) (hm : m ≤ C)
      (hmd : s.layout.lcmBlockSize ∣ m)
    (hload : s.Loadable store hashes m) : m ≤ c.hit := by
  rcases hc.hit with ⟨hnil, -⟩ | hhit
  · obtain ⟨i, j, hreq⟩ := hsome C hC hpos
    obtain ⟨g, hg⟩ := hreq.group
    have hneed := (required_iff hC hpos hg).mp hreq
    have hlen := hash_of_cover hfull hg hneed.prefixCacheable hC hcov hneed.2
    have hne : hashes ≠ [] := by
      rintro rfl
      simp only [length_nil, Nat.zero_mul] at hcov
      omega
    have hkey := hc.probed hne i j g _ hreq hg (getElem?_eq_getElem hlen) w
    rw [hnil] at hkey
    exact absurd hkey not_mem_nil
  · refine (hhit m hm hmd).mpr fun i j g hg hreq hlt => hload i j ?_
    exact hwin C m i j g hC hmd hm hg hreq hlt

theorem lookupLoop_ok {client : Client} {retainTtlS : Int} {first : List PoolKey} {C : Nat}
    {c : Candidate} (hne : C ≠ 0) (hcand : w.lookupCandidate client.store hashes C = .ok c) :
    w.lookupLoop client hashes retainTtlS first C =
      if c.hit = C then
        .ok (c.hit, appliedTtl client retainTtlS (if first = [] then c.keys else first))
      else w.lookupLoop client hashes retainTtlS (if first = [] then c.keys else first) c.hit := by
  rw [lookupLoop, if_neg hne]
  split
  · simp_all
  · rename_i c' hc
    cases hcand.symm.trans hc
    rfl

theorem lookupLoop_spec (client : Client) (henc : s.Encodable hashes) (retainTtlS : Int) {C : Nat}
    (hC : s.layout.lcmBlockSize ∣ C) (first : List PoolKey) :
    ∃ h t, w.lookupLoop client hashes retainTtlS first C = .ok (h, t) ∧
      s.layout.lcmBlockSize ∣ h ∧ h ≤ C ∧
      (0 < h → ∃ c, w.lookupCandidate client.store hashes h = .ok c ∧ c.hit = h) ∧
      (C ≤ hashes.length * s.layout.hashBlockSize → s.FullBlocks → s.NeedsSome → s.Windowed →
        ∀ m ≤ C, s.layout.lcmBlockSize ∣ m → s.Loadable client.store hashes m → m ≤ h) := by
  -- Each turn either stops at its candidate or goes on with a smaller one.
  induction C using Nat.strong_induction_on generalizing first with
  | _ C ih =>
    by_cases hne : C = 0
    · rw [lookupLoop, if_pos hne]
      exact ⟨0, _, rfl, dvd_zero _, zero_le _, fun h => absurd h (lt_irrefl 0),
        fun _ _ _ _ m hm _ _ => hne ▸ hm⟩
    have hpos := pos_of_ne_zero hne
    obtain ⟨c, hcand, hspec⟩ := w.lookupCandidate_spec client.store henc hC hpos
    have hle := w.lookupCandidate_le hcand
    have hmax := fun hcov hfull hsome hwin m hm hmd hload =>
      hspec.le_hit (m := m) hC hpos hcov hfull hsome hwin w hm hmd hload
    rw [w.lookupLoop_ok hne hcand]
    by_cases hstop : c.hit = C
    · rw [if_pos hstop]
      exact ⟨c.hit, _, rfl, hspec.dvd, hle, fun _ => ⟨c, by rw [hstop]; exact hcand, rfl⟩, hmax⟩
    · rw [if_neg hstop]
      obtain ⟨h, t, hloop, hdvd, hhle, hcan, hbest⟩ := ih c.hit (lt_of_le_of_ne hle hstop)
        hspec.dvd (if first = [] then c.keys else first)
      refine ⟨h, t, hloop, hdvd, hhle.trans hle, hcan,
        fun hcov hfull hsome hwin m hm hmd hload => ?_⟩
      exact hbest (hle.trans hcov) hfull hsome hwin m (hmax hcov hfull hsome hwin m
        hm hmd hload) hmd
        hload

/-- A lookup whose keys can be encoded returns an aligned length within the tokens. If it is
positive, every chunk that a load of that length requires has a hash, and the key of every worker of
the stage for it was probed and exists; so were and do the keys that a load of any worker requests.
If the hashes cover the tokens, the engine's list has every full block, every length needs an object
and the masks are windows, it is the largest loadable length. -/
theorem lookup_admits_longest_prefix (client : Client) (tokenLen : Nat) (hashes : List Bytes)
    (retainTtlS : Int) (henc : s.Encodable hashes) :
    ∃ h t, w.lookup client tokenLen hashes retainTtlS = .ok (h, t) ∧
      s.layout.lcmBlockSize ∣ h ∧ h ≤ tokenLen ∧
      (0 < h → ∃ c, w.lookupCandidate client.store hashes h = .ok c ∧
        (∀ i j, s.Required h i j → ∃ g hash, s.layout.groups[i]? = some g ∧
          (s.blockHashesForSpec hashes g.blockSize)[j]? = some hash ∧
          ∀ w' : Worker s, ⟨w'.metadata g i, hash⟩ ∈ c.keys ∧
            client.store ⟨w'.metadata g i, hash⟩ = true) ∧
        ∀ (w' : Worker s) maskNum keys, w'.loadKeys h hashes maskNum = .ok keys →
          ∀ k ∈ keys, k ∈ c.keys ∧ client.store k = true) ∧
      (tokenLen ≤ hashes.length * s.layout.hashBlockSize → s.FullBlocks → s.NeedsSome → s.Windowed →
        ∀ m ≤ tokenLen, s.layout.lcmBlockSize ∣ m → s.Loadable client.store hashes m → m ≤ h) := by
  have hC : s.layout.lcmBlockSize ∣ tokenLen / s.layout.lcmBlockSize * s.layout.lcmBlockSize :=
    Nat.dvd_mul_left _ _
  have hCle : tokenLen / s.layout.lcmBlockSize * s.layout.lcmBlockSize ≤ tokenLen :=
    Nat.div_mul_le_self _ _
  obtain ⟨h, t, hloop, hdvd, hle, hcan, hbest⟩ :=
    w.lookupLoop_spec client henc retainTtlS hC []
  refine ⟨h, t, hloop, hdvd, hle.trans hCle, fun hpos => ?_,
    fun hcov hfull hsome hwin m hm hmd hload => ?_⟩
  · obtain ⟨c, hcand, hhit⟩ := hcan hpos
    obtain ⟨c', hcand', hspec⟩ := w.lookupCandidate_spec client.store henc hdvd hpos
    cases hcand.symm.trans hcand'
    have hne : hashes ≠ [] := by
      intro hnil
      cases hcand.symm.trans (if_pos (Or.inl hnil))
      exact hpos.ne hhit
    have hheld : ∀ i j, s.Required h i j → s.Held client.store hashes i j := by
      rcases hspec.hit with ⟨-, h0⟩ | hhits
      · omega
      · intro i j hreq
        obtain ⟨g, hg⟩ := hreq.group
        have hneed := (Stage.required_iff hdvd hpos hg).mp hreq
        exact (hhits h le_rfl hdvd).mp hhit.ge i j g hg hreq hneed.2
    refine ⟨c, hcand, fun i j hreq => ?_, fun w' maskNum keys hkeys k hk => ?_⟩
    · obtain ⟨g, hash, hg, hhash, hstore⟩ := hheld i j hreq
      exact ⟨g, hash, hg, hhash, fun w' =>
        ⟨hspec.probed hne i j g hash hreq hg hhash w', hstore w'⟩⟩
    · obtain ⟨i, j, g, hash, hreq, hg, hhash, rfl⟩ := w'.mem_loadKeys hkeys hk
      obtain ⟨hash', hhash', hstore⟩ := (hheld i j hreq).at_hash hg
      cases hhash.symm.trans hhash'
      exact ⟨hspec.probed hne i j g hash hreq hg hhash w', hstore w'⟩
  · refine hbest (hCle.trans hcov) hfull hsome hwin m ?_ hmd hload
    obtain ⟨k, rfl⟩ := hmd
    rw [Nat.mul_comm]
    exact Nat.mul_le_mul_right _ ((Nat.le_div_iff_mul_le s.layout.lcm_pos).mpr
      (by rwa [Nat.mul_comm]))

/-- One group of two-token blocks, all of which are needed. -/
def plainStage : Stage :=
  { topology := {}
    layout :=
      { groups := [{ blockSize := 2 }]
        hashBlockSize := 2
        lcmBlockSize := 2
        lcm_pos := by decide
        hash_pos := by decide
        block_dvd := by decide
        hash_dvd := by decide
        hash_dvd_lcm := by decide }
    hitBlocks := fun _ n => replicate (n / 2) true
    blockHashList := fun hashes _ _ => hashes }

theorem plainStage_required {C : Nat} (hC : 2 ∣ C) (hpos : 0 < C) :
    plainStage.Required C i j ↔ i = 0 ∧ j * 2 < C := by
  cases i with
  | zero =>
    have hget : (replicate (C / 2) true).getD j false ↔ j < C / 2 := by
      rw [getD_eq_getElem?_getD, getElem?_replicate]
      split <;> simp_all
    rw [required_iff hC hpos (g := { blockSize := 2 }) rfl]
    exact (and_congr_left' hget).trans ⟨fun h => ⟨rfl, h.2⟩, fun h => ⟨by omega, h.2⟩⟩
  | succ i => exact iff_of_false (fun h => nomatch h.group) nofun

/-- The only worker of `plainStage`. -/
def plainWorker : Worker plainStage := ⟨⟨0, by decide⟩, ⟨0, by decide⟩⟩

def fullClient : Client := { store := fun _ => true }

theorem plainStage_encodable : plainStage.Encodable [[1], [2]] := by
  intro i g hg hash hhash w
  cases i with
  | zero =>
    cases hg
    obtain rfl : w = plainWorker := by
      obtain ⟨⟨tp, htp⟩, ⟨pcp, hpcp⟩⟩ := w
      obtain rfl : tp = 0 := Nat.lt_one_iff.mp htp
      obtain rfl : pcp = 0 := Nat.lt_one_iff.mp hpcp
      rfl
    rcases mem_cons.mp hhash with rfl | hhash
    · exact exists_eq_ok_iff.mpr (by decide +kernel)
    · cases mem_singleton.mp hhash
      exact exists_eq_ok_iff.mpr (by decide +kernel)
  | succ i => cases hg

/-- Both blocks of a stored prompt are admitted. -/
theorem plainStage_admits_all : ∃ h t,
    plainWorker.lookup fullClient 4 [[1], [2]] 0 = .ok (h, t) ∧ 4 ≤ h := by
  obtain ⟨h, t, hrun, -, -, -, hbest⟩ :=
    lookup_admits_longest_prefix plainWorker fullClient 4 [[1], [2]] 0 plainStage_encodable
  have hsome : plainStage.NeedsSome := fun C hC hpos =>
    ⟨0, 0, (plainStage_required hC hpos).mpr ⟨rfl, by omega⟩⟩
  have hwin : plainStage.Windowed := by
    intro C C' i j g hC hC' hle hg hreq hlt
    rcases Nat.eq_zero_or_pos C' with rfl | hpos
    · exact absurd hlt (Nat.not_lt_zero _)
    · obtain ⟨rfl, -⟩ := (plainStage_required hC (hpos.trans_le hle)).mp hreq
      cases hg
      exact (plainStage_required hC' hpos).mpr ⟨rfl, hlt⟩
  refine ⟨h, t, hrun, hbest (by decide) (fun hashes scale _ => Nat.div_le_self _ _)
    hsome hwin 4 le_rfl
    (by decide) fun i j hreq => ?_⟩
  obtain ⟨rfl, hlt⟩ := (plainStage_required (by decide) (by decide)).mp hreq
  obtain ⟨hash, hhash⟩ : ∃ hash, ([[1], [2]] : List Bytes)[j]? = some hash :=
    ⟨_, List.getElem?_eq_getElem (show j < 2 by omega)⟩
  exact ⟨{ blockSize := 2 }, hash, rfl, hhash, fun _ => rfl⟩

/-- `pool_key` takes no empty hash, so the lookup of a block with one raises. -/
theorem empty_hash_raises :
    ¬∃ h t, plainWorker.lookup fullClient 2 [[]] 0 = .ok (h, t) := by
  rintro ⟨h, t, hrun⟩
  have hraises : ¬∃ c, plainWorker.lookupCandidate fullClient.store [[]] 2 = .ok c := by
    rw [exists_eq_ok_iff]
    decide +kernel
  change plainWorker.lookupLoop fullClient [[]] 0 [] 2 = _ at hrun
  rw [lookupLoop, if_neg (by decide)] at hrun
  split at hrun
  · cases hrun
  · next c hc => exact hraises ⟨c, hc⟩

end Lookup

end Worker

end DingoCache.Vllm
