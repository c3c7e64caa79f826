import DingoCache.Vllm.Lookup

/-!
# vLLM: Who Stores Which Chunk

The store side of `integration/vllm/src/dfkv_vllm/worker.py`: the stripe of a worker, the
client ranks of `client_ranks.py`, and the loop of `KVCacheStoreSendingThread._handle_request`
that picks the chunks of a SAVE.
-/

namespace DingoCache.Vllm

open Library Connector List Nat

variable {g : Group} {tpSize : Nat} {masks : List (List Bool)} {os : List Offer}

/-! ## Client ranks -/

/-- The digits of `int(text)`; an underscore stands between two of them. -/
def pyDigits (acc : Nat) (afterDigit : Bool) : List Char → Option Nat
  | [] => if afterDigit then some acc else none
  | c :: cs =>
    if c = '_' then if afterDigit then pyDigits acc false cs else none
    else if c.isDigit then pyDigits (acc * 10 + (c.toNat - 48)) true cs
    else none

/-- `int(text)` of a stripped text. Python takes any decimal digit, the model the ASCII ones. -/
def pyInt (text : String) : Option Int :=
  match text.toList with
  | '-' :: ds => (pyDigits 0 false ds).map fun n => -(n : Int)
  | '+' :: ds => (pyDigits 0 false ds).map fun n => (n : Int)
  | ds => (pyDigits 0 false ds).map fun n => (n : Int)

/-- The reason that `resolve_client_ranks` logs. -/
inductive RanksReason where
  | default
  | notReplicated (requested : String)
  | auto
  | unparseable (requested : String)
  | range (requested : String)
  | requested (n : Nat)
deriving DecidableEq

/-- `strip` and `lower` act on the ASCII characters only. -/
def resolveClientRanks (requested : Option String) (tpSize : Nat) (replicated : Bool) :
    Nat × RanksReason :=
  match requested with
  | none => (tpSize, .default)
  | some text =>
    if text.isEmpty then (tpSize, .default)
    else if !replicated then (tpSize, .notReplicated text)
    else
      let req := text.trimAscii.toString.toLower
      if req = "auto" then (1, .auto)
      else match pyInt req with
        | none => (tpSize, .unparseable text)
        | some n =>
          if n < 1 ∨ n > tpSize then ((min (max n 1) tpSize).toNat, .range text)
          else (n.toNat, .requested n.toNat)

def participant (tpRank tpSize effective : Nat) : Option Nat :=
  let spacing := tpSize / effective
  if tpRank % spacing ≠ 0 then none
  else
    let idx := tpRank / spacing
    if idx < effective then some idx else none

/-- Fewer clients than ranks are only resolved for replicated payloads, and never none. -/
theorem resolveClientRanks_lt {requested : Option String} {replicated : Bool} (htp : 0 < tpSize)
    (h : (resolveClientRanks requested tpSize replicated).1 < tpSize) :
    replicated ∧ 0 < (resolveClientRanks requested tpSize replicated).1 := by
  unfold resolveClientRanks at h ⊢
  cases requested with
  | none => exact absurd h (by simp)
  | some text =>
    dsimp only at h ⊢
    split at h
    · exact absurd h (by simp)
    · next hne =>
      rw [if_neg hne]
      split at h
      · exact absurd h (by simp)
      · next hrep =>
        rw [if_neg hrep]
        refine ⟨by simpa using hrep, ?_⟩
        split
        · exact one_pos
        · split
          · exact htp
          · split <;> dsimp only <;> omega

theorem participant_eq_some_iff {tpRank effective idx : Nat} (heff : 0 < effective)
    (hle : effective ≤ tpSize) :
    participant tpRank tpSize effective = some idx ↔
      idx < effective ∧ tpRank = idx * (tpSize / effective) := by
  have hspacing : 0 < tpSize / effective := Nat.div_pos hle heff
  unfold participant
  dsimp only
  constructor
  · intro h
    split at h
    · cases h
    · next hmod =>
      split at h
      · next hidx =>
        cases h
        exact ⟨hidx, (Nat.div_mul_cancel (Nat.dvd_of_mod_eq_zero (not_not.mp hmod))).symm⟩
      · cases h
  · rintro ⟨hidx, rfl⟩
    rw [if_neg (by simp), Nat.mul_div_cancel _ hspacing, if_pos hidx]

/-! ## The stripe of a worker -/

/-- The state of the group is sharded by TP (`_tp_sharded_groups`). -/
def Group.tpSharded (g : Group) : Bool := g.mamba && g.prefixCacheable

/-- What a send thread compares stripe positions with; `none` is a non-participant. -/
structure Stripe where
  idx : Option Nat
  step : Nat
deriving DecidableEq

namespace Worker

variable {s : Stage} (w : Worker s)

/-- `key_stripe` of the constructor. -/
def keyStripe : KeyStripeIdentity :=
  stripeOf w.tpRank s.topology.tpSize w.pcpRank s.topology.pcpSize w.dcpRank s.topology.dcpSize
    s.topology.numKvHead s.topology.useMla

/-- `replicated` of the constructor. -/
def replicated : Bool := w.headOrTpRank < 0 && !s.layout.groups.any Group.tpSharded

/-- `client_ranks`, for the value of `DFKV_CONNECTOR_CLIENT_RANKS`. -/
def clientRanks (requested : Option String) : Nat :=
  (resolveClientRanks requested s.topology.tpSize w.replicated).1

/-- The stripe of the send thread, which `register_kv_caches` moves to the participants in converged
mode. -/
def sendStripe (requested : Option String) : Stripe :=
  if w.clientRanks requested < s.topology.tpSize then
    ⟨participant w.tpRank s.topology.tpSize (w.clientRanks requested), w.clientRanks requested⟩
  else ⟨some w.keyStripe.stripeIdx, w.keyStripe.stripeStep⟩

/-- `selected` of `_handle_request`. -/
def selects (requested : Option String) (g : Group) (position : Nat) : Bool :=
  g.tpSharded ||
    match (w.sendStripe requested).idx with
    | none => false
    | some idx => position % (w.sendStripe requested).step == idx

def coordinate (g : Group) : Coordinate :=
  ⟨if g.tpSharded then w.tpRank else w.headOrTpRank, w.pcpRank, w.dcpRank⟩

end Worker

/-! ## One worker for each position -/

section Replicas

variable {s : Stage}

/-- The workers with the key coordinate of `w`, by TP rank (`replica_ranks`). -/
def replicaRanks (w : Worker s) : List Nat :=
  (range s.topology.tpSize).filter fun candidate =>
    keyTpRank s.topology.tpSize s.topology.numKvHead candidate =
        keyTpRank s.topology.tpSize s.topology.numKvHead w.tpRank &&
      expectedDcpRank s.topology.pcpSize s.topology.dcpSize candidate w.pcpRank = w.dcpRank

theorem mem_replicaRanks {w : Worker s} {r : Nat} : r ∈ replicaRanks w ↔ r < s.topology.tpSize ∧
      keyTpRank s.topology.tpSize s.topology.numKvHead r =
        keyTpRank s.topology.tpSize s.topology.numKvHead w.tpRank ∧
      expectedDcpRank s.topology.pcpSize s.topology.dcpSize r w.pcpRank = w.dcpRank := by
  simp [replicaRanks]

theorem replicaRanks_nodup (w : Worker s) : (replicaRanks w).Nodup :=
  nodup_range.filter _

theorem self_mem_replicaRanks (w : Worker s) : (w.tpRank : Nat) ∈ replicaRanks w :=
  mem_replicaRanks.mpr ⟨w.tpRank.isLt, rfl, rfl⟩

theorem keyTpRank_one_head {tpRank : Nat} (h : tpRank < tpSize) :
    keyTpRank tpSize 1 tpRank = 0 := by
  unfold keyTpRank
  dsimp only
  split
  · rw [Nat.div_one]
    split
    · exact div_eq_of_lt h
    · omega
  · next hle =>
    rw [if_neg (by omega)]
    omega

/-- Two workers share a coordinate of a replicated group exactly when they are replicas. -/
theorem coordinate_eq_iff {w w' : Worker s} (hg : g.tpSharded = false) :
    w'.coordinate g = w.coordinate g ↔
      w'.pcpRank = w.pcpRank ∧ (w'.tpRank : Nat) ∈ replicaRanks w := by
  have hrank : w'.headOrTpRank = w.headOrTpRank ↔
      keyTpRank s.topology.tpSize s.topology.numKvHead w'.tpRank =
        keyTpRank s.topology.tpSize s.topology.numKvHead w.tpRank := by
    unfold Worker.headOrTpRank stripeOf
    dsimp only
    by_cases hmla : (s.topology.useMla && s.topology.pcpSize == 1 && s.topology.dcpSize == 1)
    · -- The canonical rank of a replicated latent hides a head that all ranks share.
      have hone : s.topology.numKvHead = 1 := by
        simp only [Bool.and_eq_true] at hmla
        simp [Topology.numKvHead, hmla.1.1]
      rw [if_pos hmla, if_pos hmla, hone, keyTpRank_one_head w.tpRank.isLt,
        keyTpRank_one_head w'.tpRank.isLt]
      exact iff_of_true rfl rfl
    · rw [if_neg hmla, if_neg hmla, Int.natCast_inj]
  rw [mem_replicaRanks]
  simp only [Worker.coordinate, hg, Bool.false_eq_true, if_false, Coordinate.mk.injEq, hrank,
    Fin.val_inj]
  constructor
  · rintro ⟨hkey, hpcp, hdcp⟩
    refine ⟨hpcp, w'.tpRank.isLt, hkey, ?_⟩
    rw [← hdcp, ← hpcp]
    rfl
  · rintro ⟨hpcp, -, hkey, hdcp⟩
    refine ⟨hkey, hpcp, ?_⟩
    rw [← hdcp, ← hpcp]
    rfl

theorem replicaRanks_congr {w w' : Worker s} (hpcp : w'.pcpRank = w.pcpRank)
    (h : (w'.tpRank : Nat) ∈ replicaRanks w) : replicaRanks w' = replicaRanks w := by
  obtain ⟨-, hkey, hdcp⟩ := mem_replicaRanks.mp h
  have hdcp' : w'.dcpRank = w.dcpRank := by
    rw [← hdcp, ← hpcp]
    rfl
  unfold replicaRanks
  rw [hkey, hdcp', hpcp]

theorem selects_full {w : Worker s} {requested : Option String} (hg : g.tpSharded = false)
    (hfull : ¬w.clientRanks requested < s.topology.tpSize) (p : Nat) :
    w.selects requested g p ↔
      p % (replicaRanks w).length = (replicaRanks w).idxOf (w.tpRank : Nat) := by
  simp only [Worker.selects, hg, Bool.false_or, Worker.sendStripe, if_neg hfull, beq_iff_eq]
  rfl

theorem converged_spec {w : Worker s} {requested : Option String}
    (h : w.clientRanks requested < s.topology.tpSize) :
    w.replicated ∧ s.topology.pcpSize = 1 ∧ 0 < w.clientRanks requested := by
  obtain ⟨hrep, hpos⟩ := resolveClientRanks_lt s.topology.tp_pos h
  refine ⟨hrep, ?_, hpos⟩
  have hneg : decide (w.headOrTpRank < 0) := (Bool.and_eq_true_iff.mp hrep).1
  rw [headOrTpRank_neg w] at hneg
  simp only [Bool.and_eq_true, beq_iff_eq] at hneg
  exact hneg.1.2

theorem replicated_eq (w w' : Worker s) : w'.replicated = w.replicated := by
  rw [Worker.replicated, Worker.replicated, headOrTpRank_neg w', headOrTpRank_neg w]

theorem clientRanks_eq (w w' : Worker s) (requested : Option String) :
    w'.clientRanks requested = w.clientRanks requested := by
  rw [Worker.clientRanks, Worker.clientRanks, replicated_eq w w']

theorem coordinate_eq_of_replicated {w : Worker s} (h : w.replicated)
    (hg : g.tpSharded = false) (w' : Worker s) : w'.coordinate g = w.coordinate g := by
  have hneg : decide (w.headOrTpRank < 0) := (Bool.and_eq_true_iff.mp h).1
  rw [headOrTpRank_neg w] at hneg
  simp only [Bool.and_eq_true, beq_iff_eq] at hneg
  obtain ⟨⟨hmla, hpcp⟩, hdcp⟩ := hneg
  have hone : s.topology.numKvHead = 1 := by simp [Topology.numKvHead, hmla]
  have hrank : w'.pcpRank = w.pcpRank := by
    have := w.pcpRank.isLt
    have := w'.pcpRank.isLt
    ext
    omega
  refine (coordinate_eq_iff hg).mpr ⟨hrank, mem_replicaRanks.mpr ⟨w'.tpRank.isLt, ?_, ?_⟩⟩
  · rw [hone, keyTpRank_one_head w.tpRank.isLt, keyTpRank_one_head w'.tpRank.isLt]
  · rw [Worker.dcpRank, expectedDcpRank, expectedDcpRank, hdcp, mod_one, mod_one]

/-- Exactly one worker of a coordinate selects each stripe position. -/
theorem existsUnique_selects (w : Worker s) (requested : Option String) (hg : g.tpSharded = false)
    (p : Nat) :
    ∃! w' : Worker s, w'.coordinate g = w.coordinate g ∧ w'.selects requested g p := by
  by_cases hconv : w.clientRanks requested < s.topology.tpSize
  · -- The participant whose index is the position modulo the number of clients.
    obtain ⟨hrep, hpcp, hpos⟩ := converged_spec hconv
    have hsel : ∀ w' : Worker s, w'.selects requested g p ↔ (w'.tpRank : Nat) =
        p % w.clientRanks requested * (s.topology.tpSize / w.clientRanks requested) := by
      intro w'
      have hcr := clientRanks_eq w w' requested
      have hlt := Nat.mod_lt p hpos
      simp only [Worker.selects, hg, Bool.false_or, Worker.sendStripe, hcr, if_pos hconv]
      constructor
      · intro h
        split at h
        · cases h
        · next idx hidx =>
          rw [eq_of_beq h]
          exact ((participant_eq_some_iff hpos hconv.le).mp hidx).2
      · intro h
        rw [(participant_eq_some_iff hpos hconv.le).mpr ⟨hlt, h⟩]
        exact beq_self_eq_true _
    have hbound : p % w.clientRanks requested * (s.topology.tpSize / w.clientRanks requested) <
        s.topology.tpSize := by
      refine lt_of_lt_of_le ?_ (mul_div_le s.topology.tpSize (w.clientRanks requested))
      exact Nat.mul_lt_mul_of_pos_right (Nat.mod_lt p hpos) (Nat.div_pos hconv.le hpos)
    refine ⟨⟨⟨_, hbound⟩, w.pcpRank⟩, ⟨coordinate_eq_of_replicated hrep hg _, (hsel _).mpr rfl⟩, ?_⟩
    rintro ⟨tp, pcp⟩ ⟨hcoord, h⟩
    have hpcp' := ((coordinate_eq_iff hg).mp hcoord).1
    have htp := (hsel ⟨tp, pcp⟩).mp h
    simp only at hpcp' htp
    rw [hpcp', show tp = ⟨_, hbound⟩ from Fin.ext htp]
  · -- The replica whose index is the position modulo the number of replicas.
    have hself := self_mem_replicaRanks w
    have hlen : 0 < (replicaRanks w).length := length_pos_of_mem hself
    have hlt := Nat.mod_lt p hlen
    have hmem := getElem_mem hlt
    obtain ⟨hr, -, -⟩ := mem_replicaRanks.mp hmem
    have hsel : ∀ w' : Worker s, w'.coordinate g = w.coordinate g → (w'.selects requested g p ↔
          p % (replicaRanks w).length = (replicaRanks w).idxOf (w'.tpRank : Nat)) := by
      intro w' hw'
      obtain ⟨hpcp, hin⟩ := (coordinate_eq_iff hg).mp hw'
      rw [selects_full hg (by rwa [clientRanks_eq w w' requested]), replicaRanks_congr hpcp hin]
    have hcoord : Worker.coordinate ⟨⟨_, hr⟩, w.pcpRank⟩ g = w.coordinate g :=
      (coordinate_eq_iff hg).mpr ⟨rfl, hmem⟩
    refine ⟨⟨⟨_, hr⟩, w.pcpRank⟩, ⟨hcoord, (hsel _ hcoord).mpr ?_⟩, ?_⟩
    · exact ((replicaRanks_nodup w).idxOf_getElem _ hlt).symm
    · rintro ⟨tp, pcp⟩ ⟨hc, h⟩
      obtain ⟨hpcp, hin⟩ := (coordinate_eq_iff hg).mp hc
      have hidx := (hsel ⟨tp, pcp⟩ hc).mp h
      simp only at hpcp hin hidx
      have htp : (tp : Nat) = (replicaRanks w)[p % (replicaRanks w).length] := by
        simp only [hidx]
        exact (getElem_idxOf (idxOf_lt_length_of_mem hin)).symm
      rw [hpcp, show tp = ⟨_, hr⟩ from Fin.ext htp]

end Replicas

/-! ## The chunks of a SAVE -/

/-- What a SAVE reads of its `ReqMeta`. -/
structure SaveRequest where
  tokenLen : Nat
  blockHashes : List Bytes
  blockIds : List (List Int)
  /-- `state_blocks`: for each sharded group, the block of each committed boundary. -/
  stateBlocks : Option (List (Nat × List (Nat × Int))) := none
  stepEnd : Option Nat := none
deriving DecidableEq

/-- The ids of a compact table, at the selected positions. -/
def spread : List Bool → List Int → List Int
  | [], _ => []
  | true :: mask, b :: ids => b :: spread mask ids
  | true :: mask, [] => -1 :: spread mask []
  | false :: mask, ids => -1 :: spread mask ids

def logicalBlockIds (mask : List Bool) (blockIds : List Int) : Except PyError (List Int) :=
  if mask.length ≤ blockIds.length then
    .ok ((mask.zip blockIds).map fun x => if x.1 then x.2 else -1)
  else if blockIds.length ≠ mask.count true then
    .error (.valueError ("block table has " ++ toString blockIds.length ++ " ids for " ++
      toString (mask.count true) ++ " selected state slots"))
  else .ok (spread mask blockIds)

/-- One entry of the lists that a SAVE hands on. -/
structure SaveChunk where
  group : Nat
  chunkIdx : Nat
  start : Nat
  stop : Nat
  key : PoolKey
  parentHash : Option Bytes
  blockId : Int
deriving DecidableEq

/-- The variables of the loop. -/
structure SaveState where
  stripePosition : Nat := 0
  skippedState : Bool := false
  parentHash : Option Bytes := none
  chunks : List SaveChunk := []
deriving DecidableEq

/-- What a group brings to the loop over its chunks. -/
structure GroupSave where
  mask : List Bool
  logical : List Int
  stateBlocks : Option (List (Nat × Int))
deriving DecidableEq

/-- The block of a chunk, or `none` where the loop passes over it. -/
def GroupSave.block (d : GroupSave) (chunkIdx stop : Nat) : Option Int :=
  match d.stateBlocks with
  | some blocks => if chunkIdx < d.mask.length then blocks.lookup stop else none
  | none => if d.mask.getD chunkIdx false then some (d.logical.getD chunkIdx (-1)) else none

/-- No hand-off names the state at this boundary, and the step does not end on it. -/
def GroupSave.unsure (d : GroupSave) (g : Group) (stepEnd : Option Nat) (stop : Nat) : Bool :=
  g.tpSharded && d.stateBlocks.isNone && stepEnd.any (· ≠ stop)

/-- The table and the hand-offs of group `i`. -/
def SaveRequest.groupSave (req : SaveRequest) (masks : List (List Bool)) (g : Group) (i : Nat) :
    Except PyError GroupSave := do
  let mask := masks.getD i []
  let logical ← logicalBlockIds mask (req.blockIds.getD i [])
  return { mask, logical
           stateBlocks :=
             if g.tpSharded then req.stateBlocks.map fun m => (m.lookup i).getD [] else none }

namespace Worker

variable {s : Stage} (w : Worker s)

def saveChunk (requested : Option String) (req : SaveRequest) (g : Group) (i : Nat)
    (d : GroupSave) (st : SaveState) (x : (Nat × Nat × PoolKey) × Nat) : SaveState :=
  let (start, stop, key) := x.1
  let parentHash := st.parentHash
  let st := { st with parentHash := some key.chunkHash }
  match d.block x.2 stop with
  | none => st
  | some blockId =>
    let selected := w.selects requested g st.stripePosition
    let st := { st with stripePosition := st.stripePosition + 1 }
    if !selected then st
    else if d.unsure g req.stepEnd stop then { st with skippedState := true }
    else if blockId ≤ 0 then st
    else { st with chunks := st.chunks ++ [⟨i, x.2, start, stop, key, parentHash, blockId⟩] }

def saveGroup (requested : Option String) (req : SaveRequest) (masks : List (List Bool))
    (st : SaveState) (x : Group × Nat) : Except PyError SaveState := do
  let d ← req.groupSave masks x.1 x.2
  return (w.processTokens x.1 x.2 req.tokenLen req.blockHashes 0).zipIdx.foldl
    (w.saveChunk requested req x.1 x.2 d) { st with parentHash := none }

/-- The chunks that `_handle_request` picks, under the masks of `store_mask`. -/
def saveChunks (requested : Option String) (req : SaveRequest) (masks : List (List Bool)) :
    Except PyError SaveState :=
  s.layout.groups.zipIdx.foldlM (w.saveGroup requested req masks) {}

end Worker

/-! ## What every worker is offered -/

/-- A chunk that takes up a stripe position, the same for every worker. -/
structure Offer where
  group : Group
  index : Nat
  chunkIdx : Nat
  start : Nat
  stop : Nat
  hash : Bytes
  parentHash : Option Bytes
  blockId : Int
  unsure : Bool
deriving DecidableEq

def Offer.Stored (o : Offer) : Prop := o.unsure = false ∧ 0 < o.blockId

instance (o : Offer) : Decidable o.Stored := inferInstanceAs (Decidable (_ ∧ _))

/-- The chunk as `w` stores it. -/
def Worker.chunkOf {s : Stage} (w : Worker s) (o : Offer) : SaveChunk :=
  ⟨o.index, o.chunkIdx, o.start, o.stop, ⟨w.metadata o.group o.index, o.hash⟩, o.parentHash,
    o.blockId⟩

/-- The chunks of a group that are offered, behind a chunk with hash `parentHash`. -/
def groupOffers (req : SaveRequest) (g : Group) (i : Nat) (d : GroupSave) :
    Option Bytes → List ((Nat × Nat × Bytes) × Nat) → List Offer
  | _, [] => []
  | parentHash, x :: xs =>
    ((d.block x.2 x.1.2.1).map fun blockId =>
      (⟨g, i, x.2, x.1.1, x.1.2.1, x.1.2.2, parentHash, blockId,
        d.unsure g req.stepEnd x.1.2.1⟩ : Offer)).toList ++
      groupOffers req g i d (some x.1.2.2) xs

namespace Stage

variable (s : Stage)

/-- `process_tokens` without the metadata of a worker. -/
def chunksOf (g : Group) (tokenLen : Nat) (hashes : List Bytes) : List (Nat × Nat × Bytes) :=
  if g.prefixCacheable = false ∨ hashes = [] then []
  else (chunksBelow g.blockSize tokenLen (s.blockHashesForSpec hashes g.blockSize)).map fun x =>
    (x.2 * g.blockSize, min (x.2 * g.blockSize + g.blockSize) tokenLen, x.1)

/-- The chunks that a SAVE offers to the workers, by stripe position. -/
def offers (req : SaveRequest) (masks : List (List Bool)) : Except PyError (List Offer) := do
  let perGroup ← s.layout.groups.zipIdx.mapM fun x => do
    let d ← req.groupSave masks x.1 x.2
    return groupOffers req x.1 x.2 d none (s.chunksOf x.1 req.tokenLen req.blockHashes).zipIdx
  return perGroup.flatten

end Stage

section Loop

variable {s : Stage} (w : Worker s) (requested : Option String) (req : SaveRequest)

theorem processTokens_eq (g : Group) (i tokenLen : Nat) (hashes : List Bytes) :
    w.processTokens g i tokenLen hashes 0 =
      (s.chunksOf g tokenLen hashes).map fun x => (x.1, x.2.1, ⟨w.metadata g i, x.2.2⟩) := by
  unfold Worker.processTokens Stage.chunksOf
  split
  · rfl
  · rw [map_map, ← filterMap_eq_map]
    rfl

/-- What `w` takes of the chunks offered from position `p` on. -/
def taken (p : Nat) (os : List Offer) : List SaveChunk :=
  (os.zipIdx p).filterMap fun x =>
    if w.selects requested x.1.group x.2 ∧ x.1.Stored then some (w.chunkOf x.1) else none

theorem taken_append (p : Nat) (os os' : List Offer) : taken w requested p (os ++ os') =
      taken w requested p os ++ taken w requested (p + os.length) os' := by
  simp [taken, zipIdx_append]

/-- The loop over the chunks of a group takes the selected offers. -/
theorem foldl_saveChunk (g : Group) (i : Nat) (d : GroupSave) (st : SaveState)
    (xs : List ((Nat × Nat × Bytes) × Nat)) :
    let out := (xs.map fun x => ((x.1.1, x.1.2.1, (⟨w.metadata g i, x.1.2.2⟩ : PoolKey)),
      x.2)).foldl
      (w.saveChunk requested req g i d) st
    out.stripePosition = st.stripePosition + (groupOffers req g i d st.parentHash xs).length ∧
    out.chunks = st.chunks ++
      taken w requested st.stripePosition (groupOffers req g i d st.parentHash xs) := by
  induction xs generalizing st with
  | nil => simp [groupOffers, taken]
  | cons x xs ih =>
    obtain ⟨⟨start, stop, hash⟩, j⟩ := x
    dsimp only
    rw [map_cons, foldl_cons]
    obtain ⟨hpos, hchunks⟩ := ih (w.saveChunk requested req g i d st
      ((start, stop, ⟨w.metadata g i, hash⟩), j))
    rw [hpos, hchunks, groupOffers, taken_append, length_append]
    unfold Worker.saveChunk
    dsimp only
    cases hb : d.block j stop with
    | none => simp [taken]
    | some blockId =>
      -- The position is taken up whatever becomes of the chunk.
      dsimp only
      by_cases hsel : w.selects requested g st.stripePosition
      · by_cases hun : d.unsure g req.stepEnd stop
        · simp [hsel, hun, taken, Offer.Stored, add_assoc]
        · by_cases hblock : blockId ≤ 0
          · simp [hsel, hun, hblock, taken, Offer.Stored, add_assoc]
          · simp [hsel, hun, hblock, taken, Offer.Stored, add_assoc, Worker.chunkOf,
              Int.not_le.mp hblock]
      · simp [hsel, taken, add_assoc]

def offersOf (masks : List (List Bool)) (x : Group × Nat) : Except PyError (List Offer) := do
  let d ← req.groupSave masks x.1 x.2
  return groupOffers req x.1 x.2 d none (s.chunksOf x.1 req.tokenLen req.blockHashes).zipIdx

theorem saveGroup_eq {x : Group × Nat} (h : offersOf (s := s) req masks x = .ok os)
    (st : SaveState) :
    ∃ st', w.saveGroup requested req masks st x = .ok st' ∧
      st'.stripePosition = st.stripePosition + os.length ∧
      st'.chunks = st.chunks ++ taken w requested st.stripePosition os := by
  obtain ⟨d, hd, hos⟩ := bind_eq_ok_iff.mp h
  cases hos
  have hfold := foldl_saveChunk w requested req x.1 x.2 d { st with parentHash := none }
    (s.chunksOf x.1 req.tokenLen req.blockHashes).zipIdx
  refine ⟨_, bind_eq_ok_iff.mpr ⟨d, hd, rfl⟩, ?_⟩
  rw [processTokens_eq, zipIdx_map]
  exact hfold

theorem foldlM_saveGroup {groups : List (Group × Nat)} {perGroup : List (List Offer)}
    (h : groups.mapM (offersOf (s := s) req masks) = .ok perGroup) (st : SaveState) :
    ∃ st', groups.foldlM (w.saveGroup requested req masks) st = .ok st' ∧
      st'.chunks = st.chunks ++ taken w requested st.stripePosition perGroup.flatten := by
  have h2 := mapM_eq_ok_iff.mp h
  clear h
  -- Group by group; the position of the next group is behind the offers of this one.
  induction h2 generalizing st with
  | nil => exact ⟨st, rfl, by simp [taken]⟩
  | cons hx _ ih =>
    obtain ⟨st1, hst1, hpos, hchunks⟩ := saveGroup_eq w requested req hx st
    obtain ⟨st2, hst2, hchunks2⟩ := ih st1
    refine ⟨st2, ?_, ?_⟩
    · rw [foldlM_cons]
      exact bind_eq_ok_iff.mpr ⟨st1, hst1, hst2⟩
    · rw [hchunks2, hchunks, hpos, flatten_cons, taken_append, append_assoc]

theorem saveChunks_eq (h : s.offers req masks = .ok os) :
    ∃ st, w.saveChunks requested req masks = .ok st ∧ st.chunks = taken w requested 0 os := by
  obtain ⟨perGroup, hper, hos⟩ := bind_eq_ok_iff.mp h
  cases hos
  exact foldlM_saveGroup w requested req hper {}

theorem mem_taken {chunk : SaveChunk} : chunk ∈ taken w requested 0 os ↔ ∃ p o, os[p]? = some o ∧
      w.selects requested o.group p ∧ o.Stored ∧ chunk = w.chunkOf o := by
  simp only [taken, mem_filterMap, Option.ite_none_right_eq_some, Option.some.injEq]
  constructor
  · rintro ⟨⟨o, p⟩, hmem, ⟨hsel, hst⟩, rfl⟩
    exact ⟨p, o, by simpa using mem_zipIdx_iff_getElem?.mp hmem, hsel, hst, rfl⟩
  · rintro ⟨p, o, ho, hsel, hst, rfl⟩
    exact ⟨(o, p), mem_zipIdx_iff_getElem?.mpr (by simpa using ho), ⟨hsel, hst⟩, rfl⟩

end Loop

/-! ## Stored once, probed under the same key -/

/-- The coordinates that a lookup enumerates for a group are those of the workers. -/
theorem mem_keyNamespaces_iff {s : Stage} (w : Worker s) (i : Nat) (hcache : g.prefixCacheable) :
    ∃ ns, keyNamespaces s.topology.tpSize (w.metadata g i).pcpSize (w.metadata g i).dcpSize
        s.topology.numKvHead (decide ((w.metadata g i).tpRank < 0)) g.mamba = .ok ns ∧
      ∀ c, c ∈ ns ↔ ∃ w' : Worker s, w'.coordinate g = c := by
  obtain ⟨ns, hns, hmem⟩ := keyNamespaces_spec s.topology.tpSize (w.metadata g i).pcpSize
    (w.metadata g i).dcpSize s.topology.numKvHead (decide ((w.metadata g i).tpRank < 0)) g.mamba
  refine ⟨ns, hns, fun c => (hmem c).trans ?_⟩
  have hcoord : ∀ w' : Worker s, coordinateOf s.topology.tpSize (w.metadata g i).pcpSize
      (w.metadata g i).dcpSize s.topology.numKvHead (decide ((w.metadata g i).tpRank < 0)) g.mamba
      w'.tpRank w'.pcpRank = w'.coordinate g := by
    intro w'
    cases hm : g.mamba with
    | true => simp [coordinateOf, Worker.coordinate, Group.tpSharded, Worker.metadata,
        Worker.dcpRank, hm, hcache]
    | false =>
      simpa [coordinateOf, Worker.coordinate, Group.tpSharded, Worker.metadata, Worker.dcpRank, hm,
        hcache] using stripeOf_tpRank w w'
  constructor
  · rintro ⟨tp, htp, pcp, hpcp, rfl⟩
    exact ⟨⟨⟨tp, htp⟩, ⟨pcp, hpcp⟩⟩, (hcoord ⟨⟨tp, htp⟩, ⟨pcp, hpcp⟩⟩).symm⟩
  · rintro ⟨w', rfl⟩
    exact ⟨w'.tpRank, w'.tpRank.isLt, w'.pcpRank, w'.pcpRank.isLt, (hcoord w').symm⟩

/-- For every topology, group layout and setting of the client ranks: the lookup enumerates the
coordinates of the workers, which are those in their keys; exactly one worker of a coordinate
selects each stripe position, and of a sharded group each worker selects all of them under a
coordinate of its own; and what a worker stores of a SAVE are the offered chunks at the positions it
selects, under its own key. -/
theorem chunks_stored_once (s : Stage) (requested : Option String) :
    (∀ (w : Worker s) (g : Group) (i : Nat), g.prefixCacheable = true →
      ∃ ns, keyNamespaces s.topology.tpSize (w.metadata g i).pcpSize (w.metadata g i).dcpSize
          s.topology.numKvHead (decide ((w.metadata g i).tpRank < 0)) g.mamba = .ok ns ∧
        (∀ c, c ∈ ns ↔ ∃ w' : Worker s, w'.coordinate g = c) ∧
        w.coordinate g = ⟨(w.metadata g i).tpRank, (w.metadata g i).pcpRank,
          (w.metadata g i).dcpRank⟩) ∧
    (∀ g : Group, g.tpSharded = false → ∀ c, (∃ w : Worker s, w.coordinate g = c) → ∀ p,
      ∃! w : Worker s, w.coordinate g = c ∧ w.selects requested g p = true) ∧
    (∀ g : Group, g.tpSharded = true →
      (∀ (w : Worker s) (p : Nat), w.selects requested g p = true) ∧
      Function.Injective fun w : Worker s => w.coordinate g) ∧
    (∀ req masks os, s.offers req masks = .ok os → ∀ w : Worker s,
      ∃ st, w.saveChunks requested req masks = .ok st ∧
        ∀ chunk, chunk ∈ st.chunks ↔ ∃ p o, os[p]? = some o ∧
          w.selects requested o.group p = true ∧ o.Stored ∧ chunk = w.chunkOf o) := by
  refine ⟨fun w g i hcache => ?_, ?_, ?_, ?_⟩
  · obtain ⟨ns, hns, hmem⟩ := mem_keyNamespaces_iff w i hcache
    exact ⟨ns, hns, hmem, rfl⟩
  · rintro g hg c ⟨w, rfl⟩ p
    exact existsUnique_selects w requested hg p
  · intro g hg
    refine ⟨fun w p => by simp [Worker.selects, hg], ?_⟩
    rintro ⟨tp, pcp⟩ ⟨tp', pcp'⟩ h
    simp only [Worker.coordinate, hg, if_true, Coordinate.mk.injEq, Int.natCast_inj,
      Fin.val_inj] at h
    rw [h.1, h.2.1]
  · intro req masks os hos w
    obtain ⟨st, hst, hchunks⟩ := saveChunks_eq w requested req hos
    exact ⟨st, hst, fun chunk => by rw [hchunks, mem_taken]⟩

end DingoCache.Vllm
