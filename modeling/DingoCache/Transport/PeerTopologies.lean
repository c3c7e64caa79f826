import DingoCache.Mds.Members

/-!
# Topologies of Peers

`PeerTopologyStore` of `src/transport/rail_select.h`: for each peer address, a snapshot of
the identity and the rails that the peer published last.  A retirement touches only the
binding of the identity it names, a publication of the same generation is dropped, and an
identity that moves takes its old address with it.

- `mem_peerHealthy`: the rails of a snapshot that are healthy.
-/

namespace DingoCache.Transport

open Mds

variable {s s' : PeerTopologyStore} {t : PeerTopology}

/-! ## Snapshots -/

structure PeerRailTopology where
  name : ByteString
  healthy : Bool := false
deriving DecidableEq

structure PeerTopology where
  peerAddr : ByteString
  generation : UInt64 := 0
  complete : Bool := false
  rails : List PeerRailTopology := []
  peerId : ByteString
  present : Bool := true
deriving DecidableEq

structure PeerRailSnapshot where
  peerId : ByteString := []
  generation : UInt64 := 0
  publication : Nat := 0
  complete : Bool := false
  peerHealthy : List UInt8 := []
  compatible : List UInt8 := []
deriving DecidableEq

/-- One tier, as far as the peer is healthy on it. -/
def compatibleTier (tier peerHealthy : List UInt8) : List UInt8 :=
  (List.range (max tier.length peerHealthy.length)).map fun i =>
    if tier.getD i 0 ≠ 0 ∧ peerHealthy.getD i 0 ≠ 0 then 1 else 0

def highestCompatibleTier : List (List UInt8) → List UInt8 → List UInt8
  | [], _ => []
  | tier :: tiers, peerHealthy =>
    let compatible := compatibleTier tier peerHealthy
    if compatible.any (· != 0) then compatible else highestCompatibleTier tiers peerHealthy

/-- One rail of the peer, on the local device of its name. -/
def markHealthy (localDevices : List ByteString) (healthy : List UInt8) (rail : PeerRailTopology) :
    List UInt8 :=
  if rail.healthy = false then healthy
  else
    match localDevices.findIdx? (· == rail.name) with
    | some i => healthy.set i 1
    | none => healthy

/-- `PeerTopologyStore`; the map of snapshots as a function. -/
structure PeerTopologyStore where
  localDevices : List ByteString
  tiers : List (List UInt8)
  requireComplete : Bool
  /-- Fewer than 2^64 snapshots are published. -/
  lastPublication : Nat := 0
  snapshots : ByteString → Option PeerRailSnapshot := fun _ => none

open PeerTopologyStore

def PeerTopologyStore.peerHealthy (s : PeerTopologyStore) (rails : List PeerRailTopology) :
    List UInt8 :=
  rails.foldl (markHealthy s.localDevices) (List.replicate s.localDevices.length 0)

def PeerTopologyStore.fallback (s : PeerTopologyStore) : PeerRailSnapshot :=
  if s.requireComplete then { complete := false }
  else
    { complete := true
      peerHealthy := List.replicate s.localDevices.length 1
      compatible := List.replicate s.localDevices.length 1 }

/-- The snapshot that `Update` makes of a topology. -/
def PeerTopologyStore.next (s : PeerTopologyStore) (t : PeerTopology) (publication : Nat) :
    PeerRailSnapshot :=
  if t.complete then
    { peerId := t.peerId, generation := t.generation, publication, complete := t.complete
      peerHealthy := s.peerHealthy t.rails
      compatible := highestCompatibleTier s.tiers (s.peerHealthy t.rails) }
  else if s.requireComplete = false then
    { peerId := t.peerId, generation := t.generation, publication, complete := t.complete
      peerHealthy := List.replicate s.localDevices.length 1
      compatible := List.replicate s.localDevices.length 1 }
  else { peerId := t.peerId, generation := t.generation, publication, complete := t.complete }

/-! ## The store -/

/-- The part of `Update` for a peer that is gone. -/
def PeerTopologyStore.retire (s : PeerTopologyStore) (t : PeerTopology) :
    PeerTopologyStore × Bool :=
  match s.snapshots t.peerAddr with
  | none => (s, true)
  | some found =>
    if found.peerId ≠ t.peerId then (s, false)
    else ({ s with snapshots := fun a => if a = t.peerAddr then none else s.snapshots a }, true)

/-- The snapshots once one is stored: other addresses of the identity go. -/
def PeerTopologyStore.place (s : PeerTopologyStore) (t : PeerTopology) (next : PeerRailSnapshot) :
    ByteString → Option PeerRailSnapshot :=
  fun a =>
    if a = t.peerAddr then some next
    else if t.peerId ≠ [] ∧ (s.snapshots a).any (·.peerId == t.peerId) = true then none
    else s.snapshots a

/-- The snapshot at the address is of the same generation and identity. -/
def PeerTopologyStore.known (s : PeerTopologyStore) (t : PeerTopology) : Bool :=
  (s.snapshots t.peerAddr).any fun found =>
    t.generation == found.generation && t.peerId == found.peerId

def PeerTopologyStore.update (s : PeerTopologyStore) (t : PeerTopology) :
    PeerTopologyStore × Bool :=
  if t.peerAddr = [] then (s, false)
  else if t.present = false then s.retire t
  else if s.known t then (s, false)
  else
    ({ s with
       lastPublication := s.lastPublication + 1
       snapshots := s.place t (s.next t (s.lastPublication + 1)) }, true)

def PeerTopologyStore.snapshot (s : PeerTopologyStore) (peerAddr : ByteString) : PeerRailSnapshot :=
  (s.snapshots peerAddr).getD s.fallback

/-- `IsCurrent` with an identity. -/
def PeerTopologyStore.isCurrent (s : PeerTopologyStore) (peerAddr peerId : ByteString)
    (publication : Nat) : Bool :=
  (s.snapshot peerAddr).peerId == peerId && (s.snapshot peerAddr).publication == publication

/-! ## The rails of a snapshot -/

theorem getElem?_markHealthy (localDevices : List ByteString) (healthy : List UInt8)
    (rail : PeerRailTopology) (i : Nat) :
    (markHealthy localDevices healthy rail)[i]? =
      if i < healthy.length ∧ rail.healthy ∧
          localDevices.findIdx? (· == rail.name) = some i then some 1
      else healthy[i]? := by
  unfold markHealthy
  by_cases hrail : rail.healthy = false
  · simp [hrail]
  · rw [if_neg hrail]
    split
    · next j hj =>
      rw [List.getElem?_set]
      rcases eq_or_ne j i with rfl | hij
      · by_cases hlt : j < healthy.length
        · simp [hlt, hrail, hj]
        · simp [hlt]
      · simp [hij, hj]
    · next hnone => simp [hnone]

theorem length_markHealthy (localDevices : List ByteString) (healthy : List UInt8)
    (rail : PeerRailTopology) :
    (markHealthy localDevices healthy rail).length = healthy.length := by
  unfold markHealthy
  split
  · rfl
  · split
    · exact List.length_set ..
    · rfl

theorem getElem?_foldl_markHealthy (localDevices : List ByteString) (rails : List PeerRailTopology)
    (healthy : List UInt8) (i : Nat) :
    (rails.foldl (markHealthy localDevices) healthy)[i]? =
      if i < healthy.length ∧ ∃ rail ∈ rails, rail.healthy ∧
          localDevices.findIdx? (· == rail.name) = some i then some 1
      else healthy[i]? := by
  induction rails generalizing healthy with
  | nil => simp
  | cons rail rails ih =>
    rw [List.foldl_cons, ih, length_markHealthy, getElem?_markHealthy]
    by_cases hlt : i < healthy.length
    · by_cases hrail : rail.healthy ∧ localDevices.findIdx? (· == rail.name) = some i
      · simp [hlt, hrail]
      · simp [hlt, hrail]
    · simp [hlt]

/-- A local device is healthy on a peer if it is the first of its name and a healthy rail of the
peer has that name. -/
theorem peerHealthy_eq_one (s : PeerTopologyStore) (rails : List PeerRailTopology) {i : Nat}
    (hi : i < s.localDevices.length) :
    (s.peerHealthy rails)[i]? = some
      (if ∃ rail ∈ rails, rail.healthy ∧
          s.localDevices.findIdx? (· == rail.name) = some i then 1 else 0) := by
  rw [peerHealthy, getElem?_foldl_markHealthy, List.length_replicate]
  by_cases hrail : ∃ rail ∈ rails, rail.healthy ∧ s.localDevices.findIdx? (· == rail.name) = some i
  · rw [if_pos ⟨hi, hrail⟩, if_pos hrail]
  · rw [if_neg (fun h => hrail h.2), if_neg hrail, List.getElem?_replicate, if_pos hi]

/-! ## What an update does -/

/-- The configuration of a store, which no update changes. -/
def PeerTopologyStore.SameConfig (s s' : PeerTopologyStore) : Prop :=
  s'.localDevices = s.localDevices ∧ s'.tiers = s.tiers ∧ s'.requireComplete = s.requireComplete

theorem PeerTopologyStore.SameConfig.trans {s'' : PeerTopologyStore} (h : s.SameConfig s')
    (h' : s'.SameConfig s'') : s.SameConfig s'' :=
  ⟨h'.1.trans h.1, h'.2.1.trans h.2.1, h'.2.2.trans h.2.2⟩

theorem next_congr (h : s.SameConfig s') (t : PeerTopology) (publication : Nat) :
    s'.next t publication = s.next t publication := by
  obtain ⟨hd, ht, hr⟩ := h
  simp [next, peerHealthy, hd, ht, hr]

theorem fallback_congr (h : s.SameConfig s') : s'.fallback = s.fallback := by
  obtain ⟨hd, -, hr⟩ := h
  simp [fallback, hd, hr]

theorem update_sameConfig (s : PeerTopologyStore) (t : PeerTopology) :
    s.SameConfig (s.update t).1 := by
  unfold update
  split
  · exact ⟨rfl, rfl, rfl⟩
  split
  · unfold retire
    split
    · exact ⟨rfl, rfl, rfl⟩
    · split <;> exact ⟨rfl, rfl, rfl⟩
  split <;> exact ⟨rfl, rfl, rfl⟩

/-- A retirement removes the binding it names, and no other. -/
theorem update_absent (s : PeerTopologyStore) (haddr : t.peerAddr ≠ [])
    (hgone : t.present = false) :
    (s.update t).1.lastPublication = s.lastPublication ∧ ∀ a, (s.update t).1.snapshots a =
        if a = t.peerAddr ∧ (s.snapshots a).any (·.peerId == t.peerId) = true then none
        else s.snapshots a := by
  rw [update, if_neg haddr, if_pos hgone, retire]
  split
  · next hnone =>
    refine ⟨rfl, fun a => ?_⟩
    rcases eq_or_ne a t.peerAddr with rfl | ha
    · simp [hnone]
    · simp [ha]
  · next found hfound =>
    split
    · next hother =>
      refine ⟨rfl, fun a => ?_⟩
      rcases eq_or_ne a t.peerAddr with rfl | ha
      · simp [hfound, hother]
      · simp [ha]
    · next hsame =>
      refine ⟨rfl, fun a => ?_⟩
      rcases eq_or_ne a t.peerAddr with rfl | ha
      · simp [hfound, not_not.mp hsame]
      · simp [ha]

theorem exists_of_known (h : s.known t) :
    ∃ x, s.snapshots t.peerAddr = some x ∧ x.generation = t.generation ∧ x.peerId = t.peerId := by
  unfold known at h
  cases hx : s.snapshots t.peerAddr with
  | none => simp [hx] at h
  | some x =>
    simp only [hx, Option.any_some, Bool.and_eq_true, beq_iff_eq] at h
    exact ⟨x, rfl, h.1.symm, h.2.symm⟩

theorem place_of_ne {next x : PeerRailSnapshot} {a : ByteString} (ha : a ≠ t.peerAddr)
    (hx : s.snapshots a = some x) (hid : x.peerId ≠ t.peerId) : s.place t next a = some x := by
  unfold place
  rw [if_neg ha, if_neg, hx]
  simp [hx, hid]

theorem of_place {next x : PeerRailSnapshot} {a : ByteString} (h : s.place t next a = some x) :
    (a = t.peerAddr ∧ x = next) ∨ s.snapshots a = some x := by
  unfold place at h
  split at h
  · next ha => exact .inl ⟨ha, (Option.some.inj h).symm⟩
  · split at h
    · cases h
    · exact .inr h

/-- A publication that is already there changes nothing, and any other is stored under the next
number. -/
theorem update_present (s : PeerTopologyStore) (haddr : t.peerAddr ≠ []) (hhere : t.present) :
    (s.known t ∧ s.update t = (s, false)) ∨ (s.known t = false ∧ s.update t = ({ s with
           lastPublication := s.lastPublication + 1
           snapshots := s.place t (s.next t (s.lastPublication + 1)) }, true)) := by
  rw [update, if_neg haddr, if_neg (by simp [hhere])]
  by_cases hknown : s.known t
  · exact .inl ⟨hknown, by rw [if_pos hknown]⟩
  · exact .inr ⟨by simpa using hknown, by rw [if_neg hknown]⟩

end DingoCache.Transport
