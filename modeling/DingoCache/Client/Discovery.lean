import DingoCache.Mds.MemberGuard
import DingoCache.Mds.Members

/-!
# Discovery of the Members of a Group

How a client follows the membership of its group: `MdsMemberPoller::PollOnce` of
`src/mds/mds_member_poller.cc`, and the callback that `KVClient::StartMdsDiscovery` of
`src/client/kv_client.cc` gives to the poller, with `KVClient::SetMembers`.

Two epoch filters stand between a view and the ring: the poller's, and the callback's
own.  They agree in every state, so the ring is the one of the last admitted view.
-/

namespace DingoCache.Client

open Mds Bool

variable {d : Discovery}

/-! ## The ring -/

/-- What a client routes by: the nodes of its consistent hash in the order of `AddNode`, with their
weights, and `addr_`. -/
structure NodeRing where
  nodes : List (ByteString × Int) := []
  addr : ByteString → Option ByteString := fun _ => none

/-- The address of a member, `ip:port`. -/
def address (ip : ByteString) (port : UInt32) : ByteString :=
  ip ++ ':'.toUInt8 :: (toString port.toNat).toUTF8.toList

/-- The weight of a node: at least 1, and otherwise cast to an `int`. -/
def nodeWeight (weight : UInt32) : Int :=
  if weight < 1 then 1 else weight.toBitVec.toInt

variable (ring : NodeRing) (members : List MemberInfo) (polls : List Query)
  (topology : List MemberInfo)

/-- One turn of the loop of `SetMembers`. -/
def NodeRing.add (m : MemberInfo) : NodeRing :=
  if m.ringEligible = false then ring
  else
    { nodes := ring.nodes ++ [(m.id, nodeWeight m.weight)]
      addr := fun id => if id = m.id then some (address m.ip m.port) else ring.addr id }

def setMembers : NodeRing :=
  members.foldl NodeRing.add {}

/-! ## The poller and its callback -/

/-- `MdsMemberPoller`, without the connection to the MDS. -/
structure MdsMemberPoller where
  guard : MemberViewGuard
  lastTopologyEpoch : UInt64 := 0
  lastPlacementEpoch : UInt64 := 0
  haveTopologyEpoch : Bool := false
  havePlacementEpoch : Bool := false
  everAdopted : Bool := false
deriving DecidableEq

/-- A call of the topology callback. -/
structure TopologyCall where
  topology : List MemberInfo
  epoch : UInt64
  placementAdmitted : Bool
deriving DecidableEq

def placementOf : List MemberInfo :=
  topology.filter fun m => m.ringEligible

/-- What `Query` returns: the topology and its epoch, or nothing. -/
abbrev Query := Option (List MemberInfo × UInt64)

def MdsMemberPoller.pollOnce (p : MdsMemberPoller) (query : Query) :
    MdsMemberPoller × Option TopologyCall :=
  match query with
  | none => (p, none)
  | some (topology, topologyEpoch) =>
    let placement := placementOf topology
    let placementEpoch := membersEpoch placement
    let judged := p.guard.admitView placement.length
    let topologyChanged := !p.haveTopologyEpoch || topologyEpoch != p.lastTopologyEpoch
    let placementChanged :=
      judged.2 && (!p.havePlacementEpoch || placementEpoch != p.lastPlacementEpoch)
    ({ guard := judged.1
       lastTopologyEpoch := if topologyChanged then topologyEpoch else p.lastTopologyEpoch
       haveTopologyEpoch := topologyChanged || p.haveTopologyEpoch
       lastPlacementEpoch := if placementChanged then placementEpoch else p.lastPlacementEpoch
       havePlacementEpoch := placementChanged || p.havePlacementEpoch
       everAdopted := (placementChanged && !placement.isEmpty) || p.everAdopted },
     if topologyChanged || placementChanged then
       some { topology, epoch := topologyEpoch, placementAdmitted := judged.2 }
     else none)

/-- The `PlacementEpochState` of the callback. -/
structure PlacementEpochState where
  haveEpoch : Bool := false
  epoch : UInt64 := 0
deriving DecidableEq

/-- A client with discovery: the poller, the state of its callback, the ring, and the topologies
given to `PublishPeerTopologies`. -/
structure Discovery where
  poller : MdsMemberPoller
  placement : PlacementEpochState := {}
  ring : NodeRing
  published : List (List MemberInfo × UInt64) := []

open Discovery

/-- The callback of `StartMdsDiscovery`. -/
def Discovery.onTopology (d : Discovery) (call : TopologyCall) : Discovery :=
  let d := { d with published := d.published ++ [(call.topology, call.epoch)] }
  if call.placementAdmitted = false then d
  else
    let placement := placementOf call.topology
    let placementEpoch := membersEpoch placement
    if d.placement.haveEpoch = true ∧ d.placement.epoch = placementEpoch then d
    else
      { d with
        placement := { haveEpoch := true, epoch := placementEpoch }
        ring := setMembers placement }

/-- A poll, with the callback it makes. -/
def Discovery.poll (d : Discovery) (query : Query) : Discovery :=
  let polled := d.poller.pollOnce query
  match polled.2 with
  | none => { d with poller := polled.1 }
  | some call => { d with poller := polled.1 }.onTopology call

/-- `StartMdsDiscovery` on a client with some ring. -/
def Discovery.start (viewsToAccept shrinkPct : Nat) (ring : NodeRing) : Discovery :=
  { poller := { guard := { viewsToAccept, shrinkPct } }, ring }

def Discovery.after (d : Discovery) (polls : List Query) : Discovery :=
  polls.foldl poll d

def Discovery.admits (d : Discovery) (topology : List MemberInfo) : Bool :=
  (d.poller.guard.admitView (placementOf topology).length).2

/-! ## What the polls have seen -/

def views : List (List MemberInfo) :=
  polls.filterMap fun query => query.map fun found => placementOf found.1

def viewSizes : List Nat := (views polls).map List.length

/-- The last view that a guard admits, of those it is given. -/
def lastAdmitted (g : MemberViewGuard) (views : List (List MemberInfo)) :
    MemberViewGuard × Option (List MemberInfo) :=
  views.foldl (fun acc view =>
    ((acc.1.admitView view.length).1,
      if (acc.1.admitView view.length).2 then some view else acc.2)) (g, none)

def placed (m : MemberInfo) : ByteString × ByteString × UInt32 × UInt32 × Bool :=
  (m.id, m.ip, m.port, m.weight, m.ringEligible)

/-! ## A ring is what the epoch hashes -/

def SameRing (r r' : NodeRing) : Prop :=
  r.nodes.Perm r'.nodes ∧ r.addr = r'.addr

/-- Views of one epoch place the same members. -/
def Unambiguous (views : List (List MemberInfo)) : Prop :=
  ∀ v ∈ views, ∀ w ∈ views, membersEpoch v = membersEpoch w →
    (sortBy (fun a b => decide (a.id < b.id)) v).map placed =
      (sortBy (fun a b => decide (a.id < b.id)) w).map placed

theorem nodes_foldl : (members.foldl NodeRing.add ring).nodes =
      ring.nodes ++ (placementOf members).map fun m => (m.id, nodeWeight m.weight) := by
  induction members generalizing ring with
  | nil => simp [placementOf]
  | cons m members ih =>
    rw [List.foldl_cons, ih, NodeRing.add]
    by_cases h : m.ringEligible = false
    · simp [placementOf, h]
    · simp [placementOf, h]

theorem addr_foldl (id : ByteString) : (members.foldl NodeRing.add ring).addr id =
      ((placementOf (members.filter fun m => decide (m.id = id))).getLast?.map
        fun m => address m.ip m.port).or (ring.addr id) := by
  induction members generalizing ring with
  | nil => simp [placementOf]
  | cons m members ih =>
    rw [List.foldl_cons, ih, NodeRing.add]
    by_cases h : m.ringEligible = false
    · by_cases hid : m.id = id <;> simp [placementOf, h, hid]
    · by_cases hid : m.id = id
      · simp [placementOf, h, hid, List.getLast?_cons]
      · simp [placementOf, h, hid, Ne.symm hid]

/-- A stable sort keeps the order of the members with one id. -/
theorem filter_sortBy (id : ByteString) :
    (sortBy (fun a b => decide (a.id < b.id)) members).filter (fun m => decide (m.id = id)) =
      members.filter fun m => decide (m.id = id) := by
  have hperm : (sortBy (fun a b => decide (a.id < b.id)) members).Perm members :=
    List.mergeSort_perm _ _
  have hsub : (members.filter fun m => decide (m.id = id)).Sublist
      (sortBy (fun a b => decide (a.id < b.id)) members) := by
    refine List.sublist_mergeSort ?_ ?_ ?_ List.filter_sublist
    · intro a b c hab hbc
      simp only [not_eq_true', decide_eq_false_iff_not] at hab hbc ⊢
      exact List.le_trans hab hbc
    · intro a b
      simp only [or_eq_true, not_eq_true', decide_eq_false_iff_not]
      exact List.le_total a.id b.id
    · refine List.Pairwise.imp_of_mem ?_ (List.pairwise_of_forall fun _ _ => trivial)
      intro a b ha hb _
      have ha : a.id = id := by simpa using (List.mem_filter.mp ha).2
      have hb : b.id = id := by simpa using (List.mem_filter.mp hb).2
      simp [ha, hb, List.lt_irrefl]
  -- It is a part of the sorted list, and as long as the part with the id.
  have hfiltered := hsub.filter fun m => decide (m.id = id)
  rw [List.filter_filter] at hfiltered
  simp only [Bool.and_self] at hfiltered
  exact (hfiltered.eq_of_length (hperm.filter _).length_eq.symm).symm

theorem SameRing.symm {r r' : NodeRing} (h : SameRing r r') : SameRing r' r :=
  ⟨h.1.symm, h.2.symm⟩

theorem SameRing.trans {r r' r'' : NodeRing} (h : SameRing r r') (h' : SameRing r' r'') :
    SameRing r r'' :=
  ⟨h.1.trans h'.1, h.2.trans h'.2⟩

theorem sameRing_sortBy : SameRing (setMembers (sortBy (fun a b => decide (a.id < b.id)) members))
      (setMembers members) := by
  constructor
  · rw [setMembers, setMembers, nodes_foldl, nodes_foldl]
    exact ((List.mergeSort_perm _ _).filter _).map _
  · funext id
    rw [setMembers, setMembers, addr_foldl, addr_foldl, filter_sortBy]

theorem setMembers_congr {v w : List MemberInfo} (h : v.map placed = w.map placed) :
    setMembers v = setMembers w := by
  have hadd : ∀ (ring : NodeRing) (m : MemberInfo), ring.add m =
      if (placed m).2.2.2.2 = false then ring
      else { nodes := ring.nodes ++ [((placed m).1, nodeWeight (placed m).2.2.2.1)]
             addr := fun id => if id = (placed m).1 then
               some (address (placed m).2.1 (placed m).2.2.1) else ring.addr id } :=
    fun _ _ => rfl
  have hfold : ∀ (v w : List MemberInfo) (ring : NodeRing), v.map placed = w.map placed →
      v.foldl NodeRing.add ring = w.foldl NodeRing.add ring := by
    intro v
    induction v with
    | nil =>
      intro w ring hvw
      rw [List.map_eq_nil_iff.mp hvw.symm]
    | cons m v ih =>
      intro w ring hvw
      obtain ⟨m', w', rfl, hm, hw⟩ := List.map_eq_cons_iff.mp hvw.symm
      rw [List.foldl_cons, List.foldl_cons, hadd ring m, hadd ring m', hm]
      exact ih w' _ hw.symm
  exact hfold v w {} h

/-- An equal epoch may skip the rebuild of the ring. -/
theorem sameRing_of_epoch {vs : List (List MemberInfo)} (h : Unambiguous vs) {v w : List MemberInfo}
    (hv : v ∈ vs) (hw : w ∈ vs) (hepoch : membersEpoch v = membersEpoch w) :
    SameRing (setMembers v) (setMembers w) := by
  have hsorted := setMembers_congr (h v hv w hw hepoch)
  refine (sameRing_sortBy v).symm.trans ?_
  rw [hsorted]
  exact sameRing_sortBy w

/-! ## Runs -/

/-- The view is admitted and its epoch is not the adopted one. -/
def Discovery.adopts (d : Discovery) (topology : List MemberInfo) : Bool :=
  d.admits topology && (!d.poller.havePlacementEpoch ||
    membersEpoch (placementOf topology) != d.poller.lastPlacementEpoch)

def Discovery.Agree (d : Discovery) : Prop :=
  d.placement.haveEpoch = d.poller.havePlacementEpoch ∧
    (d.poller.havePlacementEpoch = true → d.placement.epoch = d.poller.lastPlacementEpoch)

/-- The client against the polls so far: the two filters agree, and the ring is that of a view with
the epoch of the last admitted one. -/
structure Follows (n p : Nat) (ring : NodeRing) (polls : List Query) (d : Discovery) : Prop where
  guard : d.poller.guard = (lastAdmitted { viewsToAccept := n, shrinkPct := p } (views polls)).1
  agree : d.Agree
  before : (lastAdmitted { viewsToAccept := n, shrinkPct := p } (views polls)).2 = none →
    d.poller.havePlacementEpoch = false ∧ d.ring = ring
  after : ∀ view, (lastAdmitted { viewsToAccept := n, shrinkPct := p } (views polls)).2 =
    some view →
    d.poller.havePlacementEpoch = true ∧ d.poller.lastPlacementEpoch = membersEpoch view ∧
      view ∈ views polls ∧
      ∃ w ∈ views polls, membersEpoch w = membersEpoch view ∧ d.ring = setMembers w

theorem lastAdmitted_snoc (g : MemberViewGuard) (vs : List (List MemberInfo))
    (view : List MemberInfo) :
    lastAdmitted g (vs ++ [view]) = (((lastAdmitted g vs).1.admitView view.length).1,
        if ((lastAdmitted g vs).1.admitView view.length).2 then some view
        else (lastAdmitted g vs).2) := by
  rw [lastAdmitted, List.foldl_append]
  rfl

theorem views_snoc_none : views (polls ++ [none]) = views polls := by
  simp [views, List.filterMap_append]

theorem views_snoc_some (epoch : UInt64) :
    views (polls ++ [some (topology, epoch)]) = views polls ++ [placementOf topology] := by
  simp [views, List.filterMap_append]

theorem poll_none (d : Discovery) : d.poll none = d := rfl

theorem poll_guard (d : Discovery) (topology : List MemberInfo) (epoch : UInt64) :
    (d.poll (some (topology, epoch))).poller.guard =
      (d.poller.guard.admitView (placementOf topology).length).1 := by
  simp only [poll, MdsMemberPoller.pollOnce]
  split
  · rfl
  · unfold onTopology
    dsimp only
    split
    · rfl
    · split <;> rfl

theorem poll_adopts (hagree : d.Agree) {topology : List MemberInfo} (h : d.adopts topology)
    (epoch : UInt64) :
    (d.poll (some (topology, epoch))).poller.havePlacementEpoch ∧
      (d.poll (some (topology, epoch))).poller.lastPlacementEpoch =
        membersEpoch (placementOf topology) ∧
      (d.poll (some (topology, epoch))).placement =
        { haveEpoch := true, epoch := membersEpoch (placementOf topology) } ∧
      (d.poll (some (topology, epoch))).ring = setMembers (placementOf topology) := by
  have hadmits : (d.poller.guard.admitView (placementOf topology).length).2 := by
    simp only [adopts, and_eq_true] at h
    exact h.1
  have hchanged : (!d.poller.havePlacementEpoch ||
      membersEpoch (placementOf topology) != d.poller.lastPlacementEpoch) := by
    simp only [adopts, and_eq_true] at h
    exact h.2
  -- The callback has no epoch, or the poller's, so it does not return early.
  have hcallback : ¬(d.placement.haveEpoch ∧
      d.placement.epoch = membersEpoch (placementOf topology)) := by
    rintro ⟨hhave, heq⟩
    have hpoller := hagree.1.symm.trans hhave
    rw [hagree.2 hpoller] at heq
    simp [hpoller, heq] at hchanged
  simp only [poll, MdsMemberPoller.pollOnce, hadmits, hchanged, Bool.and_self,
    Bool.or_true, if_true, onTopology]
  simp [hcallback]

theorem poll_keeps (hagree : d.Agree) {topology : List MemberInfo} (h : d.adopts topology = false)
    (epoch : UInt64) :
    (d.poll (some (topology, epoch))).poller.havePlacementEpoch = d.poller.havePlacementEpoch ∧
      (d.poll (some (topology, epoch))).poller.lastPlacementEpoch = d.poller.lastPlacementEpoch ∧
      (d.poll (some (topology, epoch))).placement = d.placement ∧
      (d.poll (some (topology, epoch))).ring = d.ring := by
  have hsame : ((d.poller.guard.admitView (placementOf topology).length).2 &&
      (!d.poller.havePlacementEpoch ||
        membersEpoch (placementOf topology) != d.poller.lastPlacementEpoch)) = false := h
  simp only [poll, MdsMemberPoller.pollOnce, hsame]
  split
  · simp
  next call hcall =>
  have hcall' : call = { topology, epoch, placementAdmitted :=
      (d.poller.guard.admitView (placementOf topology).length).2 } := by
    split at hcall
    · exact (Option.some.inj hcall).symm
    · cases hcall
  subst hcall'
  unfold onTopology
  dsimp only
  by_cases hadmits : (d.poller.guard.admitView (placementOf topology).length).2
  · -- The epoch is the adopted one, and the callback's too.
    rw [hadmits, Bool.true_and, Bool.or_eq_false_iff] at hsame
    have hpoller : d.poller.havePlacementEpoch := by simpa using hsame.1
    have hepoch : membersEpoch (placementOf topology) = d.poller.lastPlacementEpoch := by
      simpa using hsame.2
    have hcallback : d.placement.haveEpoch ∧
        d.placement.epoch = membersEpoch (placementOf topology) :=
      ⟨hagree.1.trans hpoller, (hagree.2 hpoller).trans hepoch.symm⟩
    simp [hadmits, hcallback]
  · have hrejected : (d.poller.guard.admitView (placementOf topology).length).2 = false := by
      simpa using hadmits
    simp [hrejected]

theorem follows_start (n p : Nat) (ring : NodeRing) : Follows n p ring [] (.start n p ring) where
  guard := rfl
  agree := ⟨rfl, fun h => absurd h (by simp [start])⟩
  before := fun _ => ⟨rfl, rfl⟩
  after := fun view h => absurd h (by simp [views, lastAdmitted])

theorem Follows.poll {n p : Nat} {ring : NodeRing} {polls : List Query}
    (h : Follows n p ring polls d) (query : Query) :
    Follows n p ring (polls ++ [query]) (d.poll query) := by
  match query with
  | none =>
    have hviews := views_snoc_none polls
    rw [poll_none]
    exact ⟨by rw [hviews]; exact h.guard, h.agree, by rw [hviews]; exact h.before,
      by rw [hviews]; exact h.after⟩
  | some (topology, epoch) =>
    have hviews := views_snoc_some polls topology epoch
    have hsnoc := lastAdmitted_snoc { viewsToAccept := n, shrinkPct := p } (views polls)
      (placementOf topology)
    rw [← h.guard] at hsnoc
    have hadmits : (d.poller.guard.admitView (placementOf topology).length).2 =
        d.admits topology := rfl
    rw [hadmits] at hsnoc
    have hguard := poll_guard d topology epoch
    have hnew : placementOf topology ∈ views (polls ++ [some (topology, epoch)]) := by
      rw [hviews]
      exact List.mem_append_right _ (List.mem_singleton_self _)
    have hold : ∀ v ∈ views polls, v ∈ views (polls ++ [some (topology, epoch)]) := by
      intro v hv
      rw [hviews]
      exact List.mem_append_left _ hv
    cases hadopts : d.adopts topology with
    | true =>
      obtain ⟨hhave, hlast, hplacement, hring⟩ := poll_adopts h.agree hadopts epoch
      have hadmit : d.admits topology := by
        simp only [adopts, and_eq_true] at hadopts
        exact hadopts.1
      have hfound : (lastAdmitted { viewsToAccept := n, shrinkPct := p }
          (views (polls ++ [some (topology, epoch)]))).2 = some (placementOf topology) := by
        rw [hviews, hsnoc, if_pos hadmit]
      refine ⟨by rw [hviews, hsnoc, hguard], ⟨by rw [hplacement, hhave], fun _ => ?_⟩,
        fun hnone => absurd (hnone.symm.trans hfound) (by simp), fun view hview => ?_⟩
      · rw [hplacement, hlast]
      · cases hview.symm.trans hfound
        exact ⟨hhave, hlast, hnew, _, hnew, rfl, hring⟩
    | false =>
      obtain ⟨hhave, hlast, hplacement, hring⟩ := poll_keeps h.agree hadopts epoch
      have hagree : (d.poll (some (topology, epoch))).Agree := by
        refine ⟨?_, fun hh => ?_⟩
        · rw [hplacement, hhave]
          exact h.agree.1
        · rw [hhave] at hh
          rw [hplacement, hlast]
          exact h.agree.2 hh
      rw [← hviews] at hsnoc
      by_cases hadmit : d.admits topology
      · -- Admitted with the epoch of the adopted view: that view stands for it.
        obtain ⟨hpoller, hepoch⟩ : d.poller.havePlacementEpoch ∧
            membersEpoch (placementOf topology) = d.poller.lastPlacementEpoch := by
          simpa [adopts, hadmit] using hadopts
        rw [if_pos hadmit] at hsnoc
        refine ⟨by rw [hsnoc, hguard], hagree, fun hnone => ?_, fun view hview => ?_⟩
        · rw [hsnoc] at hnone
          cases hnone
        · rw [hsnoc] at hview
          cases hview
          cases hprev : (lastAdmitted { viewsToAccept := n, shrinkPct := p } (views polls)).2 with
          | none =>
            have hnever := (h.before hprev).1
            rw [hpoller] at hnever
            cases hnever
          | some prev =>
            obtain ⟨-, hprevEpoch, -, w, hw, hwEpoch, hwRing⟩ := h.after prev hprev
            have hwNew : membersEpoch w = membersEpoch (placementOf topology) :=
              hwEpoch.trans (hprevEpoch.symm.trans hepoch.symm)
            exact ⟨hhave.trans hpoller, hlast.trans hepoch.symm, hnew, w, hold w hw, hwNew,
              hring.trans hwRing⟩
      · rw [if_neg hadmit] at hsnoc
        refine ⟨by rw [hsnoc, hguard], hagree, fun hnone => ?_, fun view hview => ?_⟩
        · rw [hsnoc] at hnone
          exact ⟨hhave.trans (h.before hnone).1, hring.trans (h.before hnone).2⟩
        · rw [hsnoc] at hview
          obtain ⟨hpoller, hepoch, hin, w, hw, hwEpoch, hwRing⟩ := h.after view hview
          exact ⟨hhave.trans hpoller, hlast.trans hepoch, hold view hin, w, hold w hw, hwEpoch,
            hring.trans hwRing⟩

theorem after_snoc (d : Discovery) (polls : List Query) (query : Query) :
    d.after (polls ++ [query]) = (d.after polls).poll query := by
  simp [after, List.foldl_append]

theorem follows_after (n p : Nat) (ring : NodeRing) (polls : List Query) :
    Follows n p ring polls ((start n p ring).after polls) := by
  induction polls using List.reverseRecOn with
  | nil => exact follows_start n p ring
  | append_singleton polls query ih =>
    rw [after_snoc]
    exact ih.poll query

theorem after_guard (d : Discovery) (polls : List Query) :
    (d.after polls).poller.guard = d.poller.guard.after (viewSizes polls) := by
  induction polls generalizing d with
  | nil => rfl
  | cons query polls ih =>
    change ((d.poll query).after polls).poller.guard = _
    rw [ih]
    match query with
    | none => rfl
    | some (topology, epoch) =>
      rw [poll_guard]
      rfl

theorem guarding_after {n p : Nat} (hp : 1 ≤ p ∧ p ≤ 100) (ring : NodeRing) (polls : List Query) :
    Guarding n p (viewSizes polls) ((start n p ring).after polls).poller.guard := by
  induction polls using List.reverseRecOn with
  | nil => exact ⟨guardInv_start n p, rfl, rfl⟩
  | append_singleton polls query ih =>
    rw [after_snoc]
    match query with
    | none =>
      rw [viewSizes, views_snoc_none, poll_none]
      exact ih
    | some (topology, epoch) =>
      rw [viewSizes, views_snoc_some, List.map_append, poll_guard]
      exact ih.step hp (placementOf topology).length

/-! ## Adoption -/

/-- What holds of a client after the polls. -/
structure Adoption (n p : Nat) (polls : List Query) (d : Discovery) : Prop where
  /-- Why a view is admitted. -/
  admitted : ∀ topology, d.admits topology = true →
    views polls = [] ∨ Within p d.poller.guard.stableRef (placementOf topology).length ∨
      d.poller.guard.stableRef = 0 ∨
      EndsIn (viewSizes polls ++ [(placementOf topology).length]) n (placementOf topology).length
  /-- A view that is not admitted does not change the ring. -/
  rejected : ∀ topology epoch, d.admits topology = false →
    (d.poll (some (topology, epoch))).ring = d.ring
  /-- When the reference changes. -/
  reference : ∀ topology epoch,
    (d.poll (some (topology, epoch))).poller.guard.stableRef = d.poller.guard.stableRef ∨
      ((d.poll (some (topology, epoch))).poller.guard.stableRef = (placementOf topology).length ∧
        (views polls = [] ∨ d.poller.guard.stableRef = 0 ∨
          EndsIn (viewSizes polls ++ [(placementOf topology).length]) n
            (placementOf topology).length))
  /-- Without a size that repeats often enough, all that is admitted from a state on is
      close to its reference. -/
  frozen : d.poller.guard.stableRef ≠ 0 → ∀ more,
    (∀ pre v, pre <+: viewSizes more → pre ≠ [] → ¬EndsIn (viewSizes polls ++ pre) n v) →
    (d.after more).poller.guard.stableRef = d.poller.guard.stableRef ∧
      ∀ pre topology epoch post, more = pre ++ some (topology, epoch) :: post →
        (d.after pre).admits topology = true →
        Within p d.poller.guard.stableRef (placementOf topology).length
  /-- A failed poll changes nothing. -/
  failed : d.poll none = d
  /-- The nodes of the ring are the eligible members of the last admitted view, with their weights,
      and the address of a node is that of its member, the last one if several share the id. -/
  ring : Unambiguous (views polls) →
    ∀ view, (lastAdmitted { viewsToAccept := n, shrinkPct := p } (views polls)).2 = some view →
      d.ring.nodes.Perm ((view.filter fun m => m.ringEligible).map fun m =>
        (m.id, nodeWeight m.weight)) ∧
      ∀ id, d.ring.addr id = ((view.filter fun m => m.ringEligible && m.id = id).getLast?).map
        fun m => address m.ip m.port

/-- Adoption after any polls, from any ring a client starts with. -/
theorem ring_adoption_resists_swings {n p : Nat} (hp : 1 ≤ p ∧ p ≤ 100) (ring : NodeRing)
    (polls : List Query) : Adoption n p polls ((Discovery.start n p ring).after polls) := by
  have hguard := guarding_after (n := n) hp ring polls
  have hfollows := follows_after n p ring polls
  generalize (Discovery.start n p ring).after polls = d at hguard hfollows ⊢
  have hnil : viewSizes polls = [] → views polls = [] := fun h => List.map_eq_nil_iff.mp h
  constructor
  case admitted =>
    intro topology hadmit
    rcases (hguard.judged hp (placementOf topology).length).admitted hadmit with h | h | h | h
    · exact .inl (hnil h)
    · exact .inr (.inl h)
    · exact .inr (.inr (.inl h))
    · exact .inr (.inr (.inr h))
  case rejected =>
    intro topology epoch hreject
    exact (poll_keeps hfollows.agree (by simp [Discovery.adopts, hreject]) epoch).2.2.2
  case reference =>
    intro topology epoch
    rw [poll_guard]
    rcases (hguard.judged hp (placementOf topology).length).reference with h | ⟨h, hwhy⟩
    · exact .inl h
    · exact .inr ⟨h, hwhy.imp hnil id⟩
  case frozen =>
    intro href more hnew
    obtain ⟨hlast, hwithin⟩ := hguard.frozen hp href (viewSizes more) hnew
    refine ⟨by rw [after_guard, hlast], fun pre topology epoch post hmore hadmit => ?_⟩
    refine hwithin (viewSizes pre) _ (viewSizes post) ?_ ?_
    · rw [hmore]
      simp [viewSizes, views, List.filterMap_append]
    · rw [← after_guard]
      exact hadmit
  case failed => exact poll_none d
  case ring =>
    intro hclear view hview
    obtain ⟨-, -, hin, w, hw, hepoch, hring⟩ := hfollows.after view hview
    obtain ⟨hnodes, haddr⟩ := sameRing_of_epoch hclear hw hin hepoch
    rw [← hring] at hnodes haddr
    refine ⟨hnodes.trans (.of_eq (nodes_foldl {} view)), fun id => ?_⟩
    rw [haddr, setMembers, addr_foldl]
    simp [placementOf, List.filter_filter]

/-- A view of three members after one of a single member is not adopted, nor is an empty one; with a
failed poll in between the second view of three is. -/
theorem ring_adoption_of_growing_group :
    let one : Query := some ([{ id := [110], ip := [49] }], 7)
    let members : List MemberInfo :=
      [{ id := [110], ip := [49] }, { id := [111], ip := [50] }, { id := [112], ip := [51] }]
    Adoption 2 50 [one, some (members, 8), none]
        ((Discovery.start 2 50 {}).after [one, some (members, 8), none]) ∧
      ((Discovery.start 2 50 {}).after [one]).admits members = false ∧
      ((Discovery.start 2 50 {}).after [one]).admits [] = false ∧
      ((Discovery.start 2 50 {}).after [one, some (members, 8), none]).admits members = true := by
  intro one members
  refine ⟨ring_adoption_resists_swings (by decide) {} _, ?_, ?_, ?_⟩
  all_goals
    rw [Discovery.admits, after_guard]
    decide

end DingoCache.Client
