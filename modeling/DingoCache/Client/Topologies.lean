import DingoCache.Client.Discovery
import DingoCache.Transport.PeerTopologies

/-!
# Publication of Peer Topologies

`KVClient::PublishPeerTopologies` of `src/client/kv_client.cc`: a topology of the group
replaces the one before in the store of the transport.  The bindings of identities to
addresses that are gone are retired first, one by one, and then each member is published.
-/

namespace DingoCache.Client

open Mds Transport
open PeerTopologyStore

variable {s : PeerTopologyStore} {c : Publisher}

/-! ## The call -/

/-- `IbDeviceHealth::healthy`. -/
def deviceHealthy (d : IbDeviceHealth) : Bool :=
  d.queryOk && d.portState == 4 && d.physState == 5

def peerTopology (m : MemberInfo) (generation : UInt64) : PeerTopology where
  peerAddr := address m.ip m.port
  generation := generation
  complete := m.hasHealth
  rails := sortBy (fun a b => decide (a.name < b.name))
    (m.health.ibDevices.map fun d => { name := d.name, healthy := deviceHealthy d })
  peerId := m.id
  present := true

/-- The topology that retires a binding of an identity to an address. -/
def retirement (generation : UInt64) (peer : ByteString × ByteString) : PeerTopology where
  peerAddr := peer.2
  generation := generation
  complete := false
  peerId := peer.1
  present := false

/-- An entry of a `std::map` is set. -/
def setKey (m : List (ByteString × ByteString)) (k v : ByteString) :
    List (ByteString × ByteString) :=
  m.filter (fun e => e.1 != k) ++ [(k, v)]

def binding (m : MemberInfo) : ByteString × ByteString := (m.id, address m.ip m.port)

/-- `current`: the address of each identity. -/
def currentOf (topology : List MemberInfo) : List (ByteString × ByteString) :=
  topology.foldl (fun current m => setKey current m.id (address m.ip m.port)) []

/-- The order of a `std::set` of pairs. -/
def pairBefore (a b : ByteString × ByteString) : Bool :=
  decide (a.1 < b.1) || (a.1 == b.1 && decide (a.2 < b.2))

/-- A call of `PublishPeerTopologies`, with the `addr_` of the client at that time. -/
structure PublishCall where
  addr : List (ByteString × ByteString)
  topology : List MemberInfo
  generation : UInt64
deriving DecidableEq

/-- The store of the transport, and `published_peers_`. -/
structure Publisher where
  store : PeerTopologyStore
  publishedPeers : List (ByteString × ByteString) := []

def Publisher.retired (c : Publisher) (call : PublishCall) : List (ByteString × ByteString) :=
  sortBy pairBefore
    (((c.publishedPeers ++ call.addr).filter fun peer =>
      !(currentOf call.topology).contains peer).dedup)

/-- The calls of `OnPeerTopology`, in order. -/
def Publisher.updates (c : Publisher) (call : PublishCall) : List PeerTopology :=
  (c.retired call).map (retirement call.generation) ++
    call.topology.map fun m => peerTopology m call.generation

def applyUpdates (s : PeerTopologyStore) (updates : List PeerTopology) : PeerTopologyStore :=
  updates.foldl (fun s t => (s.update t).1) s

/-- `PublishPeerTopologies`. -/
def Publisher.publish (c : Publisher) (call : PublishCall) : Publisher where
  store := applyUpdates c.store (c.updates call)
  publishedPeers := currentOf call.topology

/-- The calls, one after the other. -/
def Publisher.after (c : Publisher) (calls : List PublishCall) : Publisher :=
  calls.foldl Publisher.publish c

/-! ## Bindings -/

/-- A call whose members have different identities and addresses. -/
structure PublishCall.Distinct (call : PublishCall) : Prop where
  ids : (call.topology.map fun m => m.id).Nodup
  addresses : (call.topology.map fun m => address m.ip m.port).Nodup

theorem address_ne_nil (ip : ByteString) (port : UInt32) : address ip port ≠ [] := by
  simp [address]

theorem setKey_fresh {m : List (ByteString × ByteString)} {k : ByteString}
    (h : k ∉ m.map Prod.fst) (v : ByteString) : setKey m k v = m ++ [(k, v)] := by
  unfold setKey
  congr 1
  rw [List.filter_eq_self]
  intro e he
  simp only [bne_iff_ne, ne_eq]
  rintro rfl
  exact h (List.mem_map_of_mem he)

theorem currentOf_eq {topology : List MemberInfo} (h : (topology.map fun m => m.id).Nodup) :
    currentOf topology = topology.map binding := by
  induction topology using List.reverseRecOn with
  | nil => rfl
  | append_singleton topology m ih =>
    rw [List.map_append, List.nodup_append] at h
    have hfresh : m.id ∉ (topology.map binding).map Prod.fst := by
      intro hmem
      rw [List.map_map] at hmem
      exact h.2.2 m.id hmem m.id (by simp) rfl
    rw [currentOf, List.foldl_append, List.foldl_cons, List.foldl_nil, ← currentOf, ih h.1,
      setKey_fresh hfresh, List.map_append]
    rfl

theorem mem_retired {call : PublishCall} (h : call.Distinct) {peer : ByteString × ByteString} :
    peer ∈ c.retired call ↔
      (peer ∈ c.publishedPeers ∨ peer ∈ call.addr) ∧ peer ∉ call.topology.map binding := by
  simp [Publisher.retired, sortBy, currentOf_eq h.ids, or_and_right]

/-! ## Retirements -/

theorem retire_one (s : PeerTopologyStore) (generation : UInt64) (peer : ByteString × ByteString)
    (a : ByteString) :
    (s.update (retirement generation peer)).1.snapshots a =
      if a ≠ [] ∧ (s.snapshots a).any (fun x => decide ((x.peerId, a) = peer)) = true then none
      else s.snapshots a := by
  obtain ⟨peerId, peerAddr⟩ := peer
  by_cases haddr : peerAddr = []
  · have hnone : (s.update (retirement generation (peerId, peerAddr))).1 = s := by
      simp [update, retirement, haddr]
    rw [hnone]
    by_cases ha : a = []
    · simp [ha]
    · simp [ha, haddr]
  · rw [(update_absent s (t := retirement generation (peerId, peerAddr)) haddr rfl).2 a]
    rcases eq_or_ne a peerAddr with rfl | ha
    · cases s.snapshots a <;> simp [retirement, haddr]
    · simp [retirement, ha]

/-- The retirements remove exactly the snapshots of the bindings that they name. -/
theorem retire_all (s : PeerTopologyStore) (generation : UInt64)
    (peers : List (ByteString × ByteString)) (a : ByteString) :
    (applyUpdates s (peers.map (retirement generation))).snapshots a =
      if a ≠ [] ∧ (s.snapshots a).any (fun x => decide ((x.peerId, a) ∈ peers)) = true then none
      else s.snapshots a := by
  induction peers generalizing s with
  | nil => simp [applyUpdates]
  | cons peer peers ih =>
    refine (ih (s.update (retirement generation peer)).1).trans ?_
    rw [retire_one s generation peer a]
    cases hstored : s.snapshots a with
    | none => simp
    | some x =>
      by_cases ha : a = []
      · simp [ha]
      · by_cases hpeer : (x.peerId, a) = peer
        · simp [ha, hpeer]
        · simp [ha, hpeer]

theorem applyUpdates_sameConfig (s : PeerTopologyStore) (updates : List PeerTopology) :
    s.SameConfig (applyUpdates s updates) := by
  induction updates generalizing s with
  | nil => exact ⟨rfl, rfl, rfl⟩
  | cons t updates ih => exact (update_sameConfig s t).trans (ih (s.update t).1)

/-! ## Publications -/

/-- The store is the topology of a generation, at the addresses of its members. -/
structure Reflects (topology : List MemberInfo) (generation : UInt64) (s : PeerTopologyStore) :
    Prop where
  stored : ∀ m ∈ topology, ∃ publication,
    s.snapshots (address m.ip m.port) = some (s.next (peerTopology m generation) publication)
  others : ∀ a, (∀ m ∈ topology, address m.ip m.port ≠ a) → s.snapshots a = none

theorem next_peerId (s : PeerTopologyStore) (t : PeerTopology) (publication : Nat) :
    (s.next t publication).peerId = t.peerId := by
  unfold next
  split
  · rfl
  · split <;> rfl

theorem next_generation (s : PeerTopologyStore) (t : PeerTopology) (publication : Nat) :
    (s.next t publication).generation = t.generation := by
  unfold next
  split
  · rfl
  · split <;> rfl

theorem next_publication (s : PeerTopologyStore) (t : PeerTopology) (publication : Nat) :
    (s.next t publication).publication = publication := by
  unfold next
  split
  · rfl
  · split <;> rfl

/-- Before the members from `m` on are published: those before are, and what else is stored is a
snapshot of a member to come, of its generation or of another. -/
structure Publishing (generation : UInt64) (done todo : List MemberInfo) (s : PeerTopologyStore) :
    Prop where
  stored : ∀ m ∈ done, ∃ publication,
    s.snapshots (address m.ip m.port) = some (s.next (peerTopology m generation) publication)
  rest : ∀ a x, s.snapshots a = some x → (∃ m ∈ done, address m.ip m.port = a) ∨
    ∃ m ∈ todo, address m.ip m.port = a ∧ x.peerId = m.id ∧
      (x.generation = generation → ∃ publication, x = s.next (peerTopology m generation)
        publication)

theorem Publishing.step {generation : UInt64} {done todo : List MemberInfo} {m : MemberInfo}
    (h : Publishing generation done (m :: todo) s)
    (hids : ((done ++ m :: todo).map fun m => m.id).Nodup)
    (haddresses : ((done ++ m :: todo).map fun m => address m.ip m.port).Nodup) :
    Publishing generation (done ++ [m]) todo (s.update (peerTopology m generation)).1 := by
  have hmem : m ∈ done ++ m :: todo := by simp
  -- Members with one address, or with one identity, are one.
  have hbyAddress : ∀ m' ∈ done ++ m :: todo, address m'.ip m'.port = address m.ip m.port →
    m' = m :=
    fun m' hm' heq => List.inj_on_of_nodup_map haddresses hm' hmem heq
  have hbyId : ∀ m' ∈ done ++ m :: todo, m'.id = m.id → m' = m :=
    fun m' hm' heq => List.inj_on_of_nodup_map hids hm' hmem heq
  have hnotDone : m ∉ done := by
    intro hm
    rw [List.map_append, List.nodup_append] at hids
    exact hids.2.2 m.id (List.mem_map_of_mem hm) m.id (by simp) rfl
  have hrest : ∀ a x, s.snapshots a = some x → (∃ m' ∈ done ++ [m], address m'.ip m'.port = a) ∨
      ∃ m' ∈ todo, address m'.ip m'.port = a ∧ x.peerId = m'.id ∧ (x.generation = generation →
        ∃ publication, x = s.next (peerTopology m' generation) publication) := by
    intro a x hx
    rcases h.rest a x hx with ⟨m', hm', ha⟩ | ⟨m', hm', ha, hx'⟩
    · exact .inl ⟨m', List.mem_append_left _ hm', ha⟩
    · rcases List.mem_cons.mp hm' with rfl | hm'
      · exact .inl ⟨m', by simp, ha⟩
      · exact .inr ⟨m', hm', ha, hx'⟩
  rcases update_present s (t := peerTopology m generation) (address_ne_nil _ _) rfl with
    ⟨hknown, hupdate⟩ | ⟨hknown, hupdate⟩
  · -- The snapshot at the address is of this generation, so it is the member's.
    rw [hupdate]
    refine ⟨fun m' hm' => ?_, hrest⟩
    rcases List.mem_append.mp hm' with hm' | hm'
    · exact h.stored m' hm'
    · obtain rfl := List.mem_singleton.mp hm'
      obtain ⟨x, hx, hgeneration, -⟩ := exists_of_known hknown
      rcases h.rest _ x hx with ⟨m₀, hm₀, ha⟩ | ⟨m₀, hm₀, ha, -, hnext⟩
      · have heq := hbyAddress m₀ (List.mem_append_left _ hm₀) ha
        exact absurd (heq ▸ hm₀) hnotDone
      · obtain rfl := hbyAddress m₀ (List.mem_append_right _ hm₀) ha
        obtain ⟨publication, rfl⟩ := hnext hgeneration
        exact ⟨publication, hx⟩
  · rw [hupdate]
    have hconfig : s.SameConfig { s with
        lastPublication := s.lastPublication + 1
        snapshots := s.place (peerTopology m generation)
          (s.next (peerTopology m generation) (s.lastPublication + 1)) } := ⟨rfl, rfl, rfl⟩
    refine ⟨fun m' hm' => ?_, fun a x hx => ?_⟩
    · rcases List.mem_append.mp hm' with hm' | hm'
      · obtain ⟨publication, hstored⟩ := h.stored m' hm'
        have hne : m' ≠ m := fun heq => hnotDone (heq ▸ hm')
        have haddress : address m'.ip m'.port ≠ address m.ip m.port := fun heq =>
          hne (hbyAddress m' (List.mem_append_left _ hm') heq)
        have hid : m'.id ≠ m.id := fun heq => hne (hbyId m' (List.mem_append_left _ hm') heq)
        refine ⟨publication, ?_⟩
        rw [next_congr hconfig]
        exact place_of_ne haddress hstored (by rw [next_peerId]; exact hid)
      · obtain rfl := List.mem_singleton.mp hm'
        exact ⟨s.lastPublication + 1, if_pos rfl⟩
    · rcases of_place hx with ⟨rfl, -⟩ | hold
      · exact .inl ⟨m, by simp, rfl⟩
      · simp only [next_congr hconfig]
        exact hrest a x hold

theorem publish_all {generation : UInt64} {done todo : List MemberInfo}
    (h : Publishing generation done todo s) (hids : ((done ++ todo).map fun m => m.id).Nodup)
    (haddresses : ((done ++ todo).map fun m => address m.ip m.port).Nodup) :
    Reflects (done ++ todo) generation
      (applyUpdates s (todo.map fun m => peerTopology m generation)) := by
  induction todo generalizing done s with
  | nil =>
    rw [List.append_nil]
    refine ⟨h.stored, fun a ha => ?_⟩
    cases hx : s.snapshots a with
    | none => exact hx
    | some x =>
      rcases h.rest a x hx with ⟨m, hm, heq⟩ | ⟨m, hm, -⟩
      · exact absurd heq (ha m hm)
      · cases hm
  | cons m todo ih =>
    have happend : done ++ m :: todo = (done ++ [m]) ++ todo := by simp
    have hstep := h.step hids haddresses
    rw [happend] at hids haddresses ⊢
    exact ih hstep hids haddresses

def SameContent (call call' : PublishCall) : Prop :=
  call.generation = call'.generation → ∀ m ∈ call.topology, ∃ m' ∈ call'.topology,
    peerTopology m call.generation = peerTopology m' call.generation

theorem Reflects.publish {before call : PublishCall}
    (h : Reflects before.topology before.generation c.store)
    (hpublished : c.publishedPeers = before.topology.map binding) (hcall : call.Distinct)
    (hsame : SameContent before call) :
    Reflects call.topology call.generation (c.publish call).store ∧
      (c.publish call).publishedPeers = call.topology.map binding := by
  refine ⟨?_, currentOf_eq hcall.ids⟩
  have hconfig := applyUpdates_sameConfig c.store
    ((c.retired call).map (retirement call.generation))
  have hpublishing : Publishing call.generation [] call.topology
      (applyUpdates c.store ((c.retired call).map (retirement call.generation))) := by
    refine ⟨by simp, fun a x hx => .inr ?_⟩
    rw [retire_all] at hx
    split at hx
    · cases hx
    next hkept =>
    -- What was stored is a member of the topology before, and its binding is not retired.
    obtain ⟨m₀, hm₀, rfl⟩ : ∃ m₀ ∈ before.topology, address m₀.ip m₀.port = a := by
      by_contra hnone
      have hnothing := h.others a fun m hm heq => hnone ⟨m, hm, heq⟩
      cases hnothing.symm.trans hx
    obtain ⟨publication, hstored⟩ := h.stored m₀ hm₀
    cases hx.symm.trans hstored
    have hcurrent : binding m₀ ∈ call.topology.map binding := by
      by_contra hgone
      refine hkept ⟨address_ne_nil _ _, ?_⟩
      rw [hx, Option.any_some, decide_eq_true_eq, next_peerId]
      exact (mem_retired hcall).mpr ⟨.inl (hpublished ▸ List.mem_map_of_mem hm₀), hgone⟩
    obtain ⟨m, hm, hbinding⟩ := List.mem_map.mp hcurrent
    obtain ⟨hid, haddress⟩ := Prod.mk.inj hbinding
    refine ⟨m, hm, haddress, by rw [next_peerId]; exact hid.symm, fun hgeneration => ?_⟩
    rw [next_generation] at hgeneration
    have hgeneration : before.generation = call.generation := hgeneration
    -- The same generation has the same content, and one member with the identity.
    obtain ⟨m', hm', hcontent⟩ := hsame hgeneration m₀ hm₀
    have hid' : m₀.id = m'.id := congrArg PeerTopology.peerId hcontent
    obtain rfl : m' = m := List.inj_on_of_nodup_map hcall.ids hm' hm (hid'.symm.trans hid.symm)
    refine ⟨publication, ?_⟩
    rw [next_congr hconfig, hcontent, hgeneration]
  have hall := publish_all hpublishing hcall.ids hcall.addresses
  rw [Publisher.publish, Publisher.updates, applyUpdates, List.foldl_append]
  exact hall

/-! ## Publication numbers -/

def Numbered (s : PeerTopologyStore) : Prop :=
  ∀ a x, s.snapshots a = some x → 0 < x.publication ∧ x.publication ≤ s.lastPublication

/-- What is stored later was there before, or has a later number. -/
structure Later (s s' : PeerTopologyStore) : Prop where
  last : s.lastPublication ≤ s'.lastPublication
  snapshots : ∀ a x, s'.snapshots a = some x →
    s.snapshots a = some x ∨ s.lastPublication < x.publication

theorem Later.refl (s : PeerTopologyStore) : Later s s :=
  ⟨le_rfl, fun _ _ => .inl⟩

theorem Later.trans {s' s'' : PeerTopologyStore} (h : Later s s') (h' : Later s' s'') :
    Later s s'' := by
  refine ⟨h.last.trans h'.last, fun a x hx => ?_⟩
  rcases h'.snapshots a x hx with hx | hlt
  · exact h.snapshots a x hx
  · exact .inr (Nat.lt_of_le_of_lt h.last hlt)

theorem update_later (h : Numbered s) (t : PeerTopology) :
    Numbered (s.update t).1 ∧ Later s (s.update t).1 := by
  by_cases haddr : t.peerAddr = []
  · have hnone : (s.update t).1 = s := by simp [update, haddr]
    rw [hnone]
    exact ⟨h, .refl s⟩
  cases hpresent : t.present with
  | false =>
    obtain ⟨hlast, hsnap⟩ := update_absent s haddr hpresent
    have hold : ∀ a x, (s.update t).1.snapshots a = some x → s.snapshots a = some x := by
      intro a x hx
      rw [hsnap a] at hx
      split at hx
      · cases hx
      · exact hx
    exact ⟨fun a x hx => hlast.symm ▸ h a x (hold a x hx), hlast.ge, fun a x hx =>
      .inl (hold a x hx)⟩
  | true =>
    rcases update_present s haddr hpresent with ⟨-, hupdate⟩ | ⟨-, hupdate⟩
    · rw [hupdate]
      exact ⟨h, .refl s⟩
    · rw [hupdate]
      refine ⟨fun a x hx => ?_, Nat.le_succ _, fun a x hx => ?_⟩
      · rcases of_place hx with ⟨-, rfl⟩ | hold
        · rw [next_publication]
          exact ⟨Nat.succ_pos _, le_rfl⟩
        · exact ⟨(h a x hold).1, Nat.le_succ_of_le (h a x hold).2⟩
      · rcases of_place hx with ⟨-, rfl⟩ | hold
        · rw [next_publication]
          exact .inr (Nat.lt_succ_self _)
        · exact .inl hold

theorem applyUpdates_later (h : Numbered s) (updates : List PeerTopology) :
    Numbered (applyUpdates s updates) ∧ Later s (applyUpdates s updates) := by
  induction updates generalizing s with
  | nil => exact ⟨h, .refl s⟩
  | cons t updates ih =>
    obtain ⟨hnumbered, hlater⟩ := update_later h t
    obtain ⟨hnumbered', hlater'⟩ := ih hnumbered
    exact ⟨hnumbered', hlater.trans hlater'⟩

theorem after_later (h : Numbered c.store) (calls : List PublishCall) :
    Numbered (c.after calls).store ∧ Later c.store (c.after calls).store := by
  induction calls generalizing c with
  | nil => exact ⟨h, .refl _⟩
  | cons call calls ih =>
    obtain ⟨hnumbered, hlater⟩ := applyUpdates_later h (c.updates call)
    obtain ⟨hnumbered', hlater'⟩ := ih (c := c.publish call) hnumbered
    exact ⟨hnumbered', hlater.trans hlater'⟩

/-- A snapshot taken earlier is current exactly if it is still the one at its address. -/
theorem isCurrent_iff {s' : PeerTopologyStore} (h : Numbered s)
    (hlater : Later s s') (hconfig : s.SameConfig s') (a : ByteString) :
    s'.isCurrent a (s.snapshot a).peerId (s.snapshot a).publication ↔
      s'.snapshot a = s.snapshot a := by
  have hfallback : s.fallback.publication = 0 := by
    unfold fallback
    split <;> rfl
  simp only [isCurrent, Bool.and_eq_true, beq_iff_eq]
  refine ⟨fun hboth => ?_, fun heq => by rw [heq]; exact ⟨rfl, rfl⟩⟩
  have heq := hboth.2
  cases hx' : s'.snapshots a with
  | none =>
    cases hx : s.snapshots a with
    | none => simp [snapshot, hx, hx', fallback_congr hconfig]
    | some x =>
      have hpos := (h a x hx).1
      simp only [snapshot, hx, hx', Option.getD_some, Option.getD_none,
        fallback_congr hconfig, hfallback] at heq
      omega
  | some x' =>
    rcases hlater.snapshots a x' hx' with hx | hlt
    · simp [snapshot, hx, hx']
    · -- A later number than any before.
      have hle : (s.snapshot a).publication ≤ s.lastPublication := by
        cases hx : s.snapshots a with
        | none => simp [snapshot, hx, hfallback]
        | some x => simpa [snapshot, hx] using (h a x hx).2
      simp only [snapshot, hx', Option.getD_some] at heq hle
      omega

/-! ## Sequences of calls -/

/-- Calls with distinct members, of which those with one generation have one content. -/
structure Sequence (calls : List PublishCall) : Prop where
  distinct : ∀ call ∈ calls, call.Distinct
  versioned : ∀ call ∈ calls, ∀ call' ∈ calls, SameContent call call'

def Publisher.start (localDevices : List ByteString) (tiers : List (List UInt8))
    (requireComplete : Bool) : Publisher where
  store := { localDevices, tiers, requireComplete }

/-- What the transport sees after a call. -/
structure Seen (c : Publisher) (call : PublishCall) : Prop where
  /-- One snapshot for each member, at its address. -/
  member : ∀ m ∈ call.topology, ∃ x,
    (c.publish call).store.snapshots (address m.ip m.port) = some x ∧
      (c.publish call).store.snapshot (address m.ip m.port) = x ∧
      x.peerId = m.id ∧ x.generation = call.generation ∧ x.complete = m.hasHealth ∧
      (m.hasHealth = true → ∀ i < c.store.localDevices.length, x.peerHealthy[i]? = some
        (if ∃ d ∈ m.health.ibDevices, deviceHealthy d = true ∧
          c.store.localDevices.findIdx? (· == d.name) = some i then 1 else 0)) ∧
      (m.hasHealth = false → x.peerHealthy = c.store.fallback.peerHealthy)
  /-- Nothing at any other address. -/
  other : ∀ a, (∀ m ∈ call.topology, address m.ip m.port ≠ a) →
    (c.publish call).store.snapshots a = none ∧ (c.publish call).store.snapshot a = c.store.fallback
  /-- A publication that is accepted has the number after the last one, above all that are
      stored. -/
  fresh : ∀ before t rest, c.updates call = before ++ t :: rest → t.present = true →
    ((applyUpdates c.store before).update t).2 = true →
    ∃ x, ((applyUpdates c.store before).update t).1.snapshots t.peerAddr = some x ∧
      x.publication = (applyUpdates c.store before).lastPublication + 1 ∧
      ((applyUpdates c.store before).update t).1.lastPublication = x.publication ∧
      ∀ a y, (applyUpdates c.store before).snapshots a = some y → y.publication < x.publication
  /-- The last number never goes down. -/
  last : ∀ before middle rest, c.updates call = before ++ middle ++ rest →
    (applyUpdates c.store before).lastPublication ≤
      (applyUpdates c.store (before ++ middle)).lastPublication
  /-- A snapshot is current under its own identity and number only. -/
  current : ∀ a id publication, (c.publish call).store.isCurrent a id publication = true ↔
    ((c.publish call).store.snapshot a).peerId = id ∧
      ((c.publish call).store.snapshot a).publication = publication

theorem after_sameConfig (c : Publisher) (calls : List PublishCall) :
    c.store.SameConfig (c.after calls).store := by
  induction calls generalizing c with
  | nil => exact ⟨rfl, rfl, rfl⟩
  | cons call calls ih =>
    exact (applyUpdates_sameConfig c.store (c.updates call)).trans (ih (c.publish call))

section Calls

variable {calls : List PublishCall} {call : PublishCall}

theorem Sequence.init (h : Sequence (calls ++ [call])) : Sequence calls where
  distinct := fun c hc => h.distinct c (List.mem_append_left _ hc)
  versioned := fun c hc c' hc' =>
    h.versioned c (List.mem_append_left _ hc) c' (List.mem_append_left _ hc')

theorem Sequence.publish (h : Sequence (calls ++ [call])) {before : PublishCall}
    (hbefore : before ∈ calls ∨ before.topology = [])
    (hreflects : Reflects before.topology before.generation c.store)
    (hpeers : c.publishedPeers = before.topology.map binding) :
    Reflects call.topology call.generation (c.publish call).store ∧
      (c.publish call).publishedPeers = call.topology.map binding := by
  have hcall : call ∈ calls ++ [call] := by simp
  refine hreflects.publish hpeers (h.distinct call hcall) ?_
  rcases hbefore with hmem | hnil
  · exact h.versioned before (List.mem_append_left _ hmem) call hcall
  · intro _ m hm
    rw [hnil] at hm
    cases hm

theorem after_reflects (c : Publisher) (hempty : ∀ a, c.store.snapshots a = none)
    (hpublished : c.publishedPeers = []) (h : Sequence calls) :
    ∃ before, (before ∈ calls ∨ before.topology = []) ∧
      Reflects before.topology before.generation (c.after calls).store ∧
      (c.after calls).publishedPeers = before.topology.map binding := by
  induction calls using List.reverseRecOn with
  | nil =>
    exact ⟨⟨[], [], 0⟩, .inr rfl, ⟨by simp, fun a _ => hempty a⟩, hpublished⟩
  | append_singleton calls call ih =>
    obtain ⟨before, hbefore, hreflects, hpeers⟩ := ih h.init
    obtain ⟨hnew, hnewPeers⟩ := h.publish hbefore hreflects hpeers
    rw [Publisher.after, List.foldl_append]
    exact ⟨call, .inl (by simp), hnew, hnewPeers⟩

/-- The snapshot of a member says what the member says of itself. -/
theorem next_peerTopology (s : PeerTopologyStore) (m : MemberInfo) (generation : UInt64)
    (publication : Nat) :
    (s.next (peerTopology m generation) publication).complete = m.hasHealth ∧
      (m.hasHealth → ∀ i < s.localDevices.length,
        (s.next (peerTopology m generation) publication).peerHealthy[i]? = some
          (if ∃ d ∈ m.health.ibDevices, deviceHealthy d ∧
            s.localDevices.findIdx? (· == d.name) = some i then 1 else 0)) ∧
      (m.hasHealth = false →
        (s.next (peerTopology m generation) publication).peerHealthy = s.fallback.peerHealthy) := by
  refine ⟨?_, ?_, fun hhealth => ?_⟩
  · unfold next
    split
    · rfl
    · split <;> rfl
  · intro hhealth i hi
    have hcomplete : (peerTopology m generation).complete := hhealth
    have hrails : (∃ rail ∈ (peerTopology m generation).rails, rail.healthy ∧
        s.localDevices.findIdx? (· == rail.name) = some i) ↔
        ∃ d ∈ m.health.ibDevices, deviceHealthy d ∧
          s.localDevices.findIdx? (· == d.name) = some i := by
      simp [peerTopology, sortBy]
    rw [next, if_pos hcomplete]
    dsimp only
    rw [peerHealthy_eq_one s _ hi]
    simp only [hrails]
  · have hcomplete : ¬(peerTopology m generation).complete := by simp [peerTopology, hhealth]
    rw [next, if_neg hcomplete, fallback]
    cases s.requireComplete <;> rfl

theorem fresh_of_accepted (h : Numbered s) {t : PeerTopology} (hpresent : t.present)
    (haccepted : (s.update t).2) :
    ∃ x, (s.update t).1.snapshots t.peerAddr = some x ∧
      x.publication = s.lastPublication + 1 ∧ (s.update t).1.lastPublication = x.publication ∧
      ∀ a y, s.snapshots a = some y → y.publication < x.publication := by
  by_cases haddr : t.peerAddr = []
  · simp [update, haddr] at haccepted
  · rcases update_present s haddr hpresent with ⟨-, hupdate⟩ | ⟨-, hupdate⟩
    · rw [hupdate] at haccepted
      cases haccepted
    · rw [hupdate]
      refine ⟨_, if_pos rfl, next_publication _ _ _, (next_publication _ _ _).symm,
        fun a y hy => ?_⟩
      rw [next_publication]
      exact Nat.lt_succ_of_le (h a y hy).2

theorem seen_of_reflects (hnumbered : Numbered c.store)
    (hreflects : Reflects call.topology call.generation (c.publish call).store) : Seen c call := by
  have hconfig : c.store.SameConfig (c.publish call).store :=
    applyUpdates_sameConfig c.store (c.updates call)
  constructor
  case member =>
    intro m hm
    obtain ⟨publication, hstored⟩ := hreflects.stored m hm
    rw [next_congr hconfig] at hstored
    obtain ⟨hcomplete, hhealth⟩ := next_peerTopology c.store m call.generation publication
    refine ⟨_, hstored, ?_, next_peerId _ _ _, next_generation _ _ _, hcomplete, hhealth⟩
    rw [snapshot, hstored, Option.getD_some]
  case other =>
    intro a ha
    have hnone := hreflects.others a ha
    refine ⟨hnone, ?_⟩
    rw [snapshot, hnone, Option.getD_none, fallback_congr hconfig]
  case fresh =>
    intro before t rest _ hpresent haccepted
    exact fresh_of_accepted (applyUpdates_later hnumbered before).1 hpresent haccepted
  case last =>
    intro before middle rest _
    rw [applyUpdates, applyUpdates, List.foldl_append]
    exact (applyUpdates_later (applyUpdates_later hnumbered before).1 middle).2.last
  case current =>
    intro a id publication
    simp [isCurrent]

/-- What the transport sees after each call of a sequence, and which of the snapshots seen after the
calls so far are current. -/
theorem published_topology_is_seen (localDevices : List ByteString) (tiers : List (List UInt8))
    (requireComplete : Bool) (h : Sequence (calls ++ [call])) :
    Seen ((Publisher.start localDevices tiers requireComplete).after calls) call ∧
      ∀ n a, (((Publisher.start localDevices tiers requireComplete).after calls).publish
            call).store.isCurrent a
          (((Publisher.start localDevices tiers requireComplete).after
            (calls.take n)).store.snapshot a).peerId
          (((Publisher.start localDevices tiers requireComplete).after
            (calls.take n)).store.snapshot a).publication = true ↔
        (((Publisher.start localDevices tiers requireComplete).after calls).publish
            call).store.snapshot a =
          ((Publisher.start localDevices tiers requireComplete).after
            (calls.take n)).store.snapshot a := by
  have hstart : Numbered (Publisher.start localDevices tiers requireComplete).store := fun a x hx =>
    absurd hx (by simp [Publisher.start])
  generalize hc : Publisher.start localDevices tiers requireComplete = c at hstart ⊢
  have hempty : ∀ a, c.store.snapshots a = none := fun a => by rw [← hc]; rfl
  constructor
  · obtain ⟨before, hbefore, hreflects, hpeers⟩ := after_reflects c hempty
      (by rw [← hc]; rfl) h.init
    exact seen_of_reflects (after_later hstart calls).1 (h.publish hbefore hreflects hpeers).1
  · intro n a
    -- The state after the first calls, and the one after all of them.
    have hsplit : (c.after calls).publish call =
        (c.after (calls.take n)).after (calls.drop n ++ [call]) := by
      simp only [Publisher.after]
      rw [← List.foldl_append, ← List.append_assoc, List.take_append_drop, List.foldl_append]
      rfl
    obtain ⟨hnumbered, -⟩ := after_later hstart (calls.take n)
    obtain ⟨hnumbered', hlater⟩ := after_later hnumbered (calls.drop n ++ [call])
    rw [hsplit]
    exact isCurrent_iff hnumbered hlater (after_sameConfig _ _) a

/-- Two members that swap their addresses, over a static ring that has one of them; the first then
reports its device. -/
theorem published_topology_of_swap :
    Seen ((Publisher.start [[105]] [] false).after
        [{ addr := [([110], address [49] 0)], generation := 1
           topology := [{ id := [110], ip := [49] }, { id := [111], ip := [50] }] }])
      { addr := [], generation := 2
        topology := [{ id := [110], ip := [50], hasHealth := true
                       health := { ibDevices := [⟨[105], 4, 5, true⟩] } },
          { id := [111], ip := [49] }] } := by
  refine (published_topology_is_seen [[105]] [] false ⟨?_, ?_⟩).1
  · intro call hcall
    simp only [List.cons_append, List.nil_append, List.mem_cons, List.not_mem_nil,
      or_false] at hcall
    rcases hcall with rfl | rfl
    · exact ⟨by decide, by simp [address]⟩
    · exact ⟨by decide, by simp [address]⟩
  · intro call hcall call' hcall' heq
    simp only [List.cons_append, List.nil_append, List.mem_cons, List.not_mem_nil, or_false]
      at hcall hcall'
    rcases hcall with rfl | rfl <;> rcases hcall' with rfl | rfl
    · exact fun m hm => ⟨m, hm, rfl⟩
    · exact absurd heq (by decide)
    · exact absurd heq (by decide)
    · exact fun m hm => ⟨m, hm, rfl⟩

end Calls

end DingoCache.Client
