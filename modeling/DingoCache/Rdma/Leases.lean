import DingoCache.Rdma.Accounts

/-!
# Leased PUTs

What the functions of the leased PUT do to the slots: a lease is opened by `kLeasePut` and
closed when its object is handed over.

- `releaseLeasePut_closes`: `release_lease_put` empties the slot.
-/

namespace DingoCache.Rdma

open Library Slab Store
open Function (update_eq_self update_of_ne update_self)

variable {c : Conn}

/-- The slot has no lease. -/
def LeasePutState.Idle (l : LeasePutState) : Prop := l = { generation := l.generation }

/-- A slot without a lease is empty; with one, it has its registration and the lease is as long as
the object asks for. -/
structure LeaseOk (c : Conn) (l : LeasePutState) : Prop where
  idle : l.active = false → l.Idle
  active : l.active = true → ∃ lease mr, l.lease = some lease ∧ l.mr = some mr ∧
    lease.size = v2SlotSize l.payloadLen ∧ l.payloadLen ≤ c.maxMsg

theorem LeaseOk.isSome {l : LeasePutState} (h : LeaseOk c l) : l.active = l.lease.isSome := by
  cases hactive : l.active with
  | true =>
    obtain ⟨lease, mr, hlease, -⟩ := h.active hactive
    rw [hlease]
    rfl
  | false =>
    rw [h.idle hactive]
    rfl

theorem LeaseOk.of_idle (generation : Nat) : LeaseOk c { generation } :=
  ⟨fun _ => rfl, fun h => absurd h (by simp)⟩

/-- Nothing but the leased PUT of the slot, the accounts and the announcements changes. -/
structure LeaseFrame (slot : Nat) (s s' : Slots) : Prop where
  mem : s'.mem = s.mem
  multiPut : s'.multiPut = s.multiPut
  pullSlots : s'.pullSlots = s.pullSlots
  others : ∀ i, i ≠ slot → s'.leasePut i = s.leasePut i
  objects : s'.log.objects = s.log.objects
  calls : s'.log.calls = s.log.calls
  handled : s'.log.handled = s.log.handled
  pullsReady : s'.log.pullsReady = s.log.pullsReady

theorem LeaseFrame.trans {slot : Nat} {s₁ s₂ s₃ : Slots} (h : LeaseFrame slot s₁ s₂)
    (h' : LeaseFrame slot s₂ s₃) : LeaseFrame slot s₁ s₃ where
  mem := h'.mem.trans h.mem
  multiPut := h'.multiPut.trans h.multiPut
  pullSlots := h'.pullSlots.trans h.pullSlots
  others i hi := (h'.others i hi).trans (h.others i hi)
  objects := h'.objects.trans h.objects
  calls := h'.calls.trans h.calls
  handled := h'.handled.trans h.handled
  pullsReady := h'.pullsReady.trans h.pullsReady

variable (s : Slots) (slot : Nat)

theorem setLeasePut_frame (l : LeasePutState) : LeaseFrame slot s (s.setLeasePut slot l) :=
  ⟨rfl, rfl, rfl, fun _ hi => update_of_ne hi _ _, rfl, rfl, rfl, rfl⟩

theorem give_leaseFrame (rs : List Resource) :
    LeaseFrame slot s (s.give rs) := ⟨rfl, rfl, rfl, fun _ _ => rfl, rfl, rfl, rfl, rfl⟩

theorem takeMr_leaseFrame : LeaseFrame slot s s.takeMr :=
  ⟨rfl, rfl, rfl, fun _ _ => rfl, rfl, rfl, rfl, rfl⟩

/-- The slot has no lease any more. -/
structure LeaseClosed (slot : Nat) (s s' : Slots) : Prop where
  frame : LeaseFrame slot s s'
  self : s'.leasePut slot = { generation := (s.leasePut slot).generation }
  leasesReady : s'.log.leasesReady = s.log.leasesReady

theorem resetLeasePut_closes : LeaseClosed slot s (s.resetLeasePut slot) := by
  simp only [Slots.resetLeasePut]
  split
  · exact ⟨⟨rfl, rfl, rfl, fun i hi => update_of_ne hi _ _, rfl, rfl, rfl, rfl⟩,
      update_self .., rfl⟩
  · exact ⟨⟨rfl, rfl, rfl, fun i hi => update_of_ne hi _ _, rfl, rfl, rfl, rfl⟩,
      update_self .., rfl⟩

theorem releaseLeasePut_closes : LeaseClosed slot s (s.releaseLeasePut slot) := by
  unfold Slots.releaseLeasePut
  let l := s.leasePut slot
  have hset : LeaseFrame slot s ((s.give (mrResource l.mr)).setLeasePut slot
    { l with mr := none }) :=
    (give_leaseFrame s slot (mrResource l.mr)).trans (setLeasePut_frame ..)
  obtain ⟨hframe, hself, hready⟩ :=
    resetLeasePut_closes ((s.give (mrResource l.mr)).setLeasePut slot { l with mr := none }) slot
  refine ⟨hset.trans hframe, ?_, hready⟩
  rw [hself, Slots.setLeasePut_leasePut, update_self]

/-- What `kLeasePut` does. -/
inductive LeasePutSpec (c : Conn) (s : Slots) (request : Request) : Slots × Option Reply → Prop
  | dropped : LeasePutSpec c s request (s, none)
  | refused (s' : Slots) (reply : Reply) (hbody : reply.body = .empty)
      (hclosed : LeaseClosed request.recvSlot s s')
      (haccounts : ∀ {extra lent pulled}, Accounts c s extra lent pulled →
        Accounts c s' extra lent pulled) : LeasePutSpec c s request (s', some reply)
  | opened (s' : Slots) (lease : Lease) (mr : Mr) (hframe : LeaseFrame request.recvSlot s s')
      (hself : s'.leasePut request.recvSlot =
        { active := true, generation := nextGeneration (s.leasePut request.recvSlot).generation
          key := request.fields.key, payloadLen := request.fields.payloadLen
          lease := some lease, mr := some mr })
      (hsize : lease.size = v2SlotSize request.fields.payloadLen)
      (hready : s'.log.leasesReady =
        (request.recvSlot, nextGeneration (s.leasePut request.recvSlot).generation) ::
          s.log.leasesReady)
      (haccounts : ∀ {extra lent pulled}, Accounts c s extra lent pulled →
        Accounts c s' extra lent pulled) :
      LeasePutSpec c s request
        (s', some
          { status := .ok
            body := .leasePutReady
              { slot := request.recvSlot
                generation := nextGeneration (s.leasePut request.recvSlot).generation
                rkey := mr.rkey, writeBase := lease.data, leaseBytes := lease.size } })

/-- `kLeasePut` at a slot without a lease. -/
theorem buildLeasePut_spec {s : Slots} {request : Request} (hslot : request.recvSlot < c.depth)
    (hidle : (s.leasePut request.recvSlot).Idle) (o : Outcome) :
    LeasePutSpec c s request (buildLeasePut s request o) := by
  obtain ⟨generation, hself⟩ : ∃ g, s.leasePut request.recvSlot = { generation := g } := ⟨_, hidle⟩
  unfold buildLeasePut
  dsimp only
  split
  · exact .dropped
  · rcases s.allocate_cases (v2SlotSize request.fields.payloadLen) o.alloc with
      hnone | ⟨d, -, hsome⟩
    · -- No bytes: the slot stays as it is.
      rw [hnone]
      simp only [hself, leaseResource_none]
      have hsame : s.setLeasePut request.recvSlot { generation } = s := by
        rw [Slots.setLeasePut, ← hself, update_eq_self]
      refine .refused _ _ rfl ?_ fun hacc => ?_
      · show LeaseClosed _ s (s.setLeasePut request.recvSlot { generation })
        rw [hsame]
        exact ⟨⟨rfl, rfl, rfl, fun _ _ => rfl, rfl, rfl, rfl, rfl⟩, hidle, rfl⟩
      · show Accounts c (s.setLeasePut request.recvSlot { generation }) _ _ _
        rw [hsame]
        exact hacc
    · rw [hsome]
      simp only [hself, leaseResource_none]
      let lease : Lease := ⟨s.log.leases, d, v2SlotSize request.fields.payloadLen⟩
      let opened : LeasePutState :=
        { active := true, generation, key := request.fields.key
          payloadLen := request.fields.payloadLen, lease := some lease }
      -- The lease enters the gauges before it enters the slot.
      let counted := (s.takeLease.give []).countLeasePut lease.size
      have hcounted : LeaseFrame request.recvSlot s counted :=
        ⟨rfl, rfl, rfl, fun _ _ => rfl, rfl, rfl, rfl, rfl⟩
      have hcount : ∀ {extra lent pulled}, Accounts c s extra lent pulled →
          Accounts c counted (extra + [Resource.lease s.log.leases])
            (lent + (1, (lease.size : Int))) pulled :=
        fun hacc => Accounts.countLeasePut (s := s.takeLease.give []) hacc.takeLease _
      have hempty : ((s.leasePut request.recvSlot).resources : Multiset Resource) = 0 ∧
          weight (s.leasePut request.recvSlot).lease = 0 := by
        rw [hself]
        exact ⟨rfl, rfl⟩
      rcases counted.register_cases lease.data lease.size o.rkey with hnone | ⟨k, -, hmr⟩
      · -- No registration: the lease is given back.
        rw [show ((s.takeLease.give []).countLeasePut _).register _ _ _ = _ from hnone]
        dsimp only
        obtain ⟨hframe, hself', hready⟩ :=
          releaseLeasePut_closes (counted.setLeasePut request.recvSlot opened) request.recvSlot
        refine .refused _ _ rfl ⟨?_, ?_, hready⟩ fun {extra lent pulled} hacc => ?_
        · exact (hcounted.trans (setLeasePut_frame ..)).trans hframe
        · rw [hself']
          simp only [Slots.setLeasePut_leasePut, update_self, hself, opened]
        · have hset : Accounts c (counted.setLeasePut request.recvSlot opened) extra
            lent pulled := by
            refine (hcount hacc).setLeasePut hslot ?_ ?_
            · show ((s.leasePut request.recvSlot).resources : Multiset Resource) + _ = _
              rw [hempty.1]
              simp [LeasePutState.resources, opened, lease, add_comm]
            · show weight (s.leasePut request.recvSlot).lease + _ = _
              rw [hempty.2]
              simp only [opened, weight_some]
              abel
          refine hset.releaseLeasePut hslot ?_
          simp only [Slots.setLeasePut_leasePut, update_self, opened, Option.isSome_some]
      · rw [show ((s.takeLease.give []).countLeasePut _).register _ _ _ = _ from hmr]
        dsimp only
        let mr : Mr := ⟨counted.log.mrs, lease.data, lease.size, k⟩
        let ready : LeasePutState :=
          { opened with mr := some mr, generation := nextGeneration generation }
        have hframe : LeaseFrame request.recvSlot s (counted.takeMr.setLeasePut
          request.recvSlot ready) :=
          hcounted.trans ((takeMr_leaseFrame counted _).trans (setLeasePut_frame ..))
        have hspec := LeasePutSpec.opened (c := c) (s := s)
          ((counted.takeMr.setLeasePut request.recvSlot ready).announceLease request.recvSlot
            (nextGeneration generation)) lease mr
          (hframe.trans ⟨rfl, rfl, rfl, fun _ _ => rfl, rfl, rfl, rfl, rfl⟩)
          (by
            rw [hself]
            exact update_self ..)
          rfl (by rw [hself]; rfl)
          (fun {extra lent pulled} hacc => by
            refine Accounts.announceLease ((hcount hacc).takeMr.setLeasePut hslot ?_ ?_) _ _
            · show ((s.leasePut request.recvSlot).resources : Multiset Resource) + _ = _
              rw [hempty.1, zero_add]
              show extra + ([.lease s.log.leases] : List Resource) +
                  ([.mr counted.log.mrs] : List Resource) =
                (([.mr counted.log.mrs] ++ [.lease s.log.leases] : List Resource) :
                  Multiset Resource) + extra
              rw [← Multiset.coe_add]
              abel
            · show weight (s.leasePut request.recvSlot).lease + _ = _
              rw [hempty.2]
              simp only [ready, opened, weight_some]
              abel)
        rw [hself] at hspec
        exact hspec

end DingoCache.Rdma
