import DingoCache.Library.Ledger
import DingoCache.Rdma.Server

/-!
# What a Connection Takes and Gives Back

The accounts of the slots: a ledger of the leases, pins, holds and registrations, and the
two pairs of gauges, each a sum over the slots.  In the middle of a request something is
taken and not yet in a slot, so the accounts carry what is in flight: `extra` resources,
and what the gauges are ahead of the slots.
-/

namespace DingoCache.Rdma

open Library Slab Store Finset
open PreparedRead

variable {slot : Nat}

/-! ## The accounts -/

/-- Whether the resource is one of the first `leases`, `reads` or `mrs`. -/
def Resource.Issued (leases reads mrs : Nat) : Resource → Prop
  | .lease n => n < leases
  | .pin n => n < reads
  | .hold n => n < reads
  | .mr n => n < mrs

def Slots.held (c : Conn) (s : Slots) : Multiset Resource :=
  ∑ i ∈ range c.depth, ((s.leasePut i).resources : Multiset Resource) +
    ∑ i ∈ range c.depth, ((s.pullSlots i).resources : Multiset Resource)

/-- What a lease adds to its gauges: one lease, and its bytes. -/
def weight (l : Option Lease) : Int × Int := l.elim 0 fun l => (1, l.size)

@[simp]
theorem weight_none : weight none = 0 := rfl

@[simp]
theorem weight_some (l : Lease) : weight (some l) = (1, (l.size : Int)) := rfl

/-- The ledger and the gauges, with what is in flight. -/
structure Accounts (c : Conn) (s : Slots) (extra : Multiset Resource) (lent pulled : Int × Int) :
    Prop where
  ledger : Ledger s.log.taken s.log.released (s.held c + extra)
  issued : ∀ r ∈ s.log.taken, r.Issued s.log.leases s.log.reads s.log.mrs
  leasePut : (s.leasePutActive, s.leasePutBytesActive) =
    ∑ i ∈ range c.depth, weight (s.leasePut i).lease + lent
  pull : (s.dynamicGetActive, s.dynamicGetBytesActive) =
    ∑ i ∈ range c.depth, weight (s.pullSlots i).lease + pulled

theorem Resource.Issued.mono {leases reads mrs leases' reads' mrs' : Nat} {r : Resource}
    (h : r.Issued leases reads mrs) (hl : leases ≤ leases') (hr : reads ≤ reads')
      (hm : mrs ≤ mrs') :
    r.Issued leases' reads' mrs' := by
  cases r with
  | lease n => exact Nat.lt_of_lt_of_le h hl
  | pin n => exact Nat.lt_of_lt_of_le h hr
  | hold n => exact Nat.lt_of_lt_of_le h hr
  | mr n => exact Nat.lt_of_lt_of_le h hm

@[simp]
theorem leaseResource_none : leaseResource none = [] := rfl

@[simp]
theorem leaseResource_some (l : Lease) : leaseResource (some l) = [.lease l.number] := rfl

@[simp]
theorem mrResource_none : mrResource none = [] := rfl

@[simp]
theorem mrResource_some (m : Mr) : mrResource (some m) = [.mr m.number] := rfl

@[simp]
theorem PreparedRead.resources_default : ({} : PreparedRead).resources = [] := rfl

theorem PreparedRead.mem_resources {r : PreparedRead} {x : Resource} (h : x ∈ r.resources) :
    x = .pin r.number ∨ x = .hold r.number := by
  unfold resources at h
  rcases List.mem_append.mp h with h | h
  · split at h
    · exact .inl (List.mem_singleton.mp h)
    · simp at h
  · split at h
    · exact .inr (List.mem_singleton.mp h)
    · simp at h

theorem PreparedRead.nodup_resources (r : PreparedRead) : r.resources.Nodup := by
  unfold resources
  split
  · split
    · simp
    · simp
  · split
    · simp
    · simp

theorem PreparedRead.commit_resources (r : PreparedRead) :
    r.commit.2 ++ r.commit.1.resources = r.resources := by
  unfold commit resources
  by_cases h : r.active
  · simp [h]
  · simp [h]

theorem PreparedRead.stage_resources {r r' : PreparedRead} (h : r.stage = some r') :
    r'.resources = r.resources := by
  simp only [stage, Option.ite_none_left_eq_some] at h
  obtain rfl := Option.some.inj h.2
  rfl

/-! ## One entry at a time -/

namespace Accounts

variable {c : Conn} {s : Slots} {extra extra' : Multiset Resource} {lent lent' pulled
  pulled' : Int × Int}

theorem start (c : Conn) (mem : FlatFile UInt8) : Accounts c { mem } 0 0 0 := by
  have hlease : ({} : LeasePutState).resources = [] := rfl
  have hpull : ({} : PullSlotState).resources = [] := rfl
  refine ⟨?_, fun r hr => absurd hr List.not_mem_nil, ?_, ?_⟩
  · simpa [Slots.held, hlease, hpull] using Ledger.empty
  · simp
  · simp

theorem give {rs : List Resource} (h : Accounts c s (extra + rs) lent pulled) :
    Accounts c (s.give rs) extra lent pulled := by
  refine ⟨?_, h.issued, h.leasePut, h.pull⟩
  have hledger := h.ledger
  rw [← add_assoc] at hledger
  exact hledger.give

variable (h : Accounts c s extra lent pulled)

include h

theorem setMem (mem : FlatFile UInt8) : Accounts c (s.setMem mem) extra lent pulled :=
  ⟨h.ledger, h.issued, h.leasePut, h.pull⟩

theorem announcePull (slot generation : Nat) :
    Accounts c (s.announcePull slot generation) extra lent pulled :=
  ⟨h.ledger, h.issued, h.leasePut, h.pull⟩

theorem announceLease (slot generation : Nat) :
    Accounts c (s.announceLease slot generation) extra lent pulled :=
  ⟨h.ledger, h.issued, h.leasePut, h.pull⟩

theorem logCall (call : StoreCall) : Accounts c (s.logCall call) extra lent pulled :=
  ⟨h.ledger, h.issued, h.leasePut, h.pull⟩

theorem logHandled (call : HandlerCall) : Accounts c (s.logHandled call) extra lent pulled :=
  ⟨h.ledger, h.issued, h.leasePut, h.pull⟩

theorem congr (hextra : extra = extra') (hlent : lent = lent')
    (hpulled : pulled = pulled') : Accounts c s extra' lent' pulled' := by
  subst hextra hlent hpulled
  exact h

theorem take {rs : List Resource} {leases reads mrs : Nat} (hnd : rs.Nodup)
    (hnew : ∀ x ∈ rs, ¬x.Issued s.log.leases s.log.reads s.log.mrs ∧ x.Issued leases reads mrs)
    (hl : s.log.leases ≤ leases) (hr : s.log.reads ≤ reads) (hm : s.log.mrs ≤ mrs) :
    Accounts c { s with log := { s.log with leases, reads, mrs, taken := rs ++ s.log.taken } }
      (extra + rs) lent pulled := by
  refine ⟨?_, fun x hx => ?_, h.leasePut, h.pull⟩
  · rw [← add_assoc]
    exact h.ledger.take hnd fun x hx hmem => (hnew x hx).1 (h.issued x hmem)
  · rcases List.mem_append.mp hx with hx | hx
    · exact (hnew x hx).2
    · exact (h.issued x hx).mono hl hr hm

theorem takeLease : Accounts c s.takeLease (extra + [Resource.lease s.log.leases]) lent pulled :=
  h.take (List.nodup_singleton _) (by simp [Resource.Issued]) (Nat.le_succ _) le_rfl le_rfl

theorem takeMr : Accounts c s.takeMr (extra + [Resource.mr s.log.mrs]) lent pulled :=
  h.take (List.nodup_singleton _) (by simp [Resource.Issued]) le_rfl le_rfl (Nat.le_succ _)

theorem takeRead {read : PreparedRead} (hread : read.number = s.log.reads) :
    Accounts c (s.takeRead read) (extra + read.resources) lent pulled := by
  refine h.take read.nodup_resources (fun x hx => ?_) le_rfl (Nat.le_succ _) le_rfl
  rcases mem_resources hx with rfl | rfl
  · simp [Resource.Issued, hread]
  · simp [Resource.Issued, hread]

theorem setPull (hslot : slot < c.depth) {p : PullSlotState}
    (hextra : ((s.pullSlots slot).resources : Multiset Resource) + extra = p.resources + extra')
    (hpulled : weight (s.pullSlots slot).lease + pulled = weight p.lease + pulled') :
    Accounts c (s.setPull slot p) extra' lent pulled' := by
  have hheld := sum_update hslot (fun p : PullSlotState => (p.resources : Multiset Resource))
    s.pullSlots p
  have hweight := sum_update hslot (fun p : PullSlotState => weight p.lease) s.pullSlots p
  refine ⟨?_, h.issued, h.leasePut, h.pull.trans (sum_exchange hweight hpulled).symm⟩
  have hsum : (s.setPull slot p).held c + extra' = s.held c + extra := by
    refine sum_exchange ?_ hextra
    simp only [Slots.held, Slots.setPull_leasePut, Slots.setPull_pullSlots]
    rw [add_assoc, hheld, ← add_assoc]
  rw [hsum]
  exact h.ledger

theorem setLeasePut (hslot : slot < c.depth) {l : LeasePutState}
    (hextra : ((s.leasePut slot).resources : Multiset Resource) + extra = l.resources + extra')
    (hlent : weight (s.leasePut slot).lease + lent = weight l.lease + lent') :
    Accounts c (s.setLeasePut slot l) extra' lent' pulled := by
  have hheld := sum_update hslot (fun l : LeasePutState => (l.resources : Multiset Resource))
    s.leasePut l
  have hweight := sum_update hslot (fun l : LeasePutState => weight l.lease) s.leasePut l
  refine ⟨?_, h.issued, h.leasePut.trans (sum_exchange hweight hlent).symm, h.pull⟩
  have hsum : (s.setLeasePut slot l).held c + extra' = s.held c + extra := by
    refine sum_exchange ?_ hextra
    simp only [Slots.held, Slots.setLeasePut_leasePut, Slots.setLeasePut_pullSlots]
    rw [add_right_comm, hheld, add_right_comm]
  rw [hsum]
  exact h.ledger

theorem countPull (size : Nat) :
    Accounts c (s.countPull size) extra lent (pulled + (1, (size : Int))) := by
  refine ⟨h.ledger, h.issued, h.leasePut, ?_⟩
  show _ = ∑ i ∈ range c.depth, weight (s.pullSlots i).lease + (pulled + _)
  rw [← add_assoc, ← h.pull]
  rfl

theorem uncountPull (size : Nat) :
    Accounts c (s.uncountPull size) extra lent (pulled - (1, (size : Int))) := by
  refine ⟨h.ledger, h.issued, h.leasePut, ?_⟩
  show _ = ∑ i ∈ range c.depth, weight (s.pullSlots i).lease + (pulled - _)
  rw [← add_sub_assoc, ← h.pull]
  rfl

theorem countLeasePut (size : Nat) :
    Accounts c (s.countLeasePut size) extra (lent + (1, (size : Int))) pulled := by
  refine ⟨h.ledger, h.issued, ?_, h.pull⟩
  show _ = ∑ i ∈ range c.depth, weight (s.leasePut i).lease + (lent + _)
  rw [← add_assoc, ← h.leasePut]
  rfl

theorem uncountLeasePut (size : Nat) :
    Accounts c (s.uncountLeasePut size) extra (lent - (1, (size : Int))) pulled := by
  refine ⟨h.ledger, h.issued, ?_, h.pull⟩
  show _ = ∑ i ∈ range c.depth, weight (s.leasePut i).lease + (lent - _)
  rw [← add_sub_assoc, ← h.leasePut]
  rfl

/-! ## The slots give back what they hold -/

/-- `PullSlotState::Reset` of a slot without a registration. -/
theorem resetPull (hslot : slot < c.depth)
    (hmr : (s.pullSlots slot).mr = none) : Accounts c (s.resetPull slot) extra lent pulled := by
  -- The slot is emptied first and gives back after that; the order does not show in the state.
  let p := s.pullSlots slot
  let idle : PullSlotState :=
    { p with
      busy := false, dataLen := 0, valueLen := 0, lease := none, mr := none, arenaRead := {} }
  have hset : Accounts c (s.setPull slot idle)
      (extra + (p.arenaRead.resources ++ leaseResource p.lease : List Resource)) lent
      (pulled + weight p.lease) := by
    refine h.setPull hslot ?_ ?_
    · have hp : p.resources = p.arenaRead.resources ++ leaseResource p.lease := by
        rw [PullSlotState.resources, hmr]
        rfl
      show (p.resources : Multiset Resource) + extra = ((idle.resources : List Resource)
        : Multiset _) + _
      rw [hp, show idle.resources = [] from rfl, Multiset.coe_nil, zero_add, add_comm]
    · show weight p.lease + pulled = 0 + _
      rw [zero_add, add_comm]
  cases hl : p.lease with
  | none =>
    have heq : s.resetPull slot = (s.setPull slot idle).give (p.arenaRead.resources ++ leaseResource
      p.lease) := by
      simp only [Slots.resetPull, show (s.pullSlots slot).lease = none from hl,
        Option.elim_none, hl]
      rfl
    rw [heq]
    exact hset.give.congr rfl rfl (by rw [hl, weight_none, add_zero])
  | some l =>
    have heq : s.resetPull slot = ((s.setPull slot idle).give
        (p.arenaRead.resources ++ leaseResource p.lease)).uncountPull l.size := by
      simp only [Slots.resetPull, show (s.pullSlots slot).lease = some l from hl,
        Option.elim_some, hl]
      rfl
    rw [heq]
    exact (hset.give.uncountPull l.size).congr rfl rfl (by rw [hl, weight_some,
      add_sub_cancel_right])

theorem releasePull (hslot : slot < c.depth) :
    Accounts c (s.releasePull slot) extra lent pulled := by
  let p := s.pullSlots slot
  let revoked : PullSlotState := { p with mr := none, arenaRead := p.arenaRead.commit.1 }
  have hset : Accounts c (s.setPull slot revoked)
      (extra + (p.arenaRead.commit.2 ++ mrResource p.mr : List Resource)) lent pulled := by
    refine h.setPull hslot ?_ rfl
    show (p.resources : Multiset Resource) + extra = (revoked.resources : Multiset Resource) + _
    rw [PullSlotState.resources, ← commit_resources]
    simp only [revoked, PullSlotState.resources, mrResource_none, List.nil_append,
      ← Multiset.coe_add]
    abel
  have hreset := hset.give.resetPull hslot (by
    show (Function.update s.pullSlots slot revoked slot).mr = none
    rw [Function.update_self])
  refine hreset.setPull hslot rfl rfl

/-- `LeasePutState::Reset` of a slot without a registration. -/
theorem resetLeasePut (hslot : slot < c.depth) (hmr : (s.leasePut slot).mr = none)
    (hactive : (s.leasePut slot).active = (s.leasePut slot).lease.isSome) :
    Accounts c (s.resetLeasePut slot) extra lent pulled := by
  let l := s.leasePut slot
  let idle : LeasePutState :=
    { l with active := false, key := {}, payloadLen := 0, lease := none, mr := none }
  have hset : Accounts c (s.setLeasePut slot idle)
      (extra + (leaseResource l.lease : List Resource)) (lent + weight l.lease) pulled := by
    refine h.setLeasePut hslot ?_ ?_
    · have hl : l.resources = leaseResource l.lease := by
        rw [LeasePutState.resources, hmr]
        rfl
      show (l.resources : Multiset Resource) + extra = (idle.resources : Multiset Resource) + _
      rw [hl, show idle.resources = [] from rfl, Multiset.coe_nil, zero_add, add_comm]
    · show weight l.lease + lent = 0 + _
      rw [zero_add, add_comm]
  cases hl : l.lease with
  | none =>
    have hoff : (s.leasePut slot).active = false := by
      rw [hactive, show (s.leasePut slot).lease = none from hl]
      rfl
    have heq : s.resetLeasePut slot = (s.setLeasePut slot idle).give (leaseResource l.lease) := by
      simp only [Slots.resetLeasePut, hoff, Bool.false_eq_true, if_false]
      rfl
    rw [heq]
    exact hset.give.congr rfl (by rw [hl, weight_none, add_zero]) rfl
  | some le =>
    have hon : (s.leasePut slot).active := by
      rw [hactive, show (s.leasePut slot).lease = some le from hl]
      rfl
    have heq : s.resetLeasePut slot =
        ((s.setLeasePut slot idle).give (leaseResource l.lease)).uncountLeasePut le.size := by
      simp only [Slots.resetLeasePut, hon, if_true, show (s.leasePut slot).lease = some le from hl,
        Option.map_some, Option.getD_some, hl]
      rfl
    rw [heq]
    exact (hset.give.uncountLeasePut le.size).congr rfl
      (by rw [hl, weight_some, add_sub_cancel_right]) rfl

theorem releaseLeasePut (hslot : slot < c.depth)
    (hactive : (s.leasePut slot).active = (s.leasePut slot).lease.isSome) :
    Accounts c (s.releaseLeasePut slot) extra lent pulled := by
  let l := s.leasePut slot
  have hset : Accounts c (s.setLeasePut slot { l with mr := none })
      (extra + (mrResource l.mr : List Resource)) lent pulled := by
    refine h.setLeasePut hslot ?_ rfl
    show (l.resources : Multiset Resource) + extra = _
    simp only [LeasePutState.resources, mrResource_none, List.nil_append, ← Multiset.coe_add]
    abel
  have hself : ((s.give (mrResource l.mr)).setLeasePut slot { l with mr := none }).leasePut slot =
      { l with mr := none } := Function.update_self ..
  refine hset.give.resetLeasePut hslot ?_ ?_
  · show (((s.give (mrResource l.mr)).setLeasePut slot { l with mr := none }).leasePut slot).mr = _
    rw [hself]
  · show (((s.give (mrResource l.mr)).setLeasePut slot { l with mr := none }).leasePut
      slot).active =
      (((s.give (mrResource l.mr)).setLeasePut slot { l with mr := none }).leasePut
        slot).lease.isSome
    rw [hself]
    exact hactive

end Accounts

end DingoCache.Rdma
