import DingoCache.Rdma.Leases
import DingoCache.Rdma.Pulls
import DingoCache.Rdma.Requests

/-!
# The Slots Stay Sound

The invariant of the slots of a connection, and that both halves of a request keep it.

- `buildReply_sound`, `preparePull_sound`, `finishDiskRead_sound`: the functions keep it; a
  handler is called only on bytes of the slot or of its lease.
-/

namespace DingoCache.Rdma

open Library Slab Store List

variable {c : Conn} {s s' : Slots} {extra : Multiset Resource} {slot addr : Nat}
  {pending : List Nat} {r : Request}

/-! ## Generations -/

/-- The generation of the `i`-th announcement of a slot. -/
def generationAt (i : Nat) : Nat := nextGeneration^[i] 1

theorem generationAt_succ (i : Nat) : generationAt (i + 1) = nextGeneration (generationAt i) :=
  Function.iterate_succ_apply' ..

/-- The generations announced for the slot, newest first. -/
def issued (slot : Nat) (ready : List (Nat × Nat)) : List Nat :=
  (ready.filter (·.1 == slot)).map Prod.snd

@[simp]
theorem issued_cons_self (slot generation : Nat) (ready : List (Nat × Nat)) :
    issued slot ((slot, generation) :: ready) = generation :: issued slot ready := by
  simp [issued]

theorem issued_cons_of_ne {slot' : Nat} (hne : slot' ≠ slot) (generation : Nat)
    (ready : List (Nat × Nat)) :
    issued slot ((slot', generation) :: ready) = issued slot ready := by
  simp [issued, hne]

/-- The announcements are the first generations, newest first. -/
def Sequential (generations : List Nat) : Prop :=
  generations = ((range generations.length).map generationAt).reverse

theorem Sequential.cons {generations : List Nat} (h : Sequential generations) {generation : Nat}
    (hnext : generation = generationAt generations.length) :
    Sequential (generation :: generations) := by
  unfold Sequential
  rw [length_cons, range_succ, map_append, reverse_append, ← h, hnext]
  rfl

/-- A call for a window of an object hands over the object, and what is handed over is the sum of
its windows. -/
def Complete (window : Bool) (object : Option MultiPutObject) (len : Nat) : Prop :=
  (window = true → object ≠ none) ∧
    ∀ ob, object = some ob → ob.windows.sum = len ∧ ob.windows.length = ob.windowCount

/-- What holds of the history, also when the connection is gone. -/
structure Books (c : Conn) (s : Slots) (extra : Multiset Resource) (pending : List Nat) : Prop where
  accounts : Accounts c s extra 0 0
  objects : Objects c s pending
  leasesReady : ∀ i, Sequential (issued i s.log.leasesReady)
  pullsReady : ∀ i, Sequential (issued i s.log.pullsReady)
  calls : ∀ call ∈ s.log.calls, Complete call.window call.object call.len
  handled : ∀ call ∈ s.log.handled, Complete call.window call.object call.fields.payloadLen

/-- What holds of the slots and their history. -/
structure Sound (c : Conn) (s : Slots) (extra : Multiset Resource) (pending : List Nat) : Prop
    extends Books c s extra pending where
  pullIdle : ∀ i, (s.pullSlots i).busy = false → (s.pullSlots i).Idle
  leases : ∀ i, LeaseOk c (s.leasePut i)
  leaseNext : ∀ i, nextGeneration (s.leasePut i).generation =
    generationAt (issued i s.log.leasesReady).length
  pullNext : ∀ i, (if (s.pullSlots i).mr = none then (s.pullSlots i).generation
    else nextGeneration (s.pullSlots i).generation) =
    generationAt (issued i s.log.pullsReady).length

theorem Sound.start (c : Conn) (mem : FlatFile UInt8) : Sound c { mem } 0 [] where
  accounts := Accounts.start c mem
  pullIdle _ _ := rfl
  leases _ := LeaseOk.of_idle 0
  objects := by
    have hopen : (Slots.openObjects c { mem }) = 0 := Finset.sum_eq_zero fun _ _ => rfl
    unfold Objects
    rw [hopen]
    exact le_refl _
  leasesReady _ := rfl
  leaseNext _ := rfl
  pullsReady _ := rfl
  pullNext _ := rfl
  calls call h := absurd h not_mem_nil
  handled call h := absurd h not_mem_nil

/-- A slot that a disk read targets is not touched. -/
def KeepsReserved (s s' : Slots) : Prop :=
  ∀ i, (s.pullSlots i).busy = true → (s.pullSlots i).mr = none → s'.pullSlots i = s.pullSlots i

def InRegion (c : Conn) (s : Slots) (slot : Nat) (fromLease : Bool) (addr len : Nat) : Prop :=
  slot < c.depth ∧
    if fromLease then
      (s.leasePut slot).active = true ∧ ∃ l, (s.leasePut slot).lease = some l ∧ l.data ≤ addr ∧
        addr + len ≤ l.data + l.size
    else c.slotBase slot ≤ addr ∧ addr + len ≤ c.slotBase slot + c.slotSize

theorem InRegion.lease {len : Nat} (hslot : slot < c.depth)
    (hactive : (s.leasePut slot).active) {l : Lease} (hl : (s.leasePut slot).lease = some l)
    (hlo : l.data ≤ addr) (hhi : addr + len ≤ l.data + l.size) : InRegion c s slot true addr len :=
  ⟨hslot, hactive, l, hl, hlo, hhi⟩

theorem InRegion.resident {len : Nat} (s : Slots) (hslot : slot < c.depth)
    (hlo : c.slotBase slot ≤ addr) (hhi : addr + len ≤ c.slotBase slot + c.slotSize) :
    InRegion c s slot false addr len := ⟨hslot, hlo, hhi⟩

/-- A call of `cache_direct_handler_` on the bytes of its region. -/
def StoreCall.InRange (c : Conn) (s : Slots) (call : StoreCall) : Prop :=
  InRegion c s call.slot call.fromLease call.data call.cap ∧ 0 < call.len ∧ call.len ≤ call.cap

/-- A call of `handler_`: what it gets of the shared memory are bytes of its region. -/
def HandlerCall.InRange (c : Conn) (s : Slots) (call : HandlerCall) : Prop :=
  ∀ addr, call.payload = .shared addr →
    InRegion c s call.slot call.fromLease addr call.fields.payloadLen

/-- The calls between two states are on bytes of the slots as they were before. -/
structure CallsInRange (c : Conn) (s s' : Slots) : Prop where
  direct : ∃ new, s'.log.calls = new ++ s.log.calls ∧ ∀ call ∈ new, call.InRange c s
  generic : ∃ new, s'.log.handled = new ++ s.log.handled ∧ ∀ call ∈ new, call.InRange c s

theorem CallsInRange.of_eq (hcalls : s'.log.calls = s.log.calls)
    (hhandled : s'.log.handled = s.log.handled) : CallsInRange c s s' :=
  ⟨⟨[], hcalls, fun _ h => absurd h not_mem_nil⟩, ⟨[], hhandled, fun _ h => absurd h not_mem_nil⟩⟩

/-- What a function does with the slots, given that it was sound to call it. -/
structure Keeps (c : Conn) (s s' : Slots) (extra : Multiset Resource) (pending : List Nat) :
    Prop where
  sound : Sound c s' extra pending
  reserved : KeepsReserved s s'
  calls : CallsInRange c s s'
  inProgress : InProgress c s → InProgress c s'

theorem Sound.weaken (h : Sound c s extra pending) : Sound c s extra [] :=
  { h with objects := h.objects.weaken }

theorem Keeps.refl (h : Sound c s extra pending) : Keeps c s s extra pending :=
  ⟨h, fun _ _ _ => rfl, .of_eq rfl rfl, fun h => h⟩

theorem each_slot {P : Nat → Prop} (hself : P slot) (hothers : ∀ i, i ≠ slot → P i) (i : Nat) :
    P i := by
  rcases eq_or_ne i slot with rfl | hi
  · exact hself
  · exact hothers i hi

/-! ## Pulls -/

/-- The generation of a granted slot is kept until it is released. -/
theorem Sound.of_pull {extra' : Multiset Resource} (h : Sound c s extra pending)
    (hframe : PullFrame slot s s') (haccounts : Accounts c s' extra' 0 0)
    (hidle : (s'.pullSlots slot).busy = false → (s'.pullSlots slot).Idle)
    (hready : ∀ i, i ≠ slot → issued i s'.log.pullsReady = issued i s.log.pullsReady)
    (hself : Sequential (issued slot s'.log.pullsReady))
    (hnext : (if (s'.pullSlots slot).mr = none then (s'.pullSlots slot).generation
      else nextGeneration (s'.pullSlots slot).generation) =
      generationAt (issued slot s'.log.pullsReady).length) : Sound c s' extra' pending where
  accounts := haccounts
  pullIdle := each_slot hidle fun i hi => by
    rw [hframe.others i hi]
    exact h.pullIdle i
  leases i := by
    rw [hframe.leasePut]
    exact h.leases i
  objects := h.objects.congr hframe.multiPut hframe.objects hframe.calls hframe.handled
  leasesReady i := by
    rw [hframe.leasesReady]
    exact h.leasesReady i
  leaseNext i := by
    rw [hframe.leasePut, hframe.leasesReady]
    exact h.leaseNext i
  pullsReady := each_slot hself fun i hi => by
    rw [hready i hi]
    exact h.pullsReady i
  pullNext := each_slot hnext fun i hi => by
    rw [hready i hi, hframe.others i hi]
    exact h.pullNext i
  calls := by
    rw [hframe.calls]
    exact h.calls
  handled := by
    rw [hframe.handled]
    exact h.handled

theorem InProgress.of_pull (h : InProgress c s) (hframe : PullFrame slot s s') :
    InProgress c s' := by
  intro i hi
  unfold putRegion
  rw [hframe.multiPut] at hi ⊢
  rw [hframe.leasePut]
  exact h i hi

theorem Sound.settles {given : List Resource} {reply : Reply}
    (h : Sound c s (extra + given) pending) (hmr : (s.pullSlots slot).mr = none)
    (hs : Settles c slot given s s' reply) : Sound c s' extra pending := by
  have hpre := h.pullNext slot
  rw [if_pos hmr] at hpre
  cases hs.settled with
  | refused hslot hready hreply =>
    refine h.of_pull hs.frame (hs.accounts h.accounts) ?_ ?_ ?_ ?_
    · intro _
      rw [hslot]
      rfl
    · intro i _
      rw [hready]
    · rw [hready]
      exact h.pullsReady slot
    · rw [hslot, hready]
      exact hpre
  | granted ready mr hreply hslot hgen hready =>
    have hgeneration : ready.slotGeneration = generationAt
      (issued slot s.log.pullsReady).length := by
      rw [hslot.generation, hgen, hpre]
    refine h.of_pull hs.frame (hs.accounts h.accounts) ?_ ?_ ?_ ?_
    · intro hbusy
      rw [hslot.busy] at hbusy
      cases hbusy
    · intro i hi
      rw [hready, issued_cons_of_ne (Ne.symm hi)]
    · rw [hready, issued_cons_self]
      exact (h.pullsReady slot).cons hgeneration
    · rw [hready, issued_cons_self, length_cons, generationAt_succ, ← hgeneration,
        ← hslot.generation, hslot.mr_eq, if_neg (by simp)]

theorem Sound.releasePull (h : Sound c s extra pending) (hslot : slot < c.depth)
    (hmr : (s.pullSlots slot).mr ≠ none) : Sound c (s.releasePull slot) extra pending := by
  have hpre := h.pullNext slot
  rw [if_neg hmr] at hpre
  have hself := releasePull_slot s slot
  refine h.of_pull (releasePull_frame s slot) (h.accounts.releasePull hslot) ?_ ?_ ?_ ?_
  · intro _
    rw [hself]
    rfl
  · intro i _
    rw [releasePull_ready]
  · rw [releasePull_ready]
    exact h.pullsReady slot
  · rw [hself, releasePull_ready]
    exact hpre

theorem KeepsReserved.of_pull (hframe : PullFrame slot s s')
    (hfree : (s.pullSlots slot).busy → (s.pullSlots slot).mr ≠ none) :
    KeepsReserved s s' := by
  intro i hbusy hmr
  refine hframe.others i fun heq => ?_
  subst heq
  exact hfree hbusy hmr

theorem Settles.keeps {reply : Reply} (h : Sound c s extra pending)
    (hfree : (s.pullSlots slot).busy = false) (hs : Settles c slot [] s s' reply) :
    Keeps c s s' extra pending where
  sound := by
    have h' : Sound c s (extra + ([] : List Resource)) pending :=
      { h with accounts := h.accounts.congr (by simp) rfl rfl }
    exact h'.settles (h.pullIdle slot hfree).mr hs
  reserved := .of_pull hs.frame fun hbusy => absurd hbusy (by rw [hfree]; simp)
  calls := .of_eq hs.frame.calls hs.frame.handled
  inProgress hp := hp.of_pull hs.frame

/-! ## PUTs -/

theorem Sound.of_lease {extra' : Multiset Resource} (h : Sound c s extra pending)
    (hframe : LeaseFrame slot s s') (haccounts : Accounts c s' extra' 0 0)
    (hok : LeaseOk c (s'.leasePut slot))
    (hready : ∀ i, i ≠ slot → issued i s'.log.leasesReady = issued i s.log.leasesReady)
    (hself : Sequential (issued slot s'.log.leasesReady))
    (hnext : nextGeneration (s'.leasePut slot).generation =
      generationAt (issued slot s'.log.leasesReady).length) : Sound c s' extra' pending where
  accounts := haccounts
  pullIdle := by
    rw [hframe.pullSlots]
    exact h.pullIdle
  leases := each_slot hok fun i hi => by
    rw [hframe.others i hi]
    exact h.leases i
  objects := h.objects.congr hframe.multiPut hframe.objects hframe.calls hframe.handled
  leasesReady := each_slot hself fun i hi => by
    rw [hready i hi]
    exact h.leasesReady i
  leaseNext := each_slot hnext fun i hi => by
    rw [hready i hi, hframe.others i hi]
    exact h.leaseNext i
  pullsReady := by
    rw [hframe.pullsReady]
    exact h.pullsReady
  pullNext := by
    rw [hframe.pullSlots, hframe.pullsReady]
    exact h.pullNext
  calls := by
    rw [hframe.calls]
    exact h.calls
  handled := by
    rw [hframe.handled]
    exact h.handled

theorem InProgress.of_lease (h : InProgress c s) (hframe : LeaseFrame slot s s')
    (hidle : (s.multiPut slot).active = false) : InProgress c s' := by
  intro i hi
  rw [hframe.multiPut] at hi ⊢
  have hne : i ≠ slot := by
    rintro rfl
    rw [hidle] at hi
    cases hi
  unfold putRegion
  rw [hframe.others i hne]
  exact h i hi

theorem Sound.closeLease (h : Sound c s extra pending) (hclosed : LeaseClosed slot s s')
    (haccounts : Accounts c s' extra 0 0) : Sound c s' extra pending := by
  refine h.of_lease hclosed.frame haccounts ?_ ?_ ?_ ?_
  · rw [hclosed.self]
    exact LeaseOk.of_idle _
  · intro i _
    rw [hclosed.leasesReady]
  · rw [hclosed.leasesReady]
    exact h.leasesReady slot
  · rw [hclosed.self, hclosed.leasesReady]
    exact h.leaseNext slot

theorem Sound.releaseLeasePut (h : Sound c s extra pending) (hslot : slot < c.depth) :
    Sound c (s.releaseLeasePut slot) extra pending :=
  h.closeLease (releaseLeasePut_closes s slot)
    (h.accounts.releaseLeasePut hslot (h.leases slot).isSome)

theorem Sound.setMem (h : Sound c s extra pending) (mem : FlatFile UInt8) :
    Sound c (s.setMem mem) extra pending :=
  { h with accounts := h.accounts.setMem mem, objects := h.objects }

theorem Sound.logCall {call : StoreCall} (h : Sound c s extra (objectNumber call.object))
    (hcomplete : Complete call.window call.object call.len) : Sound c (s.logCall call)
      extra [] := by
  refine { h with accounts := h.accounts.logCall call, objects := ?_, calls := ?_ }
  · refine le_trans (le_of_eq ?_) h.objects
    have hhanded : (s.logCall call).handed = objectNumber call.object ++ s.handed := by
      unfold Slots.handed
      simp
    show s.openObjects c + ((s.logCall call).handed : Multiset Nat) + ([] : List Nat) = _
    rw [hhanded, ← Multiset.coe_add, Multiset.coe_nil, add_zero]
    abel
  · intro call' hcall'
    rcases mem_cons.mp hcall' with rfl | hcall'
    · exact hcomplete
    · exact h.calls call' hcall'

theorem Sound.logHandled {call : HandlerCall} (h : Sound c s extra (objectNumber call.object))
    (hcomplete : Complete call.window call.object call.fields.payloadLen) :
    Sound c (s.logHandled call) extra [] := by
  refine { h with accounts := h.accounts.logHandled call, objects := ?_, handled := ?_ }
  · refine le_trans (le_of_eq ?_) h.objects
    have hhanded : ((s.logHandled call).handed : Multiset Nat) =
        s.handed + objectNumber call.object := by
      unfold Slots.handed
      simp only [Slots.logHandled_log_calls, Slots.logHandled_log_handled, flatMap_cons,
        ← Multiset.coe_add]
      abel
    show s.openObjects c + ((s.logHandled call).handed : Multiset Nat) + ([] : List Nat) = _
    rw [hhanded, Multiset.coe_nil, add_zero, add_assoc]
  · intro call' hcall'
    rcases mem_cons.mp hcall' with rfl | hcall'
    · exact hcomplete
    · exact h.handled call' hcall'

theorem Accepted.complete (h : Accepted c s r) (hfinal : r.fields.op = WireOp.cache.code →
    r.final) :
    Complete r.multiPutWindow r.object r.fields.payloadLen :=
  ⟨fun hw => (h.whole hw).2 (hfinal (h.whole hw).1), fun ob hob => (h.object ob hob).2.2⟩

theorem Conn.dataOffset_add_connMax_le (c : Conn) : kV2DataOffset + c.connMax ≤ c.slotSize :=
  le_v2SlotSize c.connMax_le

/-- `cache_direct_handler_` gets bytes of the lease or of the receive slot. -/
theorem buildCacheDirect_keeps (h : Sound c s extra r.pending) (hr : Accepted c s r)
    (hfinal : r.final) (o : Outcome) : Keeps c s (buildCacheDirect c s r o).1 extra [] := by
  have hcall : ∀ data cap, Sound c (storeDirect s r data cap) extra [] := fun data cap =>
    Sound.logCall (h.setMem _) (hr.complete fun _ => hfinal)
  unfold buildCacheDirect
  dsimp only
  split
  · next hlease =>
    cases hl : (s.leasePut r.dataSlot).lease with
    | none => exact .refl h.weaken
    | some l =>
      dsimp only
      split
      · exact .refl h.weaken
      · next hok =>
        simp only [not_or, Nat.not_lt] at hok
        let stored := storeDirect s r (l.data + kV2DataOffset) (l.size - kV2DataOffset)
        have hclosed := releaseLeasePut_closes stored r.dataSlot
        refine ⟨(hcall _ _).releaseLeasePut hr.dataSlot, fun i _ _ => ?_,
          ⟨⟨[directCall s r (l.data + kV2DataOffset) (l.size - kV2DataOffset)], ?_, ?_⟩,
            ⟨[], ?_, ?_⟩⟩,
          fun hp => ?_⟩
        · exact congrFun hclosed.frame.pullSlots i
        · exact hclosed.frame.calls
        · intro call hcall
          obtain rfl := mem_singleton.mp hcall
          refine ⟨?_, Nat.pos_of_ne_zero hok.2.1, hok.2.2.2⟩
          show InRegion c s r.dataSlot r.fromLeasePut _ _
          rw [hlease]
          exact .lease hr.dataSlot (hr.lease hlease) hl (Nat.le_add_right _ _) (by
            simp only [directCall]
            omega)
        · exact hclosed.frame.handled
        · exact fun call hcall => absurd hcall not_mem_nil
        · exact InProgress.of_lease (s := stored) hp hclosed.frame (hr.final hlease hfinal)
  · next hlease =>
    split
    · exact .refl h.weaken
    · next hok =>
      simp only [not_or, Nat.not_lt] at hok
      have hroom := c.dataOffset_add_connMax_le
      refine ⟨hcall _ _, fun _ _ _ => rfl, ⟨⟨[_], rfl, fun call hcall => ?_⟩, ⟨[], rfl,
        fun call hcall =>
        absurd hcall not_mem_nil⟩⟩, fun hp => hp⟩
      obtain rfl := mem_singleton.mp hcall
      have hcap : c.directBufferCap = c.slotSize - kV2DataOffset := rfl
      refine ⟨?_, Nat.pos_of_ne_zero hok.1, ?_⟩
      · show InRegion c s r.dataSlot r.fromLeasePut _ _
        rw [Bool.eq_false_iff.mpr hlease]
        exact .resident s hr.dataSlot (Nat.le_add_right _ _) (by
          simp only [directCall, Conn.directBuffer, hcap]
          omega)
      · simp only [directCall]
        omega

/-- What `handler_` gets of the shared memory are bytes of the lease or of the receive slot. -/
theorem Accepted.inRegion (hr : Accepted c s r) (hpos : r.fields.payloadLen ≠ 0)
    (haddr : r.contiguousPayload = .shared addr) :
    InRegion c s r.dataSlot r.fromLeasePut addr r.fields.payloadLen := by
  obtain ⟨-, hlease, hbase, hcap⟩ := hr.payload addr haddr
  rw [hlease]
  unfold putRegion at hbase hcap
  dsimp only at hbase hcap
  by_cases hactive : (s.leasePut r.dataSlot).active
  · rw [if_pos hactive] at hbase hcap
    rw [hactive]
    cases hl : (s.leasePut r.dataSlot).lease with
    | none =>
      rw [hl] at hcap
      simp only [Option.map_none, Option.getD_none] at hcap
      omega
    | some l =>
      rw [hl] at hbase hcap
      simp only [Option.map_some, Option.getD_some] at hbase hcap
      exact .lease hr.dataSlot hactive hl (by omega) (by omega)
  · rw [if_neg hactive] at hbase hcap
    dsimp only at hbase hcap
    rw [Bool.eq_false_iff.mpr hactive]
    have hroom := c.dataOffset_add_connMax_le
    exact .resident s hr.dataSlot (by omega) (by omega)

theorem buildGeneric_keeps (h : Sound c s extra r.pending) (hr : Accepted c s r)
    (hfinal : r.fields.op = WireOp.cache.code → r.final) (o : Outcome) :
    Keeps c s (buildGeneric s r o).1 extra [] := by
  unfold buildGeneric
  dsimp only
  split
  · exact .refl h.weaken
  · let call := genericCall s r
    have hlog : Sound c (s.logHandled call) extra [] := Sound.logHandled h (hr.complete hfinal)
    have hrange : call.InRange c s := by
      intro addr haddr
      have hpayload : (if r.fields.payloadLen ≠ 0 then r.contiguousPayload else .null) =
        Payload.shared addr := haddr
      split at hpayload
      · next hpos => exact hr.inRegion hpos hpayload
      · cases hpayload
    have hkeeps : Keeps c s (s.logHandled call) extra [] :=
      ⟨hlog, fun _ _ _ => rfl, ⟨⟨[], rfl, fun _ hmem => absurd hmem not_mem_nil⟩,
        ⟨[call], rfl, fun call' hmem => by
          rw [mem_singleton.mp hmem]
          exact hrange⟩⟩, fun hp => hp⟩
    -- A PUT from a lease closes it.
    have hclose : Keeps c s (if r.fields.op = WireOp.cache.code ∧ r.fromLeasePut = true then
        (s.logHandled call).releaseLeasePut r.dataSlot else s.logHandled call) extra [] := by
      split
      · next hput =>
        have hclosed := releaseLeasePut_closes (s.logHandled call) r.dataSlot
        refine ⟨hlog.releaseLeasePut hr.dataSlot, fun i _ _ => congrFun hclosed.frame.pullSlots i,
          ⟨⟨[], hclosed.frame.calls, fun _ hmem => absurd hmem not_mem_nil⟩,
            ⟨[call], hclosed.frame.handled, fun call' hmem => by
              rw [mem_singleton.mp hmem]
              exact hrange⟩⟩, fun hp => ?_⟩
        exact InProgress.of_lease (s := s.logHandled call) hp hclosed.frame
          (hr.final hput.2 (hfinal hput.1))
      · exact hkeeps
    split
    · exact hclose
    · exact hclose

theorem buildLeasePut_keeps (h : Sound c s extra pending) (hr : Accepted c s r)
    (hop : r.fields.op = WireOp.leasePut.code) (o : Outcome) :
    Keeps c s (buildLeasePut s r o).1 extra pending := by
  obtain ⟨hpos, hle, hfree, hmulti⟩ := hr.leasePut hop
  have hspec := buildLeasePut_spec hr.recvSlot ((h.leases r.recvSlot).idle hfree) o
  generalize buildLeasePut s r o = result at hspec ⊢
  cases hspec with
  | dropped => exact .refl h
  | refused s' reply hbody hclosed haccounts =>
    exact ⟨h.closeLease hclosed (haccounts h.accounts),
      fun i _ _ => congrFun hclosed.frame.pullSlots i,
      .of_eq hclosed.frame.calls hclosed.frame.handled,
      fun hp => hp.of_lease hclosed.frame hmulti⟩
  | opened s' lease mr hframe hself hsize hready haccounts =>
    refine ⟨h.of_lease hframe (haccounts h.accounts) ?_ ?_ ?_ ?_,
      fun i _ _ => congrFun hframe.pullSlots i, .of_eq hframe.calls hframe.handled,
      fun hp => hp.of_lease hframe hmulti⟩
    · rw [hself]
      exact ⟨fun hno => absurd hno (by simp), fun _ => ⟨lease, mr, rfl, rfl, hsize, hle⟩⟩
    · intro i hi
      rw [hready, issued_cons_of_ne (Ne.symm hi)]
    · rw [hready, issued_cons_self]
      exact (h.leasesReady r.recvSlot).cons (h.leaseNext r.recvSlot)
    · rw [hself, hready, issued_cons_self, length_cons, generationAt_succ, ← h.leaseNext r.recvSlot]

/-! ## `build_reply` and the disk pipeline -/

theorem buildReply_pullRange_keeps (h : Sound c s extra pending)
    (hop : r.fields.op = WireOp.pullRange.code) (o : Outcome) :
    Keeps c s (buildReply c s r o).1 extra pending := by
  have hbuild : (buildReply c s r o).1 = (buildPullRange c s r o).1 := by
    simp [buildReply, hop, WireOp.code]
  rw [hbuild]
  rcases buildPullRange_spec h.pullIdle r o with ⟨heq, -⟩ | ⟨slot, -, hfree, hsettles⟩
  · rw [heq]
    exact .refl h
  · exact hsettles.keeps h hfree

theorem buildReply_keeps (h : Sound c s extra r.pending) (hr : Accepted c s r) (o : Outcome) :
    Keeps c s (buildReply c s r o).1 extra [] := by
  by_cases hpull : r.fields.op = WireOp.pullRange.code
  · exact buildReply_pullRange_keeps h.weaken hpull o
  · unfold buildReply
    simp only [if_neg hpull]
    split
    · -- A release works on a granted slot.
      rcases buildPullRelease_spec c s r.fields with heq | ⟨slot, hslot, -, hbusy, hmr, -, heq⟩
      · rw [heq]
        exact .refl h.weaken
      · rw [heq]
        have hframe := releasePull_frame s slot
        exact ⟨h.weaken.releasePull hslot hmr, .of_pull hframe fun _ => hmr,
          .of_eq hframe.calls hframe.handled, fun hp => hp.of_pull hframe⟩
    · split
      · next hop => exact buildLeasePut_keeps h.weaken hr hop o
      · split
        · exact .refl h.weaken
        · next hwindow =>
          have hfinal : r.fields.op = WireOp.cache.code → r.final := by
            intro hop
            unfold Request.final
            cases hw : r.multiPutWindow with
            | false => rfl
            | true =>
              cases hf : r.multiPutFinal with
              | true => rfl
              | false => exact absurd ⟨hop, hw, by rw [hf]; rfl⟩ hwindow
          split
          · next hdirect => exact buildCacheDirect_keeps h hr (hfinal hdirect.1) o
          · exact buildGeneric_keeps h hr hfinal o

theorem Accepted.of_pull (h : Accepted c s r) (hframe : PullFrame slot s s') : Accepted c s' r := by
  have hregion : putRegion c s' r.dataSlot = putRegion c s r.dataSlot := by
    unfold putRegion
    rw [hframe.leasePut]
  refine ⟨h.recvSlot, h.dataSlot, ?_, ?_, h.object, h.whole, ?_, ?_⟩
  · rw [hframe.leasePut]
    exact h.lease
  · rw [hframe.multiPut]
    exact h.final
  · rw [hregion, hframe.leasePut]
    exact h.payload
  · rw [hframe.leasePut, hframe.multiPut]
    exact h.leasePut

theorem Sound.decodes {result : Option Request} (h : Sound c s extra [])
    (hd : Decodes c s s' result) : Sound c s' extra (result.elim [] Request.pending) := by
  have hobjects := hd.objects
  rw [hd.frame] at hobjects ⊢
  exact { h with
    accounts := ⟨h.accounts.ledger, h.accounts.issued, h.accounts.leasePut, h.accounts.pull⟩
    objects := hobjects }

theorem CallsInRange.of_frame {s₀ s₁ s₂ : Slots} (h : CallsInRange c s₁ s₂)
    (hlease : s₁.leasePut = s₀.leasePut) (hcalls : s₁.log.calls = s₀.log.calls)
    (hhandled : s₁.log.handled = s₀.log.handled) : CallsInRange c s₀ s₂ := by
  have hregion : ∀ slot fromLease addr len, InRegion c s₁ slot fromLease addr len →
      InRegion c s₀ slot fromLease addr len := by
    intro slot fromLease addr len hin
    unfold InRegion at hin ⊢
    rw [← hlease]
    exact hin
  obtain ⟨⟨new, hnew, hrange⟩, ⟨new', hnew', hrange'⟩⟩ := h
  refine ⟨⟨new, by rw [hnew, hcalls], fun call hcall => ?_⟩,
    ⟨new', by rw [hnew', hhandled], fun call hcall addr haddr => ?_⟩⟩
  · exact ⟨hregion _ _ _ _ (hrange call hcall).1, (hrange call hcall).2⟩
  · exact hregion _ _ _ _ (hrange' call hcall addr haddr)

end DingoCache.Rdma
