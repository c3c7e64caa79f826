import DingoCache.Rdma.Accounts

/-!
# Pull Slots

What the functions of the pull GET do to the slots.  Each works on one slot, and ends with
the slot free or granted; what it was handed is in the slot or given back.

- `publishPull_settles`, `tryPinnedPull_settles`, `stagePull_settles`, `preparePull_spec`,
  `finishDiskRead_settles`: the functions meet it.
-/

namespace DingoCache.Rdma

open Library Slab Store Multiset
open Function (update update_eq_self update_of_ne update_self)
open Slots

variable {c : Conn} {slot : Nat} {s s₁ : Slots} {reply : Reply}

/-! ## The spec -/

/-- Nothing but the pull slot, the accounts and the memory changes. -/
structure PullFrame (slot : Nat) (s s' : Slots) : Prop where
  multiPut : s'.multiPut = s.multiPut
  leasePut : s'.leasePut = s.leasePut
  others : ∀ i, i ≠ slot → s'.pullSlots i = s.pullSlots i
  objects : s'.log.objects = s.log.objects
  calls : s'.log.calls = s.log.calls
  handled : s'.log.handled = s.log.handled
  leasesReady : s'.log.leasesReady = s.log.leasesReady

theorem PullFrame.refl (slot : Nat) (s : Slots) : PullFrame slot s s :=
  ⟨rfl, rfl, fun _ _ => rfl, rfl, rfl, rfl, rfl⟩

theorem PullFrame.trans {s₂ s₃ : Slots} (h : PullFrame slot s₁ s₂)
    (h' : PullFrame slot s₂ s₃) : PullFrame slot s₁ s₃ where
  multiPut := h'.multiPut.trans h.multiPut
  leasePut := h'.leasePut.trans h.leasePut
  others i hi := (h'.others i hi).trans (h.others i hi)
  objects := h'.objects.trans h.objects
  calls := h'.calls.trans h.calls
  handled := h'.handled.trans h.handled
  leasesReady := h'.leasesReady.trans h.leasesReady

def PullSlotState.Idle (p : PullSlotState) : Prop := p = { generation := p.generation }

/-- The slot is granted: what was announced is what the slot holds. -/
structure Granted (slot : Nat) (p : PullSlotState) (ready : DynamicPullReady) (mr : Mr) : Prop where
  busy : p.busy = true
  mr_eq : p.mr = some mr
  slotIndex : ready.slotIndex = slot
  generation : ready.slotGeneration = p.generation
  dataLen : p.dataLen = ready.dataLen
  valueLen : p.valueLen = ready.valueLen
  address : mr.addr = ready.address
  size : mr.size = max ready.dataLen 1
  rkey : mr.rkey = ready.rkey

/-- What becomes of a slot when its pull is answered. -/
inductive Settled (slot : Nat) (s s' : Slots) (reply : Reply) : Prop
  | refused (hslot : s'.pullSlots slot = { generation := (s.pullSlots slot).generation })
      (hready : s'.log.pullsReady = s.log.pullsReady)
      (hreply : ∀ ready, reply.body ≠ .pullReady ready)
  | granted (ready : DynamicPullReady) (mr : Mr)
      (hreply : reply = { status := .ok, valueLen := ready.valueLen, body := .pullReady ready })
      (hslot : Granted slot (s'.pullSlots slot) ready mr)
      (hgeneration : (s'.pullSlots slot).generation = (s.pullSlots slot).generation)
      (hready : s'.log.pullsReady = (slot, ready.slotGeneration) :: s.log.pullsReady)

/-- A function that was handed `given` answers the pull of the slot. -/
structure Settles (c : Conn) (slot : Nat) (given : List Resource) (s s' : Slots) (reply : Reply) :
    Prop where
  frame : PullFrame slot s s'
  accounts : ∀ {extra lent pulled}, Accounts c s (extra + given) lent pulled →
    Accounts c s' extra lent pulled
  settled : Settled slot s s' reply

/-- Before the pull is answered, the slot may get a lease and the log may grow; what was handed in
changes from `given` to `given'`. -/
structure Prepares (c : Conn) (slot : Nat) (given : List Resource) (s s' : Slots)
    (given' : List Resource) : Prop where
  frame : PullFrame slot s s'
  accounts : ∀ {extra lent pulled}, Accounts c s (extra + given) lent pulled →
    Accounts c s' (extra + given') lent pulled
  generation : (s'.pullSlots slot).generation = (s.pullSlots slot).generation
  ready : s'.log.pullsReady = s.log.pullsReady

theorem Prepares.refl (c : Conn) (slot : Nat) (given : List Resource) (s : Slots) :
    Prepares c slot given s s given := ⟨.refl slot s, fun hacc => hacc, rfl, rfl⟩

theorem Prepares.trans {given₁ given₂ given₃ : List Resource}
    {s₂ s₃ : Slots} (h : Prepares c slot given₁ s₁ s₂ given₂)
    (h' : Prepares c slot given₂ s₂ s₃ given₃) : Prepares c slot given₁ s₁ s₃ given₃ where
  frame := h.frame.trans h'.frame
  accounts hacc := h'.accounts (h.accounts hacc)
  generation := h'.generation.trans h.generation
  ready := h'.ready.trans h.ready

theorem Prepares.settles {given given' : List Resource} {s' : Slots}
    (h : Prepares c slot given s s₁ given') (h' : Settles c slot given' s₁ s' reply) :
    Settles c slot given s s' reply where
  frame := h.frame.trans h'.frame
  accounts hacc := h'.accounts (h.accounts hacc)
  settled := by
    cases h'.settled with
    | refused hslot hready hreply =>
      refine .refused ?_ (hready.trans h.ready) hreply
      rw [hslot, h.generation]
    | granted ready mr hreply hslot hgen hready =>
      exact .granted ready mr hreply hslot (hgen.trans h.generation) (by rw [hready, h.ready])

section Entries

variable (c : Conn) (slot : Nat) (given : List Resource) (s : Slots)

theorem prepares_setMem (mem : FlatFile UInt8) : Prepares c slot given s (s.setMem mem) given :=
  ⟨⟨rfl, rfl, fun _ _ => rfl, rfl, rfl, rfl, rfl⟩, fun hacc => hacc.setMem mem, rfl, rfl⟩

theorem prepares_give {freed kept : List Resource} (hgiven : given = freed ++ kept) :
    Prepares c slot given s (s.give freed) kept := by
  refine ⟨⟨rfl, rfl, fun _ _ => rfl, rfl, rfl, rfl, rfl⟩, fun hacc => ?_, rfl, rfl⟩
  refine Accounts.give (hacc.congr ?_ rfl rfl)
  rw [hgiven, ← coe_add]
  abel

theorem prepares_takeMr : Prepares c slot given s s.takeMr (.mr s.log.mrs :: given) := by
  refine ⟨⟨rfl, rfl, fun _ _ => rfl, rfl, rfl, rfl, rfl⟩, fun hacc => ?_, rfl, rfl⟩
  refine hacc.takeMr.congr ?_ rfl rfl
  rw [← cons_coe, ← cons_coe, coe_nil, ← singleton_add, ← singleton_add]
  abel

theorem prepares_takeLease : Prepares c slot given s s.takeLease
    (.lease s.log.leases :: given) := by
  refine ⟨⟨rfl, rfl, fun _ _ => rfl, rfl, rfl, rfl, rfl⟩, fun hacc => ?_, rfl, rfl⟩
  refine hacc.takeLease.congr ?_ rfl rfl
  rw [← cons_coe, ← cons_coe, coe_nil, ← singleton_add, ← singleton_add]
  abel

theorem prepares_takeRead {read : PreparedRead} (hread : read.number = s.log.reads) :
    Prepares c slot given s (s.takeRead read) (read.resources ++ given) := by
  refine ⟨⟨rfl, rfl, fun _ _ => rfl, rfl, rfl, rfl, rfl⟩, fun hacc => ?_, rfl, rfl⟩
  refine (hacc.takeRead hread).congr ?_ rfl rfl
  rw [← coe_add]
  abel

end Entries

/-! ## Free and granted slots -/

theorem resetPull_frame (s : Slots) (slot : Nat) : PullFrame slot s (s.resetPull slot) := by
  simp only [resetPull]
  cases (s.pullSlots slot).lease with
  | none => exact ⟨rfl, rfl, fun i hi => update_of_ne hi _ _, rfl, rfl, rfl, rfl⟩
  | some l => exact ⟨rfl, rfl, fun i hi => update_of_ne hi _ _, rfl, rfl, rfl, rfl⟩

@[simp]
theorem resetPull_slot (s : Slots) (slot : Nat) :
    (s.resetPull slot).pullSlots slot = { generation := (s.pullSlots slot).generation } := by
  unfold resetPull
  exact update_self ..

@[simp]
theorem resetPull_ready (s : Slots) (slot : Nat) :
    (s.resetPull slot).log.pullsReady = s.log.pullsReady := by
  simp only [resetPull]
  cases (s.pullSlots slot).lease with
  | none => rfl
  | some l => rfl

section

variable (hslot : slot < c.depth) (hmr : (s.pullSlots slot).mr = none)

include hslot hmr

theorem refusal_settles (hreply : ∀ ready, reply.body ≠ .pullReady ready) :
    Settles c slot [] s (s.resetPull slot) reply where
  frame := resetPull_frame s slot
  accounts hacc := (hacc.resetPull hslot hmr).congr (by rw [coe_nil, add_zero]) rfl rfl
  settled := .refused (resetPull_slot ..) (resetPull_ready ..) hreply

theorem pullError_settles (read : PreparedRead) (status : Status) (valueLen : Nat) :
    Settles c slot read.resources s (s.pullError slot read status valueLen).1
      (s.pullError slot read status valueLen).2 := by
  refine (prepares_give c slot read.resources s (List.append_nil _).symm).settles ?_
  exact refusal_settles hslot (s := s.give read.resources) hmr (by simp [pullError])

/-- A grant puts the registration and the read into the slot. -/
theorem grant_settles (read : PreparedRead) (dataLen valueLen : Nat) (mr : Mr)
    (hsize : mr.size = max dataLen 1) :
    Settles c slot (.mr mr.number :: read.resources) s (s.grant slot read mr.addr dataLen
      valueLen mr).1
      (s.grant slot read mr.addr dataLen valueLen mr).2 := by
  let p := s.pullSlots slot
  let p' : PullSlotState :=
    { p with mr := some mr, arenaRead := read, busy := true, dataLen, valueLen }
  let ready : DynamicPullReady :=
    { slotIndex := slot, slotGeneration := p.generation, dataLen, valueLen, address := mr.addr
      rkey := mr.rkey }
  have hself : (s.grant slot read mr.addr dataLen valueLen mr).1.pullSlots slot = p' :=
    update_self ..
  refine ⟨⟨rfl, rfl, fun i hi => update_of_ne hi _ _, rfl, rfl, rfl, rfl⟩, fun hacc => ?_, ?_⟩
  · -- What was handed in goes into the slot, and what the slot held is given back.
    refine Accounts.announcePull (Accounts.give (hacc.setPull (p := p') hslot ?_ rfl))
      slot p.generation
    show (p.resources : Multiset Resource) + _ = (p'.resources : Multiset Resource) + _
    simp only [p', PullSlotState.resources, show p.mr = none from hmr, mrResource_none,
      mrResource_some, List.nil_append, ← coe_add, ← singleton_add,
      ← cons_coe, List.singleton_append]
    abel
  · refine .granted ready mr rfl ?_ ?_ rfl
    · rw [hself]
      exact ⟨rfl, rfl, rfl, rfl, rfl, rfl, rfl, hsize, rfl⟩
    · rw [hself]

theorem publishGrant_settles (read : PreparedRead) (dataLen valueLen : Nat) (mr : Mr)
    (hsize : mr.size = max dataLen 1) : Settles c slot (.mr mr.number :: read.resources) s
      (s.publishGrant slot read mr.addr dataLen valueLen mr).1
      (s.publishGrant slot read mr.addr dataLen valueLen mr).2 := by
  unfold publishGrant
  split
  · -- The pin of the disk read is given back first.
    have hgive : Prepares c slot (.mr mr.number :: read.resources) s (s.give read.commit.2)
        (.mr mr.number :: read.commit.1.resources) := by
      refine ⟨⟨rfl, rfl, fun _ _ => rfl, rfl, rfl, rfl, rfl⟩, fun hacc => ?_, rfl, rfl⟩
      refine Accounts.give (hacc.congr ?_ rfl rfl)
      rw [← PreparedRead.commit_resources read]
      simp only [← coe_add, ← cons_coe, ← singleton_add]
      abel
    exact hgive.settles (grant_settles hslot (s := s.give read.commit.2) hmr read.commit.1 dataLen
      valueLen mr hsize)
  · exact grant_settles hslot hmr read dataLen valueLen mr hsize

/-! ## `publish_pull` and `try_pinned_pull` -/

theorem publishPull_settles (fields : ReqFields) (output outputLen valueLen : Nat)
    (read : PreparedRead) (o : Outcome) : Settles c slot read.resources s
      (s.publishPull slot fields output outputLen valueLen read o).1
      (s.publishPull slot fields output outputLen valueLen read o).2 := by
  unfold publishPull
  split
  · exact pullError_settles hslot hmr read _ valueLen
  · dsimp only
    rcases s.register_cases
      (if outputLen = 0 then ((s.pullSlots slot).lease.map Lease.data).getD 0 else output)
      (max outputLen 1) o.rkey with hnone | ⟨k, -, hsome⟩
    · rw [hnone]
      dsimp only
      split
      · -- The arena cannot be registered: the payload is copied to the staging buffer.
        cases hstage : read.stage with
        | none => exact pullError_settles hslot hmr read _ valueLen
        | some staged =>
          dsimp only
          rw [← PreparedRead.stage_resources hstage]
          refine (prepares_setMem c slot staged.resources s
            (s.mem.pwrite staged.data (s.mem.pread read.data read.payloadLen))).settles ?_
          generalize s.mem.pwrite staged.data (s.mem.pread read.data read.payloadLen) = mem
          rcases (s.setMem mem).register_cases staged.data (max outputLen 1) o.rkey' with
            hnone | ⟨k, -, hsome⟩
          · rw [hnone]
            exact pullError_settles hslot (s := s.setMem mem) hmr staged _ valueLen
          · rw [hsome]
            exact (prepares_takeMr c slot staged.resources (s.setMem mem)).settles
              (publishGrant_settles hslot (s := (s.setMem mem).takeMr) hmr staged outputLen valueLen
                ⟨s.log.mrs, staged.data, max outputLen 1, k⟩ rfl)
      · exact pullError_settles hslot hmr read _ valueLen
    · rw [hsome]
      exact (prepares_takeMr c slot read.resources s).settles
        (publishGrant_settles hslot (s := s.takeMr) hmr read outputLen valueLen
          ⟨s.log.mrs, _, max outputLen 1, k⟩ rfl)

/-- `try_pinned_pull` grants the slot, or leaves it as it is. -/
theorem tryPinnedPull_settles (fields : ReqFields) (o : Outcome) :
    (∃ s', s.tryPinnedPull c slot fields o = (s', none) ∧ Prepares c slot [] s s' [] ∧
      s'.pullSlots = s.pullSlots) ∨
    ∃ s' reply, s.tryPinnedPull c slot fields o = (s', some reply) ∧ Settles c slot []
      s s' reply := by
  unfold tryPinnedPull
  split
  · exact .inl ⟨s, rfl, .refl c slot [] s, rfl⟩
  · cases o.pinned with
    | none => exact .inl ⟨s, rfl, .refl c slot [] s, rfl⟩
    | some read =>
      dsimp only
      generalize hpinned : s.prepared read = pinned
      have hnumber : pinned.number = s.log.reads := by rw [← hpinned]; rfl
      have htake := prepares_takeRead c slot [] s hnumber
      -- A pin that is not used is given back.
      have hdrop : Prepares c slot [] s ((s.takeRead pinned).give pinned.resources) [] :=
        htake.trans (prepares_give c slot _ (s.takeRead pinned) rfl)
      split
      · exact .inl ⟨_, rfl, hdrop, rfl⟩
      · next hok =>
        simp only [not_or] at hok
        rcases (s.takeRead pinned).register_cases pinned.data pinned.payloadLen o.pinnedRkey with
          hnone | ⟨k, -, hsome⟩
        · rw [hnone]
          exact .inl ⟨_, rfl, hdrop, rfl⟩
        · rw [hsome]
          have hsize : pinned.payloadLen = max pinned.payloadLen 1 :=
            (Nat.max_eq_left (Nat.pos_of_ne_zero hok.2.1)).symm
          have hgrant := grant_settles hslot (s := (s.takeRead pinned).takeMr) hmr pinned
            pinned.payloadLen pinned.valueLen
            ⟨s.log.mrs, pinned.data, pinned.payloadLen, k⟩ hsize
          rw [List.append_nil] at htake
          exact .inr ⟨_, _, rfl,
            (htake.trans (prepares_takeMr c slot _ (s.takeRead pinned))).settles hgrant⟩

end

/-! ## Staged pulls -/

theorem idle_settles (hidle : (s.pullSlots slot).Idle)
    (hreply : ∀ ready, reply.body ≠ .pullReady ready) : Settles c slot [] s s reply :=
  ⟨.refl slot s, fun hacc => hacc.congr (by rw [coe_nil, add_zero]) rfl rfl,
    .refused hidle rfl hreply⟩

theorem PullSlotState.Idle.mr {p : PullSlotState} (h : p.Idle) : p.mr = none := by rw [h]

theorem PullSlotState.Idle.lease {p : PullSlotState} (h : p.Idle) : p.lease = none := by rw [h]

theorem assignPullLease_none (hidle : (s.pullSlots slot).Idle) :
    s.assignPullLease slot none = s := by
  obtain ⟨generation, hslot⟩ : ∃ g, s.pullSlots slot = { generation := g } := ⟨_, hidle⟩
  simp only [assignPullLease, hslot, leaseResource_none]
  show s.setPull slot { generation } = s
  rw [setPull, ← hslot, update_eq_self]

theorem prepares_lease (hslot : slot < c.depth)
    (hidle : (s.pullSlots slot).Idle) (data bytes : Nat) :
    Prepares c slot [] s
        ((s.takeLease.assignPullLease slot (some ⟨s.log.leases, data, bytes⟩)).countPull bytes) [] ∧
      ((s.takeLease.assignPullLease slot (some ⟨s.log.leases, data, bytes⟩)).countPull
          bytes).pullSlots slot =
        { generation := (s.pullSlots slot).generation, lease := some ⟨s.log.leases, data,
          bytes⟩ } := by
  let p : PullSlotState :=
    { generation := (s.pullSlots slot).generation, lease := some ⟨s.log.leases, data, bytes⟩ }
  have hset :
      ({ s.pullSlots slot with lease := some ⟨s.log.leases, data, bytes⟩ } : PullSlotState) =
      p := by
    rw [hidle]
  have heq : (s.takeLease.assignPullLease slot (some ⟨s.log.leases, data, bytes⟩)).countPull bytes =
      (s.takeLease.setPull slot p).countPull bytes := by
    unfold assignPullLease
    simp only [takeLease_pullSlots, hidle.lease, hset]
    rfl
  rw [heq]
  refine ⟨⟨⟨rfl, rfl, fun i hi => update_of_ne hi _ _, rfl, rfl, rfl, rfl⟩, fun hacc => ?_,
    ?_, rfl⟩, update_self ..⟩
  · rename_i extra lent pulled
    have htake := (prepares_takeLease c slot [] s).accounts hacc
    have hslot' : Accounts c (s.takeLease.setPull slot p) (extra + ([] : List Resource)) lent
        (pulled - (1, (bytes : Int))) := by
      refine htake.setPull hslot ?_ ?_
      · simp only [takeLease_pullSlots]
        rw [show (s.pullSlots slot).resources = [] by rw [hidle]; rfl]
        simp [p, PullSlotState.resources, add_comm]
      · simp only [takeLease_pullSlots, hidle.lease, p, weight_none, weight_some]
        abel
    exact (hslot'.countPull bytes).congr rfl rfl (by abel)
  · show (update s.pullSlots slot p slot).generation = _
    rw [update_self]

theorem stageInto_settles (hslot : slot < c.depth)
    (hmr : (s.pullSlots slot).mr = none) (fields : ReqFields) (o : Outcome) (l : Lease) :
    Settles c slot [] s (stageInto s slot fields o l).1 (stageInto s slot fields o l).2 := by
  unfold stageInto
  split
  · exact refusal_settles hslot hmr (by simp)
  · split
    · exact refusal_settles hslot hmr (by simp [invalidReply])
    · split
      · exact refusal_settles hslot hmr (by simp [invalidReply])
      · let mem := s.mem.pwrite l.data (s.mem.pread o.output o.outputLen)
        refine (prepares_setMem c slot [] s mem).settles ?_
        exact publishPull_settles hslot (s := s.setMem mem) hmr fields _ _ _ {} o

theorem stagePull_settles (hslot : slot < c.depth)
    (hidle : (s.pullSlots slot).Idle) (fields : ReqFields) (o : Outcome) :
    Settles c slot [] s (stagePull c s slot fields o).1 (stagePull c s slot fields o).2 := by
  unfold stagePull
  dsimp only
  generalize v2SlotSize (if fields.length = 0 then c.connMax else fields.length) = capacity
  split
  · exact idle_settles hidle (by simp [invalidReply])
  · rcases s.allocate_cases capacity o.alloc with hnone | ⟨d, -, hsome⟩
    · rw [hnone]
      dsimp only
      rw [assignPullLease_none hidle]
      exact idle_settles hidle (by simp)
    · rw [hsome]
      dsimp only
      obtain ⟨hprep, hself⟩ := prepares_lease hslot hidle d capacity
      exact hprep.settles (stageInto_settles hslot (by rw [hself]) fields o _)

theorem Request.pullSlot_lt {request : Request}
    (h : request.pullSlot c = some slot) : slot < c.depth := by
  unfold Request.pullSlot at h
  split at h
  · split at h
    · split at h
      · cases h
      · next hok =>
        cases h
        omega
    · cases h
  · cases h

/-- `kPullRange`: nothing happens, or the pull of a free slot is answered. -/
theorem buildPullRange_spec
    (hidle : ∀ i, (s.pullSlots i).busy = false → (s.pullSlots i).Idle) (request : Request)
    (o : Outcome) :
    ((buildPullRange c s request o).1 = s ∧
      ∀ ready, (buildPullRange c s request o).2.body ≠ .pullReady ready) ∨
    ∃ slot, request.pullSlot c = some slot ∧ (s.pullSlots slot).busy = false ∧
      Settles c slot [] s (buildPullRange c s request o).1 (buildPullRange c s request o).2 := by
  unfold buildPullRange
  dsimp only
  split
  · exact .inl ⟨rfl, by simp [invalidReply]⟩
  · cases hslot : request.pullSlot c with
    | none => exact .inl ⟨rfl, by simp [invalidReply]⟩
    | some slot =>
      dsimp only
      split
      · exact .inl ⟨rfl, by simp⟩
      · next hbusy =>
        have hfree : (s.pullSlots slot).busy = false := Bool.eq_false_iff.mpr hbusy
        have hlt := Request.pullSlot_lt hslot
        refine .inr ⟨slot, rfl, hfree, ?_⟩
        rcases tryPinnedPull_settles hlt (hidle slot hfree).mr request.fields o with
          ⟨s', heq, hprep, hsame⟩ | ⟨s', reply, heq, hsettles⟩
        · rw [heq]
          exact hprep.settles (stagePull_settles hlt (by rw [hsame]; exact hidle slot hfree) _ o)
        · rw [heq]
          exact hsettles

/-! ## Disk reads -/

theorem releasePull_frame (s : Slots) (slot : Nat) : PullFrame slot s (s.releasePull slot) := by
  have hset : ∀ (s : Slots) p, PullFrame slot s (s.setPull slot p) := fun s p =>
    ⟨rfl, rfl, fun i hi => update_of_ne hi _ _, rfl, rfl, rfl, rfl⟩
  have hgive : ∀ (s : Slots) rs, PullFrame slot s (s.give rs) := fun s rs =>
    ⟨rfl, rfl, fun _ _ => rfl, rfl, rfl, rfl, rfl⟩
  unfold releasePull
  exact ((hgive _ _).trans (hset _ _)).trans ((resetPull_frame _ slot).trans (hset _ _))

theorem releasePull_slot (s : Slots) (slot : Nat) : (s.releasePull slot).pullSlots slot =
      { generation := nextGeneration (s.pullSlots slot).generation } := by
  unfold releasePull
  simp [resetPull_slot]

theorem releasePull_ready (s : Slots) (slot : Nat) :
    (s.releasePull slot).log.pullsReady = s.log.pullsReady := by
  unfold releasePull
  simp [resetPull_ready]

theorem buildPullRelease_spec (c : Conn) (s : Slots) (fields : ReqFields) :
    buildPullRelease c s fields = (s, invalidReply) ∨
    ∃ slot, slot < c.depth ∧ fields.payloadLen = slot + 1 ∧ (s.pullSlots slot).busy ∧
      (s.pullSlots slot).mr ≠ none ∧ (s.pullSlots slot).generation = fields.length ∧
      buildPullRelease c s fields = (s.releasePull slot, { status := .ok }) := by
  unfold buildPullRelease
  dsimp only
  split
  · exact .inl rfl
  · split
    · exact .inl rfl
    · next hrange hslot =>
      simp only [not_or, Bool.not_eq_true, Bool.not_eq_false', not_not] at hslot
      refine .inr ⟨fields.payloadLen - 1, by omega, by omega, ?_, hslot.2.1, hslot.2.2, rfl⟩
      simpa using hslot.1

end DingoCache.Rdma
