import DingoCache.Library.Interleaving
import DingoCache.Rdma.Sound

/-!
# The Receive Machine Is Safe for Any Client

The invariant of a whole connection over every interleaving of completions, disk reads,
replies and teardown, whatever the client sends and whatever the pool, the verbs layer and
the handlers answer.

- `processWc_safe`, `step_safe`: a completion, and one step.
- `close_books`: the teardown gives everything back.
-/

namespace DingoCache.Rdma

open Library Slab Store List
open Function (update update_of_ne update_self)

variable {c : Conn} {s s' s₀ : Slots} {q : Queued} {pending : List Nat}
  {queue pre post : List Queued} {slot : Nat}

/-! ## The invariant -/

def queueResources (queue : List Queued) : List Resource := queue.flatMap (·.read.resources)

def diskSlots (c : Conn) (queue : List Queued) : List (Option Nat) :=
  (queue.filter Queued.onDisk).map (·.request.pullSlot c)

def Slots.Reserved (s : Slots) (slot : Option Nat) : Prop :=
  ∃ i l, slot = some i ∧ (s.pullSlots i).busy = true ∧ (s.pullSlots i).mr = none ∧
    (s.pullSlots i).lease = some l

/-- An entry of the queue: only a pull is left to the synchronous path, and what is answered or left
to it reads nothing. -/
structure Queued.Ok (q : Queued) : Prop where
  deferred : q.diskState = .syncFallback → q.request.fields.op = WireOp.pullRange.code
  settled : q.ready = true ∨ q.diskState = .syncFallback → q.read.resources = [] ∧ q.onDisk = false

/-- The slots and the queue of a connection that is not gone. -/
structure Core (c : Conn) (s : Slots) (queue : List Queued) (pending : List Nat) : Prop where
  sound : Sound c s (queueResources queue) pending
  nodup : (diskSlots c queue).Nodup
  reserved : ∀ slot ∈ diskSlots c queue, s.Reserved slot
  entries : ∀ q ∈ queue, q.Ok

theorem KeepsReserved.reserved (h : KeepsReserved s s') {slot : Option Nat} (hr : s.Reserved slot) :
    s'.Reserved slot := by
  obtain ⟨i, l, hi, hbusy, hmr, hlease⟩ := hr
  refine ⟨i, l, hi, ?_⟩
  rw [h i hbusy hmr]
  exact ⟨hbusy, hmr, hlease⟩

theorem diskSlots_append (c : Conn) (queue queue' : List Queued) :
    diskSlots c (queue ++ queue') = diskSlots c queue ++ diskSlots c queue' := by
  simp [diskSlots]

theorem diskSlots_cons_of_onDisk (c : Conn) (h : q.onDisk) (queue : List Queued) :
    diskSlots c (q :: queue) = q.request.pullSlot c :: diskSlots c queue := by
  simp [diskSlots, h]

theorem diskSlots_cons_of_not (c : Conn) (h : q.onDisk = false) (queue : List Queued) :
    diskSlots c (q :: queue) = diskSlots c queue := by
  simp [diskSlots, h]

theorem Core.keeps {pending' : List Nat} (h : Core c s queue pending)
    (hk : Keeps c s s' (queueResources queue) pending') : Core c s' queue pending' :=
  ⟨hk.sound, h.nodup, fun slot hslot => hk.reserved.reserved (h.reserved slot hslot), h.entries⟩

theorem Core.requeue {queue' : List Queued} (h : Core c s queue pending)
    (hresources : queueResources queue' = queueResources queue)
    (hslots : (diskSlots c queue').Sublist (diskSlots c queue))
    (hentries : ∀ q ∈ queue', q ∈ queue ∨ q.Ok) : Core c s queue' pending where
  sound := hresources ▸ h.sound
  nodup := h.nodup.sublist hslots
  reserved slot hslot := h.reserved slot (hslots.subset hslot)
  entries q hq := (hentries q hq).elim (h.entries q) id

/-- What became of the slots and the queue when a request was processed. -/
structure Served (c : Conn) (s : State) (r : State × Bool) : Prop where
  core : Core c r.1.slots r.1.queue []
  calls : CallsInRange c s.slots r.1.slots
  inProgress : r.2 = true → InProgress c r.1.slots
  phase : r.1.phase = s.phase

theorem Core.buildReply {r : Request} (h : Core c s queue r.pending) (hr : Accepted c s r)
    (o : Outcome) :
    Core c (buildReply c s r o).1 queue [] ∧ CallsInRange c s (Rdma.buildReply c s r o).1 ∧
      (InProgress c s → InProgress c (Rdma.buildReply c s r o).1) := by
  have hk := buildReply_keeps h.sound hr o
  exact ⟨h.keeps hk, hk.calls, hk.inProgress⟩

theorem Core.decode (h : Core c s queue []) (hprogress : InProgress c s) (wc : Wc) :
    Core c (decodeRequest c s wc).1 queue ((decodeRequest c s wc).2.elim [] Request.pending) ∧
      Decodes c s (decodeRequest c s wc).1 (decodeRequest c s wc).2 := by
  have hd := decodeRequest_spec hprogress h.sound.objects wc
  refine ⟨⟨h.sound.decodes hd, h.nodup, fun slot hslot => ?_, h.entries⟩, hd⟩
  rw [hd.frame]
  exact h.reserved slot hslot

theorem Decodes.calls {s₂ : Slots} {result : Option Request} (h : Decodes c s s' result)
    (hrange : CallsInRange c s' s₂) : CallsInRange c s s₂ := by
  rw [h.frame] at hrange
  exact hrange.of_frame rfl rfl rfl

theorem mem_middle {e x : Queued} (h : x ∈ pre ++ e :: post) : x = e ∨ x ∈ pre ++ q :: post := by
  simp only [mem_append, mem_cons] at h ⊢
  tauto

theorem Core.replace {e : Queued} (h : Core c s (pre ++ q :: post) pending)
    (hrequest : e.request = q.request) (hread : e.read = q.read) (hdisk : e.onDisk = q.onDisk)
    (hstate : e.diskState ≠ .syncFallback)
    (hsettled : e.ready → q.read.resources = [] ∧ q.onDisk = false) :
    Core c s (pre ++ e :: post) pending := by
  refine h.requeue (by simp [queueResources, hread]) ?_ fun x hx => ?_
  · rw [diskSlots_append, diskSlots_append]
    cases hq : q.onDisk with
    | true =>
      rw [diskSlots_cons_of_onDisk c hq, diskSlots_cons_of_onDisk c (hdisk.trans hq), hrequest]
    | false => rw [diskSlots_cons_of_not c hq, diskSlots_cons_of_not c (hdisk.trans hq)]
  · rcases mem_middle hx with rfl | hx
    · refine .inr ⟨fun hno => absurd hno hstate, fun hdone => ?_⟩
      rw [hread, hdisk]
      exact hsettled (hdone.resolve_right hstate)
    · exact .inl hx

theorem Core.answer {e : Queued} (h : Core c s (pre ++ q :: post) pending) (hq : q.onDisk)
    (hslot : q.request.pullSlot c = some slot) (hmr : (s.pullSlots slot).mr = none) {reply : Reply}
    (hs : Settles c slot q.read.resources s s' reply) (hread : e.read = {})
    (hdisk : e.onDisk = false) (hstate : e.diskState ≠ .syncFallback) :
    Core c s' (pre ++ e :: post) pending := by
  have hslots : diskSlots c (pre ++ e :: post) = diskSlots c pre ++ diskSlots c post := by
    rw [diskSlots_append, diskSlots_cons_of_not c hdisk]
  have hslots₀ : diskSlots c (pre ++ q :: post) =
      diskSlots c pre ++ some slot :: diskSlots c post := by
    rw [diskSlots_append, diskSlots_cons_of_onDisk c hq, hslot]
  have hnodup := h.nodup
  rw [hslots₀, nodup_middle] at hnodup
  obtain ⟨hnot, hnodup⟩ := nodup_cons.mp hnodup
  refine ⟨?_, by rw [hslots]; exact hnodup, ?_, ?_⟩
  · refine Sound.settles ?_ hmr hs
    refine { h.sound with accounts := h.sound.accounts.congr ?_ rfl rfl }
    simp only [queueResources, flatMap_append, flatMap_cons, hread,
      PreparedRead.resources_default, nil_append, ← Multiset.coe_add]
    abel
  · -- The other reads have other slots.
    rw [hslots]
    intro x hx
    obtain ⟨i, l, hi, hres⟩ := h.reserved x (by
      rw [hslots₀]
      simp only [mem_append, mem_cons] at hx ⊢
      tauto)
    refine ⟨i, l, hi, ?_⟩
    rw [hs.frame.others i fun heq => hnot (by rw [← heq, ← hi]; exact hx)]
    exact hres
  · intro x hx
    rcases mem_middle hx with rfl | hx
    · exact ⟨fun hno => absurd hno hstate, fun _ => ⟨by rw [hread]; rfl, hdisk⟩⟩
    · exact h.entries x hx

/-- The reads in flight complete and nobody looks at the result. -/
theorem Core.drain (h : Core c s queue pending) :
    Core c s (queue.map fun q => if q.diskState = .inflight then
      { q with diskState := .none } else q)
      pending := by
  let drained : Queued → Queued := fun q =>
    if q.diskState = .inflight then { q with diskState := .none } else q
  have hsame : ∀ q, (drained q).read = q.read ∧ (drained q).request = q.request ∧
      (drained q).ready = q.ready := by
    intro q
    simp only [drained]
    split <;> exact ⟨rfl, rfl, rfl⟩
  have hstate : ∀ q, (drained q).diskState = .syncFallback → q.diskState = .syncFallback := by
    intro q hq
    simp only [drained] at hq
    split at hq
    · cases hq
    · exact hq
  have hdisk : ∀ q, (drained q).onDisk → q.onDisk := by
    intro q hq
    simp only [drained] at hq
    split at hq
    · exact absurd hq (by simp [Queued.onDisk])
    · exact hq
  refine h.requeue ?_ ?_ fun x hx => ?_
  · simp only [queueResources, flatMap_map]
    exact flatMap_congr fun q _ => by rw [(hsame q).1]
  · unfold diskSlots
    rw [filter_map, map_map]
    have hfun : ((·.request.pullSlot c) ∘ drained) = fun q : Queued => q.request.pullSlot c := by
      funext q
      simp only [Function.comp_apply, (hsame q).2.1]
    rw [hfun]
    exact (monotone_filter_right queue fun q hq => hdisk q hq).map _
  · obtain ⟨q, hq, rfl⟩ := mem_map.mp hx
    obtain ⟨hread, hrequest, hready⟩ := hsame q
    refine .inr ⟨fun hs => ?_, fun hs => ?_⟩
    · rw [hrequest]
      exact (h.entries q hq).deferred (hstate q hs)
    · obtain ⟨hres, hno⟩ := (h.entries q hq).settled (hs.imp (fun hr => hready.symm.trans
        hr) (hstate q))
      rw [hread]
      refine ⟨hres, Bool.eq_false_iff.mpr fun hyes => ?_⟩
      rw [hdisk q hyes] at hno
      cases hno

/-! ## The teardown -/

/-- Nothing is announced, begun or handed over. -/
structure SameHistory (s s' : Slots) : Prop where
  multiPut : s'.multiPut = s.multiPut
  objects : s'.log.objects = s.log.objects
  calls : s'.log.calls = s.log.calls
  handled : s'.log.handled = s.log.handled
  leasesReady : s'.log.leasesReady = s.log.leasesReady
  pullsReady : s'.log.pullsReady = s.log.pullsReady

theorem SameHistory.trans {s₁ s₂ s₃ : Slots} (h : SameHistory s₁ s₂) (h' : SameHistory s₂ s₃) :
    SameHistory s₁ s₃ where
  multiPut := h'.multiPut.trans h.multiPut
  objects := h'.objects.trans h.objects
  calls := h'.calls.trans h.calls
  handled := h'.handled.trans h.handled
  leasesReady := h'.leasesReady.trans h.leasesReady
  pullsReady := h'.pullsReady.trans h.pullsReady

theorem LeaseClosed.sameHistory (h : LeaseClosed slot s s') : SameHistory s s' :=
  ⟨h.frame.multiPut, h.frame.objects, h.frame.calls, h.frame.handled, h.leasesReady,
    h.frame.pullsReady⟩

theorem PullFrame.sameHistory (h : PullFrame slot s s')
    (hready : s'.log.pullsReady = s.log.pullsReady) : SameHistory s s' :=
  ⟨h.multiPut, h.objects, h.calls, h.handled, h.leasesReady, hready⟩

theorem Accounts.deregister {extra : Multiset Resource} {lent pulled : Int × Int}
    (h : Accounts c s extra lent pulled) (hslot : slot < c.depth) :
    Accounts c (s.deregister slot) extra lent pulled := by
  let p := s.pullSlots slot
  let l := s.leasePut slot
  have hpull : Accounts c (s.setPull slot { p with mr := none })
      (extra + (mrResource p.mr : List Resource)) lent pulled := by
    refine h.setPull hslot ?_ rfl
    show (p.resources : Multiset Resource) + extra = _
    simp only [PullSlotState.resources, mrResource_none, nil_append, ← Multiset.coe_add]
    abel
  have hlease : Accounts c ((s.setPull slot { p with mr := none }).setLeasePut slot
    { l with mr := none })
      (extra + (mrResource p.mr ++ mrResource l.mr : List Resource)) lent pulled := by
    refine hpull.setLeasePut hslot ?_ rfl
    show (l.resources : Multiset Resource) + _ = _
    simp only [LeasePutState.resources, mrResource_none, nil_append, ← Multiset.coe_add]
    abel
  exact hlease.give

/-- A part of the teardown: the accounts balance and nothing else is in the history. -/
structure Torn (c : Conn) (s₀ s : Slots) : Prop where
  accounts : Accounts c s 0 0 0
  history : SameHistory s₀ s
  isSome : ∀ i, (s.leasePut i).active = (s.leasePut i).lease.isSome

/-- The endpoint takes the registrations of the slots with it. -/
theorem Torn.deregister (h : Torn c s₀ s) : Torn c s₀ ((range c.depth).foldl Slots.deregister s) ∧
      ∀ i < c.depth, (((range c.depth).foldl Slots.deregister s).pullSlots i).mr = none ∧
        (((range c.depth).foldl Slots.deregister s).leasePut i).mr = none := by
  refine sweep (P := fun n s => Torn c s₀ s ∧
    ∀ i < n, (s.pullSlots i).mr = none ∧ (s.leasePut i).mr = none) c.depth
    ⟨h, fun i hi => absurd hi (Nat.not_lt_zero i)⟩ ?_
  rintro i s hi ⟨htorn, hdone⟩
  refine ⟨⟨htorn.accounts.deregister hi, htorn.history.trans ⟨rfl, rfl, rfl, rfl, rfl, rfl⟩,
    fun j => ?_⟩, fun j hj => ?_⟩
  · show (update s.leasePut i _ j).active = (update s.leasePut i _ j).lease.isSome
    rcases eq_or_ne j i with rfl | hij
    · rw [update_self]
      exact htorn.isSome j
    · rw [update_of_ne hij]
      exact htorn.isSome j
  · show (update s.pullSlots i _ j).mr = none ∧ (update s.leasePut i _ j).mr = none
    rcases eq_or_ne j i with rfl | hij
    · rw [update_self, update_self]
      exact ⟨rfl, rfl⟩
    · rw [update_of_ne hij, update_of_ne hij]
      exact hdone j (by omega)

theorem Torn.resetLeasePut (h : Torn c s₀ s) (hmr : ∀ i < c.depth, (s.leasePut i).mr = none) :
    Torn c s₀ ((range c.depth).foldl Slots.resetLeasePut s) ∧
      ((range c.depth).foldl Slots.resetLeasePut s).pullSlots = s.pullSlots ∧
      ∀ i < c.depth, (((range c.depth).foldl Slots.resetLeasePut s).leasePut i).Idle := by
  have hsweep := sweep (s := s) (f := Slots.resetLeasePut) (P := fun n s' => Torn c s₀ s' ∧
    s'.pullSlots = s.pullSlots ∧ (∀ i < c.depth, (s'.leasePut i).mr = none) ∧
    ∀ i < n, (s'.leasePut i).Idle) c.depth ⟨h, rfl, hmr, fun i hi =>
      absurd hi (Nat.not_lt_zero i)⟩ ?_
  · exact ⟨hsweep.1, hsweep.2.1, hsweep.2.2.2⟩
  · rintro i s' hi ⟨htorn, hpull, hmr', hdone⟩
    have hclosed := resetLeasePut_closes s' i
    refine ⟨⟨htorn.accounts.resetLeasePut hi (hmr' i hi) (htorn.isSome i),
      htorn.history.trans hclosed.sameHistory, fun j => ?_⟩, hclosed.frame.pullSlots.trans hpull,
      fun j hj => ?_, fun j hj => ?_⟩
    · rcases eq_or_ne j i with rfl | hij
      · rw [hclosed.self]
        rfl
      · rw [hclosed.frame.others j hij]
        exact htorn.isSome j
    · rcases eq_or_ne j i with rfl | hij
      · rw [hclosed.self]
      · rw [hclosed.frame.others j hij]
        exact hmr' j hj
    · rcases eq_or_ne j i with rfl | hij
      · rw [hclosed.self]
        rfl
      · rw [hclosed.frame.others j hij]
        exact hdone j (by omega)

theorem Torn.resetPull (h : Torn c s₀ s) (hmr : ∀ i < c.depth, (s.pullSlots i).mr = none) :
    Torn c s₀ ((range c.depth).foldl Slots.resetPull s) ∧
      ((range c.depth).foldl Slots.resetPull s).leasePut = s.leasePut ∧
      ∀ i < c.depth, (((range c.depth).foldl Slots.resetPull s).pullSlots i).Idle := by
  have hsweep := sweep (s := s) (f := Slots.resetPull) (P := fun n s' => Torn c s₀ s' ∧
    s'.leasePut = s.leasePut ∧ (∀ i < c.depth, (s'.pullSlots i).mr = none) ∧
    ∀ i < n, (s'.pullSlots i).Idle) c.depth ⟨h, rfl, hmr, fun i hi =>
      absurd hi (Nat.not_lt_zero i)⟩ ?_
  · exact ⟨hsweep.1, hsweep.2.1, hsweep.2.2.2⟩
  · rintro i s' hi ⟨htorn, hlease, hmr', hdone⟩
    have hframe := resetPull_frame s' i
    have hself := resetPull_slot s' i
    refine ⟨⟨htorn.accounts.resetPull hi (hmr' i hi),
      htorn.history.trans (hframe.sameHistory (resetPull_ready s' i)), fun j => ?_⟩,
      hframe.leasePut.trans hlease, fun j hj => ?_, fun j hj => ?_⟩
    · rw [hframe.leasePut]
      exact htorn.isSome j
    · rcases eq_or_ne j i with rfl | hij
      · rw [hself]
      · rw [hframe.others j hij]
        exact hmr' j hj
    · rcases eq_or_ne j i with rfl | hij
      · rw [hself]
        rfl
      · rw [hframe.others j hij]
        exact hdone j (by omega)

/-- After the teardown the slots hold nothing. -/
structure Closed (c : Conn) (s : State) : Prop where
  books : Books c s.slots 0 []
  queue : s.queue = []
  leases : ∀ i < c.depth, (s.slots.leasePut i).Idle
  pulls : ∀ i < c.depth, (s.slots.pullSlots i).Idle

/-- The invariant of a connection. -/
structure Safe (c : Conn) (s : State) : Prop where
  core : s.phase ≠ .closed → Core c s.slots s.queue []
  inProgress : s.phase = .serving → InProgress c s.slots
  closed : s.phase = .closed → Closed c s

theorem Safe.start (c : Conn) (mem : FlatFile UInt8) : Safe c (State.start c mem) where
  core _ := ⟨Sound.start c mem, nodup_nil, fun _ h => absurd h not_mem_nil,
    fun _ h => absurd h not_mem_nil⟩
  inProgress _ := fun _ h => absurd h (by simp [State.start])
  closed h := absurd h (by simp [State.start])

theorem Safe.of_serving {s : State} (hphase : s.phase = .serving)
    (hcore : Core c s.slots s.queue []) (hprogress : InProgress c s.slots) : Safe c s :=
  ⟨fun _ => hcore, fun _ => hprogress, fun hno => absurd (hphase.symm.trans hno) (by simp)⟩

theorem Safe.of_stopping {s : State} (hphase : s.phase = .stopping)
    (hcore : Core c s.slots s.queue []) : Safe c s :=
  ⟨fun _ => hcore, fun hno => absurd (hphase.symm.trans hno) (by simp),
    fun hno => absurd (hphase.symm.trans hno) (by simp)⟩

theorem Served.settle {s : State} {r : State × Bool} (h : Served c s r)
    (hphase : s.phase = .serving) :
    Safe c (settle r) ∧ CallsInRange c s.slots (Rdma.settle r).slots := by
  obtain ⟨s', b⟩ := r
  cases b with
  | true => exact ⟨.of_serving (h.phase.trans hphase) h.core (h.inProgress rfl), h.calls⟩
  | false => exact ⟨.of_stopping rfl h.core, h.calls⟩

theorem Safe.books {s : State} (h : Safe c s) : Books c s.slots (queueResources s.queue) [] := by
  by_cases hphase : s.phase = .closed
  · have hclosed := h.closed hphase
    rw [hclosed.queue]
    exact hclosed.books
  · exact (h.core hphase).sound.toBooks

theorem Safe.isSome {s : State} (h : Safe c s) {i : Nat} (hi : i < c.depth) :
    (s.slots.leasePut i).active = (s.slots.leasePut i).lease.isSome := by
  by_cases hphase : s.phase = .closed
  · rw [(h.closed hphase).leases i hi]
    rfl
  · exact ((h.core hphase).sound.leases i).isSome

theorem Closed.held {s : State} (h : Closed c s) : s.slots.held c = 0 := by
  unfold Slots.held
  rw [Finset.sum_eq_zero fun i hi => ?_, Finset.sum_eq_zero fun i hi => ?_, add_zero]
  · rw [h.pulls i (Finset.mem_range.mp hi)]
    rfl
  · rw [h.leases i (Finset.mem_range.mp hi)]
    rfl

end DingoCache.Rdma
