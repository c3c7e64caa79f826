import DingoCache.Rdma.Requests

/-!
# Segmented PUTs

The windows of `RdmaTransport::CacheFromMulti` in `src/transport/rdma_transport.cc`, and
what the server makes of them.
-/

namespace DingoCache.Rdma

open Library Slab Store List Nat
open WireOp
open State

variable {c : Conn} {s s' : Slots} {slot limit total count : Nat} {key : BlockKey}
  {payloads : List (List UInt8)} {r : Request} {a : Arrival}

/-! ## The windows of the client -/

/-- The inner loop: up to `limit` segments that are not empty, and what is left. -/
def takeWindow : Nat → List (List UInt8) → List (List UInt8) × List (List UInt8)
  | _, [] => ([], [])
  | 0, payloads => ([], payloads)
  | limit + 1, payload :: payloads =>
    if payload = [] then takeWindow (limit + 1) payloads
    else (payload :: (takeWindow limit payloads).1, (takeWindow limit payloads).2)

/-- One WRITE with immediate. -/
structure Window where
  index : Nat
  segments : List (List UInt8)
  logicalOffset : Nat
deriving DecidableEq

namespace Window

variable (w : Window)

def bytes : List UInt8 := w.segments.flatten

def remoteAddr (windowBase : Nat) : Nat :=
  windowBase + if w.index = 0 then 0 else kReqPrefix + w.logicalOffset

/-- What the WRITE carries: the first window has the request prefix in front. -/
def frame (header : List UInt8) : List UInt8 := (if w.index = 0 then header else []) ++ w.bytes

end Window

open Window

/-- The loop over the windows: `n` are left. -/
def windowLoop (limit : Nat) : Nat → Nat → List (List UInt8) → Nat → List Window
  | 0, _, _, _ => []
  | n + 1, index, payloads, logicalOffset =>
    let segments := (takeWindow limit payloads).1
    { index, segments, logicalOffset } ::
      windowLoop limit n (index + 1) (takeWindow limit payloads).2
        (logicalOffset + segments.flatten.length)

def nonempty (payloads : List (List UInt8)) : Nat := payloads.countP (· ≠ [])

def windowCount (limit : Nat) (payloads : List (List UInt8)) : Nat :=
  1 + (nonempty payloads - 1) / limit

def totalBytes (payloads : List (List UInt8)) : Nat := payloads.flatten.length

def putFields (key : BlockKey) (limit : Nat) (payloads : List (List UInt8)) : ReqFields :=
  { op := cache.code, key
    offset := if 1 < windowCount limit payloads then kV2MultiWrPutMagic else 0
    length := if 1 < windowCount limit payloads then windowCount limit payloads else 0
    payloadLen := totalBytes payloads }

def putWindows (limit : Nat) (payloads : List (List UInt8)) : List Window :=
  windowLoop limit (windowCount limit payloads) 0 payloads 0

/-! ## The windows carry the segments -/

/-- The segments that are not empty. -/
def segmentsOf (payloads : List (List UInt8)) : List (List UInt8) := payloads.filter (· ≠ [])

theorem flatten_segmentsOf (payloads : List (List UInt8)) :
    (segmentsOf payloads).flatten = payloads.flatten := by
  induction payloads with
  | nil => rfl
  | cons p ps ih =>
    by_cases h : p = []
    · simpa [segmentsOf, h] using ih
    · simpa [segmentsOf, h] using ih

theorem nonempty_eq (payloads : List (List UInt8)) :
    nonempty payloads = (segmentsOf payloads).length := countP_eq_length_filter

theorem takeWindow_spec (limit : Nat) (payloads : List (List UInt8)) :
    (takeWindow limit payloads).1 = (segmentsOf payloads).take limit ∧
      segmentsOf (takeWindow limit payloads).2 = (segmentsOf payloads).drop limit := by
  induction payloads generalizing limit with
  | nil => simp [takeWindow, segmentsOf]
  | cons p ps ih =>
    cases limit with
    | zero => simp [takeWindow]
    | succ limit =>
      rw [takeWindow]
      by_cases h : p = []
      · rw [if_pos h, h]
        exact ih (limit + 1)
      · rw [if_neg h]
        have hcons : segmentsOf (p :: ps) = p :: segmentsOf ps := by simp [segmentsOf, h]
        rw [hcons, take_succ_cons, drop_succ_cons]
        exact ⟨congrArg _ (ih limit).1, (ih limit).2⟩

/-- The windows lie end to end from `offset` on. -/
def Tiles : Nat → List Window → Prop
  | _, [] => True
  | offset, w :: ws => w.logicalOffset = offset ∧ Tiles (offset + w.bytes.length) ws

theorem windowLoop_spec (n index : Nat) (payloads : List (List UInt8)) (offset : Nat)
    (hn : (segmentsOf payloads).length ≤ n * limit) :
    (windowLoop limit n index payloads offset).length = n ∧
      (windowLoop limit n index payloads offset).flatMap segments = segmentsOf payloads ∧
      Tiles offset (windowLoop limit n index payloads offset) ∧
      (∀ i w, (windowLoop limit n index payloads offset)[i]? = some w → w.index = index + i) ∧
      ∀ w ∈ windowLoop limit n index payloads offset, w.segments.length ≤ limit ∧
        ∀ seg ∈ w.segments, seg ≠ [] := by
  induction n generalizing index payloads offset with
  | zero =>
    have hnil : segmentsOf payloads = [] := length_eq_zero_iff.mp (by omega)
    simp [windowLoop, hnil, Tiles]
  | succ n ih =>
    obtain ⟨hfst, hsnd⟩ := takeWindow_spec limit payloads
    have hn' : (segmentsOf (takeWindow limit payloads).2).length ≤ n * limit := by
      rw [hsnd, length_drop]
      rw [Nat.succ_mul] at hn
      omega
    obtain ⟨hlen, hflat, htile, hindex, hwin⟩ :=
      ih (index + 1) (takeWindow limit payloads).2
        (offset + (takeWindow limit payloads).1.flatten.length) hn'
    rw [windowLoop]
    refine ⟨by rw [length_cons, hlen], ?_, ⟨rfl, htile⟩, ?_, ?_⟩
    · rw [flatMap_cons, hflat, hsnd]
      show (takeWindow limit payloads).1 ++ _ = _
      rw [hfst, take_append_drop]
    · intro i w hw
      cases i with
      | zero =>
        cases hw
        rfl
      | succ i =>
        have := hindex i w hw
        omega
    · intro w hw
      rcases mem_cons.mp hw with rfl | hw
      · show (takeWindow limit payloads).1.length ≤ limit ∧ _
        rw [hfst]
        refine ⟨length_take_le _ _, fun seg hseg => ?_⟩
        simpa using of_mem_filter (mem_of_mem_take hseg)
      · exact hwin w hw

theorem windowLoop_segments_ne_nil (hlimit : 1 ≤ limit) (n index : Nat)
    (payloads : List (List UInt8)) (offset : Nat)
    (hn : (n - 1) * limit < (segmentsOf payloads).length) :
    ∀ w ∈ windowLoop limit n index payloads offset, w.segments ≠ [] := by
  induction n generalizing index payloads offset with
  | zero => simp [windowLoop]
  | succ n ih =>
    obtain ⟨hfst, hsnd⟩ := takeWindow_spec limit payloads
    intro w hw
    rw [windowLoop] at hw
    rcases mem_cons.mp hw with rfl | hw
    · show (takeWindow limit payloads).1 ≠ []
      rw [hfst, ne_eq, take_eq_nil_iff, not_or]
      exact ⟨by omega, ne_nil_of_length_pos (by omega)⟩
    · cases n with
      | zero => simp [windowLoop] at hw
      | succ n =>
        refine ih _ _ _ ?_ w hw
        rw [hsnd, length_drop]
        simp only [Nat.add_sub_cancel, Nat.succ_mul] at hn ⊢
        omega

theorem windowCount_bounds (hlimit : 1 ≤ limit) (hne : 0 < totalBytes payloads) :
    (segmentsOf payloads).length ≤ windowCount limit payloads * limit ∧
      (windowCount limit payloads - 1) * limit < (segmentsOf payloads).length := by
  have hpos : 0 < (segmentsOf payloads).length := by
    refine length_pos_of_ne_nil fun h => ?_
    rw [totalBytes, ← flatten_segmentsOf, h] at hne
    cases hne
  unfold windowCount
  rw [nonempty_eq, Nat.add_sub_cancel_left]
  have hdiv := div_add_mod ((segmentsOf payloads).length - 1) limit
  have hmod := mod_lt ((segmentsOf payloads).length - 1) (lt_of_lt_of_le one_pos hlimit)
  rw [mul_comm] at hdiv
  rw [add_mul, one_mul]
  omega

theorem windowCount_le_totalBytes (limit : Nat) (hne : 0 < totalBytes payloads) :
    windowCount limit payloads ≤ totalBytes payloads := by
  have hle : (segmentsOf payloads).length ≤ totalBytes payloads := by
    rw [totalBytes, ← flatten_segmentsOf, length_flatten]
    calc (segmentsOf payloads).length
        = ((segmentsOf payloads).map fun _ => 1).sum := by simp
      _ ≤ ((segmentsOf payloads).map length).sum := by
        refine sum_le_sum fun seg hseg => ?_
        have : seg ≠ [] := by simpa using of_mem_filter hseg
        exact length_pos_of_ne_nil this
  have hdiv := div_le_self (nonempty payloads - 1) limit
  rw [nonempty_eq] at hdiv
  unfold windowCount
  rw [nonempty_eq]
  omega

/-! ## Windows that arrive at a slot -/

/-- A WRITE with immediate that has arrived: what it did to the memory, its length, the receive it
consumed, and what the pool and the handlers answer. -/
structure Arrival where
  write : FlatFile UInt8 → FlatFile UInt8
  byteLen : Nat
  wrId : Nat
  outcome : Outcome

def Arrival.wc (slot : Nat) (a : Arrival) : Wc :=
  { opcode := .recvRdmaWithImm, withImm := true, immData := slot, byteLen := a.byteLen
    wrId := a.wrId }

/-- The two halves of a request that arrived at the slot; `none` drops the connection. -/
def arrive (c : Conn) (slot : Nat) (s : Slots) (a : Arrival) : Slots × Option (Request × Reply) :=
  match decodeRequest c (s.setMem (a.write s.mem)) (a.wc slot) with
  | (s, none) => (s, none)
  | (s, some request) =>
    match buildReply c s request a.outcome with
    | (s, none) => (s, none)
    | (s, some reply) => (s, some (request, reply))

/-- Windows that arrive one after the other, up to the first that is rejected. -/
def feed (c : Conn) (slot : Nat) : Slots → List Arrival → Slots × Option (List (Request × Reply))
  | s, [] => (s, some [])
  | s, a :: as =>
    match arrive c slot s a with
    | (s, none) => (s, none)
    | (s, some answer) => ((feed c slot s as).1, (feed c slot s as).2.map (answer :: ·))

theorem arrive_eq {s₁ s₂ : Slots} {reply : Reply}
    (hdecode : decodeRequest c (s.setMem (a.write s.mem)) (a.wc slot) = (s₁, some r))
    (hbuild : buildReply c s₁ r a.outcome = (s₂, some reply)) :
    arrive c slot s a = (s₂, some (r, reply)) := by
  rw [arrive, hdecode]
  dsimp only
  rw [hbuild]

theorem arrive_unknown (hwr : ¬a.wrId < c.depth) :
    arrive c slot s a = (s.setMem (a.write s.mem), none) := by
  have hge : c.depth ≤ (a.wc slot).wrId := not_lt.mp hwr
  simp [arrive, decodeRequest, hge]

theorem feed_cons {s₁ : Slots} {as : List Arrival} {answer : Request × Reply}
    {answers : List (Request × Reply)} (harrive : arrive c slot s a = (s₁, some answer))
    (hfeed : feed c slot s₁ as = (s', some answers)) :
    feed c slot s (a :: as) = (s', some (answer :: answers)) := by
  rw [feed, harrive]
  dsimp only
  rw [hfeed]
  rfl

/-- What the store was given, by either handler. -/
def Slots.stored (s : Slots) : List (BlockKey × List UInt8) :=
  s.log.calls.map (fun call => (call.key, call.value)) ++
    (s.log.handled.filter fun call => call.fields.op == cache.code).map fun call =>
      (call.fields.key, call.value)

theorem feed_of_rejected {as : List Arrival} {p : Prop} (harrive : arrive c slot s a = (s', none))
    (hstored : s'.stored = s.stored) :
    (feed c slot s (a :: as)).1.stored = s.stored ∧ (p → (feed c slot s (a :: as)).2 = none) := by
  rw [feed, harrive]
  exact ⟨hstored, fun _ => rfl⟩

theorem buildReply_window (c : Conn) (s : Slots) (o : Outcome)
    (hop : r.fields.op = cache.code) (hfinal : r.final = false) :
    buildReply c s r o = (s, some { status := .ok }) := by
  have hwindow : r.multiPutWindow ∧ r.multiPutFinal = false := by
    simpa [Request.final] using hfinal
  simp [buildReply, hop, hwindow, code]

/-- An object at the slot has begun and is not complete. -/
structure Receiving (m : MultiPutState) (key : BlockKey) (count total received index : Nat) :
    Prop where
  active : m.active = true
  key_eq : m.key = key
  count_eq : m.windowCount = count
  total_eq : m.totalLen = total
  received_eq : m.received = received
  index_eq : m.nextWindow = index
  index_lt : index < count
  received_lt : received < total

theorem Receiving.next {received index : Nat}
    (h : Receiving (s.multiPut slot) key count total received index) (wc : Wc) (r : Request) :
    (∃ s', decodeNextWindow s wc slot r = (s', none) ∧ s'.stored = s.stored ∧
      (wc.byteLen = 0 ∨ total - received < wc.byteLen ∨
        ¬(index + 1 = count ↔ received + wc.byteLen = total))) ∨
    (0 < wc.byteLen ∧ index + 1 < count ∧ received + wc.byteLen < total ∧
      ∃ m r', decodeNextWindow s wc slot r = (s.setMultiPut slot m, some r') ∧
        Receiving m key count total (received + wc.byteLen) (index + 1) ∧ r'.final = false ∧
        r'.fields.op = cache.code) ∨
    (0 < wc.byteLen ∧ index + 1 = count ∧ received + wc.byteLen = total ∧
      ∃ object, decodeNextWindow s wc slot r = (s.setMultiPut slot {}, some { r with
          fields :=
            { op := cache.code, key, offset := kV2MultiWrPutMagic, length := count
              payloadLen := total }
          multiPutWindow := true, multiPutFinal := true, object := some object })) := by
  obtain ⟨hactive, rfl, rfl, rfl, rfl, rfl, hindex, hreceived⟩ := h
  rcases decodeNextWindow_cases (s := s) wc r rfl with
    ⟨s', heq, hs', hbad⟩ | ⟨hpos, hlt, hroom, hmore, heq⟩ | ⟨hpos, hlast, hsum, heq⟩
  · refine .inl ⟨s', heq, ?_, by omega⟩
    rcases hs' with rfl | rfl
    · rfl
    · rfl
  · refine .inr (.inl ⟨hpos, hlt, by omega, _, _, heq, ?_, by simp [Request.final], rfl⟩)
    exact ⟨hactive, rfl, rfl, rfl, rfl, rfl, hlt, by omega⟩
  · exact .inr (.inr ⟨hpos, hlast, hsum, _, heq⟩)

/-! ## Windows that do not add up -/

theorem feed_receiving (hslot : slot < c.depth) (as : List Arrival) {received index : Nat}
    (h : Receiving (s.multiPut slot) key count total received index)
    (hbad : ¬(count ≤ index + as.length ∧
      received + ((as.map Arrival.byteLen).take (count - index)).sum = total)) :
    (feed c slot s as).1.stored = s.stored ∧
      (count ≤ index + as.length ∨ total ≤ received + (as.map Arrival.byteLen).sum →
        (feed c slot s as).2 = none) := by
  induction as generalizing s received index with
  | nil =>
    refine ⟨rfl, fun hend => ?_⟩
    have h1 := h.index_lt
    have h2 := h.received_lt
    simp only [length_nil, map_nil, sum_nil] at hend
    omega
  | cons a as ih =>
    by_cases hwr : a.wrId < c.depth
    · have hdecode := decodeRequest_next (s := s.setMem (a.write s.mem)) (a.wc slot)
        hslot ⟨rfl, rfl⟩
        hwr h.active
      rcases Receiving.next (s := s.setMem (a.write s.mem)) h (a.wc slot)
        (writeRequest c (s.setMem (a.write s.mem)) (a.wc slot)) with
        ⟨s', heq, hstored, -⟩ | ⟨hpos, hlt, hsum, m, r', heq, hm, hfinal, hop⟩ |
        ⟨hpos, hlast, hsum, -⟩
      · -- The window is rejected.
        have harrive : arrive c slot s a = (s', none) := by
          rw [arrive, hdecode.trans heq]
        exact feed_of_rejected harrive hstored
      · -- The window is taken and the object is still not complete.
        have harrive : arrive c slot s a = ((s.setMem (a.write s.mem)).setMultiPut slot m,
              some (r', { status := .ok })) :=
          arrive_eq (hdecode.trans heq) (buildReply_window c _ a.outcome hop hfinal)
        have hm' : Receiving (((s.setMem (a.write s.mem)).setMultiPut slot m).multiPut slot)
            key count total (received + a.byteLen) (index + 1) := by
          simpa [Slots.setMultiPut, Arrival.wc] using hm
        have hstep : count - index = (count - (index + 1)) + 1 := by omega
        obtain ⟨hstored, hrej⟩ := ih hm' (by
          rintro ⟨hlen, htotal⟩
          refine hbad ⟨by simp only [length_cons]; omega, ?_⟩
          rw [hstep, map_cons, take_succ_cons, sum_cons, ← add_assoc]
          exact htotal)
        simp only [feed, harrive]
        refine ⟨hstored, fun hend => ?_⟩
        rw [hrej, Option.map_none]
        simp only [length_cons, map_cons, sum_cons] at hend
        omega
      · -- The window would complete the object, but then the windows add up.
        refine absurd ⟨?_, ?_⟩ hbad
        · simp only [length_cons]
          omega
        · have hone : count - index = 1 := by omega
          rw [hone, map_cons, take_succ_cons, take_zero, sum_singleton]
          exact hsum
    · exact feed_of_rejected (arrive_unknown hwr) rfl

def Announces (c : Conn) (slot : Nat) (s : Slots) (a : Arrival) (fields : ReqFields) : Prop :=
  decodeReq kNativeProtoRdmaV2 (putRegion c s slot).2.2
      ((a.write s.mem).pread ((putRegion c s slot).1 + kV2PutPrefixOffset) kReqPrefix) =
    some fields

/-- The number of windows that a prefix announces: one, unless the offset says otherwise. -/
def announcedCount (fields : ReqFields) : Nat :=
  if fields.offset = kV2MultiWrPutMagic then fields.length else 1

/-- The sizes of the windows: the first one carries the request prefix. -/
def windowSizes (a : Arrival) (as : List Arrival) : List Nat :=
  (a.byteLen - kReqPrefix) :: as.map Arrival.byteLen

/-- A prefix whose first window is not the whole object is taken only if it announces more windows.
-/
theorem announced_cases {frame cap : Nat} {fields : ReqFields} (slot : Nat) (wc : Wc)
    (hwc : wc.opcode = .recvRdmaWithImm ∧ wc.withImm) (r : Request) (regionSize : Nat)
    (hfields : decodeReq kNativeProtoRdmaV2 cap (s.mem.pread frame kReqPrefix) = some fields)
    (hbad : fields.offset ≠ kV2MultiWrPutMagic → wc.byteLen - kReqPrefix ≠ fields.payloadLen) :
    decodeFirstWindow s wc slot r frame regionSize cap = (s, none) ∨
    ∃ m, decodeFirstWindow s wc slot r frame regionSize cap =
        (s.beginMultiPut slot m, some { r with fields, multiPutWindow := true }) ∧
      Receiving m fields.key (announcedCount fields) fields.payloadLen (wc.byteLen - kReqPrefix) 1 ∧
      fields.op = cache.code := by
  rcases decodeFirstWindow_cases s wc slot r frame regionSize cap with
    heq | ⟨fields', hput, hmagic, hcount, hpos, hlt, heq⟩ | ⟨fields', hput, hno, hvalid, -⟩
  · exact .inl heq
  · cases hfields.symm.trans hput.decoded
    rw [announcedCount, if_pos hmagic]
    exact .inr ⟨_, heq, ⟨rfl, rfl, rfl, rfl, rfl, rfl, hcount, hlt⟩, hput.op⟩
  · -- A whole object: the completion is as long as the frame.
    cases hfields.symm.trans hput.decoded
    rw [hwc.1, hwc.2] at hvalid
    obtain ⟨-, -, hlen⟩ := v2PutCompletionIsValid_iff.mp hvalid
    exact absurd (by omega) (hbad hno)

/-- Windows that do not add up to the announced total at the announced count are rejected, and
nothing is stored. -/
theorem feed_rejected (hslot : slot < c.depth) (hidle : (s.multiPut slot).active = false)
    {as : List Arrival} {fields : ReqFields} (hann : Announces c slot s a fields)
    (hbad : ¬(announcedCount fields ≤ (windowSizes a as).length ∧
      ((windowSizes a as).take (announcedCount fields)).sum = fields.payloadLen)) :
    (feed c slot s (a :: as)).1.stored = s.stored ∧
      (announcedCount fields ≤ (windowSizes a as).length ∨
          fields.payloadLen ≤ (windowSizes a as).sum →
        (feed c slot s (a :: as)).2 = none) := by
  by_cases hwr : a.wrId < c.depth
  · have hdecode := decodeRequest_first (s := s.setMem (a.write s.mem)) (a.wc slot) hslot ⟨rfl, rfl⟩
      hwr hidle
    have hwhole : fields.offset ≠ kV2MultiWrPutMagic →
        (a.wc slot).byteLen - kReqPrefix ≠ fields.payloadLen := by
      intro hno heq
      refine hbad ?_
      rw [announcedCount, if_neg hno]
      refine ⟨by simp [windowSizes], ?_⟩
      rw [windowSizes, take_succ_cons, take_zero, sum_singleton]
      exact heq
    rcases announced_cases (s := s.setMem (a.write s.mem)) slot (a.wc slot) ⟨rfl, rfl⟩
      (writeRequest c s (a.wc slot)) (putRegion c s slot).2.1 hann hwhole with heq | ⟨m,
        heq, hm, hop⟩
    · have harrive : arrive c slot s a = (s.setMem (a.write s.mem), none) := by
        rw [arrive, hdecode.trans heq]
      exact feed_of_rejected harrive rfl
    · have harrive := arrive_eq (hdecode.trans heq) (buildReply_window c _ a.outcome hop rfl)
      generalize announcedCount fields = count at hm hbad ⊢
      have hm' : Receiving (Function.update s.multiPut slot m slot) fields.key count
          fields.payloadLen (a.byteLen - kReqPrefix) 1 := by
        rw [Function.update_self]
        exact hm
      have hcount := hm.index_lt
      have htake : ((windowSizes a as).take count).sum = a.byteLen - kReqPrefix +
          ((as.map Arrival.byteLen).take (count - 1)).sum := by
        rw [windowSizes, show count = count - 1 + 1 by omega, take_succ_cons,
          sum_cons, Nat.add_sub_cancel]
      rw [htake] at hbad
      simp only [windowSizes, length_cons, length_map, sum_cons] at hbad ⊢
      simp only [feed, harrive]
      obtain ⟨hstored, hrej⟩ := feed_receiving hslot as
        (s := Slots.beginMultiPut (s.setMem (a.write s.mem)) slot m) hm' (by omega)
      refine ⟨hstored, fun hend => ?_⟩
      rw [hrej (by omega), Option.map_none]
  · exact feed_of_rejected (arrive_unknown hwr) rfl

/-! ## The windows of the client add up -/

/-- The slot has room for the object: the resident slot, or the lease that the object was announced
for. -/
structure PutRoom (c : Conn) (l : LeasePutState) (key : BlockKey) (total : Nat) : Prop where
  inline : l.active = false → total ≤ c.connMax
  leased : l.active = true → l.payloadLen = total ∧ l.key = key ∧ total ≤ c.maxMsg ∧
    ∃ lease, l.lease = some lease ∧ kV2DataOffset + total ≤ lease.size

theorem PutRoom.le_hardCap {l : LeasePutState} (h : PutRoom c l key total) :
    total ≤ kPayloadHardCap := by
  by_cases hl : l.active
  · exact (h.leased hl).2.2.1.trans c.maxMsg_le
  · exact (h.inline (Bool.eq_false_iff.mpr hl)).trans c.connMax_le

theorem PutRoom.region (h : PutRoom c (s.leasePut slot) key total) :
    total ≤ (putRegion c s slot).2.2 ∧ kV2DataOffset + total ≤ (putRegion c s slot).2.1 := by
  unfold putRegion
  dsimp only
  split
  · next hl =>
    obtain ⟨-, -, -, lease, hlease, hsize⟩ := h.leased hl
    simp only [hlease, Option.map_some, Option.getD_some]
    omega
  · next hl =>
    have hle := h.inline (Bool.eq_false_iff.mpr hl)
    exact ⟨hle, (Nat.add_le_add_left hle _).trans (le_v2SlotSize c.connMax_le)⟩

theorem stored_releaseLeasePut (s : Slots) (slot : Nat) :
    (s.releaseLeasePut slot).stored = s.stored := by
  unfold Slots.releaseLeasePut Slots.resetLeasePut
  dsimp only
  split <;> rfl

/-- The request that completes the object hands it to the store. -/
theorem buildReply_final (hroom : PutRoom c (s.leasePut slot) key total)
    (hfields : r.fields.op = cache.code ∧ r.fields.key = key ∧ r.fields.payloadLen = total)
    (hpos : 0 < total) (hfinal : r.final) (hslot : r.dataSlot = slot)
    (hlease : r.fromLeasePut = (s.leasePut slot).active)
    (hpayload : r.contiguousPayload = .shared ((putRegion c s slot).1 + kV2DataOffset))
    (value : List UInt8)
    (hvalue : s.mem.pread ((putRegion c s slot).1 + kV2DataOffset) total = value) {o : Outcome}
    (ho : c.cacheDirectHandler = false → o.handlerData = []) :
    ∃ s' reply, buildReply c s r o = (s', some reply) ∧ s'.stored.Perm ((key, value) :: s.stored) ∧
      reply.status = if c.cacheDirectHandler then o.cacheStatus else o.handlerStatus := by
  obtain ⟨hop, rfl, rfl⟩ := hfields
  obtain rfl := hslot
  have hnot : ¬(r.multiPutWindow ∧ r.multiPutFinal = false) := by
    rintro ⟨h1, h2⟩
    simp [Request.final, h1, h2] at hfinal
  have hne := pos_iff_ne_zero.mp hpos
  by_cases hdirect : c.cacheDirectHandler
  · have hbuild : buildReply c s r o = buildCacheDirect c s r o := by
      simp [buildReply, hop, hdirect, hnot, code]
    rw [hbuild, buildCacheDirect, hlease]
    dsimp only
    split
    · next hl =>
      obtain ⟨hlen, -, -, lease, hsome, hsize⟩ := hroom.leased hl
      have hbase : (putRegion c s r.dataSlot).1 = lease.data := by
        simp [putRegion, hl, hsome]
      rw [hbase] at hpayload hvalue
      rw [hsome]
      dsimp only
      have hok : ¬((!(s.leasePut r.dataSlot).active) ∨ r.fields.payloadLen = 0 ∨
          (s.leasePut r.dataSlot).payloadLen < r.fields.payloadLen ∨
          lease.size - kV2DataOffset < r.fields.payloadLen) := by
        rintro (h | h | h | h)
        · simp [hl] at h
        all_goals omega
      rw [if_neg hok]
      refine ⟨_, _, rfl, ?_, by simp⟩
      rw [stored_releaseLeasePut]
      simp [storeDirect, directCall, directMem, Slots.stored, hpayload, hvalue]
    · next hl =>
      have hle := hroom.inline (Bool.eq_false_iff.mpr hl)
      have hbase : (putRegion c s r.dataSlot).1 + kV2DataOffset = c.directBuffer r.dataSlot := by
        simp [putRegion, hl, Conn.directBuffer]
      rw [hbase] at hpayload hvalue
      rw [if_neg (by omega)]
      refine ⟨_, _, rfl, ?_, by simp⟩
      simp [storeDirect, directCall, directMem, Slots.stored, hpayload, hvalue]
  · have hgen : c.cacheDirectHandler = false := Bool.eq_false_iff.mpr hdirect
    have hbuild : buildReply c s r o = buildGeneric s r o := by
      simp [buildReply, hop, hgen, hnot, code]
    have hgeneric : (genericPayload r).value s.mem r.fields.payloadLen = value := by
      rw [genericPayload, if_pos hne, hpayload]
      exact hvalue
    rw [hbuild, buildGeneric]
    simp only [hne, ne_eq, not_false_eq_true, hpayload, reduceCtorEq, and_false, if_false,
      ho hgen, length_nil, not_lt_zero, or_false, hop, true_and]
    rw [if_neg (by decide)]
    refine ⟨_, _, rfl, ?_, by simp [hgen]⟩
    split
    · rw [stored_releaseLeasePut]
      simp [Slots.stored, genericCall, hgeneric, hop]
    · simp [Slots.stored, genericCall, hgeneric, hop]

/-- A window of the client arrives: the receive it consumes is `r.1`. -/
def Window.arrival (windowBase : Nat) (header : List UInt8) (w : Window) (r : Nat × Outcome) :
    Arrival :=
  { write := fun mem => mem.pwrite (w.remoteAddr windowBase) (w.frame header)
    byteLen := (w.frame header).length, wrId := r.1, outcome := r.2 }

def putArrivals (windowBase : Nat) (header : List UInt8) (ws : List Window)
    (rs : List (Nat × Outcome)) : List Arrival :=
  zipWith (arrival windowBase header) ws rs

/-- What the answers to the windows say: exactly the last one is final, and the others are
acknowledged. -/
structure Answered (n : Nat) (status : Status) (answers : List (Request × Reply)) : Prop where
  length : answers.length = n
  final : ∀ i a, answers[i]? = some a → (a.1.final = true ↔ i + 1 = n)
  status : ∀ i a, answers[i]? = some a → a.2.status = if i + 1 = n then status else .ok

theorem Answered.singleton {status : Status} {a : Request × Reply} (hfinal : a.1.final)
    (hstatus : a.2.status = status) : Answered 1 status [a] := by
  have hget : ∀ (i : Nat) b, [a][i]? = some b → i = 0 ∧ a = b := by
    intro i b hb
    cases i with
    | zero => exact ⟨rfl, Option.some.inj hb⟩
    | succ i => simp at hb
  refine ⟨rfl, fun i b hb => ?_, fun i b hb => ?_⟩
  · obtain ⟨rfl, rfl⟩ := hget i b hb
    simpa using hfinal
  · obtain ⟨rfl, rfl⟩ := hget i b hb
    simpa using hstatus

theorem Answered.cons {n : Nat} {status : Status} {answers : List (Request × Reply)}
    (h : Answered n status answers) (hn : 0 < n) {a : Request × Reply} (hfinal : a.1.final = false)
    (hok : a.2.status = .ok) : Answered (n + 1) status (a :: answers) := by
  refine ⟨by rw [length_cons, h.length], fun i b hb => ?_, fun i b hb => ?_⟩
  · cases i with
    | zero =>
      cases hb
      simp only [hfinal, Bool.false_eq_true, false_iff]
      omega
    | succ i =>
      rw [h.final i b hb]
      omega
  · cases i with
    | zero =>
      cases hb
      rw [hok, if_neg (by omega)]
    | succ i =>
      rw [h.status i b hb]
      exact if_congr (by omega) rfl rfl

def putStatus (c : Conn) (o : Outcome) : Status :=
  if c.cacheDirectHandler then o.cacheStatus else o.handlerStatus

/-- The windows after the first. -/
theorem feed_windows_rest (hslot : slot < c.depth) {base : Nat} {header : List UInt8}
    {rs : List (Nat × Outcome)}
    (hrs : ∀ r ∈ rs, r.1 < c.depth ∧ (c.cacheDirectHandler = false → r.2.handlerData = []))
    (hne : rs ≠ []) {ws : List Window} (hlen : ws.length = rs.length)
    (hws : ∀ w ∈ ws, w.index ≠ 0 ∧ w.bytes ≠ []) (s : Slots) (done : List UInt8) (index : Nat)
    (htiles : Tiles done.length ws) (hindex : index + ws.length = count)
    (htotal : done.length + (ws.flatMap bytes).length = total)
    (h : Receiving (s.multiPut slot) key count total done.length index)
    (hroom : PutRoom c (s.leasePut slot) key total) (hbase : (putRegion c s slot).1 = base)
    (hmem : s.mem.pread (base + kV2DataOffset) done.length = done) :
    ∃ s' answers, feed c slot s (putArrivals (base + kV2PutPrefixOffset) header ws rs) =
        (s', some answers) ∧
      Answered ws.length (putStatus c (rs.getLast hne).2) answers ∧
      s'.stored.Perm ((key, done ++ ws.flatMap bytes) :: s.stored) := by
  induction ws generalizing s done index rs with
  | nil => exact absurd (length_eq_zero_iff.mp hlen.symm) hne
  | cons w ws ih =>
    obtain ⟨r, rs, rfl⟩ := exists_cons_of_ne_nil hne
    obtain ⟨hindex0, hbytes⟩ := hws w mem_cons_self
    obtain ⟨hoffset, htiles⟩ := htiles
    obtain ⟨hwr, ho⟩ := hrs r mem_cons_self
    rw [flatMap_cons, length_append] at htotal
    rw [length_cons] at hindex
    -- The WRITE lands behind what has arrived.
    have hframe : w.frame header = w.bytes := by simp [frame, hindex0]
    have haddr : w.remoteAddr (base + kV2PutPrefixOffset) = base + kV2DataOffset + done.length := by
      rw [remoteAddr, if_neg hindex0, hoffset, ← kV2PutPrefixOffset_add]
      omega
    let a := w.arrival (base + kV2PutPrefixOffset) header r
    let s₁ : Slots := s.setMem (a.write s.mem)
    have hmem₁ : s₁.mem.pread (base + kV2DataOffset) (done ++ w.bytes).length =
      done ++ w.bytes := by
      show (s.mem.pwrite (w.remoteAddr _) (w.frame header)).pread _ _ = _
      rw [haddr, hframe]
      exact FlatFile.pread_pwrite_append hmem
    have hlenb : (a.wc slot).byteLen = w.bytes.length := by
      show (w.frame header).length = _
      rw [hframe]
    have hposb : 0 < w.bytes.length := length_pos_of_ne_nil hbytes
    -- What is still to come is empty exactly if no window is left.
    have hrest : ws = [] ↔ (ws.flatMap bytes).length = 0 := by
      constructor
      · rintro rfl
        rfl
      · intro hzero
        rw [length_eq_zero_iff, flatMap_eq_nil_iff] at hzero
        refine eq_nil_iff_forall_not_mem.mpr fun w' hw' => ?_
        exact (hws w' (mem_cons_of_mem w hw')).2 (hzero w' hw')
    let r₀ := writeRequest c s₁ (a.wc slot)
    have hdecode : decodeRequest c s₁ (a.wc slot) = decodeNextWindow s₁ (a.wc slot) slot r₀ :=
      decodeRequest_next (a.wc slot) hslot ⟨rfl, rfl⟩ hwr h.active
    rcases Receiving.next (s := s₁) h (a.wc slot) r₀ with
      ⟨s', -, -, hbad⟩ | ⟨-, hlt, hsum, m, r', heq, hm, hfinal, hop⟩ |
      ⟨-, hlast, hsum, object, heq⟩
    · -- The length machine agrees with the offsets of the client.
      rw [hlenb] at hbad
      rcases hbad with hbad | hbad | hbad
      · omega
      · omega
      · refine absurd ?_ hbad
        have hiff : ws.length = 0 ↔ (ws.flatMap bytes).length = 0 := by
          rw [← hrest, length_eq_zero_iff]
        omega
    · -- More windows follow.
      have harrive : arrive c slot s a = (s₁.setMultiPut slot m, some (r', { status := .ok })) :=
        arrive_eq (hdecode.trans heq) (buildReply_window c _ a.outcome hop hfinal)
      have hrs' : rs ≠ [] := by
        rintro rfl
        simp only [length_cons, length_nil] at hlen
        omega
      have hm' : Receiving ((s₁.setMultiPut slot m).multiPut slot) key count total
          (done ++ w.bytes).length (index + 1) := by
        rw [length_append, ← hlenb]
        simpa [Slots.setMultiPut] using hm
      obtain ⟨s', answers, hfeed, hans, hstored⟩ := ih
        (fun r hr => hrs r (mem_cons_of_mem _ hr)) hrs' (by simpa using hlen)
        (fun w hw => hws w (mem_cons_of_mem _ hw)) (s₁.setMultiPut slot m)
        (done ++ w.bytes) (index + 1) (by rw [length_append]; exact htiles) (by omega)
        (by rw [length_append]; omega) hm' hroom hbase hmem₁
      refine ⟨s', (r', { status := .ok }) :: answers, ?_, ?_, ?_⟩
      · exact feed_cons harrive hfeed
      · rw [getLast_cons hrs']
        exact hans.cons (by omega) hfinal rfl
      · rw [flatMap_cons, ← append_assoc]
        exact hstored
    · -- The last window completes the object.
      have hnil : ws = [] := hrest.mpr (by rw [hlenb] at hsum; omega)
      subst hnil
      obtain rfl : rs = [] := length_eq_zero_iff.mp (by simpa using hlen.symm)
      let last : Request := { r₀ with
        fields := { op := cache.code, key, offset := kV2MultiWrPutMagic, length := count
                    payloadLen := total }
        multiPutWindow := true, multiPutFinal := true, object := some object }
      have hpayload : last.contiguousPayload =
          .shared ((putRegion c s slot).1 + kV2DataOffset) := by
        show Payload.shared ((putRegion c s slot).1 + kV2PutPrefixOffset + kReqPrefix) = _
        rw [add_assoc, kV2PutPrefixOffset_add]
      have hvalue : s₁.mem.pread ((putRegion c s slot).1 + kV2DataOffset) total =
          done ++ w.bytes := by
        rw [← hsum, hlenb, ← length_append, hbase]
        exact hmem₁
      obtain ⟨s', reply, hbuild, hstored, hstatus⟩ := buildReply_final
        (s := s₁.setMultiPut slot {}) (o := a.outcome) (r := last) hroom ⟨rfl, rfl, rfl⟩ (by omega)
        rfl rfl rfl hpayload (done ++ w.bytes) hvalue ho
      have harrive : arrive c slot s a = (s', some (last, reply)) :=
        arrive_eq (hdecode.trans heq) hbuild
      refine ⟨s', [(last, reply)], ?_, .singleton rfl hstatus, ?_⟩
      · exact feed_cons harrive rfl
      · rw [flatMap_cons, flatMap_nil, append_nil]
        exact hstored

theorem putWindows_spec (hlimit : 1 ≤ limit) (htotal : 0 < totalBytes payloads) :
    (putWindows limit payloads).length = windowCount limit payloads ∧
      Tiles 0 (putWindows limit payloads) ∧
      (putWindows limit payloads).flatMap bytes = payloads.flatten ∧
      (∀ (i : Nat) w, (putWindows limit payloads)[i]? = some w → w.index = i) ∧
      ∀ w ∈ putWindows limit payloads, w.bytes ≠ [] ∧ w.segments.length ≤ limit ∧
        ∀ seg ∈ w.segments, seg ≠ [] := by
  obtain ⟨henough, hneeded⟩ := windowCount_bounds hlimit htotal
  obtain ⟨hlen, hflat, htiles, hindex, hwin⟩ :=
    windowLoop_spec (windowCount limit payloads) 0 payloads 0 henough
  have hne := windowLoop_segments_ne_nil hlimit (windowCount limit payloads) 0 payloads 0 hneeded
  refine ⟨hlen, htiles, ?_, fun i w hw => ?_, fun w hw => ⟨fun hnil => ?_, hwin w hw⟩⟩
  · have hbytes : (putWindows limit payloads).flatMap bytes =
        ((putWindows limit payloads).flatMap segments).flatten := by
      rw [flatMap_def, flatMap_def, flatten_flatten, map_map]
      rfl
    rw [hbytes, putWindows, hflat, flatten_segmentsOf]
  · rw [hindex i w hw, zero_add]
  · -- A window has a segment, and no segment is empty.
    obtain ⟨seg, segs, hsegs⟩ := exists_cons_of_ne_nil (hne w hw)
    refine (hwin w hw).2 seg (hsegs ▸ mem_cons_self) ?_
    exact flatten_eq_nil_iff.mp hnil seg (hsegs ▸ mem_cons_self)

theorem sized_putFields (key : BlockKey) (limit : Nat) (htotal : 0 < totalBytes payloads)
    (hle : totalBytes payloads ≤ kPayloadHardCap) : (putFields key limit payloads).Sized := by
  have hcount := windowCount_le_totalBytes limit htotal
  have hcap : kPayloadHardCap < 2 ^ 32 := by decide
  refine ⟨by show 1 < 2 ^ 8; decide, ?_, ?_, ?_⟩
  · show (if _ then _ else _) < _
    split
    · decide
    · decide
  · show (if _ then _ else _) < _
    split
    · omega
    · decide
  · show totalBytes payloads < _
    omega

theorem pread_frame {header : List UInt8} (hheader : header.length = kReqPrefix)
    (bytes : List UInt8) (mem : FlatFile UInt8) (base : Nat) :
    (mem.pwrite (base + kV2PutPrefixOffset) (header ++ bytes)).pread (base + kV2PutPrefixOffset)
        kReqPrefix = header ∧
      (mem.pwrite (base + kV2PutPrefixOffset) (header ++ bytes)).pread (base + kV2DataOffset)
        bytes.length = bytes := by
  have hmem := FlatFile.pread_pwrite_self mem (base + kV2PutPrefixOffset) (header ++ bytes)
  rw [length_append, FlatFile.pread_add] at hmem
  obtain ⟨hfst, hsnd⟩ := append_inj hmem (FlatFile.length_pread ..)
  rw [hheader] at hfst hsnd
  rw [add_assoc, kV2PutPrefixOffset_add] at hsnd
  exact ⟨hfst, hsnd⟩

/-- The first frame of the item passes the checks of the prefix. -/
theorem decodeFirstWindow_put (htotal : 0 < totalBytes payloads)
    (hroom : PutRoom c (s.leasePut slot) key (totalBytes payloads)) {wc : Wc}
    {fields : ReqFields} (hput : fields = putFields key limit payloads)
    (hwc : wc.opcode = .recvRdmaWithImm ∧ wc.withImm) {n : Nat}
    (hlen : wc.byteLen = kReqPrefix + n) (r : Request)
    (hread : s.mem.pread ((putRegion c s slot).1 + kV2PutPrefixOffset) kReqPrefix =
      encodeReq kNativeProtoRdmaV2 fields)
    (hn : if 1 < windowCount limit payloads then 0 < n ∧ n < totalBytes payloads
      else n = totalBytes payloads) :
    decodeFirstWindow s wc slot r ((putRegion c s slot).1 + kV2PutPrefixOffset)
        (putRegion c s slot).2.1 (putRegion c s slot).2.2 =
      if 1 < windowCount limit payloads then
        (s.beginMultiPut slot (.begin fields n s.log.objects),
          some { r with fields, multiPutWindow := true })
      else (s, some { r with fields }) := by
  have hsized : fields.Sized := hput ▸ sized_putFields key limit htotal hroom.le_hardCap
  obtain ⟨hop, hkey, hoffset, hlength, hpay⟩ : fields.op = cache.code ∧ fields.key = key ∧
      (fields.offset = if 1 < windowCount limit payloads then kV2MultiWrPutMagic else 0) ∧
      (fields.length = if 1 < windowCount limit payloads then windowCount limit payloads else 0) ∧
      fields.payloadLen = totalBytes payloads := by
    subst hput
    exact ⟨rfl, rfl, rfl, rfl, rfl⟩
  have hfields : decodeReq kNativeProtoRdmaV2 (putRegion c s slot).2.2
      (encodeReq kNativeProtoRdmaV2 fields) = some fields := by
    rw [← append_nil (encodeReq _ _), decodeReq_encode hsized (by decide) [], hpay]
    exact if_pos hroom.region.1
  have hlease : ¬((s.leasePut slot).active ∧ (fields.payloadLen ≠ (s.leasePut slot).payloadLen ∨
      fields.key ≠ (s.leasePut slot).key)) := by
    rintro ⟨hl, hno⟩
    obtain ⟨hpl, hk, -⟩ := hroom.leased hl
    rw [hpay, hkey, hpl, hk] at hno
    simp at hno
  unfold decodeFirstWindow
  dsimp only
  rw [if_neg (by omega), hread, hfields]
  dsimp only
  rw [if_neg (not_not.mpr hop), if_neg hlease, hlen, Nat.add_sub_cancel_left]
  by_cases hmany : 1 < windowCount limit payloads
  · -- The first of several windows.
    rw [if_pos hmany] at hn hoffset hlength ⊢
    have hcount := (windowCount_le_totalBytes limit htotal).trans hroom.le_hardCap
    have hcap : kPayloadHardCap ≤ 2 ^ 32 - 1 := by decide
    rw [if_pos hoffset, if_neg (by omega), if_neg (by omega)]
    rfl
  · -- The whole object.
    rw [if_neg hmany] at hn hoffset ⊢
    have hvalid : v2PutCompletionIsValid (wc.opcode == .recvRdmaWithImm) wc.withImm
        (kReqPrefix + n) fields.payloadLen (putRegion c s slot).2.2 (putRegion c s slot).2.1 := by
      rw [hwc.1, hwc.2, hpay]
      exact v2PutCompletionIsValid_iff.mpr ⟨hroom.region.1, hroom.region.2, by rw [hn]⟩
    rw [if_neg (by rw [hoffset]; decide), if_pos hvalid]

/-- The windows of the client are all accepted, and the last one stores the concatenation. -/
theorem feed_windows (hslot : slot < c.depth) (hlimit : 1 ≤ limit)
    (htotal : 0 < totalBytes payloads) (hidle : (s.multiPut slot).active = false)
    (hroom : PutRoom c (s.leasePut slot) key (totalBytes payloads)) {rs : List (Nat × Outcome)}
    (hrs : ∀ r ∈ rs, r.1 < c.depth ∧ (c.cacheDirectHandler = false → r.2.handlerData = []))
    (hlen : rs.length = windowCount limit payloads) (hne : rs ≠ []) :
    ∃ s' answers, feed c slot s (putArrivals ((putRegion c s slot).1 + kV2PutPrefixOffset)
        (encodeReq kNativeProtoRdmaV2 (putFields key limit payloads)) (putWindows limit payloads)
        rs) = (s', some answers) ∧
      Answered (windowCount limit payloads) (putStatus c (rs.getLast hne).2) answers ∧
      s'.stored.Perm ((key, payloads.flatten) :: s.stored) := by
  obtain ⟨hcount, htiles, hflat, hindex, hwin⟩ := putWindows_spec hlimit htotal
  obtain ⟨r, rs, rfl⟩ := exists_cons_of_ne_nil hne
  obtain ⟨hwr, ho⟩ := hrs r mem_cons_self
  obtain ⟨w, ws, hws⟩ : ∃ w ws, putWindows limit payloads = w :: ws := by
    refine exists_cons_of_ne_nil fun hnil => ?_
    rw [hnil] at hcount
    simp only [length_nil, length_cons] at hcount hlen
    omega
  rw [hws] at hcount htiles hflat hindex hwin ⊢
  have hzero : w.index = 0 := hindex 0 w rfl
  have hposb := length_pos_of_ne_nil (hwin w mem_cons_self).1
  obtain ⟨-, htiles⟩ := htiles
  rw [zero_add] at htiles
  rw [flatMap_cons] at hflat
  have hsum : w.bytes.length + (ws.flatMap bytes).length = totalBytes payloads := by
    rw [totalBytes, ← hflat, length_append]
  -- The first frame, as the server finds it.
  let header := encodeReq kNativeProtoRdmaV2 (putFields key limit payloads)
  let base := (putRegion c s slot).1
  let a := w.arrival (base + kV2PutPrefixOffset) header r
  let s₁ : Slots := s.setMem (a.write s.mem)
  let r₀ := writeRequest c s (a.wc slot)
  have hframe : w.frame header = header ++ w.bytes := by simp [frame, hzero]
  have hmem : s₁.mem = s.mem.pwrite (base + kV2PutPrefixOffset) (header ++ w.bytes) := by
    show s.mem.pwrite (w.remoteAddr (base + kV2PutPrefixOffset)) (w.frame header) = _
    rw [hframe, remoteAddr, if_pos hzero, add_zero]
  have hread := pread_frame (show header.length = kReqPrefix from length_encodeReq ..) w.bytes
    s.mem base
  rw [← hmem] at hread
  have hbyteLen : (a.wc slot).byteLen = kReqPrefix + w.bytes.length := by
    show (w.frame header).length = _
    rw [hframe, length_append, length_encodeReq]
  have hn : if 1 < windowCount limit payloads then
      0 < w.bytes.length ∧ w.bytes.length < totalBytes payloads
      else w.bytes.length = totalBytes payloads := by
    cases ws with
    | nil =>
      rw [if_neg (by rw [← hcount]; simp)]
      simpa using hsum
    | cons w' ws' =>
      rw [if_pos (by rw [← hcount]; simp)]
      have hposb' := length_pos_of_ne_nil
        (hwin w' (mem_cons_of_mem _ mem_cons_self)).1
      rw [flatMap_cons, length_append] at hsum
      omega
  have hdecode : decodeRequest c s₁ (a.wc slot) = _ :=
    (decodeRequest_first (s := s₁) (a.wc slot) hslot ⟨rfl, rfl⟩ hwr hidle).trans
      (decodeFirstWindow_put (s := s₁) htotal hroom rfl ⟨rfl, rfl⟩ hbyteLen r₀ hread.1 hn)
  by_cases hmany : 1 < windowCount limit payloads
  · rw [if_pos hmany] at hdecode hn
    have harrive := arrive_eq hdecode (buildReply_window c _ a.outcome rfl rfl)
    have hrs' : rs ≠ [] := by
      rintro rfl
      simp only [length_cons, length_nil] at hlen
      omega
    simp only [length_cons] at hcount hlen
    obtain ⟨s', answers, hfeed, hans, hstored⟩ := feed_windows_rest hslot
      (fun r hr => hrs r (mem_cons_of_mem _ hr)) hrs' (show ws.length = rs.length by omega)
      (fun v hv => by
        obtain ⟨i, hi⟩ := mem_iff_getElem?.mp hv
        refine ⟨?_, (hwin v (mem_cons_of_mem _ hv)).1⟩
        rw [hindex (i + 1) v hi]
        omega)
      (s₁.beginMultiPut slot (.begin (putFields key limit payloads) w.bytes.length s.log.objects))
      w.bytes 1 htiles (show 1 + ws.length = windowCount limit payloads by omega) hsum
      (by
        show Receiving (Function.update s.multiPut slot _ slot) _ _ _ _ _
        rw [Function.update_self]
        exact ⟨rfl, rfl, if_pos hmany, rfl, rfl, rfl, hmany, hn.2⟩)
      hroom rfl hread.2
    refine ⟨s', ({ r₀ with fields := putFields key limit payloads, multiPutWindow := true },
      { status := .ok }) :: answers, ?_, ?_, ?_⟩
    · exact feed_cons harrive hfeed
    · rw [getLast_cons hrs', ← hcount]
      exact hans.cons (by omega) rfl rfl
    · rw [← hflat]
      exact hstored
  · have hone : windowCount limit payloads = 1 :=
      le_antisymm (not_lt.mp hmany) (le_add_right 1 _)
    rw [if_neg hmany] at hdecode hn
    obtain rfl : ws = [] := length_eq_zero_iff.mp (by
      simp only [length_cons] at hcount
      omega)
    obtain rfl : rs = [] := length_eq_zero_iff.mp (by
      simp only [length_cons] at hlen
      omega)
    rw [flatMap_nil, append_nil] at hflat
    have hpayload : (Payload.shared (base + kV2PutPrefixOffset + kReqPrefix)) =
        .shared ((putRegion c s₁ slot).1 + kV2DataOffset) := by
      rw [add_assoc, kV2PutPrefixOffset_add]
      rfl
    obtain ⟨s', reply, hbuild, hstored, hstatus⟩ := buildReply_final
      (s := s₁) (o := a.outcome) (r := { r₀ with fields := putFields key limit payloads }) hroom
      ⟨rfl, rfl, rfl⟩ htotal rfl rfl rfl hpayload w.bytes (by rw [← hn]; exact hread.2) ho
    refine ⟨s', [({ r₀ with fields := putFields key limit payloads }, reply)], ?_, ?_, ?_⟩
    · exact feed_cons (arrive_eq hdecode hbuild) rfl
    · rw [hone]
      exact .singleton rfl hstatus
    · rw [← hflat]
      exact hstored

/-! ## Where the windows go -/

/-- A lease that the server announces is the region of its slot, and has room for the object that it
was asked for. -/
theorem buildLeasePut_room {wc : Wc} {request : Request} {o : Outcome} {reply : Reply}
    {ready : LeasePutReady} (hdecode : decodeControl c s wc = some request)
    (hop : request.fields.op = leasePut.code)
    (hbuild : buildLeasePut s request o = (s', some reply))
    (hready : reply.body = .leasePutReady ready) :
    (s'.multiPut ready.slot).active = false ∧
      PutRoom c (s'.leasePut ready.slot) request.fields.key request.fields.payloadLen ∧
      (putRegion c s' ready.slot).1 = ready.writeBase := by
  -- The request was accepted because the slot was idle and the object is not too long.
  obtain ⟨-, hle, -, hidle⟩ := (decodeControl_spec hdecode).leasePut hop
  have hroom := le_v2SlotSize (hle.trans c.maxMsg_le)
  unfold buildLeasePut at hbuild
  dsimp only at hbuild
  split at hbuild
  · cases congrArg Prod.snd hbuild
  · rcases s.allocate_cases (v2SlotSize request.fields.payloadLen) o.alloc with
      hnone | ⟨d, -, hsome⟩
    · rw [hnone] at hbuild
      obtain ⟨-, hreply⟩ := Prod.mk.inj hbuild
      rw [← Option.some.inj hreply] at hready
      cases hready
    · rw [hsome] at hbuild
      dsimp only at hbuild
      rcases ((s.takeLease.give (leaseResource (s.leasePut request.recvSlot).lease)).countLeasePut
        (v2SlotSize request.fields.payloadLen)).register_cases d
        (v2SlotSize request.fields.payloadLen) o.rkey with hnone | ⟨k, -, hmr⟩
      · rw [hnone] at hbuild
        obtain ⟨-, hreply⟩ := Prod.mk.inj hbuild
        rw [← Option.some.inj hreply] at hready
        cases hready
      · rw [hmr] at hbuild
        obtain ⟨rfl, hreply⟩ := Prod.mk.inj hbuild
        rw [← Option.some.inj hreply] at hready
        obtain rfl := Body.leasePutReady.inj hready
        dsimp only
        refine ⟨hidle, ?_, ?_⟩
        · simp only [Slots.announceLease_leasePut, Slots.setLeasePut_leasePut, Function.update_self]
          exact ⟨fun h => absurd h (by simp), fun _ => ⟨rfl, rfl, hle, _, rfl, hroom⟩⟩
        · simp [putRegion]

/-! ## A segmented PUT -/

theorem announcedCount_putFields (key : BlockKey) (hlimit : 1 ≤ limit)
    (htotal : 0 < totalBytes payloads) :
    announcedCount (putFields key limit payloads) = (putWindows limit payloads).length := by
  rw [(putWindows_spec hlimit htotal).1]
  unfold announcedCount putFields
  dsimp only
  split
  · exact if_pos rfl
  · next hone =>
    rw [if_neg (by decide)]
    exact le_antisymm (le_add_right 1 _) (not_lt.mp hone)

/-- A segmented PUT stores the concatenation of its segments: the windows of the client tile the
payload and are as many as the first one announces; the server takes them all, only the last one is
final, and the store gets the concatenation once. `PutRoom` is what the client has checked before it
sends a window: the object fits the resident slot, or the server has announced a lease for it.
Windows that do not add up are rejected. -/
theorem segmented_put_stores_concatenation (c : Conn) {slot limit : Nat} (hslot : slot < c.depth)
    (hlimit : 1 ≤ limit) (key : BlockKey) (payloads : List (List UInt8))
    (htotal : 0 < totalBytes payloads) :
    ((putWindows limit payloads).length = 1 + (nonempty payloads - 1) / limit ∧
      announcedCount (putFields key limit payloads) = (putWindows limit payloads).length ∧
      (putFields key limit payloads).payloadLen = totalBytes payloads ∧
      Tiles 0 (putWindows limit payloads) ∧
      (putWindows limit payloads).flatMap Window.bytes = payloads.flatten ∧
      ∀ w ∈ putWindows limit payloads, w.bytes ≠ [] ∧ w.segments.length ≤ limit ∧
        ∀ seg ∈ w.segments, seg ≠ []) ∧
    (∀ s : Slots, (s.multiPut slot).active = false →
      PutRoom c (s.leasePut slot) key (totalBytes payloads) → ∀ rs : List (Nat × Outcome),
      (∀ r ∈ rs, r.1 < c.depth ∧ (c.cacheDirectHandler = false → r.2.handlerData = [])) →
      rs.length = (putWindows limit payloads).length →
      ∃ s' answers status, feed c slot s (putArrivals ((putRegion c s slot).1 + kV2PutPrefixOffset)
          (encodeReq kNativeProtoRdmaV2 (putFields key limit payloads)) (putWindows limit payloads)
          rs) = (s', some answers) ∧
        Answered (putWindows limit payloads).length status answers ∧
        s'.stored.Perm ((key, payloads.flatten) :: s.stored)) ∧
    (∀ (s s' : Slots) (wc : Wc) (request : Request) (o : Outcome) (reply : Reply)
      (ready : LeasePutReady), decodeControl c s wc = some request →
      request.fields.op = WireOp.leasePut.code → buildLeasePut s request o = (s', some reply) →
      reply.body = .leasePutReady ready →
      (s'.multiPut ready.slot).active = false ∧
        PutRoom c (s'.leasePut ready.slot) request.fields.key request.fields.payloadLen ∧
        (putRegion c s' ready.slot).1 = ready.writeBase) ∧
    ∀ s : Slots, (s.multiPut slot).active = false → ∀ (a : Arrival) (as : List Arrival)
      (fields : ReqFields), Announces c slot s a fields →
      ¬(announcedCount fields ≤ (windowSizes a as).length ∧
        ((windowSizes a as).take (announcedCount fields)).sum = fields.payloadLen) →
      (feed c slot s (a :: as)).1.stored = s.stored ∧
        (announcedCount fields ≤ (windowSizes a as).length ∨
            fields.payloadLen ≤ (windowSizes a as).sum →
          (feed c slot s (a :: as)).2 = none) := by
  obtain ⟨hcount, htiles, hflat, -, hwin⟩ := putWindows_spec hlimit htotal
  refine ⟨⟨hcount, announcedCount_putFields key hlimit htotal, rfl, htiles, hflat,
    hwin⟩, ?_, ?_, ?_⟩
  · intro s hidle hroom rs hrs hlen
    rw [hcount] at hlen ⊢
    have hne : rs ≠ [] := List.ne_nil_of_length_pos (hlen ▸ Nat.lt_of_lt_of_le Nat.one_pos
      (Nat.le_add_right 1 _))
    obtain ⟨s', answers, hfeed, hans, hstored⟩ :=
      feed_windows hslot hlimit htotal hidle hroom hrs hlen hne
    exact ⟨s', answers, _, hfeed, hans, hstored⟩
  · intro s s' wc request o reply ready hdecode hop hbuild hready
    exact buildLeasePut_room hdecode hop hbuild hready
  · intro s hidle a as fields hann hbad
    exact feed_rejected hslot hidle hann hbad

/-- Three segments, one of them empty, in windows of one segment. -/
theorem segmented_put_of_three :
    let c : Conn :=
      { depth := 1, declared := 4096, maxMsg := 4096, recvBase := 0
        depth_pos := by decide, declared_le := by decide, maxMsg_le := by decide }
    let s : Slots := { mem := fun _ => 0 }
    ∃ s' answers status,
      feed c 0 s (putArrivals ((putRegion c s 0).1 + kV2PutPrefixOffset)
          (encodeReq kNativeProtoRdmaV2 (putFields {} 1 [[1], [], [2, 3]]))
          (putWindows 1 [[1], [], [2, 3]]) [(0, {}), (0, {})]) = (s', some answers) ∧
        Answered 2 status answers ∧ s'.stored.Perm [({}, [1, 2, 3])] := by
  intro c s
  have h := (@segmented_put_stores_concatenation c 0 1 (by decide) (by decide) {} [[1], [], [2, 3]]
    (by decide)).2.1
  exact h s rfl ⟨fun _ => by decide, fun h => absurd h (by simp [s])⟩ [(0, {}), (0, {})] (by
    simp [c]) (by decide)

end DingoCache.Rdma
