import DingoCache.Library.Ledger
import DingoCache.Rdma.Server

/-!
# What `decode_request` Accepts

Inversion lemmas for the halves of `decode_request`, and what holds of every request that
it accepts, whatever the peer sent.

- `decodeNextWindow_cases`, `decodeFirstWindow_cases`, `decodeControl_spec`: the branches.
-/

namespace DingoCache.Rdma

open Library Slab Store Nat Multiset
open Function (update update_of_ne update_self)

variable {c : Conn} {s : Slots} {slot : Nat}

/-! ## The branches of `decode_request` -/

theorem Conn.connMax_le (c : Conn) : c.connMax ≤ kPayloadHardCap := by
  have := c.maxMsg_le
  have : kIoAlign ≤ kPayloadHardCap := by decide
  unfold Conn.connMax
  omega

/-- The request of a WRITE, before its window is counted. -/
def writeRequest (c : Conn) (s : Slots) (wc : Wc) : Request :=
  { recvSlot := wc.wrId, dataSlot := wc.immData, fromLeasePut := (s.leasePut wc.immData).active
    contiguousPayload :=
      .shared ((putRegion c s wc.immData).1 + kV2PutPrefixOffset + kReqPrefix) }

theorem decodeRequest_next (wc : Wc) (hslot : wc.immData < c.depth)
    (hwc : wc.opcode = .recvRdmaWithImm ∧ wc.withImm) (hwr : wc.wrId < c.depth)
    (hactive : (s.multiPut wc.immData).active) :
    decodeRequest c s wc = decodeNextWindow s wc wc.immData (writeRequest c s wc) := by
  simp [decodeRequest, decodeWrite, writeRequest, hwc, hactive, not_le.mpr hwr, not_le.mpr hslot]

theorem decodeRequest_first (wc : Wc) (hslot : wc.immData < c.depth)
    (hwc : wc.opcode = .recvRdmaWithImm ∧ wc.withImm) (hwr : wc.wrId < c.depth)
    (hactive : (s.multiPut wc.immData).active = false) :
    decodeRequest c s wc = decodeFirstWindow s wc wc.immData (writeRequest c s wc)
      ((putRegion c s wc.immData).1 + kV2PutPrefixOffset) (putRegion c s wc.immData).2.1
      (putRegion c s wc.immData).2.2 := by
  simp [decodeRequest, decodeWrite, writeRequest, hwc, hactive, not_le.mpr hwr, not_le.mpr hslot]

theorem decodeNextWindow_cases (wc : Wc) (r : Request) {m : MultiPutState}
    (hm : s.multiPut slot = m) :
    (∃ s', decodeNextWindow s wc slot r = (s', none) ∧
      (s' = s ∨ s' = s.setMultiPut slot (m.advance wc.byteLen)) ∧
      (wc.byteLen = 0 ∨ m.windowCount ≤ m.nextWindow ∨ m.totalLen - m.received < wc.byteLen ∨
        ¬(m.nextWindow + 1 = m.windowCount ↔ m.received + wc.byteLen = m.totalLen))) ∨
    (0 < wc.byteLen ∧ m.nextWindow + 1 < m.windowCount ∧ wc.byteLen ≤ m.totalLen - m.received ∧
      m.received + wc.byteLen ≠ m.totalLen ∧
      decodeNextWindow s wc slot r = (s.setMultiPut slot (m.advance wc.byteLen), some { r with
        fields := m.fields, multiPutWindow := true, multiPutFinal := false, object := none })) ∨
    (0 < wc.byteLen ∧ m.nextWindow + 1 = m.windowCount ∧ m.received + wc.byteLen = m.totalLen ∧
      decodeNextWindow s wc slot r = (s.setMultiPut slot {}, some { r with
        fields := m.fields, multiPutWindow := true, multiPutFinal := true
        object := some (m.advance wc.byteLen).arrived })) := by
  subst hm
  unfold decodeNextWindow
  dsimp only
  generalize s.multiPut slot = m
  split
  · next hbad => exact .inl ⟨_, rfl, .inl rfl, by omega⟩
  · next hok =>
    simp only [not_or, not_le, not_lt] at hok
    obtain ⟨hpos, hcount, hroom⟩ := hok
    split
    · next hbad =>
      refine .inl ⟨_, rfl, .inr rfl, .inr (.inr (.inr fun hiff => hbad ?_))⟩
      rw [Bool.eq_iff_iff, beq_iff_eq, beq_iff_eq]
      exact hiff
    · next hok =>
      have hiff := Bool.eq_iff_iff.mp (not_not.mp hok)
      rw [beq_iff_eq, beq_iff_eq] at hiff
      by_cases hlast : m.nextWindow + 1 = m.windowCount
      · have hfinal : ((m.advance wc.byteLen).nextWindow ==
            (m.advance wc.byteLen).windowCount) := beq_iff_eq.mpr hlast
        refine .inr (.inr ⟨by omega, hlast, hiff.mp hlast, ?_⟩)
        rw [hfinal]
        rfl
      · have hfinal : ((m.advance wc.byteLen).nextWindow ==
            (m.advance wc.byteLen).windowCount) = false :=
          Bool.eq_false_iff.mpr fun h => hlast (beq_iff_eq.mp h)
        have hmore : m.received + wc.byteLen ≠ m.totalLen := fun heq => hlast (hiff.mpr heq)
        refine .inr (.inl ⟨by omega, by omega, hroom, hmore, ?_⟩)
        rw [hfinal]
        rfl

def MultiPutState.begin (fields : ReqFields) (bytes object : Nat) : MultiPutState :=
  { active := true, key := fields.key, totalLen := fields.payloadLen, received := bytes
    nextWindow := 1, windowCount := fields.length, object, windows := [bytes] }

/-- What a prefix has to say to be accepted. -/
structure PutPrefix (s : Slots) (slot frame cap : Nat) (fields : ReqFields) : Prop where
  decoded : decodeReq kNativeProtoRdmaV2 cap (s.mem.pread frame kReqPrefix) = some fields
  op : fields.op = WireOp.cache.code
  lease : (s.leasePut slot).active = true →
    fields.payloadLen = (s.leasePut slot).payloadLen ∧ fields.key = (s.leasePut slot).key

theorem decodeFirstWindow_cases (s : Slots) (wc : Wc) (slot : Nat) (r : Request)
    (frame regionSize cap : Nat) :
    decodeFirstWindow s wc slot r frame regionSize cap = (s, none) ∨
    (∃ fields, PutPrefix s slot frame cap fields ∧ fields.offset = kV2MultiWrPutMagic ∧
      1 < fields.length ∧ 0 < wc.byteLen - kReqPrefix ∧
      wc.byteLen - kReqPrefix < fields.payloadLen ∧
      decodeFirstWindow s wc slot r frame regionSize cap =
        (s.beginMultiPut slot (.begin fields (wc.byteLen - kReqPrefix) s.log.objects),
          some { r with fields, multiPutWindow := true })) ∨
    ∃ fields, PutPrefix s slot frame cap fields ∧ fields.offset ≠ kV2MultiWrPutMagic ∧
      v2PutCompletionIsValid (wc.opcode == .recvRdmaWithImm) wc.withImm wc.byteLen fields.payloadLen
        cap regionSize ∧
      decodeFirstWindow s wc slot r frame regionSize cap = (s, some { r with fields }) := by
  unfold decodeFirstWindow
  dsimp only
  split
  · exact .inl rfl
  · cases hdecode : decodeReq kNativeProtoRdmaV2 cap (s.mem.pread frame kReqPrefix) with
    | none => exact .inl rfl
    | some fields =>
      dsimp only
      split
      · exact .inl rfl
      · next hop =>
        split
        · exact .inl rfl
        · next hlease =>
          have hput : PutPrefix s slot frame cap fields := by
            refine ⟨hdecode, not_not.mp hop, fun hactive => ?_⟩
            simp only [not_and, not_or, not_not] at hlease
            exact hlease hactive
          split
          · next hmagic =>
            split
            · exact .inl rfl
            · split
              · exact .inl rfl
              · exact .inr (.inl ⟨fields, hput, hmagic, by omega, by omega, by omega, rfl⟩)
          · next hmagic =>
            split
            · next hvalid => exact .inr (.inr ⟨fields, hput, hmagic, hvalid, rfl⟩)
            · exact .inl rfl

/-- What an accepted control request says. -/
structure ControlRequest (c : Conn) (s : Slots) (wc : Wc) (r : Request) : Prop where
  recvSlot : r.recvSlot = wc.wrId
  dataSlot : r.dataSlot = wc.wrId
  fromLeasePut : r.fromLeasePut = false
  multiPutWindow : r.multiPutWindow = false
  object : r.object = none
  payload : ∀ addr, r.contiguousPayload ≠ .shared addr
  leasePut : r.fields.op = WireOp.leasePut.code → 0 < r.fields.payloadLen ∧
    r.fields.payloadLen ≤ c.maxMsg ∧ (s.leasePut r.recvSlot).active = false ∧
    (s.multiPut r.recvSlot).active = false

theorem decodeControl_spec {wc : Wc} {r : Request}
    (h : decodeControl c s wc = some r) : ControlRequest c s wc r := by
  simp only [decodeControl, Option.bind_eq_bind, Option.ite_none_left_eq_some,
    Option.bind_eq_some_iff] at h
  obtain ⟨-, fields, -, -, h⟩ := h
  split at h
  · next hop =>
    obtain ⟨-, h⟩ := Option.ite_none_left_eq_some.mp h
    cases h
    refine ⟨rfl, rfl, rfl, rfl, rfl, by simp, fun hlease => ?_⟩
    exact absurd (hop.symm.trans hlease) (by decide)
  · split at h
    · obtain ⟨hok, h⟩ := Option.ite_none_left_eq_some.mp h
      cases h
      refine ⟨rfl, rfl, rfl, rfl, rfl, by simp, fun _ => ?_⟩
      simp only [not_or, not_lt, Bool.not_eq_true] at hok
      exact ⟨pos_of_ne_zero hok.2.1, hok.2.2.1, hok.2.2.2⟩
    · next hlease =>
      split at h
      · obtain ⟨-, h⟩ := Option.ite_none_right_eq_some.mp h
        cases h
        exact ⟨rfl, rfl, rfl, rfl, rfl, by simp, fun hop => absurd hop hlease⟩
      · obtain ⟨-, h⟩ := Option.ite_none_left_eq_some.mp h
        obtain ⟨-, h⟩ := Option.ite_none_left_eq_some.mp h
        cases h
        refine ⟨rfl, rfl, rfl, rfl, rfl, fun addr => ?_, fun hop => absurd hop hlease⟩
        dsimp only
        split
        · simp
        · simp

/-! ## Objects in progress -/

theorem cache_ne_leasePut : WireOp.cache.code ≠ WireOp.leasePut.code := by decide

/-- An object in progress: its windows are those that were counted, and it is not complete. -/
structure Receives (m : MultiPutState) (cap : Nat) : Prop where
  sum : m.windows.sum = m.received
  length : m.windows.length = m.nextWindow
  next_lt : m.nextWindow < m.windowCount
  received_lt : m.received < m.totalLen
  total_le : m.totalLen ≤ cap

def InProgress (c : Conn) (s : Slots) : Prop :=
  ∀ slot, (s.multiPut slot).active = true → Receives (s.multiPut slot) (putRegion c s slot).2.2

/-- What `decode_request` can change. -/
def Slots.withMulti (s : Slots) (multiPut : Nat → MultiPutState) (objects : Nat) : Slots :=
  { s with multiPut, log := { s.log with objects } }

theorem InProgress.update (h : InProgress c s) {m : MultiPutState} {objects : Nat}
    (hm : m.active → Receives m (putRegion c s slot).2.2) :
    InProgress c (s.withMulti (Function.update s.multiPut slot m) objects) := by
  intro i hactive
  rcases eq_or_ne i slot with rfl | hself
  · simp only [Slots.withMulti, update_self] at hactive ⊢
    exact hm hactive
  · simp only [Slots.withMulti, update_of_ne hself] at hactive ⊢
    exact h i hactive

/-- The object of a slot, if one is in progress. -/
def MultiPutState.openObject (m : MultiPutState) : Multiset Nat :=
  if m.active then {m.object} else 0

def Slots.openObjects (c : Conn) (s : Slots) : Multiset Nat :=
  ∑ i ∈ Finset.range c.depth, (s.multiPut i).openObject

def objectNumber (object : Option MultiPutObject) : List Nat :=
  (object.map MultiPutObject.number).toList

def Slots.handed (s : Slots) : List Nat :=
  s.log.calls.flatMap (objectNumber ·.object) ++ s.log.handled.flatMap (objectNumber ·.object)

/-- The objects in progress, those handed over and those about to be are all different. -/
def Objects (c : Conn) (s : Slots) (pending : List Nat) : Prop :=
  s.openObjects c + s.handed + pending ≤ range s.log.objects

theorem Objects.congr {s s' : Slots} {pending : List Nat} (h : Objects c s pending)
    (hmulti : s'.multiPut = s.multiPut) (hobjects : s'.log.objects = s.log.objects)
    (hcalls : s'.log.calls = s.log.calls) (hhandled : s'.log.handled = s.log.handled) :
    Objects c s' pending := by
  unfold Objects Slots.openObjects Slots.handed
  rw [hmulti, hobjects, hcalls, hhandled]
  exact h

def Request.pending (r : Request) : List Nat := objectNumber r.object

theorem openObjects_setMultiPut (hslot : slot < c.depth) (s : Slots) (m : MultiPutState) :
    (s.setMultiPut slot m).openObjects c + (s.multiPut slot).openObject =
      s.openObjects c + m.openObject :=
  sum_update hslot MultiPutState.openObject s.multiPut m

theorem Objects.weaken {pending : List Nat} (h : Objects c s pending) : Objects c s [] := by
  refine le_trans ?_ h
  rw [coe_nil, add_zero]
  exact le_add_right _ _

theorem Objects.advance {pending : List Nat} (h : Objects c s pending)
    (hslot : slot < c.depth) (bytes : Nat) :
    Objects c (s.setMultiPut slot ((s.multiPut slot).advance bytes)) pending := by
  have hsum := openObjects_setMultiPut hslot s ((s.multiPut slot).advance bytes)
  have heq : (s.setMultiPut slot ((s.multiPut slot).advance bytes)).openObjects c =
    s.openObjects c :=
    add_right_cancel (b := (s.multiPut slot).openObject) hsum
  unfold Objects
  rw [heq]
  exact h

theorem Objects.complete (h : Objects c s []) (hslot : slot < c.depth)
    (hactive : (s.multiPut slot).active) :
    Objects c (s.setMultiPut slot {}) [(s.multiPut slot).object] := by
  have hsum := openObjects_setMultiPut hslot s {}
  have hopen : (s.multiPut slot).openObject = {(s.multiPut slot).object} := if_pos hactive
  have hempty : ({} : MultiPutState).openObject = 0 := rfl
  rw [hopen, hempty, add_zero] at hsum
  refine le_trans (le_of_eq ?_) h
  show (s.setMultiPut slot {}).openObjects c + s.handed + {(s.multiPut slot).object} = _
  rw [coe_nil, add_zero, ← hsum]
  exact add_right_comm _ _ _

theorem Objects.begin (h : Objects c s []) (hslot : slot < c.depth)
    (hidle : (s.multiPut slot).active = false) {m : MultiPutState}
    (hobject : m.object = s.log.objects) : Objects c (s.beginMultiPut slot m) [] := by
  have hsum := openObjects_setMultiPut hslot s m
  have hclosed : (s.multiPut slot).openObject = 0 := if_neg (by rw [hidle]; simp)
  have hopen : m.openObject ≤ {s.log.objects} := by
    unfold MultiPutState.openObject
    split
    · rw [hobject]
    · exact zero_le _
  rw [hclosed, add_zero] at hsum
  show (s.setMultiPut slot m).openObjects c + s.handed + _ ≤ range (s.log.objects + 1)
  rw [hsum, range_succ, ← singleton_add]
  refine le_trans (le_of_eq ?_) (add_le_add hopen h)
  abel

/-! ## Accepted requests -/

def Request.final (r : Request) : Bool := !r.multiPutWindow || r.multiPutFinal

/-- What holds of every accepted request, whatever the peer sent. -/
structure Accepted (c : Conn) (s : Slots) (r : Request) : Prop where
  recvSlot : r.recvSlot < c.depth
  dataSlot : r.dataSlot < c.depth
  lease : r.fromLeasePut = true → (s.leasePut r.dataSlot).active = true
  final : r.fromLeasePut = true → r.final = true → (s.multiPut r.dataSlot).active = false
  object : ∀ ob, r.object = some ob → r.final = true ∧ r.fields.op = WireOp.cache.code ∧
    ob.windows.sum = r.fields.payloadLen ∧ ob.windows.length = ob.windowCount
  whole : r.multiPutWindow = true →
    r.fields.op = WireOp.cache.code ∧ (r.final = true → r.object ≠ none)
  payload : ∀ addr, r.contiguousPayload = .shared addr → r.fields.op = WireOp.cache.code ∧
    r.fromLeasePut = (s.leasePut r.dataSlot).active ∧
    addr = (putRegion c s r.dataSlot).1 + kV2DataOffset ∧
    r.fields.payloadLen ≤ (putRegion c s r.dataSlot).2.2
  leasePut : r.fields.op = WireOp.leasePut.code → 0 < r.fields.payloadLen ∧
    r.fields.payloadLen ≤ c.maxMsg ∧ (s.leasePut r.recvSlot).active = false ∧
    (s.multiPut r.recvSlot).active = false

/-- What a completion does to the objects, and what the request says if it is accepted. -/
structure Decodes (c : Conn) (s s' : Slots) (result : Option Request) : Prop where
  frame : s' = s.withMulti s'.multiPut s'.log.objects
  objects : Objects c s' (result.elim [] Request.pending)
  inProgress : ∀ r, result = some r → InProgress c s'
  accepted : ∀ r, result = some r → Accepted c s' r

theorem Decodes.rejected {s s' : Slots} (hframe : s' = s.withMulti s'.multiPut s'.log.objects)
    (hobjects : Objects c s' []) : Decodes c s s' none :=
  ⟨hframe, hobjects, fun _ hr => absurd hr (by simp), fun _ hr => absurd hr (by simp)⟩

section Writes

variable {wc : Wc} (hwr : wc.wrId < c.depth) (hslot : wc.immData < c.depth)
  (hprogress : InProgress c s) (hobjects : Objects c s [])

include hwr hslot hprogress hobjects

omit hprogress hobjects in
/-- A request with the payload of a WRITE, in a state that decoding has changed. -/
theorem accepted_write {multiPut : Nat → MultiPutState} {objects : Nat} {fields : ReqFields}
    {window final : Bool} {object : Option MultiPutObject} (hop : fields.op = WireOp.cache.code)
    (hle : fields.payloadLen ≤ (putRegion c s wc.immData).2.2)
    (hfinal : (!window || final) → (multiPut wc.immData).active = false)
    (hobject : ∀ ob, object = some ob → (!window || final) ∧
      ob.windows.sum = fields.payloadLen ∧ ob.windows.length = ob.windowCount)
    (hwhole : window → final → object ≠ none) :
    Accepted c (s.withMulti multiPut objects)
      { writeRequest c s wc with
        fields, multiPutWindow := window, multiPutFinal := final, object } where
  recvSlot := hwr
  dataSlot := hslot
  lease h := h
  final _ := hfinal
  object ob hob := ⟨(hobject ob hob).1, hop, (hobject ob hob).2⟩
  whole hw := ⟨hop, fun hf => hwhole hw
    (by simpa [Request.final, show window = true from hw] using hf)⟩
  payload addr haddr := by
    obtain rfl := Payload.shared.inj haddr
    refine ⟨hop, rfl, ?_, hle⟩
    rw [add_assoc, kV2PutPrefixOffset_add]
    rfl
  leasePut hlease := absurd (hop.symm.trans hlease) cache_ne_leasePut

theorem decodeNextWindow_decodes (hactive : (s.multiPut wc.immData).active) :
    Decodes c s (decodeNextWindow s wc wc.immData (writeRequest c s wc)).1
      (decodeNextWindow s wc wc.immData (writeRequest c s wc)).2 := by
  have hrec := hprogress wc.immData hactive
  have hwindows : ((s.multiPut wc.immData).windows ++ [wc.byteLen]).sum =
        (s.multiPut wc.immData).received + wc.byteLen ∧
      ((s.multiPut wc.immData).windows ++ [wc.byteLen]).length =
        (s.multiPut wc.immData).nextWindow + 1 := by
    rw [List.sum_append, List.sum_singleton, hrec.sum, List.length_append, List.length_singleton,
      hrec.length]
    exact ⟨rfl, rfl⟩
  rcases decodeNextWindow_cases wc (writeRequest c s wc) rfl with
    ⟨s', heq, hs', -⟩ | ⟨hpos, hlt, hroom, hmore, heq⟩ | ⟨hpos, hlast, hsum, heq⟩
  · rw [heq]
    rcases hs' with rfl | rfl
    · exact .rejected rfl hobjects
    · exact .rejected rfl (hobjects.advance hslot _)
  · rw [heq]
    refine ⟨rfl, hobjects.advance hslot _, fun r hr => hprogress.update fun _ => ?_, fun r hr => ?_⟩
    · have hlt' := hrec.received_lt
      have hnext : (s.multiPut wc.immData).received + wc.byteLen <
          (s.multiPut wc.immData).totalLen := by omega
      exact ⟨hwindows.1, hwindows.2, hlt, hnext, hrec.total_le⟩
    · cases hr
      exact accepted_write hwr hslot rfl hrec.total_le (by simp) (by simp) (by simp)
  · rw [heq]
    refine ⟨rfl, hobjects.complete hslot hactive, fun r hr => hprogress.update (by simp),
      fun r hr => ?_⟩
    cases hr
    refine accepted_write hwr hslot rfl hrec.total_le (fun _ => ?_) (fun ob hob => ?_) (by simp)
    · rw [update_self]
    · cases hob
      exact ⟨rfl, hwindows.1.trans hsum, hwindows.2.trans hlast⟩

theorem decodeFirstWindow_decodes (hidle : (s.multiPut wc.immData).active = false) :
    Decodes c s (decodeFirstWindow s wc wc.immData (writeRequest c s wc)
        ((putRegion c s wc.immData).1 + kV2PutPrefixOffset) (putRegion c s wc.immData).2.1
        (putRegion c s wc.immData).2.2).1
      (decodeFirstWindow s wc wc.immData (writeRequest c s wc)
        ((putRegion c s wc.immData).1 + kV2PutPrefixOffset) (putRegion c s wc.immData).2.1
        (putRegion c s wc.immData).2.2).2 := by
  rcases decodeFirstWindow_cases s wc wc.immData (writeRequest c s wc)
    ((putRegion c s wc.immData).1 + kV2PutPrefixOffset) (putRegion c s wc.immData).2.1
    (putRegion c s wc.immData).2.2 with
    heq | ⟨fields, hput, hmagic, hcount, hpos, hlt, heq⟩ | ⟨fields, hput, hmagic, hvalid, heq⟩
  · rw [heq]
    exact .rejected rfl hobjects
  · rw [heq]
    have hle := payloadLen_le_of_decodeReq hput.decoded
    refine ⟨rfl, hobjects.begin hslot hidle rfl, fun r hr => hprogress.update fun _ => ?_,
      fun r hr => ?_⟩
    · exact ⟨List.sum_singleton, rfl, hcount, hlt, hle⟩
    · cases hr
      exact accepted_write hwr hslot hput.op hle (by simp [writeRequest]) (by simp [writeRequest])
        (by simp [writeRequest])
  · rw [heq]
    have hle := payloadLen_le_of_decodeReq hput.decoded
    refine ⟨rfl, hobjects, fun r hr => hprogress, fun r hr => ?_⟩
    cases hr
    show Accepted c (s.withMulti s.multiPut s.log.objects) _
    exact accepted_write hwr hslot hput.op hle (fun _ => hidle) (by simp [writeRequest])
      (by simp [writeRequest])

end Writes

/-- Whatever completes, the objects stay in order and an accepted request is well formed. -/
theorem decodeRequest_spec (hprogress : InProgress c s) (hobjects : Objects c s []) (wc : Wc) :
    Decodes c s (decodeRequest c s wc).1 (decodeRequest c s wc).2 := by
  unfold decodeRequest
  dsimp only
  split
  · exact .rejected rfl hobjects
  · next hok =>
    have hwr : wc.wrId < c.depth := by
      simp only [not_or, not_le] at hok
      exact hok.1
    split
    · unfold decodeWrite
      dsimp only
      split
      · exact .rejected rfl hobjects
      · next hslot =>
        split
        · next hactive =>
          exact decodeNextWindow_decodes hwr (not_le.mp hslot) hprogress hobjects hactive
        · next hidle =>
          exact decodeFirstWindow_decodes hwr (not_le.mp hslot) hprogress hobjects
            (Bool.eq_false_iff.mpr hidle)
    · cases hcontrol : decodeControl c s wc with
      | none => exact .rejected rfl hobjects
      | some r =>
        have hr := decodeControl_spec hcontrol
        refine ⟨rfl, ?_, fun r' _ => hprogress, fun r' hr' => ?_⟩
        · show Objects c s r.pending
          rw [Request.pending, hr.object]
          exact hobjects
        · cases hr'
          refine ⟨by rw [hr.recvSlot]; exact hwr, by rw [hr.dataSlot]; exact hwr,
            fun h => absurd h (by rw [hr.fromLeasePut]; simp),
            fun h => absurd h (by rw [hr.fromLeasePut]; simp),
            fun ob hob => absurd hob (by rw [hr.object]; simp),
            fun hw => absurd hw (by rw [hr.multiPutWindow]; simp),
            fun addr haddr => absurd haddr (hr.payload addr), hr.leasePut⟩

end DingoCache.Rdma
