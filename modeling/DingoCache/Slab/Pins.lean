import DingoCache.Slab.Run

/-!
# Pins

A ledger counts, for each key, the successful pins not yet given back.
-/

namespace DingoCache.Slab

open Library SlabAllocator

variable {a b : SlabAllocator} {o : Options} {k : BlockKey} {m m' : SlotMeta} {op : Op}
  {ok removed : Bool} {ev : List BlockKey} {outcomes : List Bool} {i : Nat} {y : Option SlotMeta}

/-! ## Ledgers -/

abbrev Ledger : Type := BlockKey → Nat

/-- A successful pin adds one, a successful unpin takes one. -/
def Ledger.after (L : Ledger) (op : Op) (ok : Bool) : Ledger :=
  fun k => L k + (op.pins k && ok).toNat - (op.unpins k && ok).toNat

/-- A run of public calls with the ledger of its pins. -/
inductive LedgerRun (o : Options) : SlabAllocator → Ledger → Prop
  | new : LedgerRun o (new o) fun _ => 0
  | step {a : SlabAllocator} {L : Ledger} (outcomes : List Bool) (op : Op) :
      LedgerRun o a L → LedgerRun o (a.step outcomes op).1 (L.after op (a.step outcomes op).2.ok)

variable {L M : Ledger}

/-- The record of `k` carries `n` pins, as far as 32 bits tell; a removed record is pinned. -/
def Agrees (n : Nat) : Option SlotMeta → Prop
  | none => n % 2 ^ 32 = 0
  | some m => m.refs = n % 2 ^ 32 ∧ (m.removePending = true → m.refs ≠ 0)

theorem Op.not_pins_of_unpins (h : op.unpins k) : op.pins k = false := by
  cases op <;> simp_all [Op.unpins, Op.pins]

theorem Op.not_pins_of_removes (h : op.removes k) : op.pins k = false := by
  cases op <;> simp_all [Op.removes, Op.pins]

theorem Op.not_unpins_of_removes (h : op.removes k) : op.unpins k = false := by
  cases op <;> simp_all [Op.removes, Op.unpins]

theorem RecordStep.agrees {x : Option SlotMeta} (h : RecordStep op ok ev k x y)
    (hx : Agrees (L k) x) : Agrees (L.after op ok k) y := by
  unfold Ledger.after
  cases h with
  | absent hpin =>
    rw [hpin.1, hpin.2]
    exact hx
  | admitted m hrefs hpending hpin =>
    rw [hpin.1, hpin.2]
    exact ⟨hrefs.trans (Eq.symm hx), by simp [hpending]⟩
  | kept m m' hbody hrefs hpending hvisible hheld =>
    obtain ⟨hr, hp⟩ := hx
    refine ⟨?_, fun hp' => ?_⟩
    · have hboth : (op.pins k && ok) = true → (op.unpins k && ok) = false := fun hpin => by
        by_contra hun
        simp only [Bool.not_eq_false, Bool.and_eq_true] at hun hpin
        simp [Op.not_pins_of_unpins hun.1] at hpin
      cases hpin : (op.pins k && ok) with
      | true =>
        rw [hpin, hboth hpin] at hrefs
        simp only [Bool.toNat_false, Bool.toNat_true, if_true] at hrefs ⊢
        rw [hboth hpin, Bool.toNat_false]
        omega
      | false =>
        have hle := (op.unpins k && ok).toNat_le
        simp only [hpin, Bool.toNat_false, Bool.false_eq_true, if_false] at hrefs ⊢
        omega
    · rcases hheld hp' with ⟨hpend, h0⟩ | hne
      · exact absurd h0 (hp hpend)
      · exact hne
  | evicted m hrefs hretain hpin =>
    rw [hpin.1, hpin.2]
    exact hx.1.symm.trans hrefs
  | removed m hrefs hop =>
    rw [Op.not_pins_of_removes hop, Op.not_unpins_of_removes hop]
    exact hx.1.symm.trans hrefs
  | released m hrefs hpending hop hok =>
    have hr := hx.1
    rw [Op.not_pins_of_unpins hop, hop, hok]
    simp only [Bool.and_self, Bool.toNat_true, Bool.false_and, Bool.toNat_false, Agrees]
    omega

theorem LedgerRun.inv (h : LedgerRun o a L) : Inv a := by
  induction h with
  | new => exact .new o
  | step outcomes op _ ih => exact (step_spec ih outcomes op).inv

theorem LedgerRun.agrees (h : LedgerRun o a L) (k : BlockKey) : Agrees (L k) (a.lookup k) := by
  induction h with
  | new => exact Nat.zero_mod _
  | step outcomes op h ih => exact ((step_spec h.inv outcomes op).records k).agrees ih

/-! ## Holds -/

/-- The calls after a pin of `k`, up to but excluding the unpin that takes the ledger's entry of `k`
to zero, with fewer than `2 ^ 32` pins of `k` outstanding. The flag says whether a `Remove` of `k`
was among them. -/
inductive HeldRun (k : BlockKey) (a : SlabAllocator) (L : Ledger) :
    SlabAllocator → Ledger → Bool → Prop
  | refl : HeldRun k a L a L false
  | step {b : SlabAllocator} {M : Ledger} {removed : Bool} (outcomes : List Bool) (op : Op) :
      HeldRun k a L b M removed → M.after op (b.step outcomes op).2.ok k ≠ 0 →
        M.after op (b.step outcomes op).2.ok k < 2 ^ 32 → HeldRun k a L (b.step outcomes op).1
          (M.after op (b.step outcomes op).2.ok)
          (removed || op.removes k)

/-- No lookup finds `k`. -/
structure SlabAllocator.Hidden (a : SlabAllocator) (k : BlockKey) : Prop where
  get : a.get k = (a, none)
  getAndPin : a.getAndPin k = (a, none)
  pin : a.pin k = (a, false)
  pinHandle : ∀ handle, a.pinHandle k handle = (a, false)
  contains : a.contains k = false

/-- What `k`, resident at `r` with `pins` pins, keeps during a hold. -/
structure Frozen (b : SlabAllocator) (k : BlockKey) (r : SlotRef) (pins : Nat) (removed : Bool) :
    Prop where
  resident : ∃ m, b.lookup k = some m ∧ m.ref = r ∧ m.refs = pins ∧ m.removePending = removed
  /-- No other resident shares a byte with the slot. -/
  apart : ∀ k' m', b.lookup k' = some m' → k' ≠ k → m'.ref.extent = r.extent →
    r.offset + r.slotSize ≤ m'.ref.offset ∨ m'.ref.offset + m'.ref.slotSize ≤ r.offset
  /-- No call reports `k` as evicted. -/
  unevicted : ∀ outcomes op, k ∉ (b.step outcomes op).2.evicted
  notFree : r.slot ∉ (b.classes r.cls).freeByExt r.extent
  hidden : removed = true → b.Hidden k
  /-- The last unpin of a removed key gives the slot back, once: to the free list of its
      extent, or with the whole extent when that went idle. -/
  last : removed = true → pins = 1 → ∀ outcomes op, op.unpins k = true →
    (b.step outcomes op).2.ok = true → (b.step outcomes op).1.lookup k = none ∧
      (((b.step outcomes op).1.extents r.extent).cls = some r.cls ∧
          (((b.step outcomes op).1.classes r.cls).freeByExt r.extent).count r.slot = 1 ∨
        ((b.step outcomes op).1.extents r.extent).cls = none)

theorem Inv.hidden (h : Inv b) (hm : b.lookup k = some m) (hp : m.removePending) : b.Hidden k := by
  obtain ⟨i, hi, rfl⟩ := Option.map_eq_some_iff.mp hm
  have hvis : b.findVisible k = none := by
    simp [findVisible, hi, hp]
  refine ⟨?_, ?_, ?_, fun handle => ?_, ?_⟩
  · simp [SlabAllocator.get, hvis]
  · simp [getAndPin, hvis]
  · simp [pin, hvis]
  · unfold pinHandle
    cases handle with
    | none => rfl
    | some j =>
      refine if_pos ?_
      by_contra hg
      simp only [not_or, ne_eq, not_not, Bool.not_eq_false, Bool.not_eq_true] at hg
      -- a live record with key `k` is the one the index knows
      have hfind := h.find_of_res (Inv.res_eq_some.mpr ⟨hg.2.1, rfl⟩)
      rw [hg.2.2.1, hi] at hfind
      rw [← Option.some.inj hfind, hp] at hg
      simp at hg
  · simp [contains, hi, hp]

theorem RecordStep.of_pinned (h : RecordStep op ok ev k (some m) y) (h0 : m.refs ≠ 0) : k ∉ ev ∧
      ((∃ m', y = some m' ∧ m'.ref = m.ref ∧ m'.removePending = (m.removePending || op.removes k)) ∨
      y = none ∧ m.refs = 1 ∧ op.unpins k ∧ ok) := by
  cases h with
  | kept _ m' hbody _ hpending _ _ hev => exact ⟨hev, Or.inl ⟨m', rfl, hbody.ref, hpending⟩⟩
  | evicted _ hrefs => exact absurd hrefs h0
  | removed _ hrefs => exact absurd hrefs h0
  | released _ hrefs _ hop hok hev => exact ⟨hev, Or.inr ⟨rfl, hrefs, hop, hok⟩⟩

/-! ## The last unpin -/

/-- A successful `Unpin` of `k`, by key or by handle, releases the record of `k`. -/
theorem unpin_eq (h : Inv a) (hm : a.res i = some m) (hop : op.unpins m.key)
    (hok : (a.apply op).2.ok) : (a.apply op).1 = a.unpinAt i := by
  have hfind := h.find_of_res hm
  cases op with
  | unpin k =>
    obtain rfl : k = m.key := of_decide_eq_true hop
    simp only [apply, unpin, hfind] at hok ⊢
    split at hok
    · simp at hok
    · rename_i h0
      rw [if_neg h0]
  | unpinHandle k handle =>
    obtain rfl : k = m.key := of_decide_eq_true hop
    cases handle with
    | none => simp [apply, unpinHandle] at hok
    | some j =>
      simp only [apply, unpinHandle] at hok ⊢
      split at hok
      · simp at hok
      · rename_i hg
        rw [if_neg hg]
        simp only [not_or, ne_eq, not_not, Bool.not_eq_false] at hg
        rw [h.key_inj (Inv.res_eq_some.mpr ⟨hg.2.1, rfl⟩) hm hg.2.2.1]
  | _ => simp [Op.unpins] at hop

theorem cls_freeSlotLocked (a : SlabAllocator) (i : Nat) :
    ((a.freeSlotLocked i).extents (a.slots i).ref.extent).cls =
        (a.extents (a.slots i).ref.extent).cls ∨
      ((a.freeSlotLocked i).extents (a.slots i).ref.extent).cls = none := by
  have hun : ∀ e, ((a.unprotectIfRetained i).extents e).cls = (a.extents e).cls := by
    intro e
    unfold unprotectIfRetained
    split
    · exact proj_update ExtentMeta.cls (by rfl) e
    · rfl
  have hde : ∀ e, (((a.unprotectIfRetained i).detachResident i).extents e).cls =
      (a.extents e).cls := fun e => (proj_update ExtentMeta.cls (by rfl) e).trans (hun e)
  unfold freeSlotLocked returnIdleExtent
  split
  · right
    simp [unbindExtent]
  · exact Or.inl (hde _)

theorem Inv.vacant_freed (h : Inv a) (hm : a.res i = some m) {d : SlabAllocator}
    (hres : d.res = Function.update a.res i none) :
    Vacant (placeOf d.res) m.ref.extent m.ref.slot := by
  rintro j r hr ⟨he, hs⟩
  obtain ⟨n, hn, rfl⟩ := placeOf_eq_some.mp hr
  rw [hres] at hn
  by_cases hj : j = i
  · simp [hj] at hn
  · rw [Function.update_of_ne hj] at hn
    exact hj (h.place.inj j i n.ref m.ref (placeOf_eq_some.mpr ⟨n, hn, rfl⟩)
      (placeOf_eq_some.mpr ⟨m, hm, rfl⟩) he hs)

theorem Inv.unpinAt_last (h : Inv a) (hm : a.res i = some m) (hrefs : m.refs = 1)
    (hp : m.removePending) : (a.unpinAt i).lookup m.key = none ∧
      (((a.unpinAt i).extents m.ref.extent).cls = some m.ref.cls ∧
          (((a.unpinAt i).classes m.ref.cls).freeByExt m.ref.extent).count m.ref.slot = 1 ∨
        ((a.unpinAt i).extents m.ref.extent).cls = none) := by
  have hslots := Inv.slots_eq hm
  have heq : a.unpinAt i = (a.unpinSlot i).freeSlotLocked i :=
    if_pos (by rw [hslots]; exact ⟨by omega, hp⟩)
  have hinv := h.unpinSlot hm (by omega)
  have hres := res_unpinSlot hm
  have hmid : (a.unpinSlot i).res i = some { m with refs := m.refs - 1 } := by
    rw [hres, Function.update_self]
  have hinv' := hinv.freeSlotLocked hmid
  have hres' := res_freeSlotLocked hinv hmid
  rw [hres, Function.update_idem] at hres'
  have hp := h.placed hm
  rw [heq]
  refine ⟨by rw [h.lookup_update hinv' hm hres' (by simp), Function.update_self], ?_⟩
  have hcls := cls_freeSlotLocked (a.unpinSlot i) i
  rw [Inv.slots_eq hmid] at hcls
  refine hcls.imp_left fun hc => ?_
  have hbound : (((a.unpinSlot i).freeSlotLocked i).extents m.ref.extent).cls = some m.ref.cls :=
    hc.trans ((proj_update ExtentMeta.cls (by rfl) _).trans hp.bound)
  have hstatic := (Static.freeSlotLocked hinv hmid).perExtent m.ref.cls
  refine ⟨hbound, List.count_eq_one_of_mem ((hinv'.free.rotation _).nodup _) ?_⟩
  exact (hinv'.free.mem_iff _ _ _).mpr ⟨hbound, hstatic ▸ hp.slot_lt, h.vacant_freed hm hres'⟩

/-! ## Freezing -/

theorem Inv.frozen (h : Inv b) (hm : b.lookup k = some m) (h0 : m.refs ≠ 0) :
    Frozen b k m.ref m.refs m.removePending := by
  obtain ⟨i, hi, rfl⟩ := h.lookup_iff.mp hm
  obtain ⟨hl, hslots⟩ := Inv.res_eq_some.mp hi
  refine ⟨⟨m, hm, rfl, rfl, rfl⟩, fun k' m' hm' hne he => ?_, fun outcomes op => ?_, fun hf => ?_,
    fun hp => h.hidden hm hp, fun hp hpins outcomes op hop hok => ?_⟩
  · obtain ⟨j, hj, rfl⟩ := h.lookup_iff.mp hm'
    obtain ⟨hl', rfl⟩ := Inv.res_eq_some.mp hj
    subst hslots
    exact h.slot_disjoint hl hl' (fun hij => hne (by rw [hij])) he.symm
  · have hrec := (step_spec h outcomes op).records m.key
    rw [hm] at hrec
    exact (hrec.of_pinned h0).1
  · exact ((h.free.mem_iff _ _ _).mp hf).2.2 i m.ref (placeOf_eq_some.mpr ⟨m, hi, rfl⟩) ⟨rfl, rfl⟩
  · have h' : Inv { b with env := { b.env with outcomes := outcomes } } := h.quiet le_rfl rfl
    have hi' : ({ b with env := { b.env with outcomes := outcomes } } : SlabAllocator).res i =
      some m := hi
    have hlast := h'.unpinAt_last hi' hpins hp
    rw [← unpin_eq h' hi' hop hok] at hlast
    exact hlast

theorem HeldRun.ledgerRun (hrun : HeldRun k a L b M removed) (h : LedgerRun o a L) :
    LedgerRun o b M := by
  induction hrun with
  | refl => exact h
  | step outcomes op _ _ _ ih => exact .step outcomes op ih

theorem HeldRun.lookup (hrun : HeldRun k a L b M removed) (h : LedgerRun o a L) (h0 : L k ≠ 0)
    (hlt : L k < 2 ^ 32) (hm : a.lookup k = some m) (hp : m.removePending = false) :
    ∃ m', b.lookup k = some m' ∧ m'.ref = m.ref ∧ m'.refs = M k ∧ m'.refs ≠ 0 ∧
      m'.removePending = removed := by
  induction hrun with
  | refl =>
    have hag := h.agrees k
    rw [hm] at hag
    have hrefs := hag.1.trans (Nat.mod_eq_of_lt hlt)
    exact ⟨m, hm, rfl, hrefs, hrefs ▸ h0, hp⟩
  | step outcomes op hrun hne hlt ih =>
    obtain ⟨m', hm', href, -, hrefs, hpend⟩ := ih
    have hled := hrun.ledgerRun h
    have hrec := (step_spec hled.inv outcomes op).records k
    have hag := (hled.step outcomes op).agrees k
    rw [hm'] at hrec
    obtain ⟨-, ⟨n, hn, hnref, hnp⟩ | ⟨hnone, -⟩⟩ := hrec.of_pinned hrefs
    · rw [hn] at hag
      have hrefs := hag.1.trans (Nat.mod_eq_of_lt hlt)
      exact ⟨n, hn, hnref.trans href, hrefs, hrefs ▸ hne, by rw [hnp, hpend]⟩
    · rw [hnone] at hag
      exact absurd ((Nat.mod_eq_of_lt hlt).symm.trans hag) hne

theorem RecordStep.of_pin {x : Option SlotMeta} (h : RecordStep op ok ev k x y)
    (hop : op.pins k) (hok : ok) : ∃ m m', x = some m ∧ y = some m' ∧
      m'.ref = m.ref ∧ m'.removePending = false := by
  have hpins : (op.pins k && ok) := by rw [hop, hok]; rfl
  cases h with
  | absent hpin => simp [hpins] at hpin
  | admitted _ _ _ hpin => simp [hpins] at hpin
  | evicted _ _ _ hpin => simp [hpins] at hpin
  | removed _ _ hrem => simp [Op.not_pins_of_removes hrem] at hop
  | released _ _ _ hun => simp [Op.not_pins_of_unpins hun] at hop
  | kept m m' hbody _ hpending hvisible _ _ =>
    refine ⟨m, m', rfl, rfl, hbody.ref, ?_⟩
    rw [hpending, hvisible hpins]
    by_contra hrem
    simp [Op.not_pins_of_removes (by simpa using hrem)] at hop

/-- From a successful pin of `k` until the unpin that gives back its last pin, `k` is frozen in its
slot, as long as fewer than `2 ^ 32` pins of it are outstanding. The unpins of the run need no
further assumption: one without an outstanding pin fails. -/
theorem pin_freezes_slot (h : LedgerRun o a L) (hop : op.pins k = true)
    (hok : (a.step outcomes op).2.ok = true)
    (hlt : L.after op (a.step outcomes op).2.ok k < 2 ^ 32) :
    ∃ m, a.lookup k = some m ∧ ∀ b M removed,
      HeldRun k (a.step outcomes op).1 (L.after op (a.step outcomes op).2.ok) b M removed →
        Frozen b k m.ref (M k) removed := by
  have hstep := h.step outcomes op
  obtain ⟨m, m', hm, hm', href, hp⟩ := ((step_spec h.inv outcomes op).records k).of_pin hop hok
  refine ⟨m, hm, fun b M removed hrun => ?_⟩
  have h0 : L.after op (a.step outcomes op).2.ok k ≠ 0 := by
    have hun : op.unpins k = false := by
      by_contra hun
      simp [Op.not_pins_of_unpins (by simpa using hun)] at hop
    simp [Ledger.after, hop, hok, hun]
  obtain ⟨n, hn, hnref, hrefs, hne, hpend⟩ := hrun.lookup hstep h0 hlt hm' hp
  have hfrozen := (hrun.ledgerRun hstep).inv.frozen hn hne
  rwa [hnref, href, hrefs, hpend] at hfrozen

/-- Pin a key that was just put, then remove it: it is frozen, hidden and holds its one pin. -/
theorem pin_then_remove_frozen :
    let key : BlockKey := { digestHi := 1, digestLo := 2, tenantHash := 0 }
    let a := ((SlabAllocator.new { extentBytes := 16, numExtents := 1, align := 4 }).step []
      (.put key 3)).1
    ∃ m, a.lookup key = some m ∧
      Frozen ((a.step [] (.pin key)).1.step [] (.remove key)).1 key m.ref 1 true := by
  intro key a
  have hrun : LedgerRun _ a _ := .step [] (.put key 3) .new
  have hok : (a.step [] (.pin key)).2.ok = true := by decide
  obtain ⟨m, hm, hfrozen⟩ := pin_freezes_slot hrun (show (Op.pin key).pins key = true from rfl) hok
    (by decide)
  exact ⟨m, hm, hfrozen _ _ _ (.step [] (.remove key) .refl (by decide) (by decide))⟩

/-- After `2 ^ 32` pins of a key and no unpin its count is zero, and `Remove` frees the slot. -/
theorem wrapped_pins_release_slot : ∃ (a : SlabAllocator) (L : Ledger) (key : BlockKey),
    LedgerRun { extentBytes := 16, numExtents := 1, align := 4 } a L ∧ L key = 2 ^ 32 ∧
      a.lookup key ≠ none ∧ (a.step [] (.remove key)).1.lookup key = none := by
  let key : BlockKey := { digestHi := 1, digestLo := 2, tenantHash := 0 }
  let a := ((SlabAllocator.new { extentBytes := 16, numExtents := 1, align := 4 }).step []
    (.put key 3)).1
  have hfind : a.index.find key = some 0 := by decide
  have hrun (n : Nat) (hn : n ≤ 2 ^ 32) : ∃ b L, LedgerRun
      { extentBytes := 16, numExtents := 1, align := 4 } b L ∧ L key = n ∧ PinnedTimes a 0 n b := by
    induction n with
    | zero =>
      exact ⟨a, _, .step [] (.put key 3) .new, by decide, rfl, rfl, rfl, by decide, by decide,
        by decide⟩
    | succ n ih =>
      obtain ⟨b, L, hb, hL, hp⟩ := ih (by omega)
      obtain ⟨hp', hok⟩ := hp.step hfind hn
      refine ⟨_, _, hb.step [] (.pin key), ?_, hp'⟩
      simp [Ledger.after, Op.pins, Op.unpins, hok, hL]
  obtain ⟨b, L, hb, hL, hp⟩ := hrun (2 ^ 32) le_rfl
  have hfind' : b.index.find key = some 0 := by rw [hp.index, hfind]
  have hlook : b.lookup key = some (b.slots 0) := by simp [SlabAllocator.lookup, hfind']
  refine ⟨b, L, key, hb, hL, by simp [hlook], ?_⟩
  have hrec := (step_spec hb.inv [] (.remove key)).records key
  rw [hlook] at hrec
  generalize hy : (b.step [] (.remove key)).1.lookup key = y at hrec
  -- a record that stayed would be marked as removed, which only a pinned one is
  cases hrec with
  | kept _ m' _ hrefs hpending _ hheld =>
    have h0 : m'.refs = 0 := hrefs.trans hp.refs
    rcases hheld (by simp [hpending, Op.removes]) with ⟨hpend, -⟩ | hne
    · rw [hp.visible] at hpend
      cases hpend
    · exact absurd h0 hne
  | evicted => rfl
  | removed => rfl
  | released => rfl

end DingoCache.Slab
