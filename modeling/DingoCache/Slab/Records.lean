import DingoCache.Slab.Invariant

/-!
# Changing the Record of a Resident

The functions that keep a resident where it is and change its record only: pins,
touches, protection, the reference bit and the remove mark.

- `Inv.touchLocked`, `Inv.pinSlot`, `Inv.unpinSlot`, `Inv.protect`,
  `Inv.unprotectLocked`, `Inv.setSlot` are its instances, each with the resident
  table it leaves.
-/

namespace DingoCache.Slab

open Library SlabAllocator
open Function (update update_eq_self_iff update_of_ne update_self)

variable {R : Nat → Option SlotMeta}

/-! ## The resident table under updates -/

theorem resident_update (t : SlotTable) (i : Nat) (m : SlotMeta) :
    ({ t with slots := update t.slots i m } : SlotTable).resident =
      update t.resident i (if m.live then some m else none) := by
  funext j
  rcases eq_or_ne j i with rfl | hj
  · simp [SlotTable.resident]
  · simp [SlotTable.resident, hj]

theorem placeOf_update (R : Nat → Option SlotMeta) (i : Nat) (x : Option SlotMeta) :
    placeOf (update R i x) = update (placeOf R) i (x.map (·.ref)) :=
  comp_update (Option.map SlotMeta.ref)

theorem placeOf_eq_some {i : Nat} {r : SlotRef} :
    placeOf R i = some r ↔ ∃ m, R i = some m ∧ m.ref = r := by
  simp [placeOf]

/-- `m'` is the same resident as `m` with other bookkeeping. -/
structure SameBody (m m' : SlotMeta) : Prop where
  key : m'.key = m.key
  ref : m'.ref = m.ref
  useful : m'.usefulBytes = m.usefulBytes
  live : m'.live = m.live

theorem SameBody.rfl {m : SlotMeta} : SameBody m m := ⟨Eq.refl _, Eq.refl _, Eq.refl _, Eq.refl _⟩

theorem SameBody.trans {m m' m'' : SlotMeta} (h : SameBody m m') (h' : SameBody m' m'') :
    SameBody m m'' :=
  ⟨h'.key.trans h.key, h'.ref.trans h.ref, h'.useful.trans h.useful, h'.live.trans h.live⟩

theorem placeOf_replace {i : Nat} {m m' : SlotMeta} (hm : R i = some m) (hr : m'.ref = m.ref) :
    placeOf (update R i (some m')) = placeOf R := by
  rw [placeOf_update]
  refine update_eq_self_iff.mpr ?_
  simp [placeOf, hm, hr]

theorem IndexInv.replace {t : SlotTable} {x : KeyIndex} {i : Nat} {m m' : SlotMeta}
    (h : IndexInv t x) (hm : t.resident i = some m) (hb : SameBody m m') (hl : m.live) :
    IndexInv { t with slots := update t.slots i m' } x := by
  have hres := resident_update t i m'
  simp only [hb.live, hl, if_true] at hres
  refine ⟨fun k j => ?_, fun j n hj => ?_, ?_, ?_⟩
  · rw [h.find_iff, hres]
    rcases eq_or_ne j i with rfl | hj
    · simp [hm, hb.key]
    · simp [hj]
  · rcases eq_or_ne j i with rfl | hji
    · exact h.bounded j m hm
    · rw [hres, update_of_ne hji] at hj
      exact h.bounded j n hj
  · obtain ⟨l, hc, hnd, hmem⟩ := h.chain
    have hil : ∀ j ∈ l, j ≠ i := by
      rintro j hj rfl
      simpa [hm] using ((hmem j).mp hj).2
    refine ⟨l, hc.congr fun j hj => by simp [hil j hj], hnd, fun j => ?_⟩
    rw [hmem, hres]
    rcases eq_or_ne j i with rfl | hji
    · simp [hm]
    · simp [hji]
  · rw [h.size_eq, hres]
    exact (tally_update_same (by simp [hm, one])).symm

/-! ## Replacing a record -/

def SizeClass.core (x : SizeClass) : SizeClass :=
  { x with
    rrNext := 0, puts := 0, readTouches := 0, readHeat := 0, heatSeq := 0, ring := {}
    protectedSlots := 0 }

open SizeClass

def ExtentMeta.core (x : ExtentMeta) : ExtentMeta :=
  { x with
    pinned := 0, youngestSeq := 0, accessSeqSum := 0, readHeat := 0, heatSeq := 0
    residentHead := none, protectedSlots := 0 }

/-- How a counter that adds up the weight `w` moves when the record `x` becomes `x'`. -/
def Moves (w : SlotMeta → Nat) (x x' : Option SlotMeta) (old new : Nat) : Prop :=
  new + x.elim 0 w = old + x'.elim 0 w

section Moves

variable {w : SlotMeta → Nat} {m m' : SlotMeta} {x x' : Option SlotMeta} {old new n i c : Nat}

theorem Moves.same (hx : new = old) (h : w m' = w m) : Moves w (some m) (some m') old new := by
  simp only [Moves, Option.elim_some]
  omega

theorem Moves.tally (h : Moves w x x' old new) (hi : i < n) (hR : R i = x)
    (ho : old = Library.tally n R w) : new = Library.tally n (update R i x') w := by
  have ht := tally_update (w := w) (R := R) hi x'
  unfold Moves at h
  rw [hR] at ht
  omega

/-- A pin counter that moves with the records keeps covering them, and one that stays too large does
once `wrapped` is set. -/
theorem Covers.move {b b' : Bool} (ho : Covers b old (Library.tally n R w)) (hi : i < n)
    (hR : R i = x) (hle : old + x'.elim 0 w ≤ new + x.elim 0 w)
    (hb : b' = false → b = false ∧ Moves w x x' old new) :
    Covers b' new (Library.tally n (update R i x') w) := by
  have ht := tally_update (w := w) (R := R) hi x'
  rw [hR] at ht
  refine ⟨by have := ho.1; omega, fun h0 => ?_⟩
  exact (hb h0).2.tally hi hR (ho.2 (hb h0).1)

theorem Moves.covers {b : Bool} (h : Moves w x x' old new) (hi : i < n) (hR : R i = x)
    (ho : Covers b old (Library.tally n R w)) : Covers b new (Library.tally n (update R i x') w) :=
  ho.move hi hR (Nat.le_of_eq h.symm) fun hb => ⟨hb, h⟩

theorem Moves.update {α : Type} {g : Nat → α} {v : α} (f : α → Nat) (φ : SlotMeta → Nat)
    (hx : x.elim c φ = c) (hx' : x'.elim c φ = c) (h : Moves w x x' (f (g c)) (f v)) (c' : Nat) :
    Moves (fun m => if φ m = c' then w m else 0) x x' (f (g c')) (f (update g c v c')) := by
  unfold Moves at h ⊢
  rcases eq_or_ne c' c with rfl | hc
  · cases x <;> cases x' <;> simp_all
  · have hzero {z : Option SlotMeta} (hz : z.elim c φ = c) :
        z.elim 0 (fun m => if φ m = c' then w m else 0) = 0 := by
      cases z with
      | none => rfl
      | some m => simp [show φ m = c from hz, Ne.symm hc]
    rw [hzero hx, hzero hx', update_of_ne hc]

end Moves

/-- The counters after the record `x` became `x'`. -/
structure CountersMove (a a' : SlabAllocator) (x x' : Option SlotMeta) : Prop where
  clsProt : ∀ c, Moves (inClass c retainWeight) x x' (a.classes c).protectedSlots
    (a'.classes c).protectedSlots
  access : ∀ e, Moves (inExtent e (·.accessSeq)) x x' (a.extents e).accessSeqSum
    (a'.extents e).accessSeqSum
  extProt : ∀ e, Moves (inExtent e retainWeight) x x' (a.extents e).protectedSlots
    (a'.extents e).protectedSlots
  protBytes : Moves retainBytes x x' a.retention.protectedBytes a'.retention.protectedBytes
  protSlots : Moves retainWeight x x' a.retention.protectedSlots a'.retention.protectedSlots

/-- The fields outside the record, its counters and the rings are unchanged. -/
structure SameFrame (a a' : SlabAllocator) : Prop where
  opt : a'.opt = a.opt
  classCount : a'.classCount = a.classCount
  index : a'.index = a.index
  unbound : a'.unbound = a.unbound
  used : a'.usedBytes = a.usedBytes
  retain : a'.retention.opt = a.retention.opt ∧ a'.retention.wheel = a.retention.wheel
  classes : ∀ c, (a'.classes c).core = (a.classes c).core
  extents : ∀ e, (a'.extents e).core = (a.extents e).core
  idle : ∀ e, (a.extents e).cls = none → a'.extents e = a.extents e
  seq : a.activitySeq ≤ a'.activitySeq

variable {a a' : SlabAllocator} {i : Nat} {m m' : SlotMeta}

theorem SlabAllocator.res_replace (hm : a.res i = some m) (hb : SameBody m m')
    (ht : a'.table = { a.table with slots := update a.table.slots i m' }) :
    a'.res = update a.res i (some m') := by
  unfold res
  rw [ht, resident_update, hb.live, Inv.live_eq hm]
  rfl

theorem RecordOk.mono {s s' : Nat} (h : RecordOk s m) (hs : s ≤ s') : RecordOk s' m :=
  ⟨h.useful_le, h.access_le.trans hs⟩

/-- A record change whose counters follow keeps the invariant. -/
theorem Inv.replace (h : Inv a) (m' : SlotMeta) (hm : a.res i = some m) (hb : SameBody m m')
    (ht : a'.table = { a.table with slots := update a.table.slots i m' })
    (hf : SameFrame a a')
    (hring : RingInv a'.links a'.classes a'.globalRing a'.extents (placeOf a.res))
    (hc : CountersMove a a' (some m) (some m'))
    (hpin : ∀ e, Covers a'.pinsWrapped (a'.extents e).pinned
      (tally a.table.size (update a.res i (some m')) (inExtent e pinWeight)))
    (hrec : RecordOk a'.activitySeq m') : Inv a' := by
  have hi := h.lt_size hm
  have hres : a'.res = update a.res i (some m') := res_replace hm hb ht
  have hplace : placeOf a'.res = placeOf a.res := by rw [hres, placeOf_replace hm hb.ref]
  have hsize : a'.table.size = a.table.size := by rw [ht]
  have hs c : (a'.classes c).slotSize = (a.classes c).slotSize :=
    (congrArg slotSize (hf.classes c) :)
  have hp c : (a'.classes c).slotsPerExtent = (a.classes c).slotsPerExtent :=
    (congrArg slotsPerExtent (hf.classes c) :)
  have hfree c : (a'.classes c).freeByExt = (a.classes c).freeByExt :=
    (congrArg freeByExt (hf.classes c) :)
  have hcls e : (a'.extents e).cls = (a.extents e).cls := (congrArg ExtentMeta.cls (hf.extents e) :)
  have hclsFun : (fun e => (a'.extents e).cls) = fun e => (a.extents e).cls := funext hcls
  refine
    { geometry := ?_, index := ?_, place := ?_, free := ?_, ring := ?_, bound := ?_
      clsCounts := fun c => ?_, extCounts := fun e => ?_, counts := ?_
      records := fun j n hj => ?_, retain := ?_ }
  · rw [hf.opt, hf.classCount]
    exact h.geometry.congr hs hp
  · rw [ht, hf.index]
    exact h.index.replace hm hb (Inv.live_eq hm)
  · rw [hplace]
    exact h.place.congr hs hp hcls
  · rw [hplace]
    exact h.free.congr hfree (fun c => (congrArg extRr (hf.classes c) :)) hp hcls
  · rw [hplace]
    exact hring
  · rw [hf.opt, hf.classCount, hf.unbound]
    exact h.bound.congr hfree hp hcls (fun e => (congrArg ExtentMeta.freeSlots (hf.extents e) :))
      (fun e => (congrArg ExtentMeta.totalSlots (hf.extents e) :)) hf.idle
  · have hx := h.clsCounts c
    have hcore := hf.classes c
    rw [hf.opt, hsize, hres]
    refine ⟨?_, ?_, (hc.clsProt c).tally hi hm hx.prot, ?_, ?_⟩
    · rw [tally_update_same (by simp [hm, inClass, one, hb.ref]), ← hx.resident]
      exact (congrArg residentCount hcore :)
    · rw [tally_update_same (by simp [hm, inClass, hb.ref, hb.useful]), ← hx.useful]
      exact (congrArg usefulBytes hcore :)
    · rw [hfree c, ← hx.free]
      exact (congrArg freeCount hcore :)
    · rw [hclsFun, ← hx.boundExtents]
      exact (congrArg boundExtents hcore :)
  · have hx := h.extCounts e
    rw [hsize, hres]
    refine ⟨?_, ?_, (hc.access e).tally hi hm hx.access, hpin e,
      (hc.extProt e).tally hi hm hx.prot⟩
    · rw [tally_update_same (by simp [hm, inExtent, one, hb.ref]), ← hx.resident]
      exact (congrArg ExtentMeta.residentCount (hf.extents e) :)
    · rw [tally_update_same (by simp [hm, inExtent, hb.ref, hb.useful]), ← hx.useful]
      exact (congrArg ExtentMeta.usefulBytes (hf.extents e) :)
  · have hx := h.counts
    rw [hsize, hres]
    refine ⟨?_, hc.protBytes.tally hi hm hx.protBytes, hc.protSlots.tally hi hm hx.protSlots⟩
    rw [tally_update_same (by simp [hm, hb.ref]), ← hx.used]
    exact hf.used
  · rw [hres] at hj
    rcases eq_or_ne j i with rfl | hji
    · simp only [update_self, Option.some.injEq] at hj
      exact hj ▸ hrec
    · rw [update_of_ne hji] at hj
      exact (h.records j n hj).mono hf.seq
  · rw [hf.retain.1, hf.retain.2]
    exact h.retain

/-- A record that keeps its place and whether it is pinned moves no pin counter. -/
theorem Inv.pins_same (h : Inv a) (m' : SlotMeta) (hm : a.res i = some m) (href : m'.ref = m.ref)
    (hpin : pinWeight m' = pinWeight m) {e v : Nat} (hv : v = (a.extents e).pinned) :
    Covers a.pinsWrapped v
      (tally a.table.size (update a.res i (some m')) (inExtent e pinWeight)) :=
  (Moves.same hv (by simp [inExtent, href, hpin])).covers (h.lt_size hm) hm (h.extCounts e).pinned

/-! ## The reference bit and the remove mark -/

theorem Inv.setSlot (h : Inv a) (hm : a.res i = some m) (hb : SameBody m m')
    (hacc : m'.accessSeq = m.accessSeq) (hpin : pinWeight m' = pinWeight m)
    (hret : retainWeight m' = retainWeight m) : Inv (a.setSlot i m') := by
  have hrec := h.records i m hm
  have hbytes : retainBytes m' = retainBytes m := by
    unfold retainWeight at hret
    unfold retainBytes
    rw [hb.ref]
    split at hret <;> split at hret <;> simp_all
  refine h.replace m' hm hb rfl ⟨rfl, rfl, rfl, rfl, rfl, ⟨rfl, rfl⟩, fun _ => rfl, fun _ => rfl,
    fun _ _ => rfl, le_rfl⟩ h.ring ⟨fun c => .same rfl ?_, fun e => .same rfl ?_,
    fun e => .same rfl ?_, .same rfl hbytes, .same rfl hret⟩
    (fun _ => h.pins_same m' hm hb.ref hpin rfl) ⟨?_, ?_⟩
  · simp [inClass, hb.ref, hret]
  · simp [inExtent, hb.ref, hacc]
  · simp [inExtent, hb.ref, hret]
  · rw [hb.useful, hb.ref]
    exact hrec.useful_le
  · rw [hacc]
    exact hrec.access_le

theorem SlabAllocator.res_setSlot (hm : a.res i = some m) (hb : SameBody m m') :
    (a.setSlot i m').res = update a.res i (some m') :=
  res_replace hm hb rfl

/-! ## Pins -/

theorem idle_update {extents : Nat → ExtentMeta} {e : Nat} {x : ExtentMeta} {c : Nat}
    (hb : (extents e).cls = some c) (e' : Nat) (he : (extents e').cls = none) :
    update extents e x e' = extents e' := by
  have hne : e' ≠ e := by
    rintro rfl
    simp [hb] at he
  simp [hne]

theorem SlabAllocator.res_pinSlot (hm : a.res i = some m) :
    (a.pinSlot i).res = update a.res i (some { m with refs := (m.refs + 1) % 2 ^ 32 }) := by
  obtain rfl := Inv.slots_eq hm
  exact res_replace hm ⟨rfl, rfl, rfl, rfl⟩ rfl

/-- A change of the pins of one slot, in which the counter of its extent may only stay too large,
and only if the count wrapped. -/
theorem Inv.repin (h : Inv a) (hm : a.res i = some m) {refs pinned : Nat} {wrapped : Bool}
    (hle : (a.extents m.ref.extent).pinned + pinWeight { m with refs } ≤ pinned + pinWeight m)
    (hmoves : wrapped = false → a.pinsWrapped = false ∧ Moves pinWeight (some m)
      (some { m with refs }) (a.extents m.ref.extent).pinned pinned) :
    Inv { a with
      table := { a.table with slots := update a.table.slots i { m with refs } }
      extents := update a.extents m.ref.extent { a.extents m.ref.extent with pinned }
      pinsWrapped := wrapped } := by
  have hrec := h.records i m hm
  refine h.replace { m with refs } hm ⟨rfl, rfl, rfl, rfl⟩ rfl
    ⟨rfl, rfl, rfl, rfl, rfl, ⟨rfl, rfl⟩, fun _ => rfl, proj_update _ rfl,
      idle_update (h.placed hm).bound, le_rfl⟩
    (h.ring.congr (fun _ => rfl) (proj_update _ rfl))
    ⟨fun c => .same rfl rfl, fun e => .same (proj_update ExtentMeta.accessSeqSum (by rfl) e) rfl,
      fun e => .same (proj_update ExtentMeta.protectedSlots (by rfl) e) rfl,
      .same rfl rfl, .same rfl rfl⟩
    (fun e => (h.extCounts e).pinned.move (h.lt_size hm) hm ?_ fun hw => ?_)
    ⟨hrec.useful_le, hrec.access_le⟩
  · rcases eq_or_ne e m.ref.extent with rfl | he
    · simpa [inExtent] using hle
    · simp [inExtent, he, Ne.symm he]
  · exact ⟨(hmoves hw).1, .update ExtentMeta.pinned (·.ref.extent) rfl rfl (hmoves hw).2 e⟩

theorem Inv.pinSlot (h : Inv a) (hm : a.res i = some m) : Inv (a.pinSlot i) := by
  obtain rfl := Inv.slots_eq hm
  refine h.repin hm ?_ fun hw => ?_
  · simp only [pinWeight]
    split <;> split <;> omega
  · obtain ⟨hw, h0⟩ := Bool.or_eq_false_iff.mp hw
    refine ⟨hw, ?_⟩
    simp only [Moves, Option.elim_some, pinWeight, if_neg (of_decide_eq_false h0)]
    split <;> simp

theorem SlabAllocator.res_unpinSlot (hm : a.res i = some m) :
    (a.unpinSlot i).res = update a.res i (some { m with refs := m.refs - 1 }) := by
  obtain rfl := Inv.slots_eq hm
  exact res_replace hm ⟨rfl, rfl, rfl, rfl⟩ rfl

theorem Inv.unpinSlot (h : Inv a) (hm : a.res i = some m) (h0 : m.refs ≠ 0) :
    Inv (a.unpinSlot i) := by
  have hle := h.pinWeight_le hm
  obtain rfl := Inv.slots_eq hm
  simp only [inExtent, pinWeight, if_true, if_neg h0] at hle
  have hmoves : Moves pinWeight (some (a.slots i))
      (some { a.slots i with refs := (a.slots i).refs - 1 })
      (a.extents (a.slots i).ref.extent).pinned
      (if (a.slots i).refs - 1 = 0 then (a.extents (a.slots i).ref.extent).pinned - 1
        else (a.extents (a.slots i).ref.extent).pinned) := by
    simp only [Moves, Option.elim_some, pinWeight, if_neg h0]
    split <;> omega
  exact h.repin hm (Nat.le_of_eq hmoves.symm) fun hw => ⟨hw, hmoves⟩

/-! ## Reads -/

/-- The record after a touch at sequence number `seq`. -/
def SlotMeta.touched (m : SlotMeta) (seq : Nat) : SlotMeta :=
  { m with referenced := true, readTouches := m.readTouches + 1, accessSeq := seq }

theorem SlabAllocator.res_touchLocked (hm : a.res i = some m) : (a.touchLocked i).res =
      update a.res i (some (m.touched (a.activitySeq + 1))) := by
  obtain rfl := Inv.slots_eq hm
  exact res_replace hm ⟨rfl, rfl, rfl, rfl⟩ rfl

/-- Moving `i` behind both hands keeps all three kinds of list. -/
theorem RingInv.touch {L : SlabLinks} {classes : Nat → SizeClass} {g : Ring}
    {extents extents' : Nat → ExtentMeta} {P : Nat → Option SlotRef} {r : SlotRef} {x : SizeClass}
    (h : RingInv L classes g extents P) (hi : P i = some r)
    (hx : x.ring = (moveBehindHand L.cls (classes r.cls).ring i).2)
    (hh : ∀ e, (extents' e).residentHead = (extents e).residentHead) :
    RingInv
      { L with
        cls := (moveBehindHand L.cls (classes r.cls).ring i).1
        global := (moveBehindHand L.global g i).1 }
      (update classes r.cls x) (moveBehindHand L.global g i).2 extents' P where
  cls := by
    have hm := h.cls.moveBehindHand (x := i) (c := r.cls) (by simp [hi])
    rwa [comp_update ring, hx]
  global := by
    have hm := h.global.moveBehindHand (x := i) (c := 0) (by simp [hi])
    simpa using hm
  extent := by
    rw [funext hh]
    exact h.extent

theorem Inv.touchLocked (h : Inv a) (hm : a.res i = some m) : Inv (a.touchLocked i) := by
  have hbound := (h.placed hm).bound
  have hrec := h.records i m hm
  have hplace : placeOf a.res i = some m.ref := placeOf_eq_some.mpr ⟨m, hm, rfl⟩
  have hle := h.weight_le hm (h.extCounts m.ref.extent).access
  obtain rfl := Inv.slots_eq hm
  refine h.replace ((a.slots i).touched (a.activitySeq + 1)) hm ⟨rfl, rfl, rfl, rfl⟩
    rfl ⟨rfl, rfl, rfl, rfl, rfl, ⟨rfl, rfl⟩, proj_update _ rfl, proj_update _ rfl,
      idle_update hbound,
      Nat.le_succ _⟩
    (h.ring.touch hplace rfl (proj_update _ rfl))
    ⟨fun c => .same (proj_update protectedSlots (by rfl) c) rfl,
      .update ExtentMeta.accessSeqSum (·.ref.extent) rfl rfl ?_,
      fun e => .same (proj_update ExtentMeta.protectedSlots (by rfl) e) rfl,
      .same rfl rfl, .same rfl rfl⟩
    (fun e => h.pins_same ((a.slots i).touched _) hm rfl rfl (proj_update ExtentMeta.pinned
      (by rfl) e))
    ⟨hrec.useful_le, le_rfl⟩
  have hacc := hrec.access_le
  simp only [inExtent, if_true] at hle
  simp only [Moves, Option.elim_some, SlotMeta.touched]
  omega

/-! ## Protection -/

theorem SlabAllocator.res_unprotectLocked (hm : a.res i = some m) :
    (a.unprotectLocked i).res = update a.res i (some { m with retainUntil := 0 }) := by
  obtain rfl := Inv.slots_eq hm
  exact res_replace hm ⟨rfl, rfl, rfl, rfl⟩ rfl

theorem Inv.unprotectLocked (h : Inv a) (hm : a.res i = some m) (h0 : m.retainUntil ≠ 0) :
    Inv (a.unprotectLocked i) := by
  have hbound := (h.placed hm).bound
  have hrec := h.records i m hm
  have hec := h.weight_le hm (h.extCounts m.ref.extent).prot
  have hcc := h.weight_le hm (h.clsCounts m.ref.cls).prot
  have hbc := h.weight_le hm h.counts.protBytes
  have hsc := h.weight_le hm h.counts.protSlots
  simp only [inExtent, inClass, retainWeight, retainBytes, if_true, if_neg h0] at hec hcc hbc hsc
  obtain rfl := Inv.slots_eq hm
  refine h.replace { a.slots i with retainUntil := 0 } hm ⟨rfl, rfl, rfl, rfl⟩
    rfl ⟨rfl, rfl, rfl, rfl, rfl, ⟨rfl, rfl⟩, proj_update _ rfl, proj_update _ rfl,
      idle_update hbound,
      le_rfl⟩
    (h.ring.congr (proj_update _ rfl) (proj_update _ rfl))
    ⟨.update protectedSlots (·.ref.cls) rfl rfl ?_,
      fun e => .same (proj_update ExtentMeta.accessSeqSum (by rfl) e) rfl,
      .update ExtentMeta.protectedSlots (·.ref.extent) rfl rfl ?_, ?_, ?_⟩
    (fun e => h.pins_same { a.slots i with retainUntil := 0 } hm rfl rfl
      (proj_update ExtentMeta.pinned (by rfl) e))
    ⟨hrec.useful_le, hrec.access_le⟩
  · simp only [Moves, Option.elim_some, retainWeight, if_true, if_neg h0]
    omega
  · simp only [Moves, Option.elim_some, retainWeight, if_true, if_neg h0]
    omega
  · simp only [unprotectLocked, Moves, Option.elim_some, retainBytes, if_true, if_neg h0]
    omega
  · simp only [unprotectLocked, Moves, Option.elim_some, retainWeight, if_true, if_neg h0]
    omega

/-- `ProtectLocked` together with the deadline that makes the resident protected. -/
theorem Inv.protect (h : Inv a) (hm : a.res i = some m) (hb : SameBody m m')
    (h0 : m.retainUntil = 0) (h1 : m'.retainUntil ≠ 0) (hacc : m'.accessSeq = m.accessSeq)
    (hrefs : m'.refs = m.refs) : Inv ((a.protectLocked i).setSlot i m') := by
  have hbound := (h.placed hm).bound
  have hrec := h.records i m hm
  obtain rfl := Inv.slots_eq hm
  refine h.replace m' hm hb
    rfl ⟨rfl, rfl, rfl, rfl, rfl, ⟨rfl, rfl⟩, proj_update _ rfl, proj_update _ rfl,
      idle_update hbound,
      le_rfl⟩
    (h.ring.congr (proj_update _ rfl) (proj_update _ rfl))
    ⟨.update protectedSlots (·.ref.cls) rfl (by simp [hb.ref]) ?_,
      fun e => .same (proj_update ExtentMeta.accessSeqSum (by rfl) e) ?_,
      .update ExtentMeta.protectedSlots (·.ref.extent) rfl (by simp [hb.ref]) ?_, ?_, ?_⟩
    (fun e => h.pins_same m' hm hb.ref (by simp [pinWeight, hrefs])
      (proj_update ExtentMeta.pinned (by rfl) e)) ⟨?_, ?_⟩
  · simp [Moves, retainWeight, h0, h1]
  · simp [inExtent, hb.ref, hacc]
  · simp [Moves, retainWeight, h0, h1]
  · simp [protectLocked, SlabAllocator.setSlot, Moves, retainBytes, h0, h1, hb.ref]
  · simp [protectLocked, SlabAllocator.setSlot, Moves, retainWeight, h0, h1]
  · rw [hb.useful, hb.ref]
    exact hrec.useful_le
  · rw [hacc]
    exact hrec.access_le

end DingoCache.Slab
