import DingoCache.Slab.Binding

/-!
# Admitting and Forgetting Residents

- `Inv.detachResident`, `Inv.freeSlotLocked`: `FreeSlotLocked` gives a state with
  one resident fewer, also when it returns the idle extent.
-/

namespace DingoCache.Slab

open Library SlabAllocator Option
open Function (update update_eq_self_iff update_idem update_of_ne update_self)

open SizeClass

variable {a : SlabAllocator} {i c e s : Nat} {m : SlotMeta} {t : SlotTable}

/-! ## Slot metadata records -/

/-- `AcquireSlotMetaLocked` hands out index `i`, which held no resident. -/
structure Acquired (t t' : SlotTable) (i : Nat) : Prop where
  fresh : t.resident i = none
  lt : i < t'.size
  resident : t'.resident = t.resident
  tally_eq : ∀ w, tally t'.size t.resident w = tally t.size t.resident w
  bounded : ∀ j m, t.resident j = some m → j < t'.size
  chain : ∃ l, FreeChain (fun j => (t'.slots j).freeNext) t'.freeHead l ∧ l.Nodup ∧
    ∀ j, j ∈ l ↔ j < t'.size ∧ t.resident j = none ∧ j ≠ i

theorem IndexInv.acquire {x : KeyIndex} (h : IndexInv t x) :
    Acquired t (acquireSlotMeta t) (acquireIndex t) := by
  obtain ⟨l, hl, hnd, hmem⟩ := h.chain
  cases hf : t.freeHead with
  | none =>
    have hfresh : t.resident t.size = none := by
      cases hr : t.resident t.size with
      | none => rfl
      | some m => exact absurd (h.bounded _ m hr) (lt_irrefl _)
    have hlnil : l = [] := by
      cases l with
      | nil => rfl
      | cons b l => simp [FreeChain, hf] at hl
    subst hlnil
    simp only [acquireSlotMeta, acquireIndex, hf, getD_none]
    refine ⟨hfresh, Nat.lt_succ_self _, ?_, fun w => tally_succ hfresh,
      fun j m hj => (h.bounded j m hj).trans (Nat.lt_succ_self _), [], rfl, List.nodup_nil,
      fun j => ?_⟩
    · have hres := resident_update t t.size {}
      rw [show ({} : SlotMeta).live = false from rfl] at hres
      exact hres.trans (update_eq_self_iff.mpr hfresh.symm)
    · have hj := hmem j
      simp only [List.not_mem_nil, false_iff, not_and] at hj ⊢
      intro hlt hnone hne
      exact hj (by omega) hnone
  | some b =>
    cases l with
    | nil => simp [FreeChain, hf] at hl
    | cons b' l =>
      obtain ⟨hb, hl⟩ := hl
      obtain rfl : b = b' := by simpa [hf] using hb
      rw [List.nodup_cons] at hnd
      obtain ⟨hlt, hfresh⟩ := (hmem b).mp (by simp)
      simp only [acquireSlotMeta, acquireIndex, hf, getD_some]
      refine ⟨hfresh, hlt, ?_, fun w => rfl, h.bounded, l, ?_, hnd.2, fun j => ?_⟩
      · have hres := resident_update t b {}
        rw [show ({} : SlotMeta).live = false from rfl] at hres
        exact hres.trans (update_eq_self_iff.mpr hfresh.symm)
      · exact hl.congr fun j hj => by simp [ne_of_mem_of_not_mem hj hnd.1]
      · have hj := hmem j
        rw [List.mem_cons] at hj
        constructor
        · intro hjl
          obtain ⟨h1, h2⟩ := hj.mp (Or.inr hjl)
          exact ⟨h1, h2, ne_of_mem_of_not_mem hjl hnd.1⟩
        · rintro ⟨h1, h2, h3⟩
          exact (hj.mpr ⟨h1, h2⟩).resolve_left h3

theorem IndexInv.install {t' : SlotTable} {x : KeyIndex} (h : IndexInv t x) (ha : Acquired t t' i)
    (hk : x.find m.key = none) (hl : m.live) :
    IndexInv { t' with slots := update t'.slots i m } (x.insert m.key i) := by
  have hres := resident_update t' i m
  simp only [hl, if_true, ha.resident] at hres
  refine ⟨fun k j => ?_, fun j n hj => ?_, ?_, ?_⟩
  · rw [hres]
    rcases eq_or_ne j i with rfl | hji
    · rcases eq_or_ne k m.key with rfl | hkk
      · simp [KeyIndex.insert]
      · have hold := h.find_iff k j
        simp only [ha.fresh, reduceCtorEq, false_and, exists_false, iff_false] at hold
        simp [KeyIndex.insert, hkk, hold, Ne.symm hkk]
    · rcases eq_or_ne k m.key with rfl | hkk
      · have hold := h.find_iff m.key j
        simp only [hk, reduceCtorEq, false_iff] at hold
        simpa [KeyIndex.insert, hji, Ne.symm hji] using hold
      · simpa [KeyIndex.insert, hji, hkk] using h.find_iff k j
  · rcases eq_or_ne j i with rfl | hji
    · exact ha.lt
    · rw [hres, update_of_ne hji] at hj
      exact ha.bounded j n hj
  · obtain ⟨l, hc, hnd, hmem⟩ := ha.chain
    refine ⟨l, hc.congr fun j hj => by simp [((hmem j).mp hj).2.2], hnd, fun j => ?_⟩
    rw [hmem, hres]
    rcases eq_or_ne j i with rfl | hji
    · simp
    · simp [hji]
  · rw [hres]
    have hins := tally_insert (w := one) (m := m) ha.lt ha.fresh
    rw [ha.tally_eq, ← h.size_eq] at hins
    exact hins.symm

theorem IndexInv.detach {x : KeyIndex} (h : IndexInv t x) (hm : t.resident i = some m) : IndexInv
      { t with
        slots := update t.slots i { freeNext := t.freeHead }
        freeHead := some i }
      (x.erase m.key) := by
  have hres : ({ t with
      slots := update t.slots i { freeNext := t.freeHead }
      freeHead := some i } : SlotTable).resident = update t.resident i none :=
    resident_update t i { freeNext := t.freeHead }
  have hlt := h.bounded i m hm
  have hfind : x.find m.key = some i := (h.find_iff m.key i).mpr ⟨m, hm, rfl⟩
  have herase : x.erase m.key = { find := update x.find m.key none, size := x.size - 1 } := by
    simp [KeyIndex.erase, hfind]
  refine ⟨fun k j => ?_, fun j n hj => ?_, ?_, ?_⟩
  · rw [hres, herase]
    rcases eq_or_ne k m.key with rfl | hkk
    · rcases eq_or_ne j i with rfl | hji
      · simp
      · have hold := h.find_iff m.key j
        simp only [hfind, some.injEq, Ne.symm hji, false_iff] at hold
        simpa [hji] using hold
    · rcases eq_or_ne j i with rfl | hji
      · have hold := h.find_iff k j
        simp only [hm, some.injEq, exists_eq_left', Ne.symm hkk, iff_false] at hold
        simp [hkk, hold]
      · simpa [hji, hkk] using h.find_iff k j
  · have hji : j ≠ i := by
      rintro rfl
      simp [hres] at hj
    rw [hres, update_of_ne hji] at hj
    exact h.bounded j n hj
  · obtain ⟨l, hc, hnd, hmem⟩ := h.chain
    have hil : i ∉ l := by simp [hmem, hm]
    refine ⟨i :: l, hc.push (by simp) fun j hj => by simp [ne_of_mem_of_not_mem hj hil],
      List.nodup_cons.mpr ⟨hil, hnd⟩, fun j => ?_⟩
    rw [hres, List.mem_cons, hmem]
    rcases eq_or_ne j i with rfl | hji
    · simpa using hlt
    · simp [hji]
  · rw [hres, herase]
    have hrem := tally_remove (w := one) hlt hm
    rw [← h.size_eq] at hrem
    exact hrem.symm

/-! ## Parts of the invariant with one resident more -/

section Parts

variable {o : Options} {n n' unbound : Nat} {classes : Nat → SizeClass}
  {extents : Nat → ExtentMeta} {P : Nat → Option SlotRef} {R R' : Nat → Option SlotMeta}
  {x : SizeClass} {y : ExtentMeta} {r : SlotRef} {L : SlabLinks} {g : Ring}

theorem vacant_insert (hi : P i = none) {e' s' : Nat} : Vacant (update P i (some r)) e' s' ↔
      Vacant P e' s' ∧ ¬(r.extent = e' ∧ r.slot = s') := by
  constructor
  · intro h
    refine ⟨fun j r' hj => ?_, h i r (by simp)⟩
    have hji : j ≠ i := by
      rintro rfl
      simp [hi] at hj
    exact h j r' (by simpa [hji] using hj)
  · rintro ⟨h, hr⟩ j r' hj
    rcases eq_or_ne j i with rfl | hji
    · simp only [update_self, some.injEq] at hj
      exact hj ▸ hr
    · exact h j r' (by simpa [hji] using hj)

theorem PlaceInv.install (h : PlaceInv classes extents P) (hr : Placed classes extents r)
    (hvac : Vacant P r.extent r.slot) : PlaceInv classes extents (update P i (some r)) where
  placed := forall_update (Q := fun _ z => ∀ r, z = some r → Placed classes extents r) h.placed
    fun r' hr' => some.inj hr' ▸ hr
  inj j k r₁ r₂ hj hk he hs := by
    by_cases hji : j = i
    · by_cases hki : k = i
      · exact hji.trans hki.symm
      · subst hji
        simp only [update_self, some.injEq, update_of_ne hki] at hj hk
        subst hj
        exact absurd ⟨he.symm, hs.symm⟩ (hvac k r₂ hk)
    · rcases eq_or_ne k i with rfl | hki
      · simp only [update_self, some.injEq, update_of_ne hji] at hj hk
        subst hk
        exact absurd ⟨he, hs⟩ (hvac j r₁ hj)
      · simp only [update_of_ne hji, update_of_ne hki] at hj hk
        exact h.inj j k r₁ r₂ hj hk he hs

theorem FreeInv.install (h : FreeInv classes extents P) (hi : P i = none)
    (hb : (extents r.extent).cls = some r.cls) (ht : (classes r.cls).Took x r.extent r.slot) :
    FreeInv (update classes r.cls x) extents (update P i (some r)) where
  rotation := forall_update (Q := fun _ (z : SizeClass) => z.RotationOk) h.rotation ht.rotation
  mem_iff c' e' s' := by
    have hold := h.mem_iff c' e' s'
    rw [vacant_insert hi]
    rcases eq_or_ne c' r.cls with rfl | hc
    · have hper : x.slotsPerExtent = (classes r.cls).slotsPerExtent :=
        (congrArg slotsPerExtent ht.base :)
      rw [update_self, ht.mem_iff (h.rotation _), hold, hper]
      simp only [and_assoc, eq_comm]
    · rw [update_of_ne hc, hold]
      constructor
      · rintro ⟨h1, h2, h3⟩
        refine ⟨h1, h2, h3, fun hv => hc ?_⟩
        rw [← hv.1, hb, some.injEq] at h1
        exact h1.symm
      · rintro ⟨h1, h2, h3, -⟩
        exact ⟨h1, h2, h3⟩

theorem RingInv.install (h : RingInv L classes g extents P) (hi : P i = none)
    (hx : x.ring = (linkBeforeHand (L.cls.clear i) (classes r.cls).ring i).2)
    (hy : y.residentHead = some i) :
    RingInv
      { cls := (linkBeforeHand (L.cls.clear i) (classes r.cls).ring i).1
        global := (linkBeforeHand (L.global.clear i) g i).1
        extent := (L.extent.clear i).pushFront (extents r.extent).residentHead i }
      (update classes r.cls x) (linkBeforeHand (L.global.clear i) g i).2
      (update extents r.extent y) (update P i (some r)) where
  cls := by
    have hl := h.cls.link (x := i) (by simp [hi]) r.cls
    rw [comp_update SizeClass.ring, hx, comp_update (Option.map SlotRef.cls)]
    exact hl
  global := by
    have hl := h.global.link (x := i) (by simp [hi]) 0
    rw [comp_update (Option.map fun _ : SlotRef => 0)]
    simpa using hl
  extent := by
    have hl := h.extent.pushFront (x := i) (by simp [hi]) r.extent
    rw [comp_update ExtentMeta.residentHead, hy, comp_update (Option.map SlotRef.extent)]
    exact hl

/-- The class counters after the record `z` at `i` became `z'`, a change of class `c`. -/
theorem ClassCounts.move {z z' : Option SlotMeta} (h : ∀ c, ClassCounts o n R extents c (classes c))
    (hn : ∀ w, tally n' R w = tally n R w) (hi : i < n') (hR : R i = z) (hlt : e < o.numExtents)
    (hz : z.elim c (·.ref.cls) = c) (hz' : z'.elim c (·.ref.cls) = c)
    (hres : Moves one z z' (classes c).residentCount x.residentCount)
    (huse : Moves (·.usefulBytes) z z' (classes c).usefulBytes x.usefulBytes)
    (hprot : Moves retainWeight z z' (classes c).protectedSlots x.protectedSlots)
    (hframe : ∀ e', e' ≠ e → x.freeByExt e' = (classes c).freeByExt e')
    (hcount : x.freeCount + ((classes c).freeByExt e).length =
      (classes c).freeCount + (x.freeByExt e).length)
    (hbound : x.boundExtents = (classes c).boundExtents) (hcls : y.cls = (extents e).cls)
    (c' : Nat) :
    ClassCounts o n' (update R i z') (update extents e y) c' (update classes c x c') where
  resident := (hres.update residentCount (·.ref.cls) hz hz' c').tally hi hR
    ((h c').resident.trans (hn _).symm)
  useful := (huse.update usefulBytes (·.ref.cls) hz hz' c').tally hi hR
    ((h c').useful.trans (hn _).symm)
  prot := (hprot.update protectedSlots (·.ref.cls) hz hz' c').tally hi hR
    ((h c').prot.trans (hn _).symm)
  free := ClassCounts.free_update h hlt hframe hcount c'
  boundExtents := by
    rw [funext (proj_update ExtentMeta.cls hcls)]
    exact (proj_update SizeClass.boundExtents hbound c').trans (h c').boundExtents

/-- The extent counters after the record `z` at `i` became `z'`, a change of extent `e`. -/
theorem ExtentCounts.move {z z' : Option SlotMeta} {wrapped : Bool}
    (h : ∀ e, ExtentCounts wrapped n R e (extents e))
    (hn : ∀ w, tally n' R w = tally n R w) (hi : i < n') (hR : R i = z)
    (hz : z.elim e (·.ref.extent) = e) (hz' : z'.elim e (·.ref.extent) = e)
    (hres : Moves one z z' (extents e).residentCount y.residentCount)
    (huse : Moves (·.usefulBytes) z z' (extents e).usefulBytes y.usefulBytes)
    (hacc : Moves (·.accessSeq) z z' (extents e).accessSeqSum y.accessSeqSum)
    (hpin : Moves pinWeight z z' (extents e).pinned y.pinned)
    (hprot : Moves retainWeight z z' (extents e).protectedSlots y.protectedSlots) (e' : Nat) :
    ExtentCounts wrapped n' (update R i z') e' (update extents e y e') where
  resident := (hres.update ExtentMeta.residentCount (·.ref.extent) hz hz' e').tally hi hR
    ((h e').resident.trans (hn _).symm)
  useful := (huse.update ExtentMeta.usefulBytes (·.ref.extent) hz hz' e').tally hi hR
    ((h e').useful.trans (hn _).symm)
  access := (hacc.update ExtentMeta.accessSeqSum (·.ref.extent) hz hz' e').tally hi hR
    ((h e').access.trans (hn _).symm)
  pinned := (hpin.update ExtentMeta.pinned (·.ref.extent) hz hz' e').covers hi hR
    (hn _ ▸ (h e').pinned)
  prot := (hprot.update ExtentMeta.protectedSlots (·.ref.extent) hz hz' e').tally hi hR
    ((h e').prot.trans (hn _).symm)

end Parts

/-! ## Admission -/

/-- A record ready to be published in slot `(m.ref.extent, m.ref.slot)`. -/
structure Fits (a : SlabAllocator) (m : SlotMeta) : Prop where
  size_eq : m.ref.slotSize = (a.classes m.ref.cls).slotSize
  offset_eq : m.ref.offset = m.ref.slot * m.ref.slotSize
  live : m.live = true
  refs : m.refs = 0
  retain : m.retainUntil = 0
  useful_le : m.usefulBytes ≤ m.ref.slotSize
  access_le : m.accessSeq ≤ a.activitySeq

/-- The state in which `Put` and `RestoreBulk` publish `m`: its slot is taken from the free lists of
its class (now `x`) and a fresh record is acquired. -/
def SlabAllocator.publish (a : SlabAllocator) (x : SizeClass) (m : SlotMeta) : SlabAllocator :=
  (({ a with classes := update a.classes m.ref.cls x } : SlabAllocator).acquire
    ).installResident (acquireIndex a.table) m

theorem SlabAllocator.res_publish {x : SizeClass} (h : Inv a) (hl : m.live) :
    (a.publish x m).res = update a.res (acquireIndex a.table) (some m) := by
  have ha := h.index.acquire
  have hres := resident_update (acquireSlotMeta a.table) (acquireIndex a.table) m
  rw [ha.resident, hl] at hres
  exact hres

theorem Inv.publish {x : SizeClass} (h : Inv a) (hf : Fits a m)
    (ht : (a.classes m.ref.cls).Took x m.ref.extent m.ref.slot)
    (hk : a.index.find m.key = none) : Inv (a.publish x m) := by
  have ha := h.index.acquire
  obtain ⟨hb, hslot, hvac⟩ := (h.free.mem_iff _ _ _).mp ht.mem
  have hfresh : placeOf a.res (acquireIndex a.table) = none := by
    simp only [placeOf, map_eq_none_iff]
    exact ha.fresh
  have hres := res_publish (x := x) h hf.live
  have hplace : placeOf (a.publish x m).res =
      update (placeOf a.res) (acquireIndex a.table) (some m.ref) := by
    rw [hres, placeOf_update]
    rfl
  have htally (w : SlotMeta → Nat) :
      tally (a.publish x m).table.size (a.publish x m).res w =
        tally a.table.size a.res w + w m := by
    rw [hres]
    exact (tally_insert ha.lt ha.fresh).trans (congrArg (· + w m) (ha.tally_eq w))
  -- the class update of `popFree` is overwritten by the one of `installResident`
  have hring : x.ring = (a.classes m.ref.cls).ring := (congrArg SizeClass.ring ht.base :)
  have hclasses : (a.publish x m).classes = update a.classes m.ref.cls
      (x.addResident (linkBeforeHand (a.links.cls.clear (acquireIndex a.table))
        (a.classes m.ref.cls).ring (acquireIndex a.table)).2 m) := by
    simp [SlabAllocator.publish, acquire, installResident, hring]
  have hs : ∀ c, ((a.publish x m).classes c).slotSize = (a.classes c).slotSize := by
    rw [hclasses]
    exact proj_update _ (congrArg slotSize ht.base :)
  have hp : ∀ c, ((a.publish x m).classes c).slotsPerExtent = (a.classes c).slotsPerExtent := by
    rw [hclasses]
    exact proj_update _ (congrArg slotsPerExtent ht.base :)
  have hcls : ∀ e, ((a.publish x m).extents e).cls = (a.extents e).cls := proj_update _ rfl
  refine
    { geometry := h.geometry.congr hs hp
      index := h.index.install ha hk hf.live
      place := ?_, free := ?_, ring := ?_, bound := ?_, clsCounts := ?_, extCounts := ?_
      counts := ?_, records := ?_, retain := h.retain }
  · rw [hplace]
    exact (h.place.install ⟨hb, hslot, hf.size_eq, hf.offset_eq⟩ hvac).congr hs hp hcls
  · rw [hplace, hclasses]
    exact (h.free.install hfresh hb ht).congr (proj_update_congr _ rfl) (proj_update_congr _ rfl)
      (proj_update_congr _ rfl) hcls
  · have hr := h.ring.install (r := m.ref) (i := acquireIndex a.table)
      (y := (a.extents m.ref.extent).addResident (acquireIndex a.table) m) hfresh
      (show (x.addResident _ m).ring = _ from rfl) rfl
    rw [hplace, hclasses]
    simpa [SlabAllocator.publish, acquire, installResident, hring] using hr
  · rw [hclasses]
    refine h.bound.refill hb (congrArg slotsPerExtent ht.base :) ht.frame hb rfl ?_
    have hlen := ht.length_add_one
    show (a.extents m.ref.extent).freeSlots - 1 = (x.freeByExt m.ref.extent).length
    rw [h.bound.freeSlots _ _ hb]
    omega
  · rw [hclasses, hres]
    have hlt := (h.bound.lt _ _ hb).1
    have hlen := ht.length_add_one
    have hle := (h.clsCounts m.ref.cls).length_le hlt
    refine ClassCounts.move h.clsCounts ha.tally_eq ha.lt ha.fresh hlt rfl rfl ?_ ?_ ?_ ht.frame ?_
      (congrArg SizeClass.boundExtents ht.base :) rfl
    · simp [Moves, addResident, one, (congrArg residentCount ht.base :)]
    · simp [Moves, addResident, (congrArg usefulBytes ht.base :)]
    · simp [Moves, addResident, retainWeight, hf.retain, (congrArg protectedSlots ht.base :)]
    · simp only [addResident, ht.count]
      omega
  · rw [hres]
    refine ExtentCounts.move h.extCounts ha.tally_eq ha.lt ha.fresh rfl rfl rfl rfl rfl ?_ ?_
    · simp [Moves, ExtentMeta.addResident, pinWeight, hf.refs]
    · simp [Moves, ExtentMeta.addResident, retainWeight, hf.retain]
  · have hg := h.counts
    refine ⟨?_, ?_, ?_⟩
    · rw [htally, ← hg.used]
      rfl
    · rw [htally, ← hg.protBytes, retainBytes, if_pos hf.retain]
      rfl
    · rw [htally, ← hg.protSlots, retainWeight, if_pos hf.retain]
      rfl
  · intro j n hj
    rw [hres] at hj
    rcases eq_or_ne j (acquireIndex a.table) with rfl | hji
    · simp only [update_self, some.injEq] at hj
      exact hj ▸ ⟨hf.useful_le, hf.access_le⟩
    · rw [update_of_ne hji] at hj
      exact h.records j n hj

/-! ## Parts of the invariant with one resident fewer -/

section Parts

variable {o : Options} {n unbound : Nat} {classes : Nat → SizeClass}
  {extents : Nat → ExtentMeta} {P : Nat → Option SlotRef} {R R' : Nat → Option SlotMeta}
  {x : SizeClass} {y : ExtentMeta} {r : SlotRef} {L : SlabLinks} {g : Ring}

theorem vacant_remove (h : PlaceInv classes extents P) (hi : P i = some r) {e' s' : Nat} :
    Vacant (update P i none) e' s' ↔ Vacant P e' s' ∨ r.extent = e' ∧ r.slot = s' := by
  constructor
  · intro hv
    by_cases hr : r.extent = e' ∧ r.slot = s'
    · exact Or.inr hr
    · refine Or.inl fun j r' hj => ?_
      rcases eq_or_ne j i with rfl | hji
      · rw [hi, some.injEq] at hj
        exact hj ▸ hr
      · exact hv j r' (by simpa [hji] using hj)
  · rintro hv j r' hj hrs
    have hji : j ≠ i := by
      rintro rfl
      simp at hj
    rw [update_of_ne hji] at hj
    rcases hv with hv | ⟨he, hs⟩
    · exact hv j r' hj hrs
    · exact hji (h.inj j i r' r hj hi (hrs.1.trans he.symm) (hrs.2.trans hs.symm))

theorem PlaceInv.detach (h : PlaceInv classes extents P) :
    PlaceInv classes extents (update P i none) := by
  have hsub : ∀ j r, update P i none j = some r → P j = some r := by
    intro j r hj
    have hji : j ≠ i := by
      rintro rfl
      simp at hj
    simpa [hji] using hj
  exact ⟨fun j r hj => h.placed j r (hsub j r hj),
    fun j k r r' hj hk => h.inj j k r r' (hsub j r hj) (hsub k r' hk)⟩

theorem FreeInv.detach (h : FreeInv classes extents P) (hp : PlaceInv classes extents P)
    (hi : P i = some r) :
    FreeInv (update classes r.cls ((classes r.cls).pushFree r.extent r.slot)) extents
      (update P i none) := by
  have hr := hp.placed i r hi
  have hnot : r.slot ∉ (classes r.cls).freeByExt r.extent := by
    rw [h.mem_iff]
    exact fun hf => hf.2.2 i r hi ⟨rfl, rfl⟩
  refine ⟨forall_update (Q := fun _ (z : SizeClass) => z.RotationOk) h.rotation
    ((h.rotation r.cls).pushFree hnot), fun c' e' s' => ?_⟩
  have hold := h.mem_iff c' e' s'
  rw [vacant_remove hp hi]
  rcases eq_or_ne c' r.cls with rfl | hc
  · rw [update_self]
    rcases eq_or_ne e' r.extent with rfl | he
    · rw [pushFree_freeByExt_self, List.mem_append, List.mem_singleton, hold]
      constructor
      · rintro (⟨h1, h2, h3⟩ | rfl)
        · exact ⟨h1, h2, Or.inl h3⟩
        · exact ⟨hr.bound, hr.slot_lt, Or.inr ⟨rfl, rfl⟩⟩
      · rintro ⟨h1, h2, h3 | h3⟩
        · exact Or.inl ⟨h1, h2, h3⟩
        · exact Or.inr h3.2.symm
    · rw [pushFree_freeByExt_ne he, hold]
      simp [Ne.symm he, pushFree]
  · rw [update_of_ne hc, hold]
    constructor
    · rintro ⟨h1, h2, h3⟩
      exact ⟨h1, h2, Or.inl h3⟩
    · rintro ⟨h1, h2, h3 | ⟨rfl, -⟩⟩
      · exact ⟨h1, h2, h3⟩
      · rw [hr.bound, some.injEq] at h1
        exact absurd h1.symm hc

theorem ringAfterFree_eq {L : Links} {c : Nat} (ring : Nat → Ring) {grp : Nat → Option Nat}
    (hx : x.ring = ring c) (h : RingFamily L ring grp) (hi : grp i = some c)
    (hempty : x.residentCount - 1 = 0 → ∀ j, update grp i none j ≠ some c) :
    ringAfterFree L x i = (unlinkRing L x.ring i).2 := by
  unfold ringAfterFree
  split
  · rename_i h0
    obtain ⟨s, hs, hmem⟩ := h.unlink hi c
    have hnil : s = [] := List.eq_nil_iff_forall_not_mem.mpr fun j hj =>
      hempty h0 j ((hmem j).mp hj)
    rw [update_self, ← hx] at hs
    have hhand := hs.hand_eq_none.mpr hnil
    cases hr : (unlinkRing L x.ring i).2
    simp_all
  · rfl

theorem RingInv.detach (h : RingInv L classes g extents P) (hi : P i = some r)
    (hx : x.ring = (unlinkRing L.cls (classes r.cls).ring i).2)
    (hy : y.residentHead = L.extent.headUnlink (extents r.extent).residentHead i) :
    RingInv
      { cls := (unlinkRing L.cls (classes r.cls).ring i).1.clear i
        global := (unlinkRing L.global g i).1.clear i
        extent := (L.extent.unlink i).clear i }
      (update classes r.cls x) (unlinkRing L.global g i).2
      (update extents r.extent y) (update P i none) where
  cls := by
    have hl := h.cls.unlink (x := i) (c := r.cls) (by simp [hi])
    rw [comp_update SizeClass.ring, hx, comp_update (Option.map SlotRef.cls)]
    exact hl
  global := by
    have hl := h.global.unlink (x := i) (c := 0) (by simp [hi])
    rw [comp_update (Option.map fun _ : SlotRef => 0)]
    simpa using hl
  extent := by
    have hl := h.extent.unlink (x := i) (c := r.extent) (by simp [hi])
    rw [comp_update ExtentMeta.residentHead, hy, comp_update (Option.map SlotRef.extent)]
    exact hl

end Parts

/-! ## Freeing a slot -/

theorem SlabAllocator.res_detachResident (i : Nat) :
    (a.detachResident i).res = update a.res i none :=
  resident_update a.table i { freeNext := a.table.freeHead }

theorem Inv.detachResident (h : Inv a) (hm : a.res i = some m) (h0 : m.retainUntil = 0) :
    Inv (a.detachResident i) := by
  have hi := h.lt_size hm
  have hb := (h.placed hm).bound
  have hP : placeOf a.res i = some m.ref := placeOf_eq_some.mpr ⟨m, hm, rfl⟩
  have hres := res_detachResident (a := a) i
  have hplace : placeOf (a.detachResident i).res = update (placeOf a.res) i none := by
    rw [hres, placeOf_update]
    rfl
  have htally (w : SlotMeta → Nat) :
      tally a.table.size (a.detachResident i).res w + w m = tally a.table.size a.res w := by
    have hrem := tally_remove (w := w) hi hm
    have hle := le_tally (w := w) hi hm
    rw [hres]
    omega
  obtain rfl := Inv.slots_eq hm
  have hring : ringAfterFree a.links.cls (a.classes (a.slots i).ref.cls) i =
      (unlinkRing a.links.cls (a.classes (a.slots i).ref.cls).ring i).2 := by
    refine ringAfterFree_eq (fun c => (a.classes c).ring) rfl h.ring.cls
      (by simp [hP]) fun hlast j hj => ?_
    -- the class counter says that no other resident of the class is left
    have hji : j ≠ i := by
      rintro rfl
      simp at hj
    rw [update_of_ne hji, map_eq_some_iff] at hj
    obtain ⟨r, hr, hc⟩ := hj
    obtain ⟨n, hn, rfl⟩ := placeOf_eq_some.mp hr
    have hone := le_tally (R := (a.detachResident i).res)
      (w := inClass (a.slots i).ref.cls one) (h.lt_size hn) (by rw [hres]; simpa [hji] using hn)
    have hcount := htally (inClass (a.slots i).ref.cls one)
    rw [← (h.clsCounts _).resident] at hcount
    simp only [inClass, hc, one, if_true] at hone hcount
    omega
  have hs : ∀ c, ((a.detachResident i).classes c).slotSize = (a.classes c).slotSize :=
    proj_update _ rfl
  have hp : ∀ c, ((a.detachResident i).classes c).slotsPerExtent = (a.classes c).slotsPerExtent :=
    proj_update _ rfl
  have hcls : ∀ e, ((a.detachResident i).extents e).cls = (a.extents e).cls := proj_update _ rfl
  refine
    { geometry := h.geometry.congr hs hp
      index := h.index.detach hm
      place := ?_, free := ?_, ring := ?_, bound := ?_
      clsCounts := ?_, extCounts := ?_
      counts := ?_, records := ?_, retain := h.retain }
  · rw [hplace]
    exact (h.place.detach).congr hs hp hcls
  · rw [hplace]
    exact (h.free.detach h.place hP).congr (proj_update_congr _ rfl) (proj_update_congr _ rfl)
      (proj_update_congr _ rfl) hcls
  · rw [hplace]
    exact h.ring.detach hP hring rfl
  · refine h.bound.refill hb rfl (fun e' he' => pushFree_freeByExt_ne he') hb rfl ?_
    show (a.extents _).freeSlots + 1 = (((a.classes _).pushFree _ _).freeByExt _).length
    rw [h.bound.freeSlots _ _ hb, pushFree_freeByExt_self, List.length_append]
    rfl
  · have hone := h.weight_le hm (h.clsCounts (a.slots i).ref.cls).resident
    have hbytes := h.weight_le hm (h.clsCounts (a.slots i).ref.cls).useful
    simp only [inClass, one, if_true] at hone hbytes
    rw [hres]
    refine ClassCounts.move h.clsCounts (fun _ => rfl) hi hm (h.ref_lt hm).1 rfl rfl ?_ ?_ ?_
      (fun e' he' => pushFree_freeByExt_ne he') ?_ rfl rfl
    · exact Nat.sub_add_cancel hone
    · exact Nat.sub_add_cancel hbytes
    · simp [Moves, dropResident, pushFree, retainWeight, h0]
    · simp [dropResident, pushFree]
      omega
  · have hone := h.weight_le hm (h.extCounts (a.slots i).ref.extent).resident
    have hbytes := h.weight_le hm (h.extCounts (a.slots i).ref.extent).useful
    have hacc := h.weight_le hm (h.extCounts (a.slots i).ref.extent).access
    have hpin := h.pinWeight_le hm
    simp only [inExtent, one, if_true] at hone hbytes hacc hpin
    rw [hres]
    refine ExtentCounts.move h.extCounts (fun _ => rfl) hi hm rfl rfl (Nat.sub_add_cancel hone)
      (Nat.sub_add_cancel hbytes) (Nat.sub_add_cancel hacc) ?_ ?_
    · simp only [Moves, ExtentMeta.dropResident, elim_some, elim_none, pinWeight]
        at hpin ⊢
      split at hpin <;> split <;> omega
    · simp [Moves, ExtentMeta.dropResident, retainWeight, h0]
  · have hg := h.counts
    have h1 := htally (·.ref.slotSize)
    have h2 := htally retainBytes
    have h3 := htally retainWeight
    rw [← hg.used] at h1
    rw [← hg.protBytes, retainBytes, if_pos h0] at h2
    rw [← hg.protSlots, retainWeight, if_pos h0] at h3
    exact ⟨Nat.sub_eq_of_eq_add h1.symm, h2.symm, h3.symm⟩
  · intro j n hj
    have hji : j ≠ i := by
      rintro rfl
      simp [hres] at hj
    rw [hres, update_of_ne hji] at hj
    exact h.records j n hj

theorem Inv.extent_ne_of_full (h : Inv a) (he : (a.extents e).cls = some c)
    (hfull : (a.extents e).freeSlots = (a.extents e).totalSlots) {j : Nat} {n : SlotMeta}
    (hn : a.res j = some n) : n.ref.extent ≠ e := by
  intro hne
  have hpl := h.placed hn
  have hc : n.ref.cls = c := by
    have hb := hpl.bound
    rw [hne, he, some.injEq] at hb
    exact hb.symm
  rw [h.bound.freeSlots e c he, h.bound.totalSlots e c he] at hfull
  -- a duplicate-free list of that length contains every slot of the extent
  have hsub : (a.classes c).freeByExt e ⊆ List.range (a.classes c).slotsPerExtent := by
    intro s hs
    exact List.mem_range.mpr ((h.free.mem_iff c e s).mp hs).2.1
  have hperm := (((h.free.rotation c).nodup e).subperm hsub).perm_of_length_le (by simp [hfull])
  have hslot : n.ref.slot ∈ (a.classes c).freeByExt e :=
    hperm.mem_iff.mpr (List.mem_range.mpr (hc ▸ hpl.slot_lt))
  exact ((h.free.mem_iff c e _).mp hslot).2.2 j n.ref (placeOf_eq_some.mpr ⟨n, hn, rfl⟩)
    ⟨hne, rfl⟩

theorem Inv.returnIdleExtent (h : Inv a) (he : (a.extents e).cls = some c) :
    Inv (a.returnIdleExtent c e) := by
  unfold SlabAllocator.returnIdleExtent
  split
  · rename_i hidle
    exact (h.unbindExtent he fun j n hn => h.extent_ne_of_full he hidle.1 hn).quiet le_rfl rfl
  · exact h

theorem SlabAllocator.res_returnIdleExtent : (a.returnIdleExtent c e).res = a.res := by
  unfold returnIdleExtent
  split <;> rfl

theorem Inv.unprotectIfRetained (h : Inv a) (hm : a.res i = some m) :
    Inv (a.unprotectIfRetained i) ∧ (a.unprotectIfRetained i).res =
        update a.res i (some { m with retainUntil := 0 }) := by
  have hs := Inv.slots_eq hm
  unfold SlabAllocator.unprotectIfRetained
  by_cases h0 : (a.slots i).retainUntil = 0
  · simp only [h0, ne_eq, not_true_eq_false, if_false]
    refine ⟨h, (update_eq_self_iff.mpr ?_).symm⟩
    rw [hm, ← hs, ← h0]
  · simp only [h0, ne_eq, not_false_eq_true, if_true]
    exact ⟨h.unprotectLocked hm (hs ▸ h0), res_unprotectLocked hm⟩

theorem SlabAllocator.res_freeSlotLocked (h : Inv a) (hm : a.res i = some m) :
    (a.freeSlotLocked i).res = update a.res i none := by
  obtain ⟨-, hres⟩ := h.unprotectIfRetained hm
  unfold freeSlotLocked
  rw [res_returnIdleExtent, res_detachResident, hres, update_idem]

theorem Inv.detachFreed (h : Inv a) (hm : a.res i = some m) :
    Inv ((a.unprotectIfRetained i).detachResident i) := by
  obtain ⟨hb, hres⟩ := h.unprotectIfRetained hm
  exact hb.detachResident (m := { m with retainUntil := 0 }) (by rw [hres, update_self]) rfl

theorem Inv.freeSlotLocked (h : Inv a) (hm : a.res i = some m) : Inv (a.freeSlotLocked i) := by
  obtain ⟨hb, hres⟩ := h.unprotectIfRetained hm
  have hmb : (a.unprotectIfRetained i).res i = some { m with retainUntil := 0 } := by
    rw [hres, update_self]
  have hbound := (hb.placed hmb).bound
  rw [← Inv.slots_eq hm] at hbound
  exact (h.detachFreed hm).returnIdleExtent
    ((proj_update ExtentMeta.cls (by rfl) _).trans hbound)

end DingoCache.Slab
