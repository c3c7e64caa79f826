import DingoCache.Slab.Records

/-!
# Binding Extents and Moving Hands

State changes that leave the residents as they are:

- `Inv.advanceClassHand`, `Inv.advanceGlobalHand`: sweep progress.
- `Inv.bindExtent`, `Inv.unbindExtent`: an extent without residents enters or
  leaves a class.
-/

namespace DingoCache.Slab

open Library SlabAllocator
open Function (update update_of_ne update_self)

variable {a a' : SlabAllocator} {i c e : Nat} {m : SlotMeta}

/-! ## Frames -/

theorem forall_update {α : Type} {g : Nat → α} {v : α} {Q : Nat → α → Prop}
    (h : ∀ j, Q j (g j)) (hv : Q c v) (j : Nat) : Q j (update g c v j) := by
  rcases eq_or_ne j c with rfl | hj
  · simpa using hv
  · simpa [hj] using h j

theorem Inv.frame (h : Inv a) (hseq : a.activitySeq ≤ a'.activitySeq)
    (hret : RetainOk a'.retention.opt a'.retention.wheel)
    (heq : a' = { a with
      stats := a'.stats, putSeq := a'.putSeq, activitySeq := a'.activitySeq, env := a'.env
      retention := { a'.retention with
        protectedBytes := a.retention.protectedBytes
        protectedSlots := a.retention.protectedSlots } }) : Inv a' := by
  rw [heq] at hseq hret ⊢
  exact
    { geometry := h.geometry, index := h.index, place := h.place, free := h.free, ring := h.ring
      bound := h.bound, clsCounts := h.clsCounts, extCounts := h.extCounts, counts := h.counts
      records := fun i m hm => (h.records i m hm).mono hseq, retain := hret }

theorem Inv.quiet (h : Inv a) (hseq : a.activitySeq ≤ a'.activitySeq) (heq : a' = { a with
      stats := a'.stats, putSeq := a'.putSeq, activitySeq := a'.activitySeq, env := a'.env }) :
    Inv a' := by
  have hret : a'.retention = a.retention := by rw [heq]
  refine h.frame hseq (hret ▸ h.retain) ?_
  rw [hret]
  exact heq

/-! ## Hands -/

theorem Inv.sweep_spec (h : Inv a) (hh : (a.classes c).ring.hand.or (a.classes c).ring.head =
    some i) :
    ∃ m, a.res i = some m ∧ m.ref.cls = c := by
  have hg := h.ring.cls.hand_spec hh
  simpa [placeOf] using hg

theorem Inv.advanceClassHand (h : Inv a)
    (hh : (a.classes c).ring.hand.or (a.classes c).ring.head = some i) :
    Inv (a.advanceClassHand c i) where
  geometry := h.geometry.congr (proj_update _ rfl) (proj_update _ rfl)
  index := h.index
  place := h.place.congr (proj_update _ rfl) (proj_update _ rfl) fun _ => rfl
  free := h.free.congr (proj_update _ rfl) (proj_update _ rfl) (proj_update _ rfl) fun _ => rfl
  ring :=
    { cls := by
        rw [SlabAllocator.advanceClassHand, comp_update SizeClass.ring]
        exact h.ring.cls.advance hh
      global := h.ring.global
      extent := h.ring.extent }
  bound := h.bound.congr (proj_update _ rfl) (proj_update _ rfl) (fun _ => rfl) (fun _ => rfl)
    (fun _ => rfl) fun _ _ => rfl
  clsCounts := forall_update h.clsCounts
    ⟨(h.clsCounts c).resident, (h.clsCounts c).useful, (h.clsCounts c).prot, (h.clsCounts c).free,
      (h.clsCounts c).boundExtents⟩
  extCounts := h.extCounts
  counts := h.counts
  records := h.records
  retain := h.retain

theorem Inv.globalHand_spec (h : Inv a) (hh : a.globalRing.hand = some i) :
    ∃ m, a.res i = some m := by
  have hg := h.ring.global.hand_spec (c := 0) (x := i) (by simp [hh])
  simpa [placeOf] using hg

theorem Inv.advanceGlobalHand (h : Inv a) (hh : a.globalRing.hand = some i) :
    Inv (a.advanceGlobalHand i) :=
  { h with
    ring :=
      { cls := h.ring.cls
        global := by
          have hg := h.ring.global.advance (c := 0) (x := i) (by simp [hh])
          simpa [SlabAllocator.advanceGlobalHand, res] using hg
        extent := h.ring.extent } }

/-! ## Binding -/

theorem Inv.freeByExt_eq_nil (h : Inv a) (he : (a.extents e).cls = none) (c : Nat) :
    (a.classes c).freeByExt e = [] := by
  refine List.eq_nil_iff_forall_not_mem.mpr fun s hs => ?_
  simpa [he] using ((h.free.mem_iff c e s).mp hs).1

theorem Inv.extent_ne_of_unbound (h : Inv a) (he : (a.extents e).cls = none)
    (hm : a.res i = some m) : m.ref.extent ≠ e := by
  rintro rfl
  simpa [he] using (h.placed hm).bound

theorem PlaceInv.extent_update {classes : Nat → SizeClass} {extents : Nat → ExtentMeta}
    {P : Nat → Option SlotRef} {x : ExtentMeta} (h : PlaceInv classes extents P)
    (he : ∀ i r, P i = some r → r.extent ≠ e) :
    PlaceInv classes (update extents e x) P where
  placed i r hr :=
    have hp := h.placed i r hr
    ⟨by simpa [he i r hr] using hp.bound, hp.slot_lt, hp.size_eq, hp.offset_eq⟩
  inj := h.inj

theorem ExtentCounts.empty {wrapped : Bool} {n : Nat} {R : Nat → Option SlotMeta} {x : ExtentMeta}
    (he : ∀ i m, R i = some m → m.ref.extent ≠ e) (hr : x.residentCount = 0)
    (hu : x.usefulBytes = 0) (ha : x.accessSeqSum = 0) (hp : x.pinned = 0)
    (hs : x.protectedSlots = 0) : ExtentCounts wrapped n R e x := by
  have hzero (w : SlotMeta → Nat) : tally n R (inExtent e w) = 0 :=
    tally_eq_zero fun j m hm => by simp [inExtent, he j m hm]
  exact ⟨by rw [hr, hzero], by rw [hu, hzero], by rw [ha, hzero],
    by rw [hp, hzero]; exact ⟨le_rfl, fun _ => rfl⟩, by rw [hs, hzero]⟩

/-- The free slots of extent `e` are now `l`. -/
structure SizeClass.Refiled (c c' : SizeClass) (e : Nat) (l : List Nat) : Prop where
  rotation : c'.RotationOk
  base : c.SameBase c'
  free : c'.freeByExt = update c.freeByExt e l
  count : c'.freeCount + (c.freeByExt e).length = c.freeCount + l.length

open SizeClass

section Refile

variable {o : Options} {n unbound b : Nat} {classes : Nat → SizeClass} {extents : Nat → ExtentMeta}
  {P : Nat → Option SlotRef} {R : Nat → Option SlotMeta} {x : SizeClass} {y : ExtentMeta}
  {l : List Nat}

/-- An extent without residents enters or leaves class `c`: `y` is its new record and `l` its free
slots. -/
theorem FreeInv.refile (h : FreeInv classes extents P) (hP : ∀ i r, P i = some r → r.extent ≠ e)
    (hx : (classes c).Refiled x e l) (hold : ∀ c', (extents e).cls = some c' → c' = c)
    (hnew : ∀ c', y.cls = some c' → c' = c)
    (hl : ∀ s, s ∈ l ↔ y.cls = some c ∧ s < (classes c).slotsPerExtent) :
    FreeInv (update classes c { x with boundExtents := b }) (update extents e y) P where
  rotation := forall_update (Q := fun _ (z : SizeClass) => z.RotationOk) h.rotation
    ⟨hx.rotation.nodup, hx.rotation.rr_nodup, hx.rotation.rr_mem⟩
  mem_iff c' e' s := by
    have hmem := h.mem_iff c' e' s
    have hper : x.slotsPerExtent = (classes c).slotsPerExtent :=
      (congrArg slotsPerExtent hx.base :)
    -- only the pair `(c, e)` changes
    rcases eq_or_ne c' c with rfl | hc
    · rcases eq_or_ne e' e with rfl | hee
      · have hvac : Vacant P e' s := fun i r hr hv => hP i r hr hv.1
        simp [hx.free, hl, hper, hvac]
      · simpa [hx.free, hee, hper] using hmem
    · rcases eq_or_ne e' e with rfl | hee
      · have hno : s ∉ (classes c').freeByExt e' := fun hs => hc (hold c' (hmem.mp hs).1)
        simpa [hc, hno] using fun hy => absurd (hnew c' hy) hc
      · simpa [hc, hee] using hmem

theorem BoundInv.refile {unbound' : Nat} (h : BoundInv o n classes extents unbound)
    (hper : x.slotsPerExtent = (classes c).slotsPerExtent)
    (hframe : ∀ e', e' ≠ e → x.freeByExt e' = (classes c).freeByExt e')
    (hlt : ∀ c', y.cls = some c' → e < o.numExtents ∧ c' < n)
    (hnew : ∀ c', y.cls = some c' → c' = c) (hdefault : y.cls = none → y = {})
    (hslots : y.cls = some c →
      y.freeSlots = (x.freeByExt e).length ∧ y.totalSlots = (classes c).slotsPerExtent)
    (hunbound : unbound' + tally o.numExtents (update (fun e' => (extents e').cls) e y.cls)
      (fun _ => 1) = o.numExtents) :
    BoundInv o n (update classes c x) (update extents e y) unbound' where
  lt := forall_update (Q := fun e (z : ExtentMeta) => ∀ c, z.cls = some c →
    e < o.numExtents ∧ c < n)
    h.lt hlt
  default := forall_update (Q := fun _ (z : ExtentMeta) => z.cls = none → z = {}) h.default hdefault
  freeSlots e' c' hb := by
    rcases eq_or_ne e' e with rfl | hee
    · rw [update_self] at hb ⊢
      obtain rfl := hnew c' hb
      rw [update_self]
      exact (hslots hb).1
    · simp only [update_of_ne hee] at hb ⊢
      rw [h.freeSlots e' c' hb]
      rcases eq_or_ne c' c with rfl | hcc
      · rw [update_self, hframe e' hee]
      · simp [hcc]
  totalSlots e' c' hb := by
    rw [proj_update slotsPerExtent hper]
    rcases eq_or_ne e' e with rfl | hee
    · rw [update_self] at hb ⊢
      obtain rfl := hnew c' hb
      exact (hslots hb).2
    · simp only [update_of_ne hee] at hb ⊢
      exact h.totalSlots e' c' hb
  unbound_add := by
    rw [comp_update ExtentMeta.cls]
    exact hunbound

theorem BoundInv.refill (h : BoundInv o n classes extents unbound) (hb : (extents e).cls = some c)
    (hper : x.slotsPerExtent = (classes c).slotsPerExtent)
    (hframe : ∀ e', e' ≠ e → x.freeByExt e' = (classes c).freeByExt e') (hcls : y.cls = some c)
    (htotal : y.totalSlots = (extents e).totalSlots)
    (hfree : y.freeSlots = (x.freeByExt e).length) :
    BoundInv o n (update classes c x) (update extents e y) unbound := by
  refine h.refile hper hframe (fun c' hc' => h.lt e c' (hb.trans (hcls.symm.trans hc')))
    (by simp [hcls, eq_comm]) (by simp [hcls])
    (fun _ => ⟨hfree, htotal.trans (h.totalSlots e c hb)⟩) ?_
  rw [hcls, Function.update_eq_self_iff.mpr hb.symm]
  exact h.unbound_add

theorem ClassCounts.length_le (h : ClassCounts o n R extents c x) (hlt : e < o.numExtents) :
    (x.freeByExt e).length ≤ x.freeCount := by
  rw [h.free]
  exact le_sum_range (f := fun e => (x.freeByExt e).length) hlt

theorem ClassCounts.free_update (h : ∀ c, ClassCounts o n R extents c (classes c))
    (hlt : e < o.numExtents) (hframe : ∀ e', e' ≠ e → x.freeByExt e' = (classes c).freeByExt e')
    (hcount : x.freeCount + ((classes c).freeByExt e).length =
      (classes c).freeCount + (x.freeByExt e).length) (c' : Nat) :
    (update classes c x c').freeCount =
      ∑ e ∈ Finset.range o.numExtents, ((update classes c x c').freeByExt e).length := by
  refine forall_update (Q := fun _ (z : SizeClass) =>
    z.freeCount = ∑ e ∈ Finset.range o.numExtents, (z.freeByExt e).length) (fun c =>
      (h c).free) ?_ c'
  have hsum := sum_range_point (f := fun e' => ((classes c).freeByExt e').length)
    (g := fun e' => (x.freeByExt e').length) hlt (fun e' he' => by rw [hframe e' he'])
  have hold := (h c).free
  omega

theorem ClassCounts.refile {n : Nat} (h : ∀ c, ClassCounts o n R extents c (classes c))
    (hlt : e < o.numExtents) (hx : (classes c).Refiled x e l)
    (hb : ∀ c', tally o.numExtents (update (fun e' => (extents e').cls) e y.cls)
      (fun d => if d = c' then 1 else 0) = if c' = c then b else (classes c').boundExtents)
    (c' : Nat) :
    ClassCounts o n R (update extents e y) c'
      (update classes c { x with boundExtents := b } c') := by
  have hold := h c'
  have hbound := hb c'
  rw [← comp_update ExtentMeta.cls] at hbound
  rcases eq_or_ne c' c with rfl | hc
  · have hfree := ClassCounts.free_update (x := x) (c := c') h hlt
      (fun e' he' => by simp [hx.free, he']) (by simpa [hx.free] using hx.count) c'
    rw [update_self] at hfree ⊢
    rw [if_pos rfl] at hbound
    exact ⟨(congrArg residentCount hx.base :).trans hold.resident,
      (congrArg usefulBytes hx.base :).trans hold.useful,
      (congrArg protectedSlots hx.base :).trans hold.prot, hfree, hbound.symm⟩
  · rw [update_of_ne hc]
    rw [if_neg hc] at hbound
    exact ⟨hold.resident, hold.useful, hold.prot, hold.free, hbound.symm⟩

end Refile

/-- The record of extent `e` outside class `c`, or freshly in it, with its free slots. -/
def SizeClass.Files (x : SizeClass) (c : Nat) (y : ExtentMeta) (l : List Nat) : Prop :=
  y = {} ∧ l = [] ∨ l = List.range x.slotsPerExtent ∧
    y = { cls := some c, totalSlots := x.slotsPerExtent, freeSlots := x.slotsPerExtent }

theorem Inv.refile {x : SizeClass} {y : ExtentMeta} {l : List Nat} {b unbound' : Nat} (h : Inv a)
    (hne : ∀ i m, a.res i = some m → m.ref.extent ≠ e) (hx : (a.classes c).Refiled x e l)
    (hy : (a.classes c).Files c y l) (hc : c < a.classCount) (hlt : e < a.opt.numExtents)
    (hold : ∀ c', (a.extents e).cls = some c' → c' = c)
    (hunbound : unbound' + tally a.opt.numExtents
      (update (fun e' => (a.extents e').cls) e y.cls) (fun _ => 1) = a.opt.numExtents)
    (hb : ∀ c', tally a.opt.numExtents (update (fun e' => (a.extents e').cls) e y.cls)
      (fun d => if d = c' then 1 else 0) = if c' = c then b else (a.classes c').boundExtents) :
    Inv { a with
      classes := update a.classes c { x with boundExtents := b }
      extents := update a.extents e y
      unbound := unbound' } := by
  have hP i r (hr : placeOf a.res i = some r) : r.extent ≠ e := by
    obtain ⟨m, hm, rfl⟩ := placeOf_eq_some.mp hr
    exact hne i m hm
  have hs : ∀ c', (update a.classes c { x with boundExtents := b } c').slotSize =
      (a.classes c').slotSize := proj_update _ (congrArg slotSize hx.base :)
  have hp : ∀ c', (update a.classes c { x with boundExtents := b } c').slotsPerExtent =
      (a.classes c').slotsPerExtent := proj_update _ (congrArg slotsPerExtent hx.base :)
  have hhead : y.residentHead = (a.extents e).residentHead := by
    have hnone : (a.extents e).residentHead = none := by
      refine Option.eq_none_iff_forall_ne_some.mpr fun i hi => ?_
      obtain ⟨m, hm, hme⟩ := h.head_spec hi
      exact hne i m hm hme
    rw [hnone]
    rcases hy with ⟨rfl, -⟩ | ⟨-, rfl⟩ <;> rfl
  have hnew : ∀ c', y.cls = some c' → c' = c := by
    rcases hy with ⟨rfl, -⟩ | ⟨-, rfl⟩ <;> simp [eq_comm]
  have hl : ∀ s, s ∈ l ↔ y.cls = some c ∧ s < (a.classes c).slotsPerExtent := by
    rcases hy with ⟨rfl, rfl⟩ | ⟨rfl, rfl⟩ <;> simp
  have hslots : y.cls = some c →
      y.freeSlots = (x.freeByExt e).length ∧ y.totalSlots = (a.classes c).slotsPerExtent := by
    rw [hx.free]
    rcases hy with ⟨rfl, rfl⟩ | ⟨rfl, rfl⟩ <;> simp
  have hdefault : y.cls = none → y = {} := by
    rcases hy with ⟨rfl, -⟩ | ⟨-, rfl⟩ <;> simp
  have hcounts : ExtentCounts a.pinsWrapped a.table.size a.res e y := by
    rcases hy with ⟨rfl, -⟩ | ⟨-, rfl⟩ <;> exact .empty hne rfl rfl rfl rfl rfl
  exact
    { geometry := h.geometry.congr hs hp
      index := h.index
      place := (h.place.congr hs hp fun _ => rfl).extent_update hP
      free := h.free.refile hP hx hold hnew hl
      ring := h.ring.congr (proj_update _ (congrArg SizeClass.ring hx.base :)) (proj_update _ hhead)
      bound := h.bound.refile (congrArg slotsPerExtent hx.base :)
        (fun e' he' => by simp [hx.free, he']) (fun c' hc' => ⟨hlt, hnew c' hc' ▸ hc⟩) hnew hdefault
        hslots hunbound
      clsCounts := ClassCounts.refile h.clsCounts hlt hx hb
      extCounts := forall_update h.extCounts hcounts
      counts := h.counts
      records := h.records
      retain := h.retain }

theorem Inv.bindExtent (h : Inv a) (hc : c < a.classCount) (hlt : e < a.opt.numExtents)
    (he : (a.extents e).cls = none) : Inv (a.bindExtent c e) := by
  have hnil := h.freeByExt_eq_nil he c
  have hx := pushExtent_spec (h.free.rotation c) hnil
  refine h.refile (fun _ _ => h.extent_ne_of_unbound he) ⟨hx.rotation, hx.base, hx.free, ?_⟩
    (.inr ⟨rfl, rfl⟩) hc hlt (by simp [he]) ?_ fun c' => ?_
  · rw [hx.count, hnil, List.length_nil, List.length_range, add_zero]
  · have hsum := h.bound.unbound_add
    have hins := tally_insert (R := fun e' => (a.extents e').cls) (w := fun _ => 1) (m := c) hlt he
    have hle := tally_one_le (n := a.opt.numExtents)
      (R := update (fun e' => (a.extents e').cls) e (some c))
    dsimp only
    omega
  · have hins := tally_insert (R := fun e' => (a.extents e').cls)
      (w := fun d => if d = c' then 1 else 0) (m := c) hlt he
    rw [← (h.clsCounts c').boundExtents] at hins
    by_cases hcc : c' = c
    · simpa [hcc] using hins
    · simpa [hcc, Ne.symm hcc] using hins

theorem Inv.unbindExtent (h : Inv a) (he : (a.extents e).cls = some c)
    (hne : ∀ i m, a.res i = some m → m.ref.extent ≠ e) : Inv (a.unbindExtent c e) := by
  obtain ⟨hlt, hc⟩ := h.bound.lt e c he
  have hx := dropExtentFree_spec (h.free.rotation c) e
  have hle := (h.bound.freeSlots e c he)
  refine h.refile hne ⟨hx.rotation, hx.base, hx.free, ?_⟩ (.inl ⟨rfl, rfl⟩) hc hlt
    (by simp [he, eq_comm]) ?_ fun c' => ?_
  · have hfree := (h.clsCounts c).length_le hlt
    rw [hx.count, List.length_nil]
    omega
  · have hsum := h.bound.unbound_add
    have hrem := tally_remove (R := fun e' => (a.extents e').cls) (w := fun _ => 1) hlt he
    have hle := le_tally (R := fun e' => (a.extents e').cls) (w := fun _ => 1) hlt he
    dsimp only
    omega
  · have hrem := tally_remove (R := fun e' => (a.extents e').cls)
      (w := fun d => if d = c' then 1 else 0) hlt he
    rw [← (h.clsCounts c').boundExtents] at hrem
    by_cases hcc : c' = c
    · simpa [hcc] using hrem
    · simpa [hcc, Ne.symm hcc] using hrem

end DingoCache.Slab
