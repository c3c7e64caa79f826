import DingoCache.Slab.View

/-!
# Runs of the Allocator

- `Inv.new`: a constructed allocator satisfies the invariant.
-/

namespace DingoCache.Slab

open Library List Finset

variable {a : SlabAllocator} {o : Options} {i j c e : Nat} {m m' : SlotMeta}

/-! ## Construction -/

/-- The constructor's lattice: increasing sizes from the alignment up to the largest extent. -/
theorem Options.classSizes_spec (o : Options) (fuel : Nat) : ∀ s,
    (∀ x ∈ o.classSizes fuel s, s ≤ x ∧ x ≤ o.maxAligned) ∧
      (o.classSizes fuel s).Pairwise (· < ·) := by
  induction fuel with
  | zero => simp [Options.classSizes]
  | succ fuel ih =>
    intro s
    unfold Options.classSizes
    split
    · rename_i hle
      split
      · simp [hle]
      · split
        · simp [hle]
        · rename_i hlt
          obtain ⟨hmem, hpw⟩ := ih (o.canonicalSlotSize (s + o.align))
          refine ⟨forall_mem_cons.mpr ⟨⟨le_rfl, hle⟩, fun x hx => ?_⟩,
            pairwise_cons.mpr ⟨fun x hx => ?_, hpw⟩⟩
          · have hx := hmem x hx
            exact ⟨by omega, hx.2⟩
          · have hx := hmem x hx
            omega
    · simp

theorem Options.normalize_align_pos (o : Options) : 0 < o.normalize.align := by
  unfold Options.normalize
  dsimp only
  split <;> omega

theorem new_classes (o : Options) (hc : c < (SlabAllocator.new o).classCount) :
    ∃ s, (o.normalize.classSizes (o.normalize.maxAligned + 1) o.normalize.align)[c]? = some s ∧
      (SlabAllocator.new o).classes c =
        { slotSize := s, slotsPerExtent := o.normalize.extentBytes / s % 2 ^ 32 } := by
  have hlt : c < (o.normalize.classSizes (o.normalize.maxAligned + 1) o.normalize.align).length :=
    hc
  refine ⟨_, List.getElem?_eq_getElem hlt, ?_⟩
  simp only [SlabAllocator.new, List.getElem?_eq_getElem hlt]

theorem Geometry.new (o : Options) : Geometry (SlabAllocator.new o).opt
    (SlabAllocator.new o).classCount (SlabAllocator.new o).classes := by
  obtain ⟨hmem, hpw⟩ := o.normalize.classSizes_spec (o.normalize.maxAligned + 1) o.normalize.align
  have hin : ∀ c, c < (SlabAllocator.new o).classCount →
      o.normalize.align ≤ ((SlabAllocator.new o).classes c).slotSize ∧
        ((SlabAllocator.new o).classes c).slotSize ≤ o.normalize.maxAligned := by
    intro c hc
    obtain ⟨s, hs, heq⟩ := new_classes o hc
    rw [heq]
    exact hmem s (mem_of_getElem? hs)
  refine ⟨o.normalize_align_pos, fun c hc => (hin c hc).1, fun c hc => (hin c hc).2,
    fun c hc => ?_, fun c c' hcc hc' => ?_, ext_getElem? fun c => ?_⟩
  · obtain ⟨s, -, heq⟩ := new_classes o hc
    rw [heq]
    rfl
  · obtain ⟨s, hs, heq⟩ := new_classes o (hcc.trans hc')
    obtain ⟨s', hs', heq'⟩ := new_classes o hc'
    rw [heq, heq']
    obtain ⟨h1, rfl⟩ := List.getElem?_eq_some_iff.mp hs
    obtain ⟨h2, rfl⟩ := List.getElem?_eq_some_iff.mp hs'
    exact pairwise_iff_getElem.mp hpw c c' h1 h2 hcc
  · rw [List.getElem?_map]
    by_cases hc : c < (SlabAllocator.new o).classCount
    · obtain ⟨s, hs, heq⟩ := new_classes o hc
      rw [List.getElem?_range hc, Option.map_some, heq]
      exact hs.symm
    · rw [List.getElem?_eq_none (by simpa using hc), Option.map_none]
      exact (List.getElem?_eq_none (not_lt.mp hc)).symm

theorem new_class_empty (o : Options) (c : Nat) : ∃ s p, (SlabAllocator.new o).classes c =
    { slotSize := s, slotsPerExtent := p } := by
  simp only [SlabAllocator.new]
  split
  · exact ⟨_, _, rfl⟩
  · exact ⟨0, 0, rfl⟩

theorem no_entry {α : Type} {x : α} {P : Prop} (h : (none : Option α) = some x) : P :=
  absurd h (by simp)

theorem Inv.new (o : Options) : Inv (SlabAllocator.new o) where
  geometry := .new o
  index :=
    ⟨fun _ _ => ⟨no_entry, fun h => no_entry h.choose_spec.1⟩, fun _ _ h => no_entry h,
      ⟨[], rfl, nodup_nil, fun _ => ⟨by simp, fun h => absurd h.1 (Nat.not_lt_zero _)⟩⟩, rfl⟩
  place := ⟨fun _ _ h => no_entry h, fun _ _ _ _ h => no_entry h⟩
  free := by
    refine ⟨fun c => ?_, fun c e s => ?_⟩
    · obtain ⟨s, p, heq⟩ := new_class_empty o c
      rw [heq]
      exact ⟨fun _ => nodup_nil, nodup_nil, by simp⟩
    · obtain ⟨s, p, heq⟩ := new_class_empty o c
      rw [heq]
      exact ⟨by simp, fun h => no_entry h.1⟩
  ring := by
    refine ⟨.empty fun c => ?_, .empty fun c => ?_, .empty fun _ => rfl⟩
    · obtain ⟨s, p, heq⟩ := new_class_empty o c
      rw [heq]
    · simp [soloRing, SlabAllocator.new]
  bound := by
    refine ⟨fun _ _ h => no_entry h, fun _ _ => rfl, fun _ _ h => no_entry h,
      fun _ _ h => no_entry h, ?_⟩
    have h0 : tally (SlabAllocator.new o).opt.numExtents
        (fun e => ((SlabAllocator.new o).extents e).cls) (fun _ => 1) = 0 :=
      tally_eq_zero fun _ _ h => no_entry h
    rw [h0]
    rfl
  clsCounts c := by
    obtain ⟨s, p, heq⟩ := new_class_empty o c
    rw [heq]
    exact ⟨(tally_eq_zero fun _ _ h => no_entry h).symm, (tally_eq_zero fun _ _ h =>
      no_entry h).symm,
      (tally_eq_zero fun _ _ h => no_entry h).symm, by simp,
      (tally_eq_zero fun _ _ h => no_entry h).symm⟩
  extCounts e :=
    ⟨(tally_eq_zero fun _ _ h => no_entry h).symm, (tally_eq_zero fun _ _ h => no_entry h).symm,
      (tally_eq_zero fun _ _ h => no_entry h).symm,
      ⟨(tally_eq_zero fun _ _ h => no_entry h).le, fun _ =>
        (tally_eq_zero fun _ _ h => no_entry h).symm⟩,
      (tally_eq_zero fun _ _ h => no_entry h).symm⟩
  counts := ⟨(tally_eq_zero fun _ _ h => no_entry h).symm,
    (tally_eq_zero fun _ _ h => no_entry h).symm, (tally_eq_zero fun _ _ h => no_entry h).symm⟩
  records := fun _ _ h => no_entry h
  retain := ⟨fun h => absurd h Bool.false_ne_true, fun _ _ h => absurd h not_mem_nil⟩

theorem SlabAllocator.Reachable.inv (h : SlabAllocator.Reachable o a) : Inv a := by
  induction h with
  | new => exact .new o
  | step outcomes op _ ih => exact (step_spec ih outcomes op).inv

/-! ## Consistency -/

/-- The sum of `w` over the live records. -/
def SlabAllocator.liveSum (a : SlabAllocator) (w : SlotMeta → Nat) : Nat :=
  ∑ i ∈ Finset.range a.table.size, if (a.slots i).live then w (a.slots i) else 0

/-- The counters of class `c` are the sums they stand for. -/
structure SlabAllocator.ClassSums (a : SlabAllocator) (c : Nat) : Prop where
  resident : (a.classes c).residentCount = a.liveSum fun m => if m.ref.cls = c then 1 else 0
  useful : (a.classes c).usefulBytes = a.liveSum fun m => if m.ref.cls = c then m.usefulBytes else 0
  prot : (a.classes c).protectedSlots =
    a.liveSum fun m => if m.ref.cls = c ∧ m.retainUntil ≠ 0 then 1 else 0
  free : (a.classes c).freeCount =
    ∑ e ∈ Finset.range a.opt.numExtents, ((a.classes c).freeByExt e).length
  boundExtents : (a.classes c).boundExtents =
    ((Finset.range a.opt.numExtents).filter fun e => (a.extents e).cls = some c).card

/-- The counters of extent `e` are the sums they stand for. -/
structure SlabAllocator.ExtentSums (a : SlabAllocator) (e : Nat) : Prop where
  resident : (a.extents e).residentCount = a.liveSum fun m => if m.ref.extent = e then 1 else 0
  useful : (a.extents e).usefulBytes =
    a.liveSum fun m => if m.ref.extent = e then m.usefulBytes else 0
  access : (a.extents e).accessSeqSum =
    a.liveSum fun m => if m.ref.extent = e then m.accessSeq else 0
  pinned : (a.extents e).pinned = a.liveSum fun m => if m.ref.extent = e ∧ m.refs ≠ 0 then 1 else 0
  prot : (a.extents e).protectedSlots =
    a.liveSum fun m => if m.ref.extent = e ∧ m.retainUntil ≠ 0 then 1 else 0
  freeSlots : ∀ c, (a.extents e).cls = some c →
    (a.extents e).freeSlots = ((a.classes c).freeByExt e).length

/-- The allocator-wide counters are the sums they stand for. -/
structure SlabAllocator.TotalSums (a : SlabAllocator) : Prop where
  used : a.usedBytes = a.liveSum (·.ref.slotSize)
  protBytes : a.retention.protectedBytes =
    a.liveSum fun m => if m.retainUntil ≠ 0 then m.ref.slotSize else 0
  protSlots : a.retention.protectedSlots = a.liveSum fun m => if m.retainUntil ≠ 0 then 1 else 0
  unbound : a.unbound =
    ((Finset.range a.opt.numExtents).filter fun e => (a.extents e).cls = none).card

/-- The allocator's data structures describe one set of residents. -/
structure SlabAllocator.Consistent (a : SlabAllocator) : Prop where
  /-- The index maps a key to `i` exactly when record `i` is live and has that key. -/
  index : ∀ k i, a.index.find k = some i ↔ (a.slots i).live = true ∧ (a.slots i).key = k
  /-- A resident lies inside an extent bound to its class. -/
  inside : ∀ i, (a.slots i).live = true → (a.slots i).ref.extent < a.opt.numExtents ∧
    (a.extents (a.slots i).ref.extent).cls = some (a.slots i).ref.cls ∧
    (a.slots i).ref.offset + (a.slots i).ref.slotSize ≤ a.opt.extentBytes
  /-- Two residents of one extent occupy disjoint byte ranges. -/
  disjoint : ∀ i j, (a.slots i).live = true → (a.slots j).live = true → i ≠ j →
    (a.slots i).ref.extent = (a.slots j).ref.extent →
    (a.slots i).ref.offset + (a.slots i).ref.slotSize ≤ (a.slots j).ref.offset ∨
      (a.slots j).ref.offset + (a.slots j).ref.slotSize ≤ (a.slots i).ref.offset
  /-- Free slots and residents of a bound extent partition its slots. -/
  partition : ∀ e c, (a.extents e).cls = some c → ((a.classes c).freeByExt e).Nodup ∧
    (∀ i j, (a.slots i).live = true → (a.slots j).live = true →
      (a.slots i).ref.extent = e → (a.slots j).ref.extent = e →
      (a.slots i).ref.slot = (a.slots j).ref.slot → i = j) ∧
    (∀ s, s < (a.classes c).slotsPerExtent ↔ s ∈ (a.classes c).freeByExt e ∨
      ∃ i, (a.slots i).live = true ∧ (a.slots i).ref.extent = e ∧ (a.slots i).ref.slot = s) ∧
    ∀ i, (a.slots i).live = true → (a.slots i).ref.extent = e →
      (a.slots i).ref.slot ∉ (a.classes c).freeByExt e
  classRing : ∀ c, RingOf a.links.cls (a.classes c).ring fun i =>
    (a.slots i).live = true ∧ (a.slots i).ref.cls = c
  globalRing : RingOf a.links.global a.globalRing fun i => (a.slots i).live = true
  extentList : ∀ e, ∃ l : List Nat, IsList a.links.extent (a.extents e).residentHead l ∧
    l.Nodup ∧ ∀ i, i ∈ l ↔ (a.slots i).live = true ∧ (a.slots i).ref.extent = e
  classSums : ∀ c, a.ClassSums c
  extentSums : ∀ e, a.ExtentSums e
  totals : a.TotalSums

theorem SlabAllocator.tally_eq_liveSum (a : SlabAllocator) {w w' : SlotMeta → Nat}
    (hw : ∀ m, w m = w' m) : tally a.table.size a.res w = a.liveSum w' := by
  refine sum_congr rfl fun i _ => ?_
  by_cases hl : (a.slots i).live
  · rw [Inv.res_eq_some.mpr ⟨hl, rfl⟩, if_pos hl, Option.elim_some, hw]
  · have hnone : a.res i = none := if_neg hl
    rw [hnone, if_neg hl, Option.elim_none]

theorem placeOf_live (hl : (a.slots i).live) : placeOf a.res i = some (a.slots i).ref :=
  placeOf_eq_some.mpr ⟨_, Inv.res_eq_some.mpr ⟨hl, rfl⟩, rfl⟩

theorem slot_end_le {s t z : Nat} (h : s < t) : s * z + z ≤ t * z := by
  have hle := Nat.mul_le_mul_right z (Nat.succ_le_of_lt h)
  rwa [Nat.succ_mul] at hle

namespace Inv

theorem slot_disjoint (h : Inv a) (hi : (a.slots i).live) (hj : (a.slots j).live)
    (hij : i ≠ j) (he : (a.slots i).ref.extent = (a.slots j).ref.extent) :
    (a.slots i).ref.offset + (a.slots i).ref.slotSize ≤ (a.slots j).ref.offset ∨
      (a.slots j).ref.offset + (a.slots j).ref.slotSize ≤ (a.slots i).ref.offset := by
  have hpi := h.placed (res_eq_some.mpr ⟨hi, rfl⟩)
  have hpj := h.placed (res_eq_some.mpr ⟨hj, rfl⟩)
  -- one extent has one class, hence one slot size
  have hcls : (a.slots i).ref.cls = (a.slots j).ref.cls := by
    have hb := hpi.bound
    rw [he, hpj.bound] at hb
    exact (Option.some.inj hb).symm
  have hne : (a.slots i).ref.slot ≠ (a.slots j).ref.slot := fun hs =>
    hij (h.place.inj i j _ _ (placeOf_live hi) (placeOf_live hj) he hs)
  rw [hpi.offset_eq, hpj.offset_eq, hpi.size_eq, hpj.size_eq, hcls]
  rcases Nat.lt_or_gt_of_ne hne with hlt | hgt
  · exact Or.inl (slot_end_le hlt)
  · exact Or.inr (slot_end_le hgt)

theorem partition (h : Inv a) (hb : (a.extents e).cls = some c) (s : Nat) :
    s < (a.classes c).slotsPerExtent ↔ s ∈ (a.classes c).freeByExt e ∨
      ∃ i, (a.slots i).live ∧ (a.slots i).ref.extent = e ∧ (a.slots i).ref.slot = s := by
  rw [h.free.mem_iff]
  constructor
  · intro hlt
    by_cases hv : Vacant (placeOf a.res) e s
    · exact Or.inl ⟨hb, hlt, hv⟩
    · simp only [Vacant, not_forall, not_not] at hv
      obtain ⟨i, r, hr, he, hs⟩ := hv
      obtain ⟨m, hm, rfl⟩ := placeOf_eq_some.mp hr
      obtain ⟨hl, rfl⟩ := res_eq_some.mp hm
      exact Or.inr ⟨i, hl, he, hs⟩
  · rintro (⟨-, hlt, -⟩ | ⟨i, hl, rfl, rfl⟩)
    · exact hlt
    · have hp := h.placed (res_eq_some.mpr ⟨hl, rfl⟩)
      rw [hp.bound] at hb
      exact Option.some.inj hb ▸ hp.slot_lt

theorem classSums (h : Inv a) (c : Nat) : a.ClassSums c := by
  have hc := h.clsCounts c
  refine ⟨hc.resident.trans (a.tally_eq_liveSum fun _ => rfl),
    hc.useful.trans (a.tally_eq_liveSum fun _ => rfl),
    hc.prot.trans (a.tally_eq_liveSum fun m => ?_), hc.free, hc.boundExtents.trans ?_⟩
  · simp only [inClass, retainWeight]
    split <;> split <;> simp_all
  · rw [card_filter]
    refine sum_congr rfl fun e _ => ?_
    cases hcls : (a.extents e).cls <;> simp [hcls]

theorem extentSums (h : Inv a) (hw : a.pinsWrapped = false) (e : Nat) : a.ExtentSums e := by
  have he := h.extCounts e
  refine ⟨he.resident.trans (a.tally_eq_liveSum fun _ => rfl),
    he.useful.trans (a.tally_eq_liveSum fun _ => rfl),
    he.access.trans (a.tally_eq_liveSum fun _ => rfl),
    (he.pinned.2 hw).trans (a.tally_eq_liveSum fun m => ?_),
    he.prot.trans (a.tally_eq_liveSum fun m => ?_), h.bound.freeSlots e⟩
  · simp only [inExtent, pinWeight]
    split <;> split <;> simp_all
  · simp only [inExtent, retainWeight]
    split <;> split <;> simp_all

end Inv

/-- `b` is `a` after `n` pins of the visible resident at `i`, the first pins of its extent. -/
structure PinnedTimes (a : SlabAllocator) (i n : Nat) (b : SlabAllocator) : Prop where
  index : b.index = a.index
  size : b.table.size = a.table.size
  ref : (b.slots i).ref = (a.slots i).ref
  visible : (b.slots i).removePending = false
  refs : (b.slots i).refs = n % 2 ^ 32
  pinned : (b.extents (a.slots i).ref.extent).pinned = if n = 0 then 0 else 1

theorem PinnedTimes.step {b : SlabAllocator} {n : Nat} {k : BlockKey} (h : PinnedTimes a i n b)
    (hk : a.index.find k = some i) (hn : n < 2 ^ 32) :
    PinnedTimes a i (n + 1) (b.step [] (.pin k)).1 ∧ (b.step [] (.pin k)).2.ok := by
  have hvis : (b.table.slots i).removePending = false := h.visible
  have hstep : b.step [] (.pin k) =
      (SlabAllocator.pinSlot { b with env := { b.env with outcomes := [] } } i,
        { ok := true }) := by
    simp [SlabAllocator.step, SlabAllocator.apply, SlabAllocator.pin, SlabAllocator.findVisible,
      h.index, hk, SlabAllocator.slots, hvis]
  have hrefs : (b.table.slots i).refs = n := h.refs.trans (Nat.mod_eq_of_lt hn)
  have href : (b.table.slots i).ref.extent = (a.slots i).ref.extent :=
    congrArg SlotRef.extent h.ref
  rw [hstep]
  refine ⟨⟨h.index, h.size, ?_, ?_, ?_, ?_⟩, rfl⟩
  · simpa [SlabAllocator.pinSlot, SlabAllocator.slots] using h.ref
  · simpa [SlabAllocator.pinSlot, SlabAllocator.slots] using hvis
  · simp [SlabAllocator.pinSlot, SlabAllocator.slots, hrefs]
  · have hp := h.pinned
    simp only [SlabAllocator.pinSlot, SlabAllocator.slots] at hp href ⊢
    rw [href, Function.update_self]
    simp only [hrefs, hp]
    split <;> simp_all

end DingoCache.Slab
