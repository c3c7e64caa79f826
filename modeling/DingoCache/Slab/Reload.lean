import DingoCache.Slab.Held

/-!
# Restoring into a New Allocator

A store that reopens hands the records it finds to `RestoreBulk` of a new
allocator.  The batch is accepted when its entries lie where an allocator of the
same options places residents.
-/

namespace DingoCache.Slab

open Library SlabAllocator List

variable {o : Options} {a b : SlabAllocator} {x y : RestoreEntry} {xs : List RestoreEntry}

/-! ## The lattice of class sizes -/

section Lattice

variable {len fuel cur s : Nat}

theorem le_canonicalLoop (o : Options) (len : Nat) (fuel : Nat) :
    ∀ cur, cur ≤ o.canonicalLoop len fuel cur := by
  induction fuel with
  | zero => exact fun _ => le_rfl
  | succ fuel ih =>
    intro cur
    unfold Options.canonicalLoop
    split
    · split
      · omega
      · have := ih (o.nextBucket cur)
        omega
    · exact le_rfl

/-- The loop stops at its own result again, whatever fuel beyond the distance it has. -/
theorem canonicalLoop_idem (o : Options) (len : Nat) (fuel : Nat) : ∀ cur fuel',
    o.canonicalLoop len fuel cur - cur ≤ fuel' →
    o.canonicalLoop (o.canonicalLoop len fuel cur) fuel' cur = o.canonicalLoop len fuel cur := by
  have hstop (cur fuel' : Nat) : o.canonicalLoop cur fuel' cur = cur := by
    cases fuel' with
    | zero => rfl
    | succ n => simp [Options.canonicalLoop]
  induction fuel with
  | zero => exact fun cur fuel' _ => hstop cur fuel'
  | succ fuel ih =>
    intro cur fuel' hfuel
    rw [Options.canonicalLoop] at hfuel ⊢
    split
    · rename_i hlt
      rw [if_pos hlt] at hfuel
      split
      · rename_i hstuck
        rw [if_pos hstuck] at hfuel
        obtain ⟨n, rfl⟩ : ∃ n, fuel' = n + 1 := ⟨fuel' - 1, by omega⟩
        simp [Options.canonicalLoop, hlt, hstuck]
      · rename_i hup
        rw [if_neg hup] at hfuel
        have hle := le_canonicalLoop o len fuel (o.nextBucket cur)
        obtain ⟨n, rfl⟩ : ∃ n, fuel' = n + 1 := ⟨fuel' - 1, by omega⟩
        rw [Options.canonicalLoop, if_pos (by omega), if_neg hup]
        exact ih _ n (by omega)
    · exact hstop cur fuel'

theorem nextBucket_le (o : Options) (cur : Nat) : o.nextBucket cur ≤ o.maxAligned :=
    min_le_right _ _

theorem canonicalLoop_le (o : Options) (hlen : len ≤ o.maxAligned) (fuel : Nat) :
    ∀ cur, cur ≤ o.maxAligned → o.canonicalLoop len fuel cur ≤ o.maxAligned := by
  induction fuel with
  | zero => exact fun _ h => h
  | succ fuel ih =>
    intro cur hcur
    unfold Options.canonicalLoop
    split
    · split
      · exact hlen
      · exact ih _ (nextBucket_le o cur)
    · exact hcur

theorem dvd_maxAligned (o : Options) : o.align ∣ o.maxAligned := by
  unfold Options.maxAligned
  rcases min_choice (o.extentBytes / o.align * o.align) (uint32Max / o.align * o.align) with h | h
  all_goals
    rw [h]
    exact Dvd.intro_left _ rfl

theorem dvd_nextBucket (o : Options) (h : o.align ∣ cur) : o.align ∣ o.nextBucket cur := by
  unfold Options.nextBucket
  have hmax : o.align ∣ max (o.quotient (cur + o.align) / o.align * o.align) (cur + o.align) := by
    rcases max_choice (o.quotient (cur + o.align) / o.align * o.align) (cur + o.align) with h' | h'
    · rw [h']
      exact Dvd.intro_left _ rfl
    · rw [h']
      exact Nat.dvd_add h (dvd_refl _)
  rcases min_choice (max (o.quotient (cur + o.align) / o.align * o.align) (cur + o.align))
    o.maxAligned with h' | h'
  · rw [h']
    exact hmax
  · rw [h']
    exact dvd_maxAligned o

theorem dvd_canonicalLoop (o : Options) (hlen : o.align ∣ len) (fuel : Nat) :
    ∀ cur, o.align ∣ cur → o.align ∣ o.canonicalLoop len fuel cur := by
  induction fuel with
  | zero => exact fun _ h => h
  | succ fuel ih =>
    intro cur hcur
    unfold Options.canonicalLoop
    split
    · split
      · exact hlen
      · exact ih _ (dvd_nextBucket o hcur)
    · exact hcur

theorem maxAligned_lt (o : Options) : o.maxAligned < 2 ^ 32 := by
  have h1 : o.maxAligned ≤ uint32Max / o.align * o.align := min_le_right _ _
  have h2 := Nat.div_mul_le_self uint32Max o.align
  unfold uint32Max at h1 h2
  omega

theorem canonicalSlotSize_eq (ha : o.align ≤ o.maxAligned) (hlen : len ≤ o.maxAligned) :
    o.canonicalSlotSize len = o.canonicalLoop len len o.align :=
  Nat.mod_eq_of_lt ((canonicalLoop_le o hlen _ _ ha).trans_lt (maxAligned_lt o))

theorem canonicalSlotSize_idem (ha : o.align ≤ o.maxAligned) (hlen : len ≤ o.maxAligned) :
    o.canonicalSlotSize (o.canonicalSlotSize len) = o.canonicalSlotSize len := by
  have hle := canonicalLoop_le o hlen len _ ha
  rw [canonicalSlotSize_eq ha hlen, canonicalSlotSize_eq ha hle]
  exact canonicalLoop_idem o len len _ _ (Nat.sub_le _ _)

/-- Every class size is a multiple of the alignment and its own canonical size. By induction along
the constructor's loop, whose next size is canonical by construction. -/
theorem canonicalSlotSize_of_mem (ha : o.align ≤ o.maxAligned) (fuel : Nat) : ∀ start,
    o.align ∣ start → o.canonicalSlotSize start = start → s ∈ o.classSizes fuel start →
    o.align ∣ s ∧ o.canonicalSlotSize s = s := by
  induction fuel with
  | zero => exact fun _ _ _ h => absurd h not_mem_nil
  | succ fuel ih =>
    intro start hdvd hfix hmem
    unfold Options.classSizes at hmem
    split at hmem
    · rename_i hle
      split at hmem
      · exact mem_singleton.mp hmem ▸ ⟨hdvd, hfix⟩
      · rename_i hne
        split at hmem
        · exact mem_singleton.mp hmem ▸ ⟨hdvd, hfix⟩
        · rcases mem_cons.mp hmem with rfl | hmem
          · exact ⟨hdvd, hfix⟩
          · -- both are multiples of the alignment, so that there is room for one more
            have hroom : start + o.align ≤ o.maxAligned := by
              have hgap := Nat.le_of_dvd (by omega) (Nat.dvd_sub (dvd_maxAligned o) hdvd)
              omega
            refine ih _ ?_ (canonicalSlotSize_idem ha hroom) hmem
            rw [canonicalSlotSize_eq ha hroom]
            exact dvd_canonicalLoop o (Nat.dvd_add hdvd (dvd_refl _)) _ _ (dvd_refl _)
    · exact absurd hmem not_mem_nil

theorem canonicalSlotSize_align (ha : o.align ≤ o.maxAligned) :
    o.canonicalSlotSize o.align = o.align := by
  rw [canonicalSlotSize_eq ha ha]
  cases h : o.align with
  | zero => simp [Options.canonicalLoop]
  | succ n => simp [Options.canonicalLoop]

/-- The class sizes ascend, are aligned and are fixed by the idempotent rounding. -/
theorem lattice_canonical (o : Options) (ha : o.align ≤ o.maxAligned) :
    (o.classSizes (o.maxAligned + 1) o.align).Pairwise (· < ·) ∧
      (∀ s ∈ o.classSizes (o.maxAligned + 1) o.align,
        o.align ∣ s ∧ s ≤ o.maxAligned ∧ o.canonicalSlotSize s = s) ∧
      ∀ len ≤ o.maxAligned,
        o.canonicalSlotSize (o.canonicalSlotSize len) = o.canonicalSlotSize len := by
  obtain ⟨hmem, hlt⟩ := o.classSizes_spec (o.maxAligned + 1) o.align
  refine ⟨hlt, fun s hs => ?_, fun len hlen => canonicalSlotSize_idem ha hlen⟩
  obtain ⟨hdvd, hfix⟩ :=
    canonicalSlotSize_of_mem ha _ _ (dvd_refl _) (canonicalSlotSize_align ha) hs
  exact ⟨hdvd, (hmem s hs).2, hfix⟩

theorem small_lattice :
    let o : Options := { extentBytes := 16, numExtents := 1, align := 4 }
    [4, 8, 12, 16].Pairwise (· < ·) ∧
      (∀ s ∈ [4, 8, 12, 16], 4 ∣ s ∧ s ≤ 16 ∧ o.canonicalSlotSize s = s) ∧
      ∀ len ≤ 16, o.canonicalSlotSize (o.canonicalSlotSize len) = o.canonicalSlotSize len :=
  lattice_canonical { extentBytes := 16, numExtents := 1, align := 4 } (by decide)

/-- The class sizes depend on the alignment, the extent size and the quotient. -/
theorem classSizes_congr {o' : Options} (ha : o'.align = o.align)
    (he : o'.extentBytes = o.extentBytes) (hq : o'.quotient = o.quotient) (fuel : Nat) :
    ∀ start, o'.classSizes fuel start = o.classSizes fuel start := by
  have hmax : o'.maxAligned = o.maxAligned := by rw [Options.maxAligned, ha, he, Options.maxAligned]
  have hnext (cur : Nat) : o'.nextBucket cur = o.nextBucket cur := by
    rw [Options.nextBucket, ha, hq, hmax, Options.nextBucket]
  have hloop (len fuel : Nat) : ∀ cur, o'.canonicalLoop len fuel cur = o.canonicalLoop
    len fuel cur := by
    induction fuel with
    | zero => exact fun _ => rfl
    | succ fuel ih =>
      intro cur
      rw [Options.canonicalLoop, Options.canonicalLoop, hnext, ih]
  have hcanon (len : Nat) : o'.canonicalSlotSize len = o.canonicalSlotSize len := by
    rw [Options.canonicalSlotSize, ha, hloop, Options.canonicalSlotSize]
  induction fuel with
  | zero => exact fun _ => rfl
  | succ fuel ih =>
    intro start
    rw [Options.classSizes, Options.classSizes, hmax, hcanon, ha, ih]

end Lattice

/-! ## Acceptance -/

theorem adjacentDup_of_nodup {l : List BlockKey} (h : l.Nodup) : adjacentDup l = false := by
  induction l with
  | nil => rfl
  | cons k l ih =>
    cases l with
    | nil => rfl
    | cons k' l =>
      obtain ⟨hk, hl⟩ := nodup_cons.mp h
      have hne : k ≠ k' := fun heq => hk (heq ▸ mem_cons_self)
      simp [adjacentDup, hne, ih hl]

/-- The validation loop accepts what `restoreValid_spec` reads off it. -/
theorem restoreValid_of {placements sizes : List (Nat × Nat)}
    (hall : ∀ x ∈ xs, a.restoreEntryOk x ∧ a.restoreSlotOk x ∧
      (x.extent, x.slot) ∉ placements ∧ ∀ sz, sizes.lookup x.extent = some sz → sz = x.slotSize)
    (hpw : xs.Pairwise RestoreEntry.Compatible) : a.restoreValid xs placements sizes := by
  induction xs generalizing placements sizes with
  | nil => rfl
  | cons y ys ih =>
    obtain ⟨hentry, hslot, hplace, hsize⟩ := hall y mem_cons_self
    obtain ⟨hcomp, hpw⟩ := pairwise_cons.mp hpw
    have hget : (sizes.lookup y.extent).getD y.slotSize = y.slotSize := by
      cases hl : sizes.lookup y.extent with
      | none => rfl
      | some sz => exact hsize sz hl
    simp only [restoreValid, hentry, hslot, hget, decide_true, Bool.true_and,
      Bool.and_true, Bool.and_eq_true, Bool.not_eq_true', contains_eq_mem,
      decide_eq_false_iff_not]
    refine ⟨hplace, ih (fun x hx => ?_) hpw⟩
    obtain ⟨h1, h2, h3, h4⟩ := hall x (mem_cons_of_mem _ hx)
    have hxy := hcomp x hx
    refine ⟨h1, h2, fun hmem => ?_, fun sz hsz => ?_⟩
    · rcases mem_cons.mp hmem with heq | hmem
      · obtain ⟨he, hs⟩ := Prod.mk.inj heq
        exact (hxy he.symm).1 hs.symm
      · exact h3 hmem
    · by_cases he : x.extent = y.extent
      · rw [he] at hsz
        cases hl : sizes.lookup y.extent with
        | none =>
          simp only [hl, Option.isSome_none, Bool.false_eq_true, if_false, List.lookup,
            BEq.rfl, Option.some.injEq] at hsz
          exact hsz.symm.trans (hxy he.symm).2
        | some sz' =>
          simp only [hl, Option.isSome_some, if_true, Option.some.injEq] at hsz
          exact (hsz.symm.trans (hsize sz' hl)).trans (hxy he.symm).2
      · refine h4 sz ?_
        by_cases hl : (sizes.lookup y.extent).isSome
        · simpa [hl] using hsz
        · simpa only [if_neg hl, List.lookup, beq_false_of_ne he] using hsz

/-- A batch whose entries lie where an allocator with these options places residents. -/
structure Options.Loads (o : Options) (xs : List RestoreEntry) : Prop where
  extent_lt : ∀ x ∈ xs, x.extent < o.numExtents
  slot_lt : ∀ x ∈ xs, x.slot < o.extentBytes / x.slotSize
  value_le : ∀ x ∈ xs, x.valueBytes ≤ x.slotSize
  lattice : ∀ x ∈ xs, x.slotSize ∈ o.classSizes (o.maxAligned + 1) o.align
  keys : (xs.map (·.key)).Nodup
  compatible : xs.Pairwise RestoreEntry.Compatible

def SlabAllocator.started (o : Options) (ro : RetainOptions) (nowS : Nat) : SlabAllocator :=
  (new o).configureRetention ro nowS

theorem Inv.started (o : Options) (ro : RetainOptions) (nowS : Nat) : Inv (started o ro nowS) :=
  (Tuned.configureRetention (Inv.new o) ro nowS).inv

theorem classForExactSize_isSome (h : Inv a) {s : Nat}
    (hs : s ∈ a.opt.classSizes (a.opt.maxAligned + 1) a.opt.align) :
    (a.classForExactSize s).isSome := by
  rw [← h.geometry.sizes] at hs
  obtain ⟨c, hc, hcs⟩ := mem_map.mp hs
  exact find?_isSome.mpr ⟨c, hc, by simpa using hcs⟩

section Load

variable (ro : RetainOptions) (nowS : Nat)

theorem Options.Loads.size (h : o.Loads xs) (hn : o.normalize = o) (hx : x ∈ xs) :
    o.align ≤ x.slotSize ∧ x.slotSize ≤ o.maxAligned ∧ x.slotSize ≤ o.extentBytes ∧
      0 < x.slotSize := by
  have hmem := ((o.classSizes_spec (o.maxAligned + 1) o.align).1 _ (h.lattice x hx))
  have hpos : 0 < o.align := hn ▸ o.normalize_align_pos
  have hext : o.maxAligned ≤ o.extentBytes := (min_le_left _ _).trans (Nat.div_mul_le_self _ _)
  exact ⟨hmem.1, hmem.2, hmem.2.trans hext, hpos.trans_le hmem.1⟩

theorem Options.Loads.accepted (h : o.Loads xs) (hn : o.normalize = o) :
    (started o ro nowS).Accepts xs := by
  have hopt : (started o ro nowS).opt = o := hn
  refine ⟨restoreValid_of (fun x hx => ?_) h.compatible, ?_⟩
  · obtain ⟨hal, hmax, hext, hpos⟩ := h.size hn hx
    have ha : o.align ≤ o.maxAligned := hal.trans hmax
    have hcanon := (canonicalSlotSize_of_mem ha _ _ (dvd_refl _) (canonicalSlotSize_align ha)
      (h.lattice x hx)).2
    have hcls : ((started o ro nowS).classForExactSize x.slotSize).isSome :=
      classForExactSize_isSome (.started o ro nowS) (by rw [hopt]; exact h.lattice x hx)
    refine ⟨?_, rfl, not_mem_nil, by simp⟩
    simp only [restoreEntryOk, hopt, hcanon, hcls, h.extent_lt x hx, hext,
      h.value_le x hx, h.slot_lt x hx, decide_true, Bool.and_true, Bool.and_eq_true,
      decide_eq_true_eq]
    exact ⟨hpos.ne', rfl⟩
  · exact adjacentDup_of_nodup ((perm_insertionSort BlockKey.le _).nodup_iff.mpr h.keys)

def RestoreEntry.Gives (y : RestoreEntry) (x : Hold) : Prop :=
  x.refs = 0 ∧ x.pending = false ∧ x.ref.extent = y.extent ∧ x.ref.slot = y.slot ∧
    x.ref.slotSize = y.slotSize ∧ x.ref.offset = y.slot * y.slotSize

theorem RestoredRecord.gives {c : Nat} {m : SlotMeta} (h : RestoredRecord c y m) :
    m.key = y.key ∧ y.Gives m.hold := by
  have href : m.ref = (restoreMeta c y).ref := h.body.ref
  refine ⟨h.body.key, h.refs, h.pending, ?_⟩
  simp only [SlotMeta.hold, href]
  exact ⟨rfl, rfl, rfl, rfl⟩

/-- A new allocator restores such a batch and nothing else. -/
theorem restoreBulk_new (h : o.Loads xs) (hn : o.normalize = o) (h32 : o.extentBytes < 2 ^ 32) :
    ((started o ro nowS).restoreBulk xs).2 ∧ Inv ((started o ro nowS).restoreBulk xs).1 ∧
      ((started o ro nowS).restoreBulk xs).1.opt = o ∧
      (∀ y ∈ xs, ∃ x, ((started o ro nowS).restoreBulk xs).1.held y.key = some x ∧ y.Gives x) ∧
      ∀ k x, ((started o ro nowS).restoreBulk xs).1.held k = some x →
        ∃ y ∈ xs, y.key = k ∧ y.Gives x := by
  have hinv := Inv.started o ro nowS
  rcases restoreBulk_spec hinv xs with ⟨hno, -⟩ | ⟨-, ys, zs, heq, hall, htrue, hfalse⟩
  · exact absurd (h.accepted ro nowS hn) hno
  have hok : ((started o ro nowS).restoreBulk xs).2 := by
    by_contra hne
    obtain ⟨x, hx, c, hc, hle⟩ := hfalse (by simpa using hne)
    obtain ⟨hcn, hsize⟩ := classForExactSize_spec hc
    rw [hinv.geometry.perExtent c hcn, hsize, show (started o ro nowS).opt = o from hn,
      Nat.mod_eq_of_lt ((Nat.div_le_self _ _).trans_lt h32)] at hle
    exact absurd (h.slot_lt x hx) (not_lt.mpr hle)
  obtain rfl : zs = [] := htrue hok
  rw [append_nil] at heq
  subst heq
  refine ⟨hok, hall.inv, hall.static.opt.trans hn, fun y hy => ?_, fun k x hx => ?_⟩
  · obtain ⟨i, m, hm, c, -, hrec⟩ := hall.new y hy
    obtain ⟨hkey, hgives⟩ := hrec.gives
    exact ⟨m.hold, hall.inv.held_iff.mpr ⟨i, m, hm, hkey, rfl⟩, hgives⟩
  · obtain ⟨i, m, hm, rfl, rfl⟩ := hall.inv.held_iff.mp hx
    rcases hall.old i m hm with ⟨m₀, hm₀, -⟩ | ⟨y, hy, c, -, hrec⟩
    · exact nomatch hm₀
    · exact ⟨y, hy, hrec.gives.1.symm, hrec.gives.2⟩

end Load

end DingoCache.Slab
