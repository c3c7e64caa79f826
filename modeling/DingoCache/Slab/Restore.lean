import DingoCache.Slab.Put

/-!
# RestoreBulk

- `restoreBulk_valid`: a batch that passes the validation names pairwise distinct
  keys and slots, none of them in use.
-/

namespace DingoCache.Slab

open Library SlabAllocator List Function
open BlockKey

variable {a b : SlabAllocator} {i c e : Nat} {m : SlotMeta} {x y : RestoreEntry}
  {xs ys : List RestoreEntry} {ev : List BlockKey}

/-! ## The duplicate check -/

theorem BlockKey.le_iff {x y : BlockKey} : x.le y ↔ x.tenantHash.toNat < y.tenantHash.toNat ∨
      x.tenantHash.toNat = y.tenantHash.toNat ∧ (x.digestHi.toNat < y.digestHi.toNat ∨
          x.digestHi.toNat = y.digestHi.toNat ∧ x.digestLo.toNat ≤ y.digestLo.toNat) := by
  simp only [le, UInt64.lt_iff_toNat_lt, UInt64.le_iff_toNat_le, UInt64.toNat_inj]

instance : IsTrans BlockKey le where
  trans x y z h h' := by
    rw [le_iff] at h h' ⊢
    omega

instance : Std.Total le where
  total x y := by
    rw [le_iff, le_iff]
    omega

theorem BlockKey.eq_of_le {x y : BlockKey} (h : x.le y) (h' : y.le x) : x = y := by
  rw [le_iff] at h h'
  obtain ⟨h1, h2, h3⟩ : x.tenantHash.toNat = y.tenantHash.toNat ∧
      x.digestHi.toNat = y.digestHi.toNat ∧ x.digestLo.toNat = y.digestLo.toNat := by omega
  cases x
  cases y
  simp only [UInt64.toNat_inj] at h1 h2 h3
  simp [h1, h2, h3]

theorem nodup_of_adjacentDup {l : List BlockKey} (hs : l.Pairwise le)
    (hd : adjacentDup l = false) : l.Nodup := by
  induction l with
  | nil => exact nodup_nil
  | cons k l ih =>
    cases l with
    | nil => exact nodup_singleton k
    | cons k' l =>
      simp only [adjacentDup, Bool.or_eq_false_iff, beq_eq_false_iff_ne] at hd
      have hk := pairwise_cons.mp hs
      refine nodup_cons.mpr ⟨fun hmem => ?_, ih hk.2 hd.2⟩
      -- `k ≤ k' ≤ k` for a second occurrence of `k` behind `k'`
      rcases mem_cons.mp hmem with heq | hmem
      · exact hd.1 heq
      · exact hd.1 (eq_of_le (hk.1 k' (by simp)) ((pairwise_cons.mp hk.2).1 k hmem))

/-! ## Validation -/

def RestoreEntry.Compatible (x y : RestoreEntry) : Prop :=
  x.extent = y.extent → x.slot ≠ y.slot ∧ x.slotSize = y.slotSize

/-- What the validation establishes for one entry. -/
structure Restorable (a : SlabAllocator) (c : Nat) (x : RestoreEntry) : Prop where
  cls : a.classForExactSize x.slotSize = some c
  extent_lt : x.extent < a.opt.numExtents
  value_le : x.valueBytes ≤ x.slotSize
  absent : a.index.find x.key = none
  vacant : Vacant (placeOf a.res) x.extent x.slot
  bound : (a.extents x.extent).cls = none ∨ (a.extents x.extent).cls = some c

theorem Inv.class_eq (h : Inv a) {c c' : Nat} (hc : c < a.classCount) (hc' : c' < a.classCount)
    (hs : (a.classes c).slotSize = (a.classes c').slotSize) : c = c' := by
  rcases lt_trichotomy c c' with hlt | heq | hlt
  · exact absurd (h.geometry.strict c c' hlt hc') (by omega)
  · exact heq
  · exact absurd (h.geometry.strict c' c hlt hc) (by omega)

theorem Inv.vacant_of_unbound (h : Inv a) (he : (a.extents e).cls = none) (s : Nat) :
    Vacant (placeOf a.res) e s := by
  rintro i r hr ⟨rfl, -⟩
  simp [(h.place.placed i r hr).bound] at he

theorem Inv.restorable (h : Inv a) (hx : a.restoreEntryOk x) (hs : a.restoreSlotOk x) :
    ∃ c, Restorable a c x := by
  simp only [restoreEntryOk, Bool.and_eq_true, decide_eq_true_eq, Option.isNone_iff_eq_none] at hx
  obtain ⟨⟨⟨⟨⟨⟨⟨-, hlt⟩, -⟩, hval⟩, -⟩, hcls⟩, -⟩, habs⟩ := hx
  obtain ⟨c, hc⟩ := Option.isSome_iff_exists.mp hcls
  obtain ⟨hcn, hsize⟩ := classForExactSize_spec hc
  unfold restoreSlotOk at hs
  cases hb : (a.extents x.extent).cls with
  | none => exact ⟨c, hc, hlt, hval, habs, h.vacant_of_unbound hb _, Or.inl hb⟩
  | some c' =>
    simp only [hb, Bool.and_eq_true, decide_eq_true_eq, contains_eq_mem] at hs
    obtain rfl := h.class_eq (h.bound.lt _ _ hb).2 hcn (hs.1.trans hsize.symm)
    exact ⟨c', hc, hlt, hval, habs, ((h.free.mem_iff _ _ _).mp hs.2).2.2, Or.inr hb⟩

theorem restoreValid_spec {placements sizes : List (Nat × Nat)}
    (hv : a.restoreValid xs placements sizes) :
    (∀ x ∈ xs, a.restoreEntryOk x ∧ a.restoreSlotOk x ∧
      (x.extent, x.slot) ∉ placements ∧ ∀ sz, sizes.lookup x.extent = some sz → sz = x.slotSize) ∧
    xs.Pairwise RestoreEntry.Compatible := by
  induction xs generalizing placements sizes with
  | nil => simp
  | cons y ys ih =>
    simp only [restoreValid, Bool.and_eq_true, Bool.not_eq_true', decide_eq_true_eq] at hv
    obtain ⟨⟨⟨⟨hentry, hplace⟩, hsize⟩, hslot⟩, hrest⟩ := hv
    obtain ⟨hall, hpw⟩ := ih hrest
    -- the size table after `y` names the size of `y` for its extent
    have hlook : (if (sizes.lookup y.extent).isSome then sizes
        else (y.extent, y.slotSize) :: sizes).lookup y.extent = some y.slotSize := by
      cases hl : sizes.lookup y.extent with
      | none => simp
      | some sz => simp_all
    refine ⟨fun x hx => ?_, pairwise_cons.mpr ⟨fun x hx he => ?_, hpw⟩⟩
    · rcases mem_cons.mp hx with rfl | hx
      · refine ⟨hentry, hslot, by simpa using hplace, fun sz hsz => ?_⟩
        simpa [hsz] using hsize
      · obtain ⟨h1, h2, h3, h4⟩ := hall x hx
        refine ⟨h1, h2, fun hmem => h3 (mem_cons_of_mem _ hmem), fun sz hsz => h4 sz ?_⟩
        by_cases hl : (sizes.lookup y.extent).isSome
        · simp [hl, hsz]
        · have hne : x.extent ≠ y.extent := fun heq => hl (by simp [← heq, hsz])
          simp only [if_neg hl, lookup, beq_false_of_ne hne, hsz]
    · obtain ⟨-, -, h3, h4⟩ := hall x hx
      exact ⟨fun hs => h3 (by simp [he, hs]), h4 _ (he ▸ hlook)⟩

/-! ## Installing one entry -/

/-- The record of a restored entry. -/
structure RestoredRecord (c : Nat) (x : RestoreEntry) (m : SlotMeta) : Prop where
  body : SameBody (restoreMeta c x) m
  refs : m.refs = 0
  pending : m.removePending = false

theorem pushWheel_eq (r : Retention) (key : BlockKey) (deadline : Nat) :
    pushWheel r key deadline = { r with
      wheel := (pushWheel r key deadline).wheel
      wheelEntries := (pushWheel r key deadline).wheelEntries } := by
  unfold pushWheel
  split <;> rfl

theorem RetainOk.pushWheel {r : Retention} (h : RetainOk r.opt r.wheel) {key : BlockKey}
    {deadline : Nat} (h0 : deadline ≠ 0) :
    RetainOk r.opt (SlabAllocator.pushWheel r key deadline).wheel := by
  refine ⟨h.ttl, fun bucket x hx => ?_⟩
  unfold SlabAllocator.pushWheel at hx
  split at hx
  · exact h.deadline bucket x hx
  · by_cases hb : bucket = deadline / kWheelTickS % r.wheelSize
    · simp only [hb, update_self, mem_append, mem_singleton] at hx
      rcases hx with hx | rfl
      · exact h.deadline _ x hx
      · exact h0
    · simp only [update_of_ne hb] at hx
      exact h.deadline bucket x hx

theorem Inv.pushWheelLocked (h : Inv a) (key : BlockKey) {deadline : Nat} (h0 : deadline ≠ 0) :
    Inv (a.pushWheelLocked key deadline) := by
  unfold SlabAllocator.pushWheelLocked
  rw [pushWheel_eq]
  exact h.frame le_rfl (h.retain.pushWheel h0) rfl

theorem Static.pushWheelLocked (a : SlabAllocator) (key : BlockKey) (deadline : Nat) :
    Static a (a.pushWheelLocked key deadline) := by
  unfold SlabAllocator.pushWheelLocked
  rw [pushWheel_eq]
  exact ⟨rfl, rfl, fun _ => rfl, fun _ => rfl, rfl, rfl, rfl⟩

/-- Restoring a protection keeps the resident and its pin count. -/
theorem restoreRetention_spec (h : Inv a) (hm : a.res i = some m) (h0 : m.retainUntil = 0) :
    ∃ m', SameBody m m' ∧ m'.refs = m.refs ∧ m'.removePending = m.removePending ∧
      Inv (a.restoreRetention i x) ∧ Static a (a.restoreRetention i x) ∧
      (a.restoreRetention i x).res = update a.res i (some m') ∧
      (a.restoreRetention i x).env = a.env ∧
      ∀ e, ((a.restoreRetention i x).extents e).cls = (a.extents e).cls := by
  obtain rfl := Inv.slots_eq hm
  unfold restoreRetention
  dsimp only
  split
  · rename_i hg
    let m' := { a.slots i with
      retainTtlS := min x.retainTtlS a.retention.opt.maxTtlS
      retainUntil := min x.retainUntil
        (a.retention.nowS + min x.retainTtlS a.retention.opt.maxTtlS)
      retainPersistedUntil := min x.retainUntil
        (a.retention.nowS + min x.retainTtlS a.retention.opt.maxTtlS) }
    have hne : m'.retainUntil ≠ 0 := by
      have httl := h.retain.ttl hg.1
      simp only [m']
      omega
    have hswap : (a.setSlot i m').protectLocked i = (a.protectLocked i).setSlot i m' := by
      simp [protectLocked, setSlot, slots, m']
    have hbody : SameBody (a.slots i) m' := ⟨rfl, rfl, rfl, rfl⟩
    have hinv := h.protect hm hbody h0 hne rfl rfl
    refine ⟨m', ⟨rfl, rfl, rfl, rfl⟩, rfl, rfl, ?_, ?_, ?_, rfl, proj_update _ rfl⟩
    · exact (hswap ▸ hinv).pushWheelLocked _ hne
    · have hst : Static a ((a.setSlot i m').protectLocked i) :=
        ⟨rfl, rfl, proj_update _ rfl, proj_update _ rfl, rfl, rfl, rfl⟩
      exact hst.trans (.pushWheelLocked _ _ _)
    · exact res_setSlot hm ⟨rfl, rfl, rfl, rfl⟩
  · split
    · exact ⟨{ a.slots i with retainTtlS := min x.retainTtlS a.retention.opt.maxTtlS },
        ⟨rfl, rfl, rfl, rfl⟩, rfl, rfl, h.setSlot hm ⟨rfl, rfl, rfl, rfl⟩ rfl rfl rfl,
        ⟨rfl, rfl, fun _ => rfl, fun _ => rfl, rfl, rfl, rfl⟩,
        res_setSlot hm ⟨rfl, rfl, rfl, rfl⟩, rfl, fun _ => rfl⟩
    · exact ⟨_, .rfl, rfl, rfl, h, .refl a, by rw [← hm, update_eq_self], rfl, fun _ => rfl⟩

theorem restoreBound_spec (h : Inv a) (hk : a.index.find x.key = none)
    (hc : (a.classes c).slotSize = x.slotSize) (hval : x.valueBytes ≤ x.slotSize)
    (hfree : x.slot ∈ (a.classes c).freeByExt x.extent) :
    ∃ i m, (a.restoreBound c x).2 ∧ RestoredRecord c x m ∧
      Admits a (a.restoreBound c x).1 [] i m ∧ (a.restoreBound c x).1.env = a.env ∧
      ∀ e, ((a.restoreBound c x).1.extents e).cls = (a.extents e).cls := by
  let i := acquireIndex a.table
  cases htake : (a.classes c).takeFreeSlot x.extent x.slot with
  | none => exact absurd hfree (SizeClass.takeFreeSlot_eq_none.mp htake)
  | some cls =>
    have ht := SizeClass.takeFreeSlot_spec (h.free.rotation c) htake
    have hfits : Fits a (restoreMeta c x) :=
      ⟨hc.symm, rfl, rfl, rfl, rfl, hval, Nat.zero_le _⟩
    have hinv := h.publish hfits ht hk
    have hres := res_publish (x := cls) h (m := restoreMeta c x) rfl
    have hm : (a.publish cls (restoreMeta c x)).res i = some (restoreMeta c x) := by
      rw [hres, update_self]
    obtain ⟨m', hbody, hrefs, hpend, hinv', hst', hres', henv', hcls'⟩ :=
      restoreRetention_spec (x := x) hinv hm rfl
    have heq : a.restoreBound c x =
        ((a.publish cls (restoreMeta c x)).restoreRetention i x, true) := by
      unfold restoreBound
      simp only [htake, acquire, hk]
      rfl
    rw [heq]
    refine ⟨i, m', rfl, ⟨hbody, hrefs, hpend⟩, ⟨hinv', a, .refl h, h.index.acquire.fresh, ?_,
      (Static.publish ht).trans hst', henv', fun j n hn hkey => ?_⟩, henv',
      fun e => ?_⟩
    · rw [hres', hres, update_idem]
    · have hfind := h.find_of_res hn
      rw [hkey, hbody.key, show (restoreMeta c x).key = x.key from rfl, hk] at hfind
      simp at hfind
    · exact (hcls' e).trans (proj_update ExtentMeta.cls (by rfl) e)

/-- The install loop reaches the free slot in a state `b` where the extent of its entry is bound, or
finds a class without slots. -/
theorem restoreOne_bound (h : Inv a) (hx : Restorable a c x) :
    ((a.classes c).slotsPerExtent = 0 ∧ a.restoreOne x = (a, false)) ∨
    ∃ b, a.restoreOne x = b.restoreBound c x ∧ Evicts a b [] ∧ b.index = a.index ∧
      b.res = a.res ∧ b.env = a.env ∧
      ∀ e, (b.extents e).cls = if e = x.extent then some c else (a.extents e).cls := by
  obtain ⟨hcn, -⟩ := classForExactSize_spec hx.cls
  unfold restoreOne
  simp only [hx.cls]
  rcases hx.bound with hnone | hsome
  · rw [if_pos hnone]
    by_cases h0 : (a.classes c).slotsPerExtent = 0
    · rcases bindExtentLocked_cases a c x.extent true with ⟨-, heq⟩ | ⟨hb, -⟩ | ⟨hb, -⟩
      · exact Or.inl ⟨h0, by simp [heq]⟩
      · exact absurd h0 hb.2.2.2
      · exact absurd h0 hb.2.2.2
    · refine Or.inr ⟨a.bindExtent c x.extent, ?_,
        .of_res (h.bindExtent hcn hx.extent_lt hnone) (.bindExtent h hnone) rfl rfl,
        rfl, rfl, rfl, fun e => ?_⟩
      · rw [bindExtentLocked_prepared ⟨hcn, hx.extent_lt, hnone, h0⟩]
        rfl
      · by_cases he : e = x.extent
        · simp [he, bindExtent]
        · simp [he, bindExtent]
  · rw [if_neg (by simp [hsome])]
    refine Or.inr ⟨a, rfl, .refl h, rfl, rfl, rfl, fun e => ?_⟩
    split
    · rename_i he
      rw [he, hsome]
    · rfl

theorem Admits.after (hs : Evicts a b []) {d : SlabAllocator} (h : Admits b d ev i m) :
    Admits a d ev i m := by
  obtain ⟨hinv, x, hx, hrest⟩ := h
  exact ⟨hinv, x, by simpa using hs.trans hx, hrest⟩

/-- The body of the install loop publishes its entry, unless the slot number does not fit the class.
It makes no callback. -/
theorem restoreOne_spec (h : Inv a) (hx : Restorable a c x) : (a.restoreOne x).1.env = a.env ∧
    ((x.slot < (a.classes c).slotsPerExtent ∧ ∃ i m, (a.restoreOne x).2 ∧
      RestoredRecord c x m ∧ Admits a (a.restoreOne x).1 [] i m ∧
      ∀ e, ((a.restoreOne x).1.extents e).cls =
        if e = x.extent then some c else (a.extents e).cls) ∨
    ((a.classes c).slotsPerExtent ≤ x.slot ∧ (a.restoreOne x).2 = false ∧
      Evicts a (a.restoreOne x).1 [])) := by
  obtain ⟨-, hsize⟩ := classForExactSize_spec hx.cls
  rcases restoreOne_bound h hx with ⟨h0, heq⟩ | ⟨b, heq, hb, hindex, hres, henv, hcls⟩
  · rw [heq]
    exact ⟨rfl, Or.inr ⟨h0 ▸ Nat.zero_le _, rfl, .refl h⟩⟩
  · have hfree : x.slot ∈ (b.classes c).freeByExt x.extent ↔
        x.slot < (a.classes c).slotsPerExtent := by
      rw [hb.inv.free.mem_iff, hcls, if_pos rfl, hb.static.perExtent, hres]
      exact ⟨fun hf => hf.2.1, fun hlt => ⟨rfl, hlt, hx.vacant⟩⟩
    rw [heq]
    rcases Nat.lt_or_ge x.slot (a.classes c).slotsPerExtent with hlt | hge
    · obtain ⟨i, m, hok, hrec, hadm, henv', hcls'⟩ := restoreBound_spec hb.inv
        (hindex ▸ hx.absent) ((hb.static.slotSize c).trans hsize) hx.value_le (hfree.mpr hlt)
      exact ⟨henv'.trans henv, Or.inl ⟨hlt, i, m, hok, hrec, hadm.after hb,
        fun e => (hcls' e).trans (hcls e)⟩⟩
    · have hnone : (b.classes c).takeFreeSlot x.extent x.slot = none :=
        SizeClass.takeFreeSlot_eq_none.mpr fun hf => absurd (hfree.mp hf) (Nat.not_lt.mpr hge)
      have hfail : b.restoreBound c x = (b, false) := by
        unfold restoreBound
        simp only [hnone]
      rw [hfail]
      exact ⟨henv, Or.inr ⟨hge, rfl, hb⟩⟩

/-! ## The install loop -/

theorem Static.classForExactSize (h : Static a b) (size : Nat) :
    b.classForExactSize size = a.classForExactSize size := by
  unfold SlabAllocator.classForExactSize
  rw [h.classCount]
  simp only [h.slotSize]

theorem Admits.old (h : Admits a b ev i m) {j : Nat} {n : SlotMeta} (hn : b.res j = some n) :
    (j = i ∧ n = m) ∨ ∃ n₀, a.res j = some n₀ ∧ SameHold n₀ n := by
  obtain ⟨-, d, hd, -, hres, -⟩ := h
  rw [hres] at hn
  rcases eq_or_ne j i with rfl | hj
  · rw [update_self] at hn
    exact Or.inl ⟨rfl, (Option.some.inj hn).symm⟩
  · rw [update_of_ne hj] at hn
    exact Or.inr (hd.old j n hn)

theorem Admits.new (h : Admits a b ev i m) : b.res i = some m := by
  obtain ⟨-, d, -, -, hres, -⟩ := h
  rw [hres, update_self]

theorem Admits.kept (h : Admits a b ev i m) {j : Nat} {n : SlotMeta} (hn : a.res j = some n) :
    (∃ n', b.res j = some n' ∧ SameHold n n') ∨ n.key ∈ ev ∧ n.refs = 0 ∧ n.retainUntil = 0 := by
  obtain ⟨-, d, hd, hfresh, hres, -⟩ := h
  rcases hd.kept j n hn with ⟨n', hn', hs⟩ | ⟨-, hgone⟩
  · refine Or.inl ⟨n', ?_, hs⟩
    rw [hres, update_of_ne (fun hj => by simp [← hj, hn'] at hfresh), hn']
  · exact Or.inr hgone

theorem Admits.static (h : Admits a b ev i m) : Static a b := by
  obtain ⟨-, d, hd, -, -, hst, -⟩ := h
  exact hd.static.trans hst

/-- An entry stays restorable while a compatible one is installed. -/
theorem Restorable.after {cx cy : Nat} (h : Inv a) (hx : Restorable a cx x)
    (hy : Restorable a cy y) (hk : x.key ≠ y.key) (hxy : y.Compatible x)
    (hrec : RestoredRecord cy y m) (hadm : Admits a b [] i m)
    (hcls : ∀ e, (b.extents e).cls = if e = y.extent then some cy else (a.extents e).cls) :
    Restorable b cx x := by
  have hab := hadm.static
  have hkey : m.key = y.key := hrec.body.key
  have href : m.ref = (restoreMeta cy y).ref := hrec.body.ref
  refine ⟨(hab.classForExactSize _).trans hx.cls, hab.opt ▸ hx.extent_lt, hx.value_le, ?_, ?_, ?_⟩
  · by_contra hne
    obtain ⟨j, hj⟩ := Option.ne_none_iff_exists'.mp hne
    obtain ⟨n, hn, hnk⟩ := (hadm.inv.index.find_iff _ _).mp hj
    rcases hadm.old hn with ⟨-, rfl⟩ | ⟨n₀, hn₀, hs⟩
    · exact hk (hnk.symm.trans hkey)
    · have hfind := h.find_of_res hn₀
      rw [← hs.key, hnk, hx.absent] at hfind
      simp at hfind
  · rintro j r hr ⟨he, hs⟩
    obtain ⟨n, hn, rfl⟩ := placeOf_eq_some.mp hr
    rcases hadm.old hn with ⟨-, rfl⟩ | ⟨n₀, hn₀, hh⟩
    · rw [href] at he hs
      exact (hxy he).1 hs
    · exact hx.vacant j n.ref (placeOf_eq_some.mpr ⟨n₀, hn₀, hh.ref.symm⟩) ⟨he, hs⟩
  · rw [hcls]
    split
    · rename_i he
      -- same extent, same size, hence the same class
      have hsame := hx.cls
      rw [← (hxy he.symm).2, hy.cls] at hsame
      exact Or.inr hsame
    · exact hx.bound

/-- A resident that restores `y`. -/
def Restores (a : SlabAllocator) (y : RestoreEntry) (m : SlotMeta) : Prop :=
  ∃ c, a.classForExactSize y.slotSize = some c ∧ RestoredRecord c y m

/-- The residents of `b` are those of `a` and one for each of the entries `ys`. -/
structure RestoredAll (a b : SlabAllocator) (ys : List RestoreEntry) : Prop where
  inv : Inv b
  static : Static a b
  env : b.env = a.env
  kept : ∀ i m, a.res i = some m → ∃ m', b.res i = some m' ∧ SameHold m m'
  new : ∀ y ∈ ys, ∃ i m, b.res i = some m ∧ Restores a y m
  old : ∀ i m', b.res i = some m' →
    (∃ m, a.res i = some m ∧ SameHold m m') ∨ ∃ y ∈ ys, Restores a y m'

theorem RestoredRecord.hold {m' : SlotMeta} (h : RestoredRecord c x m) (hs : SameHold m m') :
    RestoredRecord c x m' where
  body := h.body.trans ⟨hs.key, hs.ref, (congrArg SlotMeta.usefulBytes hs :),
    (congrArg SlotMeta.live hs :)⟩
  refs := hs.refs.trans h.refs
  pending := (congrArg SlotMeta.removePending hs :).trans h.pending

theorem Evicts.restoredAll (h : Evicts a b []) (henv : b.env = a.env) : RestoredAll a b [] where
  inv := h.inv
  static := h.static
  env := henv
  kept i m hm := by
    rcases h.kept i m hm with hk | ⟨-, hmem, -⟩
    · exact hk
    · simp at hmem
  new := by simp
  old i m' hm' := Or.inl (h.old i m' hm')

theorem RestoredAll.cons (h : Admits a b [] i m) (henv : b.env = a.env) (hm : Restores a x m)
    {d : SlabAllocator} (hs : RestoredAll b d ys) : RestoredAll a d (x :: ys) where
  inv := hs.inv
  static := h.static.trans hs.static
  env := hs.env.trans henv
  kept j n hn := by
    rcases h.kept hn with ⟨n', hn', hh⟩ | ⟨hmem, -⟩
    · obtain ⟨n'', hn'', hh'⟩ := hs.kept j n' hn'
      exact ⟨n'', hn'', hh.trans hh'⟩
    · simp at hmem
  new y hy := by
    rcases mem_cons.mp hy with rfl | hy
    · obtain ⟨m', hm', hh⟩ := hs.kept i m h.new
      obtain ⟨c, hc, hrec⟩ := hm
      exact ⟨i, m', hm', c, hc, hrec.hold hh⟩
    · obtain ⟨j, n, hn, c, hc, hrec⟩ := hs.new y hy
      exact ⟨j, n, hn, c, (h.static.classForExactSize _).symm.trans hc, hrec⟩
  old j n' hn' := by
    rcases hs.old j n' hn' with ⟨n, hn, hh⟩ | ⟨y, hy, c, hc, hrec⟩
    · rcases h.old hn with ⟨-, rfl⟩ | ⟨n₀, hn₀, hh₀⟩
      · obtain ⟨c, hc, hrec⟩ := hm
        exact Or.inr ⟨x, mem_cons_self, c, hc, hrec.hold hh⟩
      · exact Or.inl ⟨n₀, hn₀, hh₀.trans hh⟩
    · exact Or.inr ⟨y, mem_cons_of_mem _ hy, c, (h.static.classForExactSize _).symm.trans hc, hrec⟩

/-- The install loop restores a prefix of the batch: all of it when it returns `true`, and it
returns `false` only at a slot number outside the class of its entry. -/
theorem restoreLoop_spec (xs : List RestoreEntry) : ∀ {a : SlabAllocator}, Inv a →
    (∀ x ∈ xs, ∃ c, Restorable a c x) → (xs.map (·.key)).Nodup →
    xs.Pairwise RestoreEntry.Compatible →
    ∃ ys zs, xs = ys ++ zs ∧ RestoredAll a (restoreLoop xs a).1 ys ∧
      ((restoreLoop xs a).2 → zs = []) ∧
      ((restoreLoop xs a).2 = false → ∃ x ∈ xs, ∃ c,
        a.classForExactSize x.slotSize = some c ∧ (a.classes c).slotsPerExtent ≤ x.slot) := by
  induction xs with
  | nil => exact fun h _ _ _ => ⟨[], [], rfl, (Evicts.refl h).restoredAll rfl, by simp,
      by simp [restoreLoop]⟩
  | cons x xs ih =>
    intro a h hall hnodup hpw
    obtain ⟨c, hx⟩ := hall x mem_cons_self
    obtain ⟨hkey, hnodup⟩ := nodup_cons.mp hnodup
    obtain ⟨hcompat, hpw⟩ := pairwise_cons.mp hpw
    obtain ⟨henv, ⟨-, i, m, hok, hrec, hadm, hcls⟩ | ⟨hge, hok, hev⟩⟩ := restoreOne_spec h hx
    · have hrest : ∀ y ∈ xs, ∃ c', Restorable (a.restoreOne x).1 c' y := by
        intro y hy
        obtain ⟨c', hc'⟩ := hall y (mem_cons_of_mem _ hy)
        exact ⟨c', hc'.after h hx (fun he => hkey (mem_map.mpr ⟨y, hy, he⟩))
          (hcompat y hy) hrec hadm hcls⟩
      obtain ⟨ys, zs, heq, hs, ht, hf⟩ := ih hadm.inv hrest hnodup hpw
      simp only [restoreLoop, hok, if_true]
      refine ⟨x :: ys, zs, by rw [heq, cons_append], .cons hadm henv ⟨c, hx.cls, hrec⟩ hs,
        ht, fun hfalse => ?_⟩
      obtain ⟨y, hy, c', hc', hle⟩ := hf hfalse
      exact ⟨y, mem_cons_of_mem _ hy, c', (hadm.static.classForExactSize _).symm.trans hc',
        hadm.static.perExtent c' ▸ hle⟩
    · simp only [restoreLoop, hok, Bool.false_eq_true, if_false]
      exact ⟨[], x :: xs, rfl, hev.restoredAll henv, by simp,
        fun _ => ⟨x, mem_cons_self, c, hx.cls, hge⟩⟩

/-- The batches `RestoreBulk` accepts. -/
def SlabAllocator.Accepts (a : SlabAllocator) (xs : List RestoreEntry) : Prop :=
  a.restoreValid xs [] [] = true ∧ adjacentDup ((xs.map (·.key)).insertionSort le) = false

theorem restoreBulk_spec (h : Inv a) (xs : List RestoreEntry) :
    (¬a.Accepts xs ∧ a.restoreBulk xs = (a, false)) ∨
    a.Accepts xs ∧ ∃ ys zs, xs = ys ++ zs ∧ RestoredAll a (a.restoreBulk xs).1 ys ∧
      ((a.restoreBulk xs).2 → zs = []) ∧
      ((a.restoreBulk xs).2 = false → ∃ x ∈ xs, ∃ c,
        a.classForExactSize x.slotSize = some c ∧ (a.classes c).slotsPerExtent ≤ x.slot) := by
  by_cases hacc : a.Accepts xs
  · refine Or.inr ⟨hacc, ?_⟩
    obtain ⟨hall, hpw⟩ := restoreValid_spec hacc.1
    have hnodup : (xs.map (·.key)).Nodup :=
      (perm_insertionSort le _).nodup_iff.mp
        (nodup_of_adjacentDup (pairwise_insertionSort le _) hacc.2)
    have heq : a.restoreBulk xs = restoreLoop xs a := if_pos hacc
    rw [heq]
    exact restoreLoop_spec xs h
      (fun x hx => h.restorable (hall x hx).1 (hall x hx).2.1) hnodup hpw
  · exact Or.inl ⟨hacc, if_neg hacc⟩

end DingoCache.Slab
