import DingoCache.Slab.Eviction

/-!
# Extent Binding, Steals and Background Eviction

Specs, in terms of `Evicts`, of the functions built from the victim block and the
extent operations:

- `bindExtentLocked_spec`, `bindFreeExtent_spec`,
- `drainExtent_spec`, `stealExtentLocked_spec` and the three choices of a donor,
- `reclaimClass_spec`, `evictColdToTarget_spec`.
-/

namespace DingoCache.Slab

open Library SlabAllocator

variable {a b : SlabAllocator} {i c e target : Nat} {m : SlotMeta} {ev : List BlockKey}

/-! ## Binding -/

theorem Static.bindExtent (h : Inv a) (he : (a.extents e).cls = none) :
    Static a (a.bindExtent c e) := by
  have hb := (SizeClass.pushExtent_spec (h.free.rotation c) (h.freeByExt_eq_nil he c)).base
  exact ⟨rfl, rfl, proj_update _ (congrArg SizeClass.slotSize hb :),
    proj_update _ (congrArg SizeClass.slotsPerExtent hb :), rfl, rfl, rfl⟩

theorem Shrinks.bindExtent (h : Inv a) (hc : c < a.classCount) (hlt : e < a.opt.numExtents)
    (he : (a.extents e).cls = none) : Shrinks a (a.bindExtent c e) [] :=
  (Evicts.of_res (h.bindExtent hc hlt he) (.bindExtent h he) rfl rfl).toShrinks

/-- The guard of `BindExtentLocked`. -/
def SlabAllocator.Bindable (a : SlabAllocator) (c e : Nat) : Prop :=
  c < a.classCount ∧ e < a.opt.numExtents ∧ (a.extents e).cls = none ∧
    (a.classes c).slotsPerExtent ≠ 0

/-- `BindExtentLocked`: nothing, a refused callback, or a fresh binding. -/
theorem bindExtentLocked_cases (a : SlabAllocator) (c e : Nat) (prepared : Bool) :
    let call := a.invoke (!prepared && a.opt.onExtentBind) (.extentBind e)
    (¬a.Bindable c e ∧ a.bindExtentLocked c e prepared = (a, .unavailable)) ∨
    (a.Bindable c e ∧ call.2 = false ∧
      a.bindExtentLocked c e prepared = (call.1, .persistenceError)) ∨
    (a.Bindable c e ∧ call.2 ∧
      a.bindExtentLocked c e prepared = (call.1.bindExtent c e, .bound)) := by
  intro call
  unfold bindExtentLocked SlabAllocator.Bindable
  split
  · rename_i hg
    refine Or.inl ⟨fun hb => ?_, rfl⟩
    rcases hg with hg | hg | hg
    · exact absurd hb.1 (Nat.not_lt.mpr hg)
    · exact absurd hb.2.1 (Nat.not_lt.mpr hg)
    · exact hg hb.2.2.1
  · rename_i hg
    split
    · rename_i h0
      exact Or.inl ⟨fun hb => hb.2.2.2 h0, rfl⟩
    · rename_i h0
      have hb : c < a.classCount ∧ e < a.opt.numExtents ∧ (a.extents e).cls = none ∧
          (a.classes c).slotsPerExtent ≠ 0 := by
        simp only [not_or, not_le, ne_eq, not_not] at hg
        exact ⟨hg.1, hg.2.1, hg.2.2, h0⟩
      cases hok : call.2 with
      | false => exact Or.inr (Or.inl ⟨hb, rfl, if_neg (by simpa using hok)⟩)
      | true => exact Or.inr (Or.inr ⟨hb, rfl, if_pos hok⟩)

theorem bindExtentLocked_spec (h : Inv a) {prepared : Bool} :
    Evicts a (a.bindExtentLocked c e prepared).1 [] := by
  rcases bindExtentLocked_cases a c e prepared with ⟨-, heq⟩ | ⟨-, hf, heq⟩ | ⟨hb, ht, heq⟩
  · rw [heq]
    exact .refl h
  · rw [heq]
    exact .refused h hf
  · obtain ⟨hc, hlt, he, -⟩ := hb
    rw [heq]
    refine .granted (.bindExtent h.invoke (by rwa [Static.invoke.classCount])
      (by rwa [Static.invoke.opt]) (by rw [extents_invoke, he])) rfl (fun j n hn => ?_)
      (fun j n hn hnone => ?_) nofun ht
    · exact h.extent_ne_of_unbound he (by rwa [← res_invoke])
    · have hkeep : (bindExtent
        (a.invoke (!prepared && a.opt.onExtentBind) (.extentBind e)).1 c e).res =
          a.res := res_invoke
      simp [hkeep, hn] at hnone

theorem bindExtentLocked_prepared (hb : a.Bindable c e) :
    a.bindExtentLocked c e true = (a.bindExtent c e, .bound) := by
  rcases bindExtentLocked_cases a c e true with ⟨hn, -⟩ | ⟨-, hf, -⟩ | ⟨-, -, heq⟩
  · exact absurd hb hn
  · simp [invoke] at hf
  · simpa [invoke] using heq

theorem bindFreeExtent_spec (h : Inv a) : Evicts a (a.bindFreeExtent c).1 [] := by
  unfold bindFreeExtent
  split
  · exact .refl h
  · split
    · exact .refl h
    · exact bindExtentLocked_spec h

/-! ## Draining an extent -/

/-- Residents of extent `e` left, no callback was made, and at most `e` was unbound. -/
structure Drained (e : Nat) (a b : SlabAllocator) (ev : List BlockKey) : Prop
    extends Shrinks a b ev where
  env : b.env = a.env
  only : ∀ i m, a.res i = some m → b.res i = none → m.ref.extent = e
  bound : ∀ e', e' ≠ e → (b.extents e').cls = (a.extents e').cls
  self : (b.extents e).cls = (a.extents e).cls ∨ (b.extents e).cls = none

theorem Drained.refl (h : Inv a) : Drained e a a [] :=
  ⟨(Evicts.refl h).toShrinks, rfl, fun i m hm hnone => by simp [hm] at hnone, fun _ _ => rfl,
    Or.inl rfl⟩

theorem Drained.trans {d : SlabAllocator} {ev' : List BlockKey} (h : Drained e a b ev)
    (h' : Drained e b d ev') : Drained e a d (ev ++ ev') := by
  refine ⟨h.toShrinks.trans h'.toShrinks, h'.env.trans h.env, fun i m hm hnone => ?_,
    fun e' he => (h'.bound e' he).trans (h.bound e' he), ?_⟩
  · rcases h.kept i m hm with ⟨m', hm', hs⟩ | ⟨hn, -⟩
    · exact hs.ref ▸ h'.only i m' hm' hnone
    · exact h.only i m hm hn
  · rcases h'.self with h2 | h2
    · rw [h2]
      exact h.self
    · exact Or.inr h2

theorem Drained.noteEviction (h : Drained e a b ev) : Drained e a b.noteEviction ev :=
  ⟨h.toShrinks.noteEviction, h.env, h.only, h.bound, h.self⟩

theorem cls_returnIdleExtent_ne {e' : Nat} (he : e' ≠ e) :
    ((a.returnIdleExtent c e).extents e').cls = (a.extents e').cls := by
  unfold returnIdleExtent
  split
  · exact congrArg ExtentMeta.cls (Function.update_of_ne he _ _)
  · rfl

theorem cls_returnIdleExtent_self : ((a.returnIdleExtent c e).extents e).cls = (a.extents e).cls ∨
    ((a.returnIdleExtent c e).extents e).cls = none := by
  unfold returnIdleExtent
  split
  · exact Or.inr (by simp [unbindExtent])
  · exact Or.inl rfl

theorem Drained.freeSlotLocked (h : Inv a) (hm : a.res i = some m) (hr : m.refs = 0)
    (ht : m.retainUntil = 0) : Drained m.ref.extent a (a.freeSlotLocked i) [m.key] := by
  have hun : ∀ e', ((a.unprotectIfRetained i).extents e').cls = (a.extents e').cls := by
    unfold unprotectIfRetained
    split
    · exact proj_update _ rfl
    · exact fun _ => rfl
  have hde : ∀ e', (((a.unprotectIfRetained i).detachResident i).extents e').cls =
      (a.extents e').cls := fun e' => (proj_update ExtentMeta.cls (by rfl) e').trans (hun e')
  refine ⟨.freeSlotLocked h hm hr ht, env_freeSlotLocked,
    fun j n hn hnone => by rw [h.eq_of_freed hm hn hnone], fun e' he => ?_, ?_⟩
  · rw [← Inv.slots_eq hm] at he
    exact (cls_returnIdleExtent_ne he).trans (hde e')
  · rw [← Inv.slots_eq hm, ← hde]
    exact cls_returnIdleExtent_self

/-- The loop of `StealExtentLocked`, by induction on the residents left in the extent. -/
theorem drainExtent_spec (n : Nat) : ∀ {a : SlabAllocator}, Inv a →
    (∀ i m, a.res i = some m → m.ref.extent = e → m.refs = 0 ∧ m.retainUntil = 0) →
    let r := drainExtent e n a
    Drained e a r.1 r.2 ∧
      ((a.extents e).residentCount ≤ n → ∀ i m, r.1.res i = some m → m.ref.extent ≠ e) := by
  induction n with
  | zero =>
    intro a h _
    refine ⟨.refl h, fun h0 i m (hm : a.res i = some m) hme => ?_⟩
    have hle := le_tally (w := inExtent e one) (h.lt_size hm) hm
    rw [← (h.extCounts e).resident] at hle
    simp only [inExtent, hme, if_true, one] at hle
    omega
  | succ n ih =>
    intro a h hfree
    unfold drainExtent
    cases hh : (a.extents e).residentHead with
    | none =>
      refine ⟨.refl h, fun _ i m (hm : a.res i = some m) hme => ?_⟩
      have hnil := h.ring.extent.head_eq_none.mp hh i
      simp [placeOf, hm, hme] at hnil
    | some i =>
      obtain ⟨m, hm, rfl⟩ := h.head_spec hh
      obtain ⟨hr, ht⟩ := hfree i m hm rfl
      have hstep := (Drained.freeSlotLocked h hm hr ht).noteEviction
      have hres := res_freeSlotLocked h hm
      obtain ⟨hdrain, hempty⟩ := ih hstep.inv fun j n hn hne => by
        obtain ⟨n₀, hn₀, hs⟩ := hstep.old j n hn
        obtain ⟨h1, h2⟩ := hfree j n₀ hn₀ (hs.ref ▸ hne)
        exact ⟨hs.refs.trans h1, hs.retainUntil.trans h2⟩
      simp only [Inv.slots_eq hm]
      refine ⟨hstep.trans hdrain, fun hcount => hempty ?_⟩
      -- one resident fewer is left in the extent
      have hrem := tally_remove (w := inExtent m.ref.extent one) (h.lt_size hm) hm
      have hsize : (a.freeSlotLocked i).table.size = a.table.size := by
        unfold freeSlotLocked returnIdleExtent
          unprotectIfRetained
        split <;> split <;> rfl
      have hafter := ((h.freeSlotLocked hm).extCounts m.ref.extent).resident
      rw [hres, hsize, hrem, ← (h.extCounts m.ref.extent).resident] at hafter
      simp only [inExtent, if_true, one] at hafter
      show ((a.freeSlotLocked i).extents m.ref.extent).residentCount ≤ n
      omega

/-! ## Stealing an extent -/

/-- What a steal guarantees, whatever its result. A steal that succeeds gives its class a whole
extent of free slots. -/
structure StealSpec (a : SlabAllocator) (target : Nat)
    (r : SlabAllocator × ExtentBindResult × List BlockKey) : Prop where
  evicts : Evicts a r.1 r.2.2
  keys : r.2.1 ≠ .bound → r.2.2 = []
  same : r.2.1 = .unavailable → r.1 = a
  room : Room a r.1 target (r.2.1 = .bound)

theorem StealSpec.unchanged (h : Inv a) : StealSpec a target (a, .unavailable, []) :=
  ⟨.refl h, fun _ => rfl, fun _ => rfl, .none rfl nofun⟩

theorem Inv.extRr_ne_nil (h : Inv a) (he : (a.extents e).cls = some c)
    (hper : (a.classes c).slotsPerExtent ≠ 0)
    (hempty : ∀ i m, a.res i = some m → m.ref.extent ≠ e) : (a.classes c).extRr ≠ [] := by
  have hmem : 0 ∈ (a.classes c).freeByExt e := by
    refine (h.free.mem_iff _ _ _).mpr ⟨he, Nat.pos_of_ne_zero hper, ?_⟩
    rintro i r hr ⟨hre, -⟩
    obtain ⟨m, hm, rfl⟩ := placeOf_eq_some.mp hr
    exact hempty i m hm hre
  have hrr := ((h.free.rotation c).rr_mem e).mpr (List.ne_nil_of_mem hmem)
  exact List.ne_nil_of_mem hrr

theorem Drained.unbindIfBound {old : Nat} (h : Drained e a b ev)
    (hold : (a.extents e).cls = some old)
    (hempty : ∀ i m, b.res i = some m → m.ref.extent ≠ e) :
    Shrinks a (b.unbindIfBound old e) ev ∧ (b.unbindIfBound old e).env = a.env ∧
      (b.unbindIfBound old e).res = b.res ∧ ((b.unbindIfBound old e).extents e).cls = none ∧
      ∀ e', e' ≠ e → ((b.unbindIfBound old e).extents e').cls = (a.extents e').cls := by
  unfold SlabAllocator.unbindIfBound
  by_cases hb : (b.extents e).cls = none
  · simp only [hb, ne_eq, not_true_eq_false, if_false]
    exact ⟨h.toShrinks, h.env, trivial, trivial, h.bound⟩
  · have hcls : (b.extents e).cls = some old := (h.self.resolve_right hb).trans hold
    simp only [hb, ne_eq, not_false_eq_true, if_true]
    have hun := Evicts.of_res (h.inv.unbindExtent hcls hempty) (.unbindExtent h.inv) rfl rfl
    refine ⟨by simpa using h.toShrinks.trans hun.toShrinks, h.env, rfl, by simp [unbindExtent],
      fun e' he' => Eq.trans ?_ (h.bound e' he')⟩
    exact congrArg ExtentMeta.cls (Function.update_of_ne he' _ _)

/-- Draining and rebinding an extent without pins and protections succeeds. -/
theorem rebindExtent_spec {old : Nat} (target : Nat) (h : Inv a)
    (hcls : (a.extents e).cls = some old)
    (htarget : target < a.classCount) (hper : (a.classes target).slotsPerExtent ≠ 0)
    (hpin : (a.extents e).pinned = 0) (hprot : (a.extents e).protectedSlots = 0) :
    let r := a.rebindExtent e old target
    r.2.1 = .bound ∧ Shrinks a r.1 r.2.2 ∧ r.1.env = a.env ∧
      (∀ i m, r.1.res i = some m → m.ref.extent ≠ e) ∧
      (∀ i m, a.res i = some m → r.1.res i = none → m.ref.extent = e) ∧
      (r.1.extents e).cls = some target ∧
      ∀ e', e' ≠ e → (r.1.extents e').cls = (a.extents e').cls := by
  have hfree : ∀ i m, a.res i = some m → m.ref.extent = e → m.refs = 0 ∧ m.retainUntil = 0 := by
    rintro i m hm rfl
    exact ⟨h.refs_eq_zero hm hpin, h.retainUntil_eq_zero hm hprot⟩
  obtain ⟨hdrain, hempty⟩ := drainExtent_spec (a.extents e).residentCount h hfree
  have hempty := hempty le_rfl
  obtain ⟨hb, henv, hres, hnone, hother⟩ := hdrain.unbindIfBound hcls hempty
  have hbind : (unbindIfBound _ old e).Bindable target e :=
    ⟨hb.static.classCount ▸ htarget, hb.static.opt ▸ (h.bound.lt e old hcls).1, hnone,
      (hb.static.perExtent target).symm ▸ hper⟩
  have hsh := hb.trans (Shrinks.bindExtent hb.inv hbind.1 hbind.2.1 hbind.2.2.1)
  rw [List.append_nil] at hsh
  unfold rebindExtent
  dsimp only
  rw [bindExtentLocked_prepared hbind, if_pos rfl]
  refine ⟨rfl, hsh.withStats _, henv, fun i m hm => hempty i m (hres ▸ hm),
    fun i m hm hgone => hdrain.only i m hm (hres ▸ hgone), by simp [noteSteal, bindExtent],
    fun e' he' => ?_⟩
  exact (congrArg ExtentMeta.cls (Function.update_of_ne he' _ _)).trans (hother e' he')

theorem stealExtentLocked_spec (h : Inv a) (e target : Nat) :
    StealSpec a target (a.stealExtentLocked e target) := by
  unfold stealExtentLocked
  cases hcls : (a.extents e).cls with
  | none => exact .unchanged h
  | some old =>
    dsimp only
    split
    · exact .unchanged h
    · rename_i hg
      simp only [not_or, not_le, ne_eq, not_not] at hg
      obtain ⟨htarget, hper, hpin, hprot⟩ := hg
      split
      · rename_i hok
        have hper' : ((a.invoke a.opt.onExtentBind (.extentBind e)).1.classes
            target).slotsPerExtent ≠ 0 := by rwa [classes_invoke]
        have hext : (a.invoke a.opt.onExtentBind (.extentBind e)).1.extents = a.extents :=
          extents_invoke
        obtain ⟨hbound, hsh, henv, hempty, honly, hself, hother⟩ := rebindExtent_spec target
          h.invoke (hext ▸ hcls) (by rwa [Static.invoke.classCount]) hper' (hext ▸ hpin)
            (hext ▸ hprot)
        have hev := Evicts.granted hsh henv hempty (fun j n hn hnone => by
          cases ho : a.opt.onExtentBind with
          | false => simp
          | true => exact Or.inl ⟨rfl, honly j n (by rwa [res_invoke]) hnone⟩) nofun hok
        refine ⟨hev, fun hne => absurd hbound hne, fun hun => by simp [hbound] at hun,
          fun hall e' he' => ?_, fun _ => hsh.inv.extRr_ne_nil hself
            ((hsh.static.perExtent target).symm ▸ hper') hempty⟩
        by_cases hee : e' = e
        · simp [hee, hself]
        · rw [hother e' hee, hext]
          exact hall e' (hev.static.opt ▸ he')
      · rename_i hno
        exact ⟨.refused h (by simpa using hno), fun _ => rfl, nofun,
          .none (allBound_invoke a _ _) nofun⟩

theorem stealExtentFor_spec (h : Inv a) (target minDonor : Nat) :
    StealSpec a target (a.stealExtentFor target minDonor) := by
  unfold stealExtentFor
  dsimp only
  split
  · exact .unchanged h
  · exact stealExtentLocked_spec h _ _

theorem stealColdExtentFor_spec (h : Inv a) (target : Nat) :
    StealSpec a target (a.stealColdExtentFor target) := by
  unfold stealColdExtentFor
  dsimp only
  split
  · exact .unchanged h
  · split
    · exact .unchanged h
    · rename_i e _
      obtain ⟨hev, hk, hsame, hroom⟩ := stealExtentLocked_spec h e target
      split
      · rename_i hb
        exact ⟨hev.withStats _, hk, fun hun => by simp [hb] at hun, hroom.bound, hroom.free⟩
      · exact ⟨hev, hk, hsame, hroom⟩

theorem stealFrom_spec (h : Inv a) {donor : Nat} :
    Evicts a (a.stealFrom donor target).1 (a.stealFrom donor target).2.2 := by
  unfold stealFrom
  split
  · exact .refl h
  · dsimp only
    split
    · exact .refl h
    · exact (stealExtentLocked_spec h _ _).evicts

/-! ## Background eviction -/

theorem reclaimLoop_spec {targetFree : Nat} (n : Nat) : ∀ {a : SlabAllocator}, Inv a →
    Evicts a (reclaimLoop c targetFree n a).1
      (reclaimLoop c targetFree n a).2.2 := by
  induction n with
  | zero => exact fun h => .refl h
  | succ n ih =>
    intro a h
    have hone := (evictOneFrom_spec (c := c) h).evicts
    unfold reclaimLoop
    split
    · dsimp only
      split
      · exact hone
      · split
        · exact hone
        · exact hone.trans (ih hone.inv)
    · exact .refl h

theorem reclaimClass_spec (h : Inv a) {targetFree maxVictims : Nat} :
    Evicts a (a.reclaimClass c targetFree maxVictims).1
      (a.reclaimClass c targetFree maxVictims).2.2 := by
  unfold reclaimClass
  split
  · exact .refl h
  · exact reclaimLoop_spec _ h

theorem Inv.extent_ne_of_last (h : Inv a) (hm : a.res i = some m)
    (hlast : (a.extents m.ref.extent).residentCount = 1) {j : Nat} {n : SlotMeta}
    (hn : (a.freeSlotLocked i).res j = some n) : n.ref.extent ≠ m.ref.extent := by
  intro he
  rw [res_freeSlotLocked h hm] at hn
  have hj : j ≠ i := by
    rintro rfl
    simp at hn
  have hrem := tally_remove (w := inExtent m.ref.extent one) (h.lt_size hm) hm
  have hjn : a.res j = some n := by simpa [hj] using hn
  have hle := le_tally (w := inExtent m.ref.extent one) (h.lt_size hjn) hn
  rw [hrem, ← (h.extCounts _).resident, hlast] at hle
  simp [inExtent, one, he] at hle

theorem Evicts.evictWith (installed : Bool) (call : MetaCall) (h : Inv a) (hm : a.res i = some m)
    (hr : m.refs = 0) (ht : m.retainUntil = 0) (hok : (a.invoke installed call).2)
    (hcov : call.Covers m.ref)
    (hclear : ∀ j n, (a.freeSlotLocked i).res j = some n → ¬call.Covers n.ref)
    (hin : installed ∨ (a.opt.onExtentBind && a.opt.onExtentEvict && a.opt.onSlotEvict) = false) :
    Evicts a ((a.invoke installed call).1.freeSlotLocked i).noteEviction.noteWatermark
      [m.key] := by
  have hm' : (a.invoke installed call).1.res i = some m := by rw [res_invoke, hm]
  have hfree : ((a.invoke installed call).1.freeSlotLocked i).res = (a.freeSlotLocked i).res := by
    rw [res_freeSlotLocked h.invoke hm', res_freeSlotLocked h hm, res_invoke]
  refine .granted (((Shrinks.freeSlotLocked h.invoke hm' hr ht).noteEviction).withStats _)
    env_freeSlotLocked (fun j n hn => hclear j n (hfree ▸ hn))
    (fun j n hn hnone => ?_) (fun _ _ => ⟨i, m, hm, hcov⟩) hok
  rcases hin with hin | hin
  · have hnm : n = m := h.eq_of_freed hm hn (hfree ▸ hnone)
    exact Or.inl ⟨hin, hnm ▸ hcov⟩
  · exact Or.inr hin

theorem coldCallback_spec (h : Inv a) (hm : a.res i = some m) (hr : m.refs = 0)
    (ht : m.retainUntil = 0) :
    if (a.coldCallback i).2 then
      Evicts a ((a.coldCallback i).1.freeSlotLocked i).noteEviction.noteWatermark [m.key]
    else Evicts a (a.coldCallback i).1 [] := by
  unfold coldCallback
  simp only [Inv.slots_eq hm]
  split
  · rename_i hlast
    split
    · rename_i hok
      exact .evictWith _ _ h hm hr ht hok rfl (fun j n hn => h.extent_ne_of_last hm hlast.1 hn)
        (Or.inl rfl)
    · rename_i hno
      exact .refused h (by simpa using hno)
  · split
    · split
      · rename_i hok
        exact .evictWith _ _ h hm hr ht hok ⟨rfl, rfl⟩ (fun j n hn => h.slot_ne_of_freed hm hn)
          (Or.inl rfl)
      · rename_i hno
        exact .refused h (by simpa using hno)
    · rename_i hslot
      split
      · exact .evictWith false (.slotEvict m.ref) h hm hr ht rfl ⟨rfl, rfl⟩
          (fun j n hn => h.slot_ne_of_freed hm hn) (Or.inr (by simp [hslot]))
      · exact .refl h

theorem evictColdLoop_spec {targetBytes : Nat} (n : Nat) :
    ∀ {victims : Nat} {a : SlabAllocator}, Inv a →
      Evicts a (evictColdLoop targetBytes n victims a).1
        (evictColdLoop targetBytes n victims a).2 := by
  induction n with
  | zero => exact fun h => .refl h
  | succ n ih =>
    intro victims a h
    unfold evictColdLoop
    cases hhand : a.globalRing.hand with
    | none => exact .refl h
    | some i =>
      obtain ⟨m, hm⟩ := h.globalHand_spec hhand
      have hscan : Evicts a a.noteScanStep [] := (Evicts.refl h).withStats _
      have hms : a.noteScanStep.res i = some m := hm
      dsimp only
      split
      · simp only [Inv.slots_eq hm]
        split
        · have hadv := hscan.trans (.advanceGlobalHand hscan.inv hhand)
          exact hadv.trans (ih hadv.inv)
        · rename_i hrefs
          have hr : m.refs = 0 := by omega
          split
          · have hskip := hscan.trans (.noteRetainSkip hscan.inv)
            have hadv := hskip.trans (.advanceGlobalHand hskip.inv hhand)
            exact hadv.trans (ih hadv.inv)
          · rename_i hret
            have ht : m.retainUntil = 0 := by simpa using hret
            have hcold := coldCallback_spec hscan.inv hms hr ht
            split
            · rename_i hok
              rw [if_pos hok] at hcold
              have hev := hscan.trans hcold
              exact hev.trans (ih hev.inv)
            · rename_i hno
              rw [if_neg hno] at hcold
              exact hscan.trans hcold
      · exact .refl h

theorem evictColdToTarget_spec (h : Inv a) {targetBytes maxVictims : Nat} :
    Evicts a (a.evictColdToTarget targetBytes maxVictims).1
      (a.evictColdToTarget targetBytes maxVictims).2 :=
  evictColdLoop_spec _ h

end DingoCache.Slab
