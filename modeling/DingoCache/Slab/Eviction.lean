import DingoCache.Slab.Residency

/-!
# Capacity Eviction

Every function that makes room forgets some unpinned, unprotected residents and
leaves the others alone:

- `Shrinks a a' ev`: `a'` satisfies the invariant, its residents are those of `a`
  (up to the reference bit) without the ones whose keys `ev` lists.
- `Evicts a a' ev`: in addition, every forgotten placement was invalidated by a
  successful callback, and no successful callback hit a remaining placement.

Both compose; the specs of the CLOCK sweep, the extent steals and the global
sweep are instances. `Put` evicts only when its class has no free slot and no extent is
unbound; `Room` says that the eviction leaves the class one and unbinds nothing.
-/

namespace DingoCache.Slab

open Library SlabAllocator
open Function (update_of_ne update_self)

variable {installed : Bool} {call : MetaCall}

/-! ## The relation -/

def MetaCall.Covers : MetaCall → SlotRef → Prop
  | .extentBind e, r => r.extent = e
  | .extentEvict e _ _, r => r.extent = e
  | .slotEvict r', r => r'.extent = r.extent ∧ r'.slot = r.slot

/-- Options, geometry and clocks are the same. -/
structure Static (a a' : SlabAllocator) : Prop where
  opt : a'.opt = a.opt
  classCount : a'.classCount = a.classCount
  slotSize : ∀ c, (a'.classes c).slotSize = (a.classes c).slotSize
  perExtent : ∀ c, (a'.classes c).slotsPerExtent = (a.classes c).slotsPerExtent
  seq : a'.activitySeq = a.activitySeq
  retain : a'.retention.opt = a.retention.opt
  now : a'.retention.nowS = a.retention.nowS

def SameHold (m m' : SlotMeta) : Prop := m' = { m with referenced := m'.referenced }

/-- The residents of `a'` are those of `a` without the evicted ones. -/
structure Shrinks (a a' : SlabAllocator) (ev : List BlockKey) : Prop where
  inv : Inv a'
  static : Static a a'
  kept : ∀ i m, a.res i = some m → (∃ m', a'.res i = some m' ∧ SameHold m m') ∨
    a'.res i = none ∧ m.key ∈ ev ∧ m.refs = 0 ∧ m.retainUntil = 0
  old : ∀ i m', a'.res i = some m' → ∃ m, a.res i = some m ∧ SameHold m m'
  gone : ∀ k ∈ ev, (∃ i m, a.res i = some m ∧ m.key = k) ∧ ∀ i m, a'.res i = some m → m.key ≠ k
  nodup : ev.Nodup

/-- A shrinking run of the allocator together with its callbacks. -/
structure Evicts (a a' : SlabAllocator) (ev : List BlockKey) : Prop extends Shrinks a a' ev where
  calls : ∃ cs, a'.env.calls = a.env.calls ++ cs ∧
    (∀ call, (call, true) ∈ cs → ∀ i m, a'.res i = some m → ¬call.Covers m.ref) ∧
    (a.opt.onExtentBind = true → a.opt.onExtentEvict = true → a.opt.onSlotEvict = true →
      ∀ i m, a.res i = some m → a'.res i = none → ∃ call, (call, true) ∈ cs ∧ call.Covers m.ref) ∧
    ∀ ref, (.slotEvict ref, true) ∈ cs →
      ∃ i m, a.res i = some m ∧ (MetaCall.slotEvict ref).Covers m.ref

variable {a b d : SlabAllocator} {i c e : Nat} {m m' m'' : SlotMeta} {ev ev' : List BlockKey}

theorem SameHold.refl (m : SlotMeta) : SameHold m m := rfl

theorem SameHold.trans (h : SameHold m m') (h' : SameHold m' m'') : SameHold m m'' := by
  unfold SameHold at *
  rw [h', h]

theorem SameHold.key (h : SameHold m m') : m'.key = m.key := (congrArg SlotMeta.key h :)

theorem SameHold.ref (h : SameHold m m') : m'.ref = m.ref := (congrArg SlotMeta.ref h :)

theorem SameHold.refs (h : SameHold m m') : m'.refs = m.refs := (congrArg SlotMeta.refs h :)

theorem SameHold.retainUntil (h : SameHold m m') : m'.retainUntil = m.retainUntil :=
  (congrArg SlotMeta.retainUntil h :)

theorem Static.refl (a : SlabAllocator) : Static a a :=
  ⟨rfl, rfl, fun _ => rfl, fun _ => rfl, rfl, rfl, rfl⟩

theorem Static.trans (h : Static a b) (h' : Static b d) : Static a d :=
  ⟨h'.opt.trans h.opt, h'.classCount.trans h.classCount,
    fun c => (h'.slotSize c).trans (h.slotSize c), fun c => (h'.perExtent c).trans (h.perExtent c),
    h'.seq.trans h.seq, h'.retain.trans h.retain, h'.now.trans h.now⟩

theorem Shrinks.trans (h : Shrinks a b ev) (h' : Shrinks b d ev') : Shrinks a d (ev ++ ev') where
  inv := h'.inv
  static := h.static.trans h'.static
  kept i m hm := by
    rcases h.kept i m hm with ⟨m₁, hm₁, hs₁⟩ | ⟨hn, hk, hr, ht⟩
    · rcases h'.kept i m₁ hm₁ with ⟨m₂, hm₂, hs₂⟩ | ⟨hn, hk, hr, ht⟩
      · exact Or.inl ⟨m₂, hm₂, hs₁.trans hs₂⟩
      · refine Or.inr ⟨hn, ?_, hs₁.refs ▸ hr, hs₁.retainUntil ▸ ht⟩
        exact List.mem_append_right _ (hs₁.key ▸ hk)
    · refine Or.inr ⟨?_, List.mem_append_left _ hk, hr, ht⟩
      cases hd : d.res i with
      | none => rfl
      | some m₂ =>
        obtain ⟨m₁, hm₁, -⟩ := h'.old i m₂ hd
        simp [hn] at hm₁
  old i m₂ hm₂ := by
    obtain ⟨m₁, hm₁, hs₂⟩ := h'.old i m₂ hm₂
    obtain ⟨m, hm, hs₁⟩ := h.old i m₁ hm₁
    exact ⟨m, hm, hs₁.trans hs₂⟩
  gone k hk := by
    rcases List.mem_append.mp hk with hk | hk
    · refine ⟨(h.gone k hk).1, fun i m₂ hm₂ => ?_⟩
      obtain ⟨m₁, hm₁, hs⟩ := h'.old i m₂ hm₂
      exact hs.key ▸ (h.gone k hk).2 i m₁ hm₁
    · obtain ⟨⟨i, m₁, hm₁, hkey⟩, hnone⟩ := h'.gone k hk
      obtain ⟨m, hm, hs⟩ := h.old i m₁ hm₁
      exact ⟨⟨i, m, hm, hs.key ▸ hkey⟩, hnone⟩
  nodup := by
    rw [List.nodup_append]
    refine ⟨h.nodup, h'.nodup, ?_⟩
    rintro k hk _ hk' rfl
    obtain ⟨⟨i, m₁, hm₁, hkey⟩, -⟩ := h'.gone k hk'
    exact (h.gone k hk).2 i m₁ hm₁ hkey

theorem Evicts.trans (h : Evicts a b ev) (h' : Evicts b d ev') : Evicts a d (ev ++ ev') := by
  refine ⟨h.toShrinks.trans h'.toShrinks, ?_⟩
  obtain ⟨cs, hcs, hclear, hcover, hslot⟩ := h.calls
  obtain ⟨cs', hcs', hclear', hcover', hslot'⟩ := h'.calls
  refine ⟨cs ++ cs', by rw [hcs', hcs, List.append_assoc], fun call hmem i m₂ hm₂ => ?_, ?_,
    fun ref hmem => ?_⟩
  · rcases List.mem_append.mp hmem with hmem | hmem
    · obtain ⟨m₁, hm₁, hs⟩ := h'.old i m₂ hm₂
      rw [hs.ref]
      exact hclear call hmem i m₁ hm₁
    · exact hclear' call hmem i m₂ hm₂
  · intro h1 h2 h3 i m hm hnone
    rcases h.kept i m hm with ⟨m₁, hm₁, hs⟩ | ⟨hn, -, -, -⟩
    · rw [← h.static.opt] at h1 h2 h3
      obtain ⟨call, hmem, hcov⟩ := hcover' h1 h2 h3 i m₁ hm₁ hnone
      exact ⟨call, List.mem_append_right _ hmem, hs.ref ▸ hcov⟩
    · obtain ⟨call, hmem, hcov⟩ := hcover h1 h2 h3 i m hm hn
      exact ⟨call, List.mem_append_left _ hmem, hcov⟩
  · rcases List.mem_append.mp hmem with hmem | hmem
    · exact hslot ref hmem
    · obtain ⟨i, m₁, hm₁, hcov⟩ := hslot' ref hmem
      obtain ⟨m, hm, hs⟩ := h.old i m₁ hm₁
      exact ⟨i, m, hm, hs.ref ▸ hcov⟩

/-! ## Steps that keep every resident -/

theorem Evicts.of_hold (hinv : Inv b) (hst : Static a b)
    (hres : ∀ j m, a.res j = some m → ∃ m', b.res j = some m' ∧ SameHold m m')
    (hold : ∀ j m', b.res j = some m' → ∃ m, a.res j = some m ∧ SameHold m m')
    (henv : b.env = a.env) : Evicts a b [] := by
  refine ⟨⟨hinv, hst, fun j m hm => Or.inl (hres j m hm), hold, by simp, List.nodup_nil⟩,
    [], by simp [henv], by simp, fun _ _ _ i m hm hnone => ?_, by simp⟩
  obtain ⟨m', hm', -⟩ := hres i m hm
  simp [hnone] at hm'

theorem Evicts.of_res (hinv : Inv b) (hst : Static a b) (hres : b.res = a.res)
    (henv : b.env = a.env) : Evicts a b [] :=
  .of_hold hinv hst (fun _ m hm => ⟨m, hres ▸ hm, .refl m⟩)
    (fun _ m hm => ⟨m, hres ▸ hm, .refl m⟩) henv

theorem Evicts.refl (h : Inv a) : Evicts a a [] := .of_res h (.refl a) rfl rfl

theorem Evicts.advanceClassHand (h : Inv a)
    (hh : (a.classes c).ring.hand.or (a.classes c).ring.head = some i) :
    Evicts a (a.advanceClassHand c i) [] :=
  .of_res (h.advanceClassHand hh) ⟨rfl, rfl, proj_update _ rfl, proj_update _ rfl, rfl, rfl, rfl⟩
    rfl rfl

theorem Evicts.advanceGlobalHand (h : Inv a) (hh : a.globalRing.hand = some i) :
    Evicts a (a.advanceGlobalHand i) [] :=
  .of_res (h.advanceGlobalHand hh) ⟨rfl, rfl, fun _ => rfl, fun _ => rfl, rfl, rfl, rfl⟩ rfl rfl

theorem Inv.noteRetainSkip (h : Inv a) : Inv a.noteRetainSkip := h.frame le_rfl h.retain rfl

theorem Evicts.noteRetainSkip (h : Inv a) : Evicts a a.noteRetainSkip [] :=
  .of_res h.noteRetainSkip ⟨rfl, rfl, fun _ => rfl, fun _ => rfl, rfl, rfl, rfl⟩ rfl rfl

theorem Evicts.clearReferenced (h : Inv a) (hm : a.res i = some m) :
    Evicts a (a.setSlot i { m with referenced := false }) [] := by
  have hbody : SameBody m { m with referenced := false } := ⟨rfl, rfl, rfl, rfl⟩
  have hres := res_setSlot hm hbody
  refine .of_hold (h.setSlot hm ⟨rfl, rfl, rfl, rfl⟩ rfl rfl rfl)
    ⟨rfl, rfl, fun _ => rfl, fun _ => rfl, rfl, rfl, rfl⟩ (fun j n hn => ?_)
    (fun j n hn => ?_) rfl
  · rcases eq_or_ne j i with rfl | hj
    · rw [hm, Option.some.injEq] at hn
      subst hn
      exact ⟨{ m with referenced := false }, by rw [hres, update_self], rfl⟩
    · exact ⟨n, by rw [hres, update_of_ne hj, hn], .refl n⟩
  · rcases eq_or_ne j i with rfl | hj
    · rw [hres, update_self, Option.some.injEq] at hn
      exact ⟨m, hm, by rw [← hn]; rfl⟩
    · rw [hres, update_of_ne hj] at hn
      exact ⟨n, hn, .refl n⟩

theorem Shrinks.withStats (h : Shrinks a b ev) (s : Stats) : Shrinks a { b with stats := s } ev :=
  ⟨h.inv.quiet le_rfl rfl, h.static.trans ⟨rfl, rfl, fun _ => rfl, fun _ => rfl, rfl, rfl, rfl⟩,
    h.kept, h.old, h.gone, h.nodup⟩

theorem Shrinks.noteEviction (h : Shrinks a b ev) : Shrinks a b.noteEviction ev := h.withStats _

theorem Evicts.withStats (h : Evicts a b ev) (s : Stats) : Evicts a { b with stats := s } ev :=
  ⟨h.toShrinks.withStats s, h.calls⟩

/-! ## Forgetting one resident -/

theorem Static.unbindExtent (h : Inv a) : Static a (a.unbindExtent c e) := by
  have hb := (SizeClass.dropExtentFree_spec (h.free.rotation c) e).base
  exact ⟨rfl, rfl, proj_update _ (congrArg SizeClass.slotSize hb :),
    proj_update _ (congrArg SizeClass.slotsPerExtent hb :), rfl, rfl, rfl⟩

theorem Static.returnIdleExtent (h : Inv a) : Static a (a.returnIdleExtent c e) := by
  unfold SlabAllocator.returnIdleExtent
  split
  · exact (Static.unbindExtent h).trans ⟨rfl, rfl, fun _ => rfl, fun _ => rfl, rfl, rfl, rfl⟩
  · exact .refl a

theorem Static.freeSlotLocked (h : Inv a) (hm : a.res i = some m) :
    Static a (a.freeSlotLocked i) := by
  have hun : Static a (a.unprotectIfRetained i) := by
    unfold unprotectIfRetained
    split
    · exact ⟨rfl, rfl, proj_update _ rfl, proj_update _ rfl, rfl, rfl, rfl⟩
    · exact .refl a
  have hde : Static (a.unprotectIfRetained i) ((a.unprotectIfRetained i).detachResident i) :=
    ⟨rfl, rfl, proj_update _ rfl, proj_update _ rfl, rfl, rfl, rfl⟩
  exact (hun.trans hde).trans (.returnIdleExtent (h.detachFreed hm))

theorem SlabAllocator.env_freeSlotLocked : (a.freeSlotLocked i).env = a.env := by
  have hun : (a.unprotectIfRetained i).env = a.env := by
    unfold unprotectIfRetained
    split <;> rfl
  unfold freeSlotLocked returnIdleExtent
  split <;> exact hun

/-- `FreeSlotLocked` on an unpinned, unprotected resident. -/
theorem Shrinks.freeSlotLocked (h : Inv a) (hm : a.res i = some m) (hr : m.refs = 0)
    (ht : m.retainUntil = 0) : Shrinks a (a.freeSlotLocked i) [m.key] := by
  have hres := res_freeSlotLocked h hm
  refine ⟨h.freeSlotLocked hm, .freeSlotLocked h hm, fun j n hn => ?_, fun j n hn => ?_, ?_,
    by simp⟩
  · rcases eq_or_ne j i with rfl | hj
    · rw [hm, Option.some.injEq] at hn
      subst hn
      exact Or.inr ⟨by rw [hres, update_self], by simp, hr, ht⟩
    · exact Or.inl ⟨n, by rw [hres, update_of_ne hj, hn], .refl n⟩
  · have hj : j ≠ i := by
      rintro rfl
      simp [hres] at hn
    rw [hres, update_of_ne hj] at hn
    exact ⟨n, hn, .refl n⟩
  · simp only [List.mem_singleton, forall_eq]
    refine ⟨⟨i, m, hm, rfl⟩, fun j n hn hk => ?_⟩
    have hj : j ≠ i := by
      rintro rfl
      simp [hres] at hn
    rw [hres, update_of_ne hj] at hn
    exact hj (h.key_inj hn hm hk)

theorem Inv.invoke (h : Inv a) : Inv (a.invoke installed call).1 := by
  unfold SlabAllocator.invoke
  split
  · exact h.quiet le_rfl rfl
  · exact h

@[simp] theorem SlabAllocator.res_invoke : (a.invoke installed call).1.res = a.res := by
  unfold invoke
  split <;> rfl

@[simp] theorem SlabAllocator.extents_invoke : (a.invoke installed call).1.extents = a.extents := by
  unfold invoke
  split <;> rfl

@[simp] theorem SlabAllocator.classes_invoke : (a.invoke installed call).1.classes = a.classes := by
  unfold invoke
  split <;> rfl

theorem Static.invoke : Static a (a.invoke installed call).1 := by
  unfold SlabAllocator.invoke
  split
  · exact ⟨rfl, rfl, fun _ => rfl, fun _ => rfl, rfl, rfl, rfl⟩
  · exact .refl a

theorem SlabAllocator.invoke_calls (a : SlabAllocator) (installed : Bool) (call : MetaCall) :
    ∃ cs, (a.invoke installed call).1.env.calls = a.env.calls ++ cs ∧
      (installed → (call, (a.invoke installed call).2) ∈ cs) ∧
      ∀ x ∈ cs, x = (call, (a.invoke installed call).2) := by
  unfold invoke
  cases installed
  · exact ⟨[], by simp, by simp, by simp⟩
  · exact ⟨_, rfl, by simp, by simp⟩

theorem Evicts.refused (h : Inv a) (hf : (a.invoke installed call).2 = false) :
    Evicts a (a.invoke installed call).1 [] := by
  obtain ⟨cs, hcs, -, hall⟩ := a.invoke_calls installed call
  have hnone (call' : MetaCall) (hmem : (call', true) ∈ cs) : False := by
    simpa [hf] using hall _ hmem
  refine ⟨⟨h.invoke, .invoke, fun j n hn => Or.inl ⟨n, by simpa using hn, .refl n⟩,
    fun j n hn => ⟨n, by simpa using hn, .refl n⟩, by simp, List.nodup_nil⟩, cs, hcs,
    fun call' hmem => (hnone call' hmem).elim, fun _ _ _ j n hn hnone => ?_,
    fun ref hmem => (hnone _ hmem).elim⟩
  simp [hn] at hnone

/-- A granted callback followed by the removal of exactly what it covers. -/
theorem Evicts.granted (hs : Shrinks (a.invoke installed call).1 b ev)
    (henv : b.env = (a.invoke installed call).1.env)
    (hclear : ∀ j n, b.res j = some n → ¬call.Covers n.ref)
    (hcover : ∀ j n, a.res j = some n → b.res j = none → installed ∧ call.Covers n.ref ∨
      (a.opt.onExtentBind && a.opt.onExtentEvict && a.opt.onSlotEvict) = false)
    (hslot : ∀ ref, call = .slotEvict ref → ∃ i m, a.res i = some m ∧ call.Covers m.ref)
    (hok : (a.invoke installed call).2) : Evicts a b ev := by
  obtain ⟨cs, hcs, hin, hall⟩ := a.invoke_calls installed call
  rw [hok] at hin hall
  refine ⟨⟨hs.inv, Static.invoke.trans hs.static, by simpa using hs.kept, by simpa using hs.old,
    by simpa using hs.gone, hs.nodup⟩, cs, by rw [henv, hcs], ?_, ?_, ?_⟩
  · intro call' hmem j n hn
    cases hall _ hmem
    exact hclear j n hn
  · intro h1 h2 h3 j n hn hnone
    rcases hcover j n hn hnone with ⟨hi, hc⟩ | hc
    · exact ⟨call, hin hi, hc⟩
    · simp [h1, h2, h3] at hc
  · intro ref hmem
    cases hall _ hmem
    exact hslot ref rfl

theorem Inv.slot_ne_of_freed (h : Inv a) (hm : a.res i = some m) {j : Nat} {n : SlotMeta}
    (hn : (a.freeSlotLocked i).res j = some n) : ¬(MetaCall.slotEvict m.ref).Covers n.ref := by
  rintro ⟨he, hs⟩
  rw [res_freeSlotLocked h hm] at hn
  have hj : j ≠ i := by
    rintro rfl
    simp at hn
  rw [update_of_ne hj] at hn
  exact hj (h.place.inj j i n.ref m.ref (placeOf_eq_some.mpr ⟨n, hn, rfl⟩)
    (placeOf_eq_some.mpr ⟨m, hm, rfl⟩) he.symm hs.symm)

theorem Inv.eq_of_freed (h : Inv a) (hm : a.res i = some m) {j : Nat} {n : SlotMeta}
    (hn : a.res j = some n) (hnone : (a.freeSlotLocked i).res j = none) : n = m := by
  rw [res_freeSlotLocked h hm] at hnone
  rcases eq_or_ne j i with rfl | hj
  · rw [hm, Option.some.injEq] at hn
    exact hn.symm
  · simp [hj, hn] at hnone

/-- The victim block: one unprotected resident goes, or the callback refuses. -/
theorem evictVictim_spec (h : Inv a) (hm : a.res i = some m) (hr : m.refs = 0)
    (ht : m.retainUntil = 0) :
    Evicts a (a.evictVictim i).1 (a.evictVictim i).2.2 ∧
      (a.evictVictim i).2.2 = if (a.evictVictim i).2.1 then [m.key] else [] := by
  obtain rfl := Inv.slots_eq hm
  have hinv : Inv (a.invoke a.opt.onSlotEvict (.slotEvict (a.slots i).ref)).1 := h.invoke
  have hm' : (a.invoke a.opt.onSlotEvict (.slotEvict (a.slots i).ref)).1.res i =
      some (a.slots i) := by rw [res_invoke, hm]
  unfold evictVictim
  dsimp only
  split
  · rename_i hok
    refine ⟨.granted (Shrinks.freeSlotLocked hinv hm' hr ht).noteEviction
      env_freeSlotLocked (fun j n hn => hinv.slot_ne_of_freed hm' hn)
      (fun j n hn hnone => ?_) (fun _ _ => ⟨i, _, hm, rfl, rfl⟩) hok, by simp⟩
    cases ho : a.opt.onSlotEvict with
    | false => simp
    | true =>
      have hnm : n = a.slots i := hinv.eq_of_freed hm' (by rwa [res_invoke]) hnone
      exact Or.inl ⟨rfl, by rw [hnm]; exact ⟨rfl, rfl⟩⟩
  · rename_i hno
    exact ⟨.refused h (by simpa using hno), by simp⟩

/-! ## Room for the next round -/

def SlabAllocator.AllBound (a : SlabAllocator) : Prop :=
  ∀ e, e < a.opt.numExtents → (a.extents e).cls ≠ none

/-- No extent was unbound on the way from `a` to `b`, and with `ok` class `c` has a free slot. -/
structure Room (a b : SlabAllocator) (c : Nat) (ok : Prop) : Prop where
  bound : a.AllBound → b.AllBound
  free : ok → (b.classes c).extRr ≠ []

theorem Room.none {ok : Prop} (hext : b.AllBound = a.AllBound) (hok : ¬ ok) : Room a b c ok :=
  ⟨hext.mpr, fun h => absurd h hok⟩

theorem Room.after {d : SlabAllocator} {ok : Prop} (h : Room b d c ok) (hopt : b.opt = a.opt)
    (hext : b.extents = a.extents) : Room a d c ok := by
  refine ⟨fun hall => h.bound ?_, h.free⟩
  unfold SlabAllocator.AllBound
  rw [hopt, hext]
  exact hall

theorem extRr_detachResident (h : Inv a) (hrr : (a.classes (a.slots i).ref.cls).extRr = []) :
    ((a.detachResident i).classes (a.slots i).ref.cls).extRr = [(a.slots i).ref.extent] := by
  have hfree : (a.classes (a.slots i).ref.cls).freeByExt (a.slots i).ref.extent = [] := by
    by_contra hne
    have hmem := ((h.free.rotation _).rr_mem _).mpr hne
    simp [hrr] at hmem
  simp [detachResident, SizeClass.dropResident, SizeClass.pushFree, hfree, hrr]

/-- Freeing a slot of a class without free slots puts its extent on the rotation, and the class is
too small to give the extent back. -/
theorem freeSlotLocked_room (h : Inv a) (hm : a.res i = some m)
    (hrr : (a.classes m.ref.cls).extRr = []) : Room a (a.freeSlotLocked i) m.ref.cls True := by
  obtain rfl := Inv.slots_eq hm
  obtain ⟨hb, hres⟩ := h.unprotectIfRetained hm
  have hmb : (a.unprotectIfRetained i).res i = some { a.slots i with retainUntil := 0 } := by
    rw [hres, Function.update_self]
  have href : ((a.unprotectIfRetained i).slots i).ref = (a.slots i).ref := by
    rw [Inv.slots_eq hmb]
  have hun : (∀ e', ((a.unprotectIfRetained i).extents e').cls = (a.extents e').cls) ∧
      ∀ c', ((a.unprotectIfRetained i).classes c').extRr = (a.classes c').extRr := by
    unfold unprotectIfRetained
    split
    · exact ⟨proj_update _ rfl, proj_update _ rfl⟩
    · exact ⟨fun _ => rfl, fun _ => rfl⟩
  have hone := extRr_detachResident hb (i := i) (by rw [href, hun.2, hrr])
  rw [href] at hone
  have heq : a.freeSlotLocked i = (a.unprotectIfRetained i).detachResident i := by
    unfold freeSlotLocked returnIdleExtent
    exact if_neg fun hg => by simp [hone, kStripeWays] at hg
  have hopt := (Static.freeSlotLocked h hm).opt
  rw [heq] at hopt ⊢
  refine ⟨fun hall e' he' => ?_, fun _ => by rw [hone]; simp⟩
  have hcls : (((a.unprotectIfRetained i).detachResident i).extents e').cls = (a.extents e').cls :=
    (proj_update ExtentMeta.cls (by rfl) e').trans (hun.1 e')
  rw [hcls]
  exact hall e' (hopt ▸ he')

theorem allBound_invoke (a : SlabAllocator) (installed : Bool) (call : MetaCall) :
    (a.invoke installed call).1.AllBound = a.AllBound := by
  simp [AllBound, Static.invoke.opt]

theorem evictVictim_room (h : Inv a) (hm : a.res i = some m)
    (hrr : (a.classes m.ref.cls).extRr = []) :
    Room a (a.evictVictim i).1 m.ref.cls ((a.evictVictim i).2.1) := by
  have hm' : (a.invoke a.opt.onSlotEvict (.slotEvict (a.slots i).ref)).1.res i = some m := by
    rw [res_invoke, hm]
  unfold evictVictim
  dsimp only
  split
  · have hroom := freeSlotLocked_room h.invoke hm' (by rw [classes_invoke, hrr])
    exact ⟨fun hall => hroom.bound ((allBound_invoke a _ _).mpr hall), fun _ => hroom.free trivial⟩
  · exact .none (allBound_invoke a _ _) nofun

/-! ## The class sweep -/

/-- The slot remembered as fallback is an unpinned, unprotected resident of the class. -/
def FallbackOk (a : SlabAllocator) (c : Nat) (fallback : Option Nat) : Prop :=
  ∀ i, fallback = some i → ∃ m, a.res i = some m ∧ m.refs = 0 ∧ m.retainUntil = 0 ∧ m.ref.cls = c

theorem FallbackOk.step {fallback : Option Nat} (h : FallbackOk a c fallback)
    (hs : Evicts a b []) : FallbackOk b c fallback := by
  intro i hi
  obtain ⟨m, hm, hr, ht, hc⟩ := h i hi
  rcases hs.kept i m hm with ⟨m', hm', hh⟩ | ⟨-, hk, -⟩
  · exact ⟨m', hm', hh.refs.trans hr, hh.retainUntil.trans ht, hh.ref ▸ hc⟩
  · simp at hk

/-- What a sweep returns: at most one key, and `true` exactly with it. In a class without free slots
it makes room. -/
structure SweepSpec (a : SlabAllocator) (c : Nat) (r : SlabAllocator × Bool × List BlockKey) :
    Prop where
  evicts : Evicts a r.1 r.2.2
  keys : r.2.1 = false → r.2.2 = []
  room : (a.classes c).extRr = [] → Room a r.1 c (r.2.1 = true)

theorem SweepSpec.none (h : Inv a) : SweepSpec a c (a, false, []) :=
  ⟨.refl h, fun _ => rfl, fun _ => .none rfl Bool.false_ne_true⟩

theorem SweepSpec.after {r : SlabAllocator × Bool × List BlockKey} (hs : Evicts a b [])
    (hext : b.extents = a.extents) (hrr : (b.classes c).extRr = (a.classes c).extRr)
    (h : SweepSpec b c r) : SweepSpec a c r :=
  ⟨by simpa using hs.trans h.evicts, h.keys,
    fun hnil => (h.room (hrr.trans hnil)).after hs.static.opt hext⟩

theorem SweepSpec.victim (h : Inv a) (hm : a.res i = some m) (hr : m.refs = 0)
    (ht : m.retainUntil = 0) (hc : m.ref.cls = c) : SweepSpec a c (a.evictVictim i) := by
  obtain ⟨he, hk⟩ := evictVictim_spec h hm hr ht
  subst hc
  exact ⟨he, fun hf => by rw [hk, hf]; rfl, evictVictim_room h hm⟩

theorem evictFallback_spec {fallback : Option Nat} (h : Inv a) (hf : FallbackOk a c fallback) :
    SweepSpec a c (evictSweep.evictFallback a fallback) := by
  cases fallback with
  | none => exact .none h
  | some i =>
    obtain ⟨m, hm, hr, ht, hc⟩ := hf i rfl
    simp only [evictSweep.evictFallback]
    split
    · exact .victim h hm hr ht hc
    · exact .none h

theorem evictSweep_spec (n : Nat) : ∀ {a : SlabAllocator} {fallback : Option Nat}, Inv a →
    FallbackOk a c fallback → SweepSpec a c (evictSweep c n a fallback) := by
  induction n with
  | zero => exact fun h hf => evictFallback_spec h hf
  | succ n ih =>
    intro a fallback h hf
    unfold evictSweep
    split
    · exact evictFallback_spec h hf
    · cases hhand : (a.classes c).ring.hand.or (a.classes c).ring.head with
      | none => exact evictFallback_spec h hf
      | some i =>
        obtain ⟨m, hm, hmc⟩ := h.sweep_spec hhand
        have hadv := Evicts.advanceClassHand h hhand
        have hinv := hadv.inv
        have hmb : (a.advanceClassHand c i).res i = some m := hm
        have hrr : ((a.advanceClassHand c i).classes c).extRr = (a.classes c).extRr := by
          simp [advanceClassHand]
        simp only [Inv.slots_eq hm]
        -- the four outcomes for the slot under the hand: pinned, protected, referenced, victim
        split
        · exact (ih hinv (hf.step hadv)).after hadv rfl hrr
        · rename_i hrefs
          have hr : m.refs = 0 := by omega
          split
          · have hskip : Evicts a (a.advanceClassHand c i).noteRetainSkip [] :=
              hadv.trans (.noteRetainSkip hinv)
            exact (ih hskip.inv (hf.step hskip)).after hskip rfl hrr
          · rename_i hret
            have ht : m.retainUntil = 0 := by simpa using hret
            split
            · have hclear := hadv.trans (.clearReferenced hinv hmb)
              have hfi : FallbackOk a c (fallback.or (some i)) := by
                intro j hj
                cases hfb : fallback with
                | some k => exact hf j (by simpa [hfb] using hj)
                | none =>
                  obtain rfl : i = j := by simpa [hfb] using hj
                  exact ⟨m, hm, hr, ht, hmc⟩
              exact (ih hclear.inv (hfi.step hclear)).after hclear rfl hrr
            · exact (SweepSpec.victim hinv hmb hr ht hmc).after hadv rfl hrr

theorem evictOneFrom_spec (h : Inv a) : SweepSpec a c (a.evictOneFrom c) := by
  unfold evictOneFrom
  split
  · exact .none h
  · exact evictSweep_spec _ h fun i hi => by simp at hi

end DingoCache.Slab
