import DingoCache.Slab.Restore

/-!
# The Allocator as a Map of Records

`SlabAllocator.lookup` reads an allocator as a partial map from keys to records.
-/

namespace DingoCache.Slab

open Library SlabAllocator
open Function (update update_eq_self update_idem update_of_ne update_self)

variable {a b d : SlabAllocator} {i c e : Nat} {m m' m'' : SlotMeta} {k : BlockKey}
  {ev : List BlockKey} {r : SlabAllocator × OpResult}

/-! ## Lookup -/

/-- The record of `key`, whether or not a remove is pending on it. -/
def SlabAllocator.lookup (a : SlabAllocator) (key : BlockKey) : Option SlotMeta :=
  (a.index.find key).map a.slots

theorem Inv.lookup_iff (h : Inv a) : a.lookup k = some m ↔ ∃ i, a.res i = some m ∧ m.key = k := by
  unfold lookup
  constructor
  · intro hl
    obtain ⟨i, hi, rfl⟩ := Option.map_eq_some_iff.mp hl
    obtain ⟨hm, hk⟩ := h.find_spec hi
    exact ⟨i, hm, hk⟩
  · rintro ⟨i, hm, rfl⟩
    rw [h.find_of_res hm, Option.map_some, Inv.slots_eq hm]

theorem Inv.lookup_of_res (h : Inv a) (hm : a.res i = some m) : a.lookup m.key = some m :=
  h.lookup_iff.mpr ⟨i, hm, rfl⟩

theorem SlabAllocator.lookup_eq_none : a.lookup k = none ↔ a.index.find k = none := by
  simp [lookup]

/-- Rewriting or deleting one resident rewrites or deletes one entry of the map. -/
theorem Inv.lookup_update (h : Inv a) (h' : Inv b) (hm : a.res i = some m) {v : Option SlotMeta}
    (hres : b.res = update a.res i v) (hv : ∀ n, v = some n → n.key = m.key) :
    b.lookup = update a.lookup m.key v := by
  funext k
  refine Option.ext fun n => ?_
  rw [h'.lookup_iff, hres]
  rcases eq_or_ne k m.key with rfl | hk
  · rw [update_self]
    constructor
    · rintro ⟨j, hj, hn⟩
      by_cases hji : j = i
      · rwa [hji, update_self] at hj
      · rw [update_of_ne hji] at hj
        exact absurd (h.key_inj hj hm hn) hji
    · exact fun hn => ⟨i, by rw [update_self, hn], hv n hn⟩
  · rw [update_of_ne hk, h.lookup_iff]
    refine exists_congr fun j => and_congr_left fun hn => ?_
    rcases eq_or_ne j i with rfl | hji
    · rw [update_self, hm]
      refine ⟨fun hvn => absurd ((hn.symm.trans (hv n hvn))) hk, fun hmn => ?_⟩
      exact absurd (by rw [← hn, ← Option.some.inj hmn]) hk
    · rw [update_of_ne hji]

theorem Inv.lookup_insert (h : Inv a) (h' : Inv b) (hfresh : a.res i = none)
    (hres : b.res = update a.res i (some m)) :
    b.lookup = update a.lookup m.key (some m) := by
  have hb : b.res i = some m := by rw [hres, update_self]
  have ha : a.res = update b.res i none := by
    rw [hres, update_idem, ← hfresh, update_eq_self]
  have hback := h'.lookup_update h hb ha (by simp)
  rw [hback, update_idem, ← h'.lookup_of_res hb, update_eq_self]

theorem Evicts.lookup_none (h : Evicts a b ev) (ha : Inv a) (hk : a.lookup k = none) :
    b.lookup k = none :=
  lookup_eq_none.mpr (h.find_eq_none ha (lookup_eq_none.mp hk))

theorem Evicts.lookup_some (h : Evicts a b ev) (ha : Inv a) (hk : a.lookup k = some m) :
    (∃ m', b.lookup k = some m' ∧ SameHold m m' ∧ k ∉ ev) ∨
      b.lookup k = none ∧ k ∈ ev ∧ m.refs = 0 ∧ m.retainUntil = 0 := by
  obtain ⟨i, hm, rfl⟩ := ha.lookup_iff.mp hk
  rcases h.kept i m hm with ⟨m', hm', hs⟩ | ⟨-, hmem, hrefs, hret⟩
  · refine Or.inl ⟨m', hs.key ▸ h.inv.lookup_of_res hm', hs, fun hmem => ?_⟩
    exact (h.gone _ hmem).2 i m' hm' hs.key
  · refine Or.inr ⟨Option.eq_none_iff_forall_ne_some.mpr fun n hn => ?_, hmem, hrefs, hret⟩
    obtain ⟨j, hj, hkey⟩ := h.inv.lookup_iff.mp hn
    exact (h.gone _ hmem).2 j n hj hkey

/-! ## What a call does to one record -/

/-- The call pins `k` if it succeeds. -/
def Op.pins (k : BlockKey) : Op → Bool
  | .getAndPin k' | .pin k' | .pinHandle k' _ => k' = k
  | _ => false

/-- The call unpins `k` if it succeeds. -/
def Op.unpins (k : BlockKey) : Op → Bool
  | .unpin k' | .unpinHandle k' _ => k' = k
  | _ => false

/-- The call removes `k`. -/
def Op.removes (k : BlockKey) : Op → Bool
  | .remove k' => k' = k
  | _ => false

/-- The effect of a call with outcome `ok` and eviction list `ev` on the record of `k`. -/
inductive RecordStep (op : Op) (ok : Bool) (ev : List BlockKey) (k : BlockKey) :
    Option SlotMeta → Option SlotMeta → Prop
  | absent (hpin : (op.pins k && ok) = false ∧ (op.unpins k && ok) = false) :
      RecordStep op ok ev k none none
  | admitted (m : SlotMeta) (hrefs : m.refs = 0) (hpending : m.removePending = false)
      (hpin : (op.pins k && ok) = false ∧ (op.unpins k && ok) = false) (hev : k ∉ ev) :
      RecordStep op ok ev k none (some m)
  | kept (m m' : SlotMeta) (hbody : SameBody m m')
      (hrefs : m'.refs + (op.unpins k && ok).toNat =
        if op.pins k && ok then (m.refs + 1) % 2 ^ 32 else m.refs)
      (hpending : m'.removePending = (m.removePending || op.removes k))
      (hvisible : (op.pins k && ok) = true → m.removePending = false)
      (hheld : m'.removePending = true → m.removePending = true ∧ m.refs = 0 ∨ m'.refs ≠ 0)
      (hev : k ∉ ev) :
      RecordStep op ok ev k (some m) (some m')
  | evicted (m : SlotMeta) (hrefs : m.refs = 0) (hretain : m.retainUntil = 0)
      (hpin : (op.pins k && ok) = false ∧ (op.unpins k && ok) = false) (hev : k ∈ ev) :
      RecordStep op ok ev k (some m) none
  | removed (m : SlotMeta) (hrefs : m.refs = 0) (hop : op.removes k = true) (hev : k ∉ ev) :
      RecordStep op ok ev k (some m) none
  | released (m : SlotMeta) (hrefs : m.refs = 1) (hpending : m.removePending = true)
      (hop : op.unpins k = true) (hok : ok = true) (hev : k ∉ ev) :
      RecordStep op ok ev k (some m) none

/-- Two records that agree on identity, pins and pending remove. -/
structure SamePins (m m' : SlotMeta) : Prop where
  body : SameBody m m'
  refs : m'.refs = m.refs
  pending : m'.removePending = m.removePending

theorem SamePins.refl (m : SlotMeta) : SamePins m m := ⟨.rfl, rfl, rfl⟩

theorem SamePins.trans (h : SamePins m m') (h' : SamePins m' m'') : SamePins m m'' :=
  ⟨h.body.trans h'.body, h'.refs.trans h.refs, h'.pending.trans h.pending⟩

theorem SameHold.samePins (h : SameHold m m') : SamePins m m' where
  body := ⟨h.key, h.ref, (congrArg SlotMeta.usefulBytes h :), (congrArg SlotMeta.live h :)⟩
  refs := h.refs
  pending := (congrArg SlotMeta.removePending h :)

/-- A call that takes effect on no pin of `k` and does not remove it. -/
structure Op.Neutral (op : Op) (ok : Bool) (k : BlockKey) : Prop where
  pins : (op.pins k && ok) = false
  unpins : (op.unpins k && ok) = false
  removes : op.removes k = false

section RecordStep

variable {op : Op} {ok : Bool}

theorem RecordStep.of_samePins (h : SamePins m m') (hn : op.Neutral ok k) (hev : k ∉ ev) :
    RecordStep op ok ev k (some m) (some m') :=
  .kept m m' h.body (by simp [hn.pins, hn.unpins, h.refs]) (by simp [hn.removes, h.pending])
    (by simp [hn.pins]) (fun hp => (eq_or_ne m.refs 0).imp (⟨h.pending ▸ hp, ·⟩) (h.refs ▸ ·)) hev

theorem RecordStep.of_rel {x y : Option SlotMeta} (h : Option.Rel SamePins x y)
    (hn : op.Neutral ok k) (hev : k ∉ ev) : RecordStep op ok ev k x y := by
  cases h with
  | none => exact .absent ⟨hn.pins, hn.unpins⟩
  | some h => exact .of_samePins h hn hev

theorem RecordStep.same (x : Option SlotMeta) (hn : op.Neutral ok k) (hev : k ∉ ev) :
    RecordStep op ok ev k x x := by
  cases x with
  | none => exact .absent ⟨hn.pins, hn.unpins⟩
  | some m => exact .of_samePins (.refl m) hn hev

theorem RecordStep.of_update {k₀ : BlockKey} {v : Option SlotMeta}
    (hl : b.lookup = update a.lookup k₀ v)
    (hk : RecordStep op ok [] k₀ (a.lookup k₀) v)
    (hn : ∀ k, k ≠ k₀ → op.Neutral ok k) (k : BlockKey) :
    RecordStep op ok [] k (a.lookup k) (b.lookup k) := by
  rw [hl]
  rcases eq_or_ne k k₀ with rfl | hkk
  · rwa [update_self]
  · rw [update_of_ne hkk]
    exact .same _ (hn k hkk) (by simp)

theorem Evicts.recordStep (h : Evicts a b ev) (ha : Inv a) (hn : op.Neutral ok k) :
    RecordStep op ok ev k (a.lookup k) (b.lookup k) := by
  cases hk : a.lookup k with
  | none =>
    rw [h.lookup_none ha hk]
    exact .absent ⟨hn.pins, hn.unpins⟩
  | some m =>
    rcases h.lookup_some ha hk with ⟨m', hm', hs, hev⟩ | ⟨hnone, hmem, hrefs, hret⟩
    · rw [hm']
      exact .of_samePins hs.samePins hn hev
    · rw [hnone]
      exact .evicted m hrefs hret ⟨hn.pins, hn.unpins⟩ hmem

theorem Admits.recordStep (h : Admits a b ev i m) (ha : Inv a) (hrefs : m.refs = 0)
    (hpending : m.removePending = false) (hm : a.lookup m.key = none) (hn : op.Neutral ok k) :
    RecordStep op ok ev k (a.lookup k) (b.lookup k) := by
  obtain ⟨hinv, d, hd, hfresh, hres, -⟩ := h
  rw [hd.inv.lookup_insert hinv hfresh hres]
  rcases eq_or_ne k m.key with rfl | hk
  · rw [hm, update_self]
    refine .admitted m hrefs hpending ⟨hn.pins, hn.unpins⟩ fun hmem => ?_
    obtain ⟨⟨j, n, hj, hkey⟩, -⟩ := hd.gone _ hmem
    have hlook := ha.lookup_of_res hj
    rw [hkey, hm] at hlook
    simp at hlook
  · rw [update_of_ne hk]
    exact hd.recordStep ha hn

end RecordStep

/-! ## Bookkeeping on records -/

/-- Records keep their identity, pins and pending removes. -/
structure Tuned (a b : SlabAllocator) : Prop where
  inv : Inv b
  opt : b.opt = a.opt
  env : b.env = a.env
  res : ∀ i, Option.Rel SamePins (a.res i) (b.res i)

theorem Tuned.of_res (h : Inv b) (hopt : b.opt = a.opt) (henv : b.env = a.env)
    (hres : b.res = a.res) : Tuned a b := by
  refine ⟨h, hopt, henv, fun i => ?_⟩
  rw [hres]
  cases a.res i with
  | none => exact .none
  | some m => exact .some (.refl m)

theorem Tuned.refl (h : Inv a) : Tuned a a := .of_res h rfl rfl rfl

theorem Tuned.of_update (h : Inv b) (hopt : b.opt = a.opt) (henv : b.env = a.env)
    (hm : a.res i = some m) (hres : b.res = update a.res i (some m'))
    (hs : SamePins m m') : Tuned a b := by
  refine ⟨h, hopt, henv, fun j => ?_⟩
  rw [hres]
  rcases eq_or_ne j i with rfl | hj
  · rw [update_self, hm]
    exact .some hs
  · rw [update_of_ne hj]
    cases a.res j with
    | none => exact .none
    | some n => exact .some (.refl n)

theorem Tuned.trans (h : Tuned a b) (h' : Tuned b d) : Tuned a d := by
  refine ⟨h'.inv, h'.opt.trans h.opt, h'.env.trans h.env, fun i => ?_⟩
  have h1 := h.res i
  have h2 := h'.res i
  revert h1 h2
  generalize a.res i = x
  generalize b.res i = y
  generalize d.res i = z
  rintro (hs | _) (hs' | _)
  · rename_i hs'
    exact .some (hs.trans hs')
  · exact .none

theorem Tuned.res_some (h : Tuned a b) (hm : a.res i = some m) :
    ∃ m', b.res i = some m' ∧ SamePins m m' := by
  have hr := h.res i
  rw [hm] at hr
  generalize b.res i = y at hr
  cases hr with
  | some hs => exact ⟨_, rfl, hs⟩

theorem Tuned.lookup (h : Tuned a b) (ha : Inv a) (k : BlockKey) :
    Option.Rel SamePins (a.lookup k) (b.lookup k) := by
  cases hk : a.lookup k with
  | some m =>
    obtain ⟨i, hm, rfl⟩ := ha.lookup_iff.mp hk
    obtain ⟨m', hm', hs⟩ := h.res_some hm
    rw [← hs.body.key, h.inv.lookup_of_res hm']
    exact .some hs
  | none =>
    cases hb : b.lookup k with
    | none => exact .none
    | some m' =>
      obtain ⟨i, hm', rfl⟩ := h.inv.lookup_iff.mp hb
      have hr := h.res i
      rw [hm'] at hr
      cases ha' : a.res i with
      | none => simp [ha'] at hr
      | some m =>
        rw [ha'] at hr
        cases hr with
        | some hs =>
          rw [hs.body.key, ha.lookup_of_res ha'] at hk
          simp at hk

/-! ## Lookups, pins and removal -/

/-- What every call guarantees. -/
structure CallSpec (a : SlabAllocator) (op : Op) (r : SlabAllocator × OpResult) : Prop where
  inv : Inv r.1
  opt : r.1.opt = a.opt
  records : ∀ k, RecordStep op r.2.ok r.2.evicted k (a.lookup k) (r.1.lookup k)

theorem Inv.findVisible_some (h : Inv a) (hf : a.findVisible k = some i) :
    a.res i = some (a.slots i) ∧ (a.slots i).key = k ∧ (a.slots i).removePending = false := by
  unfold findVisible at hf
  cases hfind : a.index.find k with
  | none => simp [hfind] at hf
  | some j =>
    simp only [hfind, Option.ite_none_left_eq_some, Bool.not_eq_true, Option.some.injEq] at hf
    obtain ⟨hp, rfl⟩ := hf
    obtain ⟨hm, hk⟩ := h.find_spec hfind
    exact ⟨hm, hk, hp⟩

theorem Tuned.touchLocked (h : Inv a) (hm : a.res i = some m) : Tuned a (a.touchLocked i) :=
  .of_update (h.touchLocked hm) rfl rfl hm (res_touchLocked hm)
    ⟨⟨rfl, rfl, rfl, rfl⟩, rfl, rfl⟩

theorem Op.Neutral.of_ne {op : Op} {ok : Bool} (hp : op.pins k = false) (hu : op.unpins k = false)
    (hr : op.removes k = false) : op.Neutral ok k :=
  ⟨by rw [hp, Bool.false_and], by rw [hu, Bool.false_and], hr⟩

theorem Tuned.callSpec {op : Op} (h : Tuned a r.1) (ha : Inv a) (hn : ∀ k, op.Neutral r.2.ok k)
    (hev : r.2.evicted = []) : CallSpec a op r :=
  ⟨h.inv, h.opt, fun k => .of_rel (h.lookup ha k) (hn k) (by simp [hev])⟩

theorem Evicts.callSpec {op : Op} (h : Evicts a r.1 r.2.evicted) (ha : Inv a)
    (hn : ∀ k, op.Neutral r.2.ok k) : CallSpec a op r :=
  ⟨h.inv, h.static.opt, fun k => h.recordStep ha (hn k)⟩

theorem pinSlot_callSpec {op : Op} (h : Tuned a b) (ha : Inv a) (hm : a.res i = some m)
    (hvis : m.removePending = false) (hp : ∀ k, op.pins k = decide (m.key = k))
    (hu : ∀ k, op.unpins k = false) (hr : ∀ k, op.removes k = false) (hb : r.1 = b.pinSlot i)
    (hok : r.2.ok) (hev : r.2.evicted = []) : CallSpec a op r := by
  obtain ⟨n, hn, hs⟩ := h.res_some hm
  have hold : a.lookup n.key = some m := by
    rw [hs.body.key]
    exact ha.lookup_of_res hm
  have hinv := h.inv.pinSlot hn
  have hlook := h.inv.lookup_update hinv hn (res_pinSlot hn)
    (by rintro _ ⟨⟩; rfl)
  refine ⟨hb ▸ hinv, (congrArg opt hb).trans h.opt, fun k => ?_⟩
  rw [hb, hlook, hok, hev]
  rcases eq_or_ne k n.key with rfl | hk
  · rw [update_self, hold]
    refine .kept _ _ ⟨hs.body.key, hs.body.ref, hs.body.useful, hs.body.live⟩ ?_ ?_
      (fun _ => hvis) (fun hpend => ?_) (by simp)
    · simp [hp, hu, hs.refs, hs.body.key]
    · simp [hr, hs.pending]
    · simp [hs.pending, hvis] at hpend
  · rw [update_of_ne hk]
    refine .of_rel (h.lookup ha k) (.of_ne ?_ (hu k) (hr k)) (by simp)
    rw [hp, decide_eq_false (fun he => hk (by rw [hs.body.key, he]))]

/-- `Unpin` on a resident with a pin: the count drops, and the last pin of a removed resident frees
it. -/
theorem unpinAt_callSpec {op : Op} (h : Inv a) (hm : a.res i = some m) (h0 : m.refs ≠ 0)
    (hp : ∀ k, op.pins k = false) (hu : ∀ k, op.unpins k = decide (m.key = k))
    (hr : ∀ k, op.removes k = false) (hb : r.1 = a.unpinAt i) (hok : r.2.ok)
    (hev : r.2.evicted = []) : CallSpec a op r := by
  have hinv := h.unpinSlot hm h0
  have hres := res_unpinSlot hm
  have hmid : (a.unpinSlot i).res i = some { m with refs := m.refs - 1 } := by
    rw [hres, update_self]
  have hne : ∀ k, k ≠ m.key → op.Neutral r.2.ok k := fun k hk =>
    .of_ne (hp k) (by rw [hu, decide_eq_false (Ne.symm hk)]) (hr k)
  have hslots := Inv.slots_eq hm
  unfold unpinAt at hb
  split at hb
  · rename_i hg
    rw [hslots] at hg
    have hinv' := hinv.freeSlotLocked hmid
    have hres' := res_freeSlotLocked hinv hmid
    rw [hres, update_idem] at hres'
    have hlook := h.lookup_update hinv' hm hres' (by simp)
    refine ⟨hb ▸ hinv', ?_, ?_⟩
    · rw [hb]
      exact (Static.freeSlotLocked hinv hmid).opt
    · rw [hev, hb]
      refine .of_update hlook ?_ hne
      rw [h.lookup_of_res hm]
      exact .released m (by omega) hg.2 (by simp [hu]) hok (by simp)
  · have hlook := h.lookup_update hinv hm hres (by rintro _ ⟨⟩; rfl)
    refine ⟨hb ▸ hinv, by rw [hb]; rfl, ?_⟩
    rw [hev, hb]
    refine .of_update hlook ?_ hne
    rw [h.lookup_of_res hm]
    refine .kept _ _ ⟨rfl, rfl, rfl, rfl⟩ ?_ ?_ (by simp [hp]) (fun hpend => Or.inr fun hz => ?_)
      (by simp)
    · simp only [hp, hu, hok, decide_true, Bool.and_self, Bool.toNat_true, Bool.false_and,
        Bool.false_eq_true, if_false]
      omega
    · simp [hr]
    · rename_i hg
      exact hg ⟨by rw [hslots]; exact hz, by rw [hslots]; exact hpend⟩

theorem get_callSpec (h : Inv a) : CallSpec a (.get k) (a.apply (.get k)) := by
  refine Tuned.callSpec ?_ h (fun _ => ⟨rfl, rfl, rfl⟩) rfl
  simp only [apply, SlabAllocator.get]
  cases hf : a.findVisible k with
  | none => exact .refl h
  | some i => exact .touchLocked h (h.findVisible_some hf).1

theorem refused_callSpec {op : Op} {r : OpResult} (h : Inv a) (hok : r.ok = false)
    (hr : ∀ k, op.removes k = false) (hev : r.evicted = []) : CallSpec a op (a, r) :=
  Tuned.callSpec (.refl h) h
    (fun k => ⟨by rw [hok, Bool.and_false], by rw [hok, Bool.and_false], hr k⟩) hev

theorem getAndPin_callSpec (h : Inv a) : CallSpec a (.getAndPin k) (a.apply (.getAndPin k)) := by
  simp only [apply, getAndPin]
  cases hf : a.findVisible k with
  | none => exact refused_callSpec h rfl (fun _ => rfl) rfl
  | some i =>
    obtain ⟨hm, hk, hvis⟩ := h.findVisible_some hf
    exact pinSlot_callSpec (.touchLocked h hm) h hm hvis (fun _ => by rw [hk]; rfl) (fun _ => rfl)
      (fun _ => rfl) rfl rfl rfl

theorem pin_callSpec (h : Inv a) : CallSpec a (.pin k) (a.apply (.pin k)) := by
  simp only [apply, pin]
  cases hf : a.findVisible k with
  | none => exact refused_callSpec h rfl (fun _ => rfl) rfl
  | some i =>
    obtain ⟨hm, hk, hvis⟩ := h.findVisible_some hf
    exact pinSlot_callSpec (.refl h) h hm hvis (fun _ => by rw [hk]; rfl) (fun _ => rfl)
      (fun _ => rfl) rfl rfl rfl

theorem unpin_callSpec (h : Inv a) : CallSpec a (.unpin k) (a.apply (.unpin k)) := by
  simp only [apply, unpin]
  cases hf : a.index.find k with
  | none => exact refused_callSpec h rfl (fun _ => rfl) rfl
  | some i =>
    obtain ⟨hm, hk⟩ := h.find_spec hf
    dsimp only
    split
    · exact refused_callSpec h rfl (fun _ => rfl) rfl
    · rename_i h0
      exact unpinAt_callSpec h hm h0 (fun _ => rfl) (fun _ => by rw [hk]; rfl) (fun _ => rfl)
        rfl rfl rfl

theorem pinHandle_callSpec (h : Inv a) {handle : Option Nat} :
    CallSpec a (.pinHandle k handle) (a.apply (.pinHandle k handle)) := by
  simp only [apply, pinHandle]
  cases handle with
  | none => exact refused_callSpec h rfl (fun _ => rfl) rfl
  | some i =>
    dsimp only
    split
    · exact refused_callSpec h rfl (fun _ => rfl) rfl
    · rename_i hg
      simp only [not_or, ne_eq, not_not, Bool.not_eq_false, Bool.not_eq_true] at hg
      exact pinSlot_callSpec (.refl h) h (Inv.res_eq_some.mpr ⟨hg.2.1, rfl⟩) hg.2.2.2
        (fun _ => by rw [hg.2.2.1]; rfl) (fun _ => rfl) (fun _ => rfl) rfl rfl rfl

theorem unpinHandle_callSpec (h : Inv a) {handle : Option Nat} :
    CallSpec a (.unpinHandle k handle) (a.apply (.unpinHandle k handle)) := by
  simp only [apply, unpinHandle]
  cases handle with
  | none => exact refused_callSpec h rfl (fun _ => rfl) rfl
  | some i =>
    dsimp only
    split
    · exact refused_callSpec h rfl (fun _ => rfl) rfl
    · rename_i hg
      simp only [not_or, ne_eq, not_not, Bool.not_eq_false] at hg
      exact unpinAt_callSpec h (Inv.res_eq_some.mpr ⟨hg.2.1, rfl⟩) hg.2.2.2 (fun _ => rfl)
        (fun _ => by rw [hg.2.2.1]; rfl) (fun _ => rfl) rfl rfl rfl

theorem remove_callSpec (h : Inv a) : CallSpec a (.remove k) (a.apply (.remove k)) := by
  have hne : ∀ ok k', k' ≠ k → (Op.remove k).Neutral ok k' := fun ok k' hk =>
    ⟨rfl, rfl, decide_eq_false (Ne.symm hk)⟩
  simp only [apply, remove]
  cases hf : a.index.find k with
  | none =>
    refine ⟨h, rfl, fun k' => ?_⟩
    rcases eq_or_ne k' k with rfl | hk
    · rw [lookup_eq_none.mpr hf]
      exact .absent ⟨rfl, rfl⟩
    · exact .same _ (hne _ k' hk) (by simp)
  | some i =>
    obtain ⟨hm, rfl⟩ := h.find_spec hf
    dsimp only
    split
    · rename_i h0
      have hinv : Inv (a.setSlot i { a.slots i with removePending := true, referenced := false }) :=
        h.setSlot hm ⟨rfl, rfl, rfl, rfl⟩ rfl rfl rfl
      refine ⟨hinv, rfl, .of_update (h.lookup_update hinv hm
        (res_setSlot hm ⟨rfl, rfl, rfl, rfl⟩) (by rintro _ ⟨⟩; rfl)) ?_ (hne _)⟩
      rw [h.lookup_of_res hm]
      exact .kept _ _ ⟨rfl, rfl, rfl, rfl⟩ rfl (by simp [Op.removes]) nofun
        (fun _ => Or.inr (Nat.pos_iff_ne_zero.mp h0)) (by simp)
    · rename_i h0
      have hinv := h.freeSlotLocked hm
      refine ⟨hinv, (Static.freeSlotLocked h hm).opt, .of_update (h.lookup_update hinv hm
        (res_freeSlotLocked h hm) (by simp)) ?_ (hne _)⟩
      rw [h.lookup_of_res hm]
      exact .removed _ (by omega) (by simp [Op.removes]) (by simp)

/-! ## Put, RestoreBulk and retention -/

theorem put_callSpec (h : Inv a) {len : Nat} : CallSpec a (.put k len) (a.apply (.put k len)) := by
  have hn : ∀ ok k', (Op.put k len).Neutral ok k' := fun _ _ => ⟨rfl, rfl, rfl⟩
  simp only [apply]
  cases put_spec h k len with
  | present i m hm _ _ hinv hres hr henv hopt =>
    exact Tuned.callSpec (.of_update hinv hopt henv hm hres ⟨⟨rfl, rfl, rfl, rfl⟩, rfl, rfl⟩) h
      (hn _) (by rw [hr])
  | pending i m _ _ _ hinv hres hr henv hopt =>
    exact Tuned.callSpec (.of_res hinv hopt henv hres) h (hn _) (by rw [hr])
  | new hk hnew =>
    cases hnew with
    | failed _ hnil hev =>
      exact ⟨hev.inv, hev.static.opt, fun k' => hnil ▸ hev.recordStep h.tick (hn _ k')⟩
    | admitted i m _ _ _ hm hadm =>
      exact ⟨hadm.inv, hadm.static.opt, fun k' => hadm.recordStep h.tick hm.refs hm.pending
        (hm.key ▸ lookup_eq_none.mpr hk) (hn _ k')⟩

theorem restoreBulk_callSpec (h : Inv a) {xs : List RestoreEntry} :
    CallSpec a (.restoreBulk xs) (a.apply (.restoreBulk xs)) := by
  simp only [apply]
  rcases restoreBulk_spec h xs with ⟨-, heq⟩ | ⟨-, ys, zs, -, hall, -⟩
  · rw [heq]
    exact Tuned.callSpec (.refl h) h (fun _ => ⟨rfl, rfl, rfl⟩) rfl
  · refine ⟨hall.inv, hall.static.opt, fun k => ?_⟩
    cases hk : a.lookup k with
    | some m =>
      obtain ⟨i, hm, rfl⟩ := h.lookup_iff.mp hk
      obtain ⟨m', hm', hs⟩ := hall.kept i m hm
      have hl := hall.inv.lookup_of_res hm'
      rw [hs.key] at hl
      rw [hl]
      exact .of_samePins hs.samePins ⟨rfl, rfl, rfl⟩ (by simp)
    | none =>
      cases hb : (a.restoreBulk xs).1.lookup k with
      | none => exact .absent ⟨rfl, rfl⟩
      | some m' =>
        obtain ⟨i, hm', rfl⟩ := hall.inv.lookup_iff.mp hb
        rcases hall.old i m' hm' with ⟨m, hm, hs⟩ | ⟨y, -, c, -, hrec⟩
        · rw [hs.key, h.lookup_of_res hm] at hk
          simp at hk
        · exact .admitted m' hrec.refs hrec.pending ⟨rfl, rfl⟩ (by simp)

theorem Tuned.retention (h : Inv a) {r : Retention}
    (hb : r.protectedBytes = a.retention.protectedBytes)
    (hs : r.protectedSlots = a.retention.protectedSlots)
    (ht : RetainOk r.opt r.wheel) : Tuned a { a with retention := r } :=
  .of_res (h.frame le_rfl ht (by cases r; simp_all)) rfl rfl rfl

theorem Tuned.advanceClock (h : Inv a) (nowS : Nat) : Tuned a (a.advanceClock nowS) :=
  .retention h rfl rfl h.retain

theorem Tuned.configureRetention (h : Inv a) (o : RetainOptions) (nowS : Nat) :
    Tuned a (a.configureRetention o nowS) :=
  .retention h rfl rfl ⟨by simp, by simp⟩

theorem Tuned.protect (h : Inv a) (hm : a.res i = some m) (hs : SamePins m m')
    (hacc : m'.accessSeq = m.accessSeq) (h1 : m'.retainUntil ≠ 0) :
    Tuned a ((if m.retainUntil = 0 then a.protectLocked i else a).setSlot i m') := by
  split
  · rename_i h0
    exact .of_update (h.protect hm hs.body h0 h1 hacc hs.refs) rfl rfl hm
      (res_setSlot hm hs.body) hs
  · rename_i h0
    refine .of_update (h.setSlot hm hs.body hacc ?_ ?_) rfl rfl hm
      (res_setSlot hm hs.body) hs
    · simp only [pinWeight, hs.refs]
    · simp only [retainWeight, if_neg h0, if_neg h1]

theorem Tuned.pushWheel (h : Tuned a b) {deadline : Nat} (h0 : deadline ≠ 0) {moved : Prop}
    [Decidable moved] {key : BlockKey} :
    Tuned a (if moved then b.pushWheelLocked key deadline else b) := by
  split
  · exact h.trans (.of_res (h.inv.pushWheelLocked key h0) rfl rfl rfl)
  · exact h

theorem Tuned.retainGrant (h : Inv a) (hm : a.res i = some m) {eff : Nat} (heff : eff ≠ 0) :
    Tuned a (a.retainGrant i eff).1 := by
  obtain rfl := Inv.slots_eq hm
  have hne : max (a.slots i).retainUntil (min (a.retention.nowS + eff) uint32Max) ≠ 0 := by
    unfold uint32Max
    omega
  refine Tuned.pushWheel (.protect h hm ?_ ?_ ?_) hne
  · exact ⟨⟨rfl, rfl, rfl, rfl⟩, rfl, rfl⟩
  · rfl
  · exact hne

theorem Tuned.retainFound (h : Inv a) (hm : a.res i = some m) (ttlS : Nat) (mode : RetainMode) :
    Tuned a (a.retainFound i ttlS mode).1 := by
  unfold SlabAllocator.retainFound
  dsimp only
  generalize hb : (if mode = RetainMode.refresh then a.touchLocked i else a) = b
  have ht : Tuned a b := by
    rw [← hb]
    split
    · exact .touchLocked h hm
    · exact .refl h
  obtain ⟨m', hm', -⟩ := ht.res_some hm
  split
  · exact ht
  · rename_i heff
    split
    · exact ht
    · exact ht.trans (.retainGrant ht.inv hm' heff)

theorem Tuned.retainKey (h : Inv a) (ttlS : Nat) (mode : RetainMode) :
    Tuned a (a.retainKey k ttlS mode).1 := by
  unfold SlabAllocator.retainKey
  cases hf : a.findVisible k with
  | none => exact .refl h
  | some i =>
    dsimp only
    split
    · exact .retainFound h (h.findVisible_some hf).1 ttlS mode
    · exact .refl h

theorem Tuned.retain (h : Inv a) (ttlS : Nat) (mode : RetainMode) (nowS : Nat) :
    Tuned a (a.retain k ttlS mode nowS).1 := by
  have hc := Tuned.advanceClock h nowS
  have hr := hc.trans (.retainKey hc.inv (k := k) ttlS mode)
  exact hr.trans (.retention hr.inv rfl rfl hr.inv.retain)

theorem Tuned.unprotectLocked (h : Inv a) (hm : a.res i = some m) (h0 : m.retainUntil ≠ 0) :
    Tuned a (a.unprotectLocked i) :=
  .of_update (h.unprotectLocked hm h0) rfl rfl hm (res_unprotectLocked hm)
    ⟨⟨rfl, rfl, rfl, rfl⟩, rfl, rfl⟩

theorem Tuned.clearReferenced (h : Inv a) (hm : a.res i = some m) :
    Tuned a (a.setSlot i { a.slots i with referenced := false }) := by
  obtain rfl := Inv.slots_eq hm
  have hb : SameBody (a.slots i) { a.slots i with referenced := false } := ⟨rfl, rfl, rfl, rfl⟩
  exact .of_update (h.setSlot hm hb rfl rfl rfl) rfl rfl hm (res_setSlot hm hb)
    ⟨hb, rfl, rfl⟩

/-- An expired wheel entry at most drops a protection; the wheel itself is not written. -/
theorem Tuned.expireEntry (h : Inv a) {x : WheelEntry} (hx : x.until_ ≠ 0) :
    Tuned a (a.expireEntry x).1 := by
  unfold SlabAllocator.expireEntry
  have hb : Tuned a { a with retention :=
      { a.retention with wheelEntries := a.retention.wheelEntries - 1 } } :=
    .retention h rfl rfl h.retain
  cases hf : a.index.find x.key with
  | none => exact hb
  | some i =>
    obtain ⟨hm, -⟩ := h.find_spec hf
    dsimp only
    split
    · exact hb
    · rename_i hg
      simp only [not_or, ne_eq, not_not] at hg
      have hd := hb.trans (.unprotectLocked (m := a.slots i) hb.inv hm (hg.2 ▸ hx))
      obtain ⟨n, hn, -⟩ := hd.res_some hm
      have hs := hd.trans (.clearReferenced hd.inv hn)
      exact hs.trans (.retention hs.inv rfl rfl hs.inv.retain)

theorem Tuned.drainBucket (xs : List WheelEntry) : ∀ {a : SlabAllocator}, Inv a →
    (∀ x ∈ xs, x.until_ ≠ 0) → Tuned a (SlabAllocator.drainBucket xs a).1 ∧
      ∀ x ∈ (SlabAllocator.drainBucket xs a).2.1, x ∈ xs := by
  induction xs with
  | nil => exact fun h _ => ⟨.refl h, by simp [SlabAllocator.drainBucket]⟩
  | cons x xs ih =>
    intro a h hne
    have hxs : ∀ y ∈ xs, y.until_ ≠ 0 := fun y hy => hne y (List.mem_cons_of_mem _ hy)
    unfold SlabAllocator.drainBucket
    split
    · obtain ⟨ht, hsub⟩ := ih h hxs
      exact ⟨ht, List.forall_mem_cons.mpr
        ⟨List.mem_cons_self, fun y hy => List.mem_cons_of_mem _ (hsub y hy)⟩⟩
    · have hx := Tuned.expireEntry h (hne x List.mem_cons_self)
      obtain ⟨ht, hsub⟩ := ih hx.inv hxs
      exact ⟨hx.trans ht, fun y hy => List.mem_cons_of_mem _ (hsub y hy)⟩

theorem Tuned.expireLoop (n : Nat) : ∀ {a : SlabAllocator}, Inv a →
    Tuned a (SlabAllocator.expireLoop n a).1 := by
  induction n with
  | zero => exact fun h => .refl h
  | succ n ih =>
    intro a h
    obtain ⟨hd, hsub⟩ := Tuned.drainBucket _ h
      (h.retain.deadline ((a.retention.wheelTick + 1) % a.retention.wheelSize))
    have hnext : ∀ b, Tuned a b → Tuned a (SlabAllocator.expireLoop n b).1 :=
      fun b hb => hb.trans (ih hb.inv)
    refine hnext _ (hd.trans (.retention hd.inv rfl rfl ⟨hd.inv.retain.ttl, ?_⟩))
    -- the drained bucket holds old entries, the others are untouched
    refine forall_update (Q := fun _ l => ∀ x ∈ l, x.until_ ≠ 0) hd.inv.retain.deadline
      fun x hx => h.retain.deadline _ x (hsub x hx)

theorem Tuned.expireRetention (h : Inv a) (nowS : Nat) : Tuned a (a.expireRetention nowS).1 := by
  have hc := Tuned.advanceClock h nowS
  have hnext : ∀ n b, Tuned a b → Tuned a (SlabAllocator.expireLoop n b).1 :=
    fun n b hb => hb.trans (.expireLoop n hb.inv)
  unfold SlabAllocator.expireRetention
  dsimp only
  split
  · exact hc
  · exact hnext _ _ (hc.trans (.retention hc.inv rfl rfl hc.inv.retain))

/-! ## All calls -/

/-- Every public call keeps the invariant and acts on the record of each key by a `RecordStep`. -/
theorem apply_spec (h : Inv a) (op : Op) : CallSpec a op (a.apply op) := by
  cases op with
  | put k len => exact put_callSpec h
  | get k => exact get_callSpec h
  | getAndPin k => exact getAndPin_callSpec h
  | contains k => exact Tuned.callSpec (.refl h) h (fun _ => ⟨rfl, rfl, rfl⟩) rfl
  | pin k => exact pin_callSpec h
  | unpin k => exact unpin_callSpec h
  | pinHandle k handle => exact pinHandle_callSpec h
  | unpinHandle k handle => exact unpinHandle_callSpec h
  | remove k => exact remove_callSpec h
  | restoreBulk xs => exact restoreBulk_callSpec h
  | stealFrom d t => exact Evicts.callSpec (stealFrom_spec h) h fun _ => ⟨rfl, rfl, rfl⟩
  | reclaimClass c t m => exact Evicts.callSpec (reclaimClass_spec h) h fun _ => ⟨rfl, rfl, rfl⟩
  | evictColdToTarget t m =>
    exact Evicts.callSpec (evictColdToTarget_spec h) h fun _ => ⟨rfl, rfl, rfl⟩
  | configureRetention o now =>
    exact Tuned.callSpec (.configureRetention h o now) h (fun _ => ⟨rfl, rfl, rfl⟩) rfl
  | retain k ttl mode now =>
    exact Tuned.callSpec (.retain h ttl mode now) h (fun _ => ⟨rfl, rfl, rfl⟩) rfl
  | expireRetention now =>
    exact Tuned.callSpec (.expireRetention h now) h (fun _ => ⟨rfl, rfl, rfl⟩) rfl

theorem step_spec (h : Inv a) (outcomes : List Bool) (op : Op) :
    CallSpec a op (a.step outcomes op) := by
  have h' : Inv { a with env := { a.env with outcomes := outcomes } } := h.quiet le_rfl rfl
  obtain ⟨hinv, hopt, hrec⟩ := apply_spec h' op
  exact ⟨hinv, hopt, hrec⟩

end DingoCache.Slab
