import DingoCache.Slab.Run

/-!
# The Allocator as Its Callers See It

A caller that keeps its own books next to the allocator depends on three things
of a resident: where it lies, how many pins it has and whether a remove is
pending on it.  `SlabAllocator.held` is the allocator reduced to that, and every
call the disk store makes is an equation about it.

- `Inv.held_places`, `Inv.held_apart`: where the residents lie.
-/

namespace DingoCache.Slab

open Library SlabAllocator
open Function (update update_eq_self update_idem update_self)

variable {a b : SlabAllocator} {i len : Nat} {m m' : SlotMeta} {k k' : BlockKey}
  {ev : List BlockKey}

/-! ## The reduced map -/

/-- Placement, pins and pending remove of a resident. -/
structure Hold where
  ref : SlotRef
  refs : Nat
  pending : Bool
deriving DecidableEq

def SlotMeta.hold (m : SlotMeta) : Hold := ⟨m.ref, m.refs, m.removePending⟩

/-- What the allocator holds for `key`. -/
def SlabAllocator.held (a : SlabAllocator) (key : BlockKey) : Option Hold :=
  (a.lookup key).map SlotMeta.hold

/-- The map without the keys in `ev`. -/
def dropKeys (f : BlockKey → Option Hold) (ev : List BlockKey) : BlockKey → Option Hold :=
  fun k => if k ∈ ev then none else f k

@[simp] theorem dropKeys_nil (f : BlockKey → Option Hold) : dropKeys f [] = f := by
  funext k
  simp [dropKeys]

theorem dropKeys_eq_some {f : BlockKey → Option Hold} {x : Hold} :
    dropKeys f ev k = some x ↔ k ∉ ev ∧ f k = some x := by
  unfold dropKeys
  split <;> simp_all

theorem SamePins.hold_eq (h : SamePins m m') : m'.hold = m.hold := by
  simp [SlotMeta.hold, h.body.ref, h.refs, h.pending]

theorem SlabAllocator.held_of_lookup (h : a.lookup k = some m) : a.held k = some m.hold := by
  simp [held, h]

theorem Tuned.held_eq (h : Tuned a b) (ha : Inv a) : b.held = a.held := by
  funext k
  have hrel := h.lookup ha k
  unfold held
  revert hrel
  generalize a.lookup k = x
  generalize b.lookup k = y
  rintro (hs | _)
  · exact congrArg some hs.hold_eq
  · rfl

theorem Inv.held_update (h : Inv a) (h' : Inv b) (hm : a.res i = some m) {v : Option SlotMeta}
    (hres : b.res = update a.res i v) (hv : ∀ n, v = some n → n.key = m.key) :
    b.held = update a.held m.key (v.map SlotMeta.hold) := by
  funext k
  unfold held
  rw [h.lookup_update h' hm hres hv]
  rcases eq_or_ne k m.key with rfl | hk
  · simp
  · simp [hk]

/-! ## Calls that evict -/

/-- The successful persistence calls leave the records in `g` alone, cover those that went from `f`
to `g`, and name no slot outside `f`. -/
structure CallLog (calls : List (MetaCall × Bool)) (f g : BlockKey → Option Hold) : Prop where
  spares : ∀ call, (call, true) ∈ calls → ∀ k x, g k = some x → ¬call.Covers x.ref
  clears : ∀ k x, f k = some x → g k = none → ∃ call, (call, true) ∈ calls ∧ call.Covers x.ref
  inside : ∀ ref, (.slotEvict ref, true) ∈ calls →
    ∃ k x, f k = some x ∧ (MetaCall.slotEvict ref).Covers x.ref

theorem CallLog.nil (f : BlockKey → Option Hold) : CallLog [] f f :=
  ⟨fun _ hc => absurd hc List.not_mem_nil, fun _ _ hx hnone => by simp [hnone] at hx,
    fun _ hc => absurd hc List.not_mem_nil⟩

/-- The call evicted `ev`, all of it unpinned, and did nothing else. -/
structure Sheds (a b : SlabAllocator) (ev : List BlockKey) : Prop where
  inv : Inv b
  opt : b.opt = a.opt
  held : b.held = dropKeys a.held ev
  idle : ∀ k ∈ ev, ∃ x, a.held k = some x ∧ x.refs = 0
  log : CallLog b.env.calls a.held b.held

/-- All three persistence callbacks are installed. -/
structure Options.Persistent (o : Options) : Prop where
  bind : o.onExtentBind = true
  extent : o.onExtentEvict = true
  slot : o.onSlotEvict = true

/-- The allocator before a call: the callbacks will answer `outcomes`. -/
def SlabAllocator.armed (a : SlabAllocator) (outcomes : List Bool) : SlabAllocator :=
  { a with env := { outcomes := outcomes } }

@[simp] theorem held_armed (a : SlabAllocator) (outcomes : List Bool) :
    (a.armed outcomes).held = a.held := rfl

theorem Inv.armed (h : Inv a) (outcomes : List Bool) : Inv (a.armed outcomes) :=
  h.quiet le_rfl rfl

theorem Evicts.held_eq (h : Evicts a b ev) (ha : Inv a) : b.held = dropKeys a.held ev := by
  funext k
  unfold dropKeys held
  cases hk : a.lookup k with
  | none => simp [h.lookup_none ha hk]
  | some m =>
    rcases h.lookup_some ha hk with ⟨m', hm', hs, hev⟩ | ⟨hnone, hmem, -⟩
    · simp [hm', hev, hs.samePins.hold_eq]
    · simp [hnone, hmem]

theorem Evicts.idle (h : Evicts a b ev) (ha : Inv a) (hk : k ∈ ev) :
    ∃ x, a.held k = some x ∧ x.refs = 0 := by
  obtain ⟨⟨i, m, hm, rfl⟩, -⟩ := h.gone k hk
  have hl := ha.lookup_of_res hm
  rcases h.lookup_some ha hl with ⟨-, -, -, hev⟩ | ⟨-, -, hrefs, -⟩
  · exact absurd hk hev
  · exact ⟨m.hold, held_of_lookup hl, hrefs⟩

theorem Inv.held_iff (h : Inv a) {x : Hold} :
    a.held k = some x ↔ ∃ i m, a.res i = some m ∧ m.key = k ∧ m.hold = x := by
  unfold held
  rw [Option.map_eq_some_iff]
  constructor
  · rintro ⟨m, hm, hx⟩
    obtain ⟨i, hi, hk⟩ := h.lookup_iff.mp hm
    exact ⟨i, m, hi, hk, hx⟩
  · rintro ⟨i, m, hi, hk, hx⟩
    exact ⟨m, h.lookup_iff.mpr ⟨i, hi, hk⟩, hx⟩

theorem Evicts.callLog (h : Evicts a b ev) (ha : Inv a) (hp : a.opt.Persistent)
    (hcalls : a.env.calls = []) : CallLog b.env.calls a.held b.held := by
  obtain ⟨cs, hcs, hspare, hclear, hslot⟩ := h.calls
  rw [hcalls, List.nil_append] at hcs
  rw [hcs]
  refine ⟨fun call hc k x hx => ?_, fun k x hx hnone => ?_, fun ref hc => ?_⟩
  · obtain ⟨i, m, hm, -, rfl⟩ := h.inv.held_iff.mp hx
    exact hspare call hc i m hm
  · obtain ⟨i, m, hm, rfl, rfl⟩ := ha.held_iff.mp hx
    refine hclear hp.bind hp.extent hp.slot i m hm ?_
    -- a record still at `i` would be the same key's
    by_contra hne
    obtain ⟨n, hn⟩ := Option.ne_none_iff_exists'.mp hne
    obtain ⟨m₀, hm₀, hs⟩ := h.old i n hn
    rw [hm] at hm₀
    cases hm₀
    have := h.inv.held_iff.mpr ⟨i, n, hn, hs.key, rfl⟩
    simp [hnone] at this
  · obtain ⟨i, m, hm, hcov⟩ := hslot ref hc
    exact ⟨m.key, m.hold, ha.held_iff.mpr ⟨i, m, hm, rfl, rfl⟩, hcov⟩

theorem Evicts.sheds (h : Evicts a b ev) (ha : Inv a) (hp : a.opt.Persistent)
    (hcalls : a.env.calls = []) : Sheds a b ev :=
  ⟨h.inv, h.static.opt, h.held_eq ha, fun _ => h.idle ha, h.callLog ha hp hcalls⟩

theorem stealFrom_sheds (h : Inv a) (hp : a.opt.Persistent) (outcomes : List Bool)
    (donor target : Nat) : Sheds (a.armed outcomes) ((a.armed outcomes).stealFrom donor target).1
      ((a.armed outcomes).stealFrom donor target).2.2 :=
  (stealFrom_spec (h.armed outcomes)).sheds (h.armed outcomes) hp rfl

theorem reclaimClass_sheds (h : Inv a) (hp : a.opt.Persistent) (outcomes : List Bool)
    (c target n : Nat) : Sheds (a.armed outcomes) ((a.armed outcomes).reclaimClass c target n).1
      ((a.armed outcomes).reclaimClass c target n).2.2 :=
  (reclaimClass_spec (h.armed outcomes)).sheds (h.armed outcomes) hp rfl

theorem evictColdToTarget_sheds (h : Inv a) (hp : a.opt.Persistent) (outcomes : List Bool)
    (target n : Nat) : Sheds (a.armed outcomes) ((a.armed outcomes).evictColdToTarget target n).1
      ((a.armed outcomes).evictColdToTarget target n).2 :=
  (evictColdToTarget_spec (h.armed outcomes)).sheds (h.armed outcomes) hp rfl

/-! ## Put -/

/-- A `Put` of an absent key: a refusal that evicted nothing, or a fresh unpinned resident that
holds the value. -/
inductive PutHeld (a : SlabAllocator) (k : BlockKey) (len : Nat) (r : SlabAllocator × PutResult) :
    Prop
  | failed (hok : r.2.ok = false) (hnil : r.2.evicted = []) (h : Sheds a r.1 [])
  | placed (hok : r.2.ok = true) (hfit : len ≤ r.2.ref.slotSize) (hinv : Inv r.1)
      (hopt : r.1.opt = a.opt)
      (hheld : r.1.held = update (dropKeys a.held r.2.evicted) k (some ⟨r.2.ref, 0, false⟩))
      (hidle : ∀ k ∈ r.2.evicted, ∃ x, a.held k = some x ∧ x.refs = 0)
      (hlog : CallLog r.1.env.calls a.held (dropKeys a.held r.2.evicted))

theorem SlabAllocator.held_eq_none : a.held k = none ↔ a.index.find k = none := by
  rw [held, Option.map_eq_none_iff, lookup_eq_none]

theorem put_held (h : Inv a) (hp : a.opt.Persistent) (outcomes : List Bool) (len : Nat)
    (hk : a.held k = none) :
    PutHeld (a.armed outcomes) k len ((a.armed outcomes).put k len) := by
  have ha := h.armed outcomes
  have hfind : (a.armed outcomes).index.find k = none := held_eq_none.mp hk
  cases put_spec ha k len with
  | present i m hm hkey =>
    rw [← hkey, ha.find_of_res hm] at hfind
    simp at hfind
  | pending i m hm hkey =>
    rw [← hkey, ha.find_of_res hm] at hfind
    simp at hfind
  | new _ hnew =>
    cases hnew with
    | failed hok hnil hev =>
      obtain ⟨hinv, hopt, hheld, hidle, hlog⟩ := hev.sheds ha.tick hp rfl
      exact .failed hok hnil ⟨hinv, hopt, hheld, hidle, hlog⟩
    | admitted i m hok hhandle href hm hadm =>
      obtain ⟨hinv, d, hd, hfresh, hres, hst, henv, -⟩ := hadm
      have hnew : ((a.armed outcomes).put k len).1.res i = some m := by
        rw [hres, update_self]
      have hheld : ((a.armed outcomes).put k len).1.held = update d.held m.key (some m.hold) := by
        funext k'
        unfold held
        rw [hd.inv.lookup_insert hinv hfresh hres]
        rcases eq_or_ne k' m.key with rfl | hkk
        · simp
        · simp [hkk]
      have hhold : m.hold = ⟨((a.armed outcomes).put k len).2.ref, 0, false⟩ := by
        rw [href]
        simp [SlotMeta.hold, hm.refs, hm.pending]
      rw [hd.held_eq ha.tick, hm.key, hhold] at hheld
      refine .placed hok ?_ hinv (hst.opt.trans hd.static.opt) hheld (fun _ => hd.idle ha.tick) ?_
      · rw [href, ← hm.useful]
        exact (hinv.records _ _ hnew).useful_le
      · rw [henv, show (dropKeys (a.armed outcomes).held _) = d.held from (hd.held_eq ha.tick).symm]
        exact hd.callLog ha.tick hp rfl

/-! ## Calls on one key -/

/-- The call rewrote the entry of `k` to `v`. -/
structure Rewrites (a b : SlabAllocator) (k : BlockKey) (v : Option Hold) : Prop where
  inv : Inv b
  opt : b.opt = a.opt
  held : b.held = update a.held k v

/-- The call changed no entry. -/
structure Keeps (a b : SlabAllocator) : Prop where
  inv : Inv b
  opt : b.opt = a.opt
  held : b.held = a.held

theorem Inv.keeps (h : Inv a) : Keeps a a := ⟨h, rfl, rfl⟩

theorem Tuned.keeps (h : Tuned a b) (ha : Inv a) : Keeps a b := ⟨h.inv, h.opt, h.held_eq ha⟩

section OneKey

variable {x : Hold}

theorem Inv.find_of_held (h : Inv a) (hx : a.held k = some x) :
    ∃ i, a.index.find k = some i ∧ a.res i = some (a.slots i) ∧ (a.slots i).key = k ∧
      (a.slots i).hold = x := by
  obtain ⟨i, m, hm, rfl, rfl⟩ := h.held_iff.mp hx
  obtain rfl := Inv.slots_eq hm
  exact ⟨i, h.find_of_res hm, hm, rfl, rfl⟩

theorem contains_held (h : Inv a) : a.contains k = (a.held k).any fun x => !x.pending := by
  unfold contains
  cases hx : a.held k with
  | none => simp [held_eq_none.mp hx]
  | some x =>
    obtain ⟨i, hi, -, -, rfl⟩ := h.find_of_held hx
    simp [hi, SlotMeta.hold]

theorem findVisible_held (h : Inv a) (hx : a.held k = some x) (hp : x.pending = false) :
    ∃ i, a.findVisible k = some i ∧ a.res i = some (a.slots i) ∧ (a.slots i).key = k ∧
      (a.slots i).hold = x := by
  obtain ⟨i, hi, hm, hk, rfl⟩ := h.find_of_held hx
  refine ⟨i, ?_, hm, hk, rfl⟩
  have hpend : (a.slots i).removePending = false := hp
  simp [findVisible, hi, hpend]

theorem findVisible_none (hx : a.held k = none) : a.findVisible k = none := by
  simp [findVisible, held_eq_none.mp hx]

theorem get_held (h : Inv a) (hvis : ∀ x, a.held k = some x → x.pending = false) :
    Keeps a (a.get k).1 ∧ (a.get k).2 = (a.held k).map Hold.ref := by
  unfold SlabAllocator.get
  cases hx : a.held k with
  | none =>
    rw [findVisible_none hx]
    exact ⟨⟨h, rfl, rfl⟩, rfl⟩
  | some x =>
    obtain ⟨i, hi, hm, -, rfl⟩ := findVisible_held h hx (hvis x hx)
    rw [hi]
    exact ⟨(Tuned.touchLocked h hm).keeps h, rfl⟩

theorem pinSlot_rewrites (h : Inv a) (hm : a.res i = some m) :
    Rewrites a (a.pinSlot i) m.key (some { m.hold with refs := (m.refs + 1) % 2 ^ 32 }) :=
  have hinv := h.pinSlot hm
  ⟨hinv, rfl, h.held_update hinv hm (res_pinSlot hm) (by rintro _ ⟨⟩; rfl)⟩

theorem getAndPin_held (h : Inv a) (hvis : ∀ x, a.held k = some x → x.pending = false) :
    (a.getAndPin k).2 = (a.held k).map Hold.ref ∧ ((a.held k = none ∧ (a.getAndPin k).1 = a) ∨
        ∃ x, a.held k = some x ∧
          Rewrites a (a.getAndPin k).1 k (some { x with refs := (x.refs + 1) % 2 ^ 32 })) := by
  unfold getAndPin
  cases hx : a.held k with
  | none =>
    rw [findVisible_none hx]
    exact ⟨rfl, Or.inl ⟨rfl, rfl⟩⟩
  | some x =>
    obtain ⟨i, hi, hm, rfl, rfl⟩ := findVisible_held h hx (hvis x hx)
    rw [hi]
    have ht := Tuned.touchLocked h hm
    obtain ⟨n, hn, hs⟩ := ht.res_some hm
    obtain ⟨hinv, hopt, hheld⟩ := pinSlot_rewrites ht.inv hn
    rw [hs.body.key, ht.held_eq h, hs.hold_eq, hs.refs] at hheld
    exact ⟨rfl, Or.inr ⟨_, rfl, hinv, hopt.trans ht.opt, hheld⟩⟩

theorem pin_held (h : Inv a) (hx : a.held k = some x) (hp : x.pending = false) :
    Rewrites a (a.pin k).1 k (some { x with refs := (x.refs + 1) % 2 ^ 32 }) := by
  obtain ⟨i, hi, hm, rfl, rfl⟩ := findVisible_held h hx hp
  unfold pin
  rw [hi]
  exact pinSlot_rewrites h hm

theorem unpin_held (h : Inv a) (hx : a.held k = some x) (hp : x.pending = false)
    (h0 : x.refs ≠ 0) : Rewrites a (a.unpin k).1 k (some { x with refs := x.refs - 1 }) := by
  obtain ⟨i, hi, hm, rfl, rfl⟩ := h.find_of_held hx
  have hpend : (a.slots i).removePending = false := hp
  have hrefs : (a.slots i).refs ≠ 0 := h0
  have hinv := h.unpinSlot hm hrefs
  have heq : (a.unpin (a.slots i).key).1 = a.unpinSlot i := by
    simp [unpin, hi, hrefs, unpinAt, hpend]
  rw [heq]
  exact ⟨hinv, rfl, h.held_update hinv hm (res_unpinSlot hm) (by rintro _ ⟨⟩; rfl)⟩

theorem remove_held (h : Inv a) (h0 : ∀ x, a.held k = some x → x.refs = 0) :
    Rewrites a (a.remove k).1 k none := by
  unfold remove
  cases hx : a.held k with
  | none =>
    rw [held_eq_none.mp hx]
    exact ⟨h, rfl, by rw [← hx, update_eq_self]⟩
  | some x =>
    obtain ⟨i, hi, hm, rfl, rfl⟩ := h.find_of_held hx
    have hrefs : (a.slots i).refs = 0 := h0 _ hx
    have hinv := h.freeSlotLocked hm
    simp only [hi, hrefs, lt_self_iff_false, if_false]
    exact ⟨hinv, (Static.freeSlotLocked h hm).opt,
      h.held_update hinv hm (res_freeSlotLocked h hm) (by simp)⟩

theorem retainFound_ref {ttlS : Nat} {mode : RetainMode} :
    (a.retainFound i ttlS mode).2.ref = (a.slots i).ref := by
  have hb : ((if mode = .refresh then a.touchLocked i else a).slots i).ref = (a.slots i).ref := by
    split
    · simp [touchLocked, slots]
    · rfl
  unfold retainFound
  generalize (if mode = .refresh then a.touchLocked i else a) = b at *
  dsimp only
  split
  · exact hb
  · split
    · exact hb
    · exact hb

theorem retain_held (h : Inv a) (hvis : ∀ x, a.held k = some x → x.pending = false) (ttlS : Nat)
    (mode : RetainMode) (nowS : Nat) : Keeps a (a.retain k ttlS mode nowS).1 ∧
      ((a.retain k ttlS mode nowS).2.persist →
        (a.held k).map Hold.ref = some (a.retain k ttlS mode nowS).2.ref) := by
  refine ⟨(Tuned.retain h ttlS mode nowS).keeps h, ?_⟩
  have hc := (Tuned.advanceClock h nowS).inv
  unfold retain retainKey
  cases hx : a.held k with
  | none =>
    rw [findVisible_none (a := a.advanceClock nowS) hx]
    simp
  | some x =>
    obtain ⟨i, hi, -, -, rfl⟩ := findVisible_held hc hx (hvis x hx)
    rw [hi]
    dsimp only
    split
    · exact fun _ => congrArg some retainFound_ref.symm
    · simp

theorem expireRetention_held (h : Inv a) (nowS : Nat) : Keeps a (a.expireRetention nowS).1 :=
  (Tuned.expireRetention h nowS).keeps h

theorem Rewrites.get {v : Hold} (h : Rewrites a b k (some v))
    (hp : v.pending = false) : Rewrites a (b.get k).1 k (some v) ∧ (b.get k).2 = some v.ref := by
  have hv : b.held k = some v := by rw [h.held, update_self]
  obtain ⟨hk, href⟩ := get_held h.inv (k := k) fun x hx => by
    rw [hv] at hx
    exact Option.some.inj hx ▸ hp
  refine ⟨⟨hk.inv, hk.opt.trans h.opt, hk.held.trans h.held⟩, ?_⟩
  rw [href, hv]
  rfl

theorem Rewrites.remove {v : Hold} (h : Rewrites a b k (some v))
    (h0 : v.refs = 0) : Rewrites a (b.remove k).1 k none := by
  have hv : b.held k = some v := by rw [h.held, update_self]
  obtain ⟨hinv, hopt, hheld⟩ := remove_held h.inv (k := k) fun x hx => by
    rw [hv] at hx
    exact Option.some.inj hx ▸ h0
  exact ⟨hinv, hopt.trans h.opt, by rw [hheld, h.held, update_idem]⟩

end OneKey

/-! ## Where residents lie -/

/-- A placement the allocator can hand out. -/
structure Options.Places (o : Options) (r : SlotRef) : Prop where
  extent_lt : r.extent < o.numExtents
  slot_lt : r.slot < o.extentBytes / r.slotSize
  offset_eq : r.offset = r.slot * r.slotSize
  align_le : o.align ≤ r.slotSize
  lattice : r.slotSize ∈ o.classSizes (o.maxAligned + 1) o.align

theorem Options.Places.inside {o : Options} {r : SlotRef} (h : o.Places r) :
    r.offset + r.slotSize ≤ o.extentBytes := by
  rw [h.offset_eq]
  exact (slot_end_le h.slot_lt).trans (Nat.div_mul_le_self _ _)

/-- Two placements share no byte. -/
def SlotRef.Apart (r r' : SlotRef) : Prop :=
  r.extent = r'.extent →
    r.slot ≠ r'.slot ∧ (r.offset + r.slotSize ≤ r'.offset ∨ r'.offset + r'.slotSize ≤ r.offset)

namespace Inv

theorem held_places (h : Inv a) {x : Hold} (hx : a.held k = some x) : a.opt.Places x.ref := by
  obtain ⟨i, m, hm, -, rfl⟩ := h.held_iff.mp hx
  have hp := h.placed hm
  obtain ⟨he, hc⟩ := h.ref_lt hm
  have hslot := hp.slot_lt
  rw [h.geometry.perExtent _ hc, ← hp.size_eq] at hslot
  refine ⟨he, hslot.trans_le (Nat.mod_le _ _), hp.offset_eq, ?_, ?_⟩
  · exact (h.geometry.align_le _ hc).trans_eq hp.size_eq.symm
  · rw [← h.geometry.sizes]
    exact List.mem_map.mpr ⟨m.ref.cls, List.mem_range.mpr hc, hp.size_eq.symm⟩

theorem held_apart (h : Inv a) {x y : Hold} (hx : a.held k = some x) (hy : a.held k' = some y)
    (hne : k ≠ k') : x.ref.Apart y.ref := by
  intro he
  obtain ⟨i, m, hm, rfl, rfl⟩ := h.held_iff.mp hx
  obtain ⟨j, n, hn, rfl, rfl⟩ := h.held_iff.mp hy
  have hij : i ≠ j := by
    rintro rfl
    rw [hm] at hn
    exact hne (congrArg SlotMeta.key (Option.some.inj hn))
  obtain ⟨hi, rfl⟩ := res_eq_some.mp hm
  obtain ⟨hj, rfl⟩ := res_eq_some.mp hn
  exact ⟨fun hs => hij (h.place.inj i j _ _ (placeOf_live hi) (placeOf_live hj) he hs),
    h.slot_disjoint hi hj hij he⟩

theorem held_size_eq (h : Inv a) {x y : Hold} (hx : a.held k = some x) (hy : a.held k' = some y)
    (he : x.ref.extent = y.ref.extent) : x.ref.slotSize = y.ref.slotSize := by
  obtain ⟨i, m, hm, -, rfl⟩ := h.held_iff.mp hx
  obtain ⟨j, n, hn, -, rfl⟩ := h.held_iff.mp hy
  have hpm := h.placed hm
  have hpn := h.placed hn
  have hcls : m.ref.cls = n.ref.cls := by
    have hb := hpm.bound
    rw [show m.ref.extent = n.ref.extent from he, hpn.bound] at hb
    exact (Option.some.inj hb).symm
  exact hpm.size_eq.trans (hcls ▸ hpn.size_eq.symm)

end Inv

end DingoCache.Slab
