import DingoCache.Slab.Run

/-!
# Retention over Calls

Which protections the calls of the allocator honour: a visible resident whose deadline is
still to come keeps its record and its deadline through every call but its own `Remove`.
-/

namespace DingoCache.Slab

open Library SlabAllocator
open Function (update update_eq_self update_idem update_of_ne update_self)

variable {a b d : SlabAllocator} {i now : Nat} {m m' : SlotMeta} {k k' : BlockKey}
  {ev : List BlockKey} {u : Nat}

/-! ## Deadlines that are kept -/

/-- The record of a visible resident is kept, with its deadline or a later one. -/
structure SlotMeta.Kept (m m' : SlotMeta) : Prop where
  key : m'.key = m.key
  pending : m'.removePending = false
  deadline : m.retainUntil ≤ m'.retainUntil

/-- Every visible resident with a deadline after `now` is kept. -/
def Honours (now : Nat) (a b : SlabAllocator) : Prop :=
  ∀ i m, a.res i = some m → m.removePending = false → now < m.retainUntil →
    ∃ m', b.res i = some m' ∧ m.Kept m'

theorem SlotMeta.Kept.refl (h : m.removePending = false) : m.Kept m := ⟨rfl, h, le_rfl⟩

theorem Honours.refl (now : Nat) (a : SlabAllocator) : Honours now a a :=
  fun _ m hm hvis _ => ⟨m, hm, .refl hvis⟩

theorem Honours.trans (h : Honours now a b) (h' : Honours now b d) : Honours now a d := by
  intro i m hm hvis hlt
  obtain ⟨m₁, hm₁, hk₁⟩ := h i m hm hvis hlt
  obtain ⟨m₂, hm₂, hk₂⟩ := h' i m₁ hm₁ hk₁.pending (hlt.trans_le hk₁.deadline)
  exact ⟨m₂, hm₂, hk₂.key.trans hk₁.key, hk₂.pending, hk₁.deadline.trans hk₂.deadline⟩

theorem Honours.of_res (h : b.res = a.res) : Honours now a b := by
  intro i m hm hvis _
  exact ⟨m, h ▸ hm, .refl hvis⟩

theorem Honours.of_update (hm : a.res i = some m) (hres : b.res = update a.res i (some m'))
    (hkept : m.removePending = false → now < m.retainUntil → m.Kept m') : Honours now a b := by
  intro j n hn hvis hlt
  rw [hres]
  rcases eq_or_ne j i with rfl | hj
  · obtain rfl : m = n := Option.some.inj (hm.symm.trans hn)
    exact ⟨m', update_self .., hkept hvis hlt⟩
  · exact ⟨n, (update_of_ne hj ..).trans hn, .refl hvis⟩

theorem SameHold.kept (h : SameHold m m') (hvis : m.removePending = false) : m.Kept m' :=
  ⟨h.key, h.samePins.pending.trans hvis, h.retainUntil.ge⟩

theorem Evicts.honours (h : Evicts a b ev) : Honours now a b := by
  intro i m hm hvis hlt
  rcases h.kept i m hm with ⟨m', hm', hs⟩ | ⟨-, -, -, hret⟩
  · exact ⟨m', hm', hs.kept hvis⟩
  · omega

theorem Admits.honours (h : Admits a b ev i m) : Honours now a b := by
  obtain ⟨-, d, hd, hfresh, hres, -⟩ := h
  refine (hd.honours).trans fun j n hn hvis _ => ⟨n, ?_, .refl hvis⟩
  have hj : j ≠ i := by
    rintro rfl
    simp [hfresh] at hn
  rw [hres, update_of_ne hj]
  exact hn

/-! ## Reads, pins and removal -/

theorem touchLocked_honours (hm : a.res i = some m) : Honours now a (a.touchLocked i) :=
  .of_update hm (res_touchLocked hm) fun hvis _ => ⟨rfl, hvis, le_rfl⟩

theorem pinSlot_honours (hm : a.res i = some m) : Honours now a (a.pinSlot i) :=
  .of_update hm (res_pinSlot hm) fun hvis _ => ⟨rfl, hvis, le_rfl⟩

/-- The last pin frees a resident only if a remove is pending on it. -/
theorem unpinAt_honours (h : Inv a) (hm : a.res i = some m) (h0 : m.refs ≠ 0) :
    Honours now a (a.unpinAt i) := by
  have hres := res_unpinSlot hm
  have hunpin : Honours now a (a.unpinSlot i) :=
    .of_update hm hres fun hvis _ => ⟨rfl, hvis, le_rfl⟩
  unfold unpinAt
  split
  case isFalse => exact hunpin
  case isTrue hfree =>
    have hmid : (a.unpinSlot i).res i = some { m with refs := m.refs - 1 } := by
      rw [hres, update_self]
    rw [Inv.slots_eq hm] at hfree
    intro j n hn hvis hlt
    have hj : j ≠ i := by
      rintro rfl
      obtain rfl : m = n := Option.some.inj (hm.symm.trans hn)
      simp [hfree.2] at hvis
    rw [res_freeSlotLocked (h.unpinSlot hm h0) hmid, update_of_ne hj, hres, update_of_ne hj]
    exact ⟨n, hn, .refl hvis⟩

theorem remove_honours (h : Inv a) (hi : a.res i = some m) (hne : m.key ≠ k) :
    (a.remove k).1.res i = some m := by
  unfold remove
  cases hf : a.index.find k with
  | none => exact hi
  | some j =>
    obtain ⟨hj, hkey⟩ := h.find_spec hf
    have hij : i ≠ j := by
      rintro rfl
      obtain rfl : a.slots i = m := Option.some.inj (hj.symm.trans hi)
      exact hne hkey
    dsimp only
    split
    · have hres : (a.setSlot j { a.slots j with removePending := true, referenced := false }).res =
          update a.res j _ := res_setSlot hj ⟨rfl, rfl, rfl, rfl⟩
      rw [hres, update_of_ne hij]
      exact hi
    · rw [res_freeSlotLocked h hj, update_of_ne hij]
      exact hi

/-! ## Retain and ExpireRetention -/

/-- `RetainCodeProtected`: the codes of a protection that was granted. -/
def RetainCode.isProtected : RetainCode → Bool
  | .protectedNew | .refreshed | .upgraded | .unchanged => true
  | .miss | .hitUnprotected | .denied => false

theorem retainGrant_res (hm : a.res i = some m) (eff : Nat) :
    ∃ m', (a.retainGrant i eff).1.res = update a.res i (some m') ∧ m'.key = m.key ∧
      m'.removePending = m.removePending ∧ m.retainUntil ≤ m'.retainUntil ∧
      m'.retainUntil = (a.retainGrant i eff).2.deadline := by
  obtain rfl := Inv.slots_eq hm
  unfold retainGrant
  dsimp only
  have hset : ∀ m', SameBody (a.slots i) m' →
      ((if (a.slots i).retainUntil = 0 then a.protectLocked i else a).setSlot i m').res =
        update a.res i (some m') := by
    intro m' hbody
    split
    · exact res_setSlot (a := a.protectLocked i) hm hbody
    · exact res_setSlot hm hbody
  split
  · exact ⟨_, hset _ ⟨rfl, rfl, rfl, rfl⟩, rfl, rfl, le_max_left _ _, rfl⟩
  · exact ⟨_, hset _ ⟨rfl, rfl, rfl, rfl⟩, rfl, rfl, le_max_left _ _, rfl⟩

/-- What `Retain` makes of the residents: at most the record of its key changes, and where a
protection is granted the record has the deadline that is answered. -/
theorem retainFound_res (hm : a.res i = some m) (ttlS : Nat) (mode : RetainMode) :
    ∃ m', (a.retainFound i ttlS mode).1.res = update a.res i (some m') ∧ m'.key = m.key ∧
      m'.removePending = m.removePending ∧ m.retainUntil ≤ m'.retainUntil ∧
      ((a.retainFound i ttlS mode).2.code.isProtected →
        m'.retainUntil = (a.retainFound i ttlS mode).2.deadline) := by
  unfold retainFound
  dsimp only
  generalize hb : (if mode = RetainMode.refresh then a.touchLocked i else a) = b
  have hres : ∃ n, b.res = update a.res i (some n) ∧ n.key = m.key ∧
      n.removePending = m.removePending ∧ n.retainUntil = m.retainUntil := by
    rw [← hb]
    split
    · exact ⟨_, res_touchLocked hm, rfl, rfl, rfl⟩
    · exact ⟨m, by rw [← hm, update_eq_self], rfl, rfl, rfl⟩
  obtain ⟨n, hn, hkey, hpending, hdeadline⟩ := hres
  have hbm : b.res i = some n := by rw [hn, update_self]
  split
  · exact ⟨n, hn, hkey, hpending, hdeadline.ge, fun h =>
      absurd h (by simp [RetainCode.isProtected])⟩
  · split
    · exact ⟨n, hn, hkey, hpending, hdeadline.ge,
        fun h => absurd h (by simp [RetainCode.isProtected])⟩
    · obtain ⟨m', hm', hkey', hpending', hle, heq⟩ :=
        retainGrant_res hbm (b.effectiveTtl (b.slots i) ttlS mode)
      refine ⟨m', ?_, hkey'.trans hkey, hpending'.trans hpending, hdeadline ▸ hle, fun _ => heq⟩
      rw [hm', hn, update_idem]

theorem retain_honours (h : Inv a) (ttlS : Nat) (mode : RetainMode) (nowS : Nat) :
    Honours now a (a.retain k ttlS mode nowS).1 := by
  have hclock : Honours now a (a.advanceClock nowS) := .of_res rfl
  have hinv := (Tuned.advanceClock h nowS).inv
  refine (hclock.trans ?_ : Honours now a ((a.advanceClock nowS).retainKey k ttlS mode).1)
  unfold retainKey
  cases hf : (a.advanceClock nowS).findVisible k with
  | none => exact .refl _ _
  | some i =>
    obtain ⟨hm, -, -⟩ := hinv.findVisible_some hf
    dsimp only
    split
    · obtain ⟨m', hres, hkey, hpending, hle, -⟩ := retainFound_res hm ttlS mode
      exact .of_update hm hres fun hvis _ => ⟨hkey, hpending.trans hvis, hle⟩
    · exact .refl _ _

/-- A protection that is granted has the deadline that is answered. -/
theorem retain_protects (h : Inv a) (ttlS : Nat) (mode : RetainMode) (nowS : Nat)
    (hcode : (a.retain k ttlS mode nowS).2.code.isProtected) :
    ∃ i m, (a.retain k ttlS mode nowS).1.res i = some m ∧ m.key = k ∧ m.removePending = false ∧
      m.retainUntil = (a.retain k ttlS mode nowS).2.deadline := by
  have hinv := (Tuned.advanceClock h nowS).inv
  have hres : (a.retain k ttlS mode nowS).1.res =
      ((a.advanceClock nowS).retainKey k ttlS mode).1.res := rfl
  rw [hres]
  change ((a.advanceClock nowS).retainKey k ttlS mode).2.code.isProtected = true at hcode
  change ∃ (i : Nat) (m : SlotMeta), _ ∧ _ ∧ _ ∧
    m.retainUntil = ((a.advanceClock nowS).retainKey k ttlS mode).2.deadline
  unfold retainKey at hcode ⊢
  cases hf : (a.advanceClock nowS).findVisible k with
  | none =>
    rw [hf] at hcode
    exact absurd hcode (by simp [RetainCode.isProtected])
  | some i =>
    obtain ⟨hm, hkey, hvis⟩ := hinv.findVisible_some hf
    rw [hf] at hcode
    dsimp only at hcode ⊢
    split at hcode
    case isFalse => exact absurd hcode (by simp [RetainCode.isProtected])
    case isTrue henabled =>
      rw [if_pos henabled]
      obtain ⟨m', hres', hkey', hpending, -, heq⟩ := retainFound_res hm ttlS mode
      refine ⟨i, m', ?_, hkey'.trans hkey, hpending.trans hvis, heq hcode⟩
      rw [hres', update_self]

theorem pushWheelLocked_now (a : SlabAllocator) (k : BlockKey) (deadline : Nat) :
    (a.pushWheelLocked k deadline).retention.nowS = a.retention.nowS := by
  simp only [pushWheelLocked, pushWheel]
  split <;> rfl

theorem retainGrant_now (a : SlabAllocator) (i eff : Nat) :
    (a.retainGrant i eff).1.retention.nowS = a.retention.nowS := by
  have hset : ∀ m', ((if (a.slots i).retainUntil = 0 then a.protectLocked i else a).setSlot i
      m').retention.nowS = a.retention.nowS := by
    intro m'
    split <;> rfl
  unfold retainGrant
  dsimp only
  split
  · exact (pushWheelLocked_now _ _ _).trans (hset _)
  · exact hset _

theorem retain_now (a : SlabAllocator) (k : BlockKey) (ttlS : Nat) (mode : RetainMode)
    (nowS : Nat) :
    (a.retain k ttlS mode nowS).1.retention.nowS = max a.retention.nowS nowS := by
  change ((a.advanceClock nowS).retainKey k ttlS mode).1.retention.nowS =
    (a.advanceClock nowS).retention.nowS
  generalize a.advanceClock nowS = b
  unfold retainKey
  cases b.findVisible k with
  | none => rfl
  | some i =>
    dsimp only
    split
    · unfold retainFound
      dsimp only
      generalize hd : (if mode = RetainMode.refresh then b.touchLocked i else b) = d
      have htouch : d.retention.nowS = b.retention.nowS := by
        rw [← hd]
        split <;> rfl
      split
      · exact htouch
      · split
        · exact htouch
        · exact (retainGrant_now _ _ _).trans htouch
    · rfl

/-- An entry of the wheel that has expired ends no deadline that is to come. -/
theorem expireEntry_honours {x : WheelEntry} (hx : x.until_ ≤ now) (h : Inv a) :
    Honours now a (a.expireEntry x).1 := by
  unfold expireEntry
  dsimp only
  cases hf : a.index.find x.key with
  | none => exact .of_res rfl
  | some i =>
    obtain ⟨hm, -⟩ := h.find_spec hf
    dsimp only
    split
    case isTrue => exact .of_res rfl
    case isFalse hstale =>
      simp only [not_or, ne_eq, not_not] at hstale
      generalize hb : ({ a with retention := { a.retention with
        wheelEntries := a.retention.wheelEntries - 1 } } : SlabAllocator) = b
      have hbm : b.res i = some (a.slots i) := by rw [← hb]; exact hm
      have hbres : b.res = a.res := by rw [← hb]; rfl
      have hd := res_unprotectLocked hbm
      have hdi : (b.unprotectLocked i).res i = some ((b.unprotectLocked i).slots i) := by
        have hd0 := (congrFun hd i).trans (update_self ..)
        rw [Inv.slots_eq hd0]
        exact hd0
      have hset : ((b.unprotectLocked i).setSlot i { (b.unprotectLocked i).slots i with
          referenced := false }).res = update (b.unprotectLocked i).res i _ :=
        res_setSlot hdi ⟨rfl, rfl, rfl, rfl⟩
      -- The record loses its deadline, which has passed.
      intro j n hn hvis hlt
      have hj : j ≠ i := by
        rintro rfl
        obtain rfl : a.slots j = n := Option.some.inj (hm.symm.trans hn)
        omega
      refine ⟨n, ?_, .refl hvis⟩
      change ((b.unprotectLocked i).setSlot i _).res j = some n
      rw [hset, update_of_ne hj, hd, update_of_ne hj, hbres]
      exact hn

theorem expireEntry_now (a : SlabAllocator) (x : WheelEntry) :
    (a.expireEntry x).1.retention.nowS = a.retention.nowS := by
  unfold expireEntry
  dsimp only
  cases a.index.find x.key with
  | none => rfl
  | some i =>
    dsimp only
    split <;> rfl

theorem drainBucket_honours (xs : List WheelEntry) : ∀ {a : SlabAllocator}, Inv a →
    (∀ x ∈ xs, x.until_ ≠ 0) → a.retention.nowS ≤ now →
    Honours now a (drainBucket xs a).1 ∧
      (drainBucket xs a).1.retention.nowS = a.retention.nowS := by
  induction xs with
  | nil => exact fun _ _ _ => ⟨.refl _ _, rfl⟩
  | cons x xs ih =>
    intro a h hne hnow
    have hxs : ∀ y ∈ xs, y.until_ ≠ 0 := fun y hy => hne y (List.mem_cons_of_mem _ hy)
    unfold drainBucket
    split
    case isTrue => exact ih h hxs hnow
    case isFalse hdue =>
      have hx : Honours now a (a.expireEntry x).1 := expireEntry_honours (by omega) h
      have hclock := expireEntry_now a x
      obtain ⟨hrest, hrestClock⟩ := ih (Tuned.expireEntry h (hne x List.mem_cons_self)).inv hxs
        (hclock.trans_le hnow)
      exact ⟨hx.trans hrest, hrestClock.trans hclock⟩

theorem expireLoop_honours (n : Nat) : ∀ {a : SlabAllocator}, Inv a → a.retention.nowS ≤ now →
    Honours now a (expireLoop n a).1 ∧ (expireLoop n a).1.retention.nowS = a.retention.nowS := by
  induction n with
  | zero => exact fun _ _ => ⟨.refl _ _, rfl⟩
  | succ n ih =>
    intro a h hnow
    have hdeadline := h.retain.deadline ((a.retention.wheelTick + 1) % a.retention.wheelSize)
    obtain ⟨hd, hclock⟩ := drainBucket_honours _ h hdeadline hnow
    obtain ⟨htuned, hsub⟩ := Tuned.drainBucket _ h hdeadline
    have hnext : ∀ b : SlabAllocator, Tuned a b → Honours now a b →
        b.retention.nowS = a.retention.nowS →
        Honours now a (expireLoop n b).1 ∧
          (expireLoop n b).1.retention.nowS = a.retention.nowS := by
      intro b hb hhonours hbclock
      obtain ⟨hrest, hrestClock⟩ := ih hb.inv (hbclock.trans_le hnow)
      exact ⟨hhonours.trans hrest, hrestClock.trans hbclock⟩
    refine hnext _ (htuned.trans (.retention htuned.inv rfl rfl ⟨htuned.inv.retain.ttl, ?_⟩))
      (hd.trans (.of_res rfl)) hclock
    exact forall_update (Q := fun _ l => ∀ x ∈ l, x.until_ ≠ 0) htuned.inv.retain.deadline
      fun x hx => hdeadline x (hsub x hx)

theorem expireRetention_honours (h : Inv a) {nowS : Nat} (hnow : a.retention.nowS ≤ now)
    (hnowS : nowS ≤ now) :
    Honours now a (a.expireRetention nowS).1 ∧ (a.expireRetention nowS).1.retention.nowS ≤ now := by
  have hclock : (a.advanceClock nowS).retention.nowS ≤ now := Nat.max_le.mpr ⟨hnow, hnowS⟩
  have hadvance : Honours now a (a.advanceClock nowS) := .of_res rfl
  have hc := Tuned.advanceClock h nowS
  have hnext : ∀ n b, Tuned a b → Honours now a b → b.retention.nowS ≤ now →
      Honours now a (expireLoop n b).1 ∧ (expireLoop n b).1.retention.nowS ≤ now := by
    intro n b hb hhonours hbclock
    obtain ⟨hloop, hloopClock⟩ := expireLoop_honours n hb.inv hbclock
    exact ⟨hhonours.trans hloop, hloopClock.trans_le hbclock⟩
  unfold expireRetention
  dsimp only
  split
  · exact ⟨hadvance, hclock⟩
  · exact hnext _ _ (hc.trans (.retention hc.inv rfl rfl hc.inv.retain))
      (hadvance.trans (.of_res rfl)) hclock

/-! ## All calls -/

def Op.clock : Op → Nat
  | .configureRetention _ nowS | .retain _ _ _ nowS | .expireRetention nowS => nowS
  | _ => 0

/-- The call is a `Remove`. -/
def Op.isRemove : Op → Bool
  | .remove _ => true
  | _ => false

theorem put_honours (h : Inv a) (k : BlockKey) (len : Nat) : Honours now a (a.put k len).1 := by
  have htick : Honours now a { a with activitySeq := a.activitySeq + 1 } := .of_res rfl
  cases put_spec h k len with
  | present i m hm _ hvis _ hres _ _ _ => exact .of_update hm hres fun _ _ => ⟨rfl, hvis, le_rfl⟩
  | pending i m _ _ _ _ hres _ _ _ => exact .of_res hres
  | new hk hnew =>
    cases hnew with
    | failed _ _ hev => exact htick.trans hev.honours
    | admitted i m _ _ _ _ hadm => exact htick.trans hadm.honours

theorem put_now (h : Inv a) (k : BlockKey) (len : Nat) :
    (a.put k len).1.retention.nowS = a.retention.nowS := by
  cases hk : a.index.find k with
  | some i =>
    simp only [put, hk]
    split <;> rfl
  | none =>
    have heq : a.put k len = ({ a with activitySeq := a.activitySeq + 1 } : SlabAllocator).putNew
      k len := by
      simp only [put, hk]
    rw [heq]
    cases putNew_spec h.tick hk with
    | failed _ _ hev => exact hev.static.now
    | admitted i m _ _ _ _ hadm => exact hadm.static.now

theorem restoreBulk_honours (h : Inv a) (xs : List RestoreEntry) :
    Honours now a (a.restoreBulk xs).1 := by
  rcases restoreBulk_spec h xs with ⟨-, heq⟩ | ⟨-, ys, zs, -, hall, -⟩
  · rw [heq]
    exact .refl _ _
  · intro i m hm hvis _
    obtain ⟨m', hm', hs⟩ := hall.kept i m hm
    exact ⟨m', hm', hs.kept hvis⟩

theorem restoreBulk_now (h : Inv a) (xs : List RestoreEntry) :
    (a.restoreBulk xs).1.retention.nowS = a.retention.nowS := by
  rcases restoreBulk_spec h xs with ⟨-, heq⟩ | ⟨-, ys, zs, -, hall, -⟩
  · rw [heq]
  · exact hall.static.now

theorem unpinAt_now (h : Inv a) (hm : a.res i = some m) (h0 : m.refs ≠ 0) :
    (a.unpinAt i).retention.nowS = a.retention.nowS := by
  have hmid : (a.unpinSlot i).res i = some { m with refs := m.refs - 1 } := by
    rw [res_unpinSlot hm, update_self]
  unfold unpinAt
  split
  · exact (Static.freeSlotLocked (h.unpinSlot hm h0) hmid).now
  · rfl

/-- Every call but `Remove` honours the deadlines after the clock, and the clock of the allocator
stays behind. -/
theorem apply_honours (h : Inv a) {op : Op} (hop : op.isRemove = false)
    (hnow : a.retention.nowS ≤ now) (hclock : op.clock ≤ now) :
    Honours now a (a.apply op).1 ∧ (a.apply op).1.retention.nowS ≤ now := by
  cases op with
  | put k len => exact ⟨put_honours h k len, (put_now h k len).trans_le hnow⟩
  | get k =>
    simp only [apply, SlabAllocator.get]
    cases hf : a.findVisible k with
    | none => exact ⟨.refl _ _, hnow⟩
    | some i => exact ⟨touchLocked_honours (h.findVisible_some hf).1, hnow⟩
  | getAndPin k =>
    simp only [apply, getAndPin]
    cases hf : a.findVisible k with
    | none => exact ⟨.refl _ _, hnow⟩
    | some i =>
      obtain ⟨hm, -, -⟩ := h.findVisible_some hf
      obtain ⟨m', hm', -⟩ := (Tuned.touchLocked h hm).res_some hm
      exact ⟨(touchLocked_honours hm).trans (pinSlot_honours hm'), hnow⟩
  | contains k => exact ⟨.refl _ _, hnow⟩
  | pin k =>
    simp only [apply, pin]
    cases hf : a.findVisible k with
    | none => exact ⟨.refl _ _, hnow⟩
    | some i => exact ⟨pinSlot_honours (h.findVisible_some hf).1, hnow⟩
  | unpin k =>
    simp only [apply, unpin]
    cases hf : a.index.find k with
    | none => exact ⟨.refl _ _, hnow⟩
    | some i =>
      obtain ⟨hm, -⟩ := h.find_spec hf
      dsimp only
      split
      · exact ⟨.refl _ _, hnow⟩
      case isFalse h0 => exact ⟨unpinAt_honours h hm h0, (unpinAt_now h hm h0).trans_le hnow⟩
  | pinHandle k handle =>
    simp only [apply, pinHandle]
    cases handle with
    | none => exact ⟨.refl _ _, hnow⟩
    | some i =>
      dsimp only
      split
      · exact ⟨.refl _ _, hnow⟩
      case isFalse hg =>
        simp only [not_or, ne_eq, not_not, Bool.not_eq_false, Bool.not_eq_true] at hg
        exact ⟨pinSlot_honours (Inv.res_eq_some.mpr ⟨hg.2.1, rfl⟩), hnow⟩
  | unpinHandle k handle =>
    simp only [apply, unpinHandle]
    cases handle with
    | none => exact ⟨.refl _ _, hnow⟩
    | some i =>
      dsimp only
      split
      · exact ⟨.refl _ _, hnow⟩
      case isFalse hg =>
        simp only [not_or, ne_eq, not_not, Bool.not_eq_false] at hg
        have hm := Inv.res_eq_some.mpr ⟨hg.2.1, rfl⟩
        exact ⟨unpinAt_honours h hm hg.2.2.2, (unpinAt_now h hm hg.2.2.2).trans_le hnow⟩
  | remove k => exact absurd hop (by simp [Op.isRemove])
  | restoreBulk xs =>
    exact ⟨restoreBulk_honours h xs, (restoreBulk_now h xs).trans_le hnow⟩
  | stealFrom d t =>
    have hev : Evicts a (a.stealFrom d t).1 (a.stealFrom d t).2.2 := stealFrom_spec h
    exact ⟨hev.honours, hev.static.now.trans_le hnow⟩
  | reclaimClass c t m =>
    have hev : Evicts a (a.reclaimClass c t m).1 (a.reclaimClass c t m).2.2 := reclaimClass_spec h
    exact ⟨hev.honours, hev.static.now.trans_le hnow⟩
  | evictColdToTarget t m =>
    have hev : Evicts a (a.evictColdToTarget t m).1 (a.evictColdToTarget t m).2 :=
      evictColdToTarget_spec h
    exact ⟨hev.honours, hev.static.now.trans_le hnow⟩
  | configureRetention o nowS => exact ⟨.of_res rfl, hclock⟩
  | retain k ttl mode nowS =>
    refine ⟨retain_honours h ttl mode nowS, (retain_now a k ttl mode nowS).trans_le ?_⟩
    exact Nat.max_le.mpr ⟨hnow, hclock⟩
  | expireRetention nowS => exact expireRetention_honours h hnow hclock

theorem step_honours (h : Inv a) (outcomes : List Bool) {op : Op} (hop : op.isRemove = false)
    (hnow : a.retention.nowS ≤ now) (hclock : op.clock ≤ now) :
    Honours now a (a.step outcomes op).1 ∧ (a.step outcomes op).1.retention.nowS ≤ now := by
  have h' : Inv { a with env := { a.env with outcomes := outcomes } } := h.quiet le_rfl rfl
  exact apply_honours h' hop hnow hclock

/-! ## Protected keys -/

/-- The key has a visible resident with the deadline or a later one. -/
def SlabAllocator.ProtectedUntil (a : SlabAllocator) (k : BlockKey) (u : Nat) : Prop :=
  ∃ i m, a.res i = some m ∧ m.key = k ∧ m.removePending = false ∧ u ≤ m.retainUntil

theorem Honours.protectedUntil (h : Honours now a b) (hp : a.ProtectedUntil k u) (hu : now < u) :
    b.ProtectedUntil k u := by
  obtain ⟨i, m, hm, hkey, hvis, hle⟩ := hp
  obtain ⟨m', hm', hkept⟩ := h i m hm hvis (hu.trans_le hle)
  exact ⟨i, m', hm', hkept.key.trans hkey, hkept.pending, hle.trans hkept.deadline⟩

theorem remove_now (h : Inv a) (outcomes : List Bool) (k : BlockKey) :
    (a.step outcomes (.remove k)).1.retention.nowS = a.retention.nowS := by
  have h' : Inv { a with env := { a.env with outcomes := outcomes } } := h.quiet le_rfl rfl
  simp only [step, apply, remove]
  split
  · rfl
  case h_2 i hf =>
    obtain ⟨hm, -⟩ := h'.find_spec hf
    split
    · rfl
    · exact (Static.freeSlotLocked h' hm).now

theorem ProtectedUntil.remove (h : Inv a) (hp : a.ProtectedUntil k u) (hne : k ≠ k')
    (outcomes : List Bool) : (a.step outcomes (.remove k')).1.ProtectedUntil k u := by
  have h' : Inv { a with env := { a.env with outcomes := outcomes } } := h.quiet le_rfl rfl
  obtain ⟨i, m, hm, hkey, hvis, hle⟩ := hp
  exact ⟨i, m, remove_honours h' hm (hkey ▸ hne), hkey, hvis, hle⟩

theorem ProtectedUntil.lookup (h : Inv a) (hp : a.ProtectedUntil k u) :
    ∃ m, a.lookup k = some m ∧ m.removePending = false ∧ u ≤ m.retainUntil := by
  obtain ⟨i, m, hm, rfl, hvis, hle⟩ := hp
  exact ⟨m, h.lookup_of_res hm, hvis, hle⟩

/-- A run of calls, each with the answers of its eviction callbacks. -/
def SlabAllocator.runCalls (a : SlabAllocator) (calls : List (List Bool × Op)) : SlabAllocator :=
  calls.foldl (fun b x => (b.step x.1 x.2).1) a

/-- Calls that neither remove the key nor bring the clock to the deadline keep the protection. -/
theorem ProtectedUntil.runCalls (calls : List (List Bool × Op)) : ∀ {a : SlabAllocator}, Inv a →
    a.ProtectedUntil k u → a.retention.nowS < u →
    (∀ x ∈ calls, x.2 ≠ .remove k ∧ x.2.clock < u) →
    Inv (a.runCalls calls) ∧ (a.runCalls calls).ProtectedUntil k u := by
  induction calls with
  | nil => exact fun h hp _ _ => ⟨h, hp⟩
  | cons x calls ih =>
    intro a h hp hnow hcalls
    obtain ⟨⟨hne, hclock⟩, hrest⟩ := List.forall_mem_cons.mp hcalls
    obtain ⟨outcomes, op⟩ := x
    obtain ⟨hp', hnow'⟩ : (a.step outcomes op).1.ProtectedUntil k u ∧
        (a.step outcomes op).1.retention.nowS < u := by
      by_cases hop : op.isRemove = false
      · obtain ⟨hh, hle⟩ := step_honours h outcomes hop (Nat.le_sub_one_of_lt hnow)
          (Nat.le_sub_one_of_lt hclock)
        exact ⟨hh.protectedUntil hp (by omega), by omega⟩
      · cases op with
        | remove k' =>
          exact ⟨ProtectedUntil.remove h hp (fun hk => hne (hk ▸ rfl)) outcomes,
            (remove_now h outcomes k').trans_lt hnow⟩
        | _ => exact absurd rfl hop
    exact ih (step_spec h outcomes op).inv hp' hnow' hrest

/-- A deadline that `Retain` granted is honoured: through all later calls, whatever their eviction
callbacks answer, the key stays visible with this deadline or a later one until a `Remove` of it or
a clock that has reached the deadline. -/
theorem retention_honoured {o : Options} (hr : Reachable o a) {ttlS nowS : Nat} {mode : RetainMode}
    {r : RetainOutcome} (hret : a.retain k ttlS mode nowS = (b, r)) (hcode : r.code.isProtected)
    (hnow : b.retention.nowS < r.deadline) (calls : List (List Bool × Op))
    (hcalls : ∀ x ∈ calls, x.2 ≠ .remove k ∧ x.2.clock < r.deadline) :
    ∃ m, (b.runCalls calls).lookup k = some m ∧ m.removePending = false ∧
      r.deadline ≤ m.retainUntil := by
  have h := hr.inv
  have hb : Inv b := by
    have hinv := (apply_spec h (.retain k ttlS mode nowS)).inv
    simpa only [SlabAllocator.apply, hret] using hinv
  obtain ⟨i, m, hm, hkey, hvis, hu⟩ := retain_protects h ttlS mode nowS (by rwa [hret])
  rw [hret] at hm hu
  obtain ⟨hinv, hp⟩ := ProtectedUntil.runCalls calls hb ⟨i, m, hm, hkey, hvis, hu.ge⟩ hnow hcalls
  exact ProtectedUntil.lookup hinv hp

/-- A small extent with one value. -/
def oneValue : SlabAllocator :=
  (((new { extentBytes := 16, numExtents := 1, align := 4 }).step [] (.configureRetention
    { enabled := true, budgetBytes := 16, maxTtlS := 60, classPct := 100 } 0)).1.step []
      (.put ⟨1, 2, 0⟩ 3)).1

theorem retained_key_outlives_put : ∃ m,
    ((oneValue.retain ⟨1, 2, 0⟩ 60 .set 0).1.step [true] (.put ⟨3, 4, 0⟩ 16)).1.lookup ⟨1, 2, 0⟩ =
      some m ∧ m.removePending = false := by
  have hnow : (oneValue.retain ⟨1, 2, 0⟩ 60 .set 0).1.retention.nowS <
      (oneValue.retain ⟨1, 2, 0⟩ 60 .set 0).2.deadline := by decide +kernel
  obtain ⟨m, hm, hvis, -⟩ := retention_honoured ((Reachable.new.step [] _).step [] _ : _)
    (Prod.mk.eta (p := oneValue.retain ⟨1, 2, 0⟩ 60 .set 0)).symm (by decide +kernel) hnow
    [([true], .put ⟨3, 4, 0⟩ 16)] (List.forall_mem_singleton.mpr ⟨by simp, Nat.zero_lt_of_lt hnow⟩)
  exact ⟨m, hm, hvis⟩

end DingoCache.Slab
