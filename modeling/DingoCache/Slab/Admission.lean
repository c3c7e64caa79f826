import DingoCache.Library.LoopRuns
import DingoCache.Slab.Clock

/-!
# Admission by `Put`
-/

namespace DingoCache.Slab

open Library SlabAllocator Option

variable {a b : SlabAllocator} {o : Options} {i c e : Nat} {m : SlotMeta} {ev : List BlockKey}
  {key k : BlockKey} {len : Nat}

/-! ## The loops of `Put` -/

/-- `while (cls.ext_rr.size() < kStripeWays)`. -/
def stripeBody (c : Nat) (a : SlabAllocator) : SlabAllocator ⊕ SlabAllocator × Bool :=
  if (a.classes c).extRr.length < kStripeWays then
    match (a.bindFreeExtent c).2 with
    | .bound => .inl (a.bindFreeExtent c).1
    | .persistenceError => .inr ((a.bindFreeExtent c).1, false)
    | .unavailable => .inr ((a.bindFreeExtent c).1, true)
  else .inr (a, true)

/-- `while (extent.resident_head != kNoSlot)`, with the keys listed so far. -/
def drainBody (e : Nat) (x : SlabAllocator × List BlockKey) :
    SlabAllocator × List BlockKey ⊕ SlabAllocator × List BlockKey :=
  match (x.1.extents e).residentHead with
  | none => .inr x
  | some i => .inl ((x.1.freeSlotLocked i).noteEviction, x.2 ++ [(x.1.slots i).key])

/-- `for (;;)`, with the keys listed so far. -/
def putBody (c : Nat) (x : SlabAllocator × List BlockKey) :
    SlabAllocator × List BlockKey ⊕ SlabAllocator × Option (Nat × Nat) × List BlockKey :=
  match (x.1.putRound c).2.1 with
  | .placed e s => .inr ((x.1.putRound c).1, some (e, s), x.2 ++ (x.1.putRound c).2.2)
  | .failed => .inr ((x.1.putRound c).1, none, x.2 ++ (x.1.putRound c).2.2)
  | .again => .inl ((x.1.putRound c).1, x.2 ++ (x.1.putRound c).2.2)

theorem bindFreeExtent_length (h : Inv a) (hb : (a.bindFreeExtent c).2 = .bound) :
    ((a.bindFreeExtent c).1.classes c).extRr.length = (a.classes c).extRr.length + 1 := by
  rcases bindFreeExtent_cases h c with heq | ⟨hres, -⟩ | ⟨-, e, hadd⟩
  · simp [heq] at hb
  · simp [hres] at hb
  · simp [hadd]

/-- The striping loop ends: every repeated round widens the rotation. -/
theorem stripeLoop_ends (n : Nat) : ∀ {a : SlabAllocator}, Inv a →
    kStripeWays ≤ (a.classes c).extRr.length + n →
    LoopEnds (stripeBody c) a (n + 1) (stripeLoop c n a) := by
  induction n with
  | zero =>
    intro a _ hn
    exact .leave (if_neg (by omega))
  | succ n ih =>
    intro a h hn
    unfold stripeLoop
    by_cases hlen : (a.classes c).extRr.length < kStripeWays
    · rw [if_pos hlen]
      dsimp only
      cases hb : (a.bindFreeExtent c).2 with
      | bound =>
        have hwide := bindFreeExtent_length h hb
        have hinv : Inv (a.bindFreeExtent c).1 := (bindFreeExtent_spec h).inv
        refine .again ?_ (ih hinv (by omega))
        rw [stripeBody, if_pos hlen, hb]
      | persistenceError =>
        refine .leave ?_
        rw [stripeBody, if_pos hlen, hb]
      | unavailable =>
        refine .leave ?_
        rw [stripeBody, if_pos hlen, hb]
    · rw [if_neg hlen]
      exact .leave (if_neg hlen)

theorem residentCount_freeSlotLocked (h : Inv a) (hm : a.res i = some m) :
    ((a.freeSlotLocked i).extents m.ref.extent).residentCount + 1 =
      (a.extents m.ref.extent).residentCount := by
  have hupd := tally_update (w := inExtent m.ref.extent one) (h.lt_size hm) none
    (R := a.res)
  have hsize : (a.freeSlotLocked i).table.size = a.table.size := by
    unfold freeSlotLocked returnIdleExtent
      unprotectIfRetained
    split <;> split <;> rfl
  rw [((h.freeSlotLocked hm).extCounts m.ref.extent).resident, (h.extCounts m.ref.extent).resident,
    res_freeSlotLocked h hm, hsize]
  simpa [hm, inExtent, one] using hupd

/-- The loop over the residents of a stolen extent ends: every round frees one. -/
theorem drainExtent_ends (n : Nat) : ∀ {a : SlabAllocator} (ev : List BlockKey), Inv a →
    (a.extents e).residentCount ≤ n →
    LoopEnds (drainBody e) (a, ev) (n + 1)
      ((drainExtent e n a).1, ev ++ (drainExtent e n a).2) := by
  induction n with
  | zero =>
    intro a ev h h0
    have hhead : (a.extents e).residentHead = none := by
      cases hh : (a.extents e).residentHead with
      | none => rfl
      | some i =>
        obtain ⟨m, hm, rfl⟩ := h.head_spec hh
        have := residentCount_freeSlotLocked h hm
        omega
    refine .leave ?_
    simp [drainBody, hhead, drainExtent]
  | succ n ih =>
    intro a ev h hn
    unfold drainExtent
    cases hh : (a.extents e).residentHead with
    | none =>
      refine .leave ?_
      simp [drainBody, hh]
    | some i =>
      obtain ⟨m, hm, rfl⟩ := h.head_spec hh
      have hcount := residentCount_freeSlotLocked h hm
      have hinv : Inv (a.freeSlotLocked i).noteEviction := (h.freeSlotLocked hm).quiet le_rfl rfl
      have hrest := ih (ev ++ [(a.slots i).key]) hinv
        (show ((a.freeSlotLocked i).extents m.ref.extent).residentCount ≤ n by omega)
      rw [List.append_assoc] at hrest
      refine .again ?_ hrest
      simp [drainBody, hh]

theorem putLoop_ends (h : Inv a) (hc : c < a.classCount) (n : Nat) :
    LoopEnds (putBody c) (a, []) 2 (putLoop c (n + 2) a) := by
  obtain ⟨-, hagain⟩ := putRound_attempt h hc
  unfold putLoop
  cases hr : (a.putRound c).2.1 with
  | placed e s =>
    refine .leave ?_
    simp [putBody, hr]
  | failed =>
    refine .leave ?_
    simp [putBody, hr]
  | again =>
    obtain ⟨e, s, hp⟩ := hagain hr
    have hfirst : putBody c (a, []) = .inl ((a.putRound c).1, (a.putRound c).2.2) := by
      simp [putBody, hr]
    refine .again hfirst (.leave ?_)
    simp [putBody, putLoop, hp, hr]

/-- Every loop that `Put` runs ends.  The inner loops run in states that satisfy `Inv`. -/
structure PutEnds (a : SlabAllocator) : Prop where
  rounds : ∀ c, c < a.classCount → LoopEnds (putBody c) (a, []) 2 (putLoop c a.putRounds a)
  striping : ∀ b c, Inv b → LoopEnds (stripeBody c) b (kStripeWays + 1) (stripeLoop c kStripeWays b)
  draining : ∀ b e, Inv b → LoopEnds (drainBody e) (b, []) ((b.extents e).residentCount + 1)
      (drainExtent e (b.extents e).residentCount b)

theorem Inv.putEnds (h : Inv a) : PutEnds a where
  rounds _ hc := putLoop_ends h hc _
  striping _ _ hb := stripeLoop_ends _ hb (by omega)
  draining _ _ hb := drainExtent_ends _ [] hb le_rfl

/-! ## Atomicity -/

/-- What a `Put` of `key` that answered `ok` and listed `ev` did to the residents. -/
structure PutAtomic (a a' : SlabAllocator) (key : BlockKey) (ok : Bool) (ev : List BlockKey) :
    Prop where
  /-- A refused put evicts nothing, and nobody loses, gains or changes a slot. -/
  refused : ok = false → ev = [] ∧ ∀ k, (a'.lookup k).map (·.ref) = (a.lookup k).map (·.ref)
  /-- After a successful one exactly the old residents, the key, and none of the listed
      keys are resident. -/
  residents : ok = true → ∀ k,
    (a'.lookup k).isSome = true ↔ k = key ∨ (a.lookup k).isSome = true ∧ k ∉ ev
  once : ev.Nodup
  /-- The listed keys were resident, not pinned and not retained. -/
  evictable : ∀ k ∈ ev, ∃ m, a.lookup k = some m ∧ m.refs = 0 ∧ m.retainUntil = 0
  /-- Everyone else keeps their slot. -/
  kept : ∀ k m, a.lookup k = some m → k ∉ ev → ∃ m', a'.lookup k = some m' ∧ m'.ref = m.ref

theorem Evicts.evictable (h : Evicts a b ev) (ha : Inv a) (hk : k ∈ ev) :
    ∃ m, a.lookup k = some m ∧ m.refs = 0 ∧ m.retainUntil = 0 := by
  obtain ⟨⟨i, m, hm, rfl⟩, -⟩ := h.gone k hk
  have hl := ha.lookup_of_res hm
  rcases h.lookup_some ha hl with ⟨-, -, -, hno⟩ | ⟨-, -, hr, ht⟩
  · exact absurd hk hno
  · exact ⟨m, hl, hr, ht⟩

theorem Evicts.lookup_ref (h : Evicts a b ev) (ha : Inv a) (hk : k ∉ ev) :
    (b.lookup k).map (·.ref) = (a.lookup k).map (·.ref) := by
  cases hl : a.lookup k with
  | none => rw [h.lookup_none ha hl]
  | some m =>
    rcases h.lookup_some ha hl with ⟨m', hm', hs, -⟩ | ⟨-, hmem, -⟩
    · rw [hm', map_some, map_some, hs.ref]
    · exact absurd hmem hk

theorem Evicts.putAtomic (h : Evicts a b []) (ha : Inv a) : PutAtomic a b key false [] where
  refused _ := ⟨rfl, fun _ => h.lookup_ref ha (by simp)⟩
  residents hok := by simp at hok
  once := List.nodup_nil
  evictable := by simp
  kept k m hm _ := by
    have href := h.lookup_ref ha (k := k) (by simp)
    rw [hm, map_some] at href
    simpa using href

theorem Admits.putAtomic (h : Admits a b ev i m) (ha : Inv a) (hk : a.lookup m.key = none) :
    PutAtomic a b m.key true ev := by
  obtain ⟨hinv, d, hd, hfresh, hres, -⟩ := h
  have hlook := hd.inv.lookup_insert hinv hfresh hres
  refine ⟨by simp, fun _ k => ?_, hd.nodup, fun k hmem => hd.evictable ha hmem,
    fun k n hn hno => ?_⟩
  · rw [hlook]
    rcases eq_or_ne k m.key with rfl | hkm
    · simp
    · rw [Function.update_of_ne hkm]
      by_cases hmem : k ∈ ev
      · obtain ⟨n, hn, -⟩ := hd.evictable ha hmem
        have hgone : d.lookup k = none := by
          rcases hd.lookup_some ha hn with ⟨-, -, -, hno⟩ | ⟨hnone, -⟩
          · exact absurd hmem hno
          · exact hnone
        simp [hgone, hkm, hmem]
      · have href := congrArg isSome (hd.lookup_ref ha hmem)
        rw [isSome_map, isSome_map] at href
        simp [href, hkm, hmem]
  · have hkm : k ≠ m.key := by
      rintro rfl
      simp [hk] at hn
    have href := hd.lookup_ref ha hno
    rw [hn, map_some] at href
    rw [hlook, Function.update_of_ne hkm]
    simpa using href

theorem Inv.putAtomic (h : Inv a) (key : BlockKey) (len : Nat) :
    PutAtomic a (a.put key len).1 key (a.put key len).2.ok (a.put key len).2.evicted := by
  have hspec := put_spec h key len
  generalize a.put key len = r at hspec
  cases hspec with
  | present i m hm hkey hvis hinv hres hr henv hopt =>
    have hlook := h.lookup_update hinv hm hres (by simp)
    rw [hkey] at hlook
    have hold : a.lookup key = some m := hkey ▸ h.lookup_of_res hm
    have href (k : BlockKey) : (r.1.lookup k).map (·.ref) = (a.lookup k).map (·.ref) := by
      rw [hlook]
      rcases eq_or_ne k key with rfl | hk
      · simp [hold]
      · rw [Function.update_of_ne hk]
    rw [hr]
    refine ⟨by simp, fun _ k => ?_, List.nodup_nil, by simp, fun k n hn _ => ?_⟩
    · have hsome := congrArg isSome (href k)
      rw [isSome_map, isSome_map] at hsome
      rcases eq_or_ne k key with rfl | hk
      · simp [hsome, hold]
      · simp [hsome, hk]
    · have hsome := href k
      rw [hn, map_some] at hsome
      simpa using hsome
  | pending i m hm hkey hpend hinv hres hr henv hopt =>
    have hsame : r.1.lookup = a.lookup := by
      have hlook := h.lookup_update (v := some m) hinv hm
        (by rw [hres, ← hm, Function.update_eq_self]) (by simp)
      rw [hlook, ← h.lookup_of_res hm, Function.update_eq_self]
    rw [hr]
    exact ⟨fun _ => ⟨rfl, fun k => by rw [hsame]⟩, by simp, List.nodup_nil, by simp,
      fun k n hn _ => ⟨n, by rw [hsame, hn], rfl⟩⟩
  | new hk hnew =>
    have hnone : ({ a with activitySeq := a.activitySeq + 1 } : SlabAllocator).lookup key = none :=
      lookup_eq_none.mpr hk
    cases hnew with
    | failed hok hnil hev =>
      rw [hok, hnil]
      have hat : PutAtomic _ r.1 key false [] := hev.putAtomic h.tick
      obtain ⟨h1, h2, h3, h4, h5⟩ := hat
      exact ⟨h1, h2, h3, h4, h5⟩
    | admitted i m hok hhandle href hm hadm =>
      rw [hok, ← hm.key]
      obtain ⟨h1, h2, h3, h4, h5⟩ := hadm.putAtomic h.tick (by rw [hm.key]; exact hnone)
      exact ⟨h1, h2, h3, h4, h5⟩

/-- The state in which `Put` starts its loops: the callbacks will answer `outcomes`. -/
def SlabAllocator.putStart (a : SlabAllocator) (outcomes : List Bool) : SlabAllocator :=
  { a with env := { a.env with outcomes := outcomes }, activitySeq := a.activitySeq + 1 }

/-- `Put` terminates, is atomic, and lists exactly the keys it evicted, in every reachable state and
whatever the callbacks answer. -/
theorem put_is_atomic (h : SlabAllocator.Reachable o a) (outcomes : List Bool) (key : BlockKey)
    (len : Nat) :
    PutEnds (a.putStart outcomes) ∧
      PutAtomic a (a.step outcomes (.put key len)).1 key (a.step outcomes (.put key len)).2.ok
        (a.step outcomes (.put key len)).2.evicted := by
  have hinv : Inv ({ a with env := { a.env with outcomes := outcomes } } : SlabAllocator) :=
    h.inv.quiet le_rfl rfl
  have hstart : Inv (a.putStart outcomes) := h.inv.quiet (Nat.le_succ _) rfl
  refine ⟨hstart.putEnds, ?_⟩
  obtain ⟨h1, h2, h3, h4, h5⟩ := hinv.putAtomic key len
  exact ⟨h1, h2, h3, h4, h5⟩

/-- The only slot of an allocator is taken from the first key by the second one. -/
theorem second_put_is_atomic :
    let k₁ : BlockKey := { digestHi := 1, digestLo := 2, tenantHash := 0 }
    let k₂ : BlockKey := { digestHi := 3, digestLo := 4, tenantHash := 0 }
    let a := ((SlabAllocator.new { extentBytes := 4, numExtents := 1, align := 4 }).step []
      (.put k₁ 3)).1
    (a.step [] (.put k₂ 3)).2.ok = true ∧ (a.step [] (.put k₂ 3)).2.evicted = [k₁] ∧
      PutAtomic a (a.step [] (.put k₂ 3)).1 k₂ true [k₁] := by
  intro k₁ k₂ a
  have hrun : SlabAllocator.Reachable _ a := .step [] (.put k₁ 3) .new
  have hok : (a.step [] (.put k₂ 3)).2.ok = true := by decide
  have hev : (a.step [] (.put k₂ 3)).2.evicted = [k₁] := by decide
  have hput := (put_is_atomic hrun [] k₂ 3).2
  rw [hok, hev] at hput
  exact ⟨hok, hev, hput⟩

/-! ## When nothing can be reclaimed -/

/-- `Put` has a class, `c`, for values of length `len`. -/
structure SlabAllocator.Admissible (a : SlabAllocator) (len c : Nat) : Prop where
  nonempty : len ≠ 0
  fits : len ≤ a.opt.extentBytes
  small : len ≤ uint32Max
  aligned : Options.alignUp len a.opt.align ≠ 0
  alignedFits : Options.alignUp len a.opt.align ≤ a.opt.extentBytes
  cls : a.classForLen (Options.alignUp len a.opt.align) = some c

/-- Nothing can be reclaimed for class `c`. -/
structure SlabAllocator.Exhausted (a : SlabAllocator) (c : Nat) : Prop where
  /-- No extent is unbound. -/
  bound : ∀ e, e < a.opt.numExtents → (a.extents e).cls ≠ none
  /-- The class has no free slot. -/
  full : ∀ e, (a.classes c).freeByExt e = []
  /-- Every resident of the class is pinned or retained. -/
  held : ∀ i m, a.res i = some m → m.ref.cls = c → m.refs ≠ 0 ∨ m.retainUntil ≠ 0
  /-- Every extent of another class holds a pinned or retained resident. -/
  others : ∀ e c', (a.extents e).cls = some c' → c' ≠ c →
    ∃ i m, a.res i = some m ∧ m.ref.extent = e ∧ (m.refs ≠ 0 ∨ m.retainUntil ≠ 0)

def SlabAllocator.CallbacksOk (a : SlabAllocator) : Prop := ∀ x ∈ a.env.outcomes, x = true

theorem SlabAllocator.CallbacksOk.head (h : a.CallbacksOk) : a.env.outcomes.headD true := by
  unfold SlabAllocator.CallbacksOk at h
  cases ho : a.env.outcomes with
  | nil => rfl
  | cons x xs => exact h x (by simp [ho])

theorem SlabAllocator.CallbacksOk.invoke (h : a.CallbacksOk) (installed : Bool) (call : MetaCall) :
    (a.invoke installed call).2 := by
  unfold SlabAllocator.invoke
  split
  · exact h.head
  · rfl

theorem SlabAllocator.CallbacksOk.after_invoke (h : a.CallbacksOk) (installed : Bool)
    (call : MetaCall) : (a.invoke installed call).1.CallbacksOk := by
  unfold SlabAllocator.invoke
  split
  · exact fun x hx => h x (List.mem_of_mem_tail hx)
  · exact h

/-- No extent of another class can be taken for `c`. -/
def SlabAllocator.NoDonor (a : SlabAllocator) (c : Nat) : Prop :=
  ∀ e, e < a.opt.numExtents → a.stealable c e = false

/-- The scan of the steal functions finds an eligible extent, if there is one. -/
theorem bestExtent_spec (a : SlabAllocator) (eligible : Nat → Bool) (before : Nat → Nat → Bool) :
    (a.bestExtent eligible before = none ∧ ∀ e, e < a.opt.numExtents → eligible e = false) ∨
      ∃ e, a.bestExtent eligible before = some e ∧ e < a.opt.numExtents ∧ eligible e := by
  unfold bestExtent
  -- by induction on the extents scanned so far
  generalize a.opt.numExtents = n
  induction n with
  | zero => exact Or.inl ⟨rfl, by simp⟩
  | succ n ih =>
    rw [List.range_succ, List.foldl_append, List.foldl_cons, List.foldl_nil]
    rcases ih with ⟨hnone, hno⟩ | ⟨e, hsome, he, hel⟩
    · rw [hnone]
      by_cases hn : eligible n
      · exact Or.inr ⟨n, by simp [hn], by omega, hn⟩
      · refine Or.inl ⟨by simp [hn], fun e he => ?_⟩
        rcases Nat.lt_succ_iff_lt_or_eq.mp he with he | rfl
        · exact hno e he
        · simpa using hn
    · rw [hsome]
      by_cases hn : eligible n
      · by_cases hb : before n e
        · exact Or.inr ⟨n, by simp [hn, hb], by omega, hn⟩
        · exact Or.inr ⟨e, by simp [hn, hb], by omega, hel⟩
      · exact Or.inr ⟨e, by simp [hn], by omega, hel⟩

section Healthy

variable (h : Inv a) (hcb : a.CallbacksOk) (hc : c < a.classCount)
  (hper : (a.classes c).slotsPerExtent ≠ 0)

include h hcb hc hper

theorem stealExtentLocked_takes (hs : a.stealable c e) :
    (a.stealExtentLocked e c).2.1 = .bound := by
  unfold stealable at hs
  simp only [ne_eq, Bool.and_eq_true, decide_eq_true_eq] at hs
  obtain ⟨⟨⟨hcls, -⟩, hpin⟩, hprot⟩ := hs
  obtain ⟨old, hold⟩ := ne_none_iff_exists'.mp hcls
  have hguard : ¬(a.classCount ≤ c ∨ (a.classes c).slotsPerExtent = 0 ∨
      (a.extents e).pinned ≠ 0 ∨ (a.extents e).protectedSlots ≠ 0) := by
    simp only [not_or, not_le, ne_eq, not_not]
    exact ⟨hc, hper, hpin, hprot⟩
  have hcls' : (((a.invoke a.opt.onExtentBind (.extentBind e)).1).extents e).cls = some old := by
    rw [extents_invoke, hold]
  have hbound := (rebindExtent_spec c h.invoke hcls' (by rwa [Static.invoke.classCount])
    (by rwa [classes_invoke]) (by rwa [extents_invoke]) (by rwa [extents_invoke])).1
  unfold stealExtentLocked
  simp only [hold, if_neg hguard]
  rw [if_pos (hcb.invoke a.opt.onExtentBind (.extentBind e))]
  exact hbound

theorem stealExtentFor_cases (minDonor : Nat) :
    a.stealExtentFor c minDonor = (a, .unavailable, []) ∧ (minDonor = 0 → a.NoDonor c) ∨
      (a.stealExtentFor c minDonor).2.1 = .bound ∧ ¬a.NoDonor c := by
  unfold stealExtentFor
  dsimp only
  rcases bestExtent_spec a
      (fun e => a.stealable c e && !(decide (0 < minDonor) &&
        decide ((a.classes ((a.extents e).cls.getD 0)).boundExtents ≤ minDonor)))
      (fun e b => a.stealsBefore (a.extents e) (a.extents b)) with ⟨hnone, hno⟩ | ⟨e,
        hsome, he, hel⟩
  · refine Or.inl ⟨by rw [hnone], fun h0 e he => ?_⟩
    simpa [h0] using hno e he
  · have hs : a.stealable c e := (Bool.and_eq_true_iff.mp hel).1
    refine Or.inr ⟨?_, fun hno => ?_⟩
    · rw [hsome]
      exact stealExtentLocked_takes h hcb hc hper hs
    · simp [hno e he] at hs

theorem stealColdExtentFor_cases : a.stealColdExtentFor c = (a, .unavailable, []) ∨
      (a.stealColdExtentFor c).2.1 = .bound ∧ ¬a.NoDonor c := by
  unfold stealColdExtentFor
  split
  · exact Or.inl rfl
  · dsimp only
    rcases bestExtent_spec a
        (fun e => a.stealable c e && (a.extents e).residentCount ≠ 0 &&
          (a.extents e).youngestSeq < a.putSeq - a.coldStealWindow)
        (fun e b => a.colderThan (a.extents e) (a.extents b)) with ⟨hnone, -⟩ | ⟨e, hsome, he, hel⟩
    · exact Or.inl (by rw [hnone])
    · have hs : a.stealable c e :=
        (Bool.and_eq_true_iff.mp (Bool.and_eq_true_iff.mp hel).1).1
      refine Or.inr ⟨?_, fun hno => ?_⟩
      · rw [hsome]
        exact stealExtentLocked_takes h hcb hc hper hs
      · simp [hno e he] at hs

/-- The last two attempts of a round fail exactly when the class has no evictable resident and no
other class has an extent to give. -/
theorem putEvict_failed_iff : (a.putEvict c).2.1 = .failed ↔
    (∀ i m, a.res i = some m → m.ref.cls = c → ¬m.Evictable) ∧ a.NoDonor c := by
  have hcall : a.SlotEvictOk := fun _ => hcb.head
  by_cases hex : ∃ i m, a.res i = some m ∧ m.ref.cls = c ∧ m.Evictable
  · have hok := (evictOneFrom_evicts h hcall hex).1
    have hagain : (a.putEvict c).2.1 = .again := by
      unfold putEvict
      dsimp only
      rw [if_pos hok]
    refine ⟨fun hf => by simp [hagain] at hf, fun hno => ?_⟩
    obtain ⟨i, m, hm, hmc, he⟩ := hex
    exact absurd he (hno.1 i m hm hmc)
  · have hno : ∀ i m, a.res i = some m → m.ref.cls = c → ¬m.Evictable :=
      fun i m hm hmc he => hex ⟨i, m, hm, hmc, he⟩
    obtain ⟨hout, l, hpass⟩ := evictOneFrom_idle h hno
    -- the idle sweep left the extents and the callbacks alone
    have hst := hpass.evicts.static
    have hdonor : (a.evictOneFrom c).1.NoDonor c ↔ a.NoDonor c := by
      unfold SlabAllocator.NoDonor stealable
      rw [hst.opt, hpass.extents]
    have hcb' : (a.evictOneFrom c).1.CallbacksOk := by
      unfold SlabAllocator.CallbacksOk
      rw [hpass.env]
      exact hcb
    have hlast : (a.putEvict c).2.1 =
        (SlabAllocator.PutRound.ofBind ((a.evictOneFrom c).1.stealExtentFor c 0).2.1).getD
          .failed := by
      unfold putEvict
      dsimp only
      rw [if_neg (by simp [hout])]
    rw [hlast]
    rcases stealExtentFor_cases hpass.evicts.inv hcb' (hst.classCount ▸ hc)
        ((hst.perExtent c).symm ▸ hper) 0 with ⟨heq, hnone⟩ | ⟨hbound, hsome⟩
    · rw [heq]
      exact ⟨fun _ => ⟨hno, hdonor.mp (hnone rfl)⟩, fun _ => rfl⟩
    · rw [hbound]
      exact ⟨nofun, fun hall => absurd (hdonor.mpr hall.2) hsome⟩

theorem putSteal_failed_iff : (a.putSteal c).2.1 = .failed ↔
    (∀ i m, a.res i = some m → m.ref.cls = c → ¬m.Evictable) ∧ a.NoDonor c := by
  unfold putSteal
  dsimp only
  rcases stealColdExtentFor_cases h hcb hc hper with heq | ⟨hbound, hsome⟩
  · rw [heq]
    exact putEvict_failed_iff h hcb hc hper
  · rw [hbound]
    exact ⟨nofun, fun hall => absurd hall.2 hsome⟩

theorem putGrow_failed_iff : (a.putGrow c).2.1 = .failed ↔
    (∀ i m, a.res i = some m → m.ref.cls = c → ¬m.Evictable) ∧ a.NoDonor c := by
  unfold putGrow
  dsimp only
  split
  · rcases stealExtentFor_cases h hcb hc hper kStripeWays with ⟨heq, -⟩ | ⟨hbound, hsome⟩
    · rw [heq]
      exact putSteal_failed_iff h hcb hc hper
    · rw [hbound]
      exact ⟨nofun, fun hall => absurd hall.2 hsome⟩
  · exact putSteal_failed_iff h hcb hc hper

end Healthy

/-- Without a donor every extent of another class holds someone. -/
theorem Inv.noDonor_iff (h : Inv a) (hw : a.pinsWrapped = false) : a.NoDonor c ↔
    ∀ e c', (a.extents e).cls = some c' → c' ≠ c →
      ∃ i m, a.res i = some m ∧ m.ref.extent = e ∧ (m.refs ≠ 0 ∨ m.retainUntil ≠ 0) := by
  constructor
  · intro hno e c' hcls hne
    by_contra hfree
    have hpin : (a.extents e).pinned = 0 := by
      rw [(h.extCounts e).pinned.2 hw]
      refine tally_eq_zero fun i m hm => ?_
      by_cases he : m.ref.extent = e
      · have h0 : m.refs = 0 := by
          by_contra hr
          exact hfree ⟨i, m, hm, he, Or.inl hr⟩
        simp [inExtent, pinWeight, h0]
      · simp [inExtent, he]
    have hprot : (a.extents e).protectedSlots = 0 := by
      rw [(h.extCounts e).prot]
      refine tally_eq_zero fun i m hm => ?_
      by_cases he : m.ref.extent = e
      · have h0 : m.retainUntil = 0 := by
          by_contra hr
          exact hfree ⟨i, m, hm, he, Or.inr hr⟩
        simp [inExtent, retainWeight, h0]
      · simp [inExtent, he]
    have hs := hno e (h.bound.lt e c' hcls).1
    simp [stealable, hcls, hne, hpin, hprot] at hs
  · intro hall e _
    by_contra hs
    simp only [stealable, Bool.not_eq_false, ne_eq, Bool.and_eq_true, decide_eq_true_eq] at hs
    obtain ⟨⟨⟨hbound, hother⟩, hpin⟩, hprot⟩ := hs
    obtain ⟨c', hcls⟩ := ne_none_iff_exists'.mp hbound
    obtain ⟨i, m, hm, rfl, hheld⟩ := hall e c' hcls fun hcc => hother (hcc ▸ hcls)
    rcases hheld with hr | ht
    · exact hr (h.refs_eq_zero hm hpin)
    · exact ht (h.retainUntil_eq_zero hm hprot)

theorem bindFreeExtent_ok (hcb : a.CallbacksOk) (c : Nat) :
    (a.bindFreeExtent c).2 ≠ .persistenceError ∧ (a.bindFreeExtent c).1.CallbacksOk := by
  unfold bindFreeExtent
  split
  · exact ⟨nofun, hcb⟩
  · split
    · exact ⟨nofun, hcb⟩
    · rename_i e _
      have hcall := hcb.invoke (!false && a.opt.onExtentBind) (.extentBind e)
      rcases bindExtentLocked_cases a c e false with ⟨-, heq⟩ | ⟨-, hf, -⟩ | ⟨-, -, heq⟩
      · rw [heq]
        exact ⟨nofun, hcb⟩
      · rw [hcall] at hf
        simp at hf
      · rw [heq]
        exact ⟨nofun, hcb.after_invoke _ _⟩

theorem stripeLoop_ok (n : Nat) : ∀ {a : SlabAllocator}, Inv a → a.CallbacksOk →
    (stripeLoop c n a).2 := by
  induction n with
  | zero => exact fun _ _ => rfl
  | succ n ih =>
    intro a h hcb
    unfold stripeLoop
    split
    · dsimp only
      cases hb : (a.bindFreeExtent c).2 with
      | bound =>
        exact ih (bindFreeExtent_spec h).inv (bindFreeExtent_ok hcb c).2
      | persistenceError => exact absurd hb (bindFreeExtent_ok hcb c).1
      | unavailable => rfl
    · rfl

theorem putLoop_none_iff (h : Inv a) (hc : c < a.classCount) (n : Nat) :
    (putLoop c (n + 2) a).2.1 = none ↔ (a.putRound c).2.1 = .failed := by
  obtain ⟨-, hagain⟩ := putRound_attempt h hc
  unfold putLoop
  dsimp only
  cases hr : (a.putRound c).2.1 with
  | placed e s => simp
  | failed => simp
  | again =>
    obtain ⟨e, s, hp⟩ := hagain hr
    simp [putLoop, hp]

theorem putRound_failed_iff (h : Inv a) (hcb : a.CallbacksOk) (hc : c < a.classCount)
    (hper : (a.classes c).slotsPerExtent ≠ 0) (hw : a.pinsWrapped = false) :
    (a.putRound c).2.1 = .failed ↔ a.Exhausted c := by
  have hok := stripeLoop_ok (c := c) kStripeWays h hcb
  have hheld : (∀ i m, a.res i = some m → m.ref.cls = c → ¬m.Evictable) ↔
      ∀ i m, a.res i = some m → m.ref.cls = c → m.refs ≠ 0 ∨ m.retainUntil ≠ 0 := by
    simp only [SlotMeta.Evictable, not_and_or, ne_eq]
  constructor
  · intro hf
    cases putRound_cases h c with
    | refused hno _ => cases hno.symm.trans hok
    | placed b x e s hev hpop hround => simp [hround] at hf
    | starved hrr hall hround =>
      rw [hround, putGrow_failed_iff h hcb hc hper] at hf
      refine ⟨hall hc hper, fun e => ?_, hheld.mp hf.1, (h.noDonor_iff hw).mp hf.2⟩
      by_contra hne
      have hmem := ((h.free.rotation c).rr_mem e).mpr hne
      simp [hrr] at hmem
  · rintro ⟨hbound, hfull, hres, hothers⟩
    have hrr : (a.classes c).extRr = [] := by
      refine List.eq_nil_iff_forall_not_mem.mpr fun e he => ?_
      exact ((h.free.rotation c).rr_mem e).mp he (hfull e)
    have hpop := (SizeClass.popFree_eq_none (h.free.rotation c)).mpr hrr
    have hround : a.putRound c = a.putGrow c := by
      unfold putRound
      simp [stripeLoop_allBound hbound, hpop]
    rw [hround, putGrow_failed_iff h hcb hc hper]
    exact ⟨hheld.mpr hres, (h.noDonor_iff hw).mpr hothers⟩

theorem putNew_ok_iff (h : Inv a) (hk : a.index.find key = none) (hadm : a.Admissible len c) :
    (a.putNew key len).2.ok = false ↔ (putLoop c a.putRounds a).2.1 = none := by
  have hfit := le_slotSize h hadm.small hadm.aligned hadm.cls
  have hloop := putLoop_spec (c := c) a.putRounds h
  unfold putNew
  rw [if_neg (by have := hadm.nonempty; have := hadm.fits; have := hadm.small; omega),
    if_neg (by have := hadm.aligned; have := hadm.alignedFits; omega), hadm.cls]
  dsimp only
  unfold LoopSpec at hloop
  cases hr : (putLoop c a.putRounds a).2.1 with
  | none => simp
  | some p =>
    rw [hr] at hloop
    obtain ⟨b, x, hb, hpop, heq⟩ := hloop
    obtain ⟨i, m, hi, -⟩ := putPlaced_spec key len hb.inv hpop (hb.find_eq_none h hk)
      ((hb.static.slotSize c).symm ▸ hfit)
    rw [← heq] at hi
    dsimp only
    rw [hi]
    simp

/-- With healthy callbacks `Put` refuses a new key of an admissible length exactly when nothing can
be reclaimed for its class, if the class has slots and no pin count has wrapped. -/
theorem put_fails_iff_exhausted (h : SlabAllocator.Reachable o a) {outcomes : List Bool}
    (hok : ∀ x ∈ outcomes, x = true) (hk : a.lookup key = none) (hadm : a.Admissible len c)
    (hslots : (a.classes c).slotsPerExtent ≠ 0) (hw : a.pinsWrapped = false) :
    (a.step outcomes (.put key len)).2.ok = false ↔ a.Exhausted c := by
  have hfind : a.index.find key = none := SlabAllocator.lookup_eq_none.mp hk
  have hinv : Inv (a.putStart outcomes) := h.inv.quiet (Nat.le_succ _) rfl
  have hcls := (classForExactSize_spec hadm.cls).1
  have hput : (a.step outcomes (.put key len)).2.ok =
      ((a.putStart outcomes).putNew key len).2.ok := by
    simp only [SlabAllocator.step, SlabAllocator.apply, SlabAllocator.put, hfind]
    rfl
  have hadm' : (a.putStart outcomes).Admissible len c :=
    ⟨hadm.nonempty, hadm.fits, hadm.small, hadm.aligned, hadm.alignedFits, hadm.cls⟩
  rw [hput, putNew_ok_iff hinv hfind hadm']
  refine (putLoop_none_iff hinv hcls _).trans
    ((putRound_failed_iff hinv hok hcls hslots hw).trans ?_)
  exact ⟨fun hx => ⟨hx.bound, hx.full, hx.held, hx.others⟩,
    fun hx => ⟨hx.bound, hx.full, hx.held, hx.others⟩⟩

/-- The only slot of an allocator is pinned: a second key is refused, and nothing can be reclaimed.
-/
theorem put_fails_on_pinned_slot :
    let k₁ : BlockKey := { digestHi := 1, digestLo := 2, tenantHash := 0 }
    let k₂ : BlockKey := { digestHi := 3, digestLo := 4, tenantHash := 0 }
    let a := (((SlabAllocator.new { extentBytes := 4, numExtents := 1, align := 4 }).step []
      (.put k₁ 3)).1.step [] (.pin k₁)).1
    (a.step [] (.put k₂ 3)).2.ok = false ∧ a.Exhausted 0 := by
  intro k₁ k₂ a
  have hrun : SlabAllocator.Reachable _ a := .step [] (.pin k₁) (.step [] (.put k₁ 3) .new)
  have hok : (a.step [] (.put k₂ 3)).2.ok = false := by decide
  have hfind : a.index.find k₂ = none := by decide
  have hadm : a.Admissible 3 0 :=
    ⟨by decide, by decide, by decide, by decide, by decide, by decide⟩
  exact ⟨hok, (put_fails_iff_exhausted hrun (by simp) (SlabAllocator.lookup_eq_none.mpr hfind)
    hadm (by decide) rfl).mp hok⟩

/-- The smallest class of extents of `2 ^ 44` bytes has `2 ^ 32` slots, which its 32-bit count
stores as none: the first `Put` fails, with the extent unbound. `max_waste` is `0.999999` here, for
which `8192 / (1.0 - max_waste)` is the given quotient. -/
theorem put_fails_without_slots :
    let a := SlabAllocator.new
      { extentBytes := 2 ^ 44, numExtents := 1, align := 4096, quotient := fun _ => 8191999999 }
    a.lookup {} = none ∧ a.Admissible 1 0 ∧ (a.step [] (.put {} 1)).2.ok = false ∧
      ¬a.Exhausted 0 := by
  refine ⟨rfl, ⟨by decide, by decide, by decide, by decide, by decide, by decide +kernel⟩,
    by decide +kernel, fun h => h.bound 0 (by decide) rfl⟩

end DingoCache.Slab
