import DingoCache.Slab.Run

/-!
# The Class Sweep as Second-Chance CLOCK

`EvictOneFrom` walks the ring of one class from its hand.  Read once around from
the hand the ring is a list, its *sweep order*, and the sweep is a walk along it:

- `Passed a b l`: what the hand leaves behind when it passed the records `l`, and
  evicted none of them.
-/

namespace DingoCache.Slab

open Library SlabAllocator List Function

variable {a b d : SlabAllocator} {i c : Nat} {m : SlotMeta} {l l' s t : List Nat}

/-! ## Sweep order -/

def SlotMeta.Evictable (m : SlotMeta) : Prop := m.refs = 0 ∧ m.retainUntil = 0

open SlotMeta

instance (m : SlotMeta) : Decidable m.Evictable := inferInstanceAs (Decidable (_ ∧ _))

/-- The record is one a sweep takes when its hand reaches it. -/
def SlotMeta.Unreferenced (m : SlotMeta) : Prop := m.Evictable ∧ m.referenced = false

/-- The record after a hand passed it: an evictable one loses its second chance. -/
def SlotMeta.passed (m : SlotMeta) : SlotMeta :=
  if m.Evictable then { m with referenced := false } else m

/-- `s` lists the residents of class `c` as the sweep meets them from its hand. -/
structure SweepOrder (a : SlabAllocator) (c : Nat) (s : List Nat) : Prop where
  ring : IsRing a.links.cls (a.classes c).ring s
  mem : ∀ i, i ∈ s ↔ ∃ m, a.res i = some m ∧ m.ref.cls = c

theorem SlotMeta.passed_evictable (m : SlotMeta) : m.passed.Evictable ↔ m.Evictable := by
  unfold passed
  split <;> exact Iff.rfl

theorem SlotMeta.passed_passed (m : SlotMeta) : m.passed.passed = m.passed := by
  by_cases h : m.Evictable
  · have hp : m.passed = { m with referenced := false } := if_pos h
    rw [passed, if_pos ((m.passed_evictable).mpr h), hp]
  · have hp : m.passed = m := if_neg h
    rw [hp, hp]

theorem SlotMeta.Evictable.unreferenced (h : m.Evictable) : m.passed.Unreferenced := by
  refine ⟨m.passed_evictable.mpr h, ?_⟩
  rw [passed, if_pos h]

theorem Inv.sweepOrder (h : Inv a) (c : Nat) : ∃ s, SweepOrder a c s := by
  obtain ⟨s, hs, hmem⟩ := h.ring.cls c
  exact ⟨s, hs, fun i => (hmem i).trans (by simp [placeOf])⟩

theorem SweepOrder.length_le (hs : SweepOrder a c s) (h : Inv a) :
    s.length ≤ (a.classes c).residentCount := by
  rw [(h.clsCounts c).resident]
  refine length_le_tally hs.ring.nodup fun i hi => ?_
  obtain ⟨m, hm, hc⟩ := (hs.mem i).mp hi
  exact ⟨h.lt_size hm, m, hm, by simp [inClass, hc, one]⟩

/-! ## Passing over a record -/

/-- The hand went from `a` to `b` over the records `l` and evicted none. -/
structure Passed (a b : SlabAllocator) (l : List Nat) : Prop where
  evicts : Evicts a b []
  res : ∀ j, b.res j = if j ∈ l then (a.res j).map passed else a.res j
  extents : b.extents = a.extents
  env : b.env = a.env

theorem Passed.refl (h : Inv a) : Passed a a [] := ⟨.refl h, fun _ => by simp, rfl, rfl⟩

theorem Passed.trans (h : Passed a b l) (h' : Passed b d l') : Passed a d (l ++ l') where
  evicts := by simpa using h.evicts.trans h'.evicts
  res j := by
    rw [h'.res, h.res]
    by_cases hl : j ∈ l <;> by_cases hl' : j ∈ l'
    · cases a.res j with
      | none => simp [hl, hl']
      | some m => simp [hl, hl', m.passed_passed]
    all_goals simp [hl, hl']
  extents := h'.extents.trans h.extents
  env := h'.env.trans h.env

theorem SweepOrder.advance (hs : SweepOrder a c (i :: t)) :
    SweepOrder (a.advanceClassHand c i) c (t ++ [i]) := by
  refine ⟨?_, fun j => ?_⟩
  · simpa [advanceClassHand] using hs.ring.advance
  · exact Iff.trans (by simp [or_comm]) (hs.mem j)

theorem SweepOrder.hand (hs : SweepOrder a c (i :: t)) :
    (a.classes c).ring.hand.or (a.classes c).ring.head = some i := by
  rw [hs.ring.hand_or_head, head?_cons]

/-- One step of the sweep over a record that is no victim: the hand moves on, and an evictable
record is remembered as the fallback. -/
theorem evictSweep_pass (h : Inv a) (hs : SweepOrder a c (i :: t))
    (hi : ¬(a.slots i).Unreferenced) (n : Nat) (fallback : Option Nat) :
    ∃ b, evictSweep c (n + 1) a fallback = evictSweep c n b
          (if (a.slots i).Evictable then fallback.or (some i) else fallback) ∧
      Passed a b [i] ∧ SweepOrder b c (t ++ [i]) := by
  obtain ⟨m, hm, hmc⟩ := (hs.mem i).mp (by simp)
  obtain rfl := Inv.slots_eq hm
  have hcount : (a.classes c).residentCount ≠ 0 := by
    have := hs.length_le h
    simp only [length_cons] at this
    omega
  have hadv := Evicts.advanceClassHand h hs.hand
  have hord := hs.advance
  have hstay (hne : ¬(a.slots i).Evictable) (j : Nat) : (a.advanceClassHand c i).res j =
      if j ∈ [i] then (a.res j).map passed else a.res j := by
    rcases eq_or_ne j i with rfl | hj
    · rw [if_pos (by simp), hm, Option.map_some, passed, if_neg hne]
      exact hm
    · rw [if_neg (by simpa using hj)]
      rfl
  rw [evictSweep, if_neg hcount]
  simp only [hs.hand]
  by_cases hp : 0 < (a.slots i).refs
  · have hne : ¬(a.slots i).Evictable := fun he => absurd he.1 (by omega)
    rw [if_pos hp, if_neg hne]
    exact ⟨_, rfl, ⟨hadv, hstay hne, rfl, rfl⟩, hord⟩
  · rw [if_neg hp]
    by_cases ht : (a.slots i).retainUntil = 0
    · have he : (a.slots i).Evictable := ⟨by omega, ht⟩
      have href : (a.slots i).referenced := by
        by_contra hf
        exact hi ⟨he, by simpa using hf⟩
      have hclear := hadv.trans (.clearReferenced hadv.inv (show (a.advanceClassHand c i).res i =
        some (a.slots i) from hm))
      have hbody : SameBody (a.slots i) { a.slots i with referenced := false } :=
        ⟨rfl, rfl, rfl, rfl⟩
      have hres := res_setSlot (a := a.advanceClassHand c i) hm hbody
      rw [if_neg (by simpa using ht), if_pos href, if_pos he]
      refine ⟨_, rfl, ⟨hclear, fun j => ?_, rfl, rfl⟩, hord.ring, fun j => ?_⟩
      · rw [hres]
        rcases eq_or_ne j i with rfl | hj
        · rw [update_self, if_pos (by simp), hm, Option.map_some, passed, if_pos he]
        · rw [update_of_ne hj, if_neg (by simpa using hj)]
          rfl
      · rw [hord.mem j, hres]
        rcases eq_or_ne j i with rfl | hj
        · rw [update_self]
          constructor
          · exact fun _ => ⟨_, rfl, hmc⟩
          · exact fun _ => ⟨_, hm, hmc⟩
        · rw [update_of_ne hj]
    · have hne : ¬(a.slots i).Evictable := fun he => ht he.2
      rw [if_pos (by simpa using ht), if_neg hne]
      have hskip : Evicts a (a.advanceClassHand c i).noteRetainSkip [] :=
        hadv.trans (.noteRetainSkip hadv.inv)
      exact ⟨_, rfl, ⟨hskip, hstay hne, rfl, rfl⟩, hord.ring, hord.mem⟩

theorem evictSweep_victim (h : Inv a) (hs : SweepOrder a c (i :: t))
    (hi : (a.slots i).Unreferenced) (n : Nat) (fallback : Option Nat) :
    evictSweep c (n + 1) a fallback = (a.advanceClassHand c i).evictVictim i := by
  have hcount : (a.classes c).residentCount ≠ 0 := by
    have := hs.length_le h
    simp only [length_cons] at this
    omega
  obtain ⟨⟨hr, ht⟩, href⟩ := hi
  rw [evictSweep, if_neg hcount]
  simp only [hs.hand]
  rw [if_neg (by omega), if_neg (by simpa using ht), if_neg (by simp [href])]

/-! ## Whole sweeps -/

/-- The sweep along a prefix of its order that holds no victim. -/
theorem evictSweep_prefix (l : List Nat) : ∀ {a : SlabAllocator} {t : List Nat} (n : Nat)
    (fallback : Option Nat), Inv a → SweepOrder a c (l ++ t) →
    (∀ j ∈ l, ¬(a.slots j).Unreferenced) → l.length ≤ n →
    ∃ b fallback', evictSweep c n a fallback = evictSweep c (n - l.length) b fallback' ∧
      Passed a b l ∧ SweepOrder b c (t ++ l) := by
  induction l with
  | nil =>
    intro a t n fallback h hs _ _
    exact ⟨a, fallback, rfl, .refl h, by simpa using hs⟩
  | cons i l ih =>
    intro a t n fallback h hs hno hn
    obtain ⟨n, rfl⟩ : ∃ k, n = k + 1 := ⟨n - 1, by simp only [length_cons] at hn; omega⟩
    obtain ⟨b, heq, hpass, hord⟩ := evictSweep_pass h hs (hno i (by simp)) n fallback
    -- the records left to pass are untouched: the ring lists each one once
    have hnd := hs.ring.nodup
    have hrest : ∀ j ∈ l, ¬(b.slots j).Unreferenced := by
      intro j hj
      have hji : j ≠ i := by
        rintro rfl
        simp [hj] at hnd
      obtain ⟨m, hm, -⟩ := (hs.mem j).mp (by simp [hj])
      have hmb : b.res j = some m := by rw [hpass.res, if_neg (by simpa using hji), hm]
      rw [Inv.slots_eq hmb, ← Inv.slots_eq hm]
      exact hno j (by simp [hj])
    have hord : SweepOrder b c (l ++ (t ++ [i])) := by simpa using hord
    obtain ⟨d, fb, heq', hpass', hord'⟩ := ih n _ hpass.evicts.inv hord hrest
      (by simpa using hn)
    refine ⟨d, fb, ?_, hpass.trans hpass', by simpa using hord'⟩
    rw [heq, heq', length_cons, Nat.add_sub_add_right]

/-- What the eviction of `v` leaves when the hand passed the records `l` before it. -/
structure TakesVictim (a : SlabAllocator) (l : List Nat) (v : Nat)
    (r : SlabAllocator × Bool × List BlockKey) : Prop where
  ok : r.2.1 = true
  key : r.2.2 = [(a.slots v).key]
  res : ∀ j, r.1.res j =
    if j = v then none else if j ∈ l then (a.res j).map passed else a.res j

def SlabAllocator.SlotEvictOk (a : SlabAllocator) : Prop :=
  a.opt.onSlotEvict = true → a.env.outcomes.headD true = true

theorem evictVictim_res (h : Inv a) (hm : a.res i = some m) (hcb : a.SlotEvictOk) :
    (a.evictVictim i).2 = (true, [m.key]) ∧ (a.evictVictim i).1.res = update a.res i none := by
  obtain rfl := Inv.slots_eq hm
  have hok : (a.invoke a.opt.onSlotEvict (.slotEvict (a.slots i).ref)).2 := by
    unfold invoke
    split
    · exact hcb ‹_›
    · rfl
  have hm' : (a.invoke a.opt.onSlotEvict (.slotEvict (a.slots i).ref)).1.res i =
      some (a.slots i) := by rw [res_invoke, hm]
  have hres := res_freeSlotLocked h.invoke hm'
  rw [res_invoke] at hres
  unfold evictVictim
  dsimp only
  rw [if_pos hok]
  exact ⟨rfl, hres⟩

/-- With enough steps left the sweep takes the first victim of its order. -/
theorem evictSweep_takes (h : Inv a) (hcb : a.SlotEvictOk) {v : Nat} (n : Nat)
    (fallback : Option Nat) (hs : SweepOrder a c (l ++ v :: t)) (hno : ∀ j ∈ l,
      ¬(a.slots j).Unreferenced)
    (hv : (a.slots v).Unreferenced) (hn : l.length < n) :
    TakesVictim a l v (evictSweep c n a fallback) := by
  obtain ⟨b, fb, heq, hpass, hord⟩ := evictSweep_prefix l n fallback h hs hno hn.le
  obtain ⟨m, hm, -⟩ := (hs.mem v).mp (by simp)
  obtain rfl := Inv.slots_eq hm
  have hvl : v ∉ l := by
    have hnd := hs.ring.nodup
    rw [nodup_append] at hnd
    exact fun hmem => hnd.2.2 v hmem v (by simp) rfl
  have hmb : b.res v = some (a.slots v) := by rw [hpass.res, if_neg hvl, hm]
  obtain ⟨k, hk⟩ : ∃ k, n - l.length = k + 1 := ⟨n - l.length - 1, by omega⟩
  have hinv := hpass.evicts.inv
  have hvb : (b.slots v).Unreferenced := (Inv.slots_eq hmb).symm ▸ hv
  rw [heq, hk, evictSweep_victim hinv hord hvb]
  have hcb' : (b.advanceClassHand c v).SlotEvictOk := by
    intro ho
    have := hcb (hpass.evicts.static.opt ▸ ho)
    rwa [← hpass.env] at this
  obtain ⟨hout, hres⟩ := evictVictim_res (a := b.advanceClassHand c v) (m := a.slots v)
    (hinv.advanceClassHand hord.hand) hmb hcb'
  refine ⟨congrArg Prod.fst hout, congrArg Prod.snd hout, fun j => ?_⟩
  rw [hres]
  rcases eq_or_ne j v with rfl | hj
  · rw [update_self, if_pos rfl]
  · rw [update_of_ne hj, if_neg hj]
    exact hpass.res j

/-- A sweep over a ring without evictable residents goes round until its limit and changes nothing
but the hand. -/
theorem evictSweep_idle (n : Nat) : ∀ {a : SlabAllocator} {s : List Nat}, Inv a →
    SweepOrder a c s → (∀ j ∈ s, ¬(a.slots j).Evictable) →
    (evictSweep c n a none).2 = (false, []) ∧
      ∃ l, (∀ j ∈ l, j ∈ s) ∧ Passed a (evictSweep c n a none).1 l := by
  induction n with
  | zero => exact fun h _ _ => ⟨rfl, [], by simp, .refl h⟩
  | succ n ih =>
    intro a s h hs hno
    cases s with
    | nil =>
      have hhand : (a.classes c).ring.hand.or (a.classes c).ring.head = none := by
        rw [hs.ring.hand_or_head, head?_nil]
      rw [evictSweep]
      simp only [hhand]
      split <;> exact ⟨rfl, [], by simp, .refl h⟩
    | cons i t =>
      have hi := hno i (by simp)
      obtain ⟨b, heq, hpass, hord⟩ := evictSweep_pass h hs (fun hu => hi hu.1) n none
      rw [if_neg hi] at heq
      have hrest : ∀ j ∈ t ++ [i], ¬(b.slots j).Evictable := by
        intro j hj
        have hjs : j ∈ i :: t := by simpa [or_comm] using hj
        obtain ⟨m, hm, -⟩ := (hs.mem j).mp hjs
        obtain rfl := Inv.slots_eq hm
        have hmb : b.res j = some (a.slots j) := by
          rw [hpass.res, hm, Option.map_some, passed, if_neg (hno j hjs), ite_self]
        rw [Inv.slots_eq hmb]
        exact hno j hjs
      obtain ⟨hout, l, hl, hpass'⟩ := ih hpass.evicts.inv hord hrest
      rw [heq]
      refine ⟨hout, [i] ++ l, fun j hj => ?_, hpass.trans hpass'⟩
      rcases mem_append.mp hj with hj | hj
      · simp [mem_singleton.mp hj]
      · simpa [or_comm] using hl j hj

/-! ## `EvictOneFrom` -/

/-- Without an evictable resident of the class nothing is evicted, and only the hand and the
reference bits of nobody move. -/
theorem evictOneFrom_idle (h : Inv a)
    (hno : ∀ i m, a.res i = some m → m.ref.cls = c → ¬m.Evictable) :
    (a.evictOneFrom c).2 = (false, []) ∧ ∃ l, Passed a (a.evictOneFrom c).1 l := by
  obtain ⟨s, hs⟩ := h.sweepOrder c
  unfold evictOneFrom
  split
  · exact ⟨rfl, [], .refl h⟩
  · obtain ⟨hout, l, -, hpass⟩ := evictSweep_idle (2 * (a.classes c).residentCount + 2) h hs
      fun j hj => by
        obtain ⟨m, hm, hc⟩ := (hs.mem j).mp hj
        rw [Inv.slots_eq hm]
        exact hno j m hm hc
    exact ⟨hout, l, hpass⟩

theorem exists_first {P : Nat → Prop} (h : ∃ j ∈ s, P j) :
    ∃ l v t, s = l ++ v :: t ∧ (∀ j ∈ l, ¬P j) ∧ P v := by
  classical
  obtain ⟨v, hv⟩ := Option.isSome_iff_exists.mp
    (find?_isSome.mpr (h.imp fun j hj => ⟨hj.1, decide_eq_true hj.2⟩))
  obtain ⟨hp, l, t, heq, hl⟩ := find?_eq_some_iff_append.mp hv
  exact ⟨l, v, t, heq, fun j hj => by simpa using hl j hj, of_decide_eq_true hp⟩

theorem evictOneFrom_takes (h : Inv a) (hcb : a.SlotEvictOk) {v : Nat}
    (hs : SweepOrder a c (l ++ v :: t)) (hno : ∀ j ∈ l, ¬(a.slots j).Unreferenced)
    (hv : (a.slots v).Unreferenced) : TakesVictim a l v (a.evictOneFrom c) := by
  have hlen := hs.length_le h
  simp only [length_append, length_cons] at hlen
  unfold evictOneFrom
  rw [if_neg (by omega)]
  exact evictSweep_takes h hcb _ _ hs hno hv (by omega)

/-- When every evictable resident is referenced, the first lap takes their second chances and the
second lap takes the first of them. -/
theorem evictOneFrom_second_lap (h : Inv a) (hcb : a.SlotEvictOk) (hs : SweepOrder a c s)
    (hno : ∀ j ∈ s, ¬(a.slots j).Unreferenced) (hex : ∃ j ∈ s, (a.slots j).Evictable) :
    (a.evictOneFrom c).2.1 ∧
      ∃ v ∈ s, (a.slots v).Evictable ∧ (a.evictOneFrom c).2.2 = [(a.slots v).key] ∧
        (a.evictOneFrom c).1.res v = none := by
  have hlen := hs.length_le h
  obtain ⟨l, v, t, rfl, hfirst, hv⟩ := exists_first hex
  obtain ⟨b, fb, heq, hpass, hord⟩ := evictSweep_prefix (t := []) (l ++ v :: t)
    (2 * (a.classes c).residentCount + 2) none h (by simpa using hs) hno (by omega)
  -- after the lap every evictable record is unreferenced, the others are as before
  have hslot (j : Nat) (hj : j ∈ l ++ v :: t) : b.slots j = (a.slots j).passed := by
    obtain ⟨m, hm, -⟩ := (hs.mem j).mp hj
    refine Inv.slots_eq (a := b) ?_
    rw [hpass.res, if_pos hj, hm, Option.map_some, Inv.slots_eq hm]
  have hnob : ∀ j ∈ l, ¬(b.slots j).Unreferenced := by
    intro j hj hu
    rw [hslot j (by simp [hj])] at hu
    exact hfirst j hj ((a.slots j).passed_evictable.mp hu.1)
  have hvb : (b.slots v).Unreferenced := by
    rw [hslot v (by simp)]
    exact hv.unreferenced
  have hcb' : b.SlotEvictOk := by
    intro ho
    have := hcb (hpass.evicts.static.opt ▸ ho)
    rwa [← hpass.env] at this
  have hlen' : (l ++ v :: t).length ≤ (a.classes c).residentCount := hlen
  have htake := evictSweep_takes hpass.evicts.inv hcb'
    (2 * (a.classes c).residentCount + 2 - (l ++ v :: t).length) fb (by simpa using hord) hnob hvb
    (by simp only [length_append, length_cons] at hlen' ⊢; omega)
  have hcount : (a.classes c).residentCount ≠ 0 := by
    simp only [length_append, length_cons] at hlen'
    omega
  have hrun : a.evictOneFrom c = evictSweep c
      (2 * (a.classes c).residentCount + 2 - (l ++ v :: t).length) b fb := by
    unfold evictOneFrom
    rw [if_neg hcount, heq]
  rw [hrun]
  refine ⟨htake.ok, v, by simp, hv, ?_, ?_⟩
  · rw [htake.key, hslot v (by simp), passed]
    split <;> rfl
  · rw [htake.res v, if_pos rfl]

/-- An evictable resident of the class is enough for an eviction. -/
theorem evictOneFrom_evicts (h : Inv a) (hcb : a.SlotEvictOk)
    (hex : ∃ i m, a.res i = some m ∧ m.ref.cls = c ∧ m.Evictable) :
    (a.evictOneFrom c).2.1 ∧ ∃ v m, a.res v = some m ∧ m.ref.cls = c ∧ m.Evictable ∧
      (a.evictOneFrom c).2.2 = [m.key] ∧ (a.evictOneFrom c).1.res v = none := by
  obtain ⟨s, hs⟩ := h.sweepOrder c
  by_cases hu : ∃ j ∈ s, (a.slots j).Unreferenced
  · obtain ⟨l, v, t, rfl, hno, hv⟩ := exists_first hu
    have htake := evictOneFrom_takes h hcb hs hno hv
    obtain ⟨m, hm, hmc⟩ := (hs.mem v).mp (by simp)
    obtain rfl := Inv.slots_eq hm
    exact ⟨htake.ok, v, _, hm, hmc, hv.1, htake.key, by rw [htake.res v, if_pos rfl]⟩
  · obtain ⟨i, m, hm, hmc, he⟩ := hex
    have hi : i ∈ s := (hs.mem i).mpr ⟨m, hm, hmc⟩
    obtain ⟨hok, v, hv, hev, hkey, hnone⟩ := evictOneFrom_second_lap h hcb hs
      (fun j hj hju => hu ⟨j, hj, hju⟩) ⟨i, hi, (Inv.slots_eq hm).symm ▸ he⟩
    obtain ⟨n, hn, hnc⟩ := (hs.mem v).mp hv
    obtain rfl := Inv.slots_eq hn
    exact ⟨hok, v, _, hn, hnc, hev, hkey, hnone⟩

/-- `EvictOneFrom` is a complete second-chance CLOCK. `Inv` holds in every state that public calls
reach and wherever `Put` and `ReclaimClass` call `EvictOneFrom`. -/
theorem class_sweep_second_chance (h : Inv a) (c : Nat) (hcb : a.SlotEvictOk) :
    (∃ s, SweepOrder a c s) ∧
    -- it evicts exactly when the class has a resident neither pinned nor retained
    ((a.evictOneFrom c).2.1 = true ↔ ∃ i m, a.res i = some m ∧ m.ref.cls = c ∧ m.Evictable) ∧
    ((a.evictOneFrom c).2.1 = true → ∃ v m, a.res v = some m ∧ m.ref.cls = c ∧ m.Evictable ∧
      (a.evictOneFrom c).2.2 = [m.key] ∧ (a.evictOneFrom c).1.res v = none) ∧
    -- the first unreferenced one from the hand is the victim
    (∀ l v t, SweepOrder a c (l ++ v :: t) → (a.slots v).Unreferenced →
      (∀ j ∈ l, ¬(a.slots j).Unreferenced) → TakesVictim a l v (a.evictOneFrom c)) := by
  refine ⟨h.sweepOrder c, ⟨fun hok => ?_, fun hex => (evictOneFrom_evicts h hcb hex).1⟩,
    fun hok => ?_, fun l v t hs hv hno => evictOneFrom_takes h hcb hs hno hv⟩
  · by_contra hno
    have hidle := (evictOneFrom_idle (c := c) h fun i m hm hmc he => hno ⟨i, m, hm, hmc, he⟩).1
    simp [hidle] at hok
  · by_contra hne
    have hidle := (evictOneFrom_idle (c := c) h fun i m hm hmc he =>
      hne (evictOneFrom_evicts h hcb ⟨i, m, hm, hmc, he⟩).2).1
    simp [hidle] at hok

/-- A resident that was put and read: the first lap takes its second chance, the second lap the
resident. -/
theorem sweep_evicts_referenced :
    let key : BlockKey := { digestHi := 1, digestLo := 2, tenantHash := 0 }
    let a := (((SlabAllocator.new { extentBytes := 16, numExtents := 1, align := 4 }).step []
      (.put key 3)).1.step [] (.get key)).1
    ∃ v m, a.res v = some m ∧ m.ref.cls = 0 ∧ m.Evictable ∧
      (a.evictOneFrom 0).2.2 = [m.key] ∧ (a.evictOneFrom 0).1.res v = none := by
  intro key a
  have hrun : SlabAllocator.Reachable _ a := .step [] (.get key) (.step [] (.put key 3) .new)
  have hcb : a.SlotEvictOk := fun ho => absurd ho (by decide)
  exact (class_sweep_second_chance hrun.inv 0 hcb).2.2.1 (by decide)

end DingoCache.Slab
