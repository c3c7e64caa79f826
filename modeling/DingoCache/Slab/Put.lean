import DingoCache.Slab.Steal

/-!
# Put

The allocation loop of `Put` makes room by eviction and ends with a free slot of
the class or without one; `Put` then admits the key there.

- `put_spec`: everything a `Put` can do to the residents.
-/

namespace DingoCache.Slab

open Library SlabAllocator List
open Function (update update_self)
open Options

open SizeClass

variable {a b : SlabAllocator} {i c e s : Nat} {m : SlotMeta} {ev : List BlockKey}
  {key : BlockKey} {len : Nat}

/-! ## The class of a length -/

namespace Options

theorem le_alignUp {x al : Nat} (h : alignUp x al ≠ 0) : x ≤ alignUp x al := by
  unfold alignUp at h ⊢
  split
  · exact le_rfl
  · split at h
    · omega
    · split at h
      · simp at h
      · rename_i hx
        rw [if_neg hx]
        have hdiv := Nat.div_add_mod (x + (al - 1)) al
        have hmod := Nat.mod_lt (x + (al - 1)) (by omega : al > 0)
        rw [Nat.mul_comm] at hdiv
        omega

theorem alignUp_le (x al : Nat) : alignUp x al ≤ x + (al - 1) := by
  unfold alignUp
  split
  · omega
  · split
    · omega
    · exact Nat.div_mul_le_self _ _

/-- The bucket loop ends at the length itself or at a bucket that covers it. -/
theorem canonicalLoop_spec (o : Options) (l : Nat) (fuel : Nat) : ∀ current, l ≤ current + fuel →
    o.canonicalLoop l fuel current = l ∨ l ≤ o.canonicalLoop l fuel current ∧
        o.canonicalLoop l fuel current ≤ max current o.maxAligned := by
  induction fuel with
  | zero =>
    intro current hl
    exact Or.inr ⟨hl, le_max_left _ _⟩
  | succ fuel ih =>
    intro current hl
    unfold canonicalLoop
    split
    · split
      · exact Or.inl rfl
      · rename_i hnext
        have hmax : o.nextBucket current ≤ o.maxAligned := min_le_right _ _
        rcases ih (o.nextBucket current) (by omega) with h | ⟨h1, h2⟩
        · exact Or.inl h
        · exact Or.inr ⟨h1, by omega⟩
    · exact Or.inr ⟨by omega, le_max_left _ _⟩

theorem maxAligned_lt (o : Options) : o.maxAligned < 2 ^ 32 := by
  have h1 : o.maxAligned ≤ uint32Max / o.align * o.align := min_le_right _ _
  have h2 : uint32Max / o.align * o.align ≤ uint32Max := Nat.div_mul_le_self _ _
  unfold uint32Max at h1 h2
  omega

end Options

theorem classForExactSize_spec {slotSize : Nat} (h : a.classForExactSize slotSize = some c) :
    c < a.classCount ∧ (a.classes c).slotSize = slotSize := by
  unfold classForExactSize at h
  have hmem := mem_of_find?_eq_some h
  have hp := find?_some h
  exact ⟨mem_range.mp hmem, by simpa using hp⟩

theorem le_slotSize (h : Inv a) (hlen : len ≤ uint32Max) (h0 : alignUp len a.opt.align ≠ 0)
    (hc : a.classForLen (alignUp len a.opt.align) = some c) :
    len ≤ (a.classes c).slotSize := by
  have hg := h.geometry
  obtain ⟨hlt, hsize⟩ := classForExactSize_spec hc
  have hle := le_alignUp h0
  have hup := alignUp_le len a.opt.align
  have halign := hg.align_le c hlt
  have hmax := hg.le_max c hlt
  have hbound := a.opt.maxAligned_lt
  have hloop := a.opt.canonicalLoop_spec (alignUp len a.opt.align)
    (alignUp len a.opt.align) a.opt.align (by omega)
  generalize alignUp len a.opt.align = l at *
  unfold canonicalSlotSize at hsize
  unfold uint32Max at hlen
  rcases hloop with heq | ⟨h1, h2⟩
  · rw [heq] at hsize
    omega
  · rw [Nat.mod_eq_of_lt (by omega)] at hsize
    omega

/-! ## The striping loop -/

theorem bindFreeExtent_allBound (hall : a.AllBound) : a.bindFreeExtent c = (a, .unavailable) := by
  unfold bindFreeExtent
  split
  · rfl
  · have hnone : (range a.opt.numExtents).find? (fun e => (a.extents e).cls = none) = none := by
      rw [find?_eq_none]
      intro e he
      simpa using hall e (mem_range.mp he)
    rw [hnone]

theorem stripeLoop_allBound (hall : a.AllBound) (n : Nat) : stripeLoop c n a = (a, true) := by
  cases n with
  | zero => rfl
  | succ n =>
    unfold stripeLoop
    split
    · rw [bindFreeExtent_allBound hall]
    · rfl

/-- `BindFreeExtent` is unavailable only when every extent is bound. -/
theorem allBound_of_unavailable (h : Inv a) (hc : c < a.classCount)
    (hper : (a.classes c).slotsPerExtent ≠ 0) (hun : (a.bindFreeExtent c).2 = .unavailable) :
    a.AllBound := by
  intro e he hcls
  unfold bindFreeExtent at hun
  split at hun
  · rename_i h0
    -- the pool counter is zero, so all extents count as bound
    have hsum := h.bound.unbound_add
    have hlt : tally a.opt.numExtents (fun e => (a.extents e).cls) (fun _ => 1) <
        a.opt.numExtents := by
      calc tally a.opt.numExtents (fun e => (a.extents e).cls) (fun _ => 1)
          < ∑ _e ∈ Finset.range a.opt.numExtents, 1 := by
            refine Finset.sum_lt_sum (fun e' _ => ?_) ⟨e, Finset.mem_range.mpr he, by simp [hcls]⟩
            cases hc' : (a.extents e').cls <;> simp [hc']
        _ = a.opt.numExtents := by simp
    omega
  · cases hfind : (range a.opt.numExtents).find? (fun e => (a.extents e).cls = none) with
    | none =>
      have hno := find?_eq_none.mp hfind e (mem_range.mpr he)
      simp [hcls] at hno
    | some e' =>
      have hlt := mem_range.mp (mem_of_find?_eq_some hfind)
      have hnone : (a.extents e').cls = none := by simpa using find?_some hfind
      simp only [hfind] at hun
      rcases bindExtentLocked_cases a c e' false with ⟨hn, -⟩ | ⟨-, -, heq⟩ | ⟨-, -, heq⟩
      · exact hn ⟨hc, hlt, hnone, hper⟩
      · simp [heq] at hun
      · simp [heq] at hun

theorem extRr_bindExtent (h : Inv a) (he : (a.extents e).cls = none)
    (hper : (a.classes c).slotsPerExtent ≠ 0) :
    ((a.bindExtent c e).classes c).extRr = (a.classes c).extRr ++ [e] := by
  have hrr := (pushExtent_spec (h.free.rotation c) (h.freeByExt_eq_nil he c)).rr
  rw [if_neg hper] at hrr
  simp [bindExtent, hrr]

/-- `BindFreeExtent`: nothing to bind, a refused callback, or a new extent on the rotation. -/
theorem bindFreeExtent_cases (h : Inv a) (c : Nat) : a.bindFreeExtent c = (a, .unavailable) ∨
    ((a.bindFreeExtent c).2 = .persistenceError ∧ (a.bindFreeExtent c).1.classes = a.classes) ∨
    ((a.bindFreeExtent c).2 = .bound ∧
      ∃ e, ((a.bindFreeExtent c).1.classes c).extRr = (a.classes c).extRr ++ [e]) := by
  unfold bindFreeExtent
  split
  · exact Or.inl rfl
  · split
    · exact Or.inl rfl
    · rename_i e _
      rcases bindExtentLocked_cases a c e false with ⟨-, heq⟩ | ⟨-, -, heq⟩ | ⟨hb, -, heq⟩
      · exact Or.inl heq
      · rw [heq]
        exact Or.inr (Or.inl ⟨rfl, classes_invoke⟩)
      · refine Or.inr (Or.inr ?_)
        rw [heq, extRr_bindExtent h.invoke (by rw [extents_invoke]; exact hb.2.2.1)
          (by rw [classes_invoke]; exact hb.2.2.2), classes_invoke]
        exact ⟨rfl, e, rfl⟩

theorem stripeLoop_extRr (n : Nat) : ∀ {a : SlabAllocator}, Inv a → (a.classes c).extRr ≠ [] →
    ((stripeLoop c n a).1.classes c).extRr ≠ [] := by
  induction n with
  | zero => exact fun _ hrr => hrr
  | succ n ih =>
    intro a h hrr
    unfold stripeLoop
    split
    · rcases bindFreeExtent_cases h c with heq | ⟨hres, hcls⟩ | ⟨hres, e, hadd⟩
      · rw [heq]
        exact hrr
      · simp only [hres, hcls]
        exact hrr
      · simp only [hres]
        exact ih (bindFreeExtent_spec h).inv (by simp [hadd])
    · exact hrr

theorem stripeLoop_starved (h : Inv a) (n : Nat) (hok : (stripeLoop c (n + 1) a).2)
    (hrr : ((stripeLoop c (n + 1) a).1.classes c).extRr = []) :
    (stripeLoop c (n + 1) a).1 = a ∧
      (c < a.classCount → (a.classes c).slotsPerExtent ≠ 0 → a.AllBound) := by
  unfold stripeLoop at hok hrr ⊢
  split at hok
  · rw [if_pos ‹_›] at hrr ⊢
    rcases bindFreeExtent_cases h c with heq | ⟨hres, -⟩ | ⟨hres, e, hadd⟩
    · simp only [heq]
      exact ⟨trivial, fun hc hper => allBound_of_unavailable h hc hper (by rw [heq])⟩
    · simp [hres] at hok
    · simp only [hres] at hrr
      exact absurd hrr (stripeLoop_extRr n (bindFreeExtent_spec h).inv (by simp [hadd]))
  · rename_i hlen
    rw [if_neg hlen] at hrr
    have hnil : (a.classes c).extRr = [] := hrr
    simp [hnil, kStripeWays] at hlen

/-! ## The allocation loop -/

theorem stripeLoop_spec (n : Nat) : ∀ {a : SlabAllocator}, Inv a →
    Evicts a (stripeLoop c n a).1 [] := by
  induction n with
  | zero => exact fun h => .refl h
  | succ n ih =>
    intro a h
    have hbind := bindFreeExtent_spec (c := c) h
    unfold stripeLoop
    split
    · dsimp only
      split
      · exact hbind.trans (ih hbind.inv)
      · exact hbind
      · exact hbind
    · exact .refl h

/-- The outcome of an attempt to make room: it never places; a failure has evicted nothing, and a
success has left the class a free slot. -/
structure Attempt (a : SlabAllocator) (c : Nat)
    (r : SlabAllocator × SlabAllocator.PutRound × List BlockKey) : Prop where
  evicts : Evicts a r.1 r.2.2
  not_placed : ∀ e s, r.2.1 ≠ .placed e s
  failed : r.2.1 = .failed → r.2.2 = []
  room : Room a r.1 c (r.2.1 = .again)

theorem Attempt.ofBind {r : SlabAllocator × ExtentBindResult × List BlockKey}
    {o : SlabAllocator.PutRound} (hs : StealSpec a c r)
    (ho : SlabAllocator.PutRound.ofBind r.2.1 = some o) : Attempt a c (r.1, o, r.2.2) := by
  obtain ⟨b, res, ev⟩ := r
  have hroom := hs.room
  cases res with
  | bound =>
    cases ho
    exact ⟨hs.evicts, nofun, nofun, hroom.bound, fun _ => hroom.free rfl⟩
  | persistenceError =>
    cases ho
    exact ⟨hs.evicts, nofun, fun _ => hs.keys nofun, hroom.bound, nofun⟩
  | unavailable => cases ho

theorem ofBind_eq_none {r : ExtentBindResult} :
    SlabAllocator.PutRound.ofBind r = none ↔ r = .unavailable := by
  cases r <;> simp [SlabAllocator.PutRound.ofBind]

theorem putEvict_attempt (h : Inv a) (hrr : (a.classes c).extRr = []) :
    Attempt a c (a.putEvict c) := by
  have hone := evictOneFrom_spec (c := c) h
  have hroom := hone.room hrr
  unfold putEvict
  dsimp only
  split
  · exact ⟨hone.evicts, nofun, nofun, hroom.bound, fun _ => hroom.free ‹_›⟩
  · rename_i hno
    have hnil := hone.keys (by simpa using hno)
    have hsteal := stealExtentFor_spec hone.evicts.inv c 0
    generalize ((a.evictOneFrom c).1.stealExtentFor c 0) = r at *
    obtain ⟨b, res, ev⟩ := r
    have hev := hone.evicts.trans hsteal.evicts
    have hall := fun hall => hsteal.room.bound (hroom.bound hall)
    cases res with
    | bound => exact ⟨hev, nofun, nofun, hall, fun _ => hsteal.room.free rfl⟩
    | persistenceError | unavailable =>
      refine ⟨hev, nofun, fun _ => ?_, hall, nofun⟩
      rw [hnil, hsteal.keys nofun, append_nil]

theorem putSteal_attempt (h : Inv a) (hrr : (a.classes c).extRr = []) :
    Attempt a c (a.putSteal c) := by
  have hs := stealColdExtentFor_spec h c
  unfold putSteal
  dsimp only
  split
  · exact .ofBind hs ‹_›
  · have hun := ofBind_eq_none.mp ‹_›
    rw [hs.same hun, hs.keys (by simp [hun])]
    exact putEvict_attempt h hrr

theorem putGrow_attempt (h : Inv a) (hrr : (a.classes c).extRr = []) :
    Attempt a c (a.putGrow c) := by
  have hs := stealExtentFor_spec h c kStripeWays
  unfold putGrow
  dsimp only
  split
  · split
    · exact .ofBind hs ‹_›
    · have hun := ofBind_eq_none.mp ‹_›
      rw [hs.same hun, hs.keys (by simp [hun])]
      exact putSteal_attempt h hrr
  · exact putSteal_attempt h hrr

/-- What a round comes to: a refused callback, a free slot, or an attempt to make room in a class
without free slots. -/
inductive RoundCases (a : SlabAllocator) (c : Nat) : Prop
  | refused (hok : (stripeLoop c kStripeWays a).2 = false)
      (hround : a.putRound c = ((stripeLoop c kStripeWays a).1, .failed, []))
  | placed (b : SlabAllocator) (x : SizeClass) (e s : Nat) (hev : Evicts a b [])
      (hpop : (b.classes c).popFree = some (x, e, s))
      (hround : a.putRound c = ({ b with classes := update b.classes c x }, .placed e s, []))
  | starved (hrr : (a.classes c).extRr = [])
      (hall : c < a.classCount → (a.classes c).slotsPerExtent ≠ 0 → a.AllBound)
      (hround : a.putRound c = a.putGrow c)

theorem putRound_cases (h : Inv a) (c : Nat) : RoundCases a c := by
  have hstripe := stripeLoop_spec (c := c) kStripeWays h
  cases hok : (stripeLoop c kStripeWays a).2 with
  | false => exact .refused hok (by simp [putRound, hok])
  | true =>
    cases hpop : ((stripeLoop c kStripeWays a).1.classes c).popFree with
    | some p => exact .placed _ p.1 p.2.1 p.2.2 hstripe hpop (by simp [putRound, hok, hpop])
    | none =>
      have hrr := (popFree_eq_none (hstripe.inv.free.rotation c)).mp hpop
      obtain ⟨hsame, hall⟩ := stripeLoop_starved h (kStripeWays - 1) hok hrr
      have hsame : (stripeLoop c kStripeWays a).1 = a := hsame
      rw [hsame] at hrr hpop
      refine .starved hrr hall ?_
      unfold putRound
      simp only [hok, hpop, hsame, Bool.true_eq_false, if_false]

/-- The state `r` is the result of evicting `ev` and then taking slot `(e, s)`. -/
def Placement (a : SlabAllocator) (c : Nat) (r : SlabAllocator) (e s : Nat)
    (ev : List BlockKey) : Prop :=
  ∃ b x, Evicts a b ev ∧ (b.classes c).popFree = some (x, e, s) ∧
    r = { b with classes := update b.classes c x }

def RoundSpec (a : SlabAllocator) (c : Nat)
    (r : SlabAllocator × SlabAllocator.PutRound × List BlockKey) : Prop :=
  match r.2.1 with
  | .placed e s => Placement a c r.1 e s r.2.2
  | _ => Evicts a r.1 r.2.2

theorem putRound_spec (h : Inv a) : RoundSpec a c (a.putRound c) := by
  cases putRound_cases h c with
  | refused hok hround =>
    rw [hround]
    exact stripeLoop_spec kStripeWays h
  | placed b x e s hev hpop hround =>
    rw [hround]
    exact ⟨b, x, hev, hpop, rfl⟩
  | starved hrr hall hround =>
    have hat := putGrow_attempt h hrr
    rw [hround]
    unfold RoundSpec
    split
    · next heq => exact absurd heq (hat.not_placed _ _)
    · exact hat.evicts

def LoopSpec (a : SlabAllocator) (c : Nat)
    (r : SlabAllocator × Option (Nat × Nat) × List BlockKey) : Prop :=
  match r.2.1 with
  | some (e, s) => Placement a c r.1 e s r.2.2
  | none => Evicts a r.1 r.2.2

theorem LoopSpec.after {r : SlabAllocator × Option (Nat × Nat) × List BlockKey}
    (hs : Evicts a b ev) (h : LoopSpec b c r) : LoopSpec a c (r.1, r.2.1, ev ++ r.2.2) := by
  unfold LoopSpec at *
  cases hr : r.2.1 with
  | none =>
    rw [hr] at h
    exact hs.trans h
  | some p =>
    rw [hr] at h
    obtain ⟨d, x, hd, hpop, heq⟩ := h
    exact ⟨d, x, hs.trans hd, hpop, heq⟩

theorem putLoop_spec (n : Nat) : ∀ {a : SlabAllocator}, Inv a → LoopSpec a c (putLoop c n a) := by
  induction n with
  | zero => exact fun h => Evicts.refl h
  | succ n ih =>
    intro a h
    have hround := putRound_spec (c := c) h
    unfold putLoop
    unfold RoundSpec at hround
    dsimp only
    cases hr : (a.putRound c).2.1 with
    | placed e s =>
      rw [hr] at hround
      exact hround
    | failed =>
      rw [hr] at hround
      exact hround
    | again =>
      rw [hr] at hround
      exact (ih hround.inv).after hround

/-! ## Two rounds -/

theorem Inv.slotsPerExtent_ne_zero (h : Inv a) (hrr : (a.classes c).extRr ≠ []) :
    (a.classes c).slotsPerExtent ≠ 0 := by
  obtain ⟨e, he⟩ := exists_mem_of_ne_nil _ hrr
  obtain ⟨s, hs⟩ := exists_mem_of_ne_nil _ (((h.free.rotation c).rr_mem e).mp he)
  have hlt := ((h.free.mem_iff c e s).mp hs).2.1
  omega

theorem putRound_placed (h : Inv a) (hall : a.AllBound) (hrr : (a.classes c).extRr ≠ []) :
    ∃ e s, (a.putRound c).2.1 = .placed e s := by
  obtain ⟨⟨x, e, s⟩, hpop⟩ := popFree_isSome (h.free.rotation c) hrr
  refine ⟨e, s, ?_⟩
  simp [putRound, stripeLoop_allBound hall, hpop]

theorem putRound_attempt (h : Inv a) (hc : c < a.classCount) :
    ((a.putRound c).2.1 = .failed → (a.putRound c).2.2 = []) ∧
    ((a.putRound c).2.1 = .again → ∃ e s, ((a.putRound c).1.putRound c).2.1 = .placed e s) := by
  cases putRound_cases h c with
  | refused hok hround => simp [hround]
  | placed b x e s hev hpop hround => simp [hround]
  | starved hrr hall hround =>
    have hat := putGrow_attempt h hrr
    rw [hround]
    refine ⟨hat.failed, fun hagain => ?_⟩
    -- the free slot shows that the class has slots, so the starved loop found no pool
    have hfree := hat.room.free hagain
    have hper := hat.evicts.inv.slotsPerExtent_ne_zero hfree
    rw [hat.evicts.static.perExtent] at hper
    exact putRound_placed hat.evicts.inv (hat.room.bound (hall hc hper)) hfree

theorem putLoop_none (h : Inv a) (hc : c < a.classCount) (n : Nat)
    (hnone : (putLoop c (n + 2) a).2.1 = none) :
    (putLoop c (n + 2) a).2.2 = [] := by
  obtain ⟨hfail, hagain⟩ := putRound_attempt h hc
  unfold putLoop at hnone ⊢
  cases hr : (a.putRound c).2.1 with
  | placed e s => simp [hr] at hnone
  | failed => simpa [hr] using hfail hr
  | again =>
    obtain ⟨e, s, hp⟩ := hagain hr
    simp [hr, putLoop, hp] at hnone

/-! ## Admission of a new key -/

/-- `a'` is `a` without the evicted residents and with the new resident `m`. -/
structure Admits (a a' : SlabAllocator) (ev : List BlockKey) (i : Nat) (m : SlotMeta) : Prop where
  inv : Inv a'
  mid : ∃ b, Evicts a b ev ∧ b.res i = none ∧ a'.res = update b.res i (some m) ∧
    Static b a' ∧ a'.env = b.env ∧ ∀ j n, b.res j = some n → n.key ≠ m.key

/-- The record `Put` publishes for a new key. -/
structure FreshRecord (a : SlabAllocator) (key : BlockKey) (len : Nat) (m : SlotMeta) : Prop where
  key : m.key = key
  useful : m.usefulBytes = len
  refs : m.refs = 0
  retain : m.retainUntil = 0
  pending : m.removePending = false

theorem Static.publish {x : SizeClass} (ht : (a.classes m.ref.cls).Took x m.ref.extent m.ref.slot) :
    Static a (a.publish x m) := by
  have hs : x.slotSize = (a.classes m.ref.cls).slotSize := (congrArg SizeClass.slotSize ht.base :)
  have hp : x.slotsPerExtent = (a.classes m.ref.cls).slotsPerExtent :=
    (congrArg slotsPerExtent ht.base :)
  refine ⟨rfl, rfl, fun c => ?_, fun c => ?_, rfl, rfl, rfl⟩
  · exact (proj_update SizeClass.slotSize (by rfl) c).trans
      (proj_update SizeClass.slotSize hs c)
  · exact (proj_update slotsPerExtent (by rfl) c).trans
      (proj_update slotsPerExtent hp c)

theorem Inv.notePut (h : Inv a) {c : Nat} (hb : (a.extents e).cls ≠ none) : Inv
    (a.notePut c e) where
  geometry := h.geometry.congr (proj_update _ rfl) (proj_update _ rfl)
  index := h.index
  place := h.place.congr (proj_update _ rfl) (proj_update _ rfl) (proj_update _ rfl)
  free := h.free.congr (proj_update _ rfl) (proj_update _ rfl) (proj_update _ rfl)
    (proj_update _ rfl)
  ring := h.ring.congr (proj_update _ rfl) (proj_update _ rfl)
  bound := by
    obtain ⟨c', hc'⟩ := Option.ne_none_iff_exists'.mp hb
    exact h.bound.congr (proj_update _ rfl) (proj_update _ rfl) (proj_update _ rfl)
      (proj_update _ rfl) (proj_update _ rfl) (idle_update hc')
  clsCounts c' := by
    have hcls : (fun e' => ((a.notePut c e).extents e').cls) = fun e' => (a.extents e').cls :=
      funext (proj_update _ rfl)
    have hold := h.clsCounts c'
    have hx : ∀ c', ((a.notePut c e).classes c').core = (a.classes c').core := proj_update _ rfl
    refine ⟨?_, ?_, ?_, ?_, ?_⟩
    · exact (congrArg residentCount (hx c') :).trans hold.resident
    · exact (congrArg usefulBytes (hx c') :).trans hold.useful
    · exact (proj_update protectedSlots (by rfl) c').trans hold.prot
    · rw [show ((a.notePut c e).classes c').freeByExt = (a.classes c').freeByExt from
        (congrArg freeByExt (hx c') :)]
      exact (congrArg freeCount (hx c') :).trans hold.free
    · rw [hcls]
      exact (congrArg boundExtents (hx c') :).trans hold.boundExtents
  extCounts := forall_update h.extCounts
    ⟨(h.extCounts e).resident, (h.extCounts e).useful, (h.extCounts e).access,
      (h.extCounts e).pinned, (h.extCounts e).prot⟩
  counts := h.counts
  records := h.records
  retain := h.retain

theorem putPlaced_spec {x : SizeClass} (key : BlockKey) (len : Nat) (h : Inv b)
    (hpop : (b.classes c).popFree = some (x, e, s))
    (hk : b.index.find key = none) (hlen : len ≤ (b.classes c).slotSize) :
    let r := ({ b with classes := update b.classes c x } : SlabAllocator).putPlaced
      key len c e s
    ∃ i m, r.2 = some i ∧ FreshRecord b key len m ∧ r.1.slots i = m ∧ Admits b r.1 [] i m := by
  have ht := popFree_spec (h.free.rotation c) hpop
  have hsize : x.slotSize = (b.classes c).slotSize := (congrArg SizeClass.slotSize ht.base :)
  obtain ⟨hbound, -, -⟩ := (h.free.mem_iff _ _ _).mp ht.mem
  let m := ({ b with classes := update b.classes c x } : SlabAllocator).acquire.putMeta
    key len c e s
  have hm : m.ref.slotSize = x.slotSize := by
    simp [m, putMeta, acquire]
  have hfits : Fits b m :=
    ⟨hm.trans hsize, rfl, rfl, rfl, rfl, (hlen.trans hsize.ge).trans hm.ge, le_rfl⟩
  have hinv := h.publish hfits ht hk
  have hres := res_publish (x := x) h (m := m) rfl
  have hfresh : b.res (acquireIndex b.table) = none := h.index.acquire.fresh
  have hput : ({ b with classes := update b.classes c x } : SlabAllocator).putPlaced
      key len c e s = ((b.publish x m).notePut c e, some (acquireIndex b.table)) := by
    unfold putPlaced
    simp only [acquire, hk]
    rfl
  dsimp only
  rw [hput]
  have hcls : ∀ e', ((b.publish x m).extents e').cls = (b.extents e').cls := proj_update _ rfl
  refine ⟨_, m, rfl, ⟨rfl, rfl, rfl, rfl, rfl⟩, ?_, hinv.notePut (by rw [hcls, hbound]; simp),
    b, .refl h, hfresh, hres, ?_, rfl, fun j n hn hkey => ?_⟩
  · exact Inv.slots_eq (a := b.publish x m) (by rw [hres, update_self])
  · exact (Static.publish ht).trans
      ⟨rfl, rfl, proj_update _ rfl, proj_update _ rfl, rfl, rfl, rfl⟩
  · have hfind := h.find_of_res hn
    rw [hkey, show m.key = key from rfl, hk] at hfind
    simp at hfind

/-- What `Put` of an absent key may have done. -/
inductive PutNewSpec (a : SlabAllocator) (key : BlockKey) (len : Nat)
    (r : SlabAllocator × PutResult) : Prop
  | failed (hok : r.2.ok = false) (hnil : r.2.evicted = []) (hev : Evicts a r.1 [])
  | admitted (i : Nat) (m : SlotMeta) (hok : r.2.ok = true) (hhandle : r.2.handle = some i)
      (href : r.2.ref = m.ref) (hm : FreshRecord a key len m) (hadm : Admits a r.1 r.2.evicted i m)

theorem Evicts.find_eq_none (h : Evicts a b ev) (ha : Inv a) (hk : a.index.find key = none) :
    b.index.find key = none := by
  by_contra hne
  obtain ⟨j, hj⟩ := Option.ne_none_iff_exists'.mp hne
  obtain ⟨n, hn, hkey⟩ := (h.inv.index.find_iff key j).mp hj
  obtain ⟨n₀, hn₀, hs⟩ := h.old j n hn
  have hfind := (ha.index.find_iff key j).mpr ⟨n₀, hn₀, hs.key ▸ hkey⟩
  simp [hk] at hfind

theorem putNew_spec (h : Inv a) (hk : a.index.find key = none) :
    PutNewSpec a key len (a.putNew key len) := by
  unfold putNew
  split
  · exact .failed rfl rfl (.refl h)
  · rename_i hlen
    split
    · exact .failed rfl rfl (.refl h)
    · rename_i halign
      cases hc : a.classForLen (alignUp len a.opt.align) with
      | none => exact .failed rfl rfl (.refl h)
      | some c =>
        have hfit := le_slotSize h (by omega) (by omega) hc
        have hloop := putLoop_spec (c := c) a.putRounds h
        unfold LoopSpec at hloop
        dsimp only
        cases hr : (putLoop c a.putRounds a).2.1 with
        | none =>
          rw [hr] at hloop
          have hnil := putLoop_none h (classForExactSize_spec hc).1 _ hr
          exact .failed rfl hnil (hnil ▸ hloop)
        | some p =>
          rw [hr] at hloop
          obtain ⟨b, x, hb, hpop, heq⟩ := hloop
          obtain ⟨i, m, hi, hm, hslot, hadm⟩ := putPlaced_spec key len hb.inv hpop
            (hb.find_eq_none h hk) ((hb.static.slotSize c).symm ▸ hfit)
          rw [← heq] at hi hslot hadm
          dsimp only
          rw [hi]
          obtain ⟨d, hd, hnone, hres, hst, henv, hkeys⟩ := hadm.mid
          refine .admitted i m rfl rfl (congrArg SlotMeta.ref hslot)
            ⟨hm.key, hm.useful, hm.refs, hm.retain, hm.pending⟩
            ⟨hadm.inv, d, by simpa using hb.trans hd, hnone, hres, hst, henv, hkeys⟩

theorem Inv.tick (h : Inv a) : Inv { a with activitySeq := a.activitySeq + 1 } :=
  h.quiet (Nat.le_succ _) rfl

/-- Everything a `Put` can do to the residents. -/
inductive PutSpec (a : SlabAllocator) (key : BlockKey) (len : Nat) (r : SlabAllocator × PutResult) :
    Prop
  | present (i : Nat) (m : SlotMeta) (hm : a.res i = some m) (hkey : m.key = key)
      (hvis : m.removePending = false) (hinv : Inv r.1)
      (hres : r.1.res = update a.res i (some { m with referenced := true }))
      (hr : r.2 = { ok := true, ref := m.ref, handle := some i }) (henv : r.1.env = a.env)
      (hopt : r.1.opt = a.opt)
  | pending (i : Nat) (m : SlotMeta) (hm : a.res i = some m) (hkey : m.key = key)
      (hpend : m.removePending = true) (hinv : Inv r.1) (hres : r.1.res = a.res)
      (hr : r.2 = {}) (henv : r.1.env = a.env) (hopt : r.1.opt = a.opt)
  | new (hk : a.index.find key = none)
      (h : PutNewSpec { a with activitySeq := a.activitySeq + 1 } key len r)

theorem put_spec (h : Inv a) (key : BlockKey) (len : Nat) : PutSpec a key len (a.put key len) := by
  have ht := h.tick
  unfold SlabAllocator.put
  dsimp only
  cases hk : a.index.find key with
  | none => exact .new hk (putNew_spec ht hk)
  | some i =>
    obtain ⟨hm, hkey⟩ := h.find_spec hk
    dsimp only
    split
    · rename_i hp
      exact .pending i _ hm hkey hp ht rfl rfl rfl rfl
    · rename_i hp
      have hm' : ({ a with activitySeq := a.activitySeq + 1 } : SlabAllocator).res i =
        some (a.slots i) := hm
      exact .present i _ hm hkey (by simpa using hp)
        (ht.setSlot hm' ⟨rfl, rfl, rfl, rfl⟩ rfl rfl rfl)
        (res_setSlot hm' ⟨rfl, rfl, rfl, rfl⟩) rfl rfl rfl

end DingoCache.Slab
