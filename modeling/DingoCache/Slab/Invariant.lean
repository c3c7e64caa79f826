import DingoCache.Slab.FreeSlots
import DingoCache.Slab.Interface

/-!
# SlabAllocator: Representation Invariant

The abstract state of an allocator is its table of residents
(`SlabAllocator.res`).  `Inv` ties every other field to it:

- `IndexInv`: the key index and the residents are in bijection, the unused
  records form the free chain.
- `PlaceInv`: every resident lies in a slot of an extent bound to its class, no
  two residents in the same one.
- `FreeInv`: the free slots of a class are exactly the unoccupied slots of the
  extents bound to it.
- `RingInv`: class rings, the global ring and the extent lists enumerate the
  residents.
- `BoundInv`, `ClassCounts`, `ExtentCounts`: every counter is the sum it
  summarises.

Each part depends on few fields, so that a state change is carried through the
parts it does not touch by a congruence lemma.
-/

namespace DingoCache.Slab

open Library SlabAllocator
open Function (update)

variable {c : Nat}

/-! ## Residents and weights -/

/-- The resident at table index `i`, if the record is live. -/
def SlotTable.resident (t : SlotTable) (i : Nat) : Option SlotMeta :=
  if (t.slots i).live then some (t.slots i) else none

def SlabAllocator.res (a : SlabAllocator) : Nat → Option SlotMeta := a.table.resident

def placeOf (R : Nat → Option SlotMeta) (i : Nat) : Option SlotRef := (R i).map (·.ref)

def inClass (c : Nat) (w : SlotMeta → Nat) (m : SlotMeta) : Nat := if m.ref.cls = c then w m else 0

def inExtent (e : Nat) (w : SlotMeta → Nat) (m : SlotMeta) : Nat :=
  if m.ref.extent = e then w m else 0

def one (_ : SlotMeta) : Nat := 1

def pinWeight (m : SlotMeta) : Nat := if m.refs = 0 then 0 else 1

def retainWeight (m : SlotMeta) : Nat := if m.retainUntil = 0 then 0 else 1

def retainBytes (m : SlotMeta) : Nat := if m.retainUntil = 0 then 0 else m.ref.slotSize

/-! ## The parts of the invariant -/

/-- The class lattice, fixed at construction. -/
structure Geometry (o : Options) (n : Nat) (classes : Nat → SizeClass) : Prop where
  align_pos : 0 < o.align
  align_le : ∀ c, c < n → o.align ≤ (classes c).slotSize
  le_max : ∀ c, c < n → (classes c).slotSize ≤ o.maxAligned
  perExtent : ∀ c, c < n →
    (classes c).slotsPerExtent = o.extentBytes / (classes c).slotSize % 2 ^ 32
  strict : ∀ c c', c < c' → c' < n → (classes c).slotSize < (classes c').slotSize
  sizes : (List.range n).map (fun c => (classes c).slotSize) =
    o.classSizes (o.maxAligned + 1) o.align

/-- Index, live records and free chain. -/
structure IndexInv (t : SlotTable) (x : KeyIndex) : Prop where
  find_iff : ∀ k i, x.find k = some i ↔ ∃ m, t.resident i = some m ∧ m.key = k
  bounded : ∀ i m, t.resident i = some m → i < t.size
  chain : ∃ l, FreeChain (fun i => (t.slots i).freeNext) t.freeHead l ∧ l.Nodup ∧
    ∀ i, i ∈ l ↔ i < t.size ∧ t.resident i = none
  size_eq : x.size = tally t.size t.resident one

/-- The placement of one resident fits the class and the extent it names. -/
structure Placed (classes : Nat → SizeClass) (extents : Nat → ExtentMeta) (r : SlotRef) :
    Prop where
  bound : (extents r.extent).cls = some r.cls
  slot_lt : r.slot < (classes r.cls).slotsPerExtent
  size_eq : r.slotSize = (classes r.cls).slotSize
  offset_eq : r.offset = r.slot * r.slotSize

/-- Residents sit in distinct slots of bound extents. -/
structure PlaceInv (classes : Nat → SizeClass) (extents : Nat → ExtentMeta)
    (P : Nat → Option SlotRef) : Prop where
  placed : ∀ i r, P i = some r → Placed classes extents r
  inj : ∀ i j r r', P i = some r → P j = some r' → r.extent = r'.extent → r.slot = r'.slot → i = j

/-- Slot `s` of extent `e` holds no resident. -/
def Vacant (P : Nat → Option SlotRef) (e s : Nat) : Prop :=
  ∀ i r, P i = some r → ¬(r.extent = e ∧ r.slot = s)

/-- The free lists hold the vacant slots of the bound extents. -/
structure FreeInv (classes : Nat → SizeClass) (extents : Nat → ExtentMeta)
    (P : Nat → Option SlotRef) : Prop where
  rotation : ∀ c, (classes c).RotationOk
  mem_iff : ∀ c e s, s ∈ (classes c).freeByExt e ↔
    (extents e).cls = some c ∧ s < (classes c).slotsPerExtent ∧ Vacant P e s

/-- Rings and extent lists enumerate the residents. -/
structure RingInv (L : SlabLinks) (classes : Nat → SizeClass) (g : Ring)
    (extents : Nat → ExtentMeta) (P : Nat → Option SlotRef) : Prop where
  cls : RingFamily L.cls (fun c => (classes c).ring) (fun i => (P i).map (·.cls))
  global : RingFamily L.global (soloRing g) (fun i => (P i).map fun _ => 0)
  extent : ListFamily L.extent (fun e => (extents e).residentHead) (fun i => (P i).map (·.extent))

/-- Which extents are bound, and how full they are. -/
structure BoundInv (o : Options) (n : Nat) (classes : Nat → SizeClass)
    (extents : Nat → ExtentMeta) (unbound : Nat) : Prop where
  lt : ∀ e c, (extents e).cls = some c → e < o.numExtents ∧ c < n
  default : ∀ e, (extents e).cls = none → extents e = {}
  freeSlots : ∀ e c, (extents e).cls = some c →
    (extents e).freeSlots = ((classes c).freeByExt e).length
  totalSlots : ∀ e c, (extents e).cls = some c → (extents e).totalSlots = (classes c).slotsPerExtent
  unbound_add : unbound + tally o.numExtents (fun e => (extents e).cls) (fun _ => 1) = o.numExtents

/-- The counters of class `c`. -/
structure ClassCounts (o : Options) (n : Nat) (R : Nat → Option SlotMeta)
    (extents : Nat → ExtentMeta) (c : Nat) (x : SizeClass) : Prop where
  resident : x.residentCount = tally n R (inClass c one)
  useful : x.usefulBytes = tally n R (inClass c (·.usefulBytes))
  prot : x.protectedSlots = tally n R (inClass c retainWeight)
  free : x.freeCount = ∑ e ∈ Finset.range o.numExtents, (x.freeByExt e).length
  boundExtents : x.boundExtents =
    tally o.numExtents (fun e => (extents e).cls) (fun c' => if c' = c then 1 else 0)

/-- A counter of pinned slots never falls below their number, and is that number unless a pin count
has wrapped. -/
def Covers (wrapped : Bool) (v total : Nat) : Prop := total ≤ v ∧ (wrapped = false → v = total)

/-- The counters of extent `e`. -/
structure ExtentCounts (wrapped : Bool) (n : Nat) (R : Nat → Option SlotMeta) (e : Nat)
    (x : ExtentMeta) : Prop where
  resident : x.residentCount = tally n R (inExtent e one)
  useful : x.usefulBytes = tally n R (inExtent e (·.usefulBytes))
  access : x.accessSeqSum = tally n R (inExtent e (·.accessSeq))
  pinned : Covers wrapped x.pinned (tally n R (inExtent e pinWeight))
  prot : x.protectedSlots = tally n R (inExtent e retainWeight)

/-- The allocator-wide counters. -/
structure GlobalCounts (n : Nat) (R : Nat → Option SlotMeta) (used protBytes protSlots : Nat) :
    Prop where
  used : used = tally n R (·.ref.slotSize)
  protBytes : protBytes = tally n R retainBytes
  protSlots : protSlots = tally n R retainWeight

/-- What every resident record satisfies on its own. -/
structure RecordOk (seq : Nat) (m : SlotMeta) : Prop where
  useful_le : m.usefulBytes ≤ m.ref.slotSize
  access_le : m.accessSeq ≤ seq

/-- Enabled retention has a positive TTL, and the wheel holds real deadlines only. -/
structure RetainOk (o : RetainOptions) (wheel : Nat → List WheelEntry) : Prop where
  ttl : o.enabled = true → o.maxTtlS ≠ 0
  deadline : ∀ bucket, ∀ x ∈ wheel bucket, x.until_ ≠ 0

/-- The representation invariant. -/
structure Inv (a : SlabAllocator) : Prop where
  geometry : Geometry a.opt a.classCount a.classes
  index : IndexInv a.table a.index
  place : PlaceInv a.classes a.extents (placeOf a.res)
  free : FreeInv a.classes a.extents (placeOf a.res)
  ring : RingInv a.links a.classes a.globalRing a.extents (placeOf a.res)
  bound : BoundInv a.opt a.classCount a.classes a.extents a.unbound
  clsCounts : ∀ c, ClassCounts a.opt a.table.size a.res a.extents c (a.classes c)
  extCounts : ∀ e, ExtentCounts a.pinsWrapped a.table.size a.res e (a.extents e)
  counts : GlobalCounts a.table.size a.res a.usedBytes a.retention.protectedBytes
    a.retention.protectedSlots
  records : ∀ i m, a.res i = some m → RecordOk a.activitySeq m
  retain : RetainOk a.retention.opt a.retention.wheel

/-! ## Congruence -/

theorem proj_update {α β : Type} {g : Nat → α} {v : α} (φ : α → β) (h : φ v = φ (g c)) (c' : Nat) :
    φ (update g c v c') = φ (g c') := by
  rcases eq_or_ne c' c with rfl | hc
  · simpa using h
  · simp [hc]

theorem proj_update_congr {α β : Type} {g : Nat → α} {v v' : α} (φ : α → β) (h : φ v = φ v')
    (c' : Nat) : φ (update g c v c') = φ (update g c v' c') := by
  rcases eq_or_ne c' c with rfl | hc
  · simpa using h
  · simp [hc]

theorem comp_update {α β : Type} {g : Nat → α} {v : α} (φ : α → β) :
    (fun j => φ (update g c v j)) = update (fun j => φ (g j)) c (φ v) := by
  funext j
  rcases eq_or_ne j c with rfl | hj
  · simp
  · simp [hj]

section Congr

variable {o : Options} {n unbound : Nat} {classes classes' : Nat → SizeClass}
  {extents extents' : Nat → ExtentMeta} {P : Nat → Option SlotRef} {L : SlabLinks} {g : Ring}

theorem Geometry.congr (h : Geometry o n classes)
    (hs : ∀ c, (classes' c).slotSize = (classes c).slotSize)
    (hp : ∀ c, (classes' c).slotsPerExtent = (classes c).slotsPerExtent) :
    Geometry o n classes' where
  align_pos := h.align_pos
  align_le c hc := hs c ▸ h.align_le c hc
  le_max c hc := hs c ▸ h.le_max c hc
  perExtent c hc := by rw [hp, hs, h.perExtent c hc]
  strict c c' hcc hc := by rw [hs, hs]; exact h.strict c c' hcc hc
  sizes := by simpa only [hs] using h.sizes

theorem PlaceInv.congr (h : PlaceInv classes extents P)
    (hs : ∀ c, (classes' c).slotSize = (classes c).slotSize)
    (hp : ∀ c, (classes' c).slotsPerExtent = (classes c).slotsPerExtent)
    (hb : ∀ e, (extents' e).cls = (extents e).cls) : PlaceInv classes' extents' P where
  placed i r hr :=
    have hr := h.placed i r hr
    ⟨(hb _).trans hr.bound, (hp _).symm ▸ hr.slot_lt, (hs _).symm ▸ hr.size_eq, hr.offset_eq⟩
  inj := h.inj

theorem FreeInv.congr (h : FreeInv classes extents P)
    (hf : ∀ c, (classes' c).freeByExt = (classes c).freeByExt)
    (hr : ∀ c, (classes' c).extRr = (classes c).extRr)
    (hp : ∀ c, (classes' c).slotsPerExtent = (classes c).slotsPerExtent)
    (hb : ∀ e, (extents' e).cls = (extents e).cls) : FreeInv classes' extents' P where
  rotation c :=
    have hc := h.rotation c
    ⟨hf c ▸ hc.nodup, hr c ▸ hc.rr_nodup, fun e => by rw [hf, hr]; exact hc.rr_mem e⟩
  mem_iff c e s := by rw [hf, hb, hp]; exact h.mem_iff c e s

theorem RingInv.congr (h : RingInv L classes g extents P)
    (hr : ∀ c, (classes' c).ring = (classes c).ring)
    (hh : ∀ e, (extents' e).residentHead = (extents e).residentHead) :
    RingInv L classes' g extents' P where
  cls := by rw [funext hr]; exact h.cls
  global := h.global
  extent := by rw [funext hh]; exact h.extent

theorem BoundInv.congr (h : BoundInv o n classes extents unbound)
    (hf : ∀ c, (classes' c).freeByExt = (classes c).freeByExt)
    (hp : ∀ c, (classes' c).slotsPerExtent = (classes c).slotsPerExtent)
    (hb : ∀ e, (extents' e).cls = (extents e).cls)
    (hfs : ∀ e, (extents' e).freeSlots = (extents e).freeSlots)
    (hts : ∀ e, (extents' e).totalSlots = (extents e).totalSlots)
    (hd : ∀ e, (extents e).cls = none → extents' e = extents e) :
    BoundInv o n classes' extents' unbound where
  lt e c hc := h.lt e c (hb e ▸ hc)
  default e he := by
    rw [hb] at he
    rw [hd e he, h.default e he]
  freeSlots e c hc := by rw [hfs, hf]; exact h.freeSlots e c (hb e ▸ hc)
  totalSlots e c hc := by rw [hts, hp]; exact h.totalSlots e c (hb e ▸ hc)
  unbound_add := by
    have hcls : (fun e => (extents' e).cls) = fun e => (extents e).cls := funext hb
    rw [hcls]
    exact h.unbound_add

end Congr

/-! ## Reading the invariant -/

namespace Inv

variable {a : SlabAllocator} {i j : Nat} {m m' : SlotMeta} {k : BlockKey}

theorem res_eq_some : a.res i = some m ↔ (a.slots i).live ∧ a.slots i = m := by
  unfold res SlotTable.resident slots
  split <;> simp_all

theorem slots_eq (h : a.res i = some m) : a.slots i = m := (res_eq_some.mp h).2

theorem live_eq (h : a.res i = some m) : m.live := by
  obtain ⟨hl, rfl⟩ := res_eq_some.mp h
  exact hl

theorem find_spec (h : Inv a) (hf : a.index.find k = some i) :
    a.res i = some (a.slots i) ∧ (a.slots i).key = k := by
  obtain ⟨m, hm, hk⟩ := (h.index.find_iff k i).mp hf
  rw [slots_eq hm]
  exact ⟨hm, hk⟩

theorem find_of_res (h : Inv a) (hm : a.res i = some m) : a.index.find m.key = some i :=
  (h.index.find_iff m.key i).mpr ⟨m, hm, rfl⟩

theorem key_inj (h : Inv a) (hi : a.res i = some m) (hj : a.res j = some m')
    (hk : m.key = m'.key) : i = j := by
  have h1 := h.find_of_res hi
  have h2 := h.find_of_res hj
  rw [hk, h2] at h1
  exact (Option.some.inj h1).symm

theorem lt_size (h : Inv a) (hm : a.res i = some m) : i < a.table.size := h.index.bounded i m hm

theorem placed (h : Inv a) (hm : a.res i = some m) : Placed a.classes a.extents m.ref :=
  h.place.placed i m.ref (by simp [placeOf, hm])

theorem ref_lt (h : Inv a) (hm : a.res i = some m) :
    m.ref.extent < a.opt.numExtents ∧ m.ref.cls < a.classCount :=
  h.bound.lt _ _ (h.placed hm).bound

theorem weight_le (h : Inv a) (hm : a.res i = some m) {w : SlotMeta → Nat} {v : Nat}
    (hv : v = tally a.table.size a.res w) : w m ≤ v :=
  hv ▸ le_tally (h.lt_size hm) hm

theorem pinWeight_le (h : Inv a) (hm : a.res i = some m) :
    inExtent m.ref.extent pinWeight m ≤ (a.extents m.ref.extent).pinned :=
  (h.weight_le hm rfl).trans (h.extCounts m.ref.extent).pinned.1

theorem refs_eq_zero (h : Inv a) (hm : a.res i = some m)
    (hp : (a.extents m.ref.extent).pinned = 0) : m.refs = 0 := by
  have hle := h.pinWeight_le hm
  rw [hp] at hle
  by_contra h0
  simp [inExtent, pinWeight, h0] at hle

theorem retainUntil_eq_zero (h : Inv a) (hm : a.res i = some m)
    (hp : (a.extents m.ref.extent).protectedSlots = 0) : m.retainUntil = 0 := by
  have hle := h.weight_le hm (h.extCounts m.ref.extent).prot
  rw [hp] at hle
  by_contra h0
  simp [inExtent, retainWeight, h0] at hle

theorem head_spec (h : Inv a) {e : Nat} (hh : (a.extents e).residentHead = some i) :
    ∃ m, a.res i = some m ∧ m.ref.extent = e := by
  have hg := h.ring.extent.head_spec hh
  simpa [placeOf] using hg

end Inv

end DingoCache.Slab
