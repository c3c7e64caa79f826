import DingoCache.Store.Step

/-!
# DiskSlabStore: Invariant

The invariant is a statement about each key by itself (`KeyInv`): the pins of its
slot are the requests that hold it, a committed key lies on a slot with its
payload, the leader of a flight is alone on its slot, and a reader copies from a
payload that was committed.  A step acts on one key, and `KeyInv.frame` carries
the statement over for all others.
-/

namespace DingoCache.Store

open Library Slab
open Thread

/-! ## Requests and the slots they hold -/

namespace Thread

def key : Thread → BlockKey
  | judging job => job.key
  | waiting job => job.key
  | following job _ => job.key
  | writing job _ _ _ => job.key
  | finishing job _ _ _ => job.key
  | stored job _ => job.key
  | acquiring job => job.key
  | reading job _ _ _ => job.key
  | fetched job _ _ _ => job.key

def holding : Thread → Bool
  | writing _ _ _ _ => true
  | finishing _ _ _ _ => true
  | reading _ _ _ _ => true
  | _ => false

def isReader : Thread → Bool
  | reading _ _ _ _ => true
  | _ => false

/-- The share of the request in the in-flight count of `k`. -/
def holds (k : BlockKey) (th : Thread) : Nat := if th.holding = true ∧ th.key = k then 1 else 0

theorem holds_of_ne {k : BlockKey} {th : Thread} (h : th.key ≠ k) : th.holds k = 0 := by
  simp [holds, h]

end Thread

/-- The window of a read over payload `p` was filled from `p`, as far as it was filled. -/
def Copied (o : Options) (job : ReadJob) (ref : SlotRef) (p buf : List UInt8) : Prop :=
  match job.plan o ref p.length with
  | .window start _ _ _ => ∀ j i, (hj : j < buf.length) → (hi : i < p.length) →
      start + j = ref.offset + i → buf[j] = p[i]
  | _ => buf = []

namespace DiskSlabStore

/-- The slot begins with `p`. -/
def Stored (s : DiskSlabStore) (ref : SlotRef) (p : List UInt8) : Prop :=
  (s.extents ref.extent).pread ref.offset p.length = p

/-- The leader of `flight` is alone on the slot of its uncommitted key. -/
structure Leads (s : DiskSlabStore) (job : PutJob) (ref : SlotRef) (flight : Nat) : Prop where
  held : s.alloc.held job.key = some ⟨ref, 1, false⟩
  len : s.len job.key = none
  flight : s.putFlights job.key = some flight
  fits : job.data.length ≤ ref.slotSize

/-- A reader holds the slot of a payload that was committed. -/
structure Reads (s : DiskSlabStore) (job : ReadJob) (ref : SlotRef) (plen : Nat)
    (buf : List UInt8) : Prop where
  held : ∃ n, s.alloc.held job.key = some ⟨ref, n, false⟩
  len : s.len job.key = some plen ∨ s.len job.key = none ∧ s.deferredRemove job.key = true
  fits : plen ≤ ref.slotSize
  copied : ∃ p ∈ s.commits job.key, p.length = plen ∧ s.Stored ref p ∧ Copied s.opt job ref p buf

/-- What holds of a request in each of its states. A failed store promises a leader nothing about
its bytes: a lost write may still reach them. -/
def ThreadOk (s : DiskSlabStore) : Thread → Prop
  | .writing job ref flight done =>
    s.Leads job ref flight ∧
      (s.failed = false → s.Stored ref ((s.opt.payloadBuffer job ref).take done))
  | .finishing job ref flight ioOk =>
    s.Leads job ref flight ∧ (ioOk = true → s.failed = false → s.Stored ref job.data)
  | .reading job ref plen buf => s.Reads job ref plen buf
  | .fetched job status data valueLen => status = .ok →
      ∃ p ∈ s.commits job.key, ∃ n, data = (p.drop job.offset).take n ∧ valueLen = p.length
  | _ => True

/-- The books about one key agree. -/
structure KeyInv (s : DiskSlabStore) (k : BlockKey) : Prop where
  visible : ∀ x, s.alloc.held k = some x → x.pending = false
  pins : s.inflight k = (s.alloc.held k).elim 0 Hold.refs
  holders : s.inflight k = tally s.spawned s.threads (holds k)
  committed : ∀ n, s.len k = some n → ∃ x p, s.alloc.held k = some x ∧ p ∈ s.commits k ∧
    p.length = n ∧ s.Stored x.ref p ∧ n ≤ x.ref.slotSize
  deferred : s.deferredRemove k = true → s.inflight k ≠ 0 ∧ s.len k = none
  threads : ∀ t th, s.threads t = some th → th.key = k → s.ThreadOk th

/-- The key is committed, or a reader holds it. -/
def Stable (s : DiskSlabStore) (k : BlockKey) : Prop :=
  s.len k ≠ none ∨ ∃ t th, s.threads t = some th ∧ th.isReader = true ∧ th.key = k

/-- Writes that may still land reach no stable slot, and none are left behind by a healthy store. -/
def ZombieInv (s : DiskSlabStore) : Prop :=
  ∀ z ∈ s.zombies, s.failed = true ∧ z.buf.length ≤ z.ref.slotSize ∧
    ∀ k x, s.alloc.held k = some x → s.Stable k → z.ref.Apart x.ref

def usage (m : AList (fun _ : BlockKey => Nat)) (tenant : UInt64) : Nat :=
  total m fun k n => if k.tenantHash = tenant then n else 0

/-- The invariant of a serving store. -/
structure Inv (s : DiskSlabStore) : Prop where
  valid : s.opt.validateOptions = none
  alloc : Slab.Inv s.alloc
  options : s.alloc.opt = s.opt.slab
  fresh : ∀ t, s.spawned ≤ t → s.threads t = none
  keys : ∀ k, s.KeyInv k
  usage : ∀ tenant, s.tenantUsed tenant = usage s.payloadLen tenant
  zombies : s.ZombieInv

/-! ## Frames -/

/-- The slot of `ref` has the same bytes in both stores. -/
def SameSlot (s s' : DiskSlabStore) (ref : SlotRef) : Prop :=
  ∀ i, i < ref.slotSize → s'.extents ref.extent (ref.offset + i) = s.extents ref.extent
    (ref.offset + i)

variable {s s' : DiskSlabStore} {k : BlockKey} {ref : SlotRef} {p : List UInt8}

theorem Stored.frame (h : s.Stored ref p) (hs : SameSlot s s' ref) (hp : p.length ≤ ref.slotSize) :
    s'.Stored ref p :=
  (FlatFile.pread_congr fun i hi => hs i (hi.trans_le hp)).trans h

/-- The step touched neither the books nor the slot of `k`. -/
structure SameBooks (s s' : DiskSlabStore) (k : BlockKey) : Prop where
  opt : s'.opt = s.opt
  health : s'.failed = false → s.failed = false
  held : s'.alloc.held k = s.alloc.held k
  len : s'.len k = s.len k
  inflight : s'.inflight k = s.inflight k
  deferred : s'.deferredRemove k = s.deferredRemove k
  flights : s'.putFlights k = s.putFlights k
  commits : s'.commits k = s.commits k
  slot : ∀ x, s.alloc.held k = some x → SameSlot s s' x.ref

/-- The step touched no request about `k`. -/
structure SameRequests (s s' : DiskSlabStore) (k : BlockKey) : Prop where
  threads : ∀ t th, s'.threads t = some th → th.key = k → s.threads t = some th
  count : tally s'.spawned s'.threads (holds k) = tally s.spawned s.threads (holds k)

/-- The step did not touch `k`. -/
structure SameKey (s s' : DiskSlabStore) (k : BlockKey) : Prop extends
  SameBooks s s' k, SameRequests s s' k

theorem payloadBuffer_length_le (o : Options) {job : PutJob} (h : job.data.length ≤ ref.slotSize) :
    (o.payloadBuffer job ref).length ≤ ref.slotSize := by
  unfold Options.payloadBuffer
  split
  · rename_i hd
    have hpad : job.data.length ≤ padLen job.data.length := by
      unfold padLen
      omega
    rw [List.length_append, List.length_replicate]
    omega
  · exact h

theorem Leads.frame {job : PutJob} {flight : Nat} (h : s.Leads job ref flight)
    (hs : SameBooks s s' job.key) : s'.Leads job ref flight :=
  ⟨hs.held.trans h.held, hs.len.trans h.len, hs.flights.trans h.flight, h.fits⟩

theorem ThreadOk.frame {th : Thread} (h : s.ThreadOk th) (hs : SameBooks s s' th.key) :
    s'.ThreadOk th := by
  cases th with
  | writing job ref flight done =>
    refine ⟨h.1.frame hs, fun hf => ?_⟩
    have hfit := payloadBuffer_length_le s.opt h.1.fits
    rw [hs.opt]
    exact (h.2 (hs.health hf)).frame (hs.slot _ h.1.held)
      ((List.length_take_le' _ _).trans hfit)
  | finishing job ref flight ioOk =>
    exact ⟨h.1.frame hs, fun hio hf =>
      (h.2 hio (hs.health hf)).frame (hs.slot _ h.1.held) h.1.fits⟩
  | reading job ref plen buf =>
    obtain ⟨⟨n, hn⟩, hlen, hfit, p, hp, hpl, hst, hcop⟩ := h
    refine ⟨⟨n, hs.held.trans hn⟩, ?_, hfit, p, hs.commits ▸ hp, hpl, ?_, hs.opt.symm ▸ hcop⟩
    · rw [show s'.len job.key = s.len job.key from hs.len,
        show s'.deferredRemove job.key = s.deferredRemove job.key from hs.deferred]
      exact hlen
    · exact hst.frame (hs.slot _ hn) (hpl.trans_le hfit)
  | fetched job status data valueLen =>
    intro hok
    obtain ⟨p, hp, hdata⟩ := h hok
    exact ⟨p, hs.commits ▸ hp, hdata⟩
  | _ => exact trivial

theorem KeyInv.frame (h : s.KeyInv k) (hs : SameKey s s' k) : s'.KeyInv k where
  visible x hx := h.visible x (hs.held ▸ hx)
  pins := by rw [hs.inflight, hs.held, h.pins]
  holders := by rw [hs.inflight, hs.count, h.holders]
  committed n hn := by
    obtain ⟨x, p, hx, hp, hpl, hst, hfit⟩ := h.committed n (hs.len ▸ hn)
    exact ⟨x, p, hs.held.trans hx, hs.commits ▸ hp, hpl,
      hst.frame (hs.slot x hx) (hpl.trans_le hfit), hfit⟩
  deferred hd := by
    rw [hs.inflight, hs.len]
    exact h.deferred (hs.deferred ▸ hd)
  threads t th ht hk := (h.threads t th (hs.threads t th ht hk) hk).frame (hk.symm ▸ hs.toSameBooks)

/-! ## Replacing one request -/

variable {t t' : Nat} {th th' : Thread}

theorem Inv.lt_spawned (h : s.Inv) (ht : s.threads t = some th) : t < s.spawned := by
  by_contra hge
  simp [h.fresh t (not_lt.mp hge)] at ht

theorem Inv.not_holding (h : s.Inv) (h0 : s.inflight th.key = 0) (ht : s.threads t = some th) :
    th.holding = false := by
  have hle := le_tally (w := holds th.key) (h.lt_spawned ht) ht
  rw [← (h.keys th.key).holders, h0] at hle
  by_contra hh
  simp [holds, hh] at hle

theorem Inv.sole (h : s.Inv) (h1 : s.inflight th.key = 1) (ht : s.threads t = some th)
    (hh : th.holding) (ht' : s.threads t' = some th') (hne : t' ≠ t)
    (hk : th'.key = th.key) : th'.holding = false := by
  have hle := add_le_tally (w := holds th.key) (h.lt_spawned ht) (h.lt_spawned ht') hne.symm
    ht ht'
  rw [← (h.keys th.key).holders, h1] at hle
  by_contra hh'
  simp [holds, hh, hh', hk] at hle

theorem ThreadOk.idle (h : s.ThreadOk th) (hh : th.holding = false)
    (hc : ∀ p ∈ s.commits th.key, p ∈ s'.commits th.key) : s'.ThreadOk th := by
  cases th with
  | fetched job status data valueLen =>
    intro hok
    obtain ⟨p, hp, hdata⟩ := h hok
    exact ⟨p, hc p hp, hdata⟩
  | writing | finishing | reading => simp [holding] at hh
  | _ => exact trivial

theorem SameRequests.of_eq (ht : s'.threads = s.threads) (hn : s'.spawned = s.spawned) :
    SameRequests s s' k := by
  refine ⟨fun t th h _ => ht ▸ h, ?_⟩
  rw [ht, hn]

theorem SameRequests.replace (h : s.Inv) (ht : s.threads t = some th)
    (hs : s'.threads = Function.update s.threads t (some th')) (hn : s'.spawned = s.spawned)
    (hk : th.key ≠ k) (hk' : th'.key ≠ k) : SameRequests s s' k := by
  refine ⟨fun t' th'' h' hkey => ?_, ?_⟩
  · rw [hs] at h'
    rcases record_of_update h' with rfl | ⟨-, h'⟩
    · exact absurd hkey hk'
    · exact h'
  · have htally := tally_replace (w := holds k) th' (h.lt_spawned ht) ht
    rw [holds_of_ne hk, holds_of_ne hk'] at htally
    rw [hs, hn]
    exact htally

theorem SameRequests.spawn (h : s.Inv)
    (hs : s'.threads = Function.update s.threads s.spawned (some th))
    (hn : s'.spawned = s.spawned + 1) (hk : th.holds k = 0) :
    tally s'.spawned s'.threads (holds k) = tally s.spawned s.threads (holds k) := by
  have hnone := h.fresh s.spawned le_rfl
  rw [hs, hn, tally_insert (Nat.lt_succ_self _) hnone, tally_succ hnone, hk, Nat.add_zero]

theorem ZombieInv.mono (h : s.ZombieInv) (hz : s'.zombies = s.zombies) (hf : s.failed → s'.failed)
    (hs : s.failed → ∀ k x, s'.alloc.held k = some x → s'.Stable k →
      s.Stable k ∧ ∃ y, s.alloc.held k = some y ∧ y.ref = x.ref) : s'.ZombieInv := by
  intro z hmem
  rw [hz] at hmem
  obtain ⟨hfail, hlen, hap⟩ := h z hmem
  refine ⟨hf hfail, hlen, fun k x hx hst => ?_⟩
  obtain ⟨hst₀, y, hy, href⟩ := hs hfail k x hx hst
  exact href ▸ hap k y hy hst₀

theorem KeyInv.replace (h : s.Inv) (ht : s.threads t = some th)
    (hs : s'.threads = Function.update s.threads t (some th')) (hn : s'.spawned = s.spawned)
    (visible : ∀ x, s'.alloc.held th.key = some x → x.pending = false)
    (pins : s'.inflight th.key = (s'.alloc.held th.key).elim 0 Hold.refs)
    (holders : s'.inflight th.key + th.holds th.key = s.inflight th.key + th'.holds th.key)
    (committed : ∀ n, s'.len th.key = some n → ∃ x p, s'.alloc.held th.key = some x ∧
      p ∈ s'.commits th.key ∧ p.length = n ∧ s'.Stored x.ref p ∧ n ≤ x.ref.slotSize)
    (deferred : s'.deferredRemove th.key → s'.inflight th.key ≠ 0 ∧ s'.len th.key = none)
    (own : s'.ThreadOk th')
    (others : ∀ t' th'', t' ≠ t → s.threads t' = some th'' → th''.key = th.key →
      s'.ThreadOk th'') : s'.KeyInv th.key where
  visible := visible
  pins := pins
  holders := by
    have htally := tally_replace (w := holds th.key) th' (h.lt_spawned ht) ht
    have hold := (h.keys th.key).holders
    rw [hs, hn]
    omega
  committed := committed
  deferred := deferred
  threads t' th'' ht' hk := by
    rw [hs] at ht'
    rcases record_of_update ht' with rfl | ⟨hne, ht'⟩
    · exact own
    · exact others t' th'' hne ht' hk

end DiskSlabStore

end DingoCache.Store
