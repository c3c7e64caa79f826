import DingoCache.Transport.RecvSegmentPool

/-!
# Runs of the Pool of Receive Segments

What holds of a `RecvSegmentPool` from a successful `Init` on, in every interleaving of
the threads that use it.

- `step_cases`: what a step can do.
-/

namespace DingoCache.Transport

open Library List
open Chunk
open RecvSegmentPool

open PoolState

variable {s' : PoolState} {request : Request} {l : PoolLabel}

/-! ## Every step of every thread -/

/-- What a step can do. -/
inductive Stepped (s : PoolState) : PoolLabel → PoolState → Prop where
  | moved {l : PoolLabel} (holders : List Holder)
      (hheld : ∀ ptr, (heldIn ptr s.holders).Perm (heldIn ptr holders))
      (hholders : ∀ x ∈ holders, x.lease = {} ∨ x ∈ s.holders) : Stepped s l { s with holders }
  | locked {l : PoolLabel} (lock : PoolLock) (hfree : ∀ a, s.lock ≠ .allocating a)
      (hrounds : ∀ a, lock = .allocating a → a.rounds = s.pool.rounds a.request) :
      Stepped s l { s with lock }
  | tried (a : Attempt) (wanted : Int × Bool) (rounds : List (Int × Bool))
      (hlock : s.lock = .allocating a) (hrounds : a.rounds = wanted :: rounds) :
      Stepped s .tryChunk (s.tryRound a wanted rounds)
  | grown (a : Attempt) (memory : Memory) (hlock : s.lock = .allocating a) (hrounds : a.rounds = [])
      (hallows : s.pool.Allows ((s.pool.growBytes a.request.bytes).getD 0) memory) :
      Stepped s (.grow memory) (s.growFor a.request memory)
  | released (i : Nat) (s' : PoolState) (h : s.release i = some s') : Stepped s (.release i) s'
  | noted (k ptr nowMs : Nat) (hlock : s.lock = .free) :
      Stepped s (.note k nowMs)
        { s with
          pool := { s.pool with chunks := noteRelease ptr nowMs s.pool.chunks }
          pending := s.pending.eraseIdx k }
  | trimmed (t : Trim) (chunk : Chunk) (hlock : s.lock = .trimming t) (hi : 1 < t.i)
      (hchunk : s.pool.chunks[t.i - 1]? = some chunk) :
      Stepped s .trimChunk
        { s with
          pool := { s.pool with chunks := trimOne s.pool.chunks t chunk }
          lock := .trimming { t with i := t.i - 1 } }

section Moves

variable {s : PoolState}

theorem stepped_empty (l : PoolLabel) (request : Request) :
    Stepped s l { s with holders := s.holders ++ [.empty request] } := by
  refine .moved _ (heldIn_append_empty s.holders request) fun y hy => ?_
  rcases mem_append.mp hy with hy | hy
  · exact .inr hy
  · obtain rfl := mem_singleton.mp hy
    exact .inl rfl

theorem stepped_construct {src : Nat} {x : Holder} (hx : s.holders[src]? = some x) (l : PoolLabel) :
    Stepped s l { s with holders := s.holders.set src (.empty x.request) ++ [x] } := by
  obtain ⟨hperm, hset⟩ := perm_set hx (Holder.empty x.request)
  refine .moved _ (fun ptr => ?_) fun y hy => ?_
  · -- The lease is held before, by the source, and after, by the new holder.
    have hnew : (s.holders.set src (.empty x.request) ++ [x]).Perm
        (.empty x.request :: x :: s.holders.eraseIdx src) :=
      (perm_append_singleton x _).trans ((hset.cons x).trans (List.Perm.swap _ _ _))
    have hheld := heldIn_congr hnew ptr
    rw [heldIn_empty] at hheld
    exact (heldIn_congr hperm ptr).trans hheld.symm
  · rcases mem_append.mp hy with hy | hy
    · rcases mem_or_eq_of_mem_set hy with hy | rfl
      · exact .inr hy
      · exact .inl rfl
    · obtain rfl := mem_singleton.mp hy
      exact .inr (mem_of_getElem? hx)

theorem stepped_assign {dst src : Nat} {target x : Holder} (hne : dst ≠ src)
    (htarget : s.holders[dst]? = some target) (hnull : target.lease = {})
    (hx : s.holders[src]? = some x) (l : PoolLabel) :
    Stepped s l { s with holders := (s.holders.set src (.empty x.request)).set dst x } := by
  obtain ⟨hperm, hset⟩ := perm_set hx (Holder.empty x.request)
  have htarget' : (s.holders.set src (.empty x.request))[dst]? = some target := by
    rw [getElem?_set_ne (Ne.symm hne)]
    exact htarget
  obtain ⟨hperm', hset'⟩ := perm_set htarget' x
  refine .moved _ (fun ptr => ?_) fun y hy => ?_
  · -- Besides the lease that moves, only empty holders change.
    have hmove : (Holder.empty x.request :: x :: s.holders.eraseIdx src).Perm
        (target :: x :: (s.holders.set src (.empty x.request)).eraseIdx dst) :=
      (List.Perm.swap _ _ _).trans
        (((hset.symm.trans hperm').cons x).trans (List.Perm.swap _ _ _))
    have hheld := heldIn_congr hmove ptr
    rw [heldIn_empty, heldIn_of_null hnull] at hheld
    exact (heldIn_congr hperm ptr).trans (hheld.trans (heldIn_congr hset'.symm ptr))
  · rcases mem_or_eq_of_mem_set hy with hy | rfl
    · rcases mem_or_eq_of_mem_set hy with hy | rfl
      · exact .inr hy
      · exact .inl rfl
    · exact .inr (mem_of_getElem? hx)

theorem stepped_self (l : PoolLabel) : Stepped s l s :=
  .moved s.holders (fun _ => List.Perm.refl _) fun _ => .inr

theorem step_cases (hstep : s.step l = some s') : Stepped s l s' := by
  cases l with
  | allocate request =>
    simp only [step, allocate] at hstep
    split at hstep
    · cases hstep
      exact stepped_empty _ request
    · split at hstep <;> cases hstep
      next hlock =>
      refine .locked _ (by simp [hlock]) fun a ha => ?_
      cases ha
      rfl
  | tryChunk =>
    simp only [step, tryChunk] at hstep
    split at hstep
    · next a hlock =>
      split at hstep
      · cases hstep
      · next wanted rounds hrounds =>
        cases hstep
        exact .tried a wanted rounds hlock hrounds
    · cases hstep
    · cases hstep
  | grow memory =>
    simp only [step, grow] at hstep
    split at hstep
    · next a hlock =>
      split at hstep
      · next hrounds =>
        split at hstep <;> cases hstep
        next hallows => exact .grown a memory hlock hrounds hallows
      · cases hstep
    · cases hstep
    · cases hstep
  | release i => exact .released i s' hstep
  | note k nowMs =>
    simp only [step, note] at hstep
    split at hstep
    · next hlock =>
      obtain ⟨ptr, -, rfl⟩ := Option.map_eq_some_iff.mp hstep
      exact .noted k ptr nowMs hlock
    · cases hstep
    · cases hstep
  | construct src =>
    obtain ⟨x, hx, rfl⟩ := Option.map_eq_some_iff.mp hstep
    exact stepped_construct hx _
  | assign dst src =>
    simp only [step, assign] at hstep
    split at hstep
    · cases hstep
      exact stepped_self _
    next hne =>
    split at hstep
    · next target x htarget hx =>
      split at hstep <;> cases hstep
      next hnull => exact stepped_assign hne htarget hnull hx _
    · cases hstep
  | trimIdle idleMs nowMs =>
    simp only [step, trimIdle] at hstep
    split at hstep
    · cases hstep
      exact stepped_self _
    · split at hstep <;> cases hstep
      next hlock => exact .locked _ (by simp [hlock]) (by simp)
  | trimChunk =>
    simp only [step, trimChunk] at hstep
    split at hstep
    · next t hlock =>
      split at hstep
      · cases hstep
        exact .locked _ (by simp [hlock]) (by simp)
      · next hi =>
        obtain ⟨chunk, hchunk, rfl⟩ := Option.map_eq_some_iff.mp hstep
        exact .trimmed t chunk hlock (Nat.lt_of_not_le hi) hchunk
    · cases hstep
    · cases hstep

end Moves

section Runs

variable {first : Shape} {maxBytes : Nat} {s : PoolState}

theorem step_inv (s : PoolState) (l : PoolLabel) (s' : PoolState) (h : PoolInv first maxBytes s)
    (hstep : s.step l = some s') : PoolInv first maxBytes s' := by
  cases step_cases hstep with
  | moved holders hheld hholders => exact h.moved hheld hholders h.rounds s.pending
  | locked lock hfree hrounds =>
    refine h.moved (fun _ => List.Perm.refl _) (fun _ => .inr) (fun a ha w hw => ?_) s.pending
    rw [hrounds a ha] at hw
    exact rounds_staging hw
  | tried a wanted rounds hlock hrounds => exact h.tried hlock hrounds
  | grown a memory hlock hrounds hallows => exact h.grownFor hallows
  | released i s' hrelease => exact h.released hrelease
  | noted k ptr nowMs hlock =>
    have hnoted := h.noted (map_noteRelease ptr nowMs s.pool.chunks)
    exact hnoted.moved (fun _ => List.Perm.refl _) (fun _ => .inr) h.rounds _
  | trimmed t chunk hlock hi hchunk =>
    have htrimmed := h.trimmed hi hchunk
    exact htrimmed.moved (fun _ => List.Perm.refl _) (fun _ => .inr) (by simp) s.pending

/-- The chunks that a step drops are empty, and the first one is not among them. -/
theorem step_keeps (h : PoolInv first maxBytes s) (hstep : s.step l = some s') {c : Shape}
    (hc : c ∈ s.pool.chunks.map shape) :
    c ∈ s'.pool.chunks.map shape ∨ (heldIn c.ptr s.holders = [] ∧ c ≠ first) := by
  cases step_cases hstep with
  | moved holders hheld hholders => exact .inl hc
  | locked lock hfree hrounds => exact .inl hc
  | tried a wanted rounds hlock hrounds =>
    refine .inl ?_
    unfold tryRound
    split
    · exact hc
    next chunk hchunk =>
    split
    · exact hc
    split
    · exact hc
    next start segment halloc =>
    obtain ⟨-, hdata, hsize, -, -, -⟩ :=
      (h.parted chunk (mem_of_getElem? hchunk)).allocate halloc
    have hshape : shape { chunk with segment, emptySinceMs := 0 } = chunk.shape := by
      simp [shape, hdata, hsize]
    simp only [PoolState.return, map_set_same shape hchunk hshape]
    exact hc
  | grown a memory hlock hrounds hallows =>
    refine .inl ?_
    unfold growFor
    split
    · exact hc
    · split <;> simp only [PoolState.return, map_append] <;> exact mem_append_left _ hc
  | released i s' hrelease =>
    obtain ⟨x, -, rfl⟩ := Option.map_eq_some_iff.mp hrelease
    simp only [shape_release]
    exact .inl hc
  | noted k ptr nowMs hlock =>
    have hshapes := congrArg (map Prod.fst) (map_noteRelease ptr nowMs s.pool.chunks)
    simp only [map_map, Function.comp_def] at hshapes
    simp only [hshapes]
    exact .inl hc
  | trimmed t chunk hlock hi hchunk => exact h.trimOne_keeps hi hchunk hc

/-- A staging request waits for its first chunk, and no staging lease is live. -/
structure Waits (request : Request) (s : PoolState) : Prop where
  lock : s.lock = .allocating { request, rounds := s.pool.rounds request }
  none : ∀ h ∈ s.holders, h.lease = {} ∨ h.request.leaseClass ≠ .staging

/-- While the request waits, the other threads can only give leases back and move them. -/
theorem step_waits (h : Waits request s) (hl : l ≠ .tryChunk) (hstep : s.step l = some s') :
    Waits request s' := by
  cases step_cases hstep with
  | moved holders hheld hholders =>
    exact ⟨h.lock, fun x hx => (hholders x hx).elim .inl (h.none x)⟩
  | locked lock hfree hrounds => exact absurd h.lock (hfree _)
  | tried a wanted rounds hlock hrounds => exact absurd rfl hl
  | grown a memory hlock hrounds hallows =>
    obtain rfl := PoolLock.allocating.inj (h.lock.symm.trans hlock)
    exact absurd hrounds (by simp [rounds])
  | released i s' hrelease =>
    obtain ⟨x, hx, rfl⟩ := Option.map_eq_some_iff.mp hrelease
    refine ⟨h.lock, fun y hy => ?_⟩
    rcases mem_or_eq_of_mem_set hy with hy | rfl
    · exact h.none y hy
    · exact .inl rfl
  | noted k ptr nowMs hlock => cases h.lock.symm.trans hlock
  | trimmed t chunk hlock hi hchunk => cases h.lock.symm.trans hlock

/-! ## What holds in every state -/

def Fits (request : Request) (c : Shape) : Prop :=
  0 < request.bytes ∧ isPowerOfTwo request.alignment = true ∧
    ∃ a, a % request.alignment = 0 ∧ c.data ≤ a ∧ a + request.bytes ≤ c.data + c.size

/-- The first chunk is the reserve, and it is empty: the request is granted there. -/
theorem Waits.granted (h : PoolInv first maxBytes s) (hw : Waits request s)
    (hstaging : first.stagingOnly) (hclass : request.leaseClass = .staging)
    (hfits : Fits request first) :
    ∃ start s', s.step .tryChunk = some s' ∧
      s'.holders = s.holders ++ [.granted first.ptr start request] := by
  have hreserve : s.pool.stagingReserveBytes ≠ 0 := by
    simpa using h.reserve.1.symm.trans hstaging
  obtain ⟨hbytes, halign, a, ha, hlow, hhigh⟩ := hfits
  obtain ⟨rest, hrest, -⟩ := h.shapes.first
  obtain ⟨chunk, chunks, hchunks, rfl, -⟩ := map_eq_cons_iff.mp hrest
  have hmem : chunk ∈ s.pool.chunks := by rw [hchunks]; exact mem_cons_self
  have hstaging : chunk.stagingOnly := hstaging
  have haffinity : chunk.affinity = -1 := h.reserve.2
  -- A lease in the reserve would be a staging lease.
  have hnone : heldIn chunk.ptr s.holders = [] := by
    unfold heldIn
    rw [map_eq_nil_iff, filter_eq_nil_iff]
    intro x hx hown
    rcases h.holds x hx with hnull | ⟨c, start, hc, hlease, -, hstag⟩
    · simp [hnull] at hown
    · have hptr : c.ptr = chunk.shape.ptr := by
        rw [hlease] at hown
        simpa [Holder.granted] using hown
      obtain rfl := h.shapes.inj hc (mem_map_of_mem hmem) hptr
      rcases hw.none x hx with hnull | hne
      · simp [hnull] at hown
      · exact hne (hstag hstaging)
  have hinv := h.parted chunk hmem
  rw [hnone] at hinv
  obtain ⟨hdata, hmax⟩ := h.shapes.memory chunk.shape (mem_map_of_mem hmem)
  obtain ⟨start, segment, halloc⟩ := hinv.exists_allocate hdata hmax hbytes halign ha hlow hhigh
  have hrounds : s.pool.rounds request = (-1, true) ::
      ((if 0 ≤ request.affinity then [(request.affinity, false)] else []) ++ [(-1, false)]) := by
    simp [rounds, hclass, hreserve]
  refine ⟨start, s.return (s.pool.chunks.set 0 { chunk with segment, emptySinceMs := 0 })
    (.granted chunk.ptr start request), ?_, rfl⟩
  simp only [step, tryChunk, hw.lock, hrounds, tryRound]
  simp [hchunks, haffinity, hstaging, halloc]

/-- What holds in a state of the pool that began with the first chunk. -/
structure Pooled (first : Shape) (maxBytes : Nat) (s : PoolState) : Prop where
  /-- A live lease is an aligned part of a chunk of the pool, of the size requested. -/
  inside : ∀ h ∈ s.holders, h.lease = {} ∨ ∃ c ∈ s.pool.chunks,
    h.lease.lease.owner = some c.ptr ∧ h.lease.lease.size = h.request.bytes ∧
      0 < h.lease.lease.size ∧ h.lease.lease.offset + h.lease.lease.size ≤ c.segment.size ∧
      (c.segment.data + h.lease.lease.offset) % h.request.alignment = 0
  /-- Live leases are disjoint in memory. -/
  disjoint : s.holders.Pairwise fun h h' => ∀ c ∈ s.pool.chunks, ∀ c' ∈ s.pool.chunks,
    h.lease.lease.owner = some c.ptr → h'.lease.lease.owner = some c'.ptr →
    Apart (c.segment.data + h.lease.lease.offset, h.lease.lease.size)
      (c'.segment.data + h'.lease.lease.offset, h'.lease.lease.size)
  /-- The free ranges of a chunk are in order and apart from each other. -/
  ordered : ∀ c ∈ s.pool.chunks, Ranges c.segment.free ∧
    ∀ e ∈ c.segment.free, e.1 + e.2 ≤ c.segment.size
  /-- They are the complement of the live leases in the chunk. -/
  complement : ∀ c ∈ s.pool.chunks, ∀ x < c.segment.size, InRanges c.segment.free x ↔
    ¬∃ h ∈ s.holders, h.lease.lease.owner = some c.ptr ∧ h.lease.lease.offset ≤ x ∧
      x < h.lease.lease.offset + h.lease.lease.size
  /-- The maximum is kept. -/
  committed : s.pool.committed ≤ maxBytes
  /-- The first chunk is the initial one. -/
  initial : (s.pool.chunks.map shape).head? = some first
  /-- No step drops the initial chunk, or one with a live lease. -/
  kept : ∀ l s', s.step l = some s' → ∀ c ∈ s.pool.chunks,
    (c.shape = first ∨ ∃ h ∈ s.holders, h.lease.lease.owner = some c.ptr) →
    ∃ c' ∈ s'.pool.chunks, c'.shape = c.shape
  /-- No connection lease is in the reserve. -/
  reserved : first.stagingOnly = true → ∀ h ∈ s.holders,
    h.lease.lease.owner = some first.ptr → h.request.leaseClass = .staging
  /-- Without a live staging lease, a staging request that fits the reserve is granted
      there, whatever the other threads do between its start and its first chunk. -/
  staging : first.stagingOnly = true →
    (∀ h ∈ s.holders, h.lease = {} ∨ h.request.leaseClass ≠ .staging) →
    ∀ request, request.leaseClass = .staging → Fits request first →
    ∀ others s', .tryChunk ∉ others → run step s (.allocate request :: others) = some s' →
      ∃ start s'', s'.step .tryChunk = some s'' ∧
        s''.holders = s'.holders ++ [.granted first.ptr start request]

theorem mem_heldIn {ptr : Nat} {holders : List Holder} {h : Holder} (hh : h ∈ holders)
    (hown : h.lease.lease.owner = some ptr) : h.range ∈ heldIn ptr holders :=
  mem_map_of_mem (mem_filter.mpr ⟨hh, by simpa using hown⟩)

theorem PoolInv.disjoint (h : PoolInv first maxBytes s) :
    s.holders.Pairwise fun x x' => ∀ c ∈ s.pool.chunks, ∀ c' ∈ s.pool.chunks,
      x.lease.lease.owner = some c.ptr → x'.lease.lease.owner = some c'.ptr →
      Apart (c.segment.data + x.lease.lease.offset, x.lease.lease.size)
        (c'.segment.data + x'.lease.lease.offset, x'.lease.lease.size) := by
  rw [pairwise_iff_getElem]
  intro i j hi hj hij c hc c' hc' hown hown'
  by_cases hptr : c.ptr = c'.ptr
  · -- In one chunk the leases are parted.
    have hshape : c.shape = c'.shape :=
      h.shapes.inj (mem_map_of_mem hc) (mem_map_of_mem hc') hptr
    have hdata : c.segment.data = c'.segment.data := congrArg Shape.data hshape
    have hpair := (h.parted c hc).disjoint
    rw [heldIn, pairwise_map, pairwise_filter, pairwise_iff_getElem] at hpair
    have hranges := hpair i j hi hj hij (by simpa using hown) (by simpa [hptr] using hown')
    simp only [Apart, Holder.range] at hranges ⊢
    omega
  · -- Chunks have memory of their own.
    have hne : c.shape ≠ c'.shape := fun heq => hptr (congrArg Shape.ptr heq)
    have hsymm : Std.Symm fun c d : Shape => Apart (c.data, c.size) (d.data, d.size) :=
      ⟨fun _ _ hcd => hcd.symm⟩
    have hblocks : Apart (c.segment.data, c.segment.size) (c'.segment.data, c'.segment.size) :=
      h.shapes.blocks.forall (mem_map_of_mem hc) (mem_map_of_mem hc') hne
    have hin := ((h.parted c hc).inside _ (mem_heldIn (getElem_mem hi) hown)).2
    have hin' := ((h.parted c' hc').inside _ (mem_heldIn (getElem_mem hj) hown')).2
    simp only [Apart, Holder.range] at hblocks hin hin' ⊢
    omega

theorem waits_of_allocate {c : Shape} (hfits : Fits request c)
    (hnone : ∀ h ∈ s.holders, h.lease = {} ∨ h.request.leaseClass ≠ .staging)
    (hstep : s.step (.allocate request) = some s') : Waits request s' := by
  have hargs : ¬(request.bytes = 0 ∨ isPowerOfTwo request.alignment = false) := by
    obtain ⟨hbytes, halign, -⟩ := hfits
    simp [halign, Nat.pos_iff_ne_zero.mp hbytes]
  simp only [step, allocate, if_neg hargs] at hstep
  split at hstep <;> cases hstep
  exact ⟨rfl, hnone⟩

theorem run_waits {others : List PoolLabel} (hothers : .tryChunk ∉ others) (hw : Waits request s)
    (h : PoolInv first maxBytes s) (hrun : run step s others = some s') :
    Waits request s' ∧ PoolInv first maxBytes s' := by
  induction others generalizing s with
  | nil => exact Option.some.inj hrun ▸ ⟨hw, h⟩
  | cons l others ih =>
    obtain ⟨s₁, hs₁, hrun⟩ := Option.bind_eq_some_iff.mp hrun
    rw [mem_cons, not_or] at hothers
    exact ih hothers.2 (step_waits hw (Ne.symm hothers.1) hs₁) (step_inv s l s₁ h hs₁) hrun

theorem PoolInv.pooled (h : PoolInv first maxBytes s) : Pooled first maxBytes s := by
  constructor
  case inside =>
    intro x hx
    rcases h.holds x hx with hnull | ⟨c, start, hc, hlease, haligned, -⟩
    · exact .inl hnull
    · obtain ⟨d, hd, rfl⟩ := mem_map.mp hc
      have hown : x.lease.lease.owner = some d.ptr := by rw [hlease]; rfl
      have hsize : x.lease.lease.size = x.request.bytes := by rw [hlease]; rfl
      have hoffset : x.lease.lease.offset = start := by rw [hlease]; rfl
      have hin := (h.parted d hd).inside _ (mem_heldIn hx hown)
      exact .inr ⟨d, hd, hown, hsize, hin.1, hin.2, by rw [hoffset]; exact haligned⟩
  case disjoint => exact h.disjoint
  case ordered => exact fun c hc => ⟨(h.parted c hc).ranges, (h.parted c hc).bounded⟩
  case complement =>
    intro c hc x hx
    rw [(h.parted c hc).complement x hx]
    simp only [InRanges, heldIn, mem_map, mem_filter, decide_eq_true_eq, Holder.range]
    refine not_congr ⟨?_, ?_⟩
    · rintro ⟨e, ⟨y, ⟨hy, hown⟩, rfl⟩, hxe⟩
      exact ⟨y, hy, hown, hxe⟩
    · rintro ⟨y, hy, hown, hxy⟩
      exact ⟨_, ⟨y, ⟨hy, hown⟩, rfl⟩, hxy⟩
  case committed =>
    have hsum := h.shapes.committed
    simpa [committed, shape, Function.comp_def] using hsum
  case initial =>
    obtain ⟨rest, hrest, -⟩ := h.shapes.first
    rw [hrest]
    rfl
  case kept =>
    intro l s' hstep c hc hwhy
    rcases step_keeps h hstep (mem_map_of_mem hc) with hkept | ⟨hnone, hne⟩
    · obtain ⟨c', hc', heq⟩ := mem_map.mp hkept
      exact ⟨c', hc', heq⟩
    · rcases hwhy with hfirst | ⟨x, hx, hown⟩
      · exact absurd hfirst hne
      · have hin := mem_heldIn hx hown
        rw [shape_ptr] at hnone
        rw [hnone] at hin
        cases hin
  case reserved =>
    intro hreserve x hx hown
    rcases h.holds x hx with hnull | ⟨c, start, hc, hlease, -, hclass⟩
    · simp [hnull] at hown
    · obtain ⟨rest, hrest, -⟩ := h.shapes.first
      have hptr : c.ptr = first.ptr := by
        rw [hlease] at hown
        simpa [Holder.granted] using hown
      have hmem : first ∈ s.pool.chunks.map shape := by
        rw [hrest]
        exact mem_cons_self
      obtain rfl := h.shapes.inj hc hmem hptr
      exact hclass hreserve
  case staging =>
    intro hreserve hnone request hclass hfits others s' hothers hrun
    obtain ⟨s₁, hs₁, hrun⟩ := Option.bind_eq_some_iff.mp hrun
    have hw := waits_of_allocate hfits hnone hs₁
    obtain ⟨hw', h'⟩ := run_waits hothers hw (step_inv s _ s₁ h hs₁) hrun
    exact hw'.granted h' hreserve hclass hfits

end Runs

/-! ## From `Init` on -/

theorem alignedReserve_ne_zero {stagingReserveBytes alignment : Nat}
    (halign : isPowerOfTwo alignment)
    (hmax : alignedReserve stagingReserveBytes alignment ≠ sizeMax) :
    (alignedReserve stagingReserveBytes alignment != 0) = decide (stagingReserveBytes ≠ 0) := by
  unfold alignedReserve at hmax ⊢
  by_cases hzero : stagingReserveBytes = 0
  · simp [hzero]
  · rw [if_neg hzero] at hmax ⊢
    have hge := (alignUpChecked_spec halign hmax).2
    have hne : alignUpChecked stagingReserveBytes alignment ≠ 0 := by omega
    simp [hzero, hne]

theorem init_inv {chunkBytes maxBytes alignment stagingReserveBytes : Nat} {memory : Memory}
    {pool : RecvSegmentPool}
    (hinit : init {} chunkBytes maxBytes alignment stagingReserveBytes memory = (pool, true))
    (hmemory : RecvSegmentPool.Allows {} (alignUpChecked chunkBytes alignment) memory) :
    ∃ first, pool.chunks.map shape = [first] ∧ first.size = alignUpChecked chunkBytes alignment ∧
      first.stagingOnly = decide (stagingReserveBytes ≠ 0) ∧
      PoolInv first (alignUpChecked maxBytes alignment) { pool } := by
  unfold init at hinit
  split at hinit
  · cases hinit
  next hargs =>
  dsimp only at hinit
  split at hinit
  · cases hinit
  next hsizes =>
  rw [if_neg (by simp)] at hinit
  split at hinit
  · cases hinit
  next hok =>
  obtain ⟨rfl, -⟩ := Prod.mk.inj hinit
  have halign : isPowerOfTwo alignment := by
    simp only [not_or, Bool.not_eq_false] at hargs
    exact hargs.1
  obtain ⟨hinv, hdata, hsize, -, -⟩ := segmentInv_init
    (Prod.ext rfl (by simpa using hok) : RecvSegment.init {} (alignUpChecked chunkBytes alignment)
      alignment memory.data = ((RecvSegment.init {} (alignUpChecked chunkBytes alignment) alignment
        memory.data).1, true))
  obtain ⟨hnull, hend, -⟩ := hmemory.2 _ hdata
  have hreserve : (alignedReserve stagingReserveBytes alignment != 0) =
      decide (stagingReserveBytes ≠ 0) :=
    alignedReserve_ne_zero halign fun heq => hsizes (.inr (.inr (.inl heq)))
  refine ⟨_, rfl, hsize, hreserve, ?_⟩
  refine ⟨⟨nodup_singleton _, pairwise_singleton _ _, fun c hc => ?_, ?_, ?_⟩, rfl,
    ⟨?_, rfl⟩, fun c hc => ?_, by simp, by simp⟩
  · obtain rfl := mem_singleton.mp hc
    refine ⟨hnull, ?_⟩
    simp only [shape, hsize]
    exact hend
  · simp only [map_cons, map_nil, shape, hsize, sum_cons, sum_nil]
    omega
  · exact ⟨[], rfl, by simp⟩
  · simp only [shape]
    by_cases hzero : alignedReserve stagingReserveBytes alignment = 0 <;> simp [hzero]
  · obtain rfl := mem_singleton.mp hc
    exact hinv

/-- The pool from a successful `Init` on, whatever the threads do. -/
theorem recv_segment_pool_invariant {chunkBytes maxBytes alignment stagingReserveBytes : Nat}
    {memory : Memory} {pool : RecvSegmentPool}
    (hinit : RecvSegmentPool.init {} chunkBytes maxBytes alignment stagingReserveBytes memory =
      (pool, true))
    (hmemory : RecvSegmentPool.Allows {} (alignUpChecked chunkBytes alignment) memory)
    {labels : List PoolLabel} {s : PoolState}
    (hrun : run PoolState.step { pool } labels = some s) :
    ∃ first, pool.chunks.map Chunk.shape = [first] ∧
      first.size = alignUpChecked chunkBytes alignment ∧
      first.stagingOnly = decide (stagingReserveBytes ≠ 0) ∧
      Pooled first (alignUpChecked maxBytes alignment) s := by
  obtain ⟨first, hfirst, hsize, hstaging, hinv⟩ := init_inv hinit hmemory
  exact ⟨first, hfirst, hsize, hstaging, (run_preserves step_inv hinv hrun).pooled⟩

/-- Two staging requests, one after the other. -/
def twoRequests : List PoolLabel :=
  [.allocate ⟨100, 128, -1, .staging⟩, .tryChunk, .allocate ⟨200, 128, -1, .staging⟩, .tryChunk]

/-- A pool with a reserve, in which two staging leases are live. -/
theorem recv_segment_pool_of_two_leases :
    ∃ first s, run PoolState.step
        { pool := (RecvSegmentPool.init {} 4096 8192 4096 4096 ⟨1, some 8192⟩).1 } twoRequests =
          some s ∧
      s.holders = [.granted 1 0 ⟨100, 128, -1, .staging⟩,
        .granted 1 128 ⟨200, 128, -1, .staging⟩] ∧ Pooled first 8192 s := by
  obtain ⟨first, -, -, -, h⟩ := recv_segment_pool_invariant
    (Prod.ext rfl (by decide) : RecvSegmentPool.init {} 4096 8192 4096 4096 ⟨1, some 8192⟩ =
      ((RecvSegmentPool.init {} 4096 8192 4096 4096 ⟨1, some 8192⟩).1, true)) (by decide)
    (rfl : run PoolState.step _ twoRequests = some _)
  exact ⟨first, _, rfl, by decide, h⟩

end DingoCache.Transport
