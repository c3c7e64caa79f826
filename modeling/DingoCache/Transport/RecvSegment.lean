import DingoCache.Library.RangeMap

/-!
# Receive Segments

`RecvSegment` of `src/transport/rdma_recv_segment.cc`: one block of memory, with its free
ranges in an ordered map from offset to length.  `Allocate` takes the first range in which
the aligned request fits, and `Release` joins what is given back with its neighbours.
-/

namespace DingoCache.Transport

open Library List Nat

variable {alignment bytes start base value a : Nat} {range : Nat × Nat} {free : List (Nat × Nat)}

/-! ## Alignment -/

def isPowerOfTwo (value : Nat) : Bool :=
  value != 0 && value &&& (value - 1) == 0

/-- The largest `size_t`. -/
def sizeMax : Nat := 2 ^ 64 - 1

def alignUpChecked (value alignment : Nat) : Nat :=
  if isPowerOfTwo alignment = false ∨ sizeMax - (alignment - 1) < value then sizeMax
  else
    -- The source masks the low bits away.
    (value + alignment - 1) - ((value + alignment - 1) &&& (alignment - 1))

theorem exists_of_isPowerOfTwo (h : isPowerOfTwo alignment) : ∃ k, alignment = 2 ^ k := by
  simp only [isPowerOfTwo, Bool.and_eq_true, bne_iff_ne, beq_iff_eq] at h
  exact (and_sub_one_eq_zero_iff_isPowerOfTwo h.1).mp h.2

theorem pos_of_isPowerOfTwo (h : isPowerOfTwo alignment) : 0 < alignment := by
  obtain ⟨k, rfl⟩ := exists_of_isPowerOfTwo h
  exact Nat.two_pow_pos k

theorem alignUpChecked_eq (halign : isPowerOfTwo alignment)
    (hroom : value ≤ sizeMax - (alignment - 1)) :
    alignUpChecked value alignment =
      (value + alignment - 1) - (value + alignment - 1) % alignment := by
  have hnot : ¬(isPowerOfTwo alignment = false ∨ sizeMax - (alignment - 1) < value) := by
    rw [halign]
    simpa using hroom
  rw [alignUpChecked, if_neg hnot]
  obtain ⟨k, rfl⟩ := exists_of_isPowerOfTwo halign
  rw [and_two_pow_sub_one_eq_mod]

theorem alignUpChecked_spec (halign : isPowerOfTwo alignment)
    (h : alignUpChecked value alignment ≠ sizeMax) :
    alignUpChecked value alignment % alignment = 0 ∧ value ≤ alignUpChecked value alignment := by
  have hpos := pos_of_isPowerOfTwo halign
  by_cases hroom : value ≤ sizeMax - (alignment - 1)
  · rw [alignUpChecked_eq halign hroom]
    have hlt : (value + alignment - 1) % alignment < alignment := mod_lt _ hpos
    refine ⟨?_, by omega⟩
    exact mod_eq_zero_of_dvd (dvd_sub_mod _)
  · exact absurd (if_pos (.inr (by omega))) h

theorem alignUpChecked_le (halign : isPowerOfTwo alignment) (ha : a % alignment = 0)
    (hle : value ≤ a) (hmax : a ≤ sizeMax) : alignUpChecked value alignment ≤ a := by
  have hpos := pos_of_isPowerOfTwo halign
  obtain ⟨k, rfl⟩ := exists_of_isPowerOfTwo halign
  obtain ⟨q, rfl⟩ := dvd_of_mod_eq_zero ha
  -- The next multiple after `a` is still in the range of a `size_t`, or is its end.
  have hroom : value ≤ sizeMax - (2 ^ k - 1) := by
    by_cases hk : k ≤ 64
    · have hsplit : 2 ^ 64 = 2 ^ k * 2 ^ (64 - k) := by rw [← pow_add]; congr 1; omega
      have hq : q < 2 ^ (64 - k) := by
        by_contra hge
        have hmul : 2 ^ k * 2 ^ (64 - k) ≤ 2 ^ k * q := mul_le_mul_left _ (by omega)
        unfold sizeMax at hmax
        omega
      have hmul : 2 ^ k * (q + 1) ≤ 2 ^ k * 2 ^ (64 - k) := mul_le_mul_left _ hq
      rw [mul_add, mul_one] at hmul
      unfold sizeMax
      omega
    · have hbig : 2 ^ 64 ≤ 2 ^ k := Nat.pow_le_pow_right (by decide) (by omega)
      have hq : q = 0 := by
        by_contra hq
        have hmul : 2 ^ k * 1 ≤ 2 ^ k * q := mul_le_mul_left _ (by omega)
        unfold sizeMax at hmax
        omega
      subst hq
      omega
  rw [alignUpChecked_eq halign hroom]
  have hdiv := div_add_mod (value + 2 ^ k - 1) (2 ^ k)
  have hquot : (value + 2 ^ k - 1) / 2 ^ k ≤ q := by
    rw [div_le_iff_le_mul_add_pred hpos]
    omega
  have hmul : 2 ^ k * ((value + 2 ^ k - 1) / 2 ^ k) ≤ 2 ^ k * q := mul_le_mul_left _ hquot
  omega

/-! ## The segment -/

/-- `RecvSegment`; its address is 0 until it has its memory. -/
structure RecvSegment where
  data : Nat := 0
  size : Nat := 0
  alignment : Nat := 0
  free : List (Nat × Nat) := []
deriving DecidableEq

variable (segment : RecvSegment)

open RecvSegment

/-- `RecvSegment::Init`, with the address that `posix_memalign` gives. -/
def RecvSegment.init (bytes alignment : Nat) (raw : Option Nat) : RecvSegment × Bool :=
  if segment.data ≠ 0 then (segment, segment.size == bytes && segment.alignment == alignment)
  else if bytes = 0 ∨ isPowerOfTwo alignment = false ∨ bytes % alignment ≠ 0 ∨ alignment < 8 then
    (segment, false)
  else
    match raw with
    | none => (segment, false)
    | some data => ({ data, size := bytes, alignment, free := emplace 0 bytes segment.free }, true)

/-- The place of a request in a free range, as an offset. -/
def fit (base bytes alignment : Nat) (range : Nat × Nat) : Option Nat :=
  if sizeMax - base < range.1 then none
  else
    let absolute := alignUpChecked (base + range.1) alignment
    if absolute = sizeMax ∨ absolute < base then none
    else
      let start := absolute - base
      if start < range.1 ∨ range.2 < start - range.1 ∨ range.2 - (start - range.1) < bytes then none
      else some start

def carve (free : List (Nat × Nat)) (range : Nat × Nat) (start bytes : Nat) : List (Nat × Nat) :=
  let rangeEnd := range.1 + range.2
  let stop := start + bytes
  let free := eraseKey range.1 free
  let free := if range.1 < start then emplace range.1 (start - range.1) free else free
  if stop < rangeEnd then emplace stop (rangeEnd - stop) free else free

def firstFit (base bytes alignment : Nat) : List (Nat × Nat) → Option ((Nat × Nat) × Nat)
  | [] => none
  | range :: free =>
    match fit base bytes alignment range with
    | some start => some (range, start)
    | none => firstFit base bytes alignment free

/-- `RecvSegment::Allocate`: the offset of the lease, and the segment with it. -/
def RecvSegment.allocate (bytes alignment : Nat) : Option (Nat × RecvSegment) :=
  if segment.data = 0 ∨ bytes = 0 ∨ isPowerOfTwo alignment = false then none
  else
    (firstFit segment.data bytes alignment segment.free).map fun found =>
      (found.2, { segment with free := carve segment.free found.1 found.2 bytes })

/-- The start of what is given back, joined with a free range that ends there. -/
def joinLeft (free : List (Nat × Nat)) (offset : Nat) : Nat × List (Nat × Nat) :=
  match predecessor offset free with
  | some prev =>
    if prev.1 + prev.2 = offset then (prev.1, eraseKey prev.1 free) else (offset, free)
  | none => (offset, free)

/-- The end of what is given back, joined with a free range that starts there. -/
def joinRight (free : List (Nat × Nat)) (stop : Nat) : Nat × List (Nat × Nat) :=
  match lowerBound stop free with
  | some next => if next.1 = stop then (stop + next.2, eraseKey next.1 free) else (stop, free)
  | none => (stop, free)

def RecvSegment.release (offset bytes : Nat) : RecvSegment :=
  if bytes = 0 then segment
  else
    let left := joinLeft segment.free offset
    let right := joinRight left.2 (offset + bytes)
    { segment with free := emplace left.1 (right.1 - left.1) right.2 }

theorem RecvSegment.release_data (offset bytes : Nat) :
    (segment.release offset bytes).data = segment.data := by
  unfold RecvSegment.release
  split <;> rfl

theorem RecvSegment.release_size (offset bytes : Nat) :
    (segment.release offset bytes).size = segment.size := by
  unfold RecvSegment.release
  split <;> rfl

/-- The `used_bytes` of `RecvSegment::stats`. -/
def RecvSegment.usedBytes : Nat :=
  segment.size - totalLength segment.free

/-! ## Where a request fits -/

theorem fit_spec (halign : isPowerOfTwo alignment)
    (h : fit base bytes alignment range = some start) :
    range.1 ≤ start ∧ start + bytes ≤ range.1 + range.2 ∧ (base + start) % alignment = 0 := by
  unfold fit at h
  split at h
  · cases h
  dsimp only at h
  split at h
  · cases h
  next habs =>
  split at h
  · cases h
  next hin =>
  cases h
  obtain ⟨hmod, hle⟩ := alignUpChecked_spec halign fun heq => habs (.inl heq)
  have hback : base + (alignUpChecked (base + range.1) alignment - base) =
      alignUpChecked (base + range.1) alignment := by omega
  rw [hback]
  exact ⟨by omega, by omega, hmod⟩

theorem exists_fit (halign : isPowerOfTwo alignment) (ha : a % alignment = 0)
    (hlow : base + range.1 ≤ a) (hhigh : a + bytes ≤ base + range.1 + range.2) (hbytes : 0 < bytes)
    (hmax : base + range.1 + range.2 ≤ sizeMax) :
    ∃ start, fit base bytes alignment range = some start := by
  have hle := alignUpChecked_le halign ha hlow (by omega)
  have hne : alignUpChecked (base + range.1) alignment ≠ sizeMax := by omega
  have hge := (alignUpChecked_spec halign hne).2
  refine ⟨alignUpChecked (base + range.1) alignment - base, ?_⟩
  unfold fit
  rw [if_neg (by omega)]
  dsimp only
  rw [if_neg (by omega), if_neg (by omega)]

theorem firstFit_spec (h : firstFit base bytes alignment free = some (range, start)) :
    range ∈ free ∧ fit base bytes alignment range = some start := by
  induction free with
  | nil => exact absurd h (by simp [firstFit])
  | cons r free ih =>
    unfold firstFit at h
    split at h
    · next found hfit =>
      cases h
      exact ⟨mem_cons_self, hfit⟩
    · obtain ⟨hmem, hfit⟩ := ih h
      exact ⟨mem_cons_of_mem r hmem, hfit⟩

theorem exists_firstFit (hmem : range ∈ free) (hfit : fit base bytes alignment range = some start) :
    ∃ found, firstFit base bytes alignment free = some found := by
  induction free with
  | nil => cases hmem
  | cons r free ih =>
    unfold firstFit
    split
    · exact ⟨_, rfl⟩
    · next hnone =>
      refine ih ((mem_cons.mp hmem).resolve_left ?_)
      rintro rfl
      cases hfit.symm.trans hnone

/-! ## The free ranges and the held ones -/

/-- The ranges held in the segment and its free ranges are a partition of it. -/
structure SegmentInv (segment : RecvSegment) (held : List (Nat × Nat)) : Prop where
  ranges : Ranges segment.free
  bounded : ∀ e ∈ segment.free, e.1 + e.2 ≤ segment.size
  inside : ∀ e ∈ held, 0 < e.2 ∧ e.1 + e.2 ≤ segment.size
  disjoint : held.Pairwise Apart
  complement : ∀ x < segment.size, InRanges segment.free x ↔ ¬InRanges held x
  ledger : totalLength segment.free + totalLength held = segment.size

section

variable {segment : RecvSegment} {held : List (Nat × Nat)}

/-- A segment with its memory is free from the start to the end. -/
theorem segmentInv_init {raw : Option Nat} {segment : RecvSegment}
    (h : init {} bytes alignment raw = (segment, true)) :
    SegmentInv segment [] ∧ raw = some segment.data ∧ segment.size = bytes ∧ 0 < bytes ∧
      bytes % alignment = 0 := by
  unfold init at h
  rw [if_neg (by simp)] at h
  split at h
  · cases h
  next hargs =>
  split at h
  · cases h
  next data =>
  obtain ⟨rfl, -⟩ := Prod.mk.inj h
  have hpos : 0 < bytes := by omega
  refine ⟨⟨⟨pairwise_singleton _ _, ?_⟩, ?_, by simp, List.Pairwise.nil, fun x hx => ?_, ?_⟩,
    rfl, rfl, hpos, by omega⟩
  · simpa [emplace] using hpos
  · simp [emplace]
  · simpa [emplace, InRanges] using hx
  · simp [emplace, totalLength]

theorem SegmentInv.congr (h : SegmentInv segment held) {held' : List (Nat × Nat)}
    (hperm : held.Perm held') : SegmentInv segment held' where
  ranges := h.ranges
  bounded := h.bounded
  inside := fun e he => h.inside e (hperm.mem_iff.mpr he)
  disjoint := hperm.pairwise h.disjoint fun hab => hab.symm
  complement := fun x hx => (h.complement x hx).trans (not_congr (inRanges_congr hperm x))
  ledger := by rw [← totalLength_congr hperm]; exact h.ledger

theorem SegmentInv.usedBytes_eq_zero (h : SegmentInv segment held) :
    segment.usedBytes = 0 ↔ held = [] := by
  have hledger := h.ledger
  unfold usedBytes
  constructor
  · intro hzero
    cases held with
    | nil => rfl
    | cons e held =>
      have hpos := (h.inside e mem_cons_self).1
      simp only [totalLength, map_cons, sum_cons] at hledger hzero
      omega
  · rintro rfl
    simp only [totalLength, map_nil, sum_nil] at hledger ⊢
    omega

theorem SegmentInv.apart_of_free (h : SegmentInv segment held) {e f : Nat × Nat}
    (he : e ∈ segment.free) (hf : f ∈ held) : Apart e f := by
  have hpos := h.ranges.nonempty e he
  have hin := h.inside f hf
  have hbound := h.bounded e he
  by_contra hover
  simp only [Apart, not_or, not_le] at hover
  -- The later of the two starts is in both.
  have hx : max e.1 f.1 < segment.size := by omega
  refine (h.complement _ hx).mp ⟨e, he, by omega, by omega⟩ ⟨f, hf, by omega, by omega⟩

/-- Placing a request takes its positions from the free ones. -/
theorem carve_spec (h : Ranges free) (hmem : range ∈ free) (hlow : range.1 ≤ start)
    (hhigh : start + bytes ≤ range.1 + range.2) (hbytes : 0 < bytes) :
    Ranges (carve free range start bytes) ∧ (∀ x, InRanges (carve free range start bytes) x ↔
        InRanges free x ∧ ¬(start ≤ x ∧ x < start + bytes)) ∧
      totalLength (carve free range start bytes) + bytes = totalLength free ∧
      ∀ e ∈ carve free range start bytes, ∃ f ∈ free, e.1 + e.2 ≤ f.1 + f.2 := by
  have hold := h.extends_eraseKey hmem
  have hrest : ∀ e ∈ eraseKey range.1 free, Gapped range e := fun e he => by
    obtain ⟨he, hkey⟩ := mem_eraseKey.mp he
    exact h.apart hmem he fun heq => hkey (heq ▸ rfl)
  have hleft : Extends (eraseKey range.1 free) range.1 (start - range.1)
      (if range.1 < start then emplace range.1 (start - range.1) (eraseKey range.1 free)
        else eraseKey range.1 free) := by
    refine (h.eraseKey range.1).extends_ite (by omega) fun hpos e he => ?_
    rcases hrest e he with hlt | hlt
    · exact .inl (by simp only; omega)
    · exact .inr hlt
  have hright := hleft.ranges.extends_ite (k := start + bytes)
    (v := range.1 + range.2 - (start + bytes)) (c := start + bytes < range.1 + range.2)
    (by omega) fun hpos e he => by
      rcases hleft.mem e he with he | ⟨rfl, hpos'⟩
      · rcases hrest e he with hlt | hlt
        · exact .inl (by simp only; omega)
        · exact .inr (by simp only; omega)
      · exact .inr (by simp only; omega)
  refine ⟨hright.ranges, fun x => ?_, ?_, fun e he => ?_⟩
  · -- The rest of the ranges is apart from the carved one.
    have hsep : InRanges (eraseKey range.1 free) x → ¬(range.1 ≤ x ∧ x < range.1 + range.2) := by
      rintro ⟨e, he, hex⟩ hrx
      rcases hrest e he with hlt | hlt <;> omega
    have hnew : InRanges (carve free range start bytes) x ↔ _ := hright.covers x
    rw [hnew, hleft.covers, hold.covers]
    by_cases hc : InRanges (eraseKey range.1 free) x
    · have := hsep hc
      simp only [hc, true_or, true_and, true_iff]
      omega
    · simp only [hc, false_or]
      omega
  · have htotal := hright.total
    have hltotal := hleft.total
    have hototal := hold.total
    simp only [carve] at htotal ⊢
    omega
  · rcases hright.mem e he with he | ⟨rfl, -⟩
    · rcases hleft.mem e he with he | ⟨rfl, -⟩
      · exact ⟨e, (mem_eraseKey.mp he).1, le_rfl⟩
      · exact ⟨range, hmem, by simp only; omega⟩
    · exact ⟨range, hmem, by simp only; omega⟩

theorem SegmentInv.allocate (h : SegmentInv segment held) {segment' : RecvSegment}
    (halloc : segment.allocate bytes alignment = some (start, segment')) :
    SegmentInv segment' ((start, bytes) :: held) ∧ segment'.data = segment.data ∧
      segment'.size = segment.size ∧ 0 < bytes ∧ isPowerOfTwo alignment ∧
      (segment.data + start) % alignment = 0 := by
  unfold RecvSegment.allocate at halloc
  split at halloc
  · cases halloc
  next hargs =>
  obtain ⟨hbytes, halign⟩ : 0 < bytes ∧ isPowerOfTwo alignment := by
    simp only [not_or, Bool.not_eq_false] at hargs
    exact ⟨pos_of_ne_zero hargs.2.1, hargs.2.2⟩
  obtain ⟨⟨range, found⟩, hfound, hres⟩ := Option.map_eq_some_iff.mp halloc
  cases hres
  obtain ⟨hmem, hfit⟩ := firstFit_spec hfound
  obtain ⟨hlow, hhigh, hmod⟩ := fit_spec halign hfit
  obtain ⟨hranges, hcovers, htotal, hbound⟩ := carve_spec h.ranges hmem hlow hhigh hbytes
  have hsize := h.bounded range hmem
  refine ⟨⟨hranges, fun e he => ?_, fun e he => ?_, ?_, fun x hx => ?_, ?_⟩, rfl, rfl, hbytes,
    halign, hmod⟩
  · obtain ⟨f, hf, hle⟩ := hbound e he
    exact hle.trans (h.bounded f hf)
  · rcases mem_cons.mp he with rfl | he
    · exact ⟨hbytes, hhigh.trans hsize⟩
    · exact h.inside e he
  · rw [pairwise_cons]
    refine ⟨fun e he => ?_, h.disjoint⟩
    -- The new range is in a free one, which no held range overlaps.
    rcases h.apart_of_free hmem he with hle | hle
    · exact .inl (by simp only; omega)
    · exact .inr (by simp only; omega)
  · rw [inRanges_cons, not_or, ← h.complement x hx, hcovers, and_comm]
  · have hledger := h.ledger
    simp only [totalLength, map_cons, sum_cons] at htotal hledger ⊢
    omega

/-- A request with an aligned place in an empty segment is granted. -/
theorem SegmentInv.exists_allocate (h : SegmentInv segment []) (hdata : segment.data ≠ 0)
    (hmax : segment.data + segment.size ≤ sizeMax) (hbytes : 0 < bytes)
    (halign : isPowerOfTwo alignment) (ha : a % alignment = 0) (hlow : segment.data ≤ a)
    (hhigh : a + bytes ≤ segment.data + segment.size) :
    ∃ start segment', segment.allocate bytes alignment = some (start, segment') := by
  have hfree : ∀ x < segment.size, InRanges segment.free x := fun x hx =>
    (h.complement x hx).mpr (by simp [InRanges])
  -- The range from 0 on is the whole segment, as the position after it would be covered too.
  obtain ⟨e, he, hzero, -⟩ := hfree 0 (by omega)
  have hwhole : e.2 = segment.size := by
    have hbound := h.bounded e he
    by_contra hne
    obtain ⟨f, hf, hf1, hf2⟩ := hfree e.2 (by omega)
    have hdiff : e ≠ f := by
      rintro rfl
      omega
    rcases h.ranges.apart he hf hdiff with hlt | hlt <;> omega
  have hstart : e.1 = 0 := by omega
  obtain ⟨start, hfit⟩ : ∃ start, fit segment.data bytes alignment e = some start :=
    exists_fit halign ha (by omega) (by omega) hbytes (by omega)
  obtain ⟨found, hfound⟩ := exists_firstFit he hfit
  have hargs : ¬(segment.data = 0 ∨ bytes = 0 ∨ isPowerOfTwo alignment = false) := by
    simp [hdata, halign, pos_iff_ne_zero.mp hbytes]
  rw [RecvSegment.allocate, if_neg hargs, hfound]
  exact ⟨_, _, rfl⟩

theorem joinLeft_spec {offset : Nat} (h : Ranges free)
    (hapart : ∀ e ∈ free, Apart e (offset, bytes)) :
    (joinLeft free offset).1 ≤ offset ∧
      Extends (joinLeft free offset).2 (joinLeft free offset).1 (offset - (joinLeft free offset).1)
        free ∧
      Ranges (joinLeft free offset).2 ∧
      (∀ e ∈ (joinLeft free offset).2, e ∈ free) ∧
      ∀ e ∈ (joinLeft free offset).2,
        e.1 + e.2 < (joinLeft free offset).1 ∨ offset + bytes ≤ e.1 := by
  by_cases hprev : ∃ e ∈ free, e.1 + e.2 = offset
  · obtain ⟨prev, hmem, rfl⟩ := hprev
    have hjoin : joinLeft free (prev.1 + prev.2) = (prev.1, eraseKey prev.1 free) := by
      simp [joinLeft, h.predecessor_eq hmem]
    rw [hjoin]
    refine ⟨le_add_right _ _, ?_, h.eraseKey _, fun e he => (mem_eraseKey.mp he).1, fun e he => ?_⟩
    · rw [Nat.add_sub_cancel_left]
      exact h.extends_eraseKey hmem
    · obtain ⟨hmem', hkey⟩ := mem_eraseKey.mp he
      have hpos := h.nonempty e hmem'
      have hover := hapart e hmem'
      simp only [Apart] at hover
      rcases h.apart hmem hmem' (fun heq => hkey (heq ▸ rfl)) with hlt | hlt
      · exact .inr (by omega)
      · exact .inl hlt
  · have hjoin : joinLeft free offset = (offset, free) := by
      unfold joinLeft
      split
      · next prev hprev' => exact if_neg fun heq => hprev ⟨prev, mem_of_predecessor hprev', heq⟩
      · rfl
    rw [hjoin]
    refine ⟨le_rfl, ?_, h, fun e he => he, fun e he => ?_⟩
    · rw [Nat.sub_self]
      exact h.extends_empty offset
    · have hne : e.1 + e.2 ≠ offset := fun heq => hprev ⟨e, he, heq⟩
      have hover := hapart e he
      simp only [Apart] at hover
      omega

theorem joinRight_spec {first stop : Nat} (h : Ranges free)
    (hapart : ∀ e ∈ free, e.1 + e.2 < first ∨ stop ≤ e.1) (hfirst : first ≤ stop) :
    stop ≤ (joinRight free stop).1 ∧
      Extends (joinRight free stop).2 stop ((joinRight free stop).1 - stop) free ∧
      Ranges (joinRight free stop).2 ∧
      ((joinRight free stop).1 = stop ∨ ∃ e ∈ free, (joinRight free stop).1 = e.1 + e.2) ∧
      ∀ e ∈ (joinRight free stop).2, e ∈ free ∧
        (e.1 + e.2 < first ∨ (joinRight free stop).1 < e.1) := by
  by_cases hnext : ∃ e ∈ free, e.1 = stop
  · obtain ⟨next, hmem, rfl⟩ := hnext
    have hjoin : joinRight free next.1 = (next.1 + next.2, eraseKey next.1 free) := by
      simp [joinRight, h.lowerBound_eq hmem]
    rw [hjoin]
    refine ⟨le_add_right _ _, ?_, h.eraseKey _, .inr ⟨next, hmem, rfl⟩, fun e he => ?_⟩
    · rw [Nat.add_sub_cancel_left]
      exact h.extends_eraseKey hmem
    · obtain ⟨hmem', hkey⟩ := mem_eraseKey.mp he
      refine ⟨hmem', ?_⟩
      have hside := hapart e hmem'
      rcases h.apart hmem hmem' (fun heq => hkey (heq ▸ rfl)) with hlt | hlt
      · exact .inr hlt
      · exact .inl (by omega)
  · have hjoin : joinRight free stop = (stop, free) := by
      unfold joinRight
      split
      · next next hnext' => exact if_neg fun heq => hnext ⟨next, mem_of_lowerBound hnext', heq⟩
      · rfl
    rw [hjoin]
    refine ⟨le_rfl, ?_, h, .inl rfl, fun e he => ⟨he, ?_⟩⟩
    · rw [Nat.sub_self]
      exact h.extends_empty stop
    · have hne : e.1 ≠ stop := fun heq => hnext ⟨e, he, heq⟩
      rcases hapart e he with hlt | hle
      · exact .inl hlt
      · exact .inr (by simp only; omega)

theorem SegmentInv.release {offset : Nat} (h : SegmentInv segment ((offset, bytes) :: held)) :
    SegmentInv (segment.release offset bytes) held := by
  obtain ⟨hbytes, hsize⟩ := h.inside _ mem_cons_self
  have hover : ∀ e ∈ segment.free, Apart e (offset, bytes) := fun e he =>
    h.apart_of_free he mem_cons_self
  obtain ⟨hle, hleft, hranges, hsub, hapart⟩ := joinLeft_spec h.ranges hover
  rw [RecvSegment.release, if_neg (pos_iff_ne_zero.mp hbytes)]
  dsimp only
  generalize joinLeft segment.free offset = left at hle hleft hranges hsub hapart ⊢
  obtain ⟨hge, hright, hranges', hend, hapart'⟩ :=
    joinRight_spec hranges hapart (show left.1 ≤ offset + bytes by omega)
  generalize joinRight left.2 (offset + bytes) = right at hge hright hranges' hend hapart' ⊢
  simp only at hbytes hsize
  have hnew : Extends right.2 left.1 (right.1 - left.1)
      (emplace left.1 (right.1 - left.1) right.2) := by
    refine hranges'.extends_emplace (by omega) fun e he => ?_
    rcases (hapart' e he).2 with hlt | hlt
    · exact .inr hlt
    · exact .inl (by simp only; omega)
  refine ⟨hnew.ranges, fun e he => ?_, fun e he => h.inside e (mem_cons_of_mem _ he),
    h.disjoint.of_cons, fun x hx => ?_, ?_⟩
  · have hold : ∀ f ∈ left.2, f.1 + f.2 ≤ segment.size := fun f hf =>
      h.bounded f (hsub f hf)
    rcases hnew.mem e he with he | ⟨rfl, -⟩
    · exact hold e (hapart' e he).1
    · rcases hend with hend | ⟨f, hf, hend⟩
      · simp only
        omega
      · have := hold f hf
        simp only
        omega
  · have hfirst := h.complement x hx
    rw [inRanges_cons, hleft.covers, hright.covers] at hfirst
    rw [hnew.covers]
    have hheld : InRanges held x → ¬(offset ≤ x ∧ x < offset + bytes) := by
      rintro ⟨f, hf, hfx⟩ hox
      have hdisjoint := rel_of_pairwise_cons h.disjoint hf
      simp only [Apart] at hdisjoint
      omega
    by_cases hc : InRanges right.2 x
    · simp only [hc, true_or, true_iff, not_or] at hfirst ⊢
      exact hfirst.2
    · by_cases hh : InRanges held x
      · have := hheld hh
        simp only [hc, hh, false_or, or_true, not_true, iff_false] at hfirst ⊢
        omega
      · simp only [hc, hh, false_or, or_false, not_false_eq_true, iff_true] at hfirst ⊢
        omega
  · have hledger := h.ledger
    have hltotal := hleft.total
    have hrtotal := hright.total
    have hntotal := hnew.total
    simp only [totalLength, map_cons, sum_cons] at hledger hltotal hrtotal hntotal ⊢
    omega

end

end DingoCache.Transport
