import DingoCache.Library.ClockRing

/-!
# Families of Rings and Lists over One Link Table

Records of a table are grouped (by class, by owner), and the members of every
group are threaded on a ring or list of their own through the same link table.

- `RingFamily L ring grp`: for every group `c`, the ring `ring c` enumerates the
  records `i` with `grp i = some c`.
- `ListFamily L head grp`: the same for lists.

Linking, unlinking, refreshing and hand moves change one group and frame the
others, since groups have no record in common.
-/

namespace DingoCache.Library

open Function (update update_of_ne)

variable {L L' : Links} {ring : Nat → Ring} {head : Nat → Option Nat} {grp : Nat → Option Nat}
  {c x : Nat} {s : List Nat}

/-! ## Families of sequences -/

/-- Every group's representation `rep c` stands for a sequence of the group's members. -/
def Family {ρ : Type} (R : Links → ρ → List Nat → Prop) (L : Links) (rep : Nat → ρ)
    (grp : Nat → Option Nat) : Prop :=
  ∀ c, ∃ s, R L (rep c) s ∧ ∀ i, i ∈ s ↔ grp i = some c

/-- What a representation stands for depends on the links of its members only. -/
def Local {ρ : Type} (R : Links → ρ → List Nat → Prop) : Prop :=
  ∀ {L L' r s}, R L r s → (∀ i ∈ s, L'.prev i = L.prev i) → (∀ i ∈ s, L'.next i = L.next i) →
    R L' r s

section Family

variable {ρ : Type} {R : Links → ρ → List Nat → Prop} {rep : Nat → ρ} {r : ρ}

/-- Replace one group, when the links of the other groups are kept. -/
theorem Family.replace {grp' : Nat → Option Nat} (hR : Local R) (h : Family R L rep grp)
    (hs : R L' r s) (hmem : ∀ i, i ∈ s ↔ grp' i = some c)
    (hother : ∀ i c', c' ≠ c → (grp' i = some c' ↔ grp i = some c'))
    (hlink : ∀ i c', c' ≠ c → grp i = some c' → L'.prev i = L.prev i ∧ L'.next i = L.next i) :
    Family R L' (update rep c r) grp' := by
  intro c'
  rcases eq_or_ne c' c with rfl | hc
  · exact ⟨s, by simpa using hs, hmem⟩
  · obtain ⟨s', hs', hmem'⟩ := h c'
    refine ⟨s', ?_, fun i => (hmem' i).trans (hother i c' hc).symm⟩
    rw [update_of_ne hc]
    exact hR hs' (fun i hi => (hlink i c' hc ((hmem' i).mp hi)).1)
      fun i hi => (hlink i c' hc ((hmem' i).mp hi)).2

private theorem not_mem_of_group (hmem : ∀ i, i ∈ s ↔ grp i = some c) {i c' : Nat} (hc : c' ≠ c)
    (hi : grp i = some c') : i ∉ s := by
  rw [hmem, hi]
  simpa using hc

theorem Local.clear (hR : Local R) (h : R L r s) (hx : x ∉ s) : R (L.clear x) r s :=
  hR h (fun i hi => by simp [Links.clear, ne_of_mem_of_not_mem hi hx])
    fun i hi => by simp [Links.clear, ne_of_mem_of_not_mem hi hx]

/-- A record of no group, with its links cleared, enters group `c`. -/
theorem Family.enter {s' : List Nat} (hR : Local R) (h : Family R L rep grp) (hx : grp x = none)
    (hmem : ∀ i, i ∈ s ↔ grp i = some c) (hs : R L' r s') (hadd : ∀ i, i ∈ s' ↔ i = x ∨ i ∈ s)
    (hframe : ∀ i, i ∉ s → i ≠ x →
      L'.prev i = (L.clear x).prev i ∧ L'.next i = (L.clear x).next i) :
    Family R L' (update rep c r) (update grp x (some c)) := by
  refine h.replace hR hs (fun i => ?_) (fun i c' hc => ?_) fun i c' hc hi => ?_
  · by_cases hi : i = x
    · simp [hadd, hi]
    · simp [hadd, hi, hmem]
  · by_cases hi : i = x
    · simp [hi, hx, Ne.symm hc]
    · simp [hi]
  · have hix : i ≠ x := by
      rintro rfl
      simp [hx] at hi
    simpa [Links.clear, hix] using hframe i (not_mem_of_group hmem hc hi) hix

theorem Family.leave {s' : List Nat} (hR : Local R) (h : Family R L rep grp) (hx : grp x = some c)
    (hmem : ∀ i, i ∈ s ↔ grp i = some c) (hs : R L' r s') (hdel : ∀ i, i ∈ s' ↔ i ≠ x ∧ i ∈ s)
    (hframe : ∀ i, i ∉ s → L'.prev i = L.prev i ∧ L'.next i = L.next i) :
    Family R (L'.clear x) (update rep c r) (update grp x none) := by
  refine h.replace hR (hR.clear hs (by simp [hdel])) (fun i => ?_) (fun i c' hc => ?_)
    fun i c' hc hi => ?_
  · by_cases hi : i = x
    · simp [hdel, hi]
    · simp [hdel, hi, hmem]
  · by_cases hi : i = x
    · simp [hi, hx, Ne.symm hc]
    · simp [hi]
  · have hix : i ≠ x := by
      rintro rfl
      simp [hx, Ne.symm hc] at hi
    simpa [Links.clear, hix] using hframe i (not_mem_of_group hmem hc hi)

end Family

/-! ## Rings -/

/-- The rings of the groups. -/
def RingFamily : Links → (Nat → Ring) → (Nat → Option Nat) → Prop := Family IsRing

/-- Ring `r` enumerates the indices with `P`, each once, and its hand is one of them. -/
def RingOf (L : Links) (r : Ring) (P : Nat → Prop) : Prop :=
  ∃ s : List Nat, IsRing L r s ∧ s.Nodup ∧ (∀ i, i ∈ s ↔ P i) ∧
    (∀ i, r.hand = some i → P i) ∧ (r.hand = none ↔ ∀ i, ¬P i)

theorem RingFamily.empty (h : ∀ c, ring c = {}) : RingFamily L ring fun _ => none :=
  fun c => ⟨[], by rw [h]; exact IsRing.empty L, fun _ => ⟨nofun, nofun⟩⟩

theorem IsRing.local : Local IsRing := IsRing.congr

theorem RingFamily.link (h : RingFamily L ring grp) (hx : grp x = none) (c : Nat) :
    RingFamily (linkBeforeHand (L.clear x) (ring c) x).1
      (update ring c (linkBeforeHand (L.clear x) (ring c) x).2)
      (update grp x (some c)) := by
  obtain ⟨s, hs, hmem⟩ := h c
  have hxs : x ∉ s := by simp [hmem, hx]
  have hclear := IsRing.local.clear hs hxs
  exact Family.enter IsRing.local h hx hmem
    (hclear.linkBeforeHand hxs fun _ => by simp [Links.clear]) (by simp [or_comm])
    fun i hi hix => hclear.linkBeforeHand_frame hi hix

theorem RingFamily.unlink (h : RingFamily L ring grp) (hx : grp x = some c) :
    RingFamily ((unlinkRing L (ring c) x).1.clear x)
      (update ring c (unlinkRing L (ring c) x).2) (update grp x none) := by
  obtain ⟨s, hs, hmem⟩ := h c
  have hxs : x ∈ s := (hmem x).mpr hx
  exact Family.leave IsRing.local h hx hmem (hs.unlink hxs)
    (fun i => hs.nodup.mem_erase_iff) fun i hi => hs.unlink_frame hxs hi

theorem RingFamily.moveBehindHand (h : RingFamily L ring grp) (hx : grp x = some c) :
    RingFamily (moveBehindHand L (ring c) x).1
      (update ring c (Library.moveBehindHand L (ring c) x).2) grp := by
  obtain ⟨s, hs, hmem⟩ := h c
  have hxs : x ∈ s := (hmem x).mpr hx
  refine Family.replace IsRing.local h (hs.moveBehindHand hxs) (fun i => ?_) (fun _ _ _ => Iff.rfl)
    fun i c' hc hi => hs.moveBehindHand_frame hxs (not_mem_of_group hmem hc hi)
  rw [← hmem i, List.mem_append, List.mem_singleton, hs.nodup.mem_erase_iff]
  rcases eq_or_ne i x with rfl | hi
  · simpa using hxs
  · simp [hi]

theorem IsRing.hand_or_head {r : Ring} (h : IsRing L r s) : r.hand.or r.head = s.head? := by
  cases s with
  | nil =>
    obtain ⟨l₁, l₂, hs, hl, hh, -⟩ := h
    obtain ⟨rfl, rfl⟩ := List.append_eq_nil_iff.mp hs.symm
    simp [hh, hl.head_eq]
  | cons x t => simp [h.hand_eq]

theorem RingFamily.hand_spec (h : RingFamily L ring grp)
    (hx : (ring c).hand.or (ring c).head = some x) : grp x = some c := by
  obtain ⟨s, hs, hmem⟩ := h c
  rw [hs.hand_or_head] at hx
  exact (hmem x).mp (List.mem_of_head? hx)

theorem RingFamily.advance (h : RingFamily L ring grp)
    (hx : (ring c).hand.or (ring c).head = some x) :
    RingFamily L (update ring c (advanceHand L (ring c) x)) grp := by
  obtain ⟨s, hs, hmem⟩ := h c
  rw [hs.hand_or_head] at hx
  obtain ⟨t, rfl⟩ := List.head?_eq_some_iff.mp hx
  exact Family.replace IsRing.local h hs.advance (fun i => Iff.trans (by simp [or_comm]) (hmem i))
    (fun _ _ _ => Iff.rfl) fun _ _ _ _ => ⟨rfl, rfl⟩

/-- One ring as a family whose only group is `0`. -/
def soloRing (g : Ring) (c : Nat) : Ring := if c = 0 then g else {}

@[simp] theorem soloRing_zero (g : Ring) : soloRing g 0 = g := rfl

@[simp] theorem update_soloRing (g g' : Ring) : update (soloRing g) 0 g' = soloRing g' := by
  funext c
  by_cases hc : c = 0 <;> simp [soloRing, hc]

/-! ## Lists -/

/-- The lists of the groups. -/
def ListFamily : Links → (Nat → Option Nat) → (Nat → Option Nat) → Prop := Family IsList

theorem ListFamily.empty (h : ∀ c, head c = none) : ListFamily L head fun _ => none :=
  fun c => ⟨[], by rw [h]; exact IsList.nil L, fun _ => ⟨nofun, nofun⟩⟩

theorem IsList.local : Local IsList := fun h hp hn => h.congr hp hn

theorem ListFamily.pushFront (h : ListFamily L head grp) (hx : grp x = none) (c : Nat) :
    ListFamily ((L.clear x).pushFront (head c) x) (update head c (some x))
      (update grp x (some c)) := by
  obtain ⟨l, hl, hmem⟩ := h c
  have hxl : x ∉ l := by simp [hmem, hx]
  have hclear := IsList.local.clear hl hxl
  exact Family.enter IsList.local h hx hmem (hclear.pushFront hxl (by simp [Links.clear]))
    (by simp) fun i hi hix => hclear.pushFront_frame hi hix

theorem ListFamily.unlink (h : ListFamily L head grp) (hx : grp x = some c) :
    ListFamily ((L.unlink x).clear x) (update head c (L.headUnlink (head c) x))
      (update grp x none) := by
  obtain ⟨l, hl, hmem⟩ := h c
  have hxl : x ∈ l := (hmem x).mpr hx
  obtain ⟨l₁, l₂, rfl⟩ := List.append_of_mem hxl
  have hnd := hl.nodup
  rw [List.nodup_append, List.nodup_cons] at hnd
  obtain ⟨-, ⟨hx₂, -⟩, hdisj⟩ := hnd
  refine Family.leave IsList.local h hx hmem hl.unlink (fun i => ?_)
    fun i hi => hl.unlink_frame hxl hi
  rcases eq_or_ne i x with rfl | hi
  · simpa using ⟨fun hm => hdisj i hm i (by simp) rfl, hx₂⟩
  · simp [hi]

theorem ListFamily.head_spec (h : ListFamily L head grp) (hx : head c = some x) :
    grp x = some c := by
  obtain ⟨l, hl, hmem⟩ := h c
  exact (hmem x).mp (List.mem_of_head? (hl.head_eq ▸ hx))

theorem ListFamily.head_eq_none (h : ListFamily L head grp) :
    head c = none ↔ ∀ i, grp i ≠ some c := by
  obtain ⟨l, hl, hmem⟩ := h c
  rw [hl.head_eq, List.head?_eq_none_iff, List.eq_nil_iff_forall_not_mem]
  exact forall_congr' fun i => not_congr (hmem i)

end DingoCache.Library
