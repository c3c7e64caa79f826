import Mathlib

/-!
# Successor Search on a Ring of Points

A ring is a finite map from points to owners.  A position belongs to the owner of the
first point at or behind it, and behind the last point to the owner of the first one.

- `next_of_subset`: the next point stays the next one when other points are dropped.
-/

namespace DingoCache.Library

open Finset

abbrev PointRing (κ α : Type) := Finmap fun _ : κ => α

namespace PointRing

variable {κ α : Type} [LinearOrder κ] {s t : Finset κ} {h p q : κ} {u v : α} {r r' : PointRing κ α}

/-! ## The next point -/

/-- The first point at or behind `h`, or the first of all. -/
def next (s : Finset κ) (h : κ) : Option κ :=
  if hs : (s.filter (h ≤ ·)).Nonempty then some ((s.filter (h ≤ ·)).min' hs)
  else if hs : s.Nonempty then some (s.min' hs)
  else none

/-- `p` is the point that `next` finds. -/
def IsNext (s : Finset κ) (h p : κ) : Prop :=
  p ∈ s ∧ ((h ≤ p ∧ ∀ q ∈ s, h ≤ q → p ≤ q) ∨ (∀ q ∈ s, q < h) ∧ ∀ q ∈ s, p ≤ q)

theorem IsNext.unique (hp : IsNext s h p) (hq : IsNext s h q) : p = q := by
  obtain ⟨hps, ⟨hle, hmin⟩ | ⟨hall, hmin⟩⟩ := hp
  · obtain ⟨hqs, ⟨hle', hmin'⟩ | ⟨hall, -⟩⟩ := hq
    · exact le_antisymm (hmin q hqs hle') (hmin' p hps hle)
    · exact absurd hle (not_le.mpr (hall p hps))
  · obtain ⟨hqs, ⟨hle', -⟩ | ⟨-, hmin'⟩⟩ := hq
    · exact absurd hle' (not_le.mpr (hall q hqs))
    · exact le_antisymm (hmin q hqs) (hmin' p hps)

theorem isNext_of_next (hp : next s h = some p) : IsNext s h p := by
  unfold next at hp
  split at hp
  · next hs =>
    cases hp
    obtain ⟨hmem, hle⟩ := mem_filter.mp (min'_mem _ hs)
    refine ⟨hmem, .inl ⟨hle, fun q hq hhq => min'_le _ q ?_⟩⟩
    exact mem_filter.mpr ⟨hq, hhq⟩
  · next hs =>
    split at hp
    · next hs' =>
      cases hp
      refine ⟨min'_mem _ hs', .inr ⟨fun q hq => ?_, fun q hq => min'_le _ q hq⟩⟩
      by_contra hle
      exact hs ⟨q, mem_filter.mpr ⟨hq, not_lt.mp hle⟩⟩
    · cases hp

theorem next_eq_none : next s h = none ↔ s = ∅ := by
  unfold next
  constructor
  · intro hn
    split at hn
    · cases hn
    · split at hn
      · cases hn
      · next hs => exact not_nonempty_iff_eq_empty.mp hs
  · rintro rfl
    simp

theorem next_eq_some : next s h = some p ↔ IsNext s h p := by
  refine ⟨isNext_of_next, fun hp => ?_⟩
  cases hn : next s h with
  | none =>
    rw [next_eq_none] at hn
    exact absurd hp.1 (by simp [hn])
  | some q => rw [(isNext_of_next hn).unique hp]

theorem next_of_subset (hst : s ⊆ t) (hp : next t h = some p) (hps : p ∈ s) :
    next s h = some p := by
  obtain ⟨-, ⟨hle, hmin⟩ | ⟨hall, hmin⟩⟩ := next_eq_some.mp hp
  · exact next_eq_some.mpr ⟨hps, .inl ⟨hle, fun q hq => hmin q (hst hq)⟩⟩
  · exact next_eq_some.mpr ⟨hps, .inr ⟨fun q hq => hall q (hst hq), fun q hq => hmin q (hst hq)⟩⟩

/-! ## Owners -/

/-- The owner of the position `h`. -/
def locate (r : PointRing κ α) (h : κ) : Option α := (next r.keys h).bind fun p => r.lookup p

/-- The owner of the points becomes `v`, one after the other. -/
def assign (r : PointRing κ α) (ps : List κ) (v : α) : PointRing κ α :=
  ps.foldl (fun r p => r.insert p v) r

theorem mem_keys : p ∈ r.keys ↔ ∃ v, r.lookup p = some v := by
  rw [Finmap.mem_keys, ← Finmap.lookup_isSome, Option.isSome_iff_exists]

theorem locate_eq_none : r.locate h = none ↔ r = ∅ := by
  constructor
  · intro hn
    cases hp : next r.keys h with
    | none =>
      refine Finmap.ext_lookup fun p => ?_
      have hnot : p ∉ r.keys := by simp [next_eq_none.mp hp]
      rw [Finmap.mem_keys] at hnot
      rw [Finmap.lookup_eq_none.mpr hnot, Finmap.lookup_empty]
    | some p =>
      obtain ⟨v, hv⟩ := mem_keys.mp (isNext_of_next hp).1
      simp [locate, hp, hv] at hn
  · rintro rfl
    have hnone : next (Finmap.keys (∅ : PointRing κ α)) h = none := next_eq_none.mpr
      Finmap.keys_empty
    rw [locate, hnone]
    rfl

theorem lookup_assign (r : PointRing κ α) (ps : List κ) (v : α) (p : κ) :
    (r.assign ps v).lookup p = if p ∈ ps then some v else r.lookup p := by
  unfold assign
  induction ps generalizing r with
  | nil => simp
  | cons q ps ih =>
    rw [List.foldl_cons, ih]
    by_cases hp : p ∈ ps
    · simp [hp]
    · rcases eq_or_ne p q with rfl | hpq
      · simp [hp, Finmap.lookup_insert]
      · simp [hp, hpq, Finmap.lookup_insert_of_ne _ hpq]

/-! ## Rings that attract -/

/-- Where the ring `r'` differs from `r` its points belong to `v`. -/
def Attracts (v : α) (r r' : PointRing κ α) : Prop :=
  ∀ p, r'.lookup p = some v ∨ r'.lookup p = r.lookup p

theorem Attracts.assign (ha : Attracts v r r') (ps : List κ) (u : α) :
    Attracts v (r.assign ps u) (r'.assign ps u) := by
  intro p
  rw [lookup_assign, lookup_assign]
  by_cases hp : p ∈ ps
  · exact .inr (by simp [hp])
  · simpa [hp] using ha p

theorem Attracts.locate (ha : Attracts v r r') (h : κ) :
    r'.locate h = some v ∨ r'.locate h = r.locate h := by
  have hsub : r.keys ⊆ r'.keys := by
    intro p hp
    obtain ⟨u, hu⟩ := mem_keys.mp hp
    rcases ha p with hv | heq
    · exact mem_keys.mpr ⟨v, hv⟩
    · exact mem_keys.mpr ⟨u, heq.trans hu⟩
  cases hn : next r'.keys h with
  | none =>
    rw [next_eq_none] at hn
    have hnone : next r.keys h = none := next_eq_none.mpr (subset_empty.mp (hn ▸ hsub))
    exact .inr (by simp [PointRing.locate, next_eq_none.mpr hn, hnone])
  | some p =>
    have hloc : r'.locate h = r'.lookup p := by simp [PointRing.locate, hn]
    rcases ha p with hv | heq
    · exact .inl (hloc.trans hv)
    · have hp : p ∈ r.keys := by
        obtain ⟨u, hu⟩ := mem_keys.mp (isNext_of_next hn).1
        exact mem_keys.mpr ⟨u, heq.symm.trans hu⟩
      refine .inr (hloc.trans (heq.trans ?_))
      simp [PointRing.locate, next_of_subset hsub hn hp]

end PointRing

end DingoCache.Library
