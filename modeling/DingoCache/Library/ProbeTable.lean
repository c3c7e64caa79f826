import DingoCache.Library.DenseTable

/-!
# Open Addressing with Linear Probing

A hash table whose keys are found by walking on from their home bucket.  Erasing leaves a
tombstone, so that a walk does not end where a key was.  `Probed` is the invariant: an
occupied bucket is reached from the home of its key over buckets that are not empty, and
no key is there twice.
-/

namespace DingoCache.Library.ProbeTable

open Finset
open Function (update update_of_ne update_self)

inductive Bucket (κ ν : Type) where
  | empty
  | occupied (key : κ) (value : ν)
  | tombstone

namespace Bucket

variable {κ ν : Type}

def live : Bucket κ ν → Bool
  | occupied _ _ => true
  | _ => false

def buried : Bucket κ ν → Bool
  | tombstone => true
  | _ => false

/-- A walk for `k` ends here: the bucket is empty or holds `k`. -/
def stops [DecidableEq κ] (k : κ) : Bucket κ ν → Bool
  | empty => true
  | occupied k' _ => k' = k
  | tombstone => false

end Bucket

open Bucket

/-- The first bucket from `b` on at which a walk of at most `fuel` buckets stops. -/
def probe (next : Nat → Nat) (stop : Nat → Bool) : Nat → Nat → Option Nat
  | 0, _ => none
  | fuel + 1, b => if stop b then some b else probe next stop fuel (next b)

variable {κ ν : Type} {n b i d fuel : Nat} {stop : Nat → Bool} {home : κ → Nat}
  {cells : Nat → Bucket κ ν} {k : κ} {v w : ν} {c : Bucket κ ν}

/-- The walk for `k` ends at its bucket, or at an empty one. -/
def lookupBucket [DecidableEq κ] (next : Nat → Nat) (n : Nat) (cells : Nat → Bucket κ ν)
    (home : Nat) (k : κ) : Option (Nat × ν) :=
  (probe next (fun b => (cells b).stops k) n home).bind fun b =>
    match cells b with
    | .occupied _ v => some (b, v)
    | _ => none

/-- The bucket for a new key: the first tombstone before the first empty bucket, if there
is one, or that empty bucket. -/
def insertTarget (next : Nat → Nat) (cells : Nat → Bucket κ ν) :
    Nat → Nat → Option Nat → Option Nat
  | 0, _, _ => none
  | fuel + 1, b, t =>
    match cells b with
    | .empty => some (t.getD b)
    | .tombstone => insertTarget next cells fuel (next b) (t.or (some b))
    | .occupied _ _ => insertTarget next cells fuel (next b) t

/-- An entry moves to a new table. -/
def reinsert (next : Nat → Nat) (n : Nat) (home : κ → Nat) (cells : Nat → Bucket κ ν) :
    Bucket κ ν → Nat → Bucket κ ν
  | .occupied k v =>
    match probe next (fun b => !(cells b).live) n (home k) with
    | some b => update cells b (.occupied k v)
    | none => cells
  | _ => cells

/-- From the home of `k` the bucket `i` is reached over buckets that are not empty. -/
def Reaches (n : Nat) (home : κ → Nat) (cells : Nat → Bucket κ ν) (k : κ) (i : Nat) : Prop :=
  ∃ d < n, i = (home k + d) % n ∧ ∀ j < d, cells ((home k + j) % n) ≠ .empty

structure Probed (n : Nat) (home : κ → Nat) (cells : Nat → Bucket κ ν) : Prop where
  reach : ∀ i < n, ∀ k v, cells i = .occupied k v → Reaches n home cells k i
  once : ∀ i < n, ∀ j < n, ∀ k v w, cells i = .occupied k v → cells j = .occupied k w → i = j

def Holds (n : Nat) (cells : Nat → Bucket κ ν) (k : κ) (v : ν) : Prop :=
  ∃ i < n, cells i = .occupied k v

/-- The number of buckets of a kind. -/
def count (n : Nat) (cells : Nat → Bucket κ ν) (p : Bucket κ ν → Bool) : Nat :=
  ∑ i ∈ range n, (p (cells i)).toNat

/-! ## Walks -/

theorem walk_inj {j : Nat} (hj : j < n) (hd : d < n) (h : (b + j) % n = (b + d) % n) : j = d := by
  have := Nat.ModEq.add_left_cancel' b h
  rwa [Nat.ModEq, Nat.mod_eq_of_lt hj, Nat.mod_eq_of_lt hd] at this

theorem exists_walk (hb : b < n) (hi : i < n) : ∃ d < n, i = (b + d) % n := by
  rcases Nat.lt_or_ge i b with h | h
  · refine ⟨i + n - b, by omega, ?_⟩
    rw [show b + (i + n - b) = i + n by omega, Nat.add_mod_right, Nat.mod_eq_of_lt hi]
  · exact ⟨i - b, by omega, by rw [Nat.add_sub_cancel' h, Nat.mod_eq_of_lt hi]⟩

theorem walk_succ (d : Nat) : ((b + 1) % n + d) % n = (b + (d + 1)) % n := by
  rw [Nat.mod_add_mod, Nat.add_assoc, Nat.add_comm 1]

theorem probe_eq_some (hb : b < n) : probe (fun b => (b + 1) % n) stop fuel b = some i ↔
    ∃ d < fuel, i = (b + d) % n ∧ stop i = true ∧ ∀ j < d, stop ((b + j) % n) = false := by
  induction fuel generalizing b with
  | zero => simp [probe]
  | succ fuel ih =>
    have h0 : (b + 0) % n = b := Nat.mod_eq_of_lt hb
    rw [probe]
    by_cases hs : stop b = true
    · rw [if_pos hs]
      constructor
      · rintro ⟨⟩
        exact ⟨0, by omega, h0.symm, hs, by omega⟩
      · rintro ⟨_ | d, -, rfl, -, hpre⟩
        · rw [h0]
        · exact absurd (hpre 0 (by omega)) (by rw [h0, hs]; decide)
    · rw [if_neg hs, ih (Nat.mod_lt _ (by omega))]
      simp only [walk_succ]
      constructor
      · rintro ⟨d, hd, hi, hstop, hpre⟩
        refine ⟨d + 1, by omega, hi, hstop, fun j hj => ?_⟩
        cases j with
        | zero => simpa only [h0, Bool.not_eq_true] using hs
        | succ j => exact hpre j (by omega)
      · rintro ⟨_ | d, hd, rfl, hstop, hpre⟩
        · exact absurd (by rwa [h0] at hstop) hs
        · exact ⟨d, by omega, rfl, hstop, fun j hj => hpre (j + 1) (by omega)⟩

theorem insertTarget_eq (hb : b < n) (he : ∃ d < fuel, cells ((b + d) % n) = .empty) :
    insertTarget (fun b => (b + 1) % n) cells fuel b none =
        probe (fun b => (b + 1) % n) (fun b => !(cells b).live) fuel b ∧
      ∀ t, insertTarget (fun b => (b + 1) % n) cells fuel b (some t) = some t := by
  induction fuel generalizing b with
  | zero => exact absurd he (by simp)
  | succ fuel ih =>
    have hnext : cells b ≠ .empty → _ := fun hne => ih (Nat.mod_lt (b + 1) (by omega)) <| by
      obtain ⟨_ | d, hd, hempty⟩ := he
      · rw [Nat.add_zero, Nat.mod_eq_of_lt hb] at hempty
        exact absurd hempty hne
      · exact ⟨d, by omega, by rwa [walk_succ]⟩
    rw [insertTarget, probe]
    cases hc : cells b with
    | empty => simp [insertTarget, hc, live]
    | tombstone =>
      have h := (hnext (by simp [hc])).2
      exact ⟨by simpa [live] using h b, fun t => by simpa [insertTarget, hc] using h t⟩
    | occupied k v => simpa [insertTarget, hc, live] using hnext (by simp [hc])

/-! ## What a change of one bucket does -/

theorem count_update (cells : Nat → Bucket κ ν) (c : Bucket κ ν) (p : Bucket κ ν → Bool)
    (hi : i < n) :
    count n (update cells i c) p + (p (cells i)).toNat = count n cells p + (p c).toNat := by
  have h := sum_range_point (f := fun j => (p (cells j)).toNat)
    (g := fun j => (p (update cells i c j)).toNat) hi fun j hj => by simp [hj]
  simpa [count] using h

theorem exists_empty (h : count n cells live + count n cells buried < n) :
    ∃ i < n, cells i = .empty := by
  by_contra hne
  simp only [not_exists, not_and] at hne
  have hone : ∀ i ∈ range n, (cells i).live.toNat + (cells i).buried.toNat = 1 := fun i hi => by
    have := hne i (mem_range.mp hi)
    cases hc : cells i <;> simp_all [live, buried]
  rw [count, count, ← sum_add_distrib, sum_congr rfl hone] at h
  simp at h

theorem holds_update (hi : i < n) : Holds n (update cells i c) k v ↔
    c = .occupied k v ∨ ∃ j < n, j ≠ i ∧ cells j = .occupied k v := by
  constructor
  · rintro ⟨j, hj, hv⟩
    rcases eq_or_ne j i with rfl | hji
    · exact .inl (by rwa [update_self] at hv)
    · exact .inr ⟨j, hj, hji, by rwa [update_of_ne hji] at hv⟩
  · rintro (rfl | ⟨j, hj, hji, hv⟩)
    · exact ⟨i, hi, update_self ..⟩
    · exact ⟨j, hj, by rw [update_of_ne hji, hv]⟩

/-- A bucket that is filled or buried lies on the ways of others still. -/
theorem Probed.update (hP : Probed n home cells) (hc : c ≠ .empty)
    (hown : ∀ k v, c = .occupied k v → Reaches n home cells k i ∧
      ∀ j < n, ∀ w, cells j = .occupied k w → j = i) : Probed n home (update cells i c) := by
  have hway : ∀ {k j}, Reaches n home cells k j →
      Reaches n home (Function.update cells i c) k j := by
    rintro k j ⟨d, hd, hj, hpre⟩
    refine ⟨d, hd, hj, fun l hl => ?_⟩
    by_cases he : (home k + l) % n = i
    · rwa [he, update_self]
    · rw [update_of_ne he]
      exact hpre l hl
  refine ⟨fun j hj k v hk => ?_, fun j hj l hl k v w hk hk' => ?_⟩
  · rcases eq_or_ne j i with rfl | hji
    · rw [update_self] at hk
      exact hway (hown k v hk).1
    · rw [update_of_ne hji] at hk
      exact hway (hP.reach j hj k v hk)
  · by_contra hjl
    rcases eq_or_ne j i with rfl | hji
    · rw [update_self] at hk
      rw [update_of_ne (Ne.symm hjl)] at hk'
      exact hjl ((hown k v hk).2 l hl w hk').symm
    · rw [update_of_ne hji] at hk
      rcases eq_or_ne l i with rfl | hli
      · rw [update_self] at hk'
        exact hjl ((hown k w hk').2 j hj v hk)
      · rw [update_of_ne hli] at hk'
        exact hjl (hP.once j hj l hl k v w hk hk')

theorem Probed.replace (hP : Probed n home cells) (hi : i < n) (hk : cells i = .occupied k w)
    (hc : c ≠ .empty) (hown : ∀ k' v, c = .occupied k' v → k' = k) :
    Probed n home (Function.update cells i c) ∧ ∀ k' v,
      Holds n (Function.update cells i c) k' v ↔
        c = .occupied k' v ∨ k' ≠ k ∧ Holds n cells k' v := by
  refine ⟨hP.update hc fun k' v he => ?_, fun k' v => ?_⟩
  · obtain rfl := hown k' v he
    exact ⟨hP.reach i hi k' w hk, fun j hj w' hw => hP.once j hj i hi k' w' w hw hk⟩
  · rw [holds_update hi]
    refine or_congr_right ⟨?_, ?_⟩
    · rintro ⟨j, hj, hji, hv⟩
      refine ⟨?_, j, hj, hv⟩
      rintro rfl
      exact hji (hP.once j hj i hi _ _ _ hv hk)
    · rintro ⟨hne, j, hj, hv⟩
      refine ⟨j, hj, ?_, hv⟩
      rintro rfl
      exact hne (by rw [hk] at hv; cases hv; rfl)

/-- Where a bucket is empty, the first one on the way of a new key that is not occupied is a
place for it. -/
theorem Probed.place (hP : Probed n home cells) (hh : home k < n)
    (hempty : ∃ i < n, cells i = .empty) (hnew : ∀ w, ¬Holds n cells k w) (v : ν) :
    ∃ t < n, (cells t).live = false ∧
      probe (fun b => (b + 1) % n) (fun b => !(cells b).live) n (home k) = some t ∧
      insertTarget (fun b => (b + 1) % n) cells n (home k) none = some t ∧
      Probed n home (Function.update cells t (.occupied k v)) ∧
      ∀ k' v', Holds n (Function.update cells t (.occupied k v)) k' v' ↔
        k' = k ∧ v' = v ∨ Holds n cells k' v' := by
  obtain ⟨i, hi, hempty⟩ := hempty
  obtain ⟨e, he, rfl⟩ := exists_walk hh hi
  have hex : ∃ d, (!(cells ((home k + d) % n)).live) = true := ⟨e, by simp [hempty, live]⟩
  have hd : Nat.find hex < n := (Nat.find_le (by simp [hempty, live])).trans_lt he
  have hfree : (cells ((home k + Nat.find hex) % n)).live = false := by
    simpa using Nat.find_spec hex
  have hpre : ∀ j < Nat.find hex, (cells ((home k + j) % n)).live = true := fun j hj => by
    simpa using Nat.find_min hex hj
  have hlt : (home k + Nat.find hex) % n < n := Nat.mod_lt _ (by omega)
  have hprobe : probe (fun b => (b + 1) % n) (fun b => !(cells b).live) n (home k) = some _ :=
    (probe_eq_some hh).mpr ⟨_, hd, rfl, Nat.find_spec hex, fun j hj => by simp [hpre j hj]⟩
  refine ⟨_, hlt, hfree, hprobe, by rw [(insertTarget_eq hh ⟨e, he, hempty⟩).1, hprobe],
    hP.update (by simp) fun k' v' hk => ?_, fun k' v' => ?_⟩
  · cases hk
    refine ⟨⟨_, hd, rfl, fun j hj hj' => ?_⟩, fun j hj w hw => absurd ⟨j, hj, hw⟩ (hnew w)⟩
    have := hpre j hj
    rw [hj'] at this
    cases this
  · rw [holds_update hlt]
    refine or_congr ⟨fun h => by cases h; exact ⟨rfl, rfl⟩, fun ⟨hk, hv⟩ => by rw [hk, hv]⟩
      ⟨fun ⟨j, hj, _, hv⟩ => ⟨j, hj, hv⟩, fun ⟨j, hj, hv⟩ => ⟨j, hj, ?_, hv⟩⟩
    rintro rfl
    rw [hv] at hfree
    cases hfree

/-! ## Moving to another table -/

/-- The first `i` buckets of a table have moved to another one. -/
structure Moved (m : Nat) (home : κ → Nat) (cells : Nat → Bucket κ ν) (i : Nat)
    (acc : Nat → Bucket κ ν) : Prop where
  probed : Probed m home acc
  buried : count m acc buried = 0
  holds : ∀ k v, Holds m acc k v ↔ Holds i cells k v
  lives : count m acc live = count i cells live

theorem Moved.fold {m : Nat} {home₀ : κ → Nat} (hP : Probed n home₀ cells) (hh : ∀ k, home k < m)
    (hroom : count n cells Bucket.live < m) (i : Nat) (hi : i ≤ n) :
    Moved m home cells i ((List.range i).foldl
      (fun acc j => reinsert (fun b => (b + 1) % m) m home acc (cells j)) fun _ => .empty) := by
  induction i with
  | zero => exact ⟨⟨by simp, by simp⟩, by simp [count, Bucket.buried], by simp [Holds],
      by simp [count, Bucket.live]⟩
  | succ i ih =>
    obtain ⟨hpr, hun, hholds, hlive⟩ := ih (by omega)
    rw [List.range_succ, List.foldl_append, List.foldl_cons, List.foldl_nil]
    generalize (List.range i).foldl _ _ = acc at *
    have hsucc : count (i + 1) cells Bucket.live =
        count i cells Bucket.live + (cells i).live.toNat := sum_range_succ _ _
    have hor : ∀ k v, Holds (i + 1) cells k v ↔ Holds i cells k v ∨ cells i = .occupied k v := by
      simp [Holds, Nat.le_iff_lt_or_eq, or_and_right, exists_or]
    cases hc : cells i with
    | occupied k v =>
      have hle : count i cells Bucket.live ≤ count n cells Bucket.live :=
        sum_le_sum_of_subset (range_mono (by omega))
      obtain ⟨t, ht, hfree, hprobe, -, hplaced, hplace⟩ := hpr.place (hh k)
        (exists_empty (by rw [hun, hlive]; omega)) (fun w hw => by
          obtain ⟨j, hj, hjw⟩ := (hholds k w).mp hw
          have := hP.once j (by omega) i (by omega) k w v hjw hc
          omega) v
      have hl := count_update acc (.occupied k v) Bucket.live ht
      have hb := count_update acc (.occupied k v) Bucket.buried ht
      rw [hfree, hlive] at hl
      rw [hun] at hb
      rw [reinsert, hprobe]
      refine ⟨hplaced, Nat.eq_zero_of_add_eq_zero_right hb, fun k' v' => ?_, ?_⟩
      · rw [hplace, hor, hholds, hc, or_comm]
        simp [eq_comm]
      · rw [hsucc, hc]
        exact hl
    | _ =>
      refine ⟨hpr, hun, fun k' v' => ?_, by rw [hsucc, hc, ← hlive]; rfl⟩
      rw [hor, hc]
      simpa [reinsert] using hholds k' v'

/-! ## Lookups -/

theorem Probed.lookup_iff [DecidableEq κ] (hP : Probed n home cells) (hh : home k < n) :
    lookupBucket (fun b => (b + 1) % n) n cells (home k) k = some (i, v) ↔
      i < n ∧ cells i = .occupied k v := by
  rw [lookupBucket, Option.bind_eq_some_iff]
  constructor
  · rintro ⟨b, hb, hv⟩
    obtain ⟨d, hd, rfl, hstop, -⟩ := (probe_eq_some hh).mp hb
    cases hc : cells ((home k + d) % n) <;> simp [hc, stops] at hv hstop
    obtain ⟨rfl, rfl⟩ := hv
    exact ⟨Nat.mod_lt _ (by omega), by rw [hc, hstop]⟩
  · rintro ⟨hi, hk⟩
    obtain ⟨d, hd, rfl, hpre⟩ := hP.reach i hi k v hk
    refine ⟨_, (probe_eq_some hh).mpr ⟨d, hd, rfl, by simp [hk, stops], fun j hj => ?_⟩,
      by simp [hk]⟩
    cases hc : cells ((home k + j) % n) with
    | empty => exact absurd hc (hpre j hj)
    | tombstone => rfl
    | occupied k' w =>
      simp only [stops, decide_eq_false_iff_not]
      rintro rfl
      have hlt : (home k' + j) % n < n := Nat.mod_lt _ (by omega)
      have := walk_inj (hj.trans hd) hd (hP.once _ hlt _ hi k' w v hc hk)
      omega

end DingoCache.Library.ProbeTable
