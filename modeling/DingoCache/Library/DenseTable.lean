import Mathlib

/-!
# Dense Tables: Sums, Free Chains and Swap Removal

Facts about records stored in a growing table and addressed by index.

- A counter that summarises a table is a sum over its indices: `tally` adds up a
  weight of the present records, and `tally_update` says how it moves when one
  record changes.
-/

namespace DingoCache.Library

open Finset
open Function (update update_of_ne update_self)

variable {f : Nat → Nat} {x : Nat}

/-! ## Sums over a table -/

theorem sum_range_point {n : Nat} {g : Nat → Nat} (hx : x < n) (h : ∀ i, i ≠ x → g i = f i) :
    (∑ i ∈ range n, g i) + f x = (∑ i ∈ range n, f i) + g x := by
  have hmem : x ∈ range n := mem_range.mpr hx
  rw [← add_sum_erase _ _ hmem, ← add_sum_erase _ f hmem]
  have hrest : ∑ i ∈ (range n).erase x, g i = ∑ i ∈ (range n).erase x, f i :=
    sum_congr rfl fun i hi => h i (ne_of_mem_erase hi)
  omega

theorem sum_range_congr {n : Nat} {g : Nat → Nat} (h : ∀ i, i < n → g i = f i) :
    ∑ i ∈ range n, g i = ∑ i ∈ range n, f i :=
  sum_congr rfl fun i hi => h i (mem_range.mp hi)

theorem le_sum_range {n : Nat} (hx : x < n) : f x ≤ ∑ i ∈ range n, f i :=
  single_le_sum (fun _ _ => Nat.zero_le _) (mem_range.mpr hx)

/-! ## Tallies of optional records -/

section Tally

variable {α : Type} {n i : Nat} {R : Nat → Option α} {w w' : α → Nat}

theorem record_of_update {j : Nat} {m m' : α} (h : update R i (some m) j = some m') :
    m' = m ∨ j ≠ i ∧ R j = some m' := by
  rcases eq_or_ne j i with rfl | hj
  · rw [update_self] at h
    exact .inl (Option.some.inj h).symm
  · rw [update_of_ne hj] at h
    exact .inr ⟨hj, h⟩

/-- Total weight of the records present among the first `n` indices. -/
def tally (n : Nat) (R : Nat → Option α) (w : α → Nat) : Nat :=
  ∑ i ∈ range n, (R i).elim 0 w

theorem tally_update (hi : i < n) (x : Option α) :
    tally n (update R i x) w + (R i).elim 0 w = tally n R w + x.elim 0 w := by
  have h := sum_range_point (f := fun j => (R j).elim 0 w)
    (g := fun j => (update R i x j).elim 0 w) hi (fun j hj => by simp [hj])
  simpa [tally] using h

/-- A tally that does not see the difference between the two records does not move. -/
theorem tally_update_same {x : Option α} (h : x.elim 0 w = (R i).elim 0 w) :
    tally n (update R i x) w = tally n R w := by
  refine sum_range_congr fun j _ => ?_
  rcases eq_or_ne j i with rfl | hj
  · simpa using h
  · simp [hj]

theorem tally_succ (h : R n = none) : tally (n + 1) R w = tally n R w := by
  simp [tally, sum_range_succ, h]

theorem tally_eq_zero (h : ∀ j m, R j = some m → w m = 0) : tally n R w = 0 := by
  refine sum_eq_zero fun j _ => ?_
  cases hj : R j with
  | none => rfl
  | some m => exact h j m hj

theorem tally_insert {m : α} (hi : i < n) (hR : R i = none) :
    tally n (update R i (some m)) w = tally n R w + w m := by
  have h := tally_update (w := w) (R := R) hi (some m)
  simpa [hR] using h

theorem tally_remove {m : α} (hi : i < n) (hR : R i = some m) :
    tally n (update R i none) w = tally n R w - w m := by
  have h := tally_update (w := w) (R := R) hi none
  simp only [hR, Option.elim_some, Option.elim_none] at h
  omega

theorem tally_replace {m : α} (m' : α) (hi : i < n) (hR : R i = some m) :
    tally n (update R i (some m')) w + w m = tally n R w + w m' := by
  have h := tally_update (w := w) (R := R) hi (some m')
  simpa [hR] using h

theorem tally_one_le : tally n R (fun _ => 1) ≤ n := by
  calc tally n R (fun _ => 1) ≤ ∑ _i ∈ range n, 1 :=
        sum_le_sum fun j _ => by cases R j <;> simp
    _ = n := by simp

theorem le_tally {m : α} (hi : i < n) (hm : R i = some m) : w m ≤ tally n R w := by
  have h := le_sum_range (f := fun j => (R j).elim 0 w) hi
  simpa [tally, hm] using h

theorem add_le_tally {j : Nat} {m m' : α} (hi : i < n) (hj : j < n) (hij : i ≠ j)
    (hm : R i = some m) (hm' : R j = some m') : w m + w m' ≤ tally n R w := by
  have hrest : w m' ≤ tally n (update R i none) w :=
    le_tally hj (by rw [update_of_ne hij.symm, hm'])
  have hone := le_tally (w := w) hi hm
  rw [tally_remove hi hm] at hrest
  omega

/-- Distinct indices whose records weigh at least one are no more than the tally. -/
theorem length_le_tally {l : List Nat} (hnd : l.Nodup)
    (h : ∀ i ∈ l, i < n ∧ ∃ m, R i = some m ∧ 1 ≤ w m) : l.length ≤ tally n R w := by
  rw [← List.toFinset_card_of_nodup hnd, card_eq_sum_ones]
  calc ∑ _i ∈ l.toFinset, 1 ≤ ∑ i ∈ l.toFinset, (R i).elim 0 w := sum_le_sum fun i hi => by
        obtain ⟨-, m, hm, hw⟩ := h i (List.mem_toFinset.mp hi)
        simpa [hm] using hw
    _ ≤ tally n R w := by
        refine sum_le_sum_of_subset fun i hi => ?_
        exact mem_range.mpr (h i (List.mem_toFinset.mp hi)).1

end Tally

/-! ## Free chains -/

/-- `l` is the chain of unused records reached from `head` through `next`. -/
def FreeChain (next : Nat → Option Nat) : Option Nat → List Nat → Prop
  | head, [] => head = none
  | head, a :: l => head = some a ∧ FreeChain next (next a) l

theorem FreeChain.congr {next next' : Nat → Option Nat} {head : Option Nat} {l : List Nat}
    (hn : ∀ i ∈ l, next' i = next i) (h : FreeChain next head l) : FreeChain next' head l := by
  induction l generalizing head with
  | nil => exact h
  | cons a l ih =>
    refine ⟨h.1, ?_⟩
    rw [hn a (by simp)]
    exact ih (fun i hi => hn i (by simp [hi])) h.2

theorem FreeChain.push {next next' : Nat → Option Nat} {head : Option Nat} {l : List Nat}
    (h : FreeChain next head l) (hx : next' x = head) (hn : ∀ i ∈ l, next' i = next i) :
    FreeChain next' (some x) (x :: l) :=
  ⟨rfl, hx ▸ h.congr hn⟩

/-! ## Swap removal -/

variable {α : Type}

/-- `v[i] = v.back(); v.pop_back();` -/
def swapRemove (l : List α) (i : Nat) : List α :=
  match l.getLast? with
  | none => []
  | some z => (l.set i z).dropLast

theorem swapRemove_perm {l : List α} {i : Nat} (hi : i < l.length) :
    (swapRemove l i).Perm (l.eraseIdx i) := by
  rcases List.eq_nil_or_concat' l with rfl | ⟨m, z, rfl⟩
  · simp at hi
  · have hlast : (m ++ [z]).getLast? = some z := by simp
    simp only [swapRemove, hlast]
    by_cases him : i < m.length
    · rw [List.set_append_left _ _ him, List.dropLast_concat, List.eraseIdx_append_of_lt_length him]
      exact (List.set_perm_cons_eraseIdx him z).trans (List.perm_append_singleton z _).symm
    · have hie : i = m.length := by
        simp only [List.length_append, List.length_cons, List.length_nil] at hi
        omega
      subst hie
      simp [List.eraseIdx_append_of_length_le]

variable [DecidableEq α]

/-- The index at which a vector scan meets `e` first. -/
def scanIdx (l : List α) (e : α) : Option Nat :=
  l.findIdx? (fun y => decide (y = e))

theorem scanIdx_eq_none {l : List α} {e : α} : scanIdx l e = none ↔ e ∉ l := by
  simp only [scanIdx, List.findIdx?_eq_none_iff, decide_eq_false_iff_not]
  exact ⟨fun h hm => h e hm rfl, fun h x hx he => h (he ▸ hx)⟩

theorem scanIdx_eq_some {l : List α} {e : α} {i : Nat} (h : scanIdx l e = some i) :
    ∃ hi : i < l.length, l[i] = e := by
  rw [scanIdx, List.findIdx?_eq_some_iff_getElem] at h
  obtain ⟨hi, he, -⟩ := h
  exact ⟨hi, by simpa using he⟩

theorem swapRemove_perm_erase {l : List α} {e : α} {i : Nat} (hnd : l.Nodup) (hi : i < l.length)
    (he : l[i] = e) : (swapRemove l i).Perm (l.erase e) := by
  subst he
  rw [hnd.erase_getElem i hi]
  exact swapRemove_perm hi

end DingoCache.Library
