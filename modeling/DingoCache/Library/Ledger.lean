import Mathlib

/-!
# Ledgers

What is taken has to be given back exactly once.  A ledger is the list of what was taken,
the list of what was given back, and what is held, as a multiset: the first is the sum of
the other two, and nothing is taken twice.
-/

namespace DingoCache.Library

open Multiset

variable {α : Type*}

/-- What was taken is what was given back and what is held. -/
structure Ledger (taken released : List α) (held : Multiset α) : Prop where
  balance : (taken : Multiset α) = released + held
  nodup : taken.Nodup

namespace Ledger

variable {taken released : List α} {held : Multiset α}

theorem empty : Ledger ([] : List α) [] 0 := ⟨rfl, List.nodup_nil⟩

theorem take (h : Ledger taken released held) {xs : List α} (hxs : xs.Nodup)
    (hfresh : ∀ x ∈ xs, x ∉ taken) : Ledger (xs ++ taken) released (held + xs) := by
  refine ⟨?_, List.nodup_append.mpr ⟨hxs, h.nodup, fun x hx y hy heq => ?_⟩⟩
  · rw [← coe_add, h.balance, add_comm, add_assoc]
  · exact hfresh x hx (heq ▸ hy)

theorem give {xs : List α} (h : Ledger taken released (held + xs)) :
    Ledger taken (xs ++ released) held := by
  refine ⟨?_, h.nodup⟩
  rw [h.balance, ← coe_add]
  abel

theorem perm (h : Ledger taken released 0) : released.Perm taken := by
  rw [← coe_eq_coe, h.balance, add_zero]

end Ledger

theorem sum_update {β M : Type*} [AddCommMonoid M] {n a : Nat} (ha : a < n) (f : β → M)
    (g : Nat → β) (x : β) :
    (∑ i ∈ Finset.range n, f (Function.update g a x i)) + f (g a) =
      (∑ i ∈ Finset.range n, f (g i)) + f x := by
  have hmem : a ∈ Finset.range n := Finset.mem_range.mpr ha
  have hrest : ∑ i ∈ (Finset.range n).erase a, f (Function.update g a x i) =
      ∑ i ∈ (Finset.range n).erase a, f (g i) := by
    refine Finset.sum_congr rfl fun i hi => ?_
    rw [Function.update_of_ne (Finset.ne_of_mem_erase hi)]
  rw [← Finset.add_sum_erase _ _ hmem, ← Finset.add_sum_erase _ (fun i => f (g i)) hmem, hrest,
    Function.update_self]
  abel

theorem sum_exchange {M : Type*} [AddCancelCommMonoid M] {sum sum' old new rest rest' : M}
    (hsum : sum' + old = sum + new) (hrest : old + rest = new + rest') :
    sum' + rest' = sum + rest := by
  refine add_right_cancel (b := new) ?_
  calc sum' + rest' + new = sum' + (new + rest') := by abel
    _ = sum' + old + rest := by rw [← hrest, ← add_assoc]
    _ = sum + rest + new := by rw [hsum, add_right_comm]

theorem sweep {σ : Type*} {f : σ → Nat → σ} {P : Nat → σ → Prop} {s : σ} (n : Nat) (h : P 0 s)
    (hstep : ∀ i s, i < n → P i s → P (i + 1) (f s i)) : P n ((List.range n).foldl f s) := by
  induction n with
  | zero => exact h
  | succ n ih =>
    rw [List.range_succ, List.foldl_append]
    exact hstep n _ (Nat.lt_succ_self n) (ih fun i s hi => hstep i s (Nat.lt_succ_of_lt hi))

end DingoCache.Library
