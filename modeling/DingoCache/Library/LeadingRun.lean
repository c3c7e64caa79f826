import Mathlib

/-!
# The Leading Run of a List of Answers

`leadingRun` counts the `true` answers before the first `false` one.

- `le_leadingRun_iff`: it is the longest prefix of `true` answers.
-/

namespace DingoCache.Library

/-- How many answers are `true` before the first that is not. -/
def leadingRun : List Bool → Nat
  | true :: rest => leadingRun rest + 1
  | _ => 0

variable {l : List Bool}

theorem leadingRun_le (l : List Bool) : leadingRun l ≤ l.length := by
  induction l with
  | nil => exact Nat.le_refl _
  | cons b l ih =>
    cases b with
    | false => exact Nat.zero_le _
    | true => exact Nat.succ_le_succ ih

theorem le_leadingRun_iff {m : Nat} (hm : m ≤ l.length) :
    m ≤ leadingRun l ↔ ∀ i < m, l.getD i false := by
  induction l generalizing m with
  | nil =>
    obtain rfl : m = 0 := Nat.le_zero.mp hm
    simp
  | cons b l ih =>
    cases m with
    | zero => simp
    | succ m =>
      cases b with
      | false =>
        refine iff_of_false (Nat.not_succ_le_zero m) fun h => ?_
        simpa using h 0 (Nat.succ_pos m)
      | true =>
        rw [leadingRun, Nat.succ_le_succ_iff, ih (Nat.le_of_succ_le_succ hm)]
        refine ⟨fun h i hi => ?_, fun h i hi => h (i + 1) (Nat.succ_lt_succ hi)⟩
        cases i with
        | zero => rfl
        | succ i => exact h i (Nat.lt_of_succ_lt_succ hi)

end DingoCache.Library
