import Mathlib

/-!
# Runs of Unbounded Loops

A loop body maps a state to the next one (`inl`) or leaves the loop with a result
(`inr`).  `LoopRuns body s k r` says that the loop, entered in `s` and bounded by
nothing, leaves with `r` after `k` rounds: a proof that it terminates, and how.
-/

namespace DingoCache.Library

variable {σ ρ : Type} {body : σ → σ ⊕ ρ} {s : σ} {r : ρ} {k : Nat}

/-- The loop entered in `s` leaves with `r` after `k` rounds. -/
inductive LoopRuns (body : σ → σ ⊕ ρ) : σ → Nat → ρ → Prop
  /-- The round leaves. -/
  | leave {s : σ} {r : ρ} (h : body s = .inr r) : LoopRuns body s 1 r
  /-- The round goes on. -/
  | again {s s' : σ} {k : Nat} {r : ρ} (h : body s = .inl s') (rest : LoopRuns body s' k r) :
      LoopRuns body s (k + 1) r

/-- The loop leaves with `r` within `n` rounds. -/
def LoopEnds (body : σ → σ ⊕ ρ) (s : σ) (n : Nat) (r : ρ) : Prop :=
  ∃ k, k ≤ n ∧ LoopRuns body s k r

theorem LoopEnds.leave {n : Nat} (h : body s = .inr r) : LoopEnds body s (n + 1) r :=
  ⟨1, by omega, .leave h⟩

theorem LoopEnds.again {s' : σ} {n : Nat} (h : body s = .inl s') (hrest : LoopEnds body s' n r) :
    LoopEnds body s (n + 1) r := by
  obtain ⟨k, hk, hrun⟩ := hrest
  exact ⟨k + 1, by omega, .again h hrun⟩

end DingoCache.Library
