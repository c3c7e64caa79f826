import Mathlib

/-!
# Runs of an Interleaved System

A system takes labelled steps; a step that does not apply is `none`.  A run is a list
of labels, one for each step, so that a run is an interleaving of whoever takes them.
-/

namespace DingoCache.Library

variable {σ ℓ : Type*} {step : σ → ℓ → Option σ} {ls : List ℓ}

def run (step : σ → ℓ → Option σ) : σ → List ℓ → Option σ
  | s, [] => some s
  | s, l :: ls => (step s l).bind fun s' => run step s' ls

/-- Every step of the run meets `C` in the state before it. -/
def Meets (step : σ → ℓ → Option σ) (C : σ → ℓ → Prop) : σ → List ℓ → Prop
  | _, [] => True
  | s, l :: ls => C s l ∧ ∀ s', step s l = some s' → Meets step C s' ls

instance decidableMeets {C : σ → ℓ → Prop} [∀ s l, Decidable (C s l)] :
    ∀ s ls, Decidable (Meets step C s ls)
  | _, [] => isTrue trivial
  | s, l :: ls =>
    match h : step s l with
    | none => decidable_of_iff (C s l) (by simp [Meets, h])
    | some s' =>
      have : Decidable (Meets step C s' ls) := decidableMeets s' ls
      decidable_of_iff (C s l ∧ Meets step C s' ls) (by simp [Meets, h])

/-- An invariant of the steps that meet `C` is an invariant of the runs that do. -/
theorem run_invariant {C : σ → ℓ → Prop} {P : σ → Prop}
    (hstep : ∀ s l s', P s → C s l → step s l = some s' → P s') {s s' : σ} (h : P s)
    (hC : Meets step C s ls) (hrun : run step s ls = some s') : P s' := by
  induction ls generalizing s with
  | nil => exact Option.some.inj hrun ▸ h
  | cons l ls ih =>
    obtain ⟨s₁, hs₁, hrun⟩ := Option.bind_eq_some_iff.mp hrun
    exact ih (hstep s l s₁ h hC.1 hs₁) (hC.2 s₁ hs₁) hrun

theorem run_preserves {P : σ → Prop} (hstep : ∀ s l s', P s → step s l = some s' → P s') {s s' : σ}
    (h : P s) (hrun : run step s ls = some s') : P s' := by
  induction ls generalizing s with
  | nil => exact Option.some.inj hrun ▸ h
  | cons l ls ih =>
    obtain ⟨s₁, hs₁, hrun⟩ := Option.bind_eq_some_iff.mp hrun
    exact ih (hstep s l s₁ h hs₁) hrun

end DingoCache.Library
