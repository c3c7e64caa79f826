import Mathlib

/-!
# What Is Held Under a Key

Holders take weighted shares under keys and give them back one by one.  `owed` is the sum
of the shares under a key, `holders` their number.

- `owed_erase`, `holders_erase`: what giving one share back changes.
-/

namespace DingoCache.Library

variable {α κ : Type*} [DecidableEq κ] {key : α → κ} {weight : α → Nat}

def owed (key : α → κ) (weight : α → Nat) (held : List α) (k : κ) : Nat :=
  ((held.filter fun a => decide (key a = k)).map weight).sum

def holders (key : α → κ) (held : List α) (k : κ) : Nat :=
  held.countP fun a => decide (key a = k)

theorem owed_cons (a : α) (held : List α) (k : κ) :
    owed key weight (a :: held) k = owed key weight held k + if key a = k then weight a else 0 := by
  unfold owed
  by_cases h : key a = k
  · simp [h, Nat.add_comm]
  · simp [h]

theorem holders_cons (a : α) (held : List α) (k : κ) :
    holders key (a :: held) k = holders key held k + if key a = k then 1 else 0 := by
  simp [holders, List.countP_cons]

section Erase

variable [DecidableEq α]

theorem owed_erase {a : α} {held : List α} (h : a ∈ held) (k : κ) : owed key weight held k =
      owed key weight (held.erase a) k + if key a = k then weight a else 0 := by
  rw [← owed_cons]
  exact (((List.perm_cons_erase h).filter _).map weight).sum_eq

theorem holders_erase {a : α} {held : List α} (h : a ∈ held) (k : κ) :
    holders key held k = holders key (held.erase a) k + if key a = k then 1 else 0 := by
  rw [← holders_cons]
  exact (List.perm_cons_erase h).countP_eq _

theorem holders_erase_eq_zero {a : α} {held : List α} (h : a ∈ held)
    (hone : holders key held (key a) = 1) : holders key (held.erase a) (key a) = 0 := by
  have herase : holders key held (key a) =
      holders key (held.erase a) (key a) + if key a = key a then 1 else 0 :=
    holders_erase h (key a)
  rw [if_pos rfl] at herase
  omega

end Erase

theorem holders_eq_zero_iff {held : List α} {k : κ} :
    holders key held k = 0 ↔ ∀ a ∈ held, key a ≠ k := by
  simp [holders, List.countP_eq_zero]

theorem holders_eq_zero_of_owed {held : List α} {k : κ} (hpos : ∀ a ∈ held, 0 < weight a)
    (h : owed key weight held k = 0) : holders key held k = 0 := by
  induction held with
  | nil => rfl
  | cons a held ih =>
    rw [owed_cons] at h
    rw [holders_cons]
    have hweight := hpos a List.mem_cons_self
    have hrest := ih (fun b hb => hpos b (List.mem_cons_of_mem a hb)) (by omega)
    by_cases hk : key a = k
    · rw [if_pos hk] at h
      omega
    · rw [if_neg hk, hrest]

end DingoCache.Library
