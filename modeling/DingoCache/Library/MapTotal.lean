import Mathlib

/-!
# Totals over Finite Maps

A counter kept next to a map is the total weight of its entries.  `total` is that
sum for association lists, and the lemmas say how it moves with `insert` and
`erase`.
-/

namespace DingoCache.Library

variable {α β : Type} [DecidableEq α] {m m' : AList fun _ : α => β} {w : α → β → Nat} {a : α}
  {b b' : β}

/-- The total weight of the entries of `m`. -/
def total (m : AList fun _ : α => β) (w : α → β → Nat) : Nat :=
  (m.entries.map fun x => w x.1 x.2).sum

theorem total_congr (h : ∀ a, m'.lookup a = m.lookup a) : total m' w = total m w := by
  refine (List.Perm.map _ ?_).sum_eq
  exact List.lookup_ext m'.nodupKeys m.nodupKeys fun a b => by
    rw [show m'.entries.dlookup a = m.entries.dlookup a from h a]

theorem total_insert_erase (m : AList fun _ : α => β) (w : α → β → Nat) (a : α) (b : β) :
    total (m.insert a b) w = w a b + total (m.erase a) w := by
  simp [total, AList.entries_insert, AList.erase]

theorem total_erase_of_none (h : m.lookup a = none) : total (m.erase a) w = total m w := by
  refine total_congr fun a' => ?_
  rcases eq_or_ne a' a with rfl | ha
  · rw [AList.lookup_erase, h]
  · rw [AList.lookup_erase_ne ha]

theorem total_erase (h : m.lookup a = some b) : total (m.erase a) w + w a b = total m w := by
  rw [Nat.add_comm, ← total_insert_erase]
  refine total_congr fun a' => ?_
  rcases eq_or_ne a' a with rfl | ha
  · rw [AList.lookup_insert, h]
  · rw [AList.lookup_insert_ne ha]

theorem total_insert (h : m.lookup a = none) : total (m.insert a b) w = total m w + w a b := by
  rw [total_insert_erase, total_erase_of_none h, Nat.add_comm]

theorem total_replace (h : m.lookup a = some b') :
    total (m.insert a b) w + w a b' = total m w + w a b := by
  rw [total_insert_erase, ← total_erase h]
  omega

end DingoCache.Library
