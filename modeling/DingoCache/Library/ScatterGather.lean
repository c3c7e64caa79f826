import DingoCache.Library.FlatFile

/-!
# Scatter and Gather

A list of segments, each a position and a size, names a value as the concatenation of
runs of a flat file.

- `gather`: the values in the segments, in order.
- `scatter`: a list of values written to the segments, in order.
-/

namespace DingoCache.Library

variable {α : Type} {d e : Nat × Nat}

def Covers (d : Nat × Nat) (i : Nat) : Prop := d.1 ≤ i ∧ i < d.1 + d.2

def Apart (d e : Nat × Nat) : Prop := d.1 + d.2 ≤ e.1 ∨ e.1 + e.2 ≤ d.1

theorem Apart.symm (h : Apart d e) : Apart e d := Or.symm h

end DingoCache.Library
