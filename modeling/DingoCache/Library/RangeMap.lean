import DingoCache.Library.ScatterGather

/-!
# Ordered Maps of Ranges

A set of positions kept as an ordered map from the start of each range to its length, the
ranges neither touching nor overlapping.  The map is its list of entries in key order.

- `emplace`, `eraseKey`, `lowerBound`, `predecessor`: the operations of an ordered map.
- `InRanges`, `totalLength`: the positions in the ranges, and their number.
-/

namespace DingoCache.Library

open List

variable {k v : Nat} {e : Nat × Nat}

/-! ## The operations of an ordered map -/

/-- A new entry, where its key is not yet in the map. -/
def emplace (k v : Nat) : List (Nat × Nat) → List (Nat × Nat)
  | [] => [(k, v)]
  | e :: m =>
    if k < e.1 then (k, v) :: e :: m else if k = e.1 then e :: m else e :: emplace k v m

def eraseKey (k : Nat) (m : List (Nat × Nat)) : List (Nat × Nat) :=
  m.filter fun e => e.1 != k

def lowerBound (k : Nat) (m : List (Nat × Nat)) : Option (Nat × Nat) :=
  m.find? fun e => decide (k ≤ e.1)

def predecessor (k : Nat) (m : List (Nat × Nat)) : Option (Nat × Nat) :=
  (m.filter fun e => decide (e.1 < k)).getLast?

/-! ## Ranges -/

/-- One range ends before the other starts, with room between them. -/
def Gapped (a b : Nat × Nat) : Prop :=
  a.1 + a.2 < b.1 ∨ b.1 + b.2 < a.1

instance : Std.Symm Gapped where
  symm := fun _ _ h => h.symm

instance : Std.Symm Apart where
  symm := fun _ _ h => h.symm

/-- The entries are in order, none touches the next, and none is empty. -/
structure Ranges (m : List (Nat × Nat)) : Prop where
  ordered : m.Pairwise fun a b => a.1 + a.2 < b.1
  nonempty : ∀ e ∈ m, 0 < e.2

def InRanges (m : List (Nat × Nat)) (x : Nat) : Prop :=
  ∃ e ∈ m, e.1 ≤ x ∧ x < e.1 + e.2

def totalLength (m : List (Nat × Nat)) : Nat :=
  (m.map Prod.snd).sum

theorem inRanges_cons (e : Nat × Nat) (m : List (Nat × Nat)) (x : Nat) :
    InRanges (e :: m) x ↔ (e.1 ≤ x ∧ x < e.1 + e.2) ∨ InRanges m x := by
  simp [InRanges]

theorem inRanges_congr {m m' : List (Nat × Nat)} (h : m.Perm m') (x : Nat) :
    InRanges m x ↔ InRanges m' x := by
  simp [InRanges, h.mem_iff]

theorem totalLength_congr {m m' : List (Nat × Nat)} (h : m.Perm m') : totalLength m =
    totalLength m' :=
  (h.map Prod.snd).sum_eq

section

variable {m : List (Nat × Nat)}

theorem Ranges.apart (h : Ranges m) {a b : Nat × Nat} (ha : a ∈ m) (hb : b ∈ m) (hne : a ≠ b) :
    Gapped a b := by
  have hpair : m.Pairwise Gapped := h.ordered.imp fun hlt => .inl hlt
  exact hpair.forall ha hb hne

theorem Ranges.eraseKey (h : Ranges m) (k : Nat) : Ranges (eraseKey k m) where
  ordered := h.ordered.filter _
  nonempty := fun e he => h.nonempty e (mem_of_mem_filter he)

theorem mem_eraseKey : e ∈ eraseKey k m ↔ e ∈ m ∧ e.1 ≠ k := by
  simp [eraseKey]

theorem Ranges.perm_eraseKey (h : Ranges m) (he : e ∈ m) :
    m.Perm (e :: Library.eraseKey e.1 m) := by
  induction m with
  | nil => cases he
  | cons a m ih =>
    have hm : Ranges m := ⟨h.ordered.of_cons, fun b hb => h.nonempty b (mem_cons_of_mem a hb)⟩
    have hlater : ∀ b ∈ m, b.1 ≠ a.1 := fun b hb => by
      have := rel_of_pairwise_cons h.ordered hb
      omega
    rcases mem_cons.mp he with rfl | hem
    · have hrest : Library.eraseKey e.1 (e :: m) = m := by
        simpa [Library.eraseKey, filter_eq_self] using hlater
      rw [hrest]
    · have hkeep : Library.eraseKey e.1 (a :: m) = a :: Library.eraseKey e.1 m := by
        simp [Library.eraseKey, (hlater e hem).symm]
      rw [hkeep]
      exact ((ih hm hem).cons a).trans (List.Perm.swap e a _)

theorem emplace_perm (hfresh : ∀ e ∈ m, e.1 ≠ k) (v : Nat) :
    (emplace k v m).Perm ((k, v) :: m) := by
  induction m with
  | nil => exact List.Perm.refl _
  | cons e m ih =>
    have hne : k ≠ e.1 := (hfresh e mem_cons_self).symm
    unfold emplace
    by_cases hlt : k < e.1
    · rw [if_pos hlt]
    · rw [if_neg hlt, if_neg hne]
      exact ((ih fun b hb => hfresh b (mem_cons_of_mem e hb)).cons e).trans
        (List.Perm.swap (k, v) e m)

theorem Ranges.emplace (h : Ranges m) (hv : 0 < v) (hapart : ∀ e ∈ m, Gapped (k, v) e) :
    Ranges (emplace k v m) := by
  have hfresh : ∀ e ∈ m, e.1 ≠ k := fun e he => by
    have := h.nonempty e he
    rcases hapart e he with hlt | hlt <;> simp only at hlt <;> omega
  refine ⟨?_, fun e he => ?_⟩
  · induction m with
    | nil => exact pairwise_singleton _ _
    | cons e m ih =>
      have hm : Ranges m :=
        ⟨h.ordered.of_cons, fun b hb => h.nonempty b (mem_cons_of_mem e hb)⟩
      have htail : ∀ b ∈ m, e.1 + e.2 < b.1 := fun b => rel_of_pairwise_cons h.ordered
      have hhead := hapart e mem_cons_self
      have hpos := h.nonempty e mem_cons_self
      unfold Library.emplace
      by_cases hlt : k < e.1
      · -- The new range is the first: the others start even later than `e`.
        have hbefore : k + v < e.1 := by
          rcases hhead with hlt' | hlt' <;> simp only at hlt' <;> omega
        rw [if_pos hlt, pairwise_cons]
        refine ⟨fun b hb => ?_, h.ordered⟩
        rcases mem_cons.mp hb with rfl | hb
        · exact hbefore
        · have := htail b hb
          simp only
          omega
      · have hne : k ≠ e.1 := (hfresh e mem_cons_self).symm
        have hrest := ih hm (fun b hb => hapart b (mem_cons_of_mem e hb))
          fun b hb => hfresh b (mem_cons_of_mem e hb)
        rw [if_neg hlt, if_neg hne, pairwise_cons]
        refine ⟨fun b hb => ?_, hrest⟩
        have hmem := (emplace_perm (fun b hb => hfresh b (mem_cons_of_mem e hb)) v).mem_iff.mp hb
        rcases mem_cons.mp hmem with rfl | hb
        · rcases hhead with hlt' | hlt' <;> simp only at hlt' ⊢ <;> omega
        · exact htail b hb
  · rcases mem_cons.mp ((emplace_perm hfresh v).mem_iff.mp he) with rfl | he
    · exact hv
    · exact h.nonempty e he

/-! ## Adding and taking a range -/

/-- The map `m'` has the positions of `m` and those of a further range. -/
structure Extends (m : List (Nat × Nat)) (k v : Nat) (m' : List (Nat × Nat)) : Prop where
  ranges : Ranges m'
  covers : ∀ x, InRanges m' x ↔ InRanges m x ∨ (k ≤ x ∧ x < k + v)
  total : totalLength m' = totalLength m + v
  mem : ∀ e ∈ m', e ∈ m ∨ (e = (k, v) ∧ 0 < v)

theorem Ranges.extends_empty (h : Ranges m) (k : Nat) : Extends m k 0 m where
  ranges := h
  covers := fun x => ⟨.inl, fun hx => hx.resolve_right (by omega)⟩
  total := rfl
  mem := fun _ => .inl

theorem Ranges.extends_emplace (h : Ranges m) (hv : 0 < v) (hapart : ∀ e ∈ m, Gapped (k, v) e) :
    Extends m k v (Library.emplace k v m) := by
  have hfresh : ∀ e ∈ m, e.1 ≠ k := fun e he => by
    have := h.nonempty e he
    rcases hapart e he with hlt | hlt <;> simp only at hlt <;> omega
  have hperm := emplace_perm hfresh v
  refine ⟨h.emplace hv hapart, fun x => ?_, ?_, fun e he => ?_⟩
  · rw [inRanges_congr hperm, inRanges_cons, or_comm]
  · rw [totalLength_congr hperm]
    simp [totalLength, Nat.add_comm]
  · rcases mem_cons.mp (hperm.mem_iff.mp he) with rfl | he
    · exact .inr ⟨rfl, hv⟩
    · exact .inl he

theorem Ranges.extends_ite (h : Ranges m) {c : Prop} [Decidable c] (hc : c ↔ 0 < v)
    (hapart : 0 < v → ∀ e ∈ m, Gapped (k, v) e) :
    Extends m k v (if c then Library.emplace k v m else m) := by
  by_cases hv : 0 < v
  · rw [if_pos (hc.mpr hv)]
    exact h.extends_emplace hv (hapart hv)
  · rw [if_neg (fun hcc => hv (hc.mp hcc)), show v = 0 by omega]
    exact h.extends_empty k

theorem Ranges.extends_eraseKey (h : Ranges m) (he : e ∈ m) :
    Extends (Library.eraseKey e.1 m) e.1 e.2 m := by
  have hperm := h.perm_eraseKey he
  refine ⟨h, fun x => ?_, ?_, fun b hb => ?_⟩
  · rw [inRanges_congr hperm, inRanges_cons, or_comm]
  · rw [totalLength_congr hperm]
    simp [totalLength, Nat.add_comm]
  · rcases mem_cons.mp (hperm.mem_iff.mp hb) with rfl | hb
    · exact .inr ⟨rfl, h.nonempty b he⟩
    · exact .inl hb

/-! ## Neighbours -/

/-- A range that ends at a position is the last one that starts before it. -/
theorem Ranges.predecessor_eq (h : Ranges m) (he : e ∈ m) : predecessor (e.1 + e.2) m = some e := by
  induction m with
  | nil => cases he
  | cons a m ih =>
    have hm : Ranges m := ⟨h.ordered.of_cons, fun b hb => h.nonempty b (mem_cons_of_mem a hb)⟩
    have hpos := h.nonempty e he
    rcases mem_cons.mp he with rfl | hem
    · -- Everything after `e` starts after its end.
      have hnone : (m.filter fun b => decide (b.1 < e.1 + e.2)) = [] := by
        rw [filter_eq_nil_iff]
        intro b hb
        have := rel_of_pairwise_cons h.ordered hb
        simp only [decide_eq_true_eq]
        omega
      simp [predecessor, hnone, hpos]
    · have hlt := rel_of_pairwise_cons h.ordered hem
      have ha : a.1 < e.1 + e.2 := by omega
      have hrest := ih hm hem
      unfold predecessor at hrest ⊢
      rw [filter_cons_of_pos (by simpa using ha), getLast?_cons, hrest]
      rfl

theorem mem_of_predecessor (h : predecessor k m = some e) : e ∈ m :=
  mem_of_mem_filter (mem_of_getLast? h)

/-- A range that starts at a position is the first one from it on. -/
theorem Ranges.lowerBound_eq (h : Ranges m) (he : e ∈ m) : lowerBound e.1 m = some e := by
  induction m with
  | nil => cases he
  | cons a m ih =>
    rcases mem_cons.mp he with rfl | hem
    · simp [lowerBound]
    · have hm : Ranges m :=
        ⟨h.ordered.of_cons, fun b hb => h.nonempty b (mem_cons_of_mem a hb)⟩
      have hlt := rel_of_pairwise_cons h.ordered hem
      have hnot : ¬e.1 ≤ a.1 := by omega
      have := ih hm hem
      simpa [lowerBound, hnot] using this

theorem mem_of_lowerBound (h : lowerBound k m = some e) : e ∈ m :=
  mem_of_find?_eq_some h

end

end DingoCache.Library
