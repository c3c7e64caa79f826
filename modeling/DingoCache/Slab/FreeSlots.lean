import DingoCache.Slab.Model

/-!
# Free Slots of One Class

What `PushFreeLocked`, `PopFreeLocked`, `TakeFreeSlotLocked`,
`DropExtentFreeLocked` and the fill loop of `BindExtentLocked` do to the free
lists of a class:

- `RotationOk`: free lists hold no slot twice, and the rotation `ext_rr` lists
  exactly the extents that have a free slot.
- `Took`: one slot left the free lists; `Dropped`: all slots of an extent did.
- Every operation keeps `RotationOk` and leaves the other fields alone.
-/

namespace DingoCache.Slab

open Library List
open Function (update update_eq_self)

open SizeClass

namespace SizeClass

/-! ## The invariant of the rotation -/

/-- Free lists are duplicate-free and the rotation lists the non-empty ones once. -/
structure RotationOk (c : SizeClass) : Prop where
  nodup : ∀ e, (c.freeByExt e).Nodup
  rr_nodup : c.extRr.Nodup
  rr_mem : ∀ e, e ∈ c.extRr ↔ c.freeByExt e ≠ []

/-- `c'` differs from `c` in the free-slot fields only. -/
def SameBase (c c' : SizeClass) : Prop :=
  c' = { c with
    freeByExt := c'.freeByExt, extRr := c'.extRr, rrNext := c'.rrNext, freeCount := c'.freeCount }

/-- Slot `s` of extent `e` left the free lists. -/
structure Took (c c' : SizeClass) (e s : Nat) : Prop where
  rotation : RotationOk c'
  base : SameBase c c'
  frame : ∀ e', e' ≠ e → c'.freeByExt e' = c.freeByExt e'
  perm : (s :: c'.freeByExt e).Perm (c.freeByExt e)
  count : c'.freeCount = c.freeCount - 1

/-- All slots of extent `e` left the free lists. -/
structure Dropped (c c' : SizeClass) (e : Nat) : Prop where
  rotation : RotationOk c'
  base : SameBase c c'
  free : c'.freeByExt = update c.freeByExt e []
  count : c'.freeCount = c.freeCount - (c.freeByExt e).length

variable {c c' : SizeClass} {e s i : Nat}

theorem Took.mem (h : Took c c' e s) : s ∈ c.freeByExt e :=
  h.perm.subset (by simp)

theorem Took.not_mem (h : Took c c' e s) (hc : RotationOk c) : s ∉ c'.freeByExt e := by
  have hnd := (h.perm.nodup_iff).mpr (hc.nodup e)
  exact (nodup_cons.mp hnd).1

theorem Took.mem_iff (h : Took c c' e s) (hc : RotationOk c) (e' s' : Nat) :
    s' ∈ c'.freeByExt e' ↔ s' ∈ c.freeByExt e' ∧ ¬(e' = e ∧ s' = s) := by
  rcases eq_or_ne e' e with rfl | he
  · rw [← h.perm.mem_iff, mem_cons]
    constructor
    · intro hs
      exact ⟨Or.inr hs, fun hs' => h.not_mem hc (hs'.2 ▸ hs)⟩
    · rintro ⟨rfl | hs, hne⟩
      · exact absurd ⟨rfl, rfl⟩ hne
      · exact hs
  · simp [h.frame e' he, he]

theorem Took.length_add_one (h : Took c c' e s) :
    (c'.freeByExt e).length + 1 = (c.freeByExt e).length := by
  simpa using h.perm.length_eq

/-! ## Freeing a slot -/

theorem RotationOk.pushFree (h : RotationOk c) (hs : s ∉ c.freeByExt e) :
    RotationOk (c.pushFree e s) where
  nodup e' := by
    rcases eq_or_ne e' e with rfl | he
    · simpa [SizeClass.pushFree, nodup_append] using
        ⟨h.nodup e', fun x hx hxs => hs (hxs ▸ hx)⟩
    · simpa [SizeClass.pushFree, he] using h.nodup e'
  rr_nodup := by
    by_cases hf : c.freeByExt e = []
    · have he : e ∉ c.extRr := fun hm => (h.rr_mem e).mp hm hf
      simpa [SizeClass.pushFree, hf, nodup_append] using
        ⟨h.rr_nodup, fun x hx hxe => he (hxe ▸ hx)⟩
    · simpa [SizeClass.pushFree, hf] using h.rr_nodup
  rr_mem e' := by
    rcases eq_or_ne e' e with rfl | he
    · by_cases hf : c.freeByExt e' = []
      · simp [SizeClass.pushFree, hf]
      · simpa [SizeClass.pushFree, hf] using (h.rr_mem e').mpr hf
    · by_cases hf : c.freeByExt e = [] <;> simp [SizeClass.pushFree, hf, he, h.rr_mem]

theorem pushFree_freeByExt_self : (c.pushFree e s).freeByExt e = c.freeByExt e ++ [s] := by
  simp [SizeClass.pushFree]

theorem pushFree_freeByExt_ne {e' : Nat} (he : e' ≠ e) :
    (c.pushFree e s).freeByExt e' = c.freeByExt e' := by
  simp [SizeClass.pushFree, he]

/-! ## Leaving the rotation -/

theorem dropFromRotation_spec (hnd : c.extRr.Nodup) (e : Nat) :
    (c.dropFromRotation e).extRr.Perm (c.extRr.erase e) ∧ SameBase c (c.dropFromRotation e) ∧
      (c.dropFromRotation e).freeByExt = c.freeByExt ∧
      (c.dropFromRotation e).freeCount = c.freeCount := by
  unfold dropFromRotation
  cases hscan : scanIdx c.extRr e with
  | none =>
    rw [erase_of_not_mem (scanIdx_eq_none.mp hscan)]
    exact ⟨.refl _, rfl, rfl, rfl⟩
  | some i =>
    obtain ⟨hi, he⟩ := scanIdx_eq_some hscan
    exact ⟨swapRemove_perm_erase hnd hi he, rfl, rfl, rfl⟩

theorem RotationOk.drop (h : RotationOk c) {f : Nat → List Nat} {rr : List Nat} (next count : Nat)
    (hf : f = update c.freeByExt e []) (hrr : rr.Perm (c.extRr.erase e)) :
    RotationOk { c with freeByExt := f, extRr := rr, rrNext := next, freeCount := count } where
  nodup e' := by
    subst hf
    rcases eq_or_ne e' e with rfl | he
    · simp
    · simpa [he] using h.nodup e'
  rr_nodup := (hrr.nodup_iff).mpr (h.rr_nodup.erase e)
  rr_mem e' := by
    subst hf
    rcases eq_or_ne e' e with rfl | he
    · simp [hrr.mem_iff, h.rr_nodup.mem_erase_iff]
    · simp [hrr.mem_iff, h.rr_nodup.mem_erase_iff, he, h.rr_mem]

theorem RotationOk.shrink (h : RotationOk c) {l : List Nat} (next count : Nat) (hl : l ≠ [])
    (hp : (s :: l).Perm (c.freeByExt e)) :
    RotationOk { c with
      freeByExt := update c.freeByExt e l, rrNext := next, freeCount := count } where
  nodup e' := by
    rcases eq_or_ne e' e with rfl | he
    · have hnd := (hp.nodup_iff).mpr (h.nodup e')
      simpa using (nodup_cons.mp hnd).2
    · simpa [he] using h.nodup e'
  rr_nodup := h.rr_nodup
  rr_mem e' := by
    rcases eq_or_ne e' e with rfl | he
    · have hne : c.freeByExt e' ≠ [] := fun h0 => by simp [h0] at hp
      simpa [hl] using (h.rr_mem e').mpr hne
    · simp [he, h.rr_mem]

theorem dropExtentFree_spec (h : RotationOk c) (e : Nat) : Dropped c (c.dropExtentFree e) e := by
  unfold dropExtentFree
  by_cases hf : c.freeByExt e = []
  · rw [if_pos hf]
    refine ⟨h, rfl, ?_, by simp [hf]⟩
    rw [← hf, update_eq_self]
  · rw [if_neg hf]
    obtain ⟨hrr, hbase, hfree, hcount⟩ := dropFromRotation_spec
      (c := { c with
        freeCount := c.freeCount - (c.freeByExt e).length
        freeByExt := update c.freeByExt e [] }) h.rr_nodup e
    refine ⟨?_, ?_, hfree, hcount⟩
    · rw [hbase]
      exact h.drop _ _ hfree hrr
    · rw [hbase]
      rfl

/-! ## Taking a slot -/

theorem popFree_spec (h : RotationOk c) (hp : c.popFree = some (c', e, s)) : Took c c' e s := by
  unfold popFree at hp
  cases hcur : c.extRr[c.popCursor]? with
  | none => simp [hcur] at hp
  | some e₀ =>
    cases hlast : (c.freeByExt e₀).getLast? with
    | none => simp [hcur, hlast] at hp
    | some s₀ =>
      simp only [hcur, hlast, Option.some.injEq, Prod.mk.injEq] at hp
      obtain ⟨rfl, rfl, rfl⟩ := hp
      obtain ⟨hi, hget⟩ := List.getElem?_eq_some_iff.mp hcur
      have hsplit : (c.freeByExt e₀).dropLast ++ [s₀] = c.freeByExt e₀ :=
        dropLast_append_getLast? s₀ hlast
      have hperm : (s₀ :: (c.freeByExt e₀).dropLast).Perm (c.freeByExt e₀) := by
        conv_rhs => rw [← hsplit]
        exact (perm_append_singleton s₀ _).symm
      refine ⟨?_, rfl, fun e' he => by simp [he], by simpa using hperm, rfl⟩
      by_cases hrest : (c.freeByExt e₀).dropLast = []
      · simp only [hrest, if_true]
        exact h.drop _ _ rfl (swapRemove_perm_erase h.rr_nodup hi hget)
      · simp only [hrest, if_false]
        exact h.shrink _ _ hrest hperm

theorem popFree_isSome (h : RotationOk c) (hrr : c.extRr ≠ []) : ∃ r, c.popFree = some r := by
  have hlen : 0 < c.extRr.length := length_pos_iff.mpr hrr
  have hcur : c.popCursor < c.extRr.length := by
    unfold popCursor
    split <;> omega
  have hne : c.freeByExt c.extRr[c.popCursor] ≠ [] :=
    (h.rr_mem _).mp (getElem_mem hcur)
  obtain ⟨s, hs⟩ := Option.ne_none_iff_exists'.mp (mt getLast?_eq_none_iff.mp hne)
  simp [popFree, List.getElem?_eq_getElem hcur, hs]

theorem popFree_eq_none (h : RotationOk c) : c.popFree = none ↔ c.extRr = [] := by
  constructor
  · intro hp
    by_contra hrr
    obtain ⟨r, hr⟩ := popFree_isSome h hrr
    simp [hp] at hr
  · intro hrr
    simp [popFree, hrr]

theorem takeFreeSlot_spec (h : RotationOk c) (ht : c.takeFreeSlot e s = some c') :
    Took c c' e s := by
  unfold takeFreeSlot at ht
  cases hscan : scanIdx (c.freeByExt e) s with
  | none => simp [hscan] at ht
  | some i =>
    obtain ⟨hi, hget⟩ := scanIdx_eq_some hscan
    have hperm : (s :: swapRemove (c.freeByExt e) i).Perm (c.freeByExt e) :=
      ((swapRemove_perm_erase (h.nodup e) hi hget).cons s).trans
        (perm_cons_erase (hget ▸ getElem_mem hi)).symm
    simp only [hscan, Option.some.injEq] at ht
    by_cases hrest : swapRemove (c.freeByExt e) i = []
    · rw [if_pos hrest] at ht
      subst ht
      obtain ⟨hrr, hbase, hfree, hcount⟩ := dropFromRotation_spec
        (c := { c with
          freeByExt := update c.freeByExt e (swapRemove (c.freeByExt e) i)
          freeCount := c.freeCount - 1 }) h.rr_nodup e
      refine ⟨?_, ?_, fun e' he => by simp [hfree, he], by simpa [hfree] using hperm, hcount⟩
      · rw [hbase]
        exact h.drop _ _ (by rw [hfree, hrest]) hrr
      · rw [hbase]
        rfl
    · rw [if_neg hrest] at ht
      subst ht
      exact ⟨h.shrink _ _ hrest hperm, rfl, fun e' he => by simp [he], by simpa using hperm, rfl⟩

theorem takeFreeSlot_eq_none : c.takeFreeSlot e s = none ↔ s ∉ c.freeByExt e := by
  rw [← scanIdx_eq_none, takeFreeSlot]
  cases scanIdx (c.freeByExt e) s <;> simp

/-! ## Binding a fresh extent -/

/-- The fill loop appends the slots in order and enters the rotation once. -/
theorem foldl_pushFree_spec (l : List Nat) :
    ∀ c : SizeClass, RotationOk c → (c.freeByExt e ++ l).Nodup →
      let c' := l.foldl (fun c slot => c.pushFree e slot) c
      RotationOk c' ∧ SameBase c c' ∧ c'.freeByExt = update c.freeByExt e (c.freeByExt e ++ l) ∧
        c'.freeCount = c.freeCount + l.length ∧
        c'.extRr = if c.freeByExt e = [] ∧ l ≠ [] then c.extRr ++ [e] else c.extRr := by
  induction l with
  | nil =>
    intro c hc _
    exact ⟨hc, rfl, by simp, rfl, by simp⟩
  | cons s l ih =>
    intro c hc hnd
    have hs : s ∉ c.freeByExt e := by
      intro hm
      rw [nodup_append] at hnd
      exact hnd.2.2 s hm s (by simp) rfl
    have hself : (c.pushFree e s).freeByExt e = c.freeByExt e ++ [s] := pushFree_freeByExt_self
    obtain ⟨hrot, hbase, hfree, hcount, hrr⟩ :=
      ih (c.pushFree e s) (hc.pushFree hs) (by simpa [hself] using hnd)
    refine ⟨hrot, ?_, ?_, ?_, ?_⟩
    · simp only [foldl_cons]
      rw [hbase]
      rfl
    · simp only [foldl_cons]
      rw [hfree, hself]
      simp [SizeClass.pushFree]
    · simp only [foldl_cons, length_cons]
      rw [hcount]
      simp only [SizeClass.pushFree]
      omega
    · simp only [foldl_cons]
      rw [hrr, hself]
      by_cases hf : c.freeByExt e = [] <;> simp [SizeClass.pushFree, hf]

/-- The class after every slot of a fresh extent was pushed. -/
structure Filled (c c' : SizeClass) (e : Nat) : Prop where
  rotation : RotationOk c'
  base : SameBase c c'
  free : c'.freeByExt = update c.freeByExt e (range c.slotsPerExtent)
  count : c'.freeCount = c.freeCount + c.slotsPerExtent
  rr : c'.extRr = if c.slotsPerExtent = 0 then c.extRr else c.extRr ++ [e]

theorem pushExtent_spec (h : RotationOk c) (he : c.freeByExt e = []) :
    Filled c (c.pushExtent e) e := by
  obtain ⟨hrot, hbase, hfree, hcount, hrr⟩ :=
    foldl_pushFree_spec (e := e) (range c.slotsPerExtent) c h
      (by simpa [he] using nodup_range)
  refine ⟨hrot, hbase, by simpa [he, pushExtent] using hfree,
    by simpa [pushExtent] using hcount, ?_⟩
  rw [pushExtent, hrr]
  by_cases h0 : c.slotsPerExtent = 0 <;> simp [he, h0]

end SizeClass

end DingoCache.Slab
