import DingoCache.Library.IntrusiveList

/-!
# CLOCK Rings over Intrusive Lists

A CLOCK ring is an intrusive list with a sweep hand.  The list wraps around: the
successor of its last record is its head.  What a ring denotes is its *sweep
order*, the members read from the hand once around, so that

- unlinking erases from it (`IsRing.unlink`),
- advancing the hand rotates it by one (`IsRing.advance`).
-/

namespace DingoCache.Library

open List

/-- Head pointer and sweep hand of one ring. -/
structure Ring where
  head : Option Nat := none
  hand : Option Nat := none
deriving DecidableEq

/-- `s` is the sweep order of the ring: from the hand to the end of the list, then from its head up
to the hand. -/
def IsRing (L : Links) (r : Ring) (s : List Nat) : Prop :=
  ∃ l₁ l₂, s = l₂ ++ l₁ ∧ IsList L r.head (l₁ ++ l₂) ∧ r.hand = l₂.head? ∧ (l₂ = [] → l₁ = [])

variable {L L' : Links} {r : Ring} {s : List Nat} {x i : Nat}

/-! ## Reading a ring -/

theorem IsRing.empty (L : Links) : IsRing L {} [] :=
  ⟨[], [], rfl, IsList.nil L, rfl, fun _ => rfl⟩

theorem IsRing.hand_eq (h : IsRing L r s) : r.hand = s.head? := by
  obtain ⟨l₁, l₂, rfl, -, hh, hn⟩ := h
  cases l₂ with
  | nil => simp [hh, hn rfl]
  | cons a l => simp [hh]

theorem IsRing.nodup (h : IsRing L r s) : s.Nodup := by
  obtain ⟨l₁, l₂, rfl, hl, -, -⟩ := h
  exact (perm_append_comm.nodup_iff).mp hl.nodup

theorem IsRing.hand_eq_none (h : IsRing L r s) : r.hand = none ↔ s = [] := by
  rw [h.hand_eq]
  cases s <;> simp

theorem IsRing.congr (h : IsRing L r s) (hp : ∀ i ∈ s, L'.prev i = L.prev i)
    (hn : ∀ i ∈ s, L'.next i = L.next i) : IsRing L' r s := by
  obtain ⟨l₁, l₂, rfl, hl, hh, he⟩ := h
  refine ⟨l₁, l₂, rfl, hl.congr ?_ ?_, hh, he⟩
  · exact fun i hi => hp i (by simp only [mem_append] at hi ⊢; exact hi.symm)
  · exact fun i hi => hn i (by simp only [mem_append] at hi ⊢; exact hi.symm)

/-! ## Linking behind the hand -/

/-- Insert `x` as the last record the sweep will visit. -/
def linkBeforeHand (L : Links) (r : Ring) (x : Nat) : Links × Ring :=
  match r.hand with
  | none => (L, ⟨some x, some x⟩)
  | some h => (L.insertBefore h x, ⟨L.headInsertBefore r.head h x, some h⟩)

theorem IsRing.linkBeforeHand (h : IsRing L r s) (hx : x ∉ s)
    (hclean : s = [] → L.prev x = none ∧ L.next x = none) :
    IsRing (linkBeforeHand L r x).1 (linkBeforeHand L r x).2 (s ++ [x]) := by
  obtain ⟨l₁, l₂, rfl, hl, hh, he⟩ := h
  cases l₂ with
  | nil =>
    obtain rfl := he rfl
    obtain ⟨hp, hn⟩ := hclean rfl
    simp only [head?_nil] at hh
    simp only [Library.linkBeforeHand, hh]
    exact ⟨[], [x], rfl, ⟨rfl, ⟨hp, by simpa using hn, trivial⟩, by simp⟩, rfl, by simp⟩
  | cons a l =>
    simp only [head?_cons] at hh
    simp only [Library.linkBeforeHand, hh]
    refine ⟨l₁ ++ [x], a :: l, by simp, ?_, rfl, by simp⟩
    have hx' : x ∉ l₁ ++ a :: l := fun hm => hx (by simp only [mem_append] at hm ⊢; exact hm.symm)
    simpa using hl.insertBefore hx'

theorem IsRing.linkBeforeHand_frame (h : IsRing L r s) (hi : i ∉ s) (hix : i ≠ x) :
    (Library.linkBeforeHand L r x).1.prev i = L.prev i ∧
      (Library.linkBeforeHand L r x).1.next i = L.next i := by
  obtain ⟨l₁, l₂, rfl, hl, hh, he⟩ := h
  cases l₂ with
  | nil =>
    simp only [head?_nil] at hh
    simp [Library.linkBeforeHand, hh]
  | cons a l =>
    simp only [head?_cons] at hh
    simp only [Library.linkBeforeHand, hh]
    exact hl.insertBefore_frame (by simp)
      (fun hm => hi (by simp only [mem_append] at hm ⊢; exact hm.symm)) hix

/-! ## Unlinking -/

/-- Unlink `x`; a hand that pointed at it moves on to its successor. -/
def unlinkRing (L : Links) (r : Ring) (x : Nat) : Links × Ring :=
  (L.unlink x, ⟨L.headUnlink r.head x,
    if r.hand = some x then (L.next x).or (L.headUnlink r.head x) else r.hand⟩)

theorem IsRing.unlink (h : IsRing L r s) (hx : x ∈ s) :
    IsRing (unlinkRing L r x).1 (unlinkRing L r x).2 (s.erase x) := by
  have hnd := h.nodup
  obtain ⟨l₁, l₂, rfl, hl, hh, he⟩ := h
  by_cases hx₂ : x ∈ l₂
  · cases l₂ with
    | nil => simp at hx₂
    | cons a l =>
      simp only [head?_cons] at hh
      rcases mem_cons.mp hx₂ with rfl | hxl
      · -- the hand's own record leaves: the hand moves to the successor or wraps
        obtain ⟨-, hnext⟩ := hl.links_of_split
        have hul := hl.unlink
        cases l with
        | nil =>
          refine ⟨[], l₁, by simp, ?_, ?_, by simp⟩
          · simpa [unlinkRing] using hul
          · have := hul.head_eq
            simp only [append_nil] at this
            simp [unlinkRing, hh, hnext, this]
        | cons b l =>
          refine ⟨l₁, b :: l, by simp, by simpa [unlinkRing] using hul, ?_, by simp⟩
          simp [unlinkRing, hh, hnext]
      · obtain ⟨u, v, rfl⟩ := append_of_mem hxl
        have hne : a ≠ x := by grind
        have hxu : x ∉ u := by grind
        have hul : IsList (L.unlink x) (L.headUnlink r.head x) ((l₁ ++ a :: u) ++ v) :=
          IsList.unlink (by simpa using hl)
        refine ⟨l₁, a :: (u ++ v), ?_, by simpa [unlinkRing] using hul, ?_, by simp⟩
        · simp [erase_append, hne, hxu]
        · simp [unlinkRing, hh, hne]
  · have hx₁ : x ∈ l₁ := by simpa [hx₂] using hx
    obtain ⟨u, v, rfl⟩ := append_of_mem hx₁
    have hul : IsList (L.unlink x) (L.headUnlink r.head x) (u ++ (v ++ l₂)) :=
      IsList.unlink (by simpa using hl)
    have hxu : x ∉ u := by grind
    have hhand : r.hand ≠ some x := fun e =>
      hx₂ (mem_of_head? (hh ▸ e))
    refine ⟨u ++ v, l₂, ?_, by simpa [unlinkRing] using hul, ?_, ?_⟩
    · simp [erase_append, hx₂, hxu]
    · rw [← hh]
      simp [unlinkRing, hhand]
    · intro e
      have := he e
      simp at this

theorem IsRing.unlink_frame (h : IsRing L r s) (hx : x ∈ s) (hi : i ∉ s) :
    (unlinkRing L r x).1.prev i = L.prev i ∧ (unlinkRing L r x).1.next i = L.next i := by
  obtain ⟨l₁, l₂, rfl, hl, -, -⟩ := h
  exact hl.unlink_frame (by simp only [mem_append] at hx ⊢; exact hx.symm)
    (fun hm => hi (by simp only [mem_append] at hm ⊢; exact hm.symm))

/-! ## Refreshing a member and advancing the hand -/

/-- Move `x` behind the hand, unless it is already the last one in sweep order. -/
def moveBehindHand (L : Links) (r : Ring) (x : Nat) : Links × Ring :=
  if L.next x = r.hand ∨ (L.next x = none ∧ r.hand = r.head) then (L, r)
  else linkBeforeHand (unlinkRing L r x).1 (unlinkRing L r x).2 x

/-- The successor of a record on the ring, where the head follows the end of the list, is the one
after it in sweep order, where the hand follows the last. -/
theorem IsRing.succ_eq (h : IsRing L r s) (hx : x ∈ s) :
    ∃ u v, s = u ++ x :: v ∧ (L.next x).or r.head = v.head?.or s.head? := by
  obtain ⟨l₁, l₂, rfl, hl, -, he⟩ := h
  have hhead := hl.head_eq
  rcases mem_append.mp hx with hx | hx
  · obtain ⟨u, v, rfl⟩ := append_of_mem hx
    have hl' : IsList L r.head ((l₁ ++ u) ++ x :: v) := by simpa using hl
    refine ⟨u, v ++ l₁, by simp, ?_⟩
    rw [hl'.links_of_split.2, hhead]
    cases v <;> cases l₁ <;> simp
  · obtain ⟨u, v, rfl⟩ := append_of_mem hx
    have hl' : IsList L r.head (u ++ x :: (v ++ l₂)) := by simpa using hl
    refine ⟨l₂ ++ u, v, by simp, ?_⟩
    rw [hl'.links_of_split.2]
    cases l₂ with
    | nil => exact absurd (he rfl) (by simp)
    | cons a l => cases v <;> simp

/-- The test of `moveBehindHand` recognises the last record of the sweep. -/
theorem IsRing.behind_hand_iff (h : IsRing L r s) (hx : x ∈ s) :
    (L.next x = r.hand ∨ (L.next x = none ∧ r.hand = r.head)) ↔ s.getLast? = some x := by
  obtain ⟨u, v, hs, hsucc⟩ := h.succ_eq hx
  have hnd := h.nodup
  obtain ⟨a, ha⟩ : ∃ a, r.hand = some a := Option.ne_none_iff_exists'.mp fun e =>
    ne_nil_of_mem hx (h.hand_eq_none.mp e)
  -- both sides say that the successor of `x` on the ring is the hand
  have hhand : (L.next x = r.hand ∨ (L.next x = none ∧ r.hand = r.head)) ↔
      v.head?.or s.head? = r.hand := by
    rw [← hsucc, ha]
    cases L.next x <;> simp [eq_comm]
  rw [hhand, h.hand_eq]
  subst hs
  cases v with
  | nil => simp
  | cons b v =>
    refine iff_of_false (fun e => ?_) fun e => ?_
    · cases u with
      | nil => simp_all
      | cons c u => simp_all
    · have hmem : x ∈ b :: v := mem_of_getLast? (by simpa using e)
      exact (nodup_cons.mp (nodup_append.mp hnd).2.1).1 hmem

theorem IsRing.moveBehindHand (h : IsRing L r s) (hx : x ∈ s) :
    IsRing (moveBehindHand L r x).1 (moveBehindHand L r x).2 (s.erase x ++ [x]) := by
  unfold Library.moveBehindHand
  by_cases hb : L.next x = r.hand ∨ (L.next x = none ∧ r.hand = r.head)
  · rw [if_pos hb]
    have hlast := (h.behind_hand_iff hx).mp hb
    obtain ⟨t, rfl⟩ : ∃ t, s = t ++ [x] := ⟨s.dropLast, (dropLast_append_getLast? x hlast).symm⟩
    have hnd := h.nodup
    have hxt : x ∉ t := by grind
    simpa [erase_append, hxt] using h
  · rw [if_neg hb]
    have hu := h.unlink hx
    refine hu.linkBeforeHand (fun hm => ?_) (fun he => ?_)
    · exact (List.Nodup.mem_erase_iff h.nodup).mp hm |>.1 rfl
    · -- a ring with `x` alone has `x` as its last record
      exfalso
      apply hb
      rw [h.behind_hand_iff hx]
      have hlen := length_erase_of_mem hx
      rw [he] at hlen
      match s, hx, hlen with
      | [y], hx, _ => simp [mem_singleton.mp hx]
      | _ :: _ :: _, _, hlen => simp at hlen

theorem IsRing.moveBehindHand_frame (h : IsRing L r s) (hx : x ∈ s) (hi : i ∉ s) :
    (Library.moveBehindHand L r x).1.prev i = L.prev i ∧
      (Library.moveBehindHand L r x).1.next i = L.next i := by
  unfold Library.moveBehindHand
  split
  · exact ⟨rfl, rfl⟩
  · have hix : i ≠ x := fun e => hi (e ▸ hx)
    have hf := (h.unlink hx).linkBeforeHand_frame (x := x)
      (fun hm => hi (mem_of_mem_erase hm)) hix
    have hf' := h.unlink_frame hx hi
    exact ⟨hf.1.trans hf'.1, hf.2.trans hf'.2⟩

/-- Move the hand from `x` to the record after it, wrapping at the end of the list. -/
def advanceHand (L : Links) (r : Ring) (x : Nat) : Ring :=
  { r with hand := (L.next x).or r.head }

theorem IsRing.advance {t : List Nat} (h : IsRing L r (x :: t)) :
    IsRing L (advanceHand L r x) (t ++ [x]) := by
  obtain ⟨l₁, l₂, hs, hl, hh, he⟩ := h
  cases l₂ with
  | nil => simp [he rfl] at hs
  | cons a l =>
    simp only [cons_append, cons.injEq] at hs
    obtain ⟨rfl, rfl⟩ := hs
    obtain ⟨-, hnext⟩ := hl.links_of_split
    cases l with
    | nil =>
      refine ⟨[], l₁ ++ [x], by simp, by simpa [advanceHand] using hl, ?_, by simp⟩
      simpa [advanceHand, hnext] using hl.head_eq
    | cons b l =>
      refine ⟨l₁ ++ [x], b :: l, by simp, by simpa [advanceHand] using hl, ?_, by simp⟩
      simp [advanceHand, hnext]

end DingoCache.Library
