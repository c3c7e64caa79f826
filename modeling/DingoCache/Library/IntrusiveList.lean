import Mathlib

/-!
# Intrusive Doubly Linked Lists

Records of a dense table carry `prev` and `next` indices, and several lists may
thread through the same link tables.  This file gives the pointer operations
(insert before a record, push at the front, unlink) and the list each of them
denotes.

- `Seg L p l q`: the members of `l` are linked in order, `p` before and `q` after.
- `IsList L head l`: `head` is the head pointer of exactly the list `l`.

Every operation has a spec lemma and a frame lemma; lists with no member in
common with the one operated on keep their meaning by `IsList.congr`.
-/

namespace DingoCache.Library

open Function (update update_apply update_of_ne)

open List

variable {L : Links} {head p : Option Nat} {l l₁ l₂ : List Nat} {x i : Nat}

/-! ## Link tables -/

/-- Predecessor and successor of every index of a dense record table. -/
structure Links where
  prev : Nat → Option Nat
  next : Nat → Option Nat

open Links

/-- Link tables in which no index is linked. -/
def Links.empty : Links := ⟨fun _ => none, fun _ => none⟩

def Links.clear (L : Links) (x : Nat) : Links :=
  ⟨update L.prev x none, update L.next x none⟩

/-- `l` is a linked segment, entered from `p` and leaving to `q`. -/
def Seg (L : Links) : Option Nat → List Nat → Option Nat → Prop
  | _, [], _ => True
  | p, a :: l, q => L.prev a = p ∧ L.next a = l.head?.or q ∧ Seg L (some a) l q

/-- `head` points at the first record of exactly the list `l`. -/
structure IsList (L : Links) (head : Option Nat) (l : List Nat) : Prop where
  head_eq : head = l.head?
  seg : Seg L none l none
  nodup : l.Nodup

theorem Seg.congr {L' : Links} {q : Option Nat} (hp : ∀ i ∈ l, L'.prev i = L.prev i)
    (hn : ∀ i ∈ l, L'.next i = L.next i) (h : Seg L p l q) : Seg L' p l q := by
  induction l generalizing p with
  | nil => trivial
  | cons a l ih =>
    obtain ⟨h1, h2, h3⟩ := h
    refine ⟨?_, ?_, ?_⟩
    · rw [hp a (by simp), h1]
    · rw [hn a (by simp), h2]
    · exact ih (fun i hi => hp i (by simp [hi])) (fun i hi => hn i (by simp [hi])) h3

/-- A segment splits at any point, each half seeing the other's end. -/
theorem seg_append {q : Option Nat} : Seg L p (l₁ ++ l₂) q ↔
      Seg L p l₁ (l₂.head?.or q) ∧ Seg L (l₁.getLast?.or p) l₂ q := by
  induction l₁ generalizing p with
  | nil => simp [Seg]
  | cons a l₁ ih =>
    have hhead : (l₁ ++ l₂).head?.or q = l₁.head?.or (l₂.head?.or q) := by
      cases l₁ <;> simp
    have hlast : (a :: l₁).getLast?.or p = l₁.getLast?.or (some a) := by
      cases l₁ with
      | nil => simp
      | cons b l =>
        obtain ⟨c, hc⟩ : ∃ c, (b :: l).getLast? = some c :=
          ⟨_, getLast?_eq_some_getLast (by simp)⟩
        rw [getLast?_cons_cons, hc]; simp
    simp only [cons_append, Seg, ih, hhead, hlast]
    tauto

theorem IsList.congr {L' : Links} (hp : ∀ i ∈ l, L'.prev i = L.prev i)
    (hn : ∀ i ∈ l, L'.next i = L.next i) (h : IsList L head l) : IsList L' head l :=
  ⟨h.head_eq, h.seg.congr hp hn, h.nodup⟩

theorem IsList.nil (L : Links) : IsList L none [] :=
  ⟨rfl, trivial, nodup_nil⟩

theorem IsList.links_of_split (h : IsList L head (l₁ ++ x :: l₂)) :
    L.prev x = l₁.getLast? ∧ L.next x = l₂.head? := by
  have hx := (seg_append.mp h.seg).2
  exact ⟨by simpa using hx.1, by simpa using hx.2.1⟩

theorem IsList.exists_split (_ : IsList L head l) (hx : x ∈ l) : ∃ l₁ l₂, l = l₁ ++ x :: l₂ :=
  append_of_mem hx

theorem Seg.enter {L' : Links} {p' q : Option Nat} (h : Seg L p l q) (hnd : l.Nodup)
    (hp : ∀ i ∈ l, L'.prev i = if l.head? = some i then p' else L.prev i)
    (hn : ∀ i ∈ l, L'.next i = L.next i) : Seg L' p' l q := by
  cases l with
  | nil => trivial
  | cons a l =>
    have ha := (nodup_cons.mp hnd).1
    refine ⟨by simp [hp a], (hn a (by simp)).trans h.2.1, h.2.2.congr (fun i hi =>
      ?_) fun i hi => ?_⟩
    · have hne : a ≠ i := fun e => ha (e ▸ hi)
      simp [hp i (by simp [hi]), hne]
    · exact hn i (by simp [hi])

theorem Seg.leave {L' : Links} {q q' : Option Nat} (h : Seg L p l q) (hnd : l.Nodup)
    (hp : ∀ i ∈ l, L'.prev i = L.prev i)
    (hn : ∀ i ∈ l, L'.next i = if l.getLast? = some i then q' else L.next i) : Seg L' p l q' := by
  rcases eq_nil_or_concat' l with rfl | ⟨l, a, rfl⟩
  · trivial
  · obtain ⟨hl, hprev, -⟩ := seg_append.mp h
    have ha : a ∉ l := fun hm => (nodup_append.mp hnd).2.2 a hm a (by simp) rfl
    refine seg_append.mpr ⟨hl.congr (fun i hi => hp i (by simp [hi])) fun i hi => ?_,
      ?_, ?_, trivial⟩
    · have hne : a ≠ i := fun e => ha (e ▸ hi)
      simp [hn i (by simp [hi]), hne]
    · rw [hp a (by simp), hprev]
    · simp [hn a]

/-! ## Insertion before a member -/

/-- Link tables after inserting `x` before the member `h`. -/
def Links.insertBefore (L : Links) (h x : Nat) : Links where
  prev := update (update L.prev x (L.prev h)) h (some x)
  next :=
    match L.prev h with
    | some p => update (update L.next x (some h)) p (some x)
    | none => update L.next x (some h)

/-- Head pointer after inserting `x` before the member `h`. -/
def Links.headInsertBefore (L : Links) (head : Option Nat) (h x : Nat) : Option Nat :=
  match L.prev h with
  | some _ => head
  | none => some x

theorem Links.insertBefore_prev (L : Links) (h x i : Nat) : (L.insertBefore h x).prev i =
    if i = h then some x else if i = x then L.prev h else L.prev i := by
  simp only [insertBefore, update_apply]

theorem Links.insertBefore_next (L : Links) (h x i : Nat) : (L.insertBefore h x).next i =
    if L.prev h = some i then some x else if i = x then some h else L.next i := by
  unfold insertBefore
  cases L.prev h with
  | none => simp [update_apply]
  | some p => simp [update_apply, eq_comm]

theorem IsList.insertBefore {h : Nat} (hl : IsList L head (l₁ ++ h :: l₂)) (hx : x ∉
    l₁ ++ h :: l₂) :
    IsList (L.insertBefore h x) (L.headInsertBefore head h x) (l₁ ++ x :: h :: l₂) := by
  obtain ⟨hprev, hnext⟩ := hl.links_of_split
  obtain ⟨hseg₁, -, -, hseg₂⟩ := seg_append.mp hl.seg
  have hnd := hl.nodup
  have hnodup : (l₁ ++ x :: h :: l₂).Nodup := by grind
  have hlast : ∀ {i}, l₁.getLast? = some i → i ∈ l₁ := mem_of_getLast?
  refine ⟨?_, seg_append.mpr ⟨?_, ?_, ?_, ?_, ?_, ?_⟩, hnodup⟩
  · rw [headInsertBefore, hprev, hl.head_eq]
    cases l₁ with
    | nil => rfl
    | cons a l₁ => simp [getLast?_cons]
  · refine hseg₁.leave (by grind) (fun i hi => ?_) fun i hi => ?_
    · rw [insertBefore_prev]
      grind
    · rw [insertBefore_next, hprev]
      grind
  · rw [insertBefore_prev]
    grind
  · rw [insertBefore_next, hprev]
    grind
  · rw [insertBefore_prev]
    grind
  · rw [insertBefore_next, hprev]
    grind
  · refine hseg₂.congr (fun i hi => ?_) fun i hi => ?_
    · rw [insertBefore_prev]
      grind
    · rw [insertBefore_next, hprev]
      grind

/-- Insertion touches only the inserted record and members of the list. -/
theorem IsList.insertBefore_frame {h : Nat} (hl : IsList L head l) (hh : h ∈ l) (hi : i ∉ l)
    (hix : i ≠ x) :
    (L.insertBefore h x).prev i = L.prev i ∧ (L.insertBefore h x).next i = L.next i := by
  obtain ⟨l₁, l₂, rfl⟩ := hl.exists_split hh
  have hprev : L.prev h ≠ some i := fun e =>
    hi (mem_append_left _ (mem_of_getLast? (hl.links_of_split.1 ▸ e)))
  have hih : i ≠ h := fun e => hi (e ▸ hh)
  rw [insertBefore_prev, insertBefore_next, if_neg hih, if_neg hix, if_neg hprev, if_neg hix]
  exact ⟨rfl, rfl⟩

/-! ## Insertion at the front -/

/-- Link tables after pushing `x` in front of the list with head pointer `head`. -/
def Links.pushFront (L : Links) (head : Option Nat) (x : Nat) : Links where
  prev :=
    match head with
    | some h => update L.prev h (some x)
    | none => L.prev
  next := update L.next x head

theorem IsList.pushFront (hl : IsList L head l) (hx : x ∉ l) (hclean : L.prev x = none) :
    IsList (L.pushFront head x) (some x) (x :: l) := by
  have hhead := hl.head_eq
  have hprev : ∀ i, (L.pushFront head x).prev i = if head = some i then some x else L.prev i := by
    intro i
    cases head with
    | none => rfl
    | some h => simp [Links.pushFront, update_apply, eq_comm]
  refine ⟨rfl, ⟨?_, by simp [Links.pushFront, hhead], ?_⟩, nodup_cons.mpr ⟨hx, hl.nodup⟩⟩
  · rw [hprev, hclean, if_neg fun e => hx (mem_of_head? (hhead ▸ e))]
  · refine hl.seg.enter hl.nodup (fun i hi => hhead ▸ hprev i) fun i hi => ?_
    have hne : i ≠ x := fun e => hx (e ▸ hi)
    simp [Links.pushFront, hne]

theorem IsList.pushFront_frame (hl : IsList L head l) (hi : i ∉ l) (hix : i ≠ x) :
    (L.pushFront head x).prev i = L.prev i ∧ (L.pushFront head x).next i = L.next i := by
  refine ⟨?_, by simp [Links.pushFront, hix]⟩
  cases head with
  | none => rfl
  | some h =>
    have hmem : h ∈ l := mem_of_head? hl.head_eq.symm
    have hne : i ≠ h := fun e => hi (e ▸ hmem)
    simp [Links.pushFront, hne]

/-! ## Unlinking -/

/-- Link tables after unlinking `x` (its own links are left as they are). -/
def Links.unlink (L : Links) (x : Nat) : Links where
  prev :=
    match L.next x with
    | some n => update L.prev n (L.prev x)
    | none => L.prev
  next :=
    match L.prev x with
    | some p => update L.next p (L.next x)
    | none => L.next

/-- Head pointer after unlinking `x`. -/
def Links.headUnlink (L : Links) (head : Option Nat) (x : Nat) : Option Nat :=
  match L.prev x with
  | some _ => head
  | none => L.next x

theorem Links.unlink_prev (L : Links) (x i : Nat) : (L.unlink x).prev i =
    if L.next x = some i then L.prev x else L.prev i := by
  unfold unlink
  cases L.next x with
  | none => rfl
  | some n => simp [update_apply, eq_comm]

theorem Links.unlink_next (L : Links) (x i : Nat) : (L.unlink x).next i =
    if L.prev x = some i then L.next x else L.next i := by
  unfold unlink
  cases L.prev x with
  | none => rfl
  | some p => simp [update_apply, eq_comm]

theorem IsList.unlink (hl : IsList L head (l₁ ++ x :: l₂)) :
    IsList (L.unlink x) (L.headUnlink head x) (l₁ ++ l₂) := by
  obtain ⟨hprev, hnext⟩ := hl.links_of_split
  obtain ⟨hseg₁, -, -, hseg₂⟩ := seg_append.mp hl.seg
  have hnd := hl.nodup
  have hlast : ∀ {i}, l₁.getLast? = some i → i ∈ l₁ := mem_of_getLast?
  have hfirst : ∀ {i}, l₂.head? = some i → i ∈ l₂ := mem_of_head?
  refine ⟨?_, seg_append.mpr ⟨?_, ?_⟩, by grind⟩
  · rw [headUnlink, hprev, hl.head_eq]
    cases l₁ with
    | nil => simpa using hnext
    | cons a l₁ => simp [getLast?_cons]
  · refine hseg₁.leave (by grind) (fun i hi => ?_) fun i hi => ?_
    · rw [unlink_prev, hnext]
      grind
    · rw [unlink_next, hprev, hnext]
      simp
  · refine hseg₂.enter (by grind) (fun i hi => ?_) fun i hi => ?_
    · rw [unlink_prev, hnext, hprev]
      simp
    · rw [unlink_next, hprev]
      grind

theorem IsList.unlink_frame (hl : IsList L head l) (hx : x ∈ l) (hi : i ∉ l) :
    (L.unlink x).prev i = L.prev i ∧ (L.unlink x).next i = L.next i := by
  obtain ⟨l₁, l₂, rfl⟩ := hl.exists_split hx
  obtain ⟨hprev, hnext⟩ := hl.links_of_split
  have hn : L.next x ≠ some i := fun e => hi (by simp [mem_of_head? (hnext ▸ e)])
  have hp : L.prev x ≠ some i := fun e => hi (by simp [mem_of_getLast? (hprev ▸ e)])
  rw [unlink_prev, unlink_next, if_neg hn, if_neg hp]
  exact ⟨rfl, rfl⟩

end DingoCache.Library
