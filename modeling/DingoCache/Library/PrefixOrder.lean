import Mathlib

/-!
# Front Parts in the Lexicographic Order

The lists that start with a given list are an interval of the lexicographic order.  A
sorted list therefore holds them next to each other, and one pass that drops a label
equal to the one before finds each label once.

- `nodup_changes`, `mem_changes`: if equal labels stand together, each is found once.
-/

namespace DingoCache.Library

open List

variable {α β : Type*}

/-! ## Front parts -/

section Order

variable [LT α] [Std.Asymm (· < · : α → α → Prop)] [Std.Trichotomous (· < · : α → α → Prop)]

theorem le_of_isPrefix {p k : List α} (h : p <+: k) : p ≤ k := by
  induction p generalizing k with
  | nil => exact nil_le k
  | cons x p ih =>
    obtain ⟨t, rfl⟩ := h
    exact cons_le_cons_iff.mpr (.inr ⟨rfl, ih (prefix_append p t)⟩)

/-- What lies between two lists with a common front part has it too. -/
theorem prefix_of_between {p a b c : List α} (ha : p <+: a) (hc : p <+: c) (hab : a ≤ b)
    (hbc : b ≤ c) : p <+: b := by
  induction p generalizing a b c with
  | nil => exact nil_prefix
  | cons x p ih =>
    obtain ⟨s, rfl⟩ := ha
    obtain ⟨t, rfl⟩ := hc
    cases b with
    | nil => exact absurd (nil_lt_cons _ _) hab
    | cons y b =>
      rcases cons_le_cons_iff.mp hab with hlt | ⟨rfl, htail⟩
      · -- The order is strict at the first element on one side, so not on the other.
        rcases cons_le_cons_iff.mp hbc with hgt | ⟨rfl, -⟩
        · exact absurd hgt (Std.Asymm.asymm _ _ hlt)
        · exact absurd hlt (Std.Irrefl.irrefl _)
      · rcases cons_le_cons_iff.mp hbc with hgt | ⟨-, htail'⟩
        · exact absurd hgt (Std.Irrefl.irrefl _)
        · exact cons_prefix_cons.mpr
            ⟨rfl, ih (prefix_append p s) (prefix_append p t) htail htail'⟩

end Order

/-! ## One pass over labels -/

section Changes

variable [DecidableEq β]

/-- The labels that differ from the one before; `prev` is in front of the first. -/
def changes : β → List β → List β
  | _, [] => []
  | prev, b :: bs => if b = prev then changes prev bs else b :: changes b bs

/-- Equal labels stand together: what is between two of them is equal too. -/
inductive Together : List β → Prop where
  | nil : Together []
  | cons (b : β) (bs : List β) (next : b ∈ bs → bs.head? = some b) (rest : Together bs) :
      Together (b :: bs)

theorem mem_changes_of_mem {prev b : β} {bs : List β} (hb : b ∈ bs) (hne : b ≠ prev) :
    b ∈ changes prev bs := by
  induction bs generalizing prev with
  | nil => exact absurd hb not_mem_nil
  | cons c bs ih =>
    unfold changes
    rcases mem_cons.mp hb with rfl | hb
    · rw [if_neg hne]
      exact mem_cons_self
    · split
      · exact ih hb hne
      · by_cases hbc : b = c
        · exact hbc ▸ mem_cons_self
        · exact mem_cons_of_mem c (ih hb hbc)

theorem mem_of_mem_changes {prev b : β} {bs : List β} (hb : b ∈ changes prev bs) : b ∈ bs := by
  induction bs generalizing prev with
  | nil => exact hb
  | cons c bs ih =>
    unfold changes at hb
    split at hb
    · exact mem_cons_of_mem c (ih hb)
    · rcases mem_cons.mp hb with rfl | hb
      · exact mem_cons_self
      · exact mem_cons_of_mem c (ih hb)

theorem notMem_changes_head {b : β} {bs : List β} (h : Together (b :: bs)) : b ∉ changes b bs := by
  induction bs with
  | nil => exact not_mem_nil
  | cons c bs ih =>
    cases h with
    | cons _ _ next rest =>
      unfold changes
      by_cases hcb : c = b
      · rw [if_pos hcb]
        exact ih (hcb ▸ rest)
      · -- Another label follows, so the label does not come back.
        rw [if_neg hcb]
        intro hmem
        have hcons : b ∈ c :: bs := by
          rcases mem_cons.mp hmem with rfl | hmem
          · exact mem_cons_self
          · exact mem_cons_of_mem c (mem_of_mem_changes hmem)
        exact hcb (Option.some.inj (next hcons))

theorem nodup_changes {prev : β} {bs : List β} (h : Together bs) : (changes prev bs).Nodup := by
  induction h generalizing prev with
  | nil => exact nodup_nil
  | cons b bs next rest ih =>
    unfold changes
    split
    · exact ih
    · exact nodup_cons.mpr ⟨notMem_changes_head (.cons b bs next rest), ih⟩

theorem mem_changes {prev b : β} {bs : List β} (hprev : prev ∉ bs) : b ∈ changes prev bs ↔ b ∈ bs :=
  ⟨mem_of_mem_changes, fun hb => mem_changes_of_mem hb fun h => hprev (h ▸ hb)⟩

end Changes

/-- The labels of sorted lists stand together if a label is a front part of the list. -/
theorem together_map_of_sorted [LT α] [Std.Asymm (· < · : α → α → Prop)]
    [Std.Trichotomous (· < · : α → α → Prop)] {label : List α → β} {f : β → List α}
    {ks : List (List α)} (hsorted : ks.Pairwise (· ≤ ·))
    (hfront : ∀ k ∈ ks, f (label k) <+: k)
    (hlabel : ∀ k ∈ ks, ∀ k' ∈ ks, f (label k') <+: k → label k = label k') :
    Together (ks.map label) := by
  induction ks with
  | nil => exact .nil
  | cons k ks ih =>
    obtain ⟨hle, hrest⟩ := pairwise_cons.mp hsorted
    have hstands := ih hrest (fun x hx => hfront x (mem_cons_of_mem k hx))
      (fun x hx y hy => hlabel x (mem_cons_of_mem k hx) y (mem_cons_of_mem k hy))
    refine .cons _ _ (fun hmem => ?_) hstands
    obtain ⟨last, hlast, heq⟩ := mem_map.mp hmem
    cases ks with
    | nil => exact absurd hlast not_mem_nil
    | cons next ks =>
      -- The next list lies between two lists with the front part of the label.
      have hk := hfront k mem_cons_self
      have hlast' := heq ▸ hfront last (mem_cons_of_mem k hlast)
      have hnextLe : next ≤ last := by
        rcases mem_cons.mp hlast with rfl | htail
        · exact List.le_refl last
        · exact (pairwise_cons.mp hrest).1 last htail
      have hnext := prefix_of_between hk hlast' (hle next mem_cons_self) hnextLe
      have hmem' : next ∈ k :: next :: ks := mem_cons_of_mem k mem_cons_self
      exact congrArg some (hlabel next hmem' k mem_cons_self hnext)

end DingoCache.Library
