import Mathlib

/-!
# Stores with Leases

A store of keys that are put under leases.  A lease expires a fixed time after it was last
granted or kept alive, and with it the keys that were last put under it.

- `Runs`: a lease runs to a time at least.
-/

namespace DingoCache.Library

variable {l T : Nat}

/-! ## The store -/

/-- The time, the expiry of each lease, and the value and the lease of each key. -/
structure LeaseStore (κ ν : Type) where
  now : Nat := 0
  expiry : List Nat := []
  keys : κ → Option (ν × Nat) := fun _ => none

namespace LeaseStore

variable {κ ν : Type} {s s' : LeaseStore κ ν} {ttl : Nat}

def expiryOf (s : LeaseStore κ ν) (l : Nat) : Nat := s.expiry[l]?.getD 0

/-- The lease was granted and has not expired. -/
def live (s : LeaseStore κ ν) (l : Nat) : Bool := decide (s.now < s.expiryOf l)

def tick (s : LeaseStore κ ν) (d : Nat) : LeaseStore κ ν := { s with now := s.now + d }

def grant (ttl : Nat) (s : LeaseStore κ ν) : LeaseStore κ ν × Nat :=
  ({ s with expiry := s.expiry ++ [s.now + ttl] }, s.expiry.length)

/-- A lease that has not expired starts again. -/
def keepAlive (ttl : Nat) (s : LeaseStore κ ν) (l : Nat) : LeaseStore κ ν × Bool :=
  if s.live l then ({ s with expiry := s.expiry.set l (s.now + ttl) }, true) else (s, false)

/-- A key is put under a lease that has not expired. -/
def put [DecidableEq κ] (s : LeaseStore κ ν) (k : κ) (v : ν) (l : Nat) : LeaseStore κ ν × Bool :=
  if s.live l then ({ s with keys := fun k' => if k' = k then some (v, l) else s.keys k' }, true)
  else (s, false)

/-- The value of a key, while its lease lives. -/
def get (s : LeaseStore κ ν) (k : κ) : Option ν :=
  (s.keys k).bind fun e => if s.live e.2 then some e.1 else none

/-! ## How long a lease runs -/

def Runs (s : LeaseStore κ ν) (l T : Nat) : Prop := l < s.expiry.length ∧ T ≤ s.expiryOf l

def Secured (s : LeaseStore κ ν) (k : κ) (T : Nat) : Prop :=
  ∃ v l, s.keys k = some (v, l) ∧ s.Runs l T

def Bounded (ttl : Nat) (s : LeaseStore κ ν) : Prop := ∀ l, s.expiryOf l ≤ s.now + ttl

/-- No lease ends earlier than before. -/
structure Outlasts (s s' : LeaseStore κ ν) : Prop where
  now : s.now ≤ s'.now
  runs : ∀ l T, s.Runs l T → s'.Runs l T

theorem lt_length_of_live (h : s.live l) : l < s.expiry.length := by
  by_contra hlt
  have hnone : s.expiry[l]? = none := List.getElem?_eq_none (Nat.le_of_not_lt hlt)
  simp [live, expiryOf, hnone] at h

theorem expiryOf_grant (ttl : Nat) (s : LeaseStore κ ν) (l : Nat) :
    (s.grant ttl).1.expiryOf l = if l = s.expiry.length then s.now + ttl else s.expiryOf l := by
  simp only [expiryOf, grant]
  rcases lt_trichotomy l s.expiry.length with hlt | rfl | hgt
  · rw [List.getElem?_append_left hlt, if_neg hlt.ne]
  · simp
  · have hnone : (s.expiry ++ [s.now + ttl])[l]? = none :=
      List.getElem?_eq_none (by rw [List.length_append, List.length_singleton]; exact hgt)
    rw [hnone, if_neg hgt.ne', List.getElem?_eq_none hgt.le]

theorem expiryOf_keepAlive (ttl : Nat) (s : LeaseStore κ ν) (l l' : Nat) :
    (s.keepAlive ttl l).1.expiryOf l' =
      if s.live l ∧ l' = l then s.now + ttl else s.expiryOf l' := by
  unfold keepAlive
  by_cases hlive : s.live l
  · rw [if_pos hlive]
    rcases eq_or_ne l' l with rfl | heq
    · simp [expiryOf, hlive, lt_length_of_live hlive]
    · simp [expiryOf, heq, List.getElem?_set_ne (Ne.symm heq)]
  · rw [if_neg hlive]
    simp [hlive]

theorem length_keepAlive (ttl : Nat) (s : LeaseStore κ ν) (l : Nat) :
    (s.keepAlive ttl l).1.expiry.length = s.expiry.length := by
  unfold keepAlive
  split
  · exact List.length_set
  · rfl

theorem now_keepAlive (ttl : Nat) (s : LeaseStore κ ν) (l : Nat) :
    (s.keepAlive ttl l).1.now = s.now := by
  unfold keepAlive
  split <;> rfl

theorem keys_keepAlive (ttl : Nat) (s : LeaseStore κ ν) (l : Nat) :
    (s.keepAlive ttl l).1.keys = s.keys := by
  unfold keepAlive
  split <;> rfl

/-! ## Outlasting -/

theorem Outlasts.refl (s : LeaseStore κ ν) : s.Outlasts s := ⟨le_rfl, fun _ _ h => h⟩

theorem outlasts_tick (s : LeaseStore κ ν) (d : Nat) : s.Outlasts (s.tick d) :=
  ⟨Nat.le_add_right _ _, fun _ _ h => h⟩

theorem outlasts_grant (ttl : Nat) (s : LeaseStore κ ν) : s.Outlasts (s.grant ttl).1 := by
  refine ⟨le_rfl, fun l T h => ⟨?_, ?_⟩⟩
  · simp only [grant, List.length_append]
    exact Nat.lt_add_right _ h.1
  · rw [expiryOf_grant, if_neg h.1.ne]
    exact h.2

theorem outlasts_keepAlive (h : s.Bounded ttl) (l : Nat) : s.Outlasts (s.keepAlive ttl l).1 := by
  refine ⟨(now_keepAlive ttl s l).ge, fun l' T hruns => ⟨?_, ?_⟩⟩
  · rw [length_keepAlive]
    exact hruns.1
  · rw [expiryOf_keepAlive]
    split
    · exact hruns.2.trans (h l')
    · exact hruns.2

theorem outlasts_put [DecidableEq κ] (s : LeaseStore κ ν) (k : κ) (v : ν) (l : Nat) :
    s.Outlasts (s.put k v l).1 := by
  unfold put
  split
  · exact ⟨le_rfl, fun _ _ h => h⟩
  · exact .refl s

theorem Bounded.tick (h : s.Bounded ttl) (d : Nat) : (s.tick d).Bounded ttl := fun l => by
  have hl : s.expiryOf l ≤ s.now + ttl := h l
  show s.expiryOf l ≤ s.now + d + ttl
  omega

theorem Bounded.grant (h : s.Bounded ttl) : (s.grant ttl).1.Bounded ttl := fun l => by
  rw [expiryOf_grant]
  split
  · exact le_rfl
  · exact h l

theorem Bounded.keepAlive (h : s.Bounded ttl) (l : Nat) : (s.keepAlive ttl l).1.Bounded ttl :=
  fun l' => by
    rw [expiryOf_keepAlive, now_keepAlive]
    split
    · exact le_rfl
    · exact h l'

theorem Bounded.put [DecidableEq κ] (h : s.Bounded ttl) (k : κ) (v : ν) (l : Nat) :
    (s.put k v l).1.Bounded ttl := by
  unfold LeaseStore.put
  split
  · exact h
  · exact h

/-! ## Secured keys -/

theorem get_of_secured {k : κ} (h : s.Secured k T) (hnow : s.now < T) : (s.get k).isSome := by
  obtain ⟨v, l, hkey, hruns⟩ := h
  have hlive : s.live l := decide_eq_true (Nat.lt_of_lt_of_le hnow hruns.2)
  simp [get, hkey, hlive]

theorem Secured.mono {k : κ} (h : s.Secured k T) (hkeys : s'.keys = s.keys)
    (houtlasts : s.Outlasts s') : s'.Secured k T := by
  obtain ⟨v, l, hkey, hruns⟩ := h
  exact ⟨v, l, hkeys ▸ hkey, houtlasts.runs l T hruns⟩

/-- The lease ends no earlier than the live lease that the key is under. -/
def Forward (s : LeaseStore κ ν) (k : κ) (l : Nat) : Prop :=
  ∀ e, s.keys k = some e → s.live e.2 = true → s.expiryOf e.2 ≤ s.expiryOf l

instance (s : LeaseStore κ ν) (k : κ) (l : Nat) : Decidable (s.Forward k l) :=
  match h : s.keys k with
  | none => isTrue fun e he => absurd (h.symm.trans he) (by simp)
  | some e =>
    decidable_of_iff (s.live e.2 = true → s.expiryOf e.2 ≤ s.expiryOf l)
      ⟨fun hle e' he' => Option.some.inj (h.symm.trans he') ▸ hle, fun hall => hall e h⟩

variable [DecidableEq κ]

/-- A put that does not shorten the life of its key keeps all that is secured. -/
theorem secured_put {k k' : κ} (v : ν) (h : s.Secured k T)
    (hforward : s.live l → s.Forward k' l) : (s.put k' v l).1.Secured k T := by
  unfold put
  split
  case isFalse => exact h
  case isTrue hlive =>
    obtain ⟨v', l', hkey, hruns⟩ := h
    rcases eq_or_ne k k' with rfl | heq
    · refine ⟨v, l, if_pos rfl, lt_length_of_live hlive, ?_⟩
      have hnow : s.now < s.expiryOf l := of_decide_eq_true hlive
      have hT : T ≤ s.expiryOf l' := hruns.2
      -- A lease that has expired secures no time that is still to come.
      by_cases hlive' : s.live l'
      · exact hT.trans (hforward hlive (v', l') hkey hlive')
      · have hexpired : ¬s.now < s.expiryOf l' := fun hlt => hlive' (decide_eq_true hlt)
        show T ≤ s.expiryOf l
        omega
    · exact ⟨v', l', (if_neg heq).trans hkey, hruns⟩

theorem secured_of_put {k : κ} {v : ν} (h : (s.put k v l).2) (hruns : s.Runs l T) :
    (s.put k v l).1.Secured k T := by
  unfold put at h ⊢
  split at h
  case isTrue hlive =>
    rw [if_pos hlive]
    exact ⟨v, l, if_pos rfl, hruns⟩
  case isFalse => cases h

/-- After a put, and with no other event, the key has a value as long as its lease lives. -/
theorem get_tick_put {k : κ} {v : ν} (hlive : s.live l) (d : Nat) :
    (((s.put k v l).1.tick d).get k).isSome ↔ s.now + d < s.expiryOf l := by
  have hkey : ((s.put k v l).1.tick d).keys k = some (v, l) := by
    simp [put, hlive, tick]
  have hlater : ((s.put k v l).1.tick d).live l = decide (s.now + d < s.expiryOf l) := by
    rw [put, if_pos hlive]
    rfl
  by_cases hlt : s.now + d < s.expiryOf l
  · simp [get, hkey, hlater, hlt]
  · simp [get, hkey, hlater, hlt]

end LeaseStore

end DingoCache.Library
