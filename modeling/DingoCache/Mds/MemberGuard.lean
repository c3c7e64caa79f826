import Mathlib

/-!
# The Guard of Membership Views

`MemberViewGuard` of `src/mds/mds_member_poller.h`: which of the polled view sizes a
client adopts.  A size far from a trusted reference has to be seen in successive polls.

- `admitView_spec`: when a view is admitted, and when the reference changes.
-/

namespace DingoCache.Mds

variable {v k : Nat}

/-! ## The guard -/

structure MemberViewGuard where
  viewsToAccept : Nat
  shrinkPct : Nat
  haveBaseline : Bool := false
  baseline : Nat := 0
  stableRef : Nat := 0
  lastSeen : Nat := 0
  sameStreak : Nat := 0
  suspectValue : Nat := 0
  suspectStreak : Nat := 0
  emptyStreak : Nat := 0
  rejectedEmpty : Nat := 0
  rejectedShrink : Nat := 0
  rejectedGrowth : Nat := 0
deriving DecidableEq

namespace MemberViewGuard

variable (g : MemberViewGuard) (incoming : Nat)

def see : MemberViewGuard :=
  if g.haveBaseline = true ∧ incoming = g.lastSeen then { g with sameStreak := g.sameStreak + 1 }
  else { g with lastSeen := incoming, sameStreak := 1 }

def firstView : MemberViewGuard × Bool :=
  ({ g with haveBaseline := true, baseline := incoming, stableRef := incoming }, true)

/-- An empty view after one that was not. -/
def emptyView : MemberViewGuard × Bool :=
  if g.viewsToAccept ≤ g.emptyStreak + 1 then
    ({ g with suspectStreak := 0, baseline := 0, stableRef := 0, emptyStreak := 0 }, true)
  else
    ({ g with
       suspectStreak := 0
       emptyStreak := g.emptyStreak + 1
       rejectedEmpty := g.rejectedEmpty + 1 }, false)

/-- The difference is cast to `unsigned`, which wraps for a percentage above 100. -/
def shrinkSuspect : Bool :=
  decide (incoming * 100 < g.stableRef * ((2 ^ 32 + 100 - g.shrinkPct) % 2 ^ 32))

def growthSuspect : Bool :=
  decide (g.stableRef * (100 + g.shrinkPct) < incoming * 100)

def suspect : MemberViewGuard :=
  if incoming = g.suspectValue then { g with suspectStreak := g.suspectStreak + 1 }
  else { g with suspectValue := incoming, suspectStreak := 1 }

def suspectView : MemberViewGuard × Bool :=
  let s := g.suspect incoming
  if s.viewsToAccept ≤ s.suspectStreak then
    ({ s with baseline := incoming, stableRef := incoming, suspectStreak := 0 }, true)
  else if g.shrinkSuspect incoming then
    ({ s with rejectedShrink := s.rejectedShrink + 1 }, false)
  else ({ s with rejectedGrowth := s.rejectedGrowth + 1 }, false)

/-- A view close to the reference, or without one. -/
def closeView : MemberViewGuard × Bool :=
  if g.stableRef = 0 ∨ g.viewsToAccept ≤ g.sameStreak then
    ({ g with baseline := incoming, stableRef := incoming }, true)
  else ({ g with baseline := incoming }, true)

/-- `Admit`. -/
def admitView : MemberViewGuard × Bool :=
  let g := g.see incoming
  if g.haveBaseline = false then g.firstView incoming
  else if incoming = 0 ∧ 0 < g.baseline then g.emptyView
  else
    let g := { g with emptyStreak := 0 }
    if 0 < g.shrinkPct ∧ 0 < g.stableRef then
      if g.shrinkSuspect incoming || g.growthSuspect incoming then g.suspectView incoming
      else { g with suspectStreak := 0 }.closeView incoming
    else g.closeView incoming

end MemberViewGuard

open MemberViewGuard

/-! ## Streaks and the sizes polled -/

def EndsIn (sizes : List Nat) (n v : Nat) : Prop := List.replicate n v <:+ sizes

theorem endsIn_zero (sizes : List Nat) (v : Nat) : EndsIn sizes 0 v :=
  List.nil_suffix

theorem EndsIn.of_nil {n : Nat} (h : EndsIn [] n v) : n = 0 := by
  simpa [EndsIn] using h

theorem EndsIn.snoc {sizes : List Nat} {n : Nat} (h : EndsIn sizes n v) :
    EndsIn (sizes ++ [v]) (n + 1) v := by
  obtain ⟨pre, rfl⟩ := h
  exact ⟨pre, by rw [List.replicate_succ', List.append_assoc]⟩

theorem EndsIn.mono {sizes : List Nat} {n m : Nat} (h : EndsIn sizes n v) (hle : m ≤ n) :
    EndsIn sizes m v := by
  refine List.IsSuffix.trans ?_ h
  exact ⟨List.replicate (n - m) v, by rw [List.replicate_append_replicate]; congr 1; omega⟩

/-- The guard against the sizes of the successful polls so far. -/
structure GuardInv (sizes : List Nat) (g : MemberViewGuard) : Prop where
  started : g.haveBaseline = true ↔ sizes ≠ []
  fresh : sizes = [] → g.stableRef = 0
  same : EndsIn sizes g.sameStreak g.lastSeen
  suspect : EndsIn sizes g.suspectStreak g.suspectValue
  empty : EndsIn sizes g.emptyStreak 0
  anchored : g.baseline = 0 ↔ g.stableRef = 0
  calm : g.stableRef = 0 → g.suspectStreak = 0

def Within (p ref size : Nat) : Prop :=
  ref * (100 - p) ≤ size * 100 ∧ size * 100 ≤ ref * (100 + p)

/-- What the guard does with a view: whether it is admitted, and the reference after. -/
structure Judged (n p : Nat) (sizes : List Nat) (g : MemberViewGuard) (size : Nat)
    (done : MemberViewGuard × Bool) : Prop where
  inv : GuardInv (sizes ++ [size]) done.1
  kept : done.1.viewsToAccept = n ∧ done.1.shrinkPct = p
  admitted : done.2 = true → sizes = [] ∨ Within p g.stableRef size ∨ g.stableRef = 0 ∨
    EndsIn (sizes ++ [size]) n size
  reference : done.1.stableRef = g.stableRef ∨ (done.1.stableRef = size ∧
    (sizes = [] ∨ g.stableRef = 0 ∨ EndsIn (sizes ++ [size]) n size))

theorem guardInv_start (n p : Nat) : GuardInv [] { viewsToAccept := n, shrinkPct := p } where
  started := by simp
  fresh := fun _ => rfl
  same := endsIn_zero _ _
  suspect := endsIn_zero _ _
  empty := endsIn_zero _ _
  anchored := Iff.rfl
  calm := fun _ => rfl

section

variable {sizes : List Nat} {g : MemberViewGuard}

theorem GuardInv.see (h : GuardInv sizes g) (size : Nat) :
    ∃ k, g.see size = { g with lastSeen := size, sameStreak := k } ∧
      EndsIn (sizes ++ [size]) k size := by
  unfold MemberViewGuard.see
  split
  · next hsame =>
    obtain ⟨-, rfl⟩ := hsame
    exact ⟨g.sameStreak + 1, rfl, h.same.snoc⟩
  · exact ⟨1, rfl, (endsIn_zero sizes size).snoc⟩

theorem GuardInv.judged_empty (h : GuardInv sizes g) (hk : EndsIn (sizes ++ [0]) k 0)
    (hstarted : g.haveBaseline) :
    Judged g.viewsToAccept g.shrinkPct sizes g 0
      { g with lastSeen := 0, sameStreak := k }.emptyView := by
  unfold emptyView
  split
  · next hfull =>
    have hrun := h.empty.snoc.mono hfull
    refine ⟨⟨by simp [hstarted], by simp, hk, endsIn_zero _ _, endsIn_zero _ _, Iff.rfl,
      fun _ => rfl⟩,
      ⟨rfl, rfl⟩, fun _ => .inr (.inr (.inr hrun)), .inr ⟨rfl, .inr (.inr hrun)⟩⟩
  · exact ⟨⟨by simp [hstarted], by simp, hk, endsIn_zero _ _, h.empty.snoc, h.anchored,
      fun _ => rfl⟩,
      ⟨rfl, rfl⟩, by simp, .inl rfl⟩

theorem suspect_streak (h : EndsIn sizes g.suspectStreak g.suspectValue) (size : Nat) :
    ∃ m, g.suspect size = { g with suspectValue := size, suspectStreak := m } ∧
      EndsIn (sizes ++ [size]) m size := by
  unfold suspect
  split
  · next hsame =>
    subst hsame
    exact ⟨g.suspectStreak + 1, rfl, h.snoc⟩
  · exact ⟨1, rfl, (endsIn_zero sizes size).snoc⟩

/-- A view far from the reference is admitted only after a run of it. -/
theorem GuardInv.judged_suspect (h : GuardInv sizes g) {size : Nat}
    (hk : EndsIn (sizes ++ [size]) k size) (hstarted : g.haveBaseline)
    (hview : ¬(size = 0 ∧ 0 < g.baseline)) (href : 0 < g.stableRef) :
    Judged g.viewsToAccept g.shrinkPct sizes g size
      ({ g with lastSeen := size, sameStreak := k, emptyStreak := 0 }.suspectView size) := by
  have hbase : g.baseline ≠ 0 := fun hz => absurd (h.anchored.mp hz) (by omega)
  have hsize : size ≠ 0 := fun hz => hview ⟨hz, Nat.pos_of_ne_zero hbase⟩
  obtain ⟨m, hm, hrun⟩ : ∃ m, { g with lastSeen := size, sameStreak := k, emptyStreak := 0 }.suspect
      size = { g with lastSeen := size, sameStreak := k, emptyStreak := 0, suspectValue := size,
                      suspectStreak := m } ∧ EndsIn (sizes ++ [size]) m size :=
    suspect_streak (g :=
      { g with lastSeen := size, sameStreak := k, emptyStreak := 0 }) h.suspect size
  unfold suspectView
  rw [hm]
  dsimp only
  split
  · next hfull =>
    have hrun' := hrun.mono hfull
    exact ⟨⟨by simp [hstarted], by simp, hk, endsIn_zero _ _, endsIn_zero _ _, Iff.rfl,
      fun _ => rfl⟩,
      ⟨rfl, rfl⟩, fun _ => .inr (.inr (.inr hrun')), .inr ⟨rfl, .inr (.inr hrun')⟩⟩
  · have hinv : ∀ shrink growth, Judged g.viewsToAccept g.shrinkPct sizes g size
        ({ g with lastSeen := size, sameStreak := k, emptyStreak := 0, suspectValue := size,
                  suspectStreak := m, rejectedShrink := shrink, rejectedGrowth := growth },
          false) :=
      fun _ _ => ⟨⟨by simp [hstarted], by simp, hk, hrun, endsIn_zero _ _, h.anchored,
        fun hz => absurd hz (Nat.pos_iff_ne_zero.mp href)⟩, ⟨rfl, rfl⟩, by simp, .inl rfl⟩
    split
    · exact hinv _ _
    · exact hinv _ _

/-- A view close to the reference, or without one, is admitted. -/
theorem GuardInv.judged_close (h : GuardInv sizes g) {size m : Nat}
    (hk : EndsIn (sizes ++ [size]) k size) (hstarted : g.haveBaseline)
    (hview : ¬(size = 0 ∧ 0 < g.baseline)) (hm : EndsIn (sizes ++ [size]) m g.suspectValue)
    (hcalm : g.stableRef = 0 → m = 0)
    (hclose : g.stableRef = 0 ∨ Within g.shrinkPct g.stableRef size) :
    Judged g.viewsToAccept g.shrinkPct sizes g size
      ({ g with lastSeen := size, sameStreak := k, emptyStreak := 0,
                suspectStreak := m }.closeView size) := by
  unfold closeView
  dsimp only
  split
  · next hmove =>
    refine ⟨⟨by simp [hstarted], by simp, hk, hm, endsIn_zero _ _, Iff.rfl, fun hz =>
      ?_⟩, ⟨rfl, rfl⟩,
      fun _ => hclose.elim (fun hz => .inr (.inr (.inl hz))) fun hw => .inr (.inl hw),
      .inr ⟨rfl, .inr (hmove.imp id hk.mono)⟩⟩
    -- A reference of 0 means that the view was empty, and so was the one before.
    dsimp only at hz
    have hbase : g.baseline = 0 := by
      by_contra hne
      exact hview ⟨hz, Nat.pos_of_ne_zero hne⟩
    exact hcalm (h.anchored.mp hbase)
  · next hstay =>
    rw [not_or] at hstay
    have hsize : size ≠ 0 := fun hz =>
      hview ⟨hz, Nat.pos_of_ne_zero fun hb => hstay.1 (h.anchored.mp hb)⟩
    exact ⟨⟨by simp [hstarted], by simp, hk, hm, endsIn_zero _ _, iff_of_false hsize
      hstay.1, hcalm⟩,
      ⟨rfl, rfl⟩, fun _ => .inr (.inl (hclose.resolve_left hstay.1)), .inl rfl⟩

theorem GuardInv.judged (h : GuardInv sizes g) (hp : 1 ≤ g.shrinkPct ∧ g.shrinkPct ≤ 100)
    (size : Nat) :
    Judged g.viewsToAccept g.shrinkPct sizes g size (g.admitView size) := by
  obtain ⟨k, hsee, hk⟩ := h.see size
  unfold admitView
  rw [hsee]
  dsimp only
  split
  · next hfirst =>
    have hnil : sizes = [] := by
      by_contra hne
      exact absurd (h.started.mpr hne) (by simp [hfirst])
    subst hnil
    have hsuspect := h.suspect.of_nil
    have hempty := h.empty.of_nil
    unfold firstView
    refine ⟨⟨by simp, by simp, hk, ?_, ?_, Iff.rfl, fun _ => hsuspect⟩, ⟨rfl, rfl⟩,
      fun _ => .inl rfl,
      .inr ⟨rfl, .inl rfl⟩⟩
    · rw [hsuspect]
      exact endsIn_zero _ _
    · rw [hempty]
      exact endsIn_zero _ _
  next hstarted =>
  have hstarted : g.haveBaseline := by simpa using hstarted
  split
  · next hempty =>
    obtain ⟨rfl, -⟩ := hempty
    exact h.judged_empty hk hstarted
  next hview =>
  split
  · next hguard =>
    split
    · exact h.judged_suspect hk hstarted hview hguard.2
    · next hclose =>
      refine h.judged_close hk hstarted hview (endsIn_zero _ _) (fun _ => rfl) (.inr ?_)
      have hcast : (2 ^ 32 + 100 - g.shrinkPct) % 2 ^ 32 = 100 - g.shrinkPct := by omega
      simpa only [shrinkSuspect, growthSuspect, Within, hcast, Bool.or_eq_true,
        decide_eq_true_eq, not_or,
        Nat.not_lt] using hclose
  · next hguard =>
    have href : g.stableRef = 0 := by omega
    have hzero := h.calm href
    refine h.judged_close hk hstarted hview ?_ h.calm (.inl href)
    rw [hzero]
    exact endsIn_zero _ _

end

/-! ## Runs of polls -/

def MemberViewGuard.after (g : MemberViewGuard) (sizes : List Nat) : MemberViewGuard :=
  sizes.foldl (fun g size => (g.admitView size).1) g

/-- A guard with the given parameters, against the sizes so far. -/
structure Guarding (n p : Nat) (sizes : List Nat) (g : MemberViewGuard) : Prop where
  inv : GuardInv sizes g
  views : g.viewsToAccept = n
  percent : g.shrinkPct = p

section

variable {n p : Nat} {sizes : List Nat} {g : MemberViewGuard}

theorem Guarding.judged (h : Guarding n p sizes g) (hp : 1 ≤ p ∧ p ≤ 100) (size : Nat) :
    Judged n p sizes g size (g.admitView size) := by
  have hjudged := h.inv.judged (h.percent.symm ▸ hp) size
  rwa [h.views, h.percent] at hjudged

theorem Guarding.step (h : Guarding n p sizes g) (hp : 1 ≤ p ∧ p ≤ 100) (size : Nat) :
    Guarding n p (sizes ++ [size]) (g.admitView size).1 := by
  have hjudged := h.judged hp size
  exact ⟨hjudged.inv, hjudged.kept.1, hjudged.kept.2⟩

/-- While no size comes often enough in a row, a reference stays, and what is admitted is close to
it. -/
theorem Guarding.frozen (h : Guarding n p sizes g) (hp : 1 ≤ p ∧ p ≤ 100) (href : g.stableRef ≠ 0)
    (more : List Nat)
    (hnew : ∀ pre v, pre <+: more → pre ≠ [] → ¬EndsIn (sizes ++ pre) n v) :
    (g.after more).stableRef = g.stableRef ∧ ∀ pre size post, more = pre ++ size :: post →
        ((g.after pre).admitView size).2 → Within p g.stableRef size := by
  induction more generalizing sizes g with
  | nil => exact ⟨rfl, by simp⟩
  | cons x more ih =>
    have hjudged := h.judged hp x
    have hstarted : sizes ≠ [] := fun hnil => href (h.inv.fresh hnil)
    have hrun : ¬EndsIn (sizes ++ [x]) n x := hnew [x] x ⟨more, rfl⟩ (by simp)
    have hstay : (g.admitView x).1.stableRef = g.stableRef := by
      rcases hjudged.reference with heq | ⟨-, hnil | hz | hends⟩
      · exact heq
      · exact absurd hnil hstarted
      · exact absurd hz href
      · exact absurd hends hrun
    obtain ⟨hlast, hlater⟩ := ih (h.step hp x) (hstay.symm ▸ href) fun pre v hpre hne => by
      have := hnew (x :: pre) v (List.cons_prefix_cons.mpr ⟨rfl, hpre⟩) (by simp)
      simpa using this
    refine ⟨hlast.trans hstay, fun pre size post hsplit hadmit => ?_⟩
    cases pre with
    | nil =>
      obtain ⟨rfl, -⟩ := List.cons.inj hsplit
      rcases hjudged.admitted hadmit with hnil | hw | hz | hends
      · exact absurd hnil hstarted
      · exact hw
      · exact absurd hz href
      · exact absurd hends hrun
    | cons y pre =>
      obtain ⟨rfl, hrest⟩ := List.cons.inj hsplit
      have hwithin := hlater pre size post hrest hadmit
      rwa [hstay] at hwithin

end

end DingoCache.Mds
