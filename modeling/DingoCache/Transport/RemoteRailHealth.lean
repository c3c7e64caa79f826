import Mathlib

/-!
# Health of Remote Rails

`RemoteRailHealth` of `src/transport/remote_rail_health.cc`: for each peer and each local
rail, failures of the endpoint start a cooldown, after which one probe lease decides
whether the endpoint has recovered.

- `step_called`: what a call does, and a completion by the lease it completes.
- `after_sound`: what the leases of a rail say about its state, in every reachable state.
-/

namespace DingoCache.Transport

open Nat

variable {generation rail : Nat} {peer : String} {w w' : Watched} {call : RemoteCall}

/-! ## The model -/

structure RemoteRailHealthConfig where
  baseCooldownUs : Nat := 1000000
  maxCooldownUs : Nat := 30000000
deriving DecidableEq

inductive RemoteRailOutcome where
  | success
  | endpointFailure
  | abandon
deriving DecidableEq

structure RemoteRailLease where
  generation : Nat := 0
  healthEpoch : Nat := 0
  recoveryProbe : Bool := false
deriving DecidableEq

inductive RemoteRailTransition where
  | none
  | cooled
  | recovered
deriving DecidableEq

structure RemoteRailCompletion where
  transition : RemoteRailTransition := .none
  cooldownUntilUs : Nat := 0
deriving DecidableEq

structure ActiveLease where
  healthEpoch : Nat := 0
  recoveryProbe : Bool := false
deriving DecidableEq

/-- `RailState`; the map of active leases as a function. -/
structure RailState where
  healthEpoch : Nat := 0
  consecutiveFailures : Nat := 0
  cooldownUntilUs : Nat := 0
  recoveryProbeActive : Bool := false
  activeLeases : Nat → Option ActiveLease := fun _ => none

/-- `RemoteRailHealth`. A peer or rail without an entry behaves like one with the state that
`operator[]` would make for it, so both are that state. -/
structure RemoteRailHealth where
  config : RemoteRailHealthConfig
  peers : String → Nat → RailState := fun _ _ => {}
  livePeerIds : List String := []
  hasReconciled : Bool := false
  /-- Fewer than 2^64 leases are granted, and a rail fails fewer than 2^64 times. -/
  nextGeneration : Nat := 1

open RemoteRailHealth

def kHardMaxCooldownUs : Nat := 30000000

def saturatingAdd (lhs rhs : Nat) : Nat :=
  if 2 ^ 64 - 1 - rhs < lhs then 2 ^ 64 - 1 else lhs + rhs

variable (config : RemoteRailHealthConfig) (st : RailState) (nowUs : Nat)

def RemoteRailHealthConfig.clamp : RemoteRailHealthConfig :=
  let maxCooldownUs := max 1 (min config.maxCooldownUs kHardMaxCooldownUs)
  { maxCooldownUs, baseCooldownUs := max 1 (min config.baseCooldownUs maxCooldownUs) }

/-- The constructor of `RemoteRailHealth`. -/
def RemoteRailHealth.new : RemoteRailHealth :=
  { config := config.clamp }

/-- The loop of `CooldownFor`, for the given number of further failures. -/
def cooldownLoop (maxCooldownUs : Nat) : Nat → Nat → Nat
  | 0, cooldown => cooldown
  | failures + 1, cooldown =>
    if cooldown < maxCooldownUs then
      cooldownLoop maxCooldownUs failures
        (if maxCooldownUs / 2 < cooldown then maxCooldownUs else cooldown * 2)
    else cooldown

def cooldownFor (consecutiveFailures : Nat) : Nat :=
  min (cooldownLoop config.maxCooldownUs (consecutiveFailures - 1) config.baseCooldownUs)
    config.maxCooldownUs

def RailState.unavailable : Bool :=
  st.consecutiveFailures != 0 && (decide (nowUs < st.cooldownUntilUs) || st.recoveryProbeActive)

def RemoteRailHealth.setRail (h : RemoteRailHealth) (peer : String) (rail : Nat) (st : RailState) :
    RemoteRailHealth :=
  { h with peers := fun p r => if p = peer ∧ r = rail then st else h.peers p r }

/-- The lease that `TryAcquire` grants on a rail. -/
def RailState.lease (generation : Nat) : RemoteRailLease :=
  { generation, healthEpoch := st.healthEpoch, recoveryProbe := st.consecutiveFailures != 0 }

def RailState.grant (generation : Nat) : RailState :=
  { st with
    activeLeases := fun g =>
      if g = generation then
        some { healthEpoch := st.healthEpoch, recoveryProbe := st.consecutiveFailures != 0 }
      else st.activeLeases g
    recoveryProbeActive := st.consecutiveFailures != 0 || st.recoveryProbeActive }

def RemoteRailHealth.tryAcquire (h : RemoteRailHealth) (peer : String) (rail nowUs : Nat) :
    RemoteRailHealth × Option RemoteRailLease :=
  if h.hasReconciled && !h.livePeerIds.contains peer then (h, none)
  else
    let st := h.peers peer rail
    if st.unavailable nowUs then (h, none)
    else
      ({ h.setRail peer rail (st.grant h.nextGeneration) with
          nextGeneration := h.nextGeneration + 1 },
        some (st.lease h.nextGeneration))

def RailState.succeed (lease : ActiveLease) : RailState × RemoteRailCompletion :=
  if lease.recoveryProbe && st.consecutiveFailures != 0 then
    ({ st with
       consecutiveFailures := 0
       cooldownUntilUs := 0
       recoveryProbeActive := false
       healthEpoch := st.healthEpoch + 1 }, { transition := .recovered })
  else if lease.recoveryProbe then ({ st with recoveryProbeActive := false }, {})
  else (st, {})

def nextFailures (consecutiveFailures : Nat) : Nat :=
  if consecutiveFailures ≠ 2 ^ 64 - 1 then consecutiveFailures + 1 else consecutiveFailures

def RailState.fail (lease : ActiveLease) (nowUs : Nat) : RailState × RemoteRailCompletion :=
  if !lease.recoveryProbe && lease.healthEpoch != st.healthEpoch then (st, {})
  else
    let failures := nextFailures st.consecutiveFailures
    let deadline := saturatingAdd nowUs (cooldownFor config failures)
    let cooldownUntilUs := max st.cooldownUntilUs deadline
    ({ st with
       recoveryProbeActive := if lease.recoveryProbe then false else st.recoveryProbeActive
       consecutiveFailures := failures
       cooldownUntilUs },
     { transition := if st.cooldownUntilUs ≤ nowUs then .cooled else .none, cooldownUntilUs })

def RailState.complete (generation : Nat)
    (lease : ActiveLease) (outcome : RemoteRailOutcome) (nowUs : Nat) :
    RailState × RemoteRailCompletion :=
  let st := { st with activeLeases := fun g => if g = generation then none else st.activeLeases g }
  match outcome with
  | .abandon =>
    ({ st with
       recoveryProbeActive := if lease.recoveryProbe then false else st.recoveryProbeActive }, {})
  | .success => st.succeed lease
  | .endpointFailure => st.fail config lease nowUs

def RemoteRailHealth.complete (h : RemoteRailHealth) (peer : String) (rail generation : Nat)
    (outcome : RemoteRailOutcome) (nowUs : Nat) : RemoteRailHealth × RemoteRailCompletion :=
  let st := h.peers peer rail
  match st.activeLeases generation with
  | none => (h, {})
  | some lease =>
    let done := st.complete h.config generation lease outcome nowUs
    (h.setRail peer rail done.1, done.2)

def RemoteRailHealth.reconcile (h : RemoteRailHealth) (livePeerIds : List String) :
    RemoteRailHealth :=
  { h with
    livePeerIds
    hasReconciled := true
    peers := fun p r => if livePeerIds.contains p then h.peers p r else {} }

/-! ## The cooldown -/

theorem cooldownLoop_eq {maxCooldownUs : Nat} (failures : Nat) {cooldown : Nat}
    (hpos : 1 ≤ cooldown) (hle : cooldown ≤ maxCooldownUs) :
    cooldownLoop maxCooldownUs failures cooldown = min maxCooldownUs (cooldown * 2 ^ failures) := by
  induction failures generalizing cooldown with
  | zero => rw [cooldownLoop, pow_zero, mul_one, min_eq_right hle]
  | succ failures ih =>
    have hpow : 1 ≤ 2 ^ failures := Nat.one_le_two_pow
    have hstep : cooldown * 2 ^ (failures + 1) = cooldown * 2 * 2 ^ failures := by
      rw [pow_succ, mul_comm (2 ^ failures) 2, mul_assoc]
    unfold cooldownLoop
    by_cases hlt : cooldown < maxCooldownUs
    · rw [if_pos hlt]
      by_cases hhalf : maxCooldownUs / 2 < cooldown
      · -- Twice the cooldown is over the maximum.
        have hbig : maxCooldownUs ≤ cooldown * 2 := by omega
        rw [if_pos hhalf, ih (by omega) le_rfl, hstep,
          Nat.min_eq_left (Nat.le_mul_of_pos_right _ hpow),
          Nat.min_eq_left (hbig.trans (Nat.le_mul_of_pos_right _ hpow))]
      · rw [if_neg hhalf, ih (by omega) (by omega), hstep]
    · have heq : cooldown = maxCooldownUs := by omega
      rw [if_neg hlt, heq, Nat.min_eq_left (Nat.le_mul_of_pos_right _ (by positivity))]

/-- A configuration as the constructor leaves it. -/
structure RemoteRailHealthConfig.Clamped (config : RemoteRailHealthConfig) : Prop where
  base : 1 ≤ config.baseCooldownUs
  ordered : config.baseCooldownUs ≤ config.maxCooldownUs
  bounded : config.maxCooldownUs ≤ kHardMaxCooldownUs

theorem clamped_clamp : config.clamp.Clamped := by
  unfold RemoteRailHealthConfig.clamp
  have hhard : 1 ≤ kHardMaxCooldownUs := by decide
  refine ⟨?_, ?_, ?_⟩ <;> simp only <;> omega

theorem cooldownFor_eq {config : RemoteRailHealthConfig} (h : config.Clamped) (k : Nat) :
    cooldownFor config k = min config.maxCooldownUs (config.baseCooldownUs * 2 ^ (k - 1)) := by
  rw [cooldownFor, cooldownLoop_eq (k - 1) h.base h.ordered]
  exact Nat.min_eq_left (min_le_left _ _)

theorem nextFailures_eq {n counted : Nat} (h : n = min counted (2 ^ 64 - 1)) :
    nextFailures n = min (counted + 1) (2 ^ 64 - 1) := by
  unfold nextFailures
  split <;> omega

theorem cooldownFor_saturated {config : RemoteRailHealthConfig} (h : config.Clamped) (k : Nat) :
    cooldownFor config (min (k + 1) (2 ^ 64 - 1)) =
      min config.maxCooldownUs (config.baseCooldownUs * 2 ^ k) := by
  rw [cooldownFor_eq h]
  by_cases hk : k + 1 ≤ 2 ^ 64 - 1
  · rw [Nat.min_eq_left hk, Nat.add_sub_cancel]
  · -- Both cooldowns are the maximum.
    have hbig : ∀ n, 25 ≤ n → config.maxCooldownUs ≤ config.baseCooldownUs * 2 ^ n := by
      intro n hn
      have hpow : 2 ^ 25 ≤ 2 ^ n := Nat.pow_le_pow_right (by decide) hn
      have hmax : config.maxCooldownUs ≤ 2 ^ 25 := h.bounded.trans (by decide)
      exact (hmax.trans hpow).trans (Nat.le_mul_of_pos_left _ h.base)
    rw [Nat.min_eq_left (hbig _ (by omega)), Nat.min_eq_left (hbig k (by omega))]

theorem saturatingAdd_eq {a b : Nat} (hb : b ≤ 2 ^ 64 - 1) :
    saturatingAdd a b = min (2 ^ 64 - 1) (a + b) := by
  unfold saturatingAdd
  split <;> omega

/-! ## What a completion does -/

/-- The rail without the lease, and without the probe if the lease was it. -/
def RailState.release (generation : Nat) (lease : ActiveLease) : RailState :=
  { st with
    activeLeases := fun g => if g = generation then none else st.activeLeases g
    recoveryProbeActive := if lease.recoveryProbe then false else st.recoveryProbeActive }

def RailState.recover : RailState :=
  { st with
    consecutiveFailures := 0
    cooldownUntilUs := 0
    recoveryProbeActive := false
    healthEpoch := st.healthEpoch + 1 }

def RailState.countFailure : RailState :=
  { st with
    consecutiveFailures := nextFailures st.consecutiveFailures
    cooldownUntilUs := max st.cooldownUntilUs
      (saturatingAdd nowUs (cooldownFor config (nextFailures st.consecutiveFailures))) }

def RailState.counts (lease : ActiveLease) : Bool :=
  lease.recoveryProbe || lease.healthEpoch == st.healthEpoch

/-! ## What the leases of a rail say

A lease is known by its generation, and generations are given out in order.  The fence of
a rail is the next generation at its last recovery, or when its peer was removed last: a
lease was granted before that exactly if its generation is below the fence. -/

/-- The state of a rail against its fence, the next generation and the failures counted since the
fence. -/
structure RailSound (fence next counted : Nat) (st : RailState) : Prop where
  fenced : fence ≤ next
  fresh : ∀ g l, st.activeLeases g = some l → g < next
  epoch : ∀ g l, st.activeLeases g = some l → (l.healthEpoch = st.healthEpoch ↔ fence ≤ g) ∧
    l.healthEpoch ≤ st.healthEpoch
  probe : ∀ g l, st.activeLeases g = some l → l.recoveryProbe = true →
    l.healthEpoch = st.healthEpoch ∧ st.recoveryProbeActive = true ∧ st.consecutiveFailures ≠ 0
  unique : ∀ g l g' l', st.activeLeases g = some l → st.activeLeases g' = some l' →
    l.recoveryProbe = true → l'.recoveryProbe = true → g = g'
  held : st.recoveryProbeActive = true → ∃ g l, st.activeLeases g = some l ∧ l.recoveryProbe = true
  failures : st.consecutiveFailures = min counted (2 ^ 64 - 1)

theorem railSound_default {fence next : Nat} (h : fence ≤ next) : RailSound fence next 0 {} where
  fenced := h
  fresh := fun _ _ hl => absurd hl (by simp)
  epoch := fun _ _ hl => absurd hl (by simp)
  probe := fun _ _ hl => absurd hl (by simp)
  unique := fun _ _ _ _ hl => absurd hl (by simp)
  held := fun hl => absurd hl (by simp)
  failures := rfl

section Rail

variable {fence next counted : Nat} {st : RailState}

theorem RailSound.later (h : RailSound fence next counted st) :
    RailSound fence (next + 1) counted st :=
  { h with
    fenced := le_succ_of_le h.fenced
    fresh := fun g l hl => lt_succ_of_lt (h.fresh g l hl) }

/-- A rail in cooldown, or with a probe, is not granted; so a granted probe is the only one. -/
theorem RailSound.grant (h : RailSound fence next counted st) {nowUs : Nat}
    (hfree : st.unavailable nowUs = false) : RailSound fence (next + 1) counted
      (st.grant next) := by
  have hnoProbe : st.consecutiveFailures ≠ 0 → ∀ g l, st.activeLeases g = some l →
      l.recoveryProbe → False := by
    intro hf g l hl hp
    have hactive := (h.probe g l hl hp).2.1
    simp [RailState.unavailable, hf, hactive] at hfree
  -- The leases of the new state: the new one, and the old ones.
  have hcases : ∀ g l, (st.grant next).activeLeases g = some l →
      (g = next ∧ l = { healthEpoch := st.healthEpoch,
                        recoveryProbe := st.consecutiveFailures != 0 }) ∨
        st.activeLeases g = some l := by
    intro g l hl
    simp only [RailState.grant] at hl
    split at hl
    · next hg => exact .inl ⟨hg, (Option.some.inj hl).symm⟩
    · exact .inr hl
  refine ⟨le_succ_of_le h.fenced, fun g l hl => ?_, fun g l hl => ?_, fun g l hl hp => ?_,
    fun g l g' l' hl hl' hp hp' => ?_, fun hactive => ?_, h.failures⟩
  · rcases hcases g l hl with ⟨rfl, -⟩ | hl
    · exact lt_succ_self _
    · exact lt_succ_of_lt (h.fresh g l hl)
  · rcases hcases g l hl with ⟨rfl, rfl⟩ | hl
    · exact ⟨iff_of_true rfl h.fenced, le_rfl⟩
    · exact h.epoch g l hl
  · rcases hcases g l hl with ⟨rfl, rfl⟩ | hl
    · have hf : st.consecutiveFailures ≠ 0 := bne_iff_ne.mp hp
      exact ⟨rfl, by simp [RailState.grant, hf], hf⟩
    · have hf := (h.probe g l hl hp).2.2
      exact (hnoProbe hf g l hl hp).elim
  · rcases hcases g l hl with ⟨rfl, rfl⟩ | hl
    · rcases hcases g' l' hl' with ⟨rfl, -⟩ | hl'
      · rfl
      · exact (hnoProbe (bne_iff_ne.mp hp) g' l' hl' hp').elim
    · exact (hnoProbe (h.probe g l hl hp).2.2 g l hl hp).elim
  · by_cases hf : st.consecutiveFailures = 0
    · have hold : st.recoveryProbeActive := by
        simpa [RailState.grant, hf] using hactive
      obtain ⟨g, l, hl, hp⟩ := h.held hold
      exact absurd hf (h.probe g l hl hp).2.2
    · exact ⟨next, _, if_pos rfl, bne_iff_ne.mpr hf⟩

theorem RailSound.release (h : RailSound fence next counted st) {lease : ActiveLease}
    (hlease : st.activeLeases generation = some lease) :
    RailSound fence next counted (st.release generation lease) := by
  have hold : ∀ g l, (st.release generation lease).activeLeases g = some l →
      g ≠ generation ∧ st.activeLeases g = some l := by
    intro g l hl
    simp only [RailState.release] at hl
    split at hl
    · cases hl
    · next hg => exact ⟨hg, hl⟩
  refine ⟨h.fenced, fun g l hl => h.fresh g l (hold g l hl).2,
    fun g l hl => h.epoch g l (hold g l hl).2, fun g l hl hp => ?_,
    fun g l g' l' hl hl' => h.unique g l g' l' (hold g l hl).2 (hold g' l' hl').2,
      fun hactive => ?_,
    h.failures⟩
  · obtain ⟨hg, hl⟩ := hold g l hl
    obtain ⟨he, ha, hf⟩ := h.probe g l hl hp
    -- The released lease is another one, so not the probe.
    have hnot : lease.recoveryProbe ≠ true := fun hlp =>
      hg (h.unique g l generation lease hl hlease hp hlp)
    exact ⟨he, by rw [RailState.release, if_neg hnot]; exact ha, hf⟩
  · by_cases hlp : lease.recoveryProbe
    · simp [RailState.release, hlp] at hactive
    · have ha : st.recoveryProbeActive := by
        simpa [RailState.release, hlp] using hactive
      obtain ⟨g, l, hl, hp⟩ := h.held ha
      have hg : g ≠ generation := by
        rintro rfl
        cases hl.symm.trans hlease
        exact hlp hp
      exact ⟨g, l, (if_neg hg).trans hl, hp⟩

theorem RailSound.recover (h : RailSound fence next counted st)
    (hnone : ∀ g l, st.activeLeases g = some l → l.recoveryProbe = false) :
    RailSound next next 0 st.recover := by
  refine ⟨le_rfl, h.fresh, fun g l hl => ?_, fun g l hl hp => ?_, fun g l g' l' hl hl' hp => ?_,
    fun hactive => absurd hactive (by simp [RailState.recover]), rfl⟩
  · have hle := (h.epoch g l hl).2
    have hlt := h.fresh g l hl
    simp only [RailState.recover]
    exact ⟨iff_of_false (by omega) (by omega), by omega⟩
  · exact absurd hp (by simp [hnone g l hl])
  · exact absurd hp (by simp [hnone g l hl])

theorem RailSound.countFailure (h : RailSound fence next counted st)
    (config : RemoteRailHealthConfig) (nowUs : Nat) :
    RailSound fence next (counted + 1) (st.countFailure config nowUs) := by
  have hcount : (st.countFailure config nowUs).consecutiveFailures =
      min (counted + 1) (2 ^ 64 - 1) := nextFailures_eq h.failures
  refine ⟨h.fenced, h.fresh, h.epoch, fun g l hl hp => ?_, h.unique, h.held, hcount⟩
  obtain ⟨he, ha, -⟩ := h.probe g l hl hp
  refine ⟨he, ha, ?_⟩
  rw [hcount]
  omega

end Rail

/-! ## Runs -/

/-- A call. -/
inductive RemoteCall where
  | tryAcquire (peer : String) (rail nowUs : Nat)
  | complete (peer : String) (rail generation : Nat) (outcome : RemoteRailOutcome) (nowUs : Nat)
  | reconcile (livePeerIds : List String)
deriving DecidableEq

/-- The health with the fence of each rail and the failures counted on it since. -/
structure Watched where
  health : RemoteRailHealth
  fence : String → Nat → Nat := fun _ _ => 0
  counted : String → Nat → Nat := fun _ _ => 0

def RemoteRailHealth.counts (h : RemoteRailHealth) (peer : String) (rail generation : Nat) : Bool :=
  ((h.peers peer rail).activeLeases generation).any (h.peers peer rail).counts

def setAt {α : Type} (f : String → Nat → α) (peer : String) (rail : Nat) (a : α) :
    String → Nat → α :=
  fun p r => if p = peer ∧ r = rail then a else f p r

def Watched.step (w : Watched) : RemoteCall → Watched
  | .tryAcquire peer rail nowUs => { w with health := (w.health.tryAcquire peer rail nowUs).1 }
  | .complete peer rail generation outcome nowUs =>
    let done := w.health.complete peer rail generation outcome nowUs
    if done.2.transition = .recovered then
      { health := done.1
        fence := setAt w.fence peer rail w.health.nextGeneration
        counted := setAt w.counted peer rail 0 }
    else if outcome = .endpointFailure ∧ w.health.counts peer rail generation = true then
      { w with health := done.1, counted := setAt w.counted peer rail (w.counted peer rail + 1) }
    else { w with health := done.1 }
  | .reconcile livePeerIds =>
    { health := w.health.reconcile livePeerIds
      fence := fun p r => if livePeerIds.contains p then w.fence p r else w.health.nextGeneration
      counted := fun p r => if livePeerIds.contains p then w.counted p r else 0 }

variable (config : RemoteRailHealthConfig) (calls : List RemoteCall)

def Watched.start : Watched := { health := .new config }

def Watched.after : Watched :=
  calls.foldl Watched.step (.start config)

/-- Every rail of every peer is sound. -/
structure Sound (w : Watched) : Prop where
  clamped : w.health.config.Clamped
  rail : ∀ p r, RailSound (w.fence p r) w.health.nextGeneration (w.counted p r) (w.health.peers p r)

theorem sound_start : Sound (.start config) where
  clamped := clamped_clamp config
  rail := fun _ _ => railSound_default (zero_le _)

def Watched.setRail (w : Watched) (peer : String) (rail : Nat) (st : RailState)
    (fence counted : Nat) : Watched where
  health := w.health.setRail peer rail st
  fence := setAt w.fence peer rail fence
  counted := setAt w.counted peer rail counted

/-- What `Complete` does to the rail of an active lease, its fence and its failures: a probe
succeeds, a failure is counted, or the lease is only released. -/
inductive Completes (w : Watched) (peer : String) (rail generation : Nat) (lease : ActiveLease)
    (nowUs : Nat) : RemoteRailOutcome → RailState → Nat → Nat → Prop where
  | recovered (hprobe : lease.recoveryProbe = true)
      (hfailed : (w.health.peers peer rail).consecutiveFailures ≠ 0) :
      Completes w peer rail generation lease nowUs .success
        ((w.health.peers peer rail).release generation lease).recover w.health.nextGeneration 0
  | counted (hcounts : (w.health.peers peer rail).counts lease = true) :
      Completes w peer rail generation lease nowUs .endpointFailure
        (((w.health.peers peer rail).release generation lease).countFailure w.health.config nowUs)
        (w.fence peer rail) (w.counted peer rail + 1)
  | released (outcome : RemoteRailOutcome)
      (hrecover : outcome = .success → lease.recoveryProbe = true →
        (w.health.peers peer rail).consecutiveFailures = 0)
      (hcount : outcome = .endpointFailure → (w.health.peers peer rail).counts lease = false) :
      Completes w peer rail generation lease nowUs outcome
        ((w.health.peers peer rail).release generation lease) (w.fence peer rail)
        (w.counted peer rail)

theorem setAt_self {α : Type} (f : String → Nat → α) : setAt f peer rail (f peer rail) = f := by
  funext p r
  unfold setAt
  split
  · next h => rw [h.1, h.2]
  · rfl

theorem step_completes (w : Watched) {lease : ActiveLease}
    (hlease : (w.health.peers peer rail).activeLeases generation = some lease)
    (outcome : RemoteRailOutcome) (nowUs : Nat) :
    ∃ st' fence' counted', Completes w peer rail generation lease nowUs outcome st'
      fence' counted' ∧
      w.step (.complete peer rail generation outcome nowUs) =
        w.setRail peer rail st' fence' counted' := by
  have hcounts : w.health.counts peer rail generation = (w.health.peers peer rail).counts
    lease := by
    simp [counts, hlease]
  simp only [Watched.step, complete, hlease, hcounts, RailState.complete]
  cases outcome with
  | abandon =>
    refine ⟨_, _, _, .released _ (by simp) (by simp), ?_⟩
    simp [Watched.setRail, setAt_self, RailState.release]
  | success =>
    unfold RailState.succeed
    by_cases hprobe : lease.recoveryProbe
    · by_cases hfailed : (w.health.peers peer rail).consecutiveFailures = 0
      · refine ⟨_, _, _, .released _ (fun _ _ => hfailed) (by simp), ?_⟩
        simp [hprobe, hfailed, Watched.setRail, setAt_self, RailState.release]
      · refine ⟨_, _, _, .recovered hprobe hfailed, ?_⟩
        simp [hprobe, hfailed, Watched.setRail, RailState.release, RailState.recover]
    · refine ⟨_, _, _, .released _ (fun _ hp => absurd hp hprobe) (by simp), ?_⟩
      simp [hprobe, Watched.setRail, setAt_self, RailState.release]
  | endpointFailure =>
    unfold RailState.fail
    by_cases hc : (w.health.peers peer rail).counts lease
    · have hnot : ¬(!lease.recoveryProbe &&
          lease.healthEpoch != (w.health.peers peer rail).healthEpoch) := by
        simpa [RailState.counts, ← Bool.not_eq_true, or_iff_not_imp_left] using hc
      refine ⟨_, _, _, .counted hc, ?_⟩
      rw [if_neg hnot, if_neg (by dsimp only; split <;> simp), if_pos ⟨rfl, hc⟩]
      simp [Watched.setRail, setAt_self, RailState.release, RailState.countFailure]
    · have hignored : (!lease.recoveryProbe &&
          lease.healthEpoch != (w.health.peers peer rail).healthEpoch) := by
        simpa [RailState.counts] using hc
      have hnone : lease.recoveryProbe = false := by
        simp only [Bool.and_eq_true, Bool.not_eq_true'] at hignored
        exact hignored.1
      refine ⟨_, _, _, .released _ (by simp) (fun _ => by simpa using hc), ?_⟩
      rw [if_pos hignored]
      simp [hc, hnone, Watched.setRail, setAt_self, RailState.release]

/-- What one call did. -/
inductive Watched.Called (w : Watched) : RemoteCall → Watched → Prop where
  | refused (peer : String) (rail nowUs : Nat) : w.Called (.tryAcquire peer rail nowUs) w
  | granted (peer : String) (rail nowUs : Nat)
      (hfree : (w.health.peers peer rail).unavailable nowUs = false) :
      w.Called (.tryAcquire peer rail nowUs)
        { w with
          health :=
            { w.health.setRail peer rail
                ((w.health.peers peer rail).grant w.health.nextGeneration) with
              nextGeneration := w.health.nextGeneration + 1 } }
  | unknown (peer : String) (rail generation : Nat) (outcome : RemoteRailOutcome) (nowUs : Nat)
      (hlease : (w.health.peers peer rail).activeLeases generation = none) :
      w.Called (.complete peer rail generation outcome nowUs) w
  | completed (peer : String) (rail generation : Nat) (outcome : RemoteRailOutcome) (nowUs : Nat)
      (lease : ActiveLease)
      (hlease : (w.health.peers peer rail).activeLeases generation = some lease) (st' : RailState)
      (fence' counted' : Nat)
      (hdone : Completes w peer rail generation lease nowUs outcome st' fence' counted') :
      w.Called (.complete peer rail generation outcome nowUs)
        (w.setRail peer rail st' fence' counted')
  | reconciled (live : List String) : w.Called (.reconcile live) (w.step (.reconcile live))

theorem Watched.step_called (w : Watched) (call : RemoteCall) : w.Called call (w.step call) := by
  cases call with
  | tryAcquire peer rail nowUs =>
    simp only [Watched.step, tryAcquire]
    split
    · exact .refused peer rail nowUs
    split
    · exact .refused peer rail nowUs
    · next hfree => exact .granted peer rail nowUs (by simpa using hfree)
  | complete peer rail generation outcome nowUs =>
    cases hlease : (w.health.peers peer rail).activeLeases generation with
    | none =>
      have hsame : w.step (.complete peer rail generation outcome nowUs) = w := by
        simp [Watched.step, complete, counts, hlease]
      rw [hsame]
      exact .unknown peer rail generation outcome nowUs hlease
    | some lease =>
      obtain ⟨st', fence', counted', hdone, heq⟩ := step_completes w hlease outcome nowUs
      rw [heq]
      exact .completed peer rail generation outcome nowUs lease hlease st' fence' counted' hdone
  | reconcile live => exact .reconciled live

theorem step_sound (h : Sound w) (hc : w.Called call w') : Sound w' := by
  cases hc with
  | refused peer rail nowUs => exact h
  | granted peer rail nowUs hfree =>
    refine ⟨h.clamped, fun p r => ?_⟩
    simp only [setRail]
    split
    · next hpr =>
      obtain ⟨rfl, rfl⟩ := hpr
      exact (h.rail p r).grant hfree
    · exact (h.rail p r).later
  | unknown peer rail generation outcome nowUs hlease => exact h
  | completed peer rail generation outcome nowUs lease hlease st' fence' counted' hdone =>
    have hst := h.rail peer rail
    refine ⟨h.clamped, fun p r => ?_⟩
    simp only [Watched.setRail, setRail, setAt]
    split
    · cases hdone with
      | recovered hprobe hfailed =>
        refine (hst.release hlease).recover fun g l hl => ?_
        by_contra hp
        simp only [RailState.release] at hl
        split at hl
        · cases hl
        · next hg =>
          exact hg (hst.unique g l generation lease hl hlease (by simpa using hp) hprobe)
      | counted hcounts => exact (hst.release hlease).countFailure w.health.config nowUs
      | released outcome hrecover hcount => exact hst.release hlease
    · exact h.rail p r
  | reconciled live =>
    refine ⟨h.clamped, fun p r => ?_⟩
    simp only [Watched.step, reconcile]
    split
    · exact h.rail p r
    · exact railSound_default le_rfl

theorem after_sound : Sound (.after config calls) := by
  have hfold : ∀ (calls : List RemoteCall) {w : Watched}, Sound w →
      Sound (calls.foldl Watched.step w) := by
    intro calls
    induction calls with
    | nil => exact fun h => h
    | cons call calls ih => exact fun h => ih (step_sound h (Watched.step_called _ call))
  exact hfold calls (sound_start config)

/-! ## The protocol -/

/-- What a lease decides on a rail: everything but the other leases. -/
def RailState.decided (st : RailState) : Nat × Nat × Nat × Bool :=
  (st.healthEpoch, st.consecutiveFailures, st.cooldownUntilUs, st.recoveryProbeActive)

/-- A lease granted before the fence of its rail is none of the current epoch, so its completion
decides nothing. -/
theorem stale_decides_nothing (h : Sound w) (hstale : generation < w.fence peer rail)
    {outcome : RemoteRailOutcome} {nowUs : Nat}
    (hc : w.Called (.complete peer rail generation outcome nowUs) w') (p : String) (r : Nat) :
    (w'.health.peers p r).decided = (w.health.peers p r).decided := by
  cases hc with
  | unknown peer rail generation outcome nowUs hlease => rfl
  | completed peer rail generation outcome nowUs lease hlease st' fence' counted' hdone =>
    have hst := h.rail peer rail
    have hepoch : lease.healthEpoch ≠ (w.health.peers peer rail).healthEpoch := by
      intro heq
      have := (hst.epoch generation lease hlease).1.mp heq
      omega
    have hprobe : lease.recoveryProbe = false := by
      by_contra hp
      exact hepoch (hst.probe generation lease hlease (by simpa using hp)).1
    cases hdone with
    | recovered hp _ => exact absurd hp (by simp [hprobe])
    | counted hcounts =>
      simp [RailState.counts, hprobe, hepoch] at hcounts
    | released outcome hrecover hcount =>
      simp only [Watched.setRail, setRail]
      split
      · next hpr =>
        obtain ⟨rfl, rfl⟩ := hpr
        simp [RailState.decided, RailState.release, hprobe]
      · rfl

def ProbeSucceeds (w : Watched) (call : RemoteCall) (p : String) (r : Nat) : Prop :=
  ∃ g l nowUs, call = .complete p r g .success nowUs ∧
    (w.health.peers p r).activeLeases g = some l ∧ l.recoveryProbe = true

def Removes (call : RemoteCall) (p : String) : Prop :=
  ∃ live, call = .reconcile live ∧ p ∉ live

/-- A call takes back a failure count or a deadline only where a probe succeeds or the peer is
removed. -/
theorem step_kept (hc : w.Called call w') (p : String) (r : Nat) :
    ((w.health.peers p r).consecutiveFailures ≤ (w'.health.peers p r).consecutiveFailures ∧
      (w.health.peers p r).cooldownUntilUs ≤ (w'.health.peers p r).cooldownUntilUs) ∨
    ProbeSucceeds w call p r ∨ Removes call p := by
  cases hc with
  | refused peer rail nowUs => exact .inl ⟨le_rfl, le_rfl⟩
  | granted peer rail nowUs hfree =>
    refine .inl ?_
    simp only [setRail]
    split
    · next hpr =>
      obtain ⟨rfl, rfl⟩ := hpr
      exact ⟨le_rfl, le_rfl⟩
    · exact ⟨le_rfl, le_rfl⟩
  | unknown peer rail generation outcome nowUs hlease => exact .inl ⟨le_rfl, le_rfl⟩
  | completed peer rail generation outcome nowUs lease hlease st' fence' counted' hdone =>
    simp only [Watched.setRail, setRail]
    split
    · next hpr =>
      obtain ⟨rfl, rfl⟩ := hpr
      cases hdone with
      | recovered hprobe hfailed =>
        exact .inr (.inl ⟨generation, lease, nowUs, rfl, hlease, hprobe⟩)
      | counted hcounts =>
        refine .inl ⟨?_, le_max_left _ _⟩
        simp only [RailState.countFailure, RailState.release]
        unfold nextFailures
        split <;> omega
      | released outcome hrecover hcount => exact .inl ⟨le_rfl, le_rfl⟩
    · exact .inl ⟨le_rfl, le_rfl⟩
  | reconciled live =>
    by_cases hp : p ∈ live
    · refine .inl ?_
      simp only [Watched.step, reconcile, List.contains_iff_mem, hp, if_true]
      exact ⟨le_rfl, le_rfl⟩
    · exact .inr (.inr ⟨live, rfl, hp⟩)

/-- The k-th counted failure moves the deadline by the k-th cooldown. -/
theorem counted_deadline (h : Sound w) {lease : ActiveLease}
    (hlease : (w.health.peers peer rail).activeLeases generation = some lease)
    (hcounts : (w.health.peers peer rail).counts lease) (nowUs : Nat) :
    (w.step (.complete peer rail generation .endpointFailure nowUs)).counted peer rail =
        w.counted peer rail + 1 ∧
      ((w.step (.complete peer rail generation .endpointFailure nowUs)).health.peers peer
        rail).cooldownUntilUs =
        max (w.health.peers peer rail).cooldownUntilUs (min (2 ^ 64 - 1)
          (nowUs + min w.health.config.maxCooldownUs
            (w.health.config.baseCooldownUs * 2 ^ w.counted peer rail))) := by
  have hfailures := (h.rail peer rail).failures
  have hmax := h.clamped.bounded
  have hhard : kHardMaxCooldownUs = 30000000 := rfl
  obtain ⟨st', fence', counted', hdone, heq⟩ := step_completes w hlease .endpointFailure nowUs
  rw [heq]
  cases hdone with
  | counted _ =>
    refine ⟨by simp [Watched.setRail, setAt], ?_⟩
    simp only [Watched.setRail, setRail, and_self, if_true, RailState.countFailure,
      RailState.release]
    have hle : cooldownFor w.health.config
        (nextFailures (w.health.peers peer rail).consecutiveFailures) ≤ 2 ^ 64 - 1 := by
      have hmin : cooldownFor w.health.config
          (nextFailures (w.health.peers peer rail).consecutiveFailures) ≤
            w.health.config.maxCooldownUs := min_le_right _ _
      omega
    rw [saturatingAdd_eq hle, nextFailures_eq hfailures, cooldownFor_saturated h.clamped]
  | released outcome hrecover hcount =>
    rw [hcount rfl] at hcounts
    cases hcounts

def RemoteCall.reconciled : RemoteCall → Option (List String)
  | .tryAcquire _ _ _ => none
  | .complete _ _ _ _ _ => none
  | .reconcile livePeerIds => some livePeerIds

/-- The peers of the last `Reconcile`. -/
def lastReconciled : Option (List String) :=
  (calls.filterMap RemoteCall.reconciled).getLast?

theorem step_live (hc : w.Called call w') : (w'.health.hasReconciled, w'.health.livePeerIds) =
      (call.reconciled.elim (w.health.hasReconciled, w.health.livePeerIds)
        fun live => (true, live)) := by
  cases hc <;> rfl

theorem after_live {live : List String} (h : lastReconciled calls = some live) :
    ((Watched.after config calls).health.hasReconciled,
      (Watched.after config calls).health.livePeerIds) = (true, live) := by
  induction calls using List.reverseRecOn generalizing live with
  | nil => exact absurd h (by simp [lastReconciled])
  | append_singleton calls call ih =>
    have hlast : lastReconciled (calls ++ [call]) =
        call.reconciled.elim (lastReconciled calls) some := by
      cases hcall : call.reconciled <;> simp [lastReconciled, List.filterMap_append, hcall]
    rw [Watched.after, List.foldl_append, List.foldl_cons, List.foldl_nil,
      step_live (Watched.step_called _ call)]
    rw [hlast] at h
    cases hcall : call.reconciled with
    | none =>
      rw [hcall] at h
      exact ih h
    | some livePeerIds =>
      rw [hcall] at h
      cases h
      rfl

/-- What a granted lease says of the state it was granted in. -/
theorem tryAcquire_granted {h : RemoteRailHealth} {nowUs : Nat} {lease : RemoteRailLease}
    (hgrant : (h.tryAcquire peer rail nowUs).2 = some lease) :
    lease = (h.peers peer rail).lease h.nextGeneration ∧
      (h.tryAcquire peer rail nowUs).1.nextGeneration = h.nextGeneration + 1 ∧
      (h.peers peer rail).unavailable nowUs = false ∧
      (h.hasReconciled → peer ∈ h.livePeerIds) := by
  unfold tryAcquire at hgrant ⊢
  by_cases hgone : (h.hasReconciled && !h.livePeerIds.contains peer)
  · rw [if_pos hgone] at hgrant
    cases hgrant
  · rw [if_neg hgone] at hgrant ⊢
    by_cases hfree : (h.peers peer rail).unavailable nowUs
    · simp only [hfree, if_true] at hgrant
      cases hgrant
    · simp only [hfree] at hgrant ⊢
      refine ⟨(Option.some.inj hgrant).symm, rfl, by simp, fun hr => ?_⟩
      by_contra hp
      exact hgone (by simp [hr, hp])

theorem nextGeneration_le_step (hc : w.Called call w') :
    w.health.nextGeneration ≤ w'.health.nextGeneration := by
  cases hc with
  | granted peer rail nowUs hfree => exact le_succ _
  | _ => exact le_rfl

/-- The protocol in a state, with the peers of the last `Reconcile`. -/
structure Protocol (w : Watched) (last : Option (List String)) : Prop where
  /-- At most one probe of a rail is outstanding. -/
  oneProbe : ∀ p r g l g' l', (w.health.peers p r).activeLeases g = some l →
    (w.health.peers p r).activeLeases g' = some l' → l.recoveryProbe = true →
    l'.recoveryProbe = true → g = g'
  /-- With unrecovered failures, a lease is granted only after the deadline, as a probe. -/
  granted : ∀ p r nowUs lease, (w.health.tryAcquire p r nowUs).2 = some lease →
    (w.health.peers p r).consecutiveFailures ≠ 0 →
    (w.health.peers p r).cooldownUntilUs ≤ nowUs ∧ lease.recoveryProbe = true
  /-- Failures are cleared by the success of a probe, or with their peer. -/
  cleared : ∀ call p r, (w.health.peers p r).consecutiveFailures ≠ 0 →
    ((w.step call).health.peers p r).consecutiveFailures = 0 →
    ProbeSucceeds w call p r ∨ Removes call p
  /-- The fence of a rail moves up to the next generation with a recovery or a removal, and
      not otherwise. -/
  fence : ∀ call p r, ((w.step call).fence p r = w.health.nextGeneration ∧
      (ProbeSucceeds w call p r ∨ Removes call p)) ∨
    ((w.step call).fence p r = w.fence p r ∧ ¬ProbeSucceeds w call p r ∧ ¬Removes call p)
  /-- Leases are numbered in the order in which they are granted, so those below the fence
      of their rail are those granted before it moved last. -/
  numbered : ∀ p r nowUs lease, (w.health.tryAcquire p r nowUs).2 = some lease →
    w.fence p r ≤ lease.generation ∧ lease.generation = w.health.nextGeneration ∧
      (w.health.tryAcquire p r nowUs).1.nextGeneration = w.health.nextGeneration + 1
  inOrder : ∀ call, w.health.nextGeneration ≤ (w.step call).health.nextGeneration
  /-- A lease below the fence decides nothing. -/
  stale : ∀ p r g outcome nowUs, g < w.fence p r → ∀ p' r',
    ((w.step (.complete p r g outcome nowUs)).health.peers p' r').decided =
      (w.health.peers p' r').decided
  /-- A failure from the fence on is the next one counted, and moves the deadline. -/
  deadline : ∀ p r g l nowUs, (w.health.peers p r).activeLeases g = some l → w.fence p r ≤ g →
    (w.step (.complete p r g .endpointFailure nowUs)).counted p r = w.counted p r + 1 ∧
    ((w.step (.complete p r g .endpointFailure nowUs)).health.peers p r).cooldownUntilUs =
      max (w.health.peers p r).cooldownUntilUs (min (2 ^ 64 - 1)
        (nowUs + min w.health.config.maxCooldownUs
          (w.health.config.baseCooldownUs * 2 ^ w.counted p r)))
  /-- The deadline moves earlier only with a recovery or a removal. -/
  later : ∀ call p r, ((w.step call).health.peers p r).cooldownUntilUs <
      (w.health.peers p r).cooldownUntilUs → ProbeSucceeds w call p r ∨ Removes call p
  /-- A peer missing from the last `Reconcile` gets no lease. -/
  missing : ∀ live, last = some live → ∀ p r nowUs, p ∉ live →
    (w.health.tryAcquire p r nowUs).2 = none

theorem step_fence (h : Sound w) (hc : w.Called call w') (p : String) (r : Nat) :
    (w'.fence p r = w.health.nextGeneration ∧ (ProbeSucceeds w call p r ∨ Removes call p)) ∨
      (w'.fence p r = w.fence p r ∧ ¬ProbeSucceeds w call p r ∧ ¬Removes call p) := by
  cases hc with
  | refused peer rail nowUs => exact .inr ⟨rfl, by simp [ProbeSucceeds], by simp [Removes]⟩
  | granted peer rail nowUs hfree => exact .inr ⟨rfl, by simp [ProbeSucceeds], by simp [Removes]⟩
  | unknown peer rail generation outcome nowUs hlease =>
    refine .inr ⟨rfl, ?_, by simp [Removes]⟩
    rintro ⟨g, l, t, hcall, hl, -⟩
    cases hcall
    cases hlease.symm.trans hl
  | completed peer rail generation outcome nowUs lease hlease st' fence' counted' hdone =>
    by_cases hpr : p = peer ∧ r = rail
    · obtain ⟨rfl, rfl⟩ := hpr
      simp only [Watched.setRail, setAt, and_self, if_true]
      cases hdone with
      | recovered hprobe hfailed =>
        exact .inl ⟨rfl, .inl ⟨generation, lease, nowUs, rfl, hlease, hprobe⟩⟩
      | counted hcounts => exact .inr ⟨rfl, by simp [ProbeSucceeds], by simp [Removes]⟩
      | released outcome hrecover hcount =>
        refine .inr ⟨rfl, ?_, by simp [Removes]⟩
        -- A probe is outstanding only with failures, so its success is a recovery.
        rintro ⟨g, l, t, hcall, hl, hp⟩
        cases hcall
        cases hlease.symm.trans hl
        exact ((h.rail p r).probe generation lease hl hp).2.2 (hrecover rfl hp)
    · refine .inr ⟨if_neg hpr, ?_, by simp [Removes]⟩
      rintro ⟨g, l, t, hcall, -, -⟩
      cases hcall
      exact hpr ⟨rfl, rfl⟩
  | reconciled live =>
    by_cases hp : p ∈ live
    · refine .inr ⟨?_, by simp [ProbeSucceeds], by simpa [Removes] using hp⟩
      simp [Watched.step, hp]
    · refine .inl ⟨?_, .inr ⟨live, rfl, hp⟩⟩
      simp [Watched.step, hp]

/-- The protocol holds after any calls, in any order and at any times. -/
theorem remote_rail_health_protocol (config : RemoteRailHealthConfig) (calls : List RemoteCall) :
    Protocol (.after config calls) (lastReconciled calls) := by
  have h := after_sound config calls
  have hlive : ∀ live, lastReconciled calls = some live → _ := fun _ => after_live config calls
  generalize Watched.after config calls = w at h hlive ⊢
  constructor
  case oneProbe => exact fun p r => (h.rail p r).unique
  case granted =>
    intro p r nowUs lease hgrant hfailed
    obtain ⟨rfl, -, hfree, -⟩ := tryAcquire_granted hgrant
    refine ⟨?_, bne_iff_ne.mpr hfailed⟩
    by_contra hearly
    simp [RailState.unavailable, hfailed, Nat.lt_of_not_le hearly] at hfree
  case cleared =>
    intro call p r hfailed hnone
    refine (step_kept (w.step_called call) p r).resolve_left ?_
    rintro ⟨hle, -⟩
    omega
  case fence => exact fun call => step_fence h (w.step_called call)
  case numbered =>
    intro p r nowUs lease hgrant
    obtain ⟨rfl, hnext, -, -⟩ := tryAcquire_granted hgrant
    exact ⟨(h.rail p r).fenced, rfl, hnext⟩
  case inOrder => exact fun call => nextGeneration_le_step (w.step_called call)
  case stale => exact fun p r g outcome nowUs hg => stale_decides_nothing h hg (w.step_called _)
  case deadline =>
    intro p r g l nowUs hl hg
    have hepoch := ((h.rail p r).epoch g l hl).1.mpr hg
    exact counted_deadline h hl (by simp [RailState.counts, hepoch]) nowUs
  case later =>
    intro call p r hlt
    refine (step_kept (w.step_called call) p r).resolve_left ?_
    rintro ⟨-, hle⟩
    omega
  case missing =>
    intro live hlast p r nowUs hp
    obtain ⟨hreconciled, rfl⟩ := Prod.mk.inj (hlive live hlast)
    cases hgrant : (w.health.tryAcquire p r nowUs).2 with
    | none => rfl
    | some lease => exact absurd ((tryAcquire_granted hgrant).2.2.2 hreconciled) hp

/-- A peer that is removed and comes back has no failures left, with no probe in between: it is
granted a normal lease before the deadline of the failure. -/
theorem removal_clears_failures :
    let w := Watched.after {} [.tryAcquire "node" 0 0, .complete "node" 0 1 .endpointFailure 0]
    let w' := (w.step (.reconcile [])).step (.reconcile ["node"])
    (w.health.peers "node" 0).consecutiveFailures = 1 ∧
      (w.health.peers "node" 0).cooldownUntilUs = 1000000 ∧
      (w'.health.peers "node" 0).consecutiveFailures = 0 ∧
      (w'.health.tryAcquire "node" 0 1).2 =
        some { generation := 2, healthEpoch := 0, recoveryProbe := false } := by
  decide

end DingoCache.Transport
