import DingoCache.Library.Holdings
import DingoCache.Library.Interleaving

/-!
# Admission on Rails

`RailPolicy` of `src/transport/rail_select.h`: credits for each local rail, selection of
the least loaded one, and quarantine of a rail after errors until one probe succeeds.

- `tryAcquire_cases`, `complete_becomes`: what the two calls do to the rails.
-/

namespace DingoCache.Transport

open Library List Nat

variable {j : Nat} {s' : Holders} {call : Call} {p : RailPolicy} {rail' : Rail} {held : Held}

/-! ## The policy -/

structure RailPolicyConfig where
  creditsPerRail : Nat := 64
  errorThreshold : Nat := 3
  quarantineUs : Nat := 5000000
  latencyWeight : Nat := 1
  errorPenaltyUs : Nat := 100000
deriving DecidableEq

structure RailLease where
  rail : Nat := 0
  credits : Nat := 0
deriving DecidableEq

inductive RailCompletion where
  | success
  | admission
  | endpointFailure
  | railFailure
deriving DecidableEq

/-- `RailPolicy::State`, one rail. -/
structure Rail where
  inflight : Nat := 0
  credits : Nat := 0
  consecutiveErrors : Nat := 0
  latencyEwmaUs : Nat := 0
  selections : Nat := 0
  creditsExhausted : Nat := 0
  errors : Nat := 0
  endpointErrors : Nat := 0
  quarantines : Nat := 0
  recoveries : Nat := 0
  quarantinedUntilUs : Nat := 0
  recoveryProbe : Bool := false
deriving DecidableEq

open Rail

structure RailPolicy where
  config : RailPolicyConfig
  rails : List Rail
deriving DecidableEq

variable (config : RailPolicyConfig) (args : AcquireArgs)

/-- The constructor of `RailPolicy`. -/
def RailPolicy.new (rails : Nat) (config : RailPolicyConfig) : RailPolicy :=
  let config := { config with
    creditsPerRail := max 1 config.creditsPerRail
    errorThreshold := max 1 config.errorThreshold
    quarantineUs := max 1 config.quarantineUs }
  { config, rails := replicate rails { credits := config.creditsPerRail } }

def bump (n : Nat) : Nat := (n + 1) % 2 ^ 64

/-- `Allowed`: an empty mask allows every rail. -/
def isAllowed (rail : Nat) (allowed : List UInt8) : Bool :=
  allowed.isEmpty || (allowed.getD rail 0 != 0)

/-- `Excluded`. -/
def isExcluded (rail : Nat) (excluded : List UInt8) : Bool := excluded.getD rail 0 != 0

/-- The arguments of `TryAcquire`. -/
structure AcquireArgs where
  requested : Nat
  nowUs : Nat
  allowed : List UInt8 := []
  excluded : List UInt8 := []
deriving DecidableEq

/-- The variables of the scan of `TryAcquireLocked`. -/
structure Selection where
  selected : Option Nat := none
  score : Nat := 2 ^ 64 - 1
  recovery : Bool := false
deriving DecidableEq

/-- The score of a rail; the lowest one is selected. -/
def railScore (rail : Rail) : Nat :=
  (rail.inflight * 1000000 / rail.credits + rail.latencyEwmaUs * config.latencyWeight +
    rail.consecutiveErrors * config.errorPenaltyUs) % 2 ^ 64

/-- The rail may only serve as a recovery probe. -/
def Rail.probe (rail : Rail) : Bool := rail.recoveryProbe || rail.quarantinedUntilUs != 0

def considerRail (i : Nat) (rail : Rail) (sel : Selection) : Rail × Selection :=
  if !isAllowed i args.allowed || isExcluded i args.excluded then (rail, sel)
  else if args.nowUs < rail.quarantinedUntilUs then (rail, sel)
  else if rail.probe && rail.inflight != 0 then (rail, sel)
  else if rail.credits - rail.inflight < args.requested then
    ({ rail with creditsExhausted := bump rail.creditsExhausted }, sel)
  else if (rail.probe && !sel.recovery) ||
      (rail.probe == sel.recovery && railScore config rail < sel.score) then
    (rail, { selected := some i, score := railScore config rail, recovery := rail.probe })
  else (rail, sel)

/-- The scan, from the rail with number `i` on. -/
def scanRails (config : RailPolicyConfig) (args : AcquireArgs) :
    Nat → List Rail → Selection → List Rail × Selection
  | _, [], sel => ([], sel)
  | i, rail :: rails, sel =>
    let here := considerRail config args i rail sel
    let rest := scanRails config args (i + 1) rails here.2
    (here.1 :: rest.1, rest.2)

/-- The selected rail takes the lease; after a cooldown it is the recovery probe. -/
def Rail.grant (requested : Nat) (rail : Rail) : Rail :=
  { rail with
    recoveryProbe := rail.recoveryProbe || rail.quarantinedUntilUs != 0
    inflight := rail.inflight + requested
    selections := bump rail.selections }

def RailPolicy.clamp (p : RailPolicy) (args : AcquireArgs) : AcquireArgs :=
  { args with requested := min (max 1 args.requested) p.config.creditsPerRail }

/-- `TryAcquireLocked`. -/
def RailPolicy.tryAcquire (p : RailPolicy) (args : AcquireArgs) : RailPolicy × Option RailLease :=
  let args := p.clamp args
  let scanned := scanRails p.config args 0 p.rails {}
  match scanned.2.selected with
  | none => ({ p with rails := scanned.1 }, none)
  | some i =>
    ({ p with rails := scanned.1.modify i (grant args.requested) },
      some { rail := i, credits := args.requested })

/-- What `Complete` does to the rail of the lease. -/
def Rail.complete (credits latencyUs : Nat)
    (completion : RailCompletion) (nowUs : Nat) (rail : Rail) : Rail :=
  let rail := { rail with inflight := rail.inflight - min credits rail.inflight }
  match completion with
  | .success =>
    { rail with
      latencyEwmaUs := if rail.latencyEwmaUs = 0 then latencyUs
        else (rail.latencyEwmaUs * 7 + latencyUs) % 2 ^ 64 / 8
      consecutiveErrors := 0
      recoveries := if rail.recoveryProbe then bump rail.recoveries else rail.recoveries
      quarantinedUntilUs := if rail.recoveryProbe then 0 else rail.quarantinedUntilUs
      recoveryProbe := false }
  | .admission => { rail with recoveryProbe := false }
  | .endpointFailure =>
    { rail with endpointErrors := bump rail.endpointErrors, recoveryProbe := false }
  | .railFailure =>
    let rail := { rail with
      errors := bump rail.errors
      consecutiveErrors := (rail.consecutiveErrors + 1) % 2 ^ 32 }
    if rail.recoveryProbe || config.errorThreshold ≤ rail.consecutiveErrors then
      { rail with
        quarantines := bump rail.quarantines
        quarantinedUntilUs := (nowUs + config.quarantineUs) % 2 ^ 64
        recoveryProbe := false }
    else rail

/-- `Complete`; a lease of no rail is ignored. -/
def RailPolicy.complete (p : RailPolicy) (lease : RailLease) (latencyUs : Nat)
    (completion : RailCompletion) (nowUs : Nat) : RailPolicy :=
  { p with
    rails := p.rails.modify lease.rail
      (Rail.complete p.config lease.credits latencyUs completion nowUs) }

/-! ## What a call does to a rail -/

def Rail.core (rail : Rail) : Rail := { rail with creditsExhausted := 0 }

/-- What a lease is granted for. -/
structure Eligible (args : AcquireArgs) (i : Nat) (rail : Rail) : Prop where
  allowed : isAllowed i args.allowed = true
  notExcluded : isExcluded i args.excluded = false
  cooled : rail.quarantinedUntilUs ≤ args.nowUs
  idle : rail.probe = true → rail.inflight = 0
  fits : args.requested ≤ rail.credits - rail.inflight

theorem considerRail_cases (i : Nat) (rail : Rail) (sel : Selection) :
    (considerRail config args i rail sel).1.core = rail.core ∧
      ((considerRail config args i rail sel).2 = sel ∨
        ((considerRail config args i rail sel).2.selected = some i ∧ Eligible args i rail)) := by
  unfold considerRail
  split
  · exact ⟨rfl, .inl rfl⟩
  next hmask =>
  split
  · exact ⟨rfl, .inl rfl⟩
  next hcool =>
  split
  · exact ⟨rfl, .inl rfl⟩
  next hidle =>
  split
  · exact ⟨rfl, .inl rfl⟩
  next hfits =>
  split
  · refine ⟨rfl, .inr ⟨rfl, ?_⟩⟩
    simp only [Bool.or_eq_true, Bool.not_eq_true', not_or, Bool.not_eq_false, Bool.not_eq_true,
      Bool.and_eq_true, bne_iff_ne, ne_eq, not_and, not_not] at hmask hidle
    exact ⟨hmask.1, hmask.2, by omega, hidle, by omega⟩
  · exact ⟨rfl, .inl rfl⟩

/-- The scan changes no rail but its counter, and selects a rail that may have the lease. -/
theorem scanRails_spec (rails : List Rail) (i : Nat) (sel : Selection) :
    (scanRails config args i rails sel).1.map core = rails.map core ∧
      ∀ k, (scanRails config args i rails sel).2.selected = some k → sel.selected = some k ∨
        ∃ j rail, k = i + j ∧ rails[j]? = some rail ∧ Eligible args k rail := by
  induction rails generalizing i sel with
  | nil => exact ⟨rfl, fun k h => .inl h⟩
  | cons rail rails ih =>
    obtain ⟨hcore, hsel⟩ := considerRail_cases config args i rail sel
    obtain ⟨hrest, hselected⟩ := ih (i + 1) (considerRail config args i rail sel).2
    refine ⟨?_, fun k hk => ?_⟩
    · rw [scanRails, map_cons, map_cons, hcore, hrest]
    · rw [scanRails] at hk
      rcases hselected k hk with hk | ⟨j, rail', rfl, hj, hok⟩
      · rcases hsel with hsame | ⟨hsome, hok⟩
        · exact .inl (hsame ▸ hk)
        · cases hsome.symm.trans hk
          exact .inr ⟨0, rail, rfl, rfl, hok⟩
      · exact .inr ⟨j + 1, rail', by omega, hj, hok⟩

/-- The fields that the scan leaves alone. -/
structure SameFields (r r' : Rail) : Prop where
  inflight : r'.inflight = r.inflight
  credits : r'.credits = r.credits
  consecutiveErrors : r'.consecutiveErrors = r.consecutiveErrors
  quarantinedUntilUs : r'.quarantinedUntilUs = r.quarantinedUntilUs
  recoveryProbe : r'.recoveryProbe = r.recoveryProbe

theorem sameFields_of_core {r r' : Rail} (h : r'.core = r.core) : SameFields r r' where
  inflight := (congrArg inflight h :)
  credits := (congrArg credits h :)
  consecutiveErrors := (congrArg consecutiveErrors h :)
  quarantinedUntilUs := (congrArg quarantinedUntilUs h :)
  recoveryProbe := (congrArg recoveryProbe h :)

/-- The rails after a call, one by one: `f` has changed the rail with number `k`, up to the counter
of the scan. -/
structure Becomes (p q : RailPolicy) (k : Nat) (f : Rail → Rail) : Prop where
  config : q.config = p.config
  length : q.rails.length = p.rails.length
  rail : ∀ {j rail'}, q.rails[j]? = some rail' →
    ∃ rail, p.rails[j]? = some rail ∧ SameFields (if k = j then f rail else rail) rail'

theorem becomes_modify {rails : List Rail} (hcore : rails.map core = p.rails.map core)
    (k : Nat) (f : Rail → Rail) (hf : ∀ rail, (f rail).core = (f rail.core).core) :
    Becomes p { p with rails := rails.modify k f } k f := by
  refine ⟨rfl, ?_, fun {j rail'} hj => ?_⟩
  · rw [length_modify, ← length_map (f := core), hcore, length_map]
  · rw [getElem?_modify] at hj
    obtain ⟨mid, hmid, rfl⟩ := Option.map_eq_some_iff.mp hj
    have hmap := congrArg (·[j]?) hcore
    simp only [getElem?_map, hmid, Option.map_some] at hmap
    obtain ⟨rail, hrail, hsame⟩ := Option.map_eq_some_iff.mp hmap.symm
    refine ⟨rail, hrail, sameFields_of_core ?_⟩
    split
    · rw [hf, hf rail, hsame]
    · exact hsame.symm

theorem tryAcquire_cases (p : RailPolicy) (args : AcquireArgs) :
    ((p.tryAcquire args).2 = none ∧ Becomes p (p.tryAcquire args).1 0 id) ∨
    ∃ lease rail, (p.tryAcquire args).2 = some lease ∧ p.rails[lease.rail]? = some rail ∧
      lease.credits = (p.clamp args).requested ∧ Eligible (p.clamp args) lease.rail rail ∧
      Becomes p (p.tryAcquire args).1 lease.rail (grant lease.credits) := by
  obtain ⟨hcore, hselected⟩ := scanRails_spec p.config (p.clamp args) p.rails 0 {}
  unfold RailPolicy.tryAcquire
  simp only
  split
  · have hq := becomes_modify hcore 0 id fun _ => rfl
    rw [modify_id] at hq
    exact .inl ⟨rfl, hq⟩
  · next i hi =>
    rcases hselected i hi with hnone | ⟨j, rail, rfl, hj, hok⟩
    · cases hnone
    rw [zero_add] at hok ⊢
    exact .inr ⟨_, rail, rfl, hj, rfl, hok, becomes_modify hcore _ _ fun _ => rfl⟩

theorem complete_becomes (p : RailPolicy) (lease : RailLease) (latencyUs : Nat)
    (completion : RailCompletion) (nowUs : Nat) :
    Becomes p (p.complete lease latencyUs completion nowUs) lease.rail
      (Rail.complete p.config lease.credits latencyUs completion nowUs) := by
  refine becomes_modify rfl _ _ fun rail => ?_
  unfold Rail.complete
  cases completion with
  | success => rfl
  | admission => rfl
  | endpointFailure => rfl
  | railFailure =>
    dsimp only [core]
    split <;> rfl

/-! ## Runs -/

/-- A lease that its holder has not completed, and the step that granted it. -/
structure Held where
  lease : RailLease
  grantedAt : Nat
deriving DecidableEq

/-- The policy with its holders: the outstanding leases, the number of steps so far, and for a rail
in quarantine the step since which it is. -/
structure Holders where
  policy : RailPolicy
  held : List Held := []
  clock : Nat := 0
  since : Nat → Option Nat := fun _ => none

open Holders

/-- A call. -/
inductive Call where
  | tryAcquire (args : AcquireArgs)
  | complete (h : Held) (latencyUs : Nat) (completion : RailCompletion) (nowUs : Nat)
deriving DecidableEq

/-- The quarantine deadline of a rail; 0 without a quarantine. -/
def RailPolicy.deadline (p : RailPolicy) (j : Nat) : Nat :=
  (p.rails[j]?.map quarantinedUntilUs).getD 0

/-- The state after a call left the policy `q`. -/
def Holders.next (s : Holders) (q : RailPolicy) (held : List Held) : Holders where
  policy := q
  held := held
  clock := s.clock + 1
  since := fun j =>
    if q.deadline j = 0 then none
    else if s.policy.deadline j = 0 then some s.clock else s.since j

/-- One call; only an outstanding lease is completed. -/
def Holders.step (s : Holders) : Call → Option Holders
  | .tryAcquire args =>
    match s.policy.tryAcquire args with
    | (q, none) => some (s.next q s.held)
    | (q, some lease) => some (s.next q ({ lease, grantedAt := s.clock } :: s.held))
  | .complete h latencyUs completion nowUs =>
    if h ∈ s.held then
      some (s.next (s.policy.complete h.lease latencyUs completion nowUs) (s.held.erase h))
    else none

def Holders.start (rails : Nat) (config : RailPolicyConfig) : Holders :=
  { policy := .new rails config }

/-- The rail of an outstanding lease, and its credits. -/
def Held.rail (h : Held) : Nat := h.lease.rail

def Held.credits (h : Held) : Nat := h.lease.credits

/-- What one call did. -/
inductive Called (s : Holders) : Call → Holders → Prop where
  | refused (args : AcquireArgs) (q : RailPolicy) (h : Becomes s.policy q 0 id) :
      Called s (.tryAcquire args) (s.next q s.held)
  | granted (args : AcquireArgs) (q : RailPolicy) (lease : RailLease) (rail : Rail)
      (hrail : s.policy.rails[lease.rail]? = some rail)
      (hcredits : lease.credits = (s.policy.clamp args).requested)
      (hok : Eligible (s.policy.clamp args) lease.rail rail)
      (h : Becomes s.policy q lease.rail (grant lease.credits)) :
      Called s (.tryAcquire args) (s.next q ({ lease, grantedAt := s.clock } :: s.held))
  | completed (h : Held) (latencyUs : Nat) (completion : RailCompletion) (nowUs : Nat)
      (hmem : h ∈ s.held) (q : RailPolicy)
      (hq : Becomes s.policy q h.rail
        (Rail.complete s.policy.config h.credits latencyUs completion nowUs)) :
      Called s (.complete h latencyUs completion nowUs) (s.next q (s.held.erase h))

theorem step_called {s : Holders} (h : s.step call = some s') : Called s call s' := by
  cases call with
  | tryAcquire args =>
    simp only [step] at h
    have hcases := tryAcquire_cases s.policy args
    generalize s.policy.tryAcquire args = r at h hcases
    obtain ⟨q, lease⟩ := r
    rcases hcases with ⟨hnone, hq⟩ | ⟨lease', rail, hsome, hrail, hcredits, hok, hq⟩
    · obtain rfl : lease = none := hnone
      cases h
      exact .refused args q hq
    · obtain rfl : lease = some lease' := hsome
      cases h
      exact .granted args q lease' rail hrail hcredits hok hq
  | complete held latencyUs completion nowUs =>
    simp only [step] at h
    split at h
    · next hmem =>
      cases h
      exact .completed held latencyUs completion nowUs hmem _
        (complete_becomes s.policy held.lease latencyUs completion nowUs)
    · cases h

/-! ## Books and quarantine -/

/-- Rail `j`: its in-flight count is what its outstanding leases hold, and within its limit; a lease
granted since the rail is in quarantine is the recovery probe and the only lease on the rail. -/
structure RailOk (s : Holders) (j : Nat) (rail : Rail) : Prop where
  limit : rail.credits = s.policy.config.creditsPerRail
  inflight : rail.inflight = owed Held.rail Held.credits s.held j
  bounded : rail.inflight ≤ rail.credits
  probe : rail.recoveryProbe = true → holders Held.rail s.held j = 1 ∧
    ∀ h ∈ s.held, h.rail = j → ∃ t, s.since j = some t ∧ t < h.grantedAt
  after : ∀ h ∈ s.held, h.rail = j → ∀ t, s.since j = some t → t < h.grantedAt →
    rail.recoveryProbe = true

/-- The rails are in order, and since when a rail is in quarantine is known exactly while it is. -/
structure InOrder (s : Holders) : Prop where
  clamped : 1 ≤ s.policy.config.creditsPerRail
  positive : ∀ h ∈ s.held, 0 < h.credits
  grantedPast : ∀ h ∈ s.held, h.grantedAt < s.clock
  sincePast : ∀ j t, s.since j = some t → t < s.clock
  since : ∀ j, s.since j = none ↔ s.policy.deadline j = 0
  rail : ∀ {j rail}, s.policy.rails[j]? = some rail → RailOk s j rail

theorem deadline_of_rail {rail : Rail} (h : p.rails[j]? = some rail) :
    p.deadline j = rail.quarantinedUntilUs := by
  rw [RailPolicy.deadline, h]
  rfl

theorem deadline_of_none (h : p.rails[j]? = none) : p.deadline j = 0 := by
  rw [RailPolicy.deadline, h]
  rfl

theorem inOrder_start (rails : Nat) (config : RailPolicyConfig) : InOrder (.start
    rails config) := by
  have hrail : ∀ {j : Nat} {rail : Rail}, (start rails config).policy.rails[j]? = some rail →
      rail = { credits := (start rails config).policy.config.creditsPerRail } := by
    intro j rail h
    exact eq_of_mem_replicate (mem_of_getElem? h)
  refine ⟨Nat.le_max_left _ _, fun h hm => absurd hm not_mem_nil,
    fun h hm => absurd hm not_mem_nil, fun j t h => absurd h (by simp [start]),
    fun j => iff_of_true rfl ?_, fun {j rail} hj => ?_⟩
  · cases hj : (start rails config).policy.rails[j]? with
    | none => exact deadline_of_none hj
    | some rail => rw [deadline_of_rail hj, hrail hj]
  · rw [hrail hj]
    exact ⟨rfl, rfl, zero_le _, fun hflag => absurd hflag (by simp),
      fun h hm => absurd hm not_mem_nil⟩

section Steps

variable {s : Holders} {q : RailPolicy} {rail : Rail}

theorem since_next (hs : InOrder s) {held : List Held}
    (h : q.deadline j = s.policy.deadline j) : (s.next q held).since j = s.since j := by
  simp only [Holders.next, h]
  by_cases hz : s.policy.deadline j = 0
  · rw [if_pos hz, (hs.since j).mpr hz]
  · rw [if_neg hz, if_neg hz]

theorem InOrder.next (hs : InOrder s) {held : List Held} (hq : q.config = s.policy.config)
    (hheld : ∀ h ∈ held, h ∈ s.held ∨ 0 < h.credits ∧ h.grantedAt = s.clock)
    (hrail : ∀ {j rail}, q.rails[j]? = some rail → RailOk (s.next q held) j rail) :
    InOrder (s.next q held) := by
  refine ⟨hq ▸ hs.clamped, fun h hm => ?_, fun h hm => ?_, fun j t h => ?_, fun j => ?_, hrail⟩
  · exact (hheld h hm).elim (hs.positive h) (·.1)
  · rcases hheld h hm with hold | ⟨-, hnew⟩
    · exact lt_succ_of_lt (hs.grantedPast h hold)
    · exact hnew ▸ lt_succ_self _
  · simp only [Holders.next] at h
    split at h
    · cases h
    · split at h
      · cases h
        exact lt_succ_self _
      · exact lt_succ_of_lt (hs.sincePast j t h)
  · simp only [Holders.next]
    by_cases hq : q.deadline j = 0
    · rw [if_pos hq]
      exact iff_of_true rfl hq
    · rw [if_neg hq]
      by_cases hz : s.policy.deadline j = 0
      · rw [if_pos hz]
        exact iff_of_false (by simp) hq
      · rw [if_neg hz, hs.since j]
        exact iff_of_false hz hq

/-- A rail that the call does not touch, and whose leases are still held. -/
theorem RailOk.keep (hs : InOrder s) {held : List Held} (hq : q.config = s.policy.config)
    (hrail : s.policy.rails[j]? = some rail) (hrail' : q.rails[j]? = some rail')
    (hsame : SameFields rail rail')
    (hheld : (held.filter fun h => decide (h.rail = j)).Perm
      (s.held.filter fun h => decide (h.rail = j))) : RailOk (s.next q held) j rail' := by
  obtain ⟨hlimit, hinflight, hbounded, hprobe, hafter⟩ := hs.rail hrail
  have hdeadline : q.deadline j = s.policy.deadline j := by
    rw [deadline_of_rail hrail, deadline_of_rail hrail', hsame.quarantinedUntilUs]
  have hmem : ∀ h ∈ held, h.rail = j → h ∈ s.held := fun h hm hj =>
    (mem_filter.mp (hheld.subset (mem_filter.mpr ⟨hm, decide_eq_true hj⟩))).1
  have hcount : holders Held.rail held j = holders Held.rail s.held j := by
    simp only [holders, countP_eq_length_filter, hheld.length_eq]
  refine ⟨?_, ?_, ?_, fun hflag => ?_, fun h hm hj t ht => ?_⟩
  · rw [hsame.credits, hlimit]
    exact congrArg RailPolicyConfig.creditsPerRail hq.symm
  · rw [hsame.inflight, hinflight]
    exact (hheld.map Held.credits).sum_eq.symm
  · rw [hsame.inflight, hsame.credits]
    exact hbounded
  · obtain ⟨hone, hpast⟩ := hprobe (hsame.recoveryProbe ▸ hflag)
    rw [since_next hs hdeadline]
    exact ⟨hcount.trans hone, fun h hm hj => hpast h (hmem h hm hj) hj⟩
  · rw [since_next hs hdeadline] at ht
    rw [hsame.recoveryProbe]
    exact hafter h (hmem h hm hj) hj t ht

/-- On the rail of the lease: with a deadline the lease is the probe, and alone. -/
theorem granted_probe (hs : InOrder s) {args : AcquireArgs} {lease : RailLease}
    (hrail : s.policy.rails[lease.rail]? = some rail)
    (hok : Eligible args lease.rail rail) (hprobe : rail.probe) :
    holders Held.rail s.held lease.rail = 0 ∧ ∃ t, s.since lease.rail = some t ∧ t < s.clock := by
  have hzero : holders Held.rail s.held lease.rail = 0 := by
    apply holders_eq_zero_of_owed hs.positive
    rw [← (hs.rail hrail).inflight]
    exact hok.idle hprobe
  refine ⟨hzero, ?_⟩
  -- A probe is outstanding only with its lease, so the flag is not set yet.
  have hflag : rail.recoveryProbe ≠ true := by
    intro hflag
    have hone := ((hs.rail hrail).probe hflag).1
    omega
  have hdeadline : s.policy.deadline lease.rail ≠ 0 := by
    rw [deadline_of_rail hrail]
    rw [probe, Bool.or_eq_true, bne_iff_ne] at hprobe
    exact hprobe.resolve_left hflag
  obtain ⟨t, ht⟩ := Option.ne_none_iff_exists'.mp fun hnone => hdeadline ((hs.since _).mp hnone)
  exact ⟨t, ht, hs.sincePast _ t ht⟩

theorem granted_rail (hs : InOrder s) {args : AcquireArgs} {lease : RailLease}
    (hrail : s.policy.rails[lease.rail]? = some rail) (hcredits : lease.credits = args.requested)
    (hok : Eligible args lease.rail rail) (hone : 1 ≤ lease.credits)
    (hq : q.config = s.policy.config) (hrail' : q.rails[lease.rail]? = some rail')
    (hsame : SameFields (rail.grant lease.credits) rail') :
    RailOk (s.next q (⟨lease, s.clock⟩ :: s.held)) lease.rail rail' := by
  obtain ⟨hlimit, hinflight, -, -, -⟩ := hs.rail hrail
  have hfits := hok.fits
  have hsince : (s.next q (⟨lease, s.clock⟩ :: s.held)).since lease.rail = s.since lease.rail := by
    refine since_next hs ?_
    rw [deadline_of_rail hrail, deadline_of_rail hrail', hsame.quarantinedUntilUs]
    rfl
  refine ⟨?_, ?_, ?_, fun hflag => ?_, fun h hm hr t ht _ => ?_⟩
  · exact hsame.credits.trans (hlimit.trans (congrArg RailPolicyConfig.creditsPerRail hq.symm))
  · refine (hsame.inflight.trans (congrArg (· + lease.credits) hinflight)).trans ?_
    exact ((owed_cons (⟨lease, s.clock⟩ : Held) s.held lease.rail).trans (by
      rw [if_pos (show (⟨lease, s.clock⟩ : Held).rail = lease.rail from rfl)]
      rfl)).symm
  · rw [hsame.inflight, hsame.credits]
    show rail.inflight + lease.credits ≤ rail.credits
    omega
  · obtain ⟨hzero, t, ht, hlt⟩ := granted_probe hs hrail hok (hsame.recoveryProbe.symm.trans hflag)
    refine ⟨?_, fun h hm hr => ?_⟩
    · refine (holders_cons (⟨lease, s.clock⟩ : Held) s.held lease.rail).trans ?_
      rw [hzero, if_pos (show (⟨lease, s.clock⟩ : Held).rail = lease.rail from rfl)]
    · rcases mem_cons.mp hm with rfl | hm
      · exact ⟨t, hsince.trans ht, hlt⟩
      · exact absurd hr (holders_eq_zero_iff.mp hzero h hm)
  · rw [hsame.recoveryProbe]
    show rail.probe
    rw [probe, Bool.or_eq_true, bne_iff_ne]
    refine .inr fun hz => ?_
    rw [hsince, (hs.since lease.rail).mpr ((deadline_of_rail hrail).trans hz)] at ht
    cases ht

/-- `complete` gives back the credits of the lease, leaves the limit and ends the probe. -/
theorem complete_fields (config : RailPolicyConfig) (credits latencyUs : Nat)
    (completion : RailCompletion) (nowUs : Nat) (rail : Rail) :
    (rail.complete config credits latencyUs completion nowUs).inflight =
        rail.inflight - min credits rail.inflight ∧
      (rail.complete config credits latencyUs completion nowUs).credits = rail.credits ∧
      (rail.complete config credits latencyUs completion nowUs).recoveryProbe = false := by
  unfold Rail.complete
  cases completion with
  | success => exact ⟨rfl, rfl, rfl⟩
  | admission => exact ⟨rfl, rfl, rfl⟩
  | endpointFailure => exact ⟨rfl, rfl, rfl⟩
  | railFailure =>
    dsimp only
    split
    · exact ⟨rfl, rfl, rfl⟩
    · next h =>
      simp only [Bool.or_eq_true, not_or, Bool.not_eq_true] at h
      exact ⟨rfl, rfl, h.1⟩

theorem completed_rail (hs : InOrder s) (hmem : held ∈ s.held)
    (hrail : s.policy.rails[held.rail]? = some rail) {latencyUs nowUs : Nat}
    {completion : RailCompletion} (hq : q.config = s.policy.config)
    (hsame : SameFields
      (rail.complete s.policy.config held.credits latencyUs completion nowUs) rail') :
    RailOk (s.next q (s.held.erase held)) held.rail rail' := by
  obtain ⟨hlimit, hinflight, hbounded, hprobe, hafter⟩ := hs.rail hrail
  obtain ⟨hi, hc, hflag⟩ :=
    complete_fields s.policy.config held.credits latencyUs completion nowUs rail
  -- The lease is among those the rail has counted.
  have howed : owed Held.rail Held.credits s.held held.rail =
      owed Held.rail Held.credits (s.held.erase held) held.rail + held.credits :=
    (owed_erase hmem held.rail).trans (by rw [if_pos rfl])
  have hless : rail'.inflight = owed Held.rail Held.credits (s.held.erase held) held.rail := by
    rw [hsame.inflight, hi]
    omega
  refine ⟨?_, hless, ?_, fun htrue => ?_, fun h hm hr t ht hlt => ?_⟩
  · refine hsame.credits.trans (hc.trans (hlimit.trans ?_))
    exact congrArg RailPolicyConfig.creditsPerRail hq.symm
  · rw [hsame.credits, hc]
    omega
  · rw [hsame.recoveryProbe, hflag] at htrue
    cases htrue
  · -- No lease granted since the quarantine is left on the rail.
    have hpast := hs.grantedPast h (mem_of_mem_erase hm)
    by_cases hprobing : rail.recoveryProbe
    · have hone := (hprobe hprobing).1
      exact absurd hr (holders_eq_zero_iff.mp (holders_erase_eq_zero hmem hone) h hm)
    · simp only [Holders.next] at ht
      split at ht
      · cases ht
      · split at ht
        · cases ht
          omega
        · exact absurd (hafter h (mem_of_mem_erase hm) hr t ht hlt) hprobing

theorem step_inOrder (hs : InOrder s) (h : s.step call = some s') : InOrder s' := by
  cases step_called h with
  | refused args q hq =>
    refine hs.next hq.config (fun h hm => .inl hm) fun {j rail'} hj => ?_
    obtain ⟨rail, hrail, hsame⟩ := hq.rail hj
    rw [id_eq, ite_self] at hsame
    exact .keep hs hq.config hrail hj hsame (.refl _)
  | granted args q lease rail₀ hrail₀ hcredits hok hq =>
    -- The request was clamped to at least one credit.
    have hone : 1 ≤ lease.credits := by
      rw [hcredits]
      exact Nat.le_min.mpr ⟨Nat.le_max_left _ _, hs.clamped⟩
    refine hs.next hq.config (fun h hm => ?_) fun {j rail'} hj => ?_
    · rcases mem_cons.mp hm with rfl | hm
      · exact .inr ⟨hone, rfl⟩
      · exact .inl hm
    · obtain ⟨rail, hrail, hsame⟩ := hq.rail hj
      rcases eq_or_ne lease.rail j with rfl | hne
      · rw [if_pos rfl] at hsame
        obtain rfl : rail₀ = rail := Option.some.inj (hrail₀.symm.trans hrail)
        exact granted_rail hs hrail hcredits hok hone hq.config hj hsame
      · rw [if_neg hne] at hsame
        refine .keep hs hq.config hrail hj hsame ?_
        have hother : ¬(⟨lease, s.clock⟩ : Held).rail = j := hne
        rw [filter_cons_of_neg (by simpa using hother)]
  | completed held latencyUs completion nowUs hmem q hq =>
    refine hs.next hq.config (fun h hm => .inl (mem_of_mem_erase hm)) fun {j rail'} hj => ?_
    obtain ⟨rail, hrail, hsame⟩ := hq.rail hj
    rcases eq_or_ne held.rail j with rfl | hne
    · rw [if_pos rfl] at hsame
      exact completed_rail hs hmem hrail hq.config hsame
    · rw [if_neg hne] at hsame
      have hperm := (perm_cons_erase hmem).filter fun h => decide (h.rail = j)
      rw [filter_cons_of_neg (by simpa using hne)] at hperm
      exact .keep hs hq.config hrail hj hsame hperm.symm

end Steps

theorem run_inOrder {rails : Nat} {config : RailPolicyConfig} {calls : List Call} {s : Holders}
    (h : run step (.start rails config) calls = some s) : InOrder s :=
  run_preserves (fun _ _ _ hs hstep => step_inOrder hs hstep) (inOrder_start rails config) h

/-! ## Admission -/

theorem InOrder.one_after {s : Holders} (hs : InOrder s) {t : Nat} (ht : s.since j = some t) :
    (s.held.countP fun h => decide (h.rail = j ∧ t < h.grantedAt)) ≤ 1 := by
  by_cases hnone : (s.held.countP fun h => decide (h.rail = j ∧ t < h.grantedAt)) = 0
  · omega
  · obtain ⟨h, hm, hp⟩ := countP_pos_iff.mp (pos_of_ne_zero hnone)
    obtain ⟨hr, hlt⟩ := of_decide_eq_true hp
    cases hrail : s.policy.rails[j]? with
    | none =>
      rw [(hs.since j).mpr (deadline_of_none hrail)] at ht
      cases ht
    | some rail =>
      have hone := ((hs.rail hrail).probe ((hs.rail hrail).after h hm hr t ht hlt)).1
      refine le_trans (countP_mono_left fun h' _ hp' => ?_) (le_of_eq hone)
      exact decide_eq_true (of_decide_eq_true hp').1

def RailPolicy.errorCount (p : RailPolicy) (j : Nat) : Nat :=
  (p.rails[j]?.map consecutiveErrors).getD 0

theorem Becomes.rails {q : RailPolicy} {k : Nat} {f : Rail → Rail} (h : Becomes p q k f) (j : Nat) :
    (p.rails[j]? = none ∧ q.rails[j]? = none) ∨
      ∃ rail rail', p.rails[j]? = some rail ∧ q.rails[j]? = some rail' ∧
        SameFields (if k = j then f rail else rail) rail' := by
  cases hj : q.rails[j]? with
  | none =>
    refine .inl ⟨?_, rfl⟩
    rw [getElem?_eq_none_iff] at hj ⊢
    exact h.length ▸ hj
  | some rail' =>
    obtain ⟨rail, hrail, hsame⟩ := h.rail hj
    exact .inr ⟨rail, rail', hrail, rfl, hsame⟩

theorem Becomes.deadline {q : RailPolicy} {k : Nat} {f : Rail → Rail} (h : Becomes p q k f)
    (hf : ∀ rail, (f rail).quarantinedUntilUs = rail.quarantinedUntilUs) (j : Nat) :
    q.deadline j = p.deadline j := by
  rcases h.rails j with ⟨hp, hq⟩ | ⟨rail, rail', hp, hq, hsame⟩
  · rw [deadline_of_none hp, deadline_of_none hq]
  · rw [deadline_of_rail hp, deadline_of_rail hq, hsame.quarantinedUntilUs,
      apply_ite quarantinedUntilUs, hf, ite_self]

theorem complete_deadline (config : RailPolicyConfig) (credits latencyUs : Nat)
    (completion : RailCompletion) (nowUs : Nat) (rail : Rail) :
    (rail.complete config credits latencyUs completion nowUs).quarantinedUntilUs =
        rail.quarantinedUntilUs ∨
      (completion = .success ∧ rail.recoveryProbe) ∨
      (completion = .railFailure ∧
        (rail.complete config credits latencyUs completion nowUs).quarantinedUntilUs =
          (nowUs + config.quarantineUs) % 2 ^ 64) := by
  unfold Rail.complete
  cases completion with
  | success =>
    by_cases hflag : rail.recoveryProbe
    · exact .inr (.inl ⟨rfl, hflag⟩)
    · exact .inl (if_neg hflag)
  | admission => exact .inl rfl
  | endpointFailure => exact .inl rfl
  | railFailure =>
    dsimp only
    split
    · exact .inr (.inr ⟨rfl, rfl⟩)
    · exact .inl rfl

/-- A quarantine ends with the success of a lease granted since, or with a deadline that wraps
around to 0. -/
theorem step_clears {s : Holders} (hs : InOrder s) (h : s.step call = some s')
    (hset : s.policy.deadline j ≠ 0) (hclear : s'.policy.deadline j = 0) :
    (∃ held latencyUs nowUs t, call = .complete held latencyUs .success nowUs ∧ held.rail = j ∧
      s.since j = some t ∧ t < held.grantedAt) ∨
    ∃ held latencyUs nowUs, call = .complete held latencyUs .railFailure nowUs ∧ held.rail = j ∧
      (nowUs + s.policy.config.quarantineUs) % 2 ^ 64 = 0 := by
  cases step_called h with
  | refused args q hq => exact absurd ((hq.deadline (fun _ => rfl) j).symm.trans hclear) hset
  | granted args q lease rail₀ hrail₀ hcredits hok hq =>
    exact absurd ((hq.deadline (fun _ => rfl) j).symm.trans hclear) hset
  | completed held latencyUs completion nowUs hmem q hq =>
    rcases hq.rails j with ⟨hp, -⟩ | ⟨rail, rail', hp, hq', hsame⟩
    · exact absurd (deadline_of_none hp) hset
    have hdeadline : q.deadline j = 0 := hclear
    rw [deadline_of_rail hq', hsame.quarantinedUntilUs] at hdeadline
    rw [deadline_of_rail hp] at hset
    by_cases hj : held.rail = j
    · rw [if_pos hj] at hdeadline
      rcases complete_deadline s.policy.config held.credits latencyUs completion nowUs rail with
        hkeep | ⟨rfl, hflag⟩ | ⟨rfl, hwrap⟩
      · exact absurd (hkeep.symm.trans hdeadline) hset
      · obtain ⟨t, ht, hlt⟩ := ((hs.rail hp).probe hflag).2 held hmem hj
        exact .inl ⟨held, latencyUs, nowUs, t, rfl, hj, ht, hlt⟩
      · exact .inr ⟨held, latencyUs, nowUs, rfl, hj, hwrap.symm.trans hdeadline⟩
    · rw [if_neg hj] at hdeadline
      exact absurd hdeadline hset

/-- Admission and endpoint failures leave the errors and the deadline of every rail. -/
theorem step_neutral {s : Holders} {latencyUs nowUs : Nat} {completion : RailCompletion}
    (hc : completion = .admission ∨ completion = .endpointFailure)
    (h : s.step (.complete held latencyUs completion nowUs) = some s') (j : Nat) :
    s'.policy.errorCount j = s.policy.errorCount j ∧
      s'.policy.deadline j = s.policy.deadline j := by
  cases step_called h with
  | completed held latencyUs completion nowUs hmem q hq =>
    have hkeep : ∀ rail : Rail,
        (rail.complete s.policy.config held.credits latencyUs completion nowUs).consecutiveErrors =
            rail.consecutiveErrors ∧
          (rail.complete s.policy.config held.credits latencyUs completion
            nowUs).quarantinedUntilUs = rail.quarantinedUntilUs := by
      intro rail
      rcases hc with rfl | rfl <;> exact ⟨rfl, rfl⟩
    refine ⟨?_, hq.deadline (fun rail => (hkeep rail).2) j⟩
    simp only [RailPolicy.errorCount, Holders.next]
    rcases hq.rails j with ⟨hp, hq'⟩ | ⟨rail, rail', hp, hq', hsame⟩
    · rw [hp, hq']
    · rw [hp, hq', Option.map_some, Option.map_some, hsame.consecutiveErrors,
        apply_ite consecutiveErrors, (hkeep rail).1, ite_self]

/-- In every state that calls reach: the in-flight count of a rail is what its outstanding leases
hold and within its limit; a lease is granted on no masked-out, excluded or cooling rail; of the
leases granted since a rail is in quarantine at most one is outstanding; a quarantine ends only with
the success of such a lease, or when a rail fails at a time that is short of a multiple of 2^64 by
the length of the quarantine; admission and endpoint failures change neither errors nor deadlines.
-/
theorem rail_admission_invariant (rails : Nat) (config : RailPolicyConfig) (calls : List Call)
    {s : Holders} (hrun : run Holders.step (.start rails config) calls = some s) :
    (∀ (j : Nat) (rail : Rail), s.policy.rails[j]? = some rail →
      rail.inflight = owed Held.rail Held.credits s.held j ∧ rail.inflight ≤ rail.credits) ∧
    (∀ args lease, (s.policy.tryAcquire args).2 = some lease →
      isAllowed lease.rail args.allowed = true ∧ isExcluded lease.rail args.excluded = false ∧
        s.policy.deadline lease.rail ≤ args.nowUs) ∧
    (∀ j, (s.since j = none ↔ s.policy.deadline j = 0) ∧ ∀ t, s.since j = some t →
      (s.held.countP fun h => decide (h.rail = j ∧ t < h.grantedAt)) ≤ 1) ∧
    (∀ call s', s.step call = some s' → ∀ j, s.policy.deadline j ≠ 0 → s'.policy.deadline j = 0 →
      (∃ held latencyUs nowUs t, call = .complete held latencyUs .success nowUs ∧ held.rail = j ∧
        s.since j = some t ∧ t < held.grantedAt) ∨
      ∃ held latencyUs nowUs, call = .complete held latencyUs .railFailure nowUs ∧ held.rail = j ∧
        (nowUs + s.policy.config.quarantineUs) % 2 ^ 64 = 0) ∧
    (∀ held latencyUs completion nowUs s', completion = .admission ∨ completion = .endpointFailure →
      s.step (.complete held latencyUs completion nowUs) = some s' → ∀ j,
        s'.policy.errorCount j = s.policy.errorCount j ∧
          s'.policy.deadline j = s.policy.deadline j) := by
  have hs := run_inOrder hrun
  refine ⟨fun j rail hj => ⟨(hs.rail hj).inflight, (hs.rail hj).bounded⟩, fun args lease hl => ?_,
    fun j => ⟨hs.since j, fun t => hs.one_after⟩, fun call s' h j => step_clears hs h,
    fun held latencyUs completion nowUs s' hc h => step_neutral hc h⟩
  rcases tryAcquire_cases s.policy args with ⟨hnone, -⟩ | ⟨lease', rail, hsome, hrail, -, hok, -⟩
  · rw [hnone] at hl
    cases hl
  · cases hsome.symm.trans hl
    exact ⟨hok.allowed, hok.notExcluded, (deadline_of_rail hrail).trans_le hok.cooled⟩

/-- One rail, two credits, a threshold of one error, and a quarantine of 10 µs less than the clock
can count. -/
def longQuarantine : RailPolicyConfig :=
  { creditsPerRail := 2, errorThreshold := 1, quarantineUs := 2 ^ 64 - 10 }

/-- A lease fails, its rail cools for 10 µs, and then a probe is granted. -/
def probeCalls : List Call :=
  [.tryAcquire { requested := 1, nowUs := 0 }, .complete ⟨⟨0, 1⟩, 0⟩ 1 .railFailure 0,
    .tryAcquire { requested := 1, nowUs := 10 }]

theorem rail_admission_of_probe :
    ∃ s, run Holders.step (.start 1 { longQuarantine with quarantineUs := 10 }) probeCalls =
        some s ∧ s.policy.deadline 0 = 10 ∧ s.held.length = 1 ∧
      (∀ (j : Nat) (rail : Rail), s.policy.rails[j]? = some rail →
        rail.inflight = owed Held.rail Held.credits s.held j ∧ rail.inflight ≤ rail.credits) ∧
      ∃ t, s.since 0 = some t ∧
        (s.held.countP fun h => decide (h.rail = 0 ∧ t < h.grantedAt)) ≤ 1 := by
  obtain ⟨hinflight, -, hsince, -⟩ := rail_admission_invariant 1
    { longQuarantine with quarantineUs := 10 } probeCalls rfl
  exact ⟨_, rfl, rfl, rfl, hinflight, _, rfl, (hsince 0).2 _ rfl⟩

/-- The second of two leases fails 10 µs after the first, and its new deadline is 0: a quarantine
ends with a failure, and no probe was granted. -/
theorem failure_clears_quarantine :
    ∃ s s', run Holders.step (.start 1 longQuarantine)
        [.tryAcquire { requested := 1, nowUs := 0 }, .tryAcquire { requested := 1, nowUs := 0 },
          .complete ⟨⟨0, 1⟩, 0⟩ 1 .railFailure 0] = some s ∧
      s.step (.complete ⟨⟨0, 1⟩, 1⟩ 1 .railFailure 10) = some s' ∧
      s.policy.deadline 0 = 2 ^ 64 - 10 ∧ s'.policy.deadline 0 = 0 :=
  ⟨_, _, rfl, rfl, rfl, rfl⟩

end DingoCache.Transport
