import Mathlib

/-!
# Peer Health

The client keeps a cooldown, a failure streak, an error count and a last-served time
per peer, and one list of the peers in the order of their last use that bounds all
four maps.  The class is followed call by call; its counters are left out.
-/

namespace DingoCache.Client

open Function (update update_of_ne update_self)
open List

def kMaxPeers : Nat := 4096

/-- `PeerHealth`.  A node of `peer_lru_` has an identity, which is what an iterator holds. -/
structure PeerHealth where
  baseCooldownMs : UInt64 := 2000
  maxCooldownMs : UInt64 := 30000
  busyGraceMs : UInt64 := 1000
  untilMs : String → Option UInt64 := fun _ => none
  failStreak : String → Option UInt32 := fun _ => none
  peerErrors : String → Option UInt64 := fun _ => none
  lastGood : String → Option UInt64 := fun _ => none
  peerLru : List (Nat × String) := []
  tracked : AList fun _ : String => Nat := ∅
  nextNode : Nat := 0

namespace PeerHealth

/-- `splice` of the node `it` to the end of its own list. -/
def splice (l : List (Nat × String)) (it : Nat) : List (Nat × String) :=
  match l.find? (·.1 = it) with
  | some n => l.erase n ++ [n]
  | none => l

def evict (h : PeerHealth) : PeerHealth :=
  match h.peerLru with
  | (_, victim) :: rest =>
    { h with
      untilMs := update h.untilMs victim none
      failStreak := update h.failStreak victim none
      peerErrors := update h.peerErrors victim none
      lastGood := update h.lastGood victim none
      tracked := h.tracked.erase victim
      peerLru := rest }
  | [] => h

def pushBack (h : PeerHealth) (peer : String) : PeerHealth :=
  { h with
    peerLru := h.peerLru ++ [(h.nextNode, peer)]
    tracked := h.tracked.insert peer h.nextNode
    nextNode := h.nextNode + 1 }

/-- `TrackLocked`: admits or refreshes a peer. -/
def trackLocked (h : PeerHealth) (peer : String) : PeerHealth :=
  match h.tracked.lookup peer with
  | some it => { h with peerLru := splice h.peerLru it }
  | none => (if h.tracked.keys.length = kMaxPeers then h.evict else h).pushBack peer

def clearLocked (h : PeerHealth) (peer : String) : PeerHealth :=
  { h with
    failStreak := update h.failStreak peer none
    untilMs := update h.untilMs peer none }

def healthy (h : PeerHealth) (peer : String) (nowMs : UInt64) : Bool :=
  (h.untilMs peer).all (· ≤ nowMs)

/-- The cooldown of a streak of `fails`: it doubles up to the maximum. -/
def cooldown (h : PeerHealth) (fails : UInt32) : UInt64 :=
  let shift := if fails > 31 then 31 else fails - 1
  let cd := h.baseCooldownMs <<< shift.toUInt64
  if cd > h.maxCooldownMs ∨ cd < h.baseCooldownMs then h.maxCooldownMs else cd

def markBad (h : PeerHealth) (peer : String) (nowMs : UInt64) : PeerHealth :=
  let h := h.trackLocked peer
  -- a peer that served within the grace period is busy, not dead
  if (h.lastGood peer).any (nowMs - · < h.busyGraceMs) then h
  else
    let fails := (h.failStreak peer).getD 0 + 1
    { h with
      failStreak := update h.failStreak peer (some fails)
      untilMs := update h.untilMs peer (some (nowMs + h.cooldown fails))
      peerErrors := update h.peerErrors peer (some ((h.peerErrors peer).getD 0 + 1)) }

def markGood (h : PeerHealth) (peer : String) (nowMs : UInt64) : PeerHealth :=
  let h := h.trackLocked peer
  clearLocked { h with lastGood := update h.lastGood peer (some nowMs) } peer

/-- `MarkProbeAlive` refreshes a tracked peer and admits no other. -/
def markProbeAlive (h : PeerHealth) (peer : String) : PeerHealth :=
  clearLocked
    (match h.tracked.lookup peer with
      | some it => { h with peerLru := splice h.peerLru it }
      | none => h) peer

inductive Call
  | markGood (peer : String) (nowMs : UInt64)
  | markBad (peer : String) (nowMs : UInt64)
  | markProbeAlive (peer : String)
  | healthy (peer : String) (nowMs : UInt64)

def Call.touched : Call → Option String
  | .markGood p _ | .markBad p _ | .markProbeAlive p => some p
  | .healthy _ _ => none

def step (h : PeerHealth) : Call → PeerHealth
  | .markGood p t => h.markGood p t
  | .markBad p t => h.markBad p t
  | .markProbeAlive p => h.markProbeAlive p
  | .healthy _ _ => h

/-- The peers marked or probed after the last mark or probe of `p`. -/
def since (p : String) (calls : List Call) : List String :=
  calls.foldl (fun acc c => match c.touched with
    | some q => if q = p then [] else acc ++ [q]
    | none => acc) []

def HasState (h : PeerHealth) (p : String) : Prop :=
  (h.untilMs p).isSome ∨ (h.failStreak p).isSome ∨ (h.peerErrors p).isSome ∨
    (h.lastGood p).isSome

def index (l : List (Nat × String)) : List (Sigma fun _ : String => Nat) :=
  l.map fun n => ⟨n.2, n.1⟩

/-- The list and its index agree, cover the maps and order the peers by their last use. -/
structure Inv (h : PeerHealth) (calls : List Call) : Prop where
  perm : h.tracked.entries.Perm (index h.peerLru)
  nodes : (h.peerLru.map Prod.fst).Nodup
  fresh : ∀ n ∈ h.peerLru, n.1 < h.nextNode
  bound : h.peerLru.length ≤ kMaxPeers
  known : ∀ p, h.HasState p → p ∈ h.tracked
  order : h.peerLru.Pairwise fun m n => n.2 ∈ since m.2 calls

variable {h h' : PeerHealth} {calls : List Call} {c : Call} {p q x : String} {it : Nat}

theorem since_touch (hc : c.touched = some x) :
    since p (calls ++ [c]) = if x = p then [] else since p calls ++ [x] := by
  simp [since, foldl_append, hc]

theorem mem_since_touch (hc : c.touched = some x) (hp : p ≠ x) (hq : q ∈ since p calls) :
    q ∈ since p (calls ++ [c]) := by
  rw [since_touch hc, if_neg hp.symm]
  exact mem_append_left _ hq

theorem self_mem_since (hc : c.touched = some x) (hp : p ≠ x) :
    x ∈ since p (calls ++ [c]) := by
  rw [since_touch hc, if_neg hp.symm]
  exact mem_append_right _ (mem_singleton_self x)

namespace Inv

theorem mem_tracked (hi : Inv h calls) : p ∈ h.tracked ↔ ∃ n ∈ h.peerLru, n.2 = p := by
  have hk : h.tracked.keys.Perm (h.peerLru.map Prod.snd) := by
    have := hi.perm.map Sigma.fst
    rwa [index, map_map] at this
  rw [AList.mem_keys, hk.mem_iff, mem_map]

theorem names (hi : Inv h calls) : (h.peerLru.map Prod.snd).Nodup := by
  have := (hi.perm.map Sigma.fst).nodup h.tracked.keys_nodup
  rwa [index, map_map] at this

theorem length_keys (hi : Inv h calls) : h.tracked.keys.length = h.peerLru.length := by
  have := hi.perm.length_eq
  simpa [AList.keys, keys, index] using this

theorem node_of_lookup (hi : Inv h calls) (hl : h.tracked.lookup x = some it) :
    (it, x) ∈ h.peerLru := by
  have hm := hi.perm.mem_iff.mp (AList.mem_lookup_iff.mp hl)
  obtain ⟨n, hn, he⟩ := mem_map.mp hm
  cases he
  exact hn

theorem of_maps (hi : Inv h calls) (hl : h'.peerLru = h.peerLru) (ht : h'.tracked = h.tracked)
    (hn : h'.nextNode = h.nextNode) (hs : ∀ p, h'.HasState p → p ∈ h.tracked) :
    Inv h' calls where
  perm := by rw [hl, ht]; exact hi.perm
  nodes := by rw [hl]; exact hi.nodes
  fresh := by rw [hl, hn]; exact hi.fresh
  bound := by rw [hl]; exact hi.bound
  known := by rw [ht]; exact hs
  order := by rw [hl]; exact hi.order

theorem order_touch {l : List (Nat × String)} (hc : c.touched = some x)
    (ho : l.Pairwise fun m n => n.2 ∈ since m.2 calls) (hx : ∀ n ∈ l, n.2 ≠ x) :
    l.Pairwise fun m n => n.2 ∈ since m.2 (calls ++ [c]) := by
  refine ho.imp_of_mem fun hm _ hr => ?_
  exact mem_since_touch hc (hx _ hm) hr

theorem order_concat {l : List (Nat × String)} (hc : c.touched = some x)
    (ho : l.Pairwise fun m n => n.2 ∈ since m.2 calls) (hx : ∀ n ∈ l, n.2 ≠ x) :
    (l ++ [(it, x)]).Pairwise fun m n => n.2 ∈ since m.2 (calls ++ [c]) := by
  refine pairwise_append.mpr ⟨order_touch hc ho hx, pairwise_singleton _ _, ?_⟩
  intro m hm n hn
  rw [mem_singleton.mp hn]
  exact self_mem_since hc (hx m hm)

theorem splice (hi : Inv h calls) (hc : c.touched = some x) (hl : h.tracked.lookup x = some it) :
    Inv { h with peerLru := PeerHealth.splice h.peerLru it } (calls ++ [c]) := by
  have hm := hi.node_of_lookup hl
  have hs : PeerHealth.splice h.peerLru it = h.peerLru.erase (it, x) ++ [(it, x)] := by
    rw [PeerHealth.splice]
    cases hf : h.peerLru.find? (·.1 = it) with
    | none => exact absurd (find?_eq_none.mp hf _ hm) (by simp)
    | some n =>
      -- identities do not repeat, so it is the node of `x` that is found
      have hn : n = (it, x) := inj_on_of_nodup_map hi.nodes (mem_of_find?_eq_some hf) hm
        (by simpa using find?_some hf)
      rw [hn]
  have hperm : (PeerHealth.splice h.peerLru it).Perm h.peerLru := by
    rw [hs]
    exact (perm_append_singleton _ _).trans (perm_cons_erase hm).symm
  have hname : ∀ n ∈ h.peerLru.erase (it, x), n.2 ≠ x := fun n hn he => by
    have hn' : n = (it, x) := inj_on_of_nodup_map hi.names (mem_of_mem_erase hn) hm he
    exact hi.nodes.of_map.not_mem_erase (hn' ▸ hn)
  refine ⟨hi.perm.trans (hperm.symm.map _), (hperm.map _).nodup_iff.mpr hi.nodes,
    fun n hn => hi.fresh n (hperm.mem_iff.mp hn), hperm.length_eq.trans_le hi.bound, hi.known, ?_⟩
  rw [hs]
  exact order_concat hc (hi.order.sublist erase_sublist) hname

theorem pushBack (hi : Inv h calls) (hc : c.touched = some x) (hx : x ∉ h.tracked)
    (hroom : h.peerLru.length < kMaxPeers) : Inv (h.pushBack x) (calls ++ [c]) where
  perm := by
    rw [PeerHealth.pushBack, AList.entries_insert_of_notMem hx, index, map_append]
    exact (hi.perm.cons _).trans (perm_append_singleton _ _).symm
  nodes := by
    simp only [PeerHealth.pushBack, map_append, map_cons, map_nil]
    refine List.Nodup.append hi.nodes (nodup_singleton _) ?_
    simp only [disjoint_singleton, mem_map, not_exists, not_and]
    intro n hn he
    exact (hi.fresh n hn).ne he
  fresh := fun n hn => by
    rcases mem_append.mp hn with hn | hn
    · exact (hi.fresh n hn).trans (Nat.lt_succ_self _)
    · rw [mem_singleton.mp hn]
      exact Nat.lt_succ_self _
  bound := by simpa [PeerHealth.pushBack] using hroom
  known := fun p hp => (AList.mem_insert _).mpr (Or.inr (hi.known p hp))
  order := order_concat hc hi.order fun n hn he => hx (hi.mem_tracked.mpr ⟨n, hn, he⟩)

theorem evict (hi : Inv h calls) : Inv h.evict calls := by
  rw [PeerHealth.evict]
  split
  · rename_i i victim rest hl
    have hsub : rest.Sublist h.peerLru := hl ▸ sublist_cons_self _ _
    refine ⟨?_, hi.nodes.sublist (hsub.map _), fun m hm => hi.fresh m (hsub.subset hm),
      hsub.length_le.trans hi.bound, fun p hp => ?_, hi.order.sublist hsub⟩
    · have hp := Perm.kerase (a := victim) h.tracked.nodupKeys hi.perm
      simpa [hl, index, AList.erase] using hp
    · have hne : p ≠ victim := by
        rintro rfl
        simp [HasState] at hp
      refine AList.mem_erase.mpr ⟨hne, hi.known p ?_⟩
      simpa [HasState, hne] using hp
  · exact hi

theorem trackLocked (hi : Inv h calls) (hc : c.touched = some x) :
    Inv (h.trackLocked x) (calls ++ [c]) ∧ x ∈ (h.trackLocked x).tracked := by
  rw [PeerHealth.trackLocked]
  rcases hl : h.tracked.lookup x with _ | it
  · have hx := AList.lookup_eq_none.mp hl
    refine ⟨?_, (AList.mem_insert _).mpr (Or.inl rfl)⟩
    have hb := hi.bound
    dsimp only
    split <;> rename_i hfull <;> rw [hi.length_keys] at hfull
    · obtain ⟨n, rest, hn⟩ := exists_cons_of_length_pos (l := h.peerLru) (by rw [hfull]; decide)
      refine hi.evict.pushBack hc ?_ ?_
      · simpa [PeerHealth.evict, hn] using fun _ => hx
      · simp only [PeerHealth.evict, hn]
        rw [← hfull, hn, length_cons]
        exact Nat.lt_succ_self _
    · exact hi.pushBack hc hx (by omega)
  · exact ⟨hi.splice hc hl, AList.lookup_isSome.mp (by simp [hl])⟩

theorem clearLocked (hi : Inv h calls) (x : String) : Inv (h.clearLocked x) calls := by
  refine hi.of_maps rfl rfl rfl fun p hp => hi.known p ?_
  by_cases hx : p = x <;> simp_all [HasState, PeerHealth.clearLocked]

theorem step (hi : Inv h calls) (c : Call) : Inv (h.step c) (calls ++ [c]) := by
  rcases c with ⟨x, t⟩ | ⟨x, t⟩ | x | ⟨x, t⟩
  · obtain ⟨ht, hx⟩ := hi.trackLocked (c := .markGood x t) rfl
    apply clearLocked
    refine ht.of_maps rfl rfl rfl fun p hp => ?_
    by_cases he : p = x
    · exact he ▸ hx
    · exact ht.known p (by simpa [HasState, he] using hp)
  · obtain ⟨ht, hx⟩ := hi.trackLocked (c := .markBad x t) rfl
    simp only [PeerHealth.step, markBad]
    split
    · exact ht
    · refine ht.of_maps rfl rfl rfl fun p hp => ?_
      by_cases he : p = x
      · exact he ▸ hx
      · exact ht.known p (by simpa [HasState, he] using hp)
  · refine clearLocked ?_ x
    rcases hl : h.tracked.lookup x with _ | it
    · have hx := AList.lookup_eq_none.mp hl
      exact { hi with
        order := order_touch rfl hi.order fun n hn he => hx (hi.mem_tracked.mpr ⟨n, hn, he⟩) }
    · exact hi.splice rfl hl
  · have hsame : ∀ p, since p (calls ++ [.healthy x t]) = since p calls := fun p => by
      simp [since, foldl_append, Call.touched]
    exact { hi with order := by simpa only [hsame, PeerHealth.step] using hi.order }

/-- Tracking loses a peer only from the front of a full list, behind which every peer was
used later. -/
theorem forgotten (hi : Inv h calls) (hc : c.touched = some x) (hp : p ∈ h.tracked)
    (hf : p ∉ (h.trackLocked x).tracked) :
    ∃ others : List String, others.Nodup ∧ others.length = kMaxPeers ∧ p ∉ others ∧
      ∀ q ∈ others, q ∈ since p (calls ++ [c]) := by
  have hkept : ∀ h : PeerHealth, p ∈ h.tracked → p ∈ (h.pushBack x).tracked := fun h hm =>
    (AList.mem_insert _).mpr (Or.inr hm)
  rw [PeerHealth.trackLocked] at hf
  rcases hl : h.tracked.lookup x with _ | it <;> rw [hl] at hf
  · have hx := AList.lookup_eq_none.mp hl
    dsimp only at hf
    split at hf <;> rename_i hfull
    · rw [hi.length_keys] at hfull
      obtain ⟨⟨i, victim⟩, rest, hn⟩ :=
        exists_cons_of_length_pos (l := h.peerLru) (by rw [hfull]; decide)
      have hpv : p = victim := by
        by_contra hne
        refine hf (hkept _ ?_)
        simp only [PeerHealth.evict, hn]
        exact AList.mem_erase.mpr ⟨hne, hp⟩
      subst hpv
      have hpx : p ≠ x := fun he => hx (he ▸ hp)
      have hnames := hi.names
      have horder := hi.order
      have hnew : x ∉ h.peerLru.map Prod.snd := fun hm => hx (hi.mem_tracked.mpr (mem_map.mp hm))
      rw [hn, map_cons] at hnames hnew
      rw [hn] at horder hfull
      obtain ⟨hout, hnodup⟩ := nodup_cons.mp hnames
      refine ⟨x :: rest.map Prod.snd, hnodup.cons fun hm => hnew (mem_cons_of_mem _ hm),
        by simpa using hfull, fun hm => (mem_cons.mp hm).elim hpx hout, fun q hq => ?_⟩
      rcases mem_cons.mp hq with rfl | hq
      · exact self_mem_since hc hpx
      · obtain ⟨m, hm, rfl⟩ := mem_map.mp hq
        exact mem_since_touch hc hpx ((pairwise_cons.mp horder).1 m hm)
    · exact absurd (hkept h hp) hf
  · exact absurd hp hf

end Inv

/-- A new tracker, with the settings of its constructor. -/
def create (base max grace : UInt64) : PeerHealth :=
  { baseCooldownMs := base, maxCooldownMs := max, busyGraceMs := grace }

/-- The tracker after a history of calls, each of which holds the lock. -/
def run (h : PeerHealth) (calls : List Call) : PeerHealth :=
  calls.foldl step h

theorem inv_run (base max grace : UInt64) (calls : List Call) :
    Inv ((create base max grace).run calls) calls := by
  induction calls using reverseRecOn with
  | nil =>
    refine ⟨.refl _, .nil, fun n hn => ?_, Nat.zero_le _, fun p hp => ?_, .nil⟩
    · simp [run, create] at hn
    · simp [HasState, run, create] at hp
  | append_singleton calls c ih =>
    rw [run, foldl_append]
    exact ih.step c

theorem markBad_tracked (x : String) (t : UInt64) :
    (h.markBad x t).tracked = (h.trackLocked x).tracked := by
  simp only [markBad]
  split <;> rfl

/-- In every state that calls reach: the index is the list, in which no node and no peer
repeats, of at most 4096 peers; every peer that has an entry in a map is tracked; and a call
that forgets a peer is at least the 4096th that marks or probes another one since its own
last mark or probe. -/
theorem peers_bounded (base max grace : UInt64) (calls : List Call) :
    let h := (create base max grace).run calls
    h.tracked.entries.Perm (index h.peerLru) ∧ (h.peerLru.map Prod.fst).Nodup ∧
      (h.peerLru.map Prod.snd).Nodup ∧ h.peerLru.length ≤ 4096 ∧
      h.tracked.keys.length = h.peerLru.length ∧ (∀ p, h.HasState p → p ∈ h.tracked) ∧
      ∀ c p, p ∈ h.tracked → p ∉ (h.step c).tracked →
        ∃ others : List String, others.Nodup ∧ others.length = 4096 ∧ p ∉ others ∧
          ∀ q ∈ others, q ∈ since p (calls ++ [c]) := by
  have hi := inv_run base max grace calls
  refine ⟨hi.perm, hi.nodes, hi.names, hi.bound, hi.length_keys, hi.known, fun c p hp hf => ?_⟩
  rcases c with ⟨x, t⟩ | ⟨x, t⟩ | x | ⟨x, t⟩
  · exact hi.forgotten (c := .markGood x t) rfl hp hf
  · exact hi.forgotten (c := .markBad x t) rfl hp (by rwa [← markBad_tracked x t])
  · refine absurd ?_ hf
    simp only [step, markProbeAlive]
    split <;> exact hp
  · exact absurd hp hf

/-! ## The cooldown -/

/-- No success of `p` carries a time later than `t - grace`. -/
def silent (grace : UInt64) (p : String) (t : UInt64) (cs : List Call) : Bool :=
  cs.all fun
    | .markGood q u => q ≠ p ∨ u.toNat + grace.toNat ≤ t.toNat
    | _ => true

/-- The failures of `p` outside the grace period since its last success or live probe. Here and
below the history begins with the last call. -/
def failures (grace : UInt64) (p : String) : List Call → Nat
  | [] => 0
  | .markBad q t :: cs =>
    if q = p ∧ silent grace p t cs then failures grace p cs + 1 else failures grace p cs
  | .markGood q _ :: cs | .markProbeAlive q :: cs => if q = p then 0 else failures grace p cs
  | .healthy _ _ :: cs => failures grace p cs

/-- The marks of a peer carry no time before that of one of its earlier successes. -/
def InOrder (cs : List Call) : Prop :=
  cs.Pairwise fun b a => ∀ p u t, a = .markGood p u → b = .markGood p t ∨ b = .markBad p t → u ≤ t

def Latest (cs : List Call) (p : String) : Option UInt64 → Prop
  | none => ∀ u, .markGood p u ∉ cs
  | some l => .markGood p l ∈ cs ∧ ∀ u, .markGood p u ∈ cs → u ≤ l

/-- The settings, the streaks and the successes of a run that evicts nobody. -/
structure Law (base max grace : UInt64) (peers : List String) (h : PeerHealth)
    (cs : List Call) : Prop where
  settings : h.baseCooldownMs = base ∧ h.maxCooldownMs = max ∧ h.busyGraceMs = grace
  peers : ∀ q ∈ h.tracked, q ∈ peers
  streak : ∀ p, (h.failStreak p).getD 0 = UInt32.ofNat (failures grace p cs)
  good : ∀ p, Latest cs p (h.lastGood p)

variable {base max grace t : UInt64} {peers : List String} {cs : List Call} {o : Option UInt64}

theorem silent_iff : silent grace p t cs = true ↔
    ∀ u, .markGood p u ∈ cs → u.toNat + grace.toNat ≤ t.toNat := by
  rw [silent, all_eq_true]
  constructor
  · intro hs u hu
    simpa using hs _ hu
  · intro hs c hc
    rcases c with ⟨q, u⟩ | _ | _ | _ <;> try rfl
    by_cases hq : q = p
    · subst hq
      simpa using hs u hc
    · simp [hq]

/-- The grace test is exact on a time that is not before a success. -/
theorem Latest.any_iff (hl : Latest cs p o) (ht : ∀ u, .markGood p u ∈ cs → u ≤ t) :
    o.any (t - · < grace) = true ↔ ¬silent grace p t cs = true := by
  rw [silent_iff]
  cases o with
  | none => simpa using fun u hu => absurd hu (hl u)
  | some l =>
    obtain ⟨hm, hmax⟩ := hl
    have hlt := ht l hm
    rw [Option.any_some, decide_eq_true_iff, UInt64.lt_iff_toNat_lt, UInt64.toNat_sub_of_le _ _ hlt]
    rw [UInt64.le_iff_toNat_le] at hlt
    constructor
    · intro hg hs
      have := hs l hm
      omega
    · intro hs
      by_contra hg
      refine hs fun u hu => ?_
      have := UInt64.le_iff_toNat_le.mp (hmax u hu)
      omega

theorem Latest.cons (hl : Latest cs p o) (hc : ∀ u, c ≠ .markGood p u) : Latest (c :: cs) p o := by
  have hm : ∀ u, .markGood p u ∈ c :: cs ↔ .markGood p u ∈ cs := fun u => by simp [(hc u).symm]
  cases o with
  | none => exact fun u hu => hl u ((hm u).mp hu)
  | some l => exact ⟨(hm l).mpr hl.1, fun u hu => hl.2 u ((hm u).mp hu)⟩

/-- With room for every peer, tracking changes the list and the index only. -/
theorem trackLocked_eq (hp : peers.length ≤ kMaxPeers) (ht : ∀ q ∈ h.tracked, q ∈ peers)
    (hx : x ∈ peers) :
    ∃ l m n, h.trackLocked x = { h with peerLru := l, tracked := m, nextNode := n } ∧
      ∀ q ∈ m, q ∈ peers := by
  rw [PeerHealth.trackLocked]
  rcases hl : h.tracked.lookup x with _ | it
  · have hsub : x :: h.tracked.keys ⊆ peers := cons_subset.mpr
      ⟨hx, fun q hq => ht q (AList.mem_keys.mpr hq)⟩
    have hroom : ¬h.tracked.keys.length = kMaxPeers := fun hfull => by
      have hnd : (x :: h.tracked.keys).Nodup :=
        h.tracked.keys_nodup.cons fun hm => AList.lookup_eq_none.mp hl (AList.mem_keys.mpr hm)
      have := (hnd.subperm hsub).length_le
      rw [length_cons] at this
      omega
    dsimp only
    rw [if_neg hroom]
    refine ⟨_, _, _, rfl, fun q hq => hsub (mem_cons.mpr ?_)⟩
    exact ((AList.mem_insert _).mp hq).imp_right AList.mem_keys.mp
  · exact ⟨_, _, _, rfl, ht⟩

theorem Law.step (hL : Law base max grace peers h cs) (hp : peers.length ≤ kMaxPeers)
    (hc : ∀ q, c.touched = some q → q ∈ peers) (ho : InOrder (c :: cs)) :
    Law base max grace peers (h.step c) (c :: cs) := by
  obtain ⟨hset, hpeers, hstreak, hgood⟩ := hL
  have hlast := (pairwise_cons.mp ho).1
  -- a success and a live probe end the streak
  have hclear : ∀ x p, (update h.failStreak x none p).getD 0 =
      UInt32.ofNat (if x = p then 0 else failures grace p cs) := fun x p => by
    rcases eq_or_ne p x with rfl | hpx
    · simp
    · simpa [hpx, hpx.symm] using hstreak p
  rcases c with ⟨x, t⟩ | ⟨x, t⟩ | x | ⟨x, t⟩
  · obtain ⟨l, m, n, he, hm⟩ := trackLocked_eq hp hpeers (hc x rfl)
    simp only [PeerHealth.step, markGood, he, PeerHealth.clearLocked]
    refine ⟨hset, hm, hclear x, fun p => ?_⟩
    rcases eq_or_ne p x with rfl | hpx
    · simp only [update_self]
      refine ⟨mem_cons_self, fun u hu => ?_⟩
      rcases mem_cons.mp hu with hu | hu
      · cases hu
        exact UInt64.le_refl _
      · exact hlast _ hu p u t rfl (Or.inl rfl)
    · simp only [update_of_ne hpx]
      exact (hgood p).cons fun u he => hpx (by cases he; rfl)
  · obtain ⟨l, m, n, he, hm⟩ := trackLocked_eq hp hpeers (hc x rfl)
    have hany : (h.lastGood x).any (t - · < h.busyGraceMs) = true ↔
        ¬silent grace x t cs = true := by
      rw [hset.2.2]
      exact (hgood x).any_iff fun u hu => hlast _ hu x u t rfl (Or.inr rfl)
    have hkeep : ∀ p, Latest (.markBad x t :: cs) p (h.lastGood p) := fun p =>
      (hgood p).cons (by simp)
    simp only [PeerHealth.step, markBad, he]
    by_cases hs : silent grace x t cs = true
    · rw [if_neg (by rw [hany]; exact not_not.mpr hs)]
      refine ⟨hset, hm, fun p => ?_, hkeep⟩
      rcases eq_or_ne p x with rfl | hpx
      · rw [failures, if_pos ⟨rfl, hs⟩, UInt32.ofNat_add, ← hstreak p]
        simp
      · rw [failures, if_neg fun hx => hpx hx.1.symm, ← hstreak p]
        simp [hpx]
    · rw [if_pos (hany.mpr hs)]
      refine ⟨hset, hm, fun p => ?_, hkeep⟩
      have hx : ¬(x = p ∧ silent grace p t cs = true) := fun hx => hs (hx.1 ▸ hx.2)
      rw [failures, if_neg hx, ← hstreak p]
  · simp only [PeerHealth.step, markProbeAlive, PeerHealth.clearLocked]
    split <;> exact ⟨hset, hpeers, hclear x, fun p => (hgood p).cons (by simp)⟩
  · exact ⟨hset, hpeers, hstreak, fun p => (hgood p).cons (by simp)⟩

end PeerHealth
end DingoCache.Client
