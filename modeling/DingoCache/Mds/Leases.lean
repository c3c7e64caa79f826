import DingoCache.Library.Interleaving
import DingoCache.Library.LeaseStore
import DingoCache.Mds.Registry

/-!
# Heartbeats and Leases

`MdsServer::UpsertLeased` of `src/mds/mds_server.cc` with the calls of
`src/mds/etcd_client.cc`, for any number of servers that share one etcd.  A heartbeat looks
up the lease that its server remembers, keeps it alive and puts its key under it; where that
fails it is granted a new lease, puts its key under that, and stores the lease.  Each call is
a request of its own, which may take effect long after its caller gave it up.

- `Cluster.step`: one step of a server, of etcd or of time.
-/

namespace DingoCache.Mds

open Library Store List Option
open LeaseStore

variable {call : EtcdCall} {lease : Nat} {etcd : LeasedEtcd}

/-! ## The leases that a server remembers -/

/-- `LocalLeaseMap::Entry`. -/
structure LeaseEntry where
  leaseId : Nat
  lastUseMs : Nat
deriving DecidableEq

structure LocalLeaseMap where
  entries : ByteString → Option LeaseEntry := fun _ => none
  nextPruneMs : Nat := 0

def kPruneIntervalMs : Nat := 30000

def kTtlSeconds : Nat := 30

def kLocalLeaseStaleMs : Nat := kTtlSeconds * 4 * 1000

variable (leases : LocalLeaseMap) (s : Cluster)

/-- `LookupAndTouch`: the remembered lease of the key. -/
def LocalLeaseMap.lookupAndTouch (key : ByteString) (nowMs : Nat) : LocalLeaseMap × Option Nat :=
  match leases.entries key with
  | none => (leases, none)
  | some e =>
    ({ leases with
       entries := fun k => if k = key then some { e with lastUseMs := nowMs } else
         leases.entries k },
     some e.leaseId)

def LocalLeaseMap.store (key : ByteString) (leaseId nowMs : Nat) : LocalLeaseMap :=
  { leases with
    entries := fun k => if k = key then some { leaseId, lastUseMs := nowMs } else leases.entries k }

def LocalLeaseMap.pruneLocked (nowMs staleAfterMs : Nat) : LocalLeaseMap :=
  { leases with
    entries := fun k => (leases.entries k).filter fun e =>
      !(decide (e.lastUseMs ≤ nowMs) && decide (staleAfterMs < nowMs - e.lastUseMs)) }

def LocalLeaseMap.maybePrune (nowMs staleAfterMs : Nat) : LocalLeaseMap :=
  if nowMs < leases.nextPruneMs then leases
  else
    { leases with
      nextPruneMs :=
        if nowMs > 2 ^ 64 - 1 - kPruneIntervalMs then 2 ^ 64 - 1 else nowMs + kPruneIntervalMs
      }.pruneLocked nowMs staleAfterMs

/-! ## The calls of etcd -/

/-- The keys of etcd, each under its lease.  Times are in milliseconds. -/
abbrev LeasedEtcd := LeaseStore ByteString ByteString

def leaseMs : Nat := kTtlSeconds * 1000

/-- The calls of `EtcdClient` that `UpsertLeased` makes. -/
inductive EtcdCall where
  | leaseGrant
  | leaseKeepAlive (lease : Nat)
  | put (key val : ByteString) (lease : Nat)
deriving DecidableEq

open EtcdCall

/-- What etcd answers, and when the call took effect. -/
structure EtcdReply where
  ok : Bool
  lease : Nat
  time : Nat
deriving DecidableEq

def EtcdCall.serve (etcd : LeasedEtcd) : EtcdCall → LeasedEtcd × EtcdReply
  | .leaseGrant => ((etcd.grant leaseMs).1, ⟨true, (etcd.grant leaseMs).2, etcd.now⟩)
  | .leaseKeepAlive lease =>
    ((etcd.keepAlive leaseMs lease).1, ⟨(etcd.keepAlive leaseMs lease).2, lease, etcd.now⟩)
  | .put key val lease => ((etcd.put key val lease).1, ⟨(etcd.put key val lease).2,
      lease, etcd.now⟩)

/-- A call that was sent, and its reply once it took effect. -/
structure EtcdRequest where
  call : EtcdCall
  reply : Option EtcdReply := none
deriving DecidableEq

def EtcdCall.sent (call : EtcdCall) : EtcdRequest where
  call := call

/-! ## Heartbeats -/

/-- Where a heartbeat is. `since` is the time when the lease that it relies on was kept alive or
granted. -/
inductive HeartbeatPhase where
  | keepingAlive (lease : Nat)
  | refreshing (lease since : Nat)
  | granting
  | writing (lease since : Nat)
  | storing (lease since : Nat)
  /-- It returned `kOk`. -/
  | answered (since : Nat)
  /-- It returned something else. -/
  | refused (status : Status)
deriving DecidableEq

/-- A call of `UpsertLeased`, with the request that it waits for. -/
structure Heartbeat where
  mds : Nat
  client : Bool
  key : ByteString
  val : ByteString
  phase : HeartbeatPhase
  request : Nat
deriving DecidableEq

def HeartbeatPhase.waits : HeartbeatPhase → Bool
  | .keepingAlive _ | .refreshing _ _ | .granting | .writing _ _ => true
  | .storing _ _ | .answered _ | .refused _ => false

/-- What follows when the request is answered, or fails: the next phase, and the call it makes. -/
def HeartbeatPhase.next (key val : ByteString) :
    HeartbeatPhase → Option EtcdReply → HeartbeatPhase × Option EtcdCall
  | .keepingAlive lease, some reply => (.refreshing lease reply.time, some (.put key val lease))
  | .keepingAlive _, none => (.granting, some .leaseGrant)
  | .refreshing _ since, some _ => (.answered since, none)
  | .refreshing _ _, none => (.granting, some .leaseGrant)
  | .granting, some reply => (.writing reply.lease reply.time, some (.put key val reply.lease))
  | .granting, none => (.refused .ioError, none)
  | .writing lease since, some _ => (.storing lease since, none)
  | .writing _ _, none => (.refused .ioError, none)
  | phase, _ => (phase, none)

/-- The first phase, and the first call: a server that remembers a lease keeps it alive. -/
def HeartbeatPhase.first : Option Nat → HeartbeatPhase × EtcdCall
  | some lease => (.keepingAlive lease, .leaseKeepAlive lease)
  | none => (.granting, .leaseGrant)

/-! ## The cluster -/

/-- Etcd, the leases that each server remembers (for members and for clients), the requests that
were sent and the heartbeats. -/
structure Cluster where
  etcd : LeasedEtcd := {}
  servers : Nat → Bool → LocalLeaseMap := fun _ _ => {}
  requests : List EtcdRequest := []
  heartbeats : List Heartbeat := []

/-- The steps.  A server reads its own clock. -/
inductive ClusterLabel where
  /-- Time passes. -/
  | tick (d : Nat)
  /-- A heartbeat up to its first call. -/
  | start (mds nowMs : Nat) (client : Bool) (group : ByteString) (m : MemberInfo)
  /-- A request takes effect. -/
  | arrive (r : Nat)
  /-- A heartbeat gets the reply to its request. -/
  | answer (h : Nat)
  /-- A heartbeat gives its request up; the request may still take effect. -/
  | fail (h : Nat)
  /-- A heartbeat stores its lease and returns. -/
  | store (h nowMs : Nat)
deriving DecidableEq

def Cluster.setLeases (mds : Nat) (client : Bool) (leases : LocalLeaseMap) : Cluster :=
  { s with servers := fun i c => if i = mds ∧ c = client then leases else s.servers i c }

/-- `UpsertLeased` up to its first call. -/
def Cluster.upsertLeased (mds nowMs : Nat) (client : Bool) (key val : ByteString) : Cluster :=
  let (leases, existing) :=
    ((s.servers mds client).maybePrune nowMs kLocalLeaseStaleMs).lookupAndTouch key nowMs
  { s.setLeases mds client leases with
    requests := s.requests ++ [(HeartbeatPhase.first existing).2.sent]
    heartbeats := s.heartbeats ++
      [{ mds, client, key, val, phase := (HeartbeatPhase.first existing).1
         request := s.requests.length }] }

def heartbeatKey (client : Bool) (group id : ByteString) : ByteString :=
  if client then clientKey group id else memberKey group id

/-- `Upsert` and `UpsertClient`. -/
def Cluster.upsert (mds nowMs : Nat) (client : Bool) (group : ByteString)
    (m : MemberInfo) : Cluster :=
  if !isValidGroupOrId group || !isValidGroupOrId m.id then
    { s with
      heartbeats := s.heartbeats ++
        [{ mds, client, key := heartbeatKey client group m.id, val := encodeMembers [m] 0
           phase := .refused .invalid, request := s.requests.length }] }
  else s.upsertLeased mds nowMs client (heartbeatKey client group m.id) (encodeMembers [m] 0)

def Cluster.resume (h : Nat) (hb : Heartbeat) (reply : Option EtcdReply) : Cluster :=
  { s with
    requests := s.requests ++ (hb.phase.next hb.key hb.val reply).2.toList.map sent
    heartbeats := s.heartbeats.set h
      { hb with phase := (hb.phase.next hb.key hb.val reply).1, request := s.requests.length } }

def Cluster.step : ClusterLabel → Option Cluster
  | .tick d => some { s with etcd := s.etcd.tick d }
  | .start mds nowMs client group m => some (s.upsert mds nowMs client group m)
  | .arrive r => do
    let request ← s.requests[r]?
    if request.reply.isSome then none
    else
      some { s with
        etcd := (request.call.serve s.etcd).1
        requests := s.requests.set r { request with reply := some (request.call.serve s.etcd).2 } }
  | .answer h => do
    let hb ← s.heartbeats[h]?
    let request ← s.requests[hb.request]?
    let reply ← request.reply
    if hb.phase.waits then some (s.resume h hb (if reply.ok then some reply else none)) else none
  | .fail h => do
    let hb ← s.heartbeats[h]?
    if hb.phase.waits then some (s.resume h hb none) else none
  | .store h nowMs => do
    let hb ← s.heartbeats[h]?
    match hb.phase with
    | .storing lease since =>
      some { s.setLeases hb.mds hb.client
          ((s.servers hb.mds hb.client).store hb.key lease nowMs) with
        heartbeats := s.heartbeats.set h { hb with phase := .answered since } }
    | _ => none

/-! ## Puts that go forward -/

/-- A put under a live lease moves its key to no lease that ends earlier. -/
def EtcdCall.Forward (etcd : LeasedEtcd) : EtcdCall → Prop
  | .put key _ lease => etcd.live lease = true → etcd.Forward key lease
  | _ => True

instance (etcd : LeasedEtcd) : DecidablePred (EtcdCall.Forward etcd)
  | .put key _ lease => inferInstanceAs (Decidable (etcd.live lease = true →
      etcd.Forward key lease))
  | .leaseGrant => isTrue trivial
  | .leaseKeepAlive _ => isTrue trivial

/-- A put takes effect under a lease that ends no earlier than the one its key is under. -/
def PutsForward : ClusterLabel → Prop
  | .arrive r => ∀ q ∈ s.requests[r]?, q.call.Forward s.etcd
  | _ => True

instance (s : Cluster) : DecidablePred (PutsForward s)
  | .arrive r => inferInstanceAs (Decidable (∀ q ∈ s.requests[r]?, q.call.Forward s.etcd))
  | .tick _ => isTrue trivial
  | .start _ _ _ _ _ => isTrue trivial
  | .answer _ => isTrue trivial
  | .fail _ => isTrue trivial
  | .store _ _ => isTrue trivial

/-! ## What a heartbeat knows -/

def EtcdRequest.Holds (etcd : LeasedEtcd) (q : EtcdRequest) : Prop :=
  ∀ reply, q.reply = some reply → reply.ok = true →
    (q.call = .leaseGrant → etcd.Runs reply.lease (reply.time + leaseMs)) ∧
      ∀ lease, q.call = .leaseKeepAlive lease → etcd.Runs lease (reply.time + leaseMs)

def Heartbeat.Calls (hb : Heartbeat) (call : EtcdCall) : Prop :=
  ∃ q, s.requests[hb.request]? = some q ∧ q.call = call

/-- The heartbeat puts its key under a lease: the lease runs from the time it was renewed, and once
the put took effect the key is secured for as long. -/
structure Heartbeat.Puts (s : Cluster) (hb : Heartbeat) (lease since : Nat) : Prop where
  runs : s.etcd.Runs lease (since + leaseMs)
  calls : hb.Calls s (.put hb.key hb.val lease)
  secured : ∀ q reply, s.requests[hb.request]? = some q → q.reply = some reply → reply.ok = true →
    s.etcd.Secured hb.key (since + leaseMs)

def Heartbeat.Knows (hb : Heartbeat) : Prop :=
  match hb.phase with
  | .keepingAlive lease => hb.Calls s (.leaseKeepAlive lease)
  | .granting => hb.Calls s .leaseGrant
  | .refreshing lease since => hb.Puts s lease since
  | .writing lease since => hb.Puts s lease since
  | .storing _ since => s.etcd.Secured hb.key (since + leaseMs)
  | .answered since => s.etcd.Secured hb.key (since + leaseMs)
  | .refused _ => True

/-- The invariant of the cluster. -/
structure Cluster.Inv (s : Cluster) : Prop where
  bounded : s.etcd.Bounded leaseMs
  replies : ∀ q ∈ s.requests, q.Holds s.etcd
  heartbeats : ∀ hb ∈ s.heartbeats, hb.Knows s

/-! ## What is known stays known -/

/-- Leases run on, keys stay secured, requests stay, and a put that took effect secured its key. -/
structure Cluster.Keeps (s s' : Cluster) : Prop where
  outlasts : s.etcd.Outlasts s'.etcd
  secured : ∀ k T, s.etcd.Secured k T → s'.etcd.Secured k T
  requests : ∀ (i : Nat) (q : EtcdRequest), s.requests[i]? = some q →
    ∃ q' : EtcdRequest, s'.requests[i]? = some q' ∧ q'.call = q.call ∧
      ∀ reply : EtcdReply, q'.reply = some reply → reply.ok = true → q.reply = some reply ∨
        ∀ key val lease T, q.call = .put key val lease → s.etcd.Runs lease T → s'.etcd.Secured key T

section Keeps

variable {s s' : Cluster} {hb : Heartbeat}

theorem Cluster.Keeps.calls (h : s.Keeps s') (hcalls : hb.Calls s call) : hb.Calls s' call := by
  obtain ⟨q, hq, rfl⟩ := hcalls
  obtain ⟨q', hq', hcall, -⟩ := h.requests _ q hq
  exact ⟨q', hq', hcall⟩

theorem Cluster.Keeps.puts (h : s.Keeps s') {since : Nat} (hputs : hb.Puts s lease since) :
    hb.Puts s' lease since := by
  refine ⟨h.outlasts.runs _ _ hputs.runs, h.calls hputs.calls, fun q' reply hq' hreply hok => ?_⟩
  obtain ⟨q, hq, hcall⟩ := hputs.calls
  obtain ⟨q'', hq'', -, hnew⟩ := h.requests _ q hq
  obtain rfl : q'' = q' := some.inj (hq''.symm.trans hq')
  rcases hnew reply hreply hok with hold | hput
  · exact h.secured _ _ (hputs.secured q reply hq hold hok)
  · exact hput _ _ _ _ hcall hputs.runs

theorem Cluster.Keeps.knows (h : s.Keeps s') (hknows : hb.Knows s) : hb.Knows s' := by
  unfold Heartbeat.Knows at hknows ⊢
  cases hphase : hb.phase <;> rw [hphase] at hknows
  case keepingAlive => exact h.calls hknows
  case granting => exact h.calls hknows
  case refreshing => exact h.puts hknows
  case writing => exact h.puts hknows
  case storing => exact h.secured _ _ hknows
  case answered => exact h.secured _ _ hknows
  case refused => exact trivial

theorem EtcdRequest.Holds.mono {etcd' : LeasedEtcd} {q : EtcdRequest} (h : q.Holds etcd)
    (houtlasts : etcd.Outlasts etcd') : q.Holds etcd' := by
  intro reply hreply hok
  obtain ⟨hgrant, hkeep⟩ := h reply hreply hok
  exact ⟨fun hcall => houtlasts.runs _ _ (hgrant hcall),
    fun lease hcall => houtlasts.runs _ _ (hkeep lease hcall)⟩

theorem keeps_of_send (hetcd : s'.etcd = s.etcd) {sent : List EtcdRequest}
    (hrequests : s'.requests = s.requests ++ sent) : s.Keeps s' where
  outlasts := hetcd ▸ .refl _
  secured := fun k T h => hetcd ▸ h
  requests := fun i q hq => by
    have hlt : i < s.requests.length := (List.getElem?_eq_some_iff.mp hq).1
    refine ⟨q, ?_, rfl, fun reply hreply _ => .inl hreply⟩
    rw [hrequests, List.getElem?_append_left hlt, hq]

/-! ## Steps -/

theorem serve_keeps (hbounded : etcd.Bounded leaseMs) (hforward : call.Forward etcd) :
    (call.serve etcd).1.Bounded leaseMs ∧ etcd.Outlasts (call.serve etcd).1 ∧
      ∀ k T, etcd.Secured k T → (call.serve etcd).1.Secured k T := by
  cases call with
  | leaseGrant =>
    have houtlasts := outlasts_grant leaseMs etcd
    exact ⟨hbounded.grant, houtlasts, fun k T h => h.mono rfl houtlasts⟩
  | leaseKeepAlive lease =>
    have houtlasts := outlasts_keepAlive hbounded lease
    exact ⟨hbounded.keepAlive lease, houtlasts,
      fun k T h => h.mono (keys_keepAlive leaseMs etcd lease) houtlasts⟩
  | put key val lease =>
    exact ⟨hbounded.put key val lease, outlasts_put etcd key val lease,
      fun k T h => secured_put val h hforward⟩

/-- A lease that was granted or kept alive runs from then on. -/
theorem serve_holds (etcd : LeasedEtcd) (call : EtcdCall) :
    EtcdRequest.Holds (call.serve etcd).1 ⟨call, some (call.serve etcd).2⟩ := by
  intro reply hreply hok
  cases hreply
  constructor
  · rintro rfl
    refine ⟨?_, ?_⟩
    · simp [serve, grant]
    · simp only [serve, expiryOf_grant]
      exact (if_pos (show (etcd.grant leaseMs).2 = etcd.expiry.length from rfl)).ge
  · rintro lease rfl
    have hlive : etcd.live lease := by
      by_contra hlive
      simp [serve, keepAlive, hlive] at hok
    refine ⟨?_, ?_⟩
    · simp only [serve, length_keepAlive]
      exact lt_length_of_live hlive
    · simp only [serve, expiryOf_keepAlive]
      rw [if_pos ⟨hlive, trivial⟩]

theorem arrive_keeps {r : Nat} {q : EtcdRequest} (hq : s.requests[r]? = some q)
    (hbounded : s.etcd.Bounded leaseMs) (hforward : q.call.Forward s.etcd) :
    s.Keeps { s with
      etcd := (q.call.serve s.etcd).1
      requests := s.requests.set r { q with reply := some (q.call.serve s.etcd).2 } } := by
  obtain ⟨-, houtlasts, hsecured⟩ := serve_keeps hbounded hforward
  refine ⟨houtlasts, hsecured, fun i q₀ hq₀ => ?_⟩
  have hlt : i < s.requests.length := (List.getElem?_eq_some_iff.mp hq₀).1
  rcases eq_or_ne i r with rfl | hi
  · obtain rfl : q = q₀ := some.inj (hq.symm.trans hq₀)
    refine ⟨_, List.getElem?_set_self hlt, rfl, fun reply hreply hok => .inr ?_⟩
    intro key val lease T hcall hruns
    cases hreply
    simp only [hcall, serve] at hok ⊢
    exact secured_of_put hok hruns
  · refine ⟨q₀, ?_, rfl, fun reply hreply _ => .inl hreply⟩
    rw [List.getElem?_set_ne (Ne.symm hi)]
    exact hq₀

theorem calls_of_sent (hrequests : s'.requests = s.requests ++ [call.sent])
    (hrequest : hb.request = s.requests.length) : hb.Calls s' call :=
  ⟨call.sent, by rw [hrequests, hrequest, List.getElem?_concat_length], rfl⟩

theorem puts_of_sent {since : Nat}
    (hrequests : s'.requests = s.requests ++ [sent (.put hb.key hb.val lease)])
    (hrequest : hb.request = s.requests.length) (hruns : s'.etcd.Runs lease (since + leaseMs)) :
    hb.Puts s' lease since := by
  refine ⟨hruns, calls_of_sent hrequests hrequest, fun q reply hq hreply _ => ?_⟩
  rw [hrequests, hrequest, List.getElem?_concat_length] at hq
  cases hq
  exact absurd hreply (by simp [sent])

theorem Cluster.Inv.runs (hinv : s.Inv) (hcalls : hb.Calls s call) {reply : EtcdReply}
    (hreply : ∃ q, s.requests[hb.request]? = some q ∧ q.reply = some reply ∧ reply.ok) :
    (call = .leaseGrant → s.etcd.Runs reply.lease (reply.time + leaseMs)) ∧
      ∀ lease, call = .leaseKeepAlive lease → s.etcd.Runs lease (reply.time + leaseMs) := by
  obtain ⟨q, hq, rfl⟩ := hcalls
  obtain ⟨q', hq', hsome, hok⟩ := hreply
  obtain rfl : q = q' := some.inj (hq.symm.trans hq')
  exact hinv.replies q (mem_of_getElem? hq) reply hsome hok

/-- A heartbeat that goes on knows what its next phase says. -/
theorem next_knows (hinv : s.Inv) (h : Nat) (hknows : hb.Knows s) {reply : Option EtcdReply}
    (hreply : ∀ x, reply = some x →
      ∃ q, s.requests[hb.request]? = some q ∧ q.reply = some x ∧ x.ok) :
    Heartbeat.Knows (s.resume h hb reply)
      { hb with phase := (hb.phase.next hb.key hb.val reply).1, request := s.requests.length } := by
  have hsent : (s.resume h hb reply).requests = s.requests ++
      (hb.phase.next hb.key hb.val reply).2.toList.map sent := rfl
  have hetcd : (s.resume h hb reply).etcd = s.etcd := rfl
  generalize s.resume h hb reply = s' at hsent hetcd ⊢
  have hsecured : ∀ {k T}, s.etcd.Secured k T → s'.etcd.Secured k T := fun hk => hetcd ▸ hk
  unfold Heartbeat.Knows at hknows
  cases hphase : hb.phase <;> cases reply <;> rw [hphase] at hknows hsent
  case keepingAlive.some lease x =>
    exact puts_of_sent hsent rfl (hetcd ▸ (hinv.runs hknows (hreply x rfl)).2 lease rfl)
  case keepingAlive.none => exact calls_of_sent hsent rfl
  case refreshing.some lease since x =>
    obtain ⟨q, hq, hsome, hok⟩ := hreply x rfl
    exact hsecured (hknows.secured q x hq hsome hok)
  case refreshing.none => exact calls_of_sent hsent rfl
  case granting.some x =>
    exact puts_of_sent hsent rfl (hetcd ▸ (hinv.runs hknows (hreply x rfl)).1 rfl)
  case granting.none => exact trivial
  case writing.some lease since x =>
    obtain ⟨q, hq, hsome, hok⟩ := hreply x rfl
    exact hsecured (hknows.secured q x hq hsome hok)
  case writing.none => exact trivial
  case storing.some => exact hsecured hknows
  case storing.none => exact hsecured hknows
  case answered.some => exact hsecured hknows
  case answered.none => exact hsecured hknows
  case refused.some => exact trivial
  case refused.none => exact trivial

theorem replies_of_sent (hinv : s.Inv) (hetcd : s'.etcd = s.etcd) {sent : List EtcdRequest}
    (hrequests : s'.requests = s.requests ++ sent) (hfresh : ∀ q ∈ sent, q.reply = none) :
    ∀ q ∈ s'.requests, q.Holds s'.etcd := by
  intro q hq
  rw [hrequests] at hq
  rcases mem_append.mp hq with hold | hnew
  · exact hetcd ▸ hinv.replies q hold
  · intro reply hreply
    rw [hfresh q hnew] at hreply
    cases hreply

theorem resume_inv (hinv : s.Inv) {h : Nat} (hhb : s.heartbeats[h]? = some hb)
    {reply : Option EtcdReply}
    (hreply : ∀ x, reply = some x →
      ∃ q, s.requests[hb.request]? = some q ∧ q.reply = some x ∧ x.ok) :
    (s.resume h hb reply).Inv := by
  have hmem : hb ∈ s.heartbeats := mem_of_getElem? hhb
  have hkeeps : s.Keeps (s.resume h hb reply) := keeps_of_send rfl rfl
  refine ⟨hinv.bounded, ?_, fun hb' hhb' => ?_⟩
  · have hetcd : (s.resume h hb reply).etcd = s.etcd := rfl
    apply replies_of_sent hinv hetcd rfl
    intro q hq
    obtain ⟨call, -, rfl⟩ := mem_map.mp hq
    rfl
  · rcases mem_or_eq_of_mem_set hhb' with hold | rfl
    · exact hkeeps.knows (hinv.heartbeats hb' hold)
    · exact next_knows hinv h (hinv.heartbeats hb hmem) hreply

theorem upsertLeased_inv (hinv : s.Inv) (mds nowMs : Nat) (client : Bool) (key val : ByteString) :
    (s.upsertLeased mds nowMs client key val).Inv := by
  unfold Cluster.upsertLeased
  generalize LocalLeaseMap.lookupAndTouch _ _ _ = found
  obtain ⟨leases, existing⟩ := found
  refine ⟨hinv.bounded, ?_, fun hb hhb => ?_⟩
  · intro q hq
    rcases mem_append.mp hq with hold | hnew
    · exact hinv.replies q hold
    · obtain rfl := mem_singleton.mp hnew
      exact fun reply hreply => absurd hreply (by simp [sent])
  · rcases mem_append.mp hhb with hold | hnew
    · apply Cluster.Keeps.knows (s := s) _ (hinv.heartbeats hb hold)
      exact keeps_of_send rfl rfl
    · obtain rfl := mem_singleton.mp hnew
      -- The first call is the one that the first phase waits for.
      cases existing with
      | none => exact calls_of_sent (s := s) rfl rfl
      | some lease => exact calls_of_sent (s := s) rfl rfl

theorem upsert_inv (hinv : s.Inv) (mds nowMs : Nat) (client : Bool) (group : ByteString)
    (m : MemberInfo) : (s.upsert mds nowMs client group m).Inv := by
  unfold Cluster.upsert
  split
  · refine ⟨hinv.bounded, hinv.replies, fun hb hhb => ?_⟩
    rcases mem_append.mp hhb with hold | hnew
    · apply Cluster.Keeps.knows (s := s) _ (hinv.heartbeats hb hold)
      exact keeps_of_send rfl (append_nil _).symm
    · obtain rfl := mem_singleton.mp hnew
      exact trivial
  · exact upsertLeased_inv hinv mds nowMs client _ _

theorem step_inv {l : ClusterLabel} (hinv : s.Inv) (hforward : PutsForward s l)
    (hstep : s.step l = some s') : s'.Inv := by
  cases l with
  | tick d =>
    cases hstep
    have houtlasts := outlasts_tick s.etcd d
    have hkeeps : s.Keeps { s with etcd := s.etcd.tick d } :=
      ⟨houtlasts, fun k T h => h.mono rfl houtlasts,
        fun i q hq => ⟨q, hq, rfl, fun reply hreply _ => .inl hreply⟩⟩
    exact ⟨hinv.bounded.tick d, fun q hq => (hinv.replies q hq).mono houtlasts,
      fun hb hhb => hkeeps.knows (hinv.heartbeats hb hhb)⟩
  | start mds nowMs client group m =>
    cases hstep
    exact upsert_inv hinv mds nowMs client group m
  | arrive r =>
    obtain ⟨q, hq, hstep⟩ := bind_eq_some_iff.mp hstep
    obtain ⟨-, hstep⟩ := ite_none_left_eq_some.mp hstep
    cases hstep
    have hcall : q.call.Forward s.etcd := hforward q hq
    have hkeeps := arrive_keeps hq hinv.bounded hcall
    refine ⟨(serve_keeps hinv.bounded hcall).1, fun q' hq' => ?_,
      fun hb hhb => hkeeps.knows (hinv.heartbeats hb hhb)⟩
    rcases mem_or_eq_of_mem_set hq' with hold | rfl
    · exact (hinv.replies q' hold).mono hkeeps.outlasts
    · exact serve_holds s.etcd q.call
  | answer h =>
    obtain ⟨hb, hhb, hstep⟩ := bind_eq_some_iff.mp hstep
    obtain ⟨q, hq, hstep⟩ := bind_eq_some_iff.mp hstep
    obtain ⟨x, hx, hstep⟩ := bind_eq_some_iff.mp hstep
    obtain ⟨-, hstep⟩ := ite_none_right_eq_some.mp hstep
    cases hstep
    apply resume_inv hinv hhb
    intro y hy
    obtain ⟨hok, hsome⟩ := ite_none_right_eq_some.mp hy
    cases hsome
    exact ⟨q, hq, hx, hok⟩
  | fail h =>
    obtain ⟨hb, hhb, hstep⟩ := bind_eq_some_iff.mp hstep
    obtain ⟨-, hstep⟩ := ite_none_right_eq_some.mp hstep
    cases hstep
    apply resume_inv hinv hhb
    intro y hy
    cases hy
  | store h nowMs =>
    obtain ⟨hb, hhb, hstep⟩ := bind_eq_some_iff.mp hstep
    split at hstep
    case h_1 lease since hphase =>
      cases hstep
      have hknows := hinv.heartbeats hb (mem_of_getElem? hhb)
      rw [Heartbeat.Knows, hphase] at hknows
      refine ⟨hinv.bounded, hinv.replies, fun hb' hhb' => ?_⟩
      rcases mem_or_eq_of_mem_set hhb' with hold | rfl
      · apply Cluster.Keeps.knows (s := s) _ (hinv.heartbeats hb' hold)
        exact keeps_of_send rfl (append_nil _).symm
      · exact hknows
    case h_2 => cases hstep

/-! ## Runs -/

/-- Before the first heartbeat: what etcd holds, and what the servers remember, is arbitrary. -/
structure Cluster.Fresh (s : Cluster) : Prop where
  bounded : s.etcd.Bounded leaseMs
  requests : s.requests = []
  heartbeats : s.heartbeats = []

theorem Cluster.Fresh.inv (h : s.Fresh) : s.Inv :=
  ⟨h.bounded, by simp [h.requests], by simp [h.heartbeats]⟩

/-- The key of every heartbeat that returned `kOk` is there, for the time of a lease from when its
lease was kept alive or granted. -/
def Cluster.KeepsMembers (s : Cluster) : Prop :=
  ∀ hb ∈ s.heartbeats, ∀ since, hb.phase = .answered since → s.etcd.now < since + leaseMs →
    (s.etcd.get hb.key).isSome = true

theorem Cluster.Inv.keepsMembers (h : s.Inv) : s.KeepsMembers := by
  intro hb hhb since hphase hnow
  have hknows := h.heartbeats hb hhb
  rw [Heartbeat.Knows, hphase] at hknows
  exact get_of_secured hknows hnow

/-- The put leaves its key there until the lease that the key was under would have expired. -/
def EtcdCall.KeepsOwner (etcd : LeasedEtcd) (call : EtcdCall) (key : ByteString)
    (owner : Nat) : Prop :=
  ∀ d, etcd.now + d < etcd.expiryOf owner → (((call.serve etcd).1.tick d).get key).isSome = true

theorem forward_iff_keepsOwner {key val v : ByteString} {owner : Nat}
    (hlive : etcd.live lease) (hkey : etcd.keys key = some (v, owner))
    (howner : etcd.live owner) :
    (put key val lease).Forward etcd ↔ (put key val lease).KeepsOwner etcd key owner := by
  have hnow : etcd.now < etcd.expiryOf owner := of_decide_eq_true howner
  constructor
  · intro hforward d hd
    have hle : etcd.expiryOf owner ≤ etcd.expiryOf lease := hforward hlive (v, owner) hkey howner
    exact (get_tick_put hlive d).mpr (Nat.lt_of_lt_of_le hd hle)
  · intro hkeeps _ e he _
    cases hkey.symm.trans he
    -- The last moment of the lease that the key was under.
    have hlast := (get_tick_put hlive (etcd.expiryOf owner - etcd.now - 1)).mp
      (hkeeps (etcd.expiryOf owner - etcd.now - 1) (by omega))
    show etcd.expiryOf owner ≤ etcd.expiryOf lease
    omega

/-- In every run whose puts go forward, an answered heartbeat keeps its key; and in the states of
such a run a put of a key that is there keeps it exactly if it goes forward. -/
theorem answered_heartbeat_keeps_member {labels : List ClusterLabel} (hfresh : s.Fresh)
    (hforward : Meets Cluster.step PutsForward s labels)
    (hrun : run Cluster.step s labels = some s') :
    s'.KeepsMembers ∧
      ∀ key val v lease owner, s'.etcd.live lease = true → s'.etcd.keys key = some (v, owner) →
        s'.etcd.live owner = true →
        ((EtcdCall.put key val lease).Forward s'.etcd ↔
          (EtcdCall.put key val lease).KeepsOwner s'.etcd key owner) := by
  have hinv : s'.Inv := run_invariant (fun _ _ _ h hC hstep => step_inv h hC hstep) hfresh.inv
    hforward hrun
  refine ⟨hinv.keepsMembers, fun key val v lease owner hlive hkey howner => ?_⟩
  exact forward_iff_keepsOwner hlive hkey howner

/-- A heartbeat by way of a new lease: up to its return. -/
def newLease (mds h r : Nat) : List ClusterLabel :=
  [.start mds 0 false [103] { id := [110], ip := [49] }, .arrive r, .answer h, .arrive (r + 1),
    .answer h, .store h 0]

/-- One server, then another: the second heartbeat moves the key to a later lease. -/
theorem later_heartbeat_keeps_member :
    ∃ s', run Cluster.step {} (newLease 0 0 0 ++ .tick 5000 :: newLease 1 1 2) = some s' ∧
      s'.KeepsMembers ∧ ∃ hb ∈ s'.heartbeats, hb.phase = .answered 5000 := by
  have hforward : Meets Cluster.step PutsForward {}
      (newLease 0 0 0 ++ .tick 5000 :: newLease 1 1 2) := by decide +kernel
  have hfresh : Cluster.Fresh {} := ⟨fun l => by simp [LeaseStore.expiryOf], rfl, rfl⟩
  refine ⟨_, rfl, (answered_heartbeat_keeps_member hfresh hforward rfl).1, ?_⟩
  exact ⟨_, List.mem_cons_of_mem _ List.mem_cons_self, rfl⟩

/-- The put of a first heartbeat, given up by its sender, takes effect after a second one at another
server was answered, and moves the key back to the earlier lease. -/
theorem late_put_drops_member :
    ∃ s', run Cluster.step {} (newLease 0 0 0 ++
        [.tick 1000, .start 0 0 false [103] { id := [110], ip := [49] }, .arrive 2, .answer 1,
          .tick 5000] ++ newLease 1 2 4 ++ [.arrive 3, .tick 26000]) = some s' ∧
      ∃ hb ∈ s'.heartbeats, hb.phase = .answered 6000 ∧ s'.etcd.now < 6000 + leaseMs ∧
        s'.etcd.get hb.key = none := by
  refine ⟨_, rfl, _, List.mem_cons_of_mem _ (List.mem_cons_of_mem _ List.mem_cons_self),
    rfl, ?_, ?_⟩
  · decide +kernel
  · decide +kernel

end Keeps

end DingoCache.Mds
