import DingoCache.Library.Interleaving
import DingoCache.Slab.Retention
import DingoCache.Store.Model

/-!
# Debounced Retention

`KVClient::BatchRetain`, `RetainNode` and `RemoveDirect` of `src/client/kv_client.cc`, against
the allocator of the node that owns the keys.  A `REFRESH` of a key that was protected a short
time ago is not sent: the client answers from its debounce entries.

- `RetainSystem.step`: one step of the client, of the node or of time.
-/

namespace DingoCache.Client

open Library Slab Store Option

variable {d : Digest} {e : DebounceEntry} {nowS nowMs : Nat} {req : RetainRequest}
  {c : RetainClient} {a : SlabAllocator}

/-! ## Requests and results -/

/-- The digest of a key; the tenant is the same for all keys of a client. -/
abbrev Digest := UInt64 × UInt64

inductive RetainResult where
  | miss
  | hitUnprotected
  | protectedNew
  | refreshed
  | upgraded
  | unchanged
  | denied
  | unsupported
  | skippedDebounce
  | error
deriving DecidableEq

def resultOf : RetainCode → RetainResult
  | .miss => .miss
  | .hitUnprotected => .hitUnprotected
  | .protectedNew => .protectedNew
  | .refreshed => .refreshed
  | .upgraded => .upgraded
  | .unchanged => .unchanged
  | .denied => .denied

structure RetainRequest where
  ttlS : Nat := 0
  mode : RetainMode := .set
  noDebounce : Bool := false
  minRefreshMs : Nat := 0
deriving DecidableEq

def RetainRequest.debounce (req : RetainRequest) : Bool :=
  req.mode == .refresh && req.ttlS != 0 && !req.noDebounce

def RetainRequest.interval (req : RetainRequest) : Nat :=
  max req.minRefreshMs (req.ttlS * 100)

/-- The answer of a node without retention: a `REFRESH` is a probe, a `SET` cannot be honoured. -/
def RetainRequest.fallback (req : RetainRequest) (st : Status) (ex : Bool) : RetainResult :=
  match req.mode, st with
  | .set, _ => .unsupported
  | .refresh, .ok => if ex then .hitUnprotected else .miss
  | .refresh, .notFound => .miss
  | .refresh, _ => .error

/-! ## Debounce entries -/

/-- `KVClient::RetainDebounceEntry`, with the deadline that the node granted, which the client is
not told. -/
structure DebounceEntry where
  protectedAtMs : Nat
  deadlineS : Nat
deriving DecidableEq

def kRetainDebounceShards : Nat := 16

def kRetainMaxKeys : Nat := 1024

/-- `retain_debounce_`, and what is known of the node. -/
structure RetainClient where
  shards : Nat → List (Digest × DebounceEntry) := fun _ => []
  supported : Option Bool := none

open RetainClient

def shardOf (d : Digest) : Nat := d.2.toNat % kRetainDebounceShards

def eraseEntry (entries : List (Digest × DebounceEntry)) (d : Digest) :
    List (Digest × DebounceEntry) :=
  entries.filter fun x => x.1 != d

def RetainClient.find (c : RetainClient) (d : Digest) : Option DebounceEntry :=
  (c.shards (shardOf d)).lookup d

def RetainClient.setShard (c : RetainClient) (i : Nat) (entries : List (Digest × DebounceEntry)) :
    RetainClient :=
  { c with shards := fun j => if j = i then entries else c.shards j }

/-- What the client keeps of the code for a key.  A full shard is cleared. -/
def RetainClient.note (c : RetainClient) (cap nowMs : Nat) (d : Digest) (code : RetainCode)
    (deadlineS : Nat) : RetainClient :=
  if code.isProtected then
    let entries :=
      if cap ≤ (c.shards (shardOf d)).length ∧ c.find d = none then [] else c.shards (shardOf d)
    if cap ≠ 0 then
      c.setShard (shardOf d) ((d, { protectedAtMs := nowMs, deadlineS }) :: eraseEntry entries d)
    else c.setShard (shardOf d) entries
  else c.setShard (shardOf d) (eraseEntry (c.shards (shardOf d)) d)

/-- The `REFRESH` of the key is not sent. -/
def RetainClient.skips (c : RetainClient) (req : RetainRequest) (nowMs : Nat) (d : Digest) : Bool :=
  req.debounce && (c.find d).any fun e => decide (nowMs - e.protectedAtMs < req.interval)

/-! ## A call of BatchRetain -/

/-- A call: its results so far, the keys that are still to be sent, and what the node answered for
the next chunk of them, with the deadlines. -/
structure RetainCall where
  req : RetainRequest
  keys : List Digest
  out : List RetainResult
  todo : List Nat
  reply : Option (List (RetainCode × Nat)) := none

/-- `BatchRetain` up to the first request.  Keys without a healthy owner stay at `kRetError`. -/
def RetainClient.batchRetain (c : RetainClient) (nowMs : Nat) (keys : List Digest)
    (req : RetainRequest) (reachable : Bool) : RetainCall where
  req := req
  keys := keys
  out := keys.map fun d => if c.skips req nowMs d then .skippedDebounce else .error
  todo :=
    if reachable then
      (List.range keys.length).filter fun i => !keys[i]?.any (c.skips req nowMs)
    else []

def RetainCall.chunk (call : RetainCall) : List Digest :=
  (call.todo.take kRetainMaxKeys).filterMap fun i => call.keys[i]?

/-- The results of the keys at `idx`. -/
def writeResults (out : List RetainResult) (idx : List Nat) (results : List RetainResult) :
    List RetainResult :=
  (idx.zip results).foldl (fun out p => out.set p.1 p.2) out

def RetainCall.advance (call : RetainCall) (results : List RetainResult) : RetainCall :=
  { call with
    out := writeResults call.out (call.todo.take kRetainMaxKeys) results
    todo := call.todo.drop kRetainMaxKeys
    reply := none }

/-! ## The node -/

/-- How the disk store of the node serves one key: it may answer `kMiss` at once, and it does so
after a failed write of the record. -/
inductive RetainService where
  | missed
  | served (recorded : Bool)
deriving DecidableEq

/-- `DiskSlabStore::Retain` of one key. -/
def serveKey (a : SlabAllocator) (key : BlockKey) (req : RetainRequest) (nowS : Nat) :
    RetainService → SlabAllocator × RetainCode × Nat
  | .missed => (a, .miss, 0)
  | .served recorded =>
    ((a.retain key req.ttlS req.mode nowS).1,
      if (a.retain key req.ttlS req.mode nowS).2.persist && !recorded then .miss
      else (a.retain key req.ttlS req.mode nowS).2.code,
      (a.retain key req.ttlS req.mode nowS).2.deadline)

/-- `ProcessRetain`: the keys one after the other. -/
def processRetain (tenant : UInt64) (req : RetainRequest) (nowS : Nat) :
    List (Digest × RetainService) → SlabAllocator → SlabAllocator × List (RetainCode × Nat)
  | [], a => (a, [])
  | x :: xs, a =>
    let r := serveKey a ⟨x.1.1, x.1.2, tenant⟩ req nowS x.2
    ((processRetain tenant req nowS xs r.1).1, r.2 :: (processRetain tenant req nowS xs r.1).2)

/-! ## Steps -/

/-- One client, the node that owns its keys, and their clocks. -/
structure RetainSystem where
  tenant : UInt64 := 0
  cap : Nat
  nowMs : Nat := 0
  nodeMs : Nat := 0
  client : RetainClient := {}
  node : SlabAllocator
  call : Option RetainCall := none

def RetainSystem.key (s : RetainSystem) (d : Digest) : BlockKey := ⟨d.1, d.2, s.tenant⟩

/-- `RetainWallNowS`. -/
def RetainSystem.nodeNowS (s : RetainSystem) : Nat := s.nodeMs / 1000

/-- What `Transport::Retain` returns. -/
inductive RetainReply where
  | ok
  | invalid
  | failed
deriving DecidableEq

inductive RetainLabel where
  /-- Both clocks advance. -/
  | tick (d : Nat)
  /-- Any call of the allocator that is not a `Remove`: puts, reads, evictions, expiry, and
      requests that arrive late. -/
  | node (outcomes : List Bool) (op : Op)
  /-- `BatchRetain` up to the first request. -/
  | retain (keys : List Digest) (req : RetainRequest) (reachable : Bool)
  /-- The node serves the next request. -/
  | serve (services : List RetainService)
  /-- The client gets the reply. -/
  | reply (r : RetainReply)
  /-- The keys of a node without retention are probed. -/
  | fallback (exist : List (Status × Bool))
  /-- `BatchRetain` returns. -/
  | finish
  /-- `RemoveDirect`, which may not reach the node. -/
  | remove (d : Digest) (outcomes : List Bool) (served : Bool)

def RetainSystem.noteAll (s : RetainSystem) (chunk : List Digest) (codes : List
    (RetainCode × Nat)) :
    RetainClient :=
  (chunk.zip codes).foldl (fun c x => c.note s.cap s.nowMs x.1 x.2.1 x.2.2)
    { s.client with supported := some true }

def RetainSystem.reply (s : RetainSystem) (call : RetainCall) : RetainReply → Option RetainSystem
  | .ok => do
    let codes ← call.reply
    some { s with
      client := s.noteAll call.chunk codes
      call := some (call.advance (codes.map fun x => resultOf x.1)) }
  | .invalid =>
    some { s with
      client := { s.client with supported := some false }
      call := some { call with reply := none } }
  | .failed => some { s with call := some (call.advance (call.chunk.map fun _ => .error)) }

def RetainSystem.step (s : RetainSystem) : RetainLabel → Option RetainSystem
  | .tick d => some { s with nowMs := s.nowMs + d, nodeMs := s.nodeMs + d }
  | .node outcomes op =>
    if op.isRemove = false ∧ op.clock ≤ s.nodeNowS then
      some { s with node := (s.node.step outcomes op).1 }
    else none
  | .retain keys req reachable =>
    if s.call.isNone then
      some { s with call := some (s.client.batchRetain s.nowMs keys req reachable) }
    else none
  | .serve services => do
    let call ← s.call
    if call.todo ≠ [] ∧ call.reply = none ∧ s.client.supported ≠ some false ∧
        services.length = call.chunk.length then
      some { s with
        node := (processRetain s.tenant call.req s.nodeNowS (call.chunk.zip services) s.node).1
        call := some { call with
          reply := some
            (processRetain s.tenant call.req s.nodeNowS (call.chunk.zip services) s.node).2 } }
    else none
  | .reply r => do
    let call ← s.call
    if call.todo ≠ [] ∧ s.client.supported ≠ some false then s.reply call r else none
  | .fallback exist => do
    let call ← s.call
    if s.client.supported = some false then
      some { s with
        call := some { call with
          out := writeResults call.out call.todo ((List.range call.todo.length).map fun j =>
            call.req.fallback (exist.getD j (.invalid, false)).1 (exist.getD j (.invalid, false)).2)
          todo := [] } }
    else none
  | .finish => do
    let call ← s.call
    if call.todo = [] then some { s with call := none } else none
  | .remove d outcomes served =>
    if s.call.isNone then
      some
        { s with node := if served then (s.node.step outcomes (.remove (s.key d))).1 else s.node }
    else none

/-! ## Covered steps -/

/-- No key with an entry is removed at the node, and the entries that a call uses are used only
before the deadline that was granted with them. -/
def Covered (s : RetainSystem) : RetainLabel → Prop
  | .remove d _ served => served = true → s.client.find d = none
  | .retain keys req _ => ∀ d ∈ keys, s.client.skips req s.nowMs d = true → ∀ e ∈ s.client.find d,
      e.protectedAtMs + req.interval + s.nodeMs ≤ 1000 * e.deadlineS + s.nowMs
  | _ => True

/-! ## Entries -/

theorem lookup_eraseEntry {entries : List (Digest × DebounceEntry)} {d' : Digest}
    (h : (eraseEntry entries d).lookup d' = some e) : d' ≠ d ∧ entries.lookup d' = some e := by
  induction entries with
  | nil => simp [eraseEntry] at h
  | cons x entries ih =>
    simp only [eraseEntry, List.filter_cons] at h
    split at h
    case isTrue hkeep =>
      rw [List.lookup_cons] at h ⊢
      split at h
      case h_1 heq =>
        have hne : x.1 ≠ d := by simpa using hkeep
        obtain rfl : d' = x.1 := by simpa using heq
        exact ⟨hne, by simpa using h⟩
      case h_2 => exact ih h
    case isFalse hdrop =>
      obtain rfl : x.1 = d := by simpa using hdrop
      obtain ⟨hne, hrest⟩ := ih h
      refine ⟨hne, ?_⟩
      rw [List.lookup_cons]
      have hneq : (d' == x.1) = false := by simpa using hne
      rw [hneq]
      exact hrest

theorem find_setShard (c : RetainClient) (i : Nat) (entries : List (Digest × DebounceEntry))
    (d : Digest) :
    (c.setShard i entries).find d = if shardOf d = i then entries.lookup d else c.find d := by
  unfold find setShard
  dsimp only
  split <;> rfl

/-- An entry after `note` is the new one, or was there before. -/
theorem find_note {cap deadlineS : Nat} {d' : Digest} {code : RetainCode}
    (h : (c.note cap nowMs d code deadlineS).find d' = some e) :
    (d' = d ∧ code.isProtected ∧ e = { protectedAtMs := nowMs, deadlineS }) ∨
      c.find d' = some e := by
  unfold note at h
  dsimp only at h
  split at h
  case isTrue hcode =>
    generalize hentries : (if cap ≤ (c.shards (shardOf d)).length ∧ c.find d = none then []
      else c.shards (shardOf d)) = entries at h
    -- The shard is as before, or was cleared.
    have hold : shardOf d' = shardOf d → entries.lookup d' = some e → c.find d' = some e := by
      intro hshard hlookup
      rw [← hentries] at hlookup
      split at hlookup
      · cases hlookup
      · rw [find, hshard]
        exact hlookup
    split at h
    case isTrue =>
      rw [find_setShard] at h
      split at h
      case isTrue hshard =>
        rw [List.lookup_cons] at h
        split at h
        case h_1 heq => exact .inl ⟨by simpa using heq, hcode, (some.inj h).symm⟩
        case h_2 => exact .inr (hold hshard (lookup_eraseEntry h).2)
      case isFalse => exact .inr h
    case isFalse =>
      rw [find_setShard] at h
      split at h
      case isTrue hshard => exact .inr (hold hshard h)
      case isFalse => exact .inr h
  case isFalse =>
    rw [find_setShard] at h
    split at h
    case isTrue hshard =>
      right
      rw [find, hshard]
      exact (lookup_eraseEntry h).2
    case isFalse => exact .inr h

theorem find_noteAll {cap : Nat} {xs : List (Digest × RetainCode × Nat)}
    (h : (xs.foldl (fun c x => c.note cap nowMs x.1 x.2.1 x.2.2) c).find d = some e) :
    (∃ x ∈ xs, x.1 = d ∧ x.2.1.isProtected ∧ e.deadlineS = x.2.2) ∨ c.find d = some e := by
  induction xs generalizing c with
  | nil => exact .inr h
  | cons x xs ih =>
    rcases ih h with ⟨y, hy, hy'⟩ | hfound
    · exact .inl ⟨y, List.mem_cons_of_mem _ hy, hy'⟩
    · rcases find_note hfound with ⟨rfl, hcode, rfl⟩ | hold
      · exact .inl ⟨x, List.mem_cons_self, rfl, hcode, rfl⟩
      · exact .inr hold

/-! ## What the node granted -/

/-- The code and the deadline that were answered for a key are those of a protection. -/
def Granted (a : SlabAllocator) (tenant : UInt64) (nowS : Nat) (x : Digest × RetainCode
    × Nat) : Prop :=
  x.2.1.isProtected = true → nowS < x.2.2 → a.ProtectedUntil ⟨x.1.1, x.1.2, tenant⟩ x.2.2

theorem Granted.mono {b : SlabAllocator} {tenant : UInt64} {nowS' : Nat}
    {x : Digest × RetainCode × Nat} (h : Granted a tenant nowS x) (hle : nowS ≤ nowS')
    (hhonours : Honours nowS' a b) : Granted b tenant nowS' x := fun hcode hlt =>
  hhonours.protectedUntil (h hcode (hle.trans_lt hlt)) hlt

theorem serveKey_honours (h : Inv a) (key : BlockKey) (req : RetainRequest)
    (hclock : a.retention.nowS ≤ nowS) (service : RetainService) :
    Inv (serveKey a key req nowS service).1 ∧ Honours nowS a (serveKey a key req nowS service).1 ∧
      (serveKey a key req nowS service).1.retention.nowS ≤ nowS := by
  cases service with
  | missed => exact ⟨h, .refl _ _, hclock⟩
  | served recorded =>
    exact ⟨(Tuned.retain h _ _ _).inv, retain_honours h _ _ _,
      (retain_now a key _ _ _).trans_le (Nat.max_le.mpr ⟨hclock, le_rfl⟩)⟩

theorem serveKey_granted (h : Inv a) {tenant : UInt64} (service : RetainService) :
    Granted (serveKey a ⟨d.1, d.2, tenant⟩ req nowS service).1 tenant nowS
      (d, (serveKey a ⟨d.1, d.2, tenant⟩ req nowS service).2) := by
  intro hcode _
  cases service with
  | missed => exact absurd hcode (by simp [serveKey, RetainCode.isProtected])
  | served recorded =>
    simp only [serveKey] at hcode ⊢
    split at hcode
    · exact absurd hcode (by simp [RetainCode.isProtected])
    · obtain ⟨i, m, hm, hkey, hvis, hdeadline⟩ := retain_protects h _ _ _ hcode
      exact ⟨i, m, hm, hkey, hvis, hdeadline.ge⟩

theorem processRetain_granted (tenant : UInt64) (req : RetainRequest)
    (xs : List (Digest × RetainService)) : ∀ {a : SlabAllocator}, Inv a → a.retention.nowS ≤ nowS →
    Inv (processRetain tenant req nowS xs a).1 ∧
      Honours nowS a (processRetain tenant req nowS xs a).1 ∧
      (processRetain tenant req nowS xs a).1.retention.nowS ≤ nowS ∧
      ∀ x ∈ (xs.map Prod.fst).zip (processRetain tenant req nowS xs a).2,
        Granted (processRetain tenant req nowS xs a).1 tenant nowS x := by
  induction xs with
  | nil => exact fun h hclock => ⟨h, .refl _ _, hclock, by simp⟩
  | cons x xs ih =>
    intro a h hclock
    obtain ⟨hinv, hhonours, hclock'⟩ := serveKey_honours h ⟨x.1.1, x.1.2, tenant⟩ req hclock x.2
    obtain ⟨hinvEnd, hhonoursEnd, hclockEnd, hgranted⟩ := ih hinv hclock'
    refine ⟨hinvEnd, hhonours.trans hhonoursEnd, hclockEnd, fun y hy => ?_⟩
    simp only [processRetain, List.map_cons, List.zip_cons_cons, List.mem_cons] at hy
    rcases hy with rfl | hy
    · exact (serveKey_granted h x.2).mono le_rfl hhonoursEnd
    · exact hgranted y hy

/-! ## The invariant -/

/-- The entries, and the replies that are on their way, are of protected keys as long as their
deadlines are to come. -/
structure RetainSystem.Inv (s : RetainSystem) : Prop where
  node : Slab.Inv s.node
  clock : s.node.retention.nowS ≤ s.nodeNowS
  entries : ∀ d e, s.client.find d = some e → s.nodeNowS < e.deadlineS →
    s.node.ProtectedUntil (s.key d) e.deadlineS
  reply : ∀ call codes, s.call = some call → call.reply = some codes →
    ∀ x ∈ call.chunk.zip codes, Granted s.node s.tenant s.nodeNowS x

theorem RetainSystem.Inv.mono {s s' : RetainSystem} (h : s.Inv) (hnode : Slab.Inv s'.node)
    (hclock : s'.node.retention.nowS ≤ s'.nodeNowS) (hle : s.nodeNowS ≤ s'.nodeNowS)
    (hhonours : Honours s'.nodeNowS s.node s'.node) (htenant : s'.tenant = s.tenant)
    (hclient : s'.client = s.client) (hcall : s'.call = s.call) : s'.Inv where
  node := hnode
  clock := hclock
  entries := fun d e he hlt => by
    rw [hclient] at he
    have hp := hhonours.protectedUntil (h.entries d e he (hle.trans_lt hlt)) hlt
    rwa [RetainSystem.key, htenant]
  reply := fun call codes hc hcodes x hx => by
    rw [hcall] at hc
    rw [htenant]
    exact (h.reply call codes hc hcodes x hx).mono hle hhonours

section Steps

variable {s s' : RetainSystem}

/-- The client gets a reply: the new entries are those of keys that the node just protected. -/
theorem reply_inv (h : s.Inv) {call : RetainCall} (hcall : s.call = some call) {r : RetainReply}
    (hstep : s.reply call r = some s') : s'.Inv := by
  cases r with
  | ok =>
    obtain ⟨codes, hcodes, hstep⟩ := bind_eq_some_iff.mp hstep
    cases hstep
    refine ⟨h.node, h.clock, fun d e he hlt => ?_, fun call' codes' hc hcodes' => ?_⟩
    · rcases find_noteAll he with ⟨x, hx, rfl, hcode, hdeadline⟩ | hold
      · rw [hdeadline] at hlt ⊢
        exact h.reply call codes hcall hcodes x hx hcode hlt
      · exact h.entries d e hold hlt
    · cases hc
      exact absurd hcodes' (by simp [RetainCall.advance])
  | invalid =>
    cases hstep
    refine ⟨h.node, h.clock, h.entries, fun call' codes' hc hcodes' => ?_⟩
    cases hc
    cases hcodes'
  | failed =>
    cases hstep
    refine ⟨h.node, h.clock, h.entries, fun call' codes' hc hcodes' => ?_⟩
    cases hc
    exact absurd hcodes' (by simp [RetainCall.advance])

theorem serve_inv (h : s.Inv) {call : RetainCall} {services : List RetainService}
    (hlength : services.length = call.chunk.length) :
    RetainSystem.Inv { s with
      node := (processRetain s.tenant call.req s.nodeNowS (call.chunk.zip services) s.node).1
      call := some { call with
        reply := some
          (processRetain s.tenant call.req s.nodeNowS (call.chunk.zip services) s.node).2 } } := by
  obtain ⟨hinv, hhonours, hclock, hgranted⟩ :=
    processRetain_granted s.tenant call.req (call.chunk.zip services) h.node h.clock
  rw [List.map_fst_zip (by omega)] at hgranted
  refine ⟨hinv, hclock, fun d e he hlt => ?_, fun call' codes hc hcodes => ?_⟩
  · exact hhonours.protectedUntil (h.entries d e he hlt) hlt
  · cases hc
    cases hcodes
    exact hgranted

theorem remove_inv (h : s.Inv) (hcall : s.call = none) (hfind : s.client.find d = none)
    (outcomes : List Bool) :
    RetainSystem.Inv { s with node := (s.node.step outcomes (.remove (s.key d))).1 } := by
  refine ⟨(step_spec h.node outcomes _).inv, (remove_now h.node outcomes _).trans_le h.clock,
    fun d' e he hlt => ?_, fun call codes hc => absurd (hcall.symm.trans hc) (by simp)⟩
  refine ProtectedUntil.remove h.node (h.entries d' e he hlt) (fun hkey => ?_) outcomes
  -- Two keys of the client with one block key have one digest.
  have hd : d' = d := by
    injection hkey with h1 h2
    exact Prod.ext h1 h2
  rw [hd, hfind] at he
  cases he

theorem step_inv {l : RetainLabel} (h : s.Inv) (hcovered : Covered s l)
    (hstep : s.step l = some s') : s'.Inv := by
  cases l with
  | tick d =>
    cases hstep
    have hle : s.nodeNowS ≤ (s.nodeMs + d) / 1000 := Nat.div_le_div_right (Nat.le_add_right _ _)
    exact h.mono h.node (h.clock.trans hle) hle (.refl _ _) rfl rfl rfl
  | node outcomes op =>
    obtain ⟨⟨hop, hclock⟩, hstep⟩ := ite_none_right_eq_some.mp hstep
    cases hstep
    obtain ⟨hhonours, hnow⟩ := step_honours h.node outcomes hop h.clock hclock
    exact h.mono (step_spec h.node outcomes op).inv hnow le_rfl hhonours rfl rfl rfl
  | retain keys req reachable =>
    obtain ⟨-, hstep⟩ := ite_none_right_eq_some.mp hstep
    cases hstep
    refine ⟨h.node, h.clock, h.entries, fun call codes hc hcodes => ?_⟩
    cases hc
    exact absurd hcodes (by simp [batchRetain])
  | serve services =>
    obtain ⟨call, -, hstep⟩ := bind_eq_some_iff.mp hstep
    obtain ⟨⟨-, -, -, hlength⟩, hstep⟩ := ite_none_right_eq_some.mp hstep
    cases hstep
    exact serve_inv h hlength
  | reply r =>
    obtain ⟨call, hcall, hstep⟩ := bind_eq_some_iff.mp hstep
    obtain ⟨-, hstep⟩ := ite_none_right_eq_some.mp hstep
    exact reply_inv h hcall hstep
  | fallback exist =>
    obtain ⟨call, -, hstep⟩ := bind_eq_some_iff.mp hstep
    obtain ⟨-, hstep⟩ := ite_none_right_eq_some.mp hstep
    cases hstep
    refine ⟨h.node, h.clock, h.entries, fun call' codes hc _ x hx => ?_⟩
    cases hc
    exact absurd hx (by simp [RetainCall.chunk])
  | finish =>
    obtain ⟨call, -, hstep⟩ := bind_eq_some_iff.mp hstep
    obtain ⟨-, hstep⟩ := ite_none_right_eq_some.mp hstep
    cases hstep
    exact ⟨h.node, h.clock, h.entries, fun call codes hc => absurd hc (by simp)⟩
  | remove d outcomes served =>
    obtain ⟨hnone, hstep⟩ := ite_none_right_eq_some.mp hstep
    cases hstep
    have hcall : s.call = none := by simpa using hnone
    cases served with
    | false => exact ⟨h.node, h.clock, h.entries, h.reply⟩
    | true => exact remove_inv h hcall (hcovered rfl) outcomes

/-! ## Runs -/

/-- A new client, and a node with any history. -/
structure RetainSystem.Start (s : RetainSystem) : Prop where
  node : ∃ o, SlabAllocator.Reachable o s.node
  clock : s.node.retention.nowS ≤ s.nodeNowS
  client : ∀ d, s.client.find d = none
  call : s.call = none

theorem RetainSystem.Start.inv (h : s.Start) : s.Inv := by
  obtain ⟨o, hnode⟩ := h.node
  refine ⟨hnode.inv, h.clock, fun d e he => ?_, fun call codes hc => ?_⟩
  · cases (h.client d).symm.trans he
  · cases h.call.symm.trans hc

/-- The key is stored at its owner, and its deadline has not passed. -/
def RetainSystem.Protects (s : RetainSystem) (d : Digest) : Prop :=
  ∃ m, s.node.lookup (s.key d) = some m ∧ m.removePending = false ∧ s.nodeNowS < m.retainUntil

/-- The window of an entry ends before the deadline that was granted with it. -/
def DebounceEntry.Within (e : DebounceEntry) (s : RetainSystem) (req : RetainRequest) : Prop :=
  e.protectedAtMs + req.interval + s.nodeMs ≤ 1000 * e.deadlineS + s.nowMs

theorem exists_of_skips (h : c.skips req nowMs d) :
    ∃ e, c.find d = some e ∧ nowMs - e.protectedAtMs < req.interval := by
  simp only [skips, Bool.and_eq_true, any_eq_true, decide_eq_true_eq] at h
  exact h.2

theorem RetainSystem.Inv.protects (h : s.Inv) (hskips : s.client.skips req s.nowMs d)
    (hwithin : ∀ e ∈ s.client.find d, e.Within s req) : s.Protects d := by
  obtain ⟨e, he, hage⟩ := exists_of_skips hskips
  have hwindow : e.protectedAtMs + req.interval + s.nodeMs ≤ 1000 * e.deadlineS + s.nowMs :=
    hwithin e he
  have hnow : s.nodeNowS < e.deadlineS := by
    rw [RetainSystem.nodeNowS, Nat.div_lt_iff_lt_mul (by omega)]
    omega
  obtain ⟨m, hm, hvis, hle⟩ := ProtectedUntil.lookup h.node (h.entries d e he hnow)
  exact ⟨m, hm, hvis, hnow.trans_le hle⟩

/-- The window ends before the deadline exactly if the entry is not used after it. -/
theorem within_iff (he : s.client.find d = some e) (hskips : s.client.skips req s.nowMs d) :
    e.Within s req ↔ ∀ t, s.client.skips req (s.nowMs + t) d →
      (s.nodeMs + t) / 1000 < e.deadlineS := by
  have hdebounce : req.debounce := by
    simp only [skips, Bool.and_eq_true] at hskips
    exact hskips.1
  have hiff : ∀ now, s.client.skips req now d ↔ now - e.protectedAtMs < req.interval := by
    intro now
    simp [skips, hdebounce, he]
  simp only [hiff] at hskips ⊢
  unfold DebounceEntry.Within
  constructor
  · intro hwithin t ht
    rw [Nat.div_lt_iff_lt_mul (by omega)]
    omega
  · intro hall
    -- The last moment of the window.
    have hlast := hall (e.protectedAtMs + req.interval - 1 - s.nowMs) (by omega)
    rw [Nat.div_lt_iff_lt_mul (by omega)] at hlast
    omega

/-- In every run of covered steps a `REFRESH` that is answered from an entry is that of a stored key
whose deadline has not passed; and the window of an entry is what decides for how long. -/
theorem debounced_refresh_tells_truth {labels : List RetainLabel} {keys : List Digest}
    {req : RetainRequest} {reachable : Bool} {s'' : RetainSystem} (hstart : s.Start)
    (hmeets : Meets RetainSystem.step Covered s labels)
    (hrun : run RetainSystem.step s labels = some s')
    (hcovered : Covered s' (.retain keys req reachable))
    (hstep : s'.step (.retain keys req reachable) = some s'') :
    (∀ call, s''.call = some call → ∀ (i : Nat) (d : Digest), keys[i]? = some d →
      call.out[i]? = some .skippedDebounce → s''.Protects d) ∧
    ∀ d e, s'.client.find d = some e → s'.client.skips req s'.nowMs d = true →
      (e.Within s' req ↔ ∀ t, s'.client.skips req (s'.nowMs + t) d = true →
        (s'.nodeMs + t) / 1000 < e.deadlineS) := by
  have hinv : s'.Inv := run_invariant (fun _ _ _ h hC hl => step_inv h hC hl) hstart.inv hmeets hrun
  refine ⟨fun call hcall i d hd hout => ?_, fun d e he hskips => within_iff he hskips⟩
  obtain ⟨-, hstep⟩ := Option.ite_none_right_eq_some.mp hstep
  cases hstep
  cases hcall
  -- Only an entry answers `kRetSkippedDebounce` before the first request.
  have hskips : s'.client.skips req s'.nowMs d = true := by
    by_contra hno
    simp [RetainClient.batchRetain, hd, hno] at hout
  exact hinv.protects hskips (hcovered d (List.mem_of_getElem? hd) hskips)

def smallNode : RetainSystem where
  cap := 4
  node := ((SlabAllocator.new { extentBytes := 16, numExtents := 1, align := 4 }).step []
    (.configureRetention
      { enabled := true, budgetBytes := 16, maxTtlS := 60, classPct := 100 } 0)).1

/-- A value is put, and protected for a minute. -/
def protectOne : List RetainLabel :=
  [.node [] (.put ⟨1, 2, 0⟩ 3), .retain [(1, 2)] { ttlS := 60 } true, .serve [.served true],
    .reply .ok, .finish]

/-- A `REFRESH` with the same TTL. -/
def refreshOne : RetainLabel := .retain [(1, 2)] { ttlS := 60, mode := .refresh } true

/-- A `REFRESH` after a second. -/
theorem debounced_refresh_after_set :
    ∃ s' s'', run RetainSystem.step smallNode (protectOne ++ [.tick 1000]) = some s' ∧
      s'.step refreshOne = some s'' ∧ s''.Protects (1, 2) := by
  have hstart : smallNode.Start :=
    ⟨⟨_, .step [] _ .new⟩, by decide +kernel, fun d => rfl, rfl⟩
  -- A `SET` is never answered from an entry.
  have hset : ∀ s, Covered s (.retain [(1, 2)] { ttlS := 60 } true) := fun s d _ hskips =>
    absurd hskips (by simp [RetainClient.skips, RetainRequest.debounce])
  have hmeets : Meets RetainSystem.step Covered smallNode (protectOne ++ [.tick 1000]) :=
    ⟨trivial, fun s _ => ⟨hset s, fun _ _ => ⟨trivial, fun _ _ => ⟨trivial, fun _ _ =>
      ⟨trivial, fun _ _ => ⟨trivial, fun _ _ => trivial⟩⟩⟩⟩⟩⟩
  have hdata : ((run RetainSystem.step smallNode (protectOne ++ [.tick 1000])).map fun s =>
      (s.client.find (1, 2), s.nowMs, s.nodeMs)) = some (some ⟨0, 60⟩, 1000, 1000) := by
    decide +kernel
  have hout : ((run RetainSystem.step smallNode (protectOne ++ [.tick 1000])).bind fun s =>
      (s.step refreshOne).bind fun s => s.call.map RetainCall.out) = some [.skippedDebounce] := by
    decide +kernel
  obtain ⟨s', hrun, hout⟩ := Option.bind_eq_some_iff.mp hout
  obtain ⟨s'', hstep, hout⟩ := Option.bind_eq_some_iff.mp hout
  obtain ⟨call, hcall, hout⟩ := Option.map_eq_some_iff.mp hout
  have hcovered : Covered s' refreshOne := by
    rw [hrun] at hdata
    have hdata := Option.some.inj hdata
    simp only [Prod.mk.injEq] at hdata
    intro d hd _ e he
    obtain rfl := List.mem_singleton.mp hd
    cases hdata.1.symm.trans he
    rw [hdata.2.1, hdata.2.2]
    decide
  refine ⟨s', s'', hrun, hstep, ?_⟩
  exact (debounced_refresh_tells_truth hstart hmeets hrun hcovered hstep).1 call hcall 0 (1, 2) rfl
    (by rw [hout]; rfl)

/-- After a `Remove` the client still answers from the entry. -/
theorem debounced_refresh_after_remove :
    ∃ s' call, run RetainSystem.step smallNode
        (protectOne ++ [.remove (1, 2) [] true, refreshOne]) = some s' ∧
      s'.call = some call ∧ call.out = [.skippedDebounce] ∧ s'.node.lookup (s'.key (1, 2)) =
        none := by
  have hall : ((run RetainSystem.step smallNode (protectOne ++ [.remove (1, 2) [] true,
      refreshOne])).bind fun s => s.call.map fun call =>
        (call.out, s.node.index.find (s.key (1, 2)))) = some ([.skippedDebounce], none) := by
    decide +kernel
  obtain ⟨s', hrun, hall⟩ := Option.bind_eq_some_iff.mp hall
  obtain ⟨call, hcall, hall⟩ := Option.map_eq_some_iff.mp hall
  exact ⟨s', call, hrun, hcall, congrArg Prod.fst hall,
    SlabAllocator.lookup_eq_none.mpr (congrArg Prod.snd hall)⟩

end Steps

end DingoCache.Client
