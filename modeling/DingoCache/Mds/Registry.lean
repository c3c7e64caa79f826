import DingoCache.Mds.Codec
import DingoCache.Store.Model

/-!
# The Member Registry

`src/mds/mds_server.cc` and `src/mds/mds_proto.h`: nodes and clients register under a
key of their group in etcd, and `ListMembers` answers the members of a group.  Several
servers may share one etcd; which leases a server remembers only decides which of two
writes of the same value it makes, so the memory of leases is an input.
-/

namespace DingoCache.Mds

open Library Store List

variable {group g : ByteString} {e : Etcd} {m : MemberInfo}

/-! ## Requests -/

def encodeMemberReq (group : ByteString) (m : MemberInfo) : ByteString :=
  putString group ++ encodeMembers [m] 0

def decodeMemberReq (bs : ByteString) : Option (ByteString × MemberInfo) := do
  let (group, bs) ← readString bs
  let (ms, _) ← decodeMembers bs
  match ms with
  | [m] => some (group, m)
  | _ => none

/-! ## Keys -/

def lit (s : String) : ByteString := s.toList.map fun c => UInt8.ofNat c.toNat

/-- The characters of `IsValidGroupOrId`. -/
def isNameChar (c : UInt8) : Bool :=
  (65 ≤ c && c ≤ 90) || (97 ≤ c && c ≤ 122) || (48 ≤ c && c ≤ 57) || c == 46 || c == 95 || c == 45

def isValidGroupOrId (s : ByteString) : Bool :=
  !s.isEmpty && s.length ≤ 128 && s.all isNameChar

def membersPrefix (group : ByteString) : ByteString :=
  lit "/dfkv/v1/groups/" ++ (group ++ lit "/members/")

def clientsPrefix (group : ByteString) : ByteString :=
  lit "/dfkv/v1/groups/" ++ (group ++ lit "/clients/")

def memberKey (group id : ByteString) : ByteString := membersPrefix group ++ id

def clientKey (group id : ByteString) : ByteString := clientsPrefix group ++ id

/-! ## The server -/

abbrev Etcd := AList fun _ : ByteString => ByteString

def rangePrefix (e : Etcd) (p : ByteString) : List (ByteString × ByteString) :=
  sortBy (fun a b => decide (a.1 < b.1))
    ((e.entries.map fun kv => (kv.1, kv.2)).filter fun kv => p.isPrefixOf kv.1)

/-- How a `Put` ends: answered, applied without an answer, or not applied. -/
inductive PutReply where
  | acked
  | lost
  | failed
deriving DecidableEq

/-- What one `UpsertLeased` meets: whether the server remembers a lease for the key, and the replies
of etcd. -/
structure Replies where
  remembered : Bool
  keepAlive : Bool
  refresh : PutReply
  grant : Bool
  store : PutReply
deriving DecidableEq

def Etcd.put (e : Etcd) (key val : ByteString) : PutReply → Etcd
  | .failed => e
  | _ => e.insert key val

/-- `UpsertLeased`: refresh the remembered lease and put the value again, or grant a lease and put
it under that. -/
def upsertLeased (e : Etcd) (key : ByteString) (m : MemberInfo) (r : Replies) : Etcd × Status :=
  let val := encodeMembers [m] 0
  let fast := r.remembered && r.keepAlive
  let e1 := if fast then e.put key val r.refresh else e
  if fast && r.refresh == .acked then (e1, .ok)
  else if !r.grant then (e1, .ioError)
  else (e1.put key val r.store, if r.store = .acked then .ok else .ioError)

/-- `Upsert` and `UpsertClient`, which differ in the key. -/
def upsertAt (key : ByteString → ByteString → ByteString) (e : Etcd) (group : ByteString)
    (m : MemberInfo) (r : Replies) : Etcd × Status :=
  if !isValidGroupOrId group || !isValidGroupOrId m.id then (e, .invalid)
  else upsertLeased e (key group m.id) m r

def upsert : Etcd → ByteString → MemberInfo → Replies → Etcd × Status := upsertAt memberKey

def upsertClient : Etcd → ByteString → MemberInfo → Replies → Etcd × Status := upsertAt clientKey

/-- The operations of `WireOp` that write. -/
inductive WriteOp where
  | register
  | heartbeat
  | clientRegister
  | clientHeartbeat
deriving DecidableEq

def WriteOp.member : WriteOp → Bool
  | .register | .heartbeat => true
  | .clientRegister | .clientHeartbeat => false

def kMdsMaxReqPayload : Nat := 2 ^ 20

/-- What `Handle` does with one write. There is no answer to a payload over the limit: the
connection is closed. -/
def handle (e : Etcd) (op : WriteOp) (payload : ByteString) (r : Replies) : Etcd × Option Status :=
  if payload.length > kMdsMaxReqPayload then (e, none)
  else
    match decodeMemberReq payload with
    | none => (e, some .invalid)
    | some (group, m) =>
      (if op.member then upsert e group m r else upsertClient e group m r).map id some

/-- What changes etcd: a request, or the end of a lease. -/
inductive Event where
  | request (op : WriteOp) (payload : ByteString) (r : Replies)
  | expire (key : ByteString)
deriving DecidableEq

def step (e : Etcd) : Event → Etcd
  | .request op payload r => (handle e op payload r).1
  | .expire key => e.erase key

def runEvents (e : Etcd) (events : List Event) : Etcd := events.foldl step e

/-- The members of a group that `ListMembers` answers. -/
def listedMembers (e : Etcd) (group : ByteString) (includeDegraded : Bool) : List MemberInfo :=
  (rangePrefix e (membersPrefix group)).filterMap fun kv =>
    match decodeMembers kv.2 with
    | some ([m], _) => if includeDegraded || m.ringEligible then some m else none
    | _ => none

/-- `ListMembers`, of a server that reaches etcd. -/
def listMembers (e : Etcd) (group : ByteString) (includeDegraded : Bool) :
    Except Status ByteString :=
  if !isValidGroupOrId group then .error .invalid
  else
    let members := listedMembers e group includeDegraded
    let epoch := if includeDegraded then membersTopologyEpoch members else membersEpoch members
    .ok (encodeMembers members epoch)

/-! ## Keys tell groups and kinds apart -/

theorem slash_notMem_of_valid {s : ByteString} (h : isValidGroupOrId s) : (47 : UInt8) ∉ s := by
  intro hmem
  simp only [isValidGroupOrId, Bool.and_eq_true, all_eq_true] at h
  exact absurd (h.2 47 hmem) (by decide)

theorem cut_at_slash {x y s t : ByteString} (hx : (47 : UInt8) ∉ x) (hy : (47 : UInt8) ∉ y)
    (h : x ++ 47 :: s = y ++ 47 :: t) : x = y ∧ s = t := by
  induction x generalizing y with
  | nil =>
    cases y with
    | nil => exact ⟨rfl, (cons.inj h).2⟩
    | cons c y => exact absurd ((cons.inj h).1 ▸ mem_cons_self) hy
  | cons b x ih =>
    cases y with
    | nil => exact absurd ((cons.inj h).1 ▸ mem_cons_self) hx
    | cons c y =>
      obtain ⟨rfl, htail⟩ := cons.inj h
      obtain ⟨rfl, hst⟩ := ih (fun hm => hx (mem_cons_of_mem b hm))
        (fun hm => hy (mem_cons_of_mem b hm)) htail
      exact ⟨rfl, hst⟩

theorem memberKey_group {id : ByteString} (hgroup : isValidGroupOrId group)
    (hg : isValidGroupOrId g) (h : membersPrefix group <+: memberKey g id) : g = group := by
  obtain ⟨t, ht⟩ := h
  simp only [memberKey, membersPrefix, append_assoc] at ht
  have hcut : group ++ 47 :: (lit "members/" ++ t) = g ++ 47 :: (lit "members/" ++ id) :=
    append_cancel_left ht
  exact (cut_at_slash (slash_notMem_of_valid hgroup) (slash_notMem_of_valid hg) hcut).1.symm

theorem clientKey_apart {id : ByteString} (hgroup : isValidGroupOrId group)
    (hg : isValidGroupOrId g) : ¬membersPrefix group <+: clientKey g id := by
  rintro ⟨t, ht⟩
  simp only [clientKey, clientsPrefix, membersPrefix, append_assoc] at ht
  have hcut : group ++ 47 :: (109 :: (lit "embers/" ++ t)) =
    g ++ 47 :: (99 :: (lit "lients/" ++ id)) :=
    append_cancel_left ht
  have hrest := (cut_at_slash (slash_notMem_of_valid hgroup) (slash_notMem_of_valid hg) hcut).2
  -- The two prefixes differ in the byte behind the slash.
  exact absurd (cons.inj hrest).1 (by decide)

theorem memberKey_inj {id id' : ByteString} (hgroup : isValidGroupOrId group)
    (hg : isValidGroupOrId g) (h : memberKey g id = memberKey group id') :
    g = group ∧ id = id' := by
  have hpre : membersPrefix group <+: memberKey g id := ⟨id', h.symm⟩
  obtain rfl := memberKey_group hgroup hg hpre
  exact ⟨rfl, append_cancel_left h⟩

/-! ## What etcd holds -/

def Inv (e : Etcd) : Prop :=
  ∀ key val, e.lookup key = some val → ∃ g m, isValidGroupOrId g = true ∧
    MemberInfo.Decoded m ∧ val = encodeMembers [m] 0 ∧
    (key = memberKey g m.id ∨ key = clientKey g m.id)

theorem inv_empty : Inv ∅ := fun key val h => absurd h (by simp)

theorem lookup_put (e : Etcd) (key val k : ByteString) (r : PutReply) :
    (e.put key val r).lookup k = e.lookup k ∨
      (k = key ∧ (e.put key val r).lookup k = some val) := by
  have hinsert : (e.insert key val).lookup k = e.lookup k ∨
      (k = key ∧ (e.insert key val).lookup k = some val) := by
    by_cases hk : k = key
    · exact .inr ⟨hk, by rw [hk, AList.lookup_insert]⟩
    · exact .inl (AList.lookup_insert_ne hk)
  cases r with
  | failed => exact .inl rfl
  | acked => exact hinsert
  | lost => exact hinsert

theorem lookup_put_acked (e : Etcd) (key val : ByteString) :
    (e.put key val .acked).lookup key = some val := AList.lookup_insert e

theorem lookup_upsertLeased (e : Etcd) (key : ByteString) (m : MemberInfo) (r : Replies)
    (k : ByteString) :
    (upsertLeased e key m r).1.lookup k = e.lookup k ∨
      (k = key ∧ (upsertLeased e key m r).1.lookup k = some (encodeMembers [m] 0)) := by
  unfold upsertLeased
  generalize hfast : (r.remembered && r.keepAlive) = fast
  -- The first write, if there is one.
  have hfirst : (if fast then e.put key (encodeMembers [m] 0) r.refresh else e).lookup k =
      e.lookup k ∨ (k = key ∧ (if fast then e.put key (encodeMembers [m] 0) r.refresh
        else e).lookup k = some (encodeMembers [m] 0)) := by
    split
    · exact lookup_put e key _ k r.refresh
    · exact .inl rfl
  dsimp only
  split
  · exact hfirst
  split
  · exact hfirst
  · -- The second write is to the same key.
    rcases lookup_put (if fast then e.put key (encodeMembers [m] 0) r.refresh else e) key
      (encodeMembers [m] 0) k r.store with h | h
    · rw [h]
      exact hfirst
    · exact .inr h

/-- `UpsertLeased` answers `kOk` only when its value is stored. -/
theorem upsertLeased_ok {key : ByteString} {r : Replies} (h : (upsertLeased e key m r).2 = .ok) :
    (upsertLeased e key m r).1.lookup key = some (encodeMembers [m] 0) := by
  unfold upsertLeased at h ⊢
  generalize hfast : (r.remembered && r.keepAlive) = fast at h ⊢
  dsimp only at h ⊢
  split at h
  · next hc =>
    obtain ⟨rfl, hack⟩ := Bool.and_eq_true_iff.mp hc
    rw [if_pos hc, if_pos rfl, eq_of_beq hack]
    exact lookup_put_acked e key _
  · next hc =>
    rw [if_neg hc]
    split at h
    · cases h
    · next hg =>
      rw [if_neg hg]
      have hstore : r.store = .acked := by
        by_contra hne
        exact absurd h (by simp [hne])
      rw [hstore]
      exact lookup_put_acked _ key _

/-- What a request means: the key it writes and the member it writes there. -/
def written (op : WriteOp) (payload : ByteString) : Option (ByteString × MemberInfo) := do
  let (group, m) ← decodeMemberReq payload
  if payload.length ≤ kMdsMaxReqPayload ∧ isValidGroupOrId group = true ∧
      isValidGroupOrId m.id = true then
    some (if op.member then memberKey group m.id else clientKey group m.id, m)
  else none

/-- A request is one `UpsertLeased` of what it means, or changes nothing. -/
theorem handle_cases (e : Etcd) (op : WriteOp) (payload : ByteString) (r : Replies) :
    (written op payload = none ∧ (handle e op payload r).1 = e ∧
      (handle e op payload r).2 ≠ some .ok) ∨
    ∃ key m, written op payload = some (key, m) ∧
      handle e op payload r = (upsertLeased e key m r).map id some := by
  unfold handle written
  by_cases hlen : payload.length > kMdsMaxReqPayload
  · left
    rw [if_pos hlen]
    refine ⟨?_, rfl, by simp⟩
    cases decodeMemberReq payload with
    | none => rfl
    | some q => simp [Nat.not_le.mpr hlen]
  · rw [if_neg hlen]
    cases decodeMemberReq payload with
    | none => exact .inl ⟨rfl, rfl, by simp⟩
    | some q =>
      obtain ⟨group, m⟩ := q
      have hle := Nat.not_lt.mp hlen
      by_cases hv : isValidGroupOrId group ∧ isValidGroupOrId m.id
      · right
        obtain ⟨hg, hid⟩ := hv
        refine ⟨if op.member then memberKey group m.id else clientKey group m.id, m, ?_, ?_⟩
        · simp [hle, hg, hid]
        · cases op.member <;> simp [upsert, upsertClient, upsertAt, hg, hid]
      · left
        have hcond : (!isValidGroupOrId group || !isValidGroupOrId m.id) := by
          by_contra hne
          exact hv (by simpa [not_or] using hne)
        have hno : ¬(payload.length ≤ kMdsMaxReqPayload ∧ isValidGroupOrId group ∧
            isValidGroupOrId m.id) := fun h => hv h.2
        simp only [Option.bind_eq_bind, Option.bind_some, if_neg hno, true_and]
        cases op.member <;> simp [upsert, upsertClient, upsertAt, hcond]

theorem decodeMemberReq_decoded {bs : ByteString} (h : decodeMemberReq bs = some (group, m)) :
    m.Decoded := by
  obtain ⟨⟨g, bs'⟩, -, h⟩ := Option.bind_eq_some_iff.mp h
  obtain ⟨⟨ms, epoch⟩, hms, h⟩ := Option.bind_eq_some_iff.mp h
  dsimp only at h
  split at h
  · next m' =>
    obtain ⟨-, rfl⟩ := Prod.mk.inj (Option.some.inj h)
    exact decodeMembers_decoded hms m' mem_cons_self
  · cases h

theorem written_spec {op : WriteOp} {payload key : ByteString}
    (h : written op payload = some (key, m)) :
    ∃ group, decodeMemberReq payload = some (group, m) ∧ isValidGroupOrId group ∧
      isValidGroupOrId m.id ∧
      key = if op.member then memberKey group m.id else clientKey group m.id := by
  obtain ⟨⟨group, m'⟩, hreq, h⟩ := Option.bind_eq_some_iff.mp h
  dsimp only at h
  split at h
  · next hc =>
    cases h
    exact ⟨group, hreq, hc.2.1, hc.2.2, rfl⟩
  · cases h

theorem Inv.step (h : Inv e) (ev : Event) : Inv (step e ev) := by
  intro k val hk
  cases ev with
  | expire key =>
    by_cases hkey : k = key
    · rw [Mds.step, hkey, AList.lookup_erase] at hk
      cases hk
    · exact h k val ((AList.lookup_erase_ne hkey).symm.trans hk)
  | request op payload r =>
    rcases handle_cases e op payload r with ⟨-, he, -⟩ | ⟨key, m, hw, he⟩
    · exact h k val (he ▸ hk)
    · have hk' : (upsertLeased e key m r).1.lookup k = some val := by
        rw [Mds.step, he] at hk
        exact hk
      rcases lookup_upsertLeased e key m r k with hsame | ⟨rfl, hnew⟩
      · exact h k val (hsame.symm.trans hk')
      · obtain ⟨group, hreq, hg, -, hkey⟩ := written_spec hw
        refine ⟨group, m, hg, decodeMemberReq_decoded hreq, ?_, ?_⟩
        · exact Option.some.inj (hk'.symm.trans hnew)
        · cases hop : op.member <;> simp [hop] at hkey
          · exact .inr hkey
          · exact .inl hkey

theorem Inv.runEvents (h : Inv e) (events : List Event) : Inv (runEvents e events) := by
  induction events generalizing e with
  | nil => exact h
  | cons ev events ih => exact ih (h.step ev)

/-! ## One member along a run -/

def Event.Reports (group id : ByteString) : Event → Prop
  | .request op payload _ => op.member = true ∧
      ∃ m, decodeMemberReq payload = some (group, m) ∧ m.id = id
  | .expire _ => False

/-- An event that is no report of the node leaves its value or deletes it. -/
theorem step_lookup {id : ByteString} (hgroup : isValidGroupOrId group) {ev : Event}
    (hev : ¬ev.Reports group id) :
    (step e ev).lookup (memberKey group id) = e.lookup (memberKey group id) ∨
      (step e ev).lookup (memberKey group id) = none := by
  cases ev with
  | expire key =>
    by_cases hkey : memberKey group id = key
    · exact .inr (by rw [step, hkey, AList.lookup_erase])
    · exact .inl (AList.lookup_erase_ne hkey)
  | request op payload r =>
    rw [step]
    rcases handle_cases e op payload r with ⟨-, he, -⟩ | ⟨key, m, hw, he⟩
    · exact .inl (by rw [he])
    · rw [he]
      rcases lookup_upsertLeased e key m r (memberKey group id) with hsame | ⟨hkey, -⟩
      · exact .inl hsame
      · -- The request writes the key of the node, so it is a report of the node.
        obtain ⟨g, hreq, hg, -, hw⟩ := written_spec hw
        rw [← hkey] at hw
        cases hop : op.member with
        | true =>
          rw [hop, if_pos rfl] at hw
          obtain ⟨rfl, hid⟩ := memberKey_inj hg hgroup hw
          exact absurd ⟨hop, m, hreq, hid.symm⟩ hev
        | false =>
          rw [hop, if_neg (by simp)] at hw
          exact absurd ⟨id, hw⟩ (clientKey_apart hgroup hg)

theorem run_lookup {id val : ByteString} (hgroup : isValidGroupOrId group)
    {events : List Event} (hev : ∀ ev ∈ events, ¬ev.Reports group id)
    (h : e.lookup (memberKey group id) = some val ∨ e.lookup (memberKey group id) = none) :
    (runEvents e events).lookup (memberKey group id) = some val ∨
      (runEvents e events).lookup (memberKey group id) = none := by
  induction events generalizing e with
  | nil => exact h
  | cons ev events ih =>
    refine ih (fun ev' hev' => hev ev' (mem_cons_of_mem ev hev')) ?_
    rcases step_lookup (e := e) hgroup (hev ev mem_cons_self) with hs | hs
    · rw [hs]
      exact h
    · exact .inr hs

/-- What a node's member has become when the server has read the request. -/
def MemberInfo.arrived (m : MemberInfo) : MemberInfo :=
  if m.ReportFits then m.carried else m.unreported

open MemberInfo

theorem received_singleton (m : MemberInfo) : received [m] = [m.arrived] := by
  by_cases h : m.ReportFits
  · rw [received_cons_fits h, arrived, if_pos h]
    rfl
  · rw [received_cons_over h, arrived, if_neg h]
    rfl

theorem sized_singleton (h : m.Sized) : Sized [m] :=
  ⟨by simp, by simpa using h⟩

theorem decodeMemberReq_encode (hgroup : group.length < 2 ^ 32) (hm : m.Sized) :
    decodeMemberReq (encodeMemberReq group m) = some (group, m.arrived) := by
  simp [decodeMemberReq, encodeMemberReq, readString_put hgroup, decodeMembers_encodeMembers
    (sized_singleton hm), received_singleton]

theorem arrived_id (m : MemberInfo) : m.arrived.id = m.id := by
  unfold arrived
  split <;> rfl

theorem arrived_ringEligible (h : m.ringEligible = false) :
    m.arrived.ringEligible = false ↔ m.ReportFits := by
  unfold arrived
  split
  · next hf => exact iff_of_true (m.same_carried.eligible.trans h) hf
  · next hf => exact iff_of_false (by simp [ringEligible, unreported]) hf

/-! ## What is listed -/

/-- Some view of the group lists the id as an eligible member. -/
def ListedEligible (e : Etcd) (group id : ByteString) : Prop :=
  ∃ includeDegraded out ms epoch m, listMembers e group includeDegraded = .ok out ∧
    decodeMembers out = some (ms, epoch) ∧ m ∈ ms ∧ m.id = id ∧ m.ringEligible = true

theorem mem_rangePrefix {p : ByteString} {kv : ByteString × ByteString} :
    kv ∈ rangePrefix e p ↔ e.lookup kv.1 = some kv.2 ∧ p <+: kv.1 := by
  rw [rangePrefix, sortBy, mem_mergeSort, mem_filter, isPrefixOf_iff_prefix, mem_map]
  refine and_congr_left fun _ => ?_
  rw [← Option.mem_def, AList.mem_lookup_iff]
  constructor
  · rintro ⟨⟨k, v⟩, hmem, rfl⟩
    exact hmem
  · exact fun h => ⟨⟨kv.1, kv.2⟩, h, rfl⟩

/-- A listed member is what is stored under the key of its id. -/
theorem mem_listedMembers (he : Inv e) (hgroup : isValidGroupOrId group) {includeDegraded : Bool} :
    m ∈ listedMembers e group includeDegraded ↔ ∃ m', m = MemberInfo.carried m' ∧ m'.Decoded ∧
        e.lookup (memberKey group m'.id) = some (encodeMembers [m'] 0) ∧
        (includeDegraded || m.ringEligible) := by
  have hone : ∀ m' : MemberInfo, m'.Decoded →
      decodeMembers (encodeMembers [m'] 0) = some ([m'.carried], 0) := by
    intro m' hm'
    rw [decodeMembers_encodeMembers (sized_singleton hm'.toSized),
      received_of_decoded (by simpa using hm'), map_singleton]
  rw [listedMembers, mem_filterMap]
  constructor
  · rintro ⟨⟨key, val⟩, hmem, hsome⟩
    obtain ⟨hlookup, hpre⟩ := mem_rangePrefix.mp hmem
    obtain ⟨g, m', hg, hm', rfl, hkey⟩ := he key val hlookup
    simp only [hone m' hm'] at hsome
    split at hsome
    · next hc =>
      cases hsome
      refine ⟨m', rfl, hm', ?_, hc⟩
      rcases hkey with rfl | rfl
      · obtain rfl := memberKey_group hgroup hg hpre
        exact hlookup
      · exact absurd hpre (clientKey_apart hgroup hg)
    · cases hsome
  · rintro ⟨m', rfl, hm', hlookup, hc⟩
    refine ⟨(memberKey group m'.id, encodeMembers [m'] 0),
      mem_rangePrefix.mpr ⟨hlookup, ⟨m'.id, rfl⟩⟩, ?_⟩
    simp only [hone m' hm', if_pos hc]

theorem length_listedMembers_le (e : Etcd) (group : ByteString) (includeDegraded : Bool) :
    (listedMembers e group includeDegraded).length ≤ e.entries.length := by
  refine (length_filterMap_le _ _).trans ?_
  rw [rangePrefix, sortBy, length_mergeSort]
  refine (length_filter_le _ _).trans ?_
  rw [length_map]

theorem carried_carried (m : MemberInfo) : m.carried.carried = m.carried := by
  cases hs : m.hasStats <;> cases hh : m.hasHealth <;> simp [MemberInfo.carried, hs, hh]

theorem MemberInfo.Decoded.carried (h : m.Decoded) : m.carried.Decoded := by
  cases hh : m.hasHealth with
  | true =>
    exact ⟨⟨h.id, h.ip, h.info, by simpa [MemberInfo.carried, hh] using h.devices,
      by simpa [MemberInfo.carried, hh] using h.names⟩,
      by simpa [MemberInfo.carried, MemberInfo.ReportFits, hh] using h.fits⟩
  | false =>
    exact ⟨⟨h.id, h.ip, h.info, by simp [MemberInfo.carried, hh], by simp [MemberInfo.carried, hh]⟩,
      by simp [MemberInfo.carried, MemberInfo.ReportFits, hh]⟩

/-- What a client reads of a view is the list of the server. -/
theorem listMembers_decode (he : Inv e) (hgroup : isValidGroupOrId group)
    (hlen : e.entries.length < 2 ^ 32) (includeDegraded : Bool) :
    ∃ out epoch, listMembers e group includeDegraded = .ok out ∧
      decodeMembers out = some (listedMembers e group includeDegraded, epoch) := by
  have hdec : ∀ m ∈ listedMembers e group includeDegraded, m.Decoded := by
    intro m hm
    obtain ⟨m', rfl, hm', -, -⟩ := (mem_listedMembers he hgroup).mp hm
    exact hm'.carried
  have hsame : (listedMembers e group includeDegraded).map MemberInfo.carried =
      listedMembers e group includeDegraded := by
    refine (map_congr_left fun m hm => ?_).trans (map_id _)
    obtain ⟨m', rfl, -, -, -⟩ := (mem_listedMembers he hgroup).mp hm
    exact carried_carried m'
  have hvalid : ¬(!isValidGroupOrId group) := by simp [hgroup]
  have hsized : Sized (listedMembers e group includeDegraded) :=
    ⟨(length_listedMembers_le e group includeDegraded).trans_lt hlen,
      fun m hm => (hdec m hm).toSized⟩
  have hread := fun epoch => decodeMembers_encodeMembers hsized epoch
  rw [received_of_decoded hdec, hsame] at hread
  exact ⟨_, _, if_neg hvalid, hread _⟩

theorem listedEligible_iff (he : Inv e) {id : ByteString} (hlen : e.entries.length < 2 ^ 32) :
    ListedEligible e group id ↔ isValidGroupOrId group ∧
      ∃ m : MemberInfo, m.id = id ∧ m.Decoded ∧ m.ringEligible ∧
        e.lookup (memberKey group id) = some (encodeMembers [m] 0) := by
  constructor
  · rintro ⟨includeDegraded, out, ms, epoch, m, hout, hdec, hmem, rfl, hel⟩
    have hgroup : isValidGroupOrId group := by
      by_contra hno
      rw [listMembers, if_pos (by simp [hno])] at hout
      cases hout
    obtain ⟨out', epoch', hout', hdec'⟩ := listMembers_decode he hgroup hlen includeDegraded
    cases hout.symm.trans hout'
    obtain ⟨rfl, -⟩ := Prod.mk.inj (Option.some.inj (hdec.symm.trans hdec'))
    obtain ⟨m', rfl, hm', hlookup, -⟩ := (mem_listedMembers he hgroup).mp hmem
    exact ⟨hgroup, m', rfl, hm', m'.same_carried.eligible.symm.trans hel, hlookup⟩
  · rintro ⟨hgroup, m, rfl, hm, hel, hlookup⟩
    obtain ⟨out, epoch, hout, hdec⟩ := listMembers_decode he hgroup hlen true
    refine ⟨true, out, _, epoch, m.carried, hout, hdec, ?_, rfl, ?_⟩
    · exact (mem_listedMembers he hgroup).mpr ⟨m, rfl, hm, hlookup, by simp⟩
    · exact m.same_carried.eligible.trans hel

theorem handle_ok {op : WriteOp} (hop : op.member) (hgroup : group.length < 2 ^ 32)
    (hm : m.Sized) {r : Replies} (h : (handle e op (encodeMemberReq group m) r).2 = some .ok) :
    isValidGroupOrId group ∧ isValidGroupOrId m.id ∧
    (encodeMemberReq group m).length ≤ kMdsMaxReqPayload ∧
    (handle e op (encodeMemberReq group m) r).1.lookup (memberKey group m.id) =
      some (encodeMembers [m.arrived] 0) := by
  rcases handle_cases e op (encodeMemberReq group m) r with ⟨-, -, hno⟩ | ⟨key, m', hw, he⟩
  · exact absurd h hno
  · have hlen : (encodeMemberReq group m).length ≤ kMdsMaxReqPayload := by
      by_contra hlong
      rw [handle, if_pos (Nat.not_le.mp hlong)] at h
      cases h
    obtain ⟨g, hreq, hg, hid, rfl⟩ := written_spec hw
    rw [decodeMemberReq_encode hgroup hm] at hreq
    cases hreq
    rw [hop, if_pos rfl, arrived_id] at he
    rw [arrived_id] at hid
    rw [he] at h ⊢
    exact ⟨hg, hid, hlen, upsertLeased_ok (Option.some.inj h)⟩

def Replies.allOk : Replies :=
  { remembered := false, keepAlive := true, refresh := .acked, grant := true, store := .acked }

theorem handle_allOk (hgroup : isValidGroupOrId group) (hid : isValidGroupOrId m.id)
    (hlen : (encodeMemberReq group m).length ≤ kMdsMaxReqPayload) (hsize : group.length < 2 ^ 32)
    (hm : m.Sized) :
    handle e .register (encodeMemberReq group m) .allOk =
      (e.insert (memberKey group m.id) (encodeMembers [m.arrived] 0), some .ok) := by
  rw [handle, if_neg (Nat.not_lt.mpr hlen), decodeMemberReq_encode hsize hm]
  simp [WriteOp.member, upsert, upsertAt, hgroup, arrived_id, hid, upsertLeased, Replies.allOk,
    Etcd.put]

/-- The members of a list arrive with their eligibility exactly when the reports
fit, and a member registered as ineligible is never listed as eligible exactly when its report fits
or its request is refused. -/
theorem wire_exact_iff {ms : List MemberInfo} (hms : Sized ms) (epoch : UInt64)
    {group : ByteString} (hgroup : group.length < 2 ^ 32) {m : MemberInfo} (hm : m.Sized)
    (hdegraded : m.ringEligible = false) :
    ((∃ ms', decodeMembers (encodeMembers ms epoch) = some (ms', epoch) ∧
      List.Forall₂ MemberInfo.Same ms ms') ↔ ReportsFit ms) ∧
    ((∀ before op r after, op.member = true →
      (handle (runEvents ∅ before) op (encodeMemberReq group m) r).2 = some .ok →
      (∀ ev ∈ after, ¬ev.Reports group m.id) →
      (runEvents (handle (runEvents ∅ before) op (encodeMemberReq group m) r).1
        after).entries.length < 2 ^ 32 →
      ¬ListedEligible (runEvents (handle (runEvents ∅ before) op (encodeMemberReq group m) r).1
        after) group m.id) ↔
      (isValidGroupOrId group = true → isValidGroupOrId m.id = true →
        (encodeMemberReq group m).length ≤ kMdsMaxReqPayload → m.ReportFits)) := by
  refine ⟨?_, ?_, ?_⟩
  · rw [decodeMembers_encodeMembers hms epoch, ← received_same_iff]
    exact ⟨fun ⟨ms', h, hsame⟩ => (Prod.mk.inj (Option.some.inj h)).1 ▸ hsame,
      fun h => ⟨received ms, rfl, h⟩⟩
  · intro hnever hg hid hlen
    by_contra hover
    -- The report is stored without its health and listed at once.
    have hok := handle_allOk (e := ∅) hg hid hlen hgroup hm
    have hinv : Inv (handle ∅ .register (encodeMemberReq group m) .allOk).1 :=
      inv_empty.step (.request .register (encodeMemberReq group m) .allOk)
    have hsmall : (handle ∅ .register (encodeMemberReq group m) .allOk).1.entries.length <
        2 ^ 32 := by
      rw [hok]
      show 1 < 2 ^ 32
      decide
    refine hnever [] .register .allOk [] rfl (by rw [runEvents, List.foldl_nil, hok]) (by simp)
      hsmall ?_
    refine (listedEligible_iff hinv hsmall).mpr ⟨hg, m.arrived, arrived_id m, ?_, ?_, ?_⟩
    · exact decodeMemberReq_decoded (decodeMemberReq_encode hgroup hm)
    · by_contra hne
      exact hover ((arrived_ringEligible hdegraded).mp (by simpa using hne))
    · rw [hok]
      exact AList.lookup_insert _
  · intro hfits before op r after hop hok hquiet hsmall hlisted
    obtain ⟨hg, hid, hlen, hstored⟩ := handle_ok hop hgroup hm hok
    have hinv : Inv (runEvents (handle (runEvents ∅ before) op (encodeMemberReq group m) r).1
        after) :=
      ((inv_empty.runEvents before).step (.request op (encodeMemberReq group m) r)).runEvents after
    obtain ⟨-, m', -, hm', hel, hlookup⟩ := (listedEligible_iff hinv hsmall).mp hlisted
    -- What is listed is what was stored, and that is ineligible.
    rcases run_lookup hg hquiet (.inl hstored) with hs | hs
    · have hval := Option.some.inj (hs.symm.trans hlookup)
      have harrived := decodeMemberReq_decoded (decodeMemberReq_encode hgroup hm)
      have hcar := congrArg decodeMembers hval
      rw [decodeMembers_encodeMembers (sized_singleton harrived.toSized),
        decodeMembers_encodeMembers (sized_singleton hm'.toSized),
        received_of_decoded (by simpa using harrived), received_of_decoded (by simpa using hm')]
        at hcar
      have hsame : m.arrived.carried = m'.carried := by simpa using hcar
      have hfalse := (arrived_ringEligible hdegraded).mpr (hfits hg hid hlen)
      rw [← m.arrived.same_carried.eligible, hsame, m'.same_carried.eligible, hel] at hfalse
      cases hfalse
    · cases hs.symm.trans hlookup

/-- A degraded node whose report names no device. -/
def degraded : MemberInfo :=
  { id := lit "n2", ip := lit "10.0.0.2", health := { ringEligible := false }, hasHealth := true }

def crowded (ringEligible : Bool) : MemberInfo :=
  { id := lit "n1"
    ip := lit "10.0.0.1"
    health := { ringEligible, ibDevices := replicate 65 { name := [] } }
    hasHealth := true }

theorem sized_degraded : degraded.Sized :=
  ⟨by decide, by decide, by decide, by decide, by simp [degraded]⟩

theorem sized_crowded (b : Bool) : (crowded b).Sized :=
  ⟨by simp [crowded, lit], by simp [crowded, lit], by simp [crowded], by simp [crowded],
    by simp [crowded]⟩

/-- Two degraded nodes with small reports arrive, and one that registers is not listed as
eligible. -/
theorem wire_exact_degraded :
    (∃ ms', decodeMembers (encodeMembers [degraded, { degraded with id := lit "n3" }] 7) =
      some (ms', 7) ∧ List.Forall₂ MemberInfo.Same [degraded,
        { degraded with id := lit "n3" }] ms') ∧
    (handle ∅ .register (encodeMemberReq (lit "g") degraded) .allOk).2 = some .ok ∧
    ¬ListedEligible (handle ∅ .register (encodeMemberReq (lit "g") degraded) .allOk).1 (lit "g")
      degraded.id := by
  have hfits : degraded.ReportFits := by decide
  have hfits' : ({ degraded with id := lit "n3" } : MemberInfo).ReportFits := by decide
  have hnil : ReportsFit [] := fun pre m post h => absurd h (by simp)
  have hsized : Sized [degraded, { degraded with id := lit "n3" }] :=
    ⟨by simp, by simpa using ⟨sized_degraded, by decide, by decide, by decide,
      by decide, by decide⟩⟩
  have hgroup : (lit "g").length < 2 ^ 32 := by decide
  have hok : (handle ∅ .register (encodeMemberReq (lit "g") degraded) .allOk).2 = some .ok := by
    rw [handle_allOk (by decide) (by decide) (by decide +kernel) hgroup sized_degraded]
  obtain ⟨hlist, hlisted⟩ := wire_exact_iff hsized 7 hgroup sized_degraded (by decide)
  refine ⟨hlist.mpr ?_, hok, ?_⟩
  · exact (reportsFit_cons_fits hfits _).mpr ((reportsFit_cons_fits hfits' _).mpr hnil)
  · exact hlisted.mpr (fun _ _ _ => hfits) [] .register .allOk [] rfl hok (by simp)
      (by decide +kernel)

/-- The report of one node makes a degraded node behind it eligible on the wire, and a node that
registers as degraded with 65 devices is listed as eligible. -/
theorem wire_not_exact :
    (Sized [crowded true, degraded] ∧ ∃ m m', decodeMembers
      (encodeMembers [crowded true, degraded] 7) = some ([m, m'], 7) ∧
      degraded.ringEligible = false ∧ m'.id = degraded.id ∧ m'.ringEligible = true) ∧
    ((crowded false).ringEligible = false ∧
      (handle ∅ .register (encodeMemberReq (lit "g") (crowded false)) .allOk).2 = some .ok ∧
      ListedEligible (handle ∅ .register (encodeMemberReq (lit "g") (crowded false)) .allOk).1
        (lit "g") (crowded false).id) := by
  have hover : ∀ b, ¬(crowded b).ReportFits := by
    intro b h
    exact absurd (h rfl).1 (by simp [crowded])
  have hsized : Sized [crowded true, degraded] :=
    ⟨by simp, by simpa using ⟨sized_crowded true, sized_degraded⟩⟩
  refine ⟨⟨hsized, ?_⟩, rfl, ?_⟩
  · rw [decodeMembers_encodeMembers hsized, received_cons_over (hover true)]
    exact ⟨_, _, rfl, rfl, rfl, rfl⟩
  · have hvalid : isValidGroupOrId (lit "g") = true := by decide
    have hok := handle_allOk (e := ∅) (m := crowded false) hvalid (by decide)
      (by decide +kernel) (by decide) (sized_crowded false)
    have hinv : Inv (handle ∅ .register (encodeMemberReq (lit "g") (crowded false)) .allOk).1 :=
      inv_empty.step (.request .register (encodeMemberReq (lit "g") (crowded false)) .allOk)
    rw [hok] at hinv ⊢
    refine ⟨rfl, (listedEligible_iff hinv ?_).mpr ⟨by decide, (crowded false).arrived,
      arrived_id _, ?_, ?_, AList.lookup_insert _⟩⟩
    · show 1 < 2 ^ 32
      decide
    · have hlen : (lit "g").length < 2 ^ 32 := by decide
      exact decodeMemberReq_decoded (decodeMemberReq_encode hlen (sized_crowded false))
    · rw [MemberInfo.arrived, if_neg (hover false)]
      rfl

end DingoCache.Mds
