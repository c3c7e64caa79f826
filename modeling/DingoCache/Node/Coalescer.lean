import DingoCache.Library.Interleaving
import DingoCache.Node.Engine

/-!
# ReadCoalescer

`ReadCoalescer::Read` as steps of concurrent callers: the first caller for a key and
range leads a flight and fills the shared buffer, callers that find the flight follow
it.  The routed engines do not change, so that every fill is a function.
-/

namespace DingoCache.Node

open Library Slab Store
open Function (update update_of_ne update_self)

variable {t : Nat} {stage : Stage} {a : Answer}

/-! ## Calls and their fills -/

/-- `ReadCoalescer::Key`. -/
structure FlightKey where
  key : BlockKey
  offset : Nat := 0
  length : Nat := 0
deriving DecidableEq

/-- The functions that the node passes to `Read`. -/
inductive Fill where
  | range
  | rangeInto
  | rangeDirect
deriving DecidableEq

/-- One call of `Read` by the thread `tid`. -/
structure Call where
  key : FlightKey
  fill : Fill
  dstCap : Nat
  tid : Nat := 0
  /-- The bytes of the destination that `*out_len` counts before the call. -/
  before : List UInt8 := []
deriving DecidableEq

abbrev Group := BlockKey → Option Engine

def Group.Consistent (g : Group) : Prop := ∀ key e, g key = some e → e.Consistent

namespace Call

/-- The read of the engine that a fill makes for a buffer of `cap` bytes. -/
def job (c : Call) (cap : Nat) : ReadJob :=
  { key := c.key.key
    kind := match c.fill with
      | .range => .range
      | .rangeInto => .rangeInto
      | .rangeDirect => .rangeDirect true
    offset := c.key.offset
    length := c.key.length
    cap := cap }

/-- The fill function of the call. `Range` delivers a string, of which the fill copies what the
buffer holds. -/
def run (g : Group) (c : Call) (cap : Nat) : Answer :=
  match g c.key.key with
  | none => { status := .invalid }
  | some e =>
    let a := e.read (c.job cap)
    match c.fill with
    | .range => if a.status = .ok then ⟨.ok, a.data.take cap, a.valueLen⟩ else
        { status := a.status }
    | .rangeInto | .rangeDirect => a

def own (g : Group) (c : Call) : Answer := c.run g c.dstCap

/-- What a leader returns from the result of its fill; `data` says that the shared buffer could be
allocated. -/
def leaderAnswer (c : Call) (a : Answer) (data : Bool) : Answer :=
  if a.status = .ok then
    -- A fill of no bytes leaves `*out_len` and the destination as they were.
    if data then ⟨.ok, if a.data = [] then c.before else a.data.take c.dstCap, a.valueLen⟩ else a
  else { status := a.status }

def followerAnswer (g : Group) (c : Call) (a : Answer) (data : Bool) : Answer :=
  if a.status ≠ .ok ∨ data = false then c.own g else ⟨.ok, a.data.take c.dstCap, a.valueLen⟩

end Call

/-! ## The coalescer -/

/-- `Flight`: the call that leads it and, once it is done, its result and whether it has a shared
buffer. -/
structure Flight where
  call : Call
  result : Option (Answer × Bool) := none
deriving DecidableEq

/-- Where a call stands. -/
inductive Stage where
  | calling
  | leading (flight : Nat)
  | filled (flight : Nat) (answer : Answer) (data : Bool)
  | unlisted (flight : Nat) (answer : Answer) (data : Bool)
  | following (flight : Nat)
  | returned (answer : Answer)
deriving DecidableEq

/-- The calls, `map_` and the flights that it and the calls share. -/
structure ReadCoalescer where
  calls : Nat → Option (Call × Stage) := fun _ => none
  spawned : Nat := 0
  map : FlightKey → Option Nat := fun _ => none
  flights : Nat → Option Flight := fun _ => none
  flightCount : Nat := 0

open ReadCoalescer

/-- The steps of the calls. -/
inductive ReadStep where
  | read (call : Call)
  | enter (t : Nat)
  | fill (t : Nat) (data : Bool)
  | unlist (t : Nat)
  | publish (t : Nat)
  | recurse (t : Nat)
  | wake (t : Nat)
  | timeout (t : Nat)
deriving DecidableEq

namespace ReadCoalescer

def setStage (s : ReadCoalescer) (t : Nat) (c : Call) (stage : Stage) : ReadCoalescer :=
  { s with calls := update s.calls t (some (c, stage)) }

def lead (s : ReadCoalescer) (t : Nat) (c : Call) : ReadCoalescer :=
  { s with
    map := update s.map c.key (some s.flightCount)
    flights := update s.flights s.flightCount (some { call := c })
    flightCount := s.flightCount + 1 }.setStage t c (.leading s.flightCount)

/-- A leader takes its flight out of `map_`. -/
def unlist (s : ReadCoalescer) (t : Nat) (c : Call) (f : Nat) (a : Answer) (data : Bool) :
    ReadCoalescer :=
  { s with
    map := if s.map c.key = some f then update s.map c.key none else s.map }.setStage t c
    (.unlisted f a data)

def publish (s : ReadCoalescer) (t : Nat) (c : Call) (f : Nat) (a : Answer) (data : Bool) :
    ReadCoalescer :=
  { s with flights := update s.flights f (some ⟨c, some (a, data)⟩) }.setStage t c
    (.returned (c.leaderAnswer a data))

def step (g : Group) (s : ReadCoalescer) : ReadStep → Option ReadCoalescer
  | .read c => some { s.setStage s.spawned c .calling with spawned := s.spawned + 1 }
  | .enter t =>
    match s.calls t with
    | some (c, .calling) =>
      match s.map c.key with
      | none => some (s.lead t c)
      | some f => some (s.setStage t c (.following f))
    | _ => none
  | .fill t data =>
    match s.calls t with
    | some (c, .leading f) => some (s.setStage t c (.filled f (c.own g) data))
    | _ => none
  | .unlist t =>
    match s.calls t with
    | some (c, .filled f a data) => some (s.unlist t c f a data)
    | _ => none
  | .publish t =>
    match s.calls t with
    | some (c, .unlisted f a data) => some (s.publish t c f a data)
    | _ => none
  | .recurse t =>
    match s.calls t with
    | some (c, .following f) =>
      match s.flights f with
      | some fl => if fl.call.tid = c.tid then some (s.setStage t c (.returned (c.own g))) else none
      | none => none
    | _ => none
  | .wake t =>
    match s.calls t with
    | some (c, .following f) =>
      match s.flights f with
      | some ⟨l, some (a, data)⟩ =>
        if l.tid = c.tid then none
        else some (s.setStage t c (.returned (c.followerAnswer g a data)))
      | _ => none
    | _ => none
  | .timeout t =>
    match s.calls t with
    | some (c, .following f) =>
      match s.flights f with
      | some ⟨l, none⟩ =>
        if l.tid = c.tid then none else some (s.setStage t c (.returned (c.own g)))
      | _ => none
    | _ => none

end ReadCoalescer

/-! ## What a fill gives -/

theorem Engine.refusal_ne_ok (e : Engine) : e.refusal ≠ .ok := by
  cases e <;> simp [refusal]

namespace Call

variable {g : Group} {e : Engine} {c l : Call} {v : List UInt8}

theorem run_eq (hg : g.Consistent) (he : g c.key.key = some e)
    (hv : e.value c.key.key = some v) (cap : Nat) :
    c.run g cap =
      if v.length < c.key.offset then { status := .invalid }
      else if e.Refuses (c.job cap) v then { status := e.refusal }
      else ⟨.ok, (slice v c.key.offset c.key.length).take cap, v.length⟩ := by
  have hal : (c.job cap).kind ≠ .rangeDirect false := by
    unfold job
    cases c.fill <;> simp
  unfold run
  rw [he]
  dsimp only
  rw [Engine.read_eq (hg _ _ he) hv hal]
  have hoff : (c.job cap).offset = c.key.offset := rfl
  rw [hoff]
  by_cases hlt : v.length < c.key.offset
  · rw [if_pos hlt, if_pos hlt]
    cases c.fill <;> rfl
  · rw [if_neg hlt, if_neg hlt]
    have hne := e.refusal_ne_ok
    cases hfill : c.fill with
    | range =>
      have hnot : ¬e.Refuses (c.job cap) v := by
        simp [Engine.Refuses, job, hfill, Engine.needsPages]
      rw [if_neg hnot, if_neg hnot]
      simp [ReadJob.delivered, job, hfill]
    | rangeInto => simp [ReadJob.delivered, job, hfill]
    | rangeDirect => simp [ReadJob.delivered, job, hfill]

theorem run_none (hg : g.Consistent) {key : BlockKey}
    (h : ∀ e, g key = some e → e.value key = none) :
    ∃ st, st ≠ .ok ∧ ∀ c : Call, c.key.key = key → ∀ cap, c.run g cap = { status := st } := by
  cases he : g key with
  | none => exact ⟨.invalid, by simp, fun c hc cap => by simp [run, hc, he]⟩
  | some e =>
    obtain ⟨st, hst, hall⟩ := Engine.read_none (hg key e he) (h e he)
    have hne : st ≠ .ok := by rcases hst with rfl | rfl <;> simp
    refine ⟨st, hne, fun c hc cap => ?_⟩
    unfold run
    rw [hc, he]
    dsimp only
    rw [hall (c.job cap) hc]
    cases c.fill <;> simp [hne]

theorem stored_or_fails (hg : g.Consistent) (key : BlockKey) :
    (∃ e v, g key = some e ∧ e.value key = some v) ∨
      ∃ st, st ≠ .ok ∧ ∀ c : Call, c.key.key = key → ∀ cap, c.run g cap = { status := st } := by
  by_cases h : ∃ e v, g key = some e ∧ e.value key = some v
  · exact .inl h
  · refine .inr (run_none hg fun e he => ?_)
    by_contra hv
    obtain ⟨v, hv⟩ := Option.ne_none_iff_exists'.mp hv
    exact h ⟨e, v, he, hv⟩

/-- A lone call that fails returns only a status. -/
theorem own_shape (hg : g.Consistent) (c : Call) :
    ((c.own g).status ≠ .ok → c.own g = { status := (c.own g).status }) ∧
      (c.own g).data.length ≤ c.dstCap := by
  unfold own
  rcases stored_or_fails hg c.key.key with ⟨e, v, he, hv⟩ | ⟨st, -, hall⟩
  · rw [run_eq hg he hv]
    split
    · simp
    · split
      · simp
      · simp
  · rw [hall c rfl]
    simp

/-- `*out_len` is zero before the call, or the fill does not succeed with no byte. -/
def Counts (g : Group) (c : Call) : Prop :=
  (c.own g).status = .ok → (c.own g).data = [] → c.before = []

/-- A leader returns what its lone call would. -/
theorem leaderAnswer_own (hg : g.Consistent) (hcounts : c.Counts g) (data : Bool) :
    c.leaderAnswer (c.own g) data = c.own g := by
  obtain ⟨hfail, hlen⟩ := own_shape hg c
  unfold leaderAnswer
  split
  · rename_i hok
    cases data with
    | false => rfl
    | true =>
      have hdata : (if (c.own g).data = [] then c.before else (c.own g).data.take c.dstCap) =
          (c.own g).data := by
        split
        · rename_i hnil
          rw [hcounts hok hnil, hnil]
        · exact List.take_of_length_le hlen
      rw [if_pos rfl, hdata, ← hok]
  · exact (hfail ‹_›).symm

/-- The result of `l` is enough for `c`: no fill of the key succeeds, or the leader has room for all
that the follower can take and the engine has room for the pages of the follower. -/
def Fits (g : Group) (l c : Call) : Prop :=
  ∀ e v, g c.key.key = some e → e.value c.key.key = some v → c.key.offset ≤ v.length →
    ¬e.Refuses (l.job l.dstCap) v →
    min (slice v c.key.offset c.key.length).length c.dstCap ≤ l.dstCap ∧
      ¬e.Refuses (c.job c.dstCap) v

/-- What a follower copies from a leader that fits is what it would have read. -/
theorem followerAnswer_own (hg : g.Consistent) (hkey : l.key = c.key) (h : Fits g l c)
    (data : Bool) : c.followerAnswer g (l.own g) data = c.own g := by
  unfold followerAnswer
  split
  · rfl
  rename_i hok
  have hok : (l.own g).status = .ok := by
    by_contra hne
    exact hok (.inl hne)
  rcases stored_or_fails hg c.key.key with ⟨e, v, he, hv⟩ | ⟨st, hst, hall⟩
  · have hl := run_eq (c := l) hg (hkey ▸ he) (hkey ▸ hv) l.dstCap
    have hc := run_eq hg he hv c.dstCap
    unfold own at hok ⊢
    rw [hl, hkey] at hok ⊢
    rw [hc]
    by_cases hlt : v.length < c.key.offset
    · simp [if_pos hlt] at hok
    rw [if_neg hlt] at hok ⊢
    by_cases href : e.Refuses (l.job l.dstCap) v
    · rw [if_pos href] at hok
      exact absurd hok e.refusal_ne_ok
    · obtain ⟨hroom, hpages⟩ := h e v he hv (Nat.le_of_not_lt hlt) href
      rw [if_neg href, if_neg hlt, if_neg hpages]
      have htake : ((slice v c.key.offset c.key.length).take l.dstCap).take c.dstCap =
          (slice v c.key.offset c.key.length).take c.dstCap := by
        rw [List.take_take]
        rcases Nat.le_total (slice v c.key.offset c.key.length).length c.dstCap with hs | hs
        · rw [Nat.min_eq_left hs] at hroom
          rw [List.take_of_length_le (by omega), List.take_of_length_le hs]
        · rw [Nat.min_eq_right hs] at hroom
          rw [Nat.min_eq_left hroom]
      simp only [htake]
  · rw [own, hall l (congrArg FlightKey.key hkey)] at hok
    exact absurd hok hst

end Call

/-! ## Runs -/

namespace ReadCoalescer

variable {g : Group} {s s' : ReadCoalescer} {st : ReadStep}

/-- Flight `f` is led by `l`. -/
def Led (s : ReadCoalescer) (f : Nat) (l : Call) : Prop :=
  ∃ fl, s.flights f = some fl ∧ fl.call = l

def CallOk (g : Group) (s : ReadCoalescer) (c : Call) : Stage → Prop
  | .calling => True
  | .leading f => s.Led f c ∧ c.Counts g
  | .filled f a _ | .unlisted f a _ => (s.Led f c ∧ c.Counts g) ∧ a = c.own g
  | .following f => ∃ l, s.Led f l ∧ l.key = c.key ∧ Call.Fits g l c
  | .returned a => a = c.own g

/-- The invariant of the coalescer. -/
structure Inv (g : Group) (s : ReadCoalescer) : Prop where
  calls : ∀ t c stage, s.calls t = some (c, stage) → s.CallOk g c stage
  listed : ∀ k f, s.map k = some f → ∃ l, s.Led f l ∧ l.key = k
  fresh : ∀ f, s.flightCount ≤ f → s.flights f = none
  results : ∀ f fl a data, s.flights f = some fl → fl.result = some (a, data) → a = fl.call.own g

/-- A call that leads counts its bytes, and one that joins a flight finds a leader that fits. -/
def JoinFits (g : Group) (s : ReadCoalescer) : ReadStep → Prop
  | .enter t => ∀ c, s.calls t = some (c, .calling) → (s.map c.key = none → c.Counts g) ∧
      ∀ f fl, s.map c.key = some f → s.flights f = some fl → Call.Fits g fl.call c
  | _ => True

theorem Inv.init : Inv g {} :=
  ⟨nofun, nofun, fun _ _ => rfl, nofun⟩

theorem CallOk.mono {c : Call} (hl : ∀ f l, s.Led f l → s'.Led f l) (h : s.CallOk g c stage) :
    s'.CallOk g c stage := by
  cases stage with
  | calling => trivial
  | leading f => exact ⟨hl f c h.1, h.2⟩
  | filled f a data => exact ⟨⟨hl f c h.1.1, h.1.2⟩, h.2⟩
  | unlisted f a data => exact ⟨⟨hl f c h.1.1, h.1.2⟩, h.2⟩
  | following f =>
    obtain ⟨l, hf, hrest⟩ := h
    exact ⟨l, hl f l hf, hrest⟩
  | returned a => exact h

theorem Inv.act (h : s.Inv g) {c : Call} (hl : ∀ f l, s.Led f l → s'.Led f l)
    (hcalls : s'.calls = update s.calls t (some (c, stage))) (hok : s'.CallOk g c stage)
    (hlisted : ∀ k f, s'.map k = some f → ∃ l, s'.Led f l ∧ l.key = k)
    (hfresh : ∀ f, s'.flightCount ≤ f → s'.flights f = none)
    (hresults : ∀ f fl a data, s'.flights f = some fl → fl.result = some (a, data) →
      a = fl.call.own g) : s'.Inv g := by
  refine ⟨fun t' c' stage' ht' => ?_, hlisted, hfresh, hresults⟩
  rw [hcalls] at ht'
  rcases eq_or_ne t' t with rfl | heq
  · rw [update_self] at ht'
    cases ht'
    exact hok
  · rw [update_of_ne heq] at ht'
    exact (h.calls t' c' stage' ht').mono hl

theorem Inv.setStage (h : s.Inv g) (t : Nat) {c : Call} (hok : s.CallOk g c stage) :
    (s.setStage t c stage).Inv g :=
  h.act (fun _ _ => id) rfl hok h.listed h.fresh h.results

theorem Inv.lead (h : s.Inv g) (t : Nat) {c : Call} (hcounts : c.Counts g) :
    (s.lead t c).Inv g := by
  have hnew : (s.lead t c).Led s.flightCount c := ⟨_, update_self .., rfl⟩
  have hl : ∀ f l, s.Led f l → (s.lead t c).Led f l := by
    rintro f l ⟨fl, hf, rfl⟩
    have hne : f ≠ s.flightCount := by
      rintro rfl
      simp [h.fresh _ le_rfl] at hf
    exact ⟨fl, (update_of_ne hne ..).trans hf, rfl⟩
  refine h.act hl rfl ⟨hnew, hcounts⟩ (fun k f hk => ?_) (fun f hf => ?_) fun f fl a
    data hf hr => ?_
  · have hk : update s.map c.key (some s.flightCount) k = some f := hk
    by_cases heq : k = c.key
    · rw [heq, update_self, Option.some.injEq] at hk
      exact ⟨c, hk ▸ hnew, heq.symm⟩
    · rw [update_of_ne heq] at hk
      obtain ⟨l, hled, hkey⟩ := h.listed k f hk
      exact ⟨l, hl f l hled, hkey⟩
  · have hf : s.flightCount + 1 ≤ f := hf
    exact (update_of_ne (by omega) ..).trans (h.fresh f (by omega))
  · have hf : update s.flights s.flightCount (some { call := c }) f = some fl := hf
    by_cases heq : f = s.flightCount
    · rw [heq, update_self, Option.some.injEq] at hf
      simp [← hf] at hr
    · rw [update_of_ne heq] at hf
      exact h.results f fl a data hf hr

theorem Inv.unlist (h : s.Inv g) {f : Nat} {c : Call} {data : Bool}
    (ht : s.calls t = some (c, .filled f a data)) : (s.unlist t c f a data).Inv g := by
  have hok : s.CallOk g c (.filled f a data) := h.calls t _ _ ht
  refine h.act (fun _ _ => id) rfl hok (fun k f' hk => h.listed k f' ?_) h.fresh h.results
  have hk : (if s.map c.key = some f then update s.map c.key none else s.map) k = some f' := hk
  split at hk
  · by_cases heq : k = c.key
    · simp [heq] at hk
    · rwa [update_of_ne heq] at hk
  · exact hk

theorem Inv.publish (hg : g.Consistent) (h : s.Inv g) {f : Nat} {c : Call} {data : Bool}
    (ht : s.calls t = some (c, .unlisted f a data)) : (s.publish t c f a data).Inv g := by
  obtain ⟨⟨⟨fl, hf, rfl⟩, hcounts⟩, rfl⟩ : s.CallOk g c (.unlisted f a data) := h.calls t _ _ ht
  have hlt : f < s.flightCount := by
    by_contra hge
    simp [h.fresh f (Nat.le_of_not_lt hge)] at hf
  -- The flight that is published keeps its leader.
  have hl : ∀ f' l, s.Led f' l → (s.publish t fl.call f (fl.call.own g) data).Led f' l := by
    rintro f' l ⟨fl', hf', rfl⟩
    rcases eq_or_ne f' f with rfl | heq
    · cases hf.symm.trans hf'
      exact ⟨_, update_self .., rfl⟩
    · exact ⟨fl', (update_of_ne heq ..).trans hf', rfl⟩
  refine h.act hl rfl (Call.leaderAnswer_own hg hcounts data) (fun k f' hk => ?_) (fun f' hf' => ?_)
    fun f' fl' a' data' hf' hr => ?_
  · obtain ⟨l, hled, hkey⟩ := h.listed k f' hk
    exact ⟨l, hl f' l hled, hkey⟩
  · have hf' : s.flightCount ≤ f' := hf'
    exact (update_of_ne (by omega) ..).trans (h.fresh f' hf')
  · have hf' : update s.flights f (some ⟨fl.call, some (fl.call.own g, data)⟩) f' = some fl' := hf'
    by_cases heq : f' = f
    · rw [heq, update_self, Option.some.injEq] at hf'
      subst hf'
      exact (Prod.mk.inj (Option.some.inj hr)).1.symm
    · rw [update_of_ne heq] at hf'
      exact h.results f' fl' a' data' hf' hr

/-- One step of a run in which every join fits. -/
theorem Inv.step (hg : g.Consistent) (h : s.Inv g) (hC : s.JoinFits g st)
    (hs : s.step g st = some s') : s'.Inv g := by
  cases st with
  | read c =>
    cases hs
    exact h.act (fun _ _ => id) rfl trivial h.listed h.fresh h.results
  | enter t =>
    dsimp only [step] at hs
    split at hs
    · rename_i c ht
      split at hs
      · rename_i hmap
        cases hs
        exact h.lead t ((hC c ht).1 hmap)
      · rename_i f hmap
        cases hs
        obtain ⟨l, ⟨fl, hf, rfl⟩, hkey⟩ := h.listed _ f hmap
        exact h.setStage t ⟨_, ⟨fl, hf, rfl⟩, hkey, (hC c ht).2 f fl hmap hf⟩
    · simp at hs
  | fill t data =>
    dsimp only [step] at hs
    split at hs
    · rename_i c f ht
      cases hs
      have hled : s.CallOk g c (.leading f) := h.calls t _ _ ht
      exact h.setStage t ⟨hled, rfl⟩
    · simp at hs
  | unlist t =>
    dsimp only [step] at hs
    split at hs
    · rename_i c f a data ht
      cases hs
      exact h.unlist ht
    · simp at hs
  | publish t =>
    dsimp only [step] at hs
    split at hs
    · rename_i c f a data ht
      cases hs
      exact h.publish hg ht
    · simp at hs
  | recurse t =>
    dsimp only [step] at hs
    split at hs
    · split at hs
      · split at hs
        · cases hs
          exact h.setStage t rfl
        · simp at hs
      · simp at hs
    · simp at hs
  | wake t =>
    dsimp only [step] at hs
    split at hs
    · rename_i c f ht
      split at hs
      · rename_i l a data hf
        split at hs
        · simp at hs
        cases hs
        -- The published result is the leader's own, which fits the follower.
        obtain ⟨l', ⟨fl, hf', rfl⟩, hkey, hfits⟩ : s.CallOk g c (.following f) := h.calls t _ _ ht
        cases hf.symm.trans hf'
        have ha : a = l.own g := h.results f _ a data hf rfl
        exact h.setStage t (ha ▸ Call.followerAnswer_own hg hkey hfits data)
      · simp at hs
    · simp at hs
  | timeout t =>
    dsimp only [step] at hs
    split at hs
    · split at hs
      · split at hs
        · simp at hs
        · cases hs
          exact h.setStage t rfl
      · simp at hs
    · simp at hs

end ReadCoalescer

end DingoCache.Node
