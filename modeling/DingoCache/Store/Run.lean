import DingoCache.Store.Rebuild

/-!
# Runs of the Disk Store

A run starts from an empty store, takes steps, and may be closed and reopened
whenever the store is healthy and at rest.

- `Good.step`: one step keeps the invariant of the books and of the table.
- `Reachable.good`: so does a run.
-/

namespace DingoCache.Store

open Library Slab

open DiskSlabStore

namespace DiskSlabStore

variable {s s' : DiskSlabStore} {st : Step}

/-! ## One step -/

/-- The books are consistent and, while the store is healthy, the table agrees. -/
structure Good (s : DiskSlabStore) : Prop where
  inv : s.Inv
  table : s.failed = false → s.TableInv

theorem Good.startPut (h : s.Good) (job : PutJob) (batch : Bool) : (s.startPut job batch).Good := by
  have hspawn {th : Thread} (hh : th.holding = false) (hok : s.ThreadOk th) : (s.spawn th).Good :=
    ⟨h.inv.spawn hh hok, fun hf => (h.table hf).spawn hh⟩
  unfold DiskSlabStore.startPut
  split
  · exact hspawn rfl trivial
  split
  · exact hspawn rfl trivial
  split
  · exact hspawn rfl trivial
  · exact hspawn rfl trivial

theorem Good.startRead (h : s.Good) (job : ReadJob) : (s.startRead job).Good := by
  unfold DiskSlabStore.startRead
  split
  · exact ⟨h.inv.spawn rfl nofun, fun hf => (h.table hf).spawn rfl⟩
  · exact ⟨h.inv.spawn rfl trivial, fun hf => (h.table hf).spawn rfl⟩

theorem Good.move (h : s.Good) {t : Nat} {th th' : Thread} (ht : s.threads t = some th)
    (hkey : th'.key = th.key) (hh : th.holding = false) (hh' : th'.holding = false)
    (hok : s.ThreadOk th') : (s.setThread t th').Good :=
  ⟨h.inv.setThread ht hkey (hh'.trans hh.symm)
    (fun hr => by cases th' <;> simp_all [Thread.isReader, Thread.holding]) hok,
    fun hf => (h.table hf).setThread t (.idle hh')⟩

theorem Good.leader (h : s.Good) {t : Nat} {job : PutJob} {ref : SlotRef} {flight done : Nat}
    {th' : Thread} (ht : s.threads t = some (.writing job ref flight done))
    (hkey : th'.key = job.key) (hh : th'.holding) (hr : th'.isReader = false)
    (hok : s.ThreadOk th') (hrec : s.recordOf ref = none → s.Recorded th') :
    (s.setThread t th').Good :=
  ⟨h.inv.setThread ht hkey hh (by simp [hr]) hok, fun hf =>
    (h.table hf).setThread t (hrec (((h.table hf).keys job.key).leaders t _ ht rfl))⟩

theorem reclaim_failed (r : SlabAllocator × List BlockKey) (h : s.failed) :
    (s.reclaim r).failed := by
  obtain ⟨m, u, heq, -⟩ := eraseEvicted_spec r.2 (s.absorb r.1)
  unfold reclaim
  rw [heq]
  simp [absorb, h]

theorem Good.reclaim (h : s.Good) {outcomes : List Bool} {r : SlabAllocator × List BlockKey}
    (hr : Sheds (s.alloc.armed outcomes) r.1 r.2) : (s.reclaim r).Good := by
  refine ⟨h.inv.reclaim hr, fun hff => (h.table ?_).reclaim h.inv hr⟩
  cases hs : s.failed with
  | false => rfl
  | true => simp [reclaim_failed r hs] at hff

def Shrinks (s s' : DiskSlabStore) : Prop := ∀ k, s'.len k = s.len k ∨ s'.len k = none

/-- The one key that came is that of `job`. -/
def Commits (s s' : DiskSlabStore) (job : PutJob) : Prop :=
  s.len job.key = none ∧ ∀ k, s'.len k = if k = job.key then some job.data.length else s.len k

theorem Shrinks.of_eq (h : s'.payloadLen = s.payloadLen) : Shrinks s s' := fun k => by
  unfold len
  rw [h]
  exact .inl rfl

theorem Shrinks.of_dropped {P : BlockKey → Prop} [DecidablePred P]
    (h : ∀ k, s'.len k = if P k then none else s.len k) : Shrinks s s' := fun k => by
  rw [h]
  split
  · exact .inr rfl
  · exact .inl rfl

theorem shrinks_reclaim (r : SlabAllocator × List BlockKey) : Shrinks s (s.reclaim r) := by
  obtain ⟨m, u, heq, hlen, -⟩ := eraseEvicted_spec r.2 (s.absorb r.1)
  refine .of_dropped (P := (· ∈ r.2)) fun k => ?_
  unfold reclaim
  rw [heq]
  exact hlen k

theorem shrinks_judge (hi : s.Inv) (t : Nat) (job : PutJob) (outcomes : List Bool) :
    Shrinks s (s.judge t job outcomes) := by
  unfold DiskSlabStore.judge
  split
  · exact .of_eq rfl
  split
  · exact .of_eq rfl
  split
  · exact .of_eq rfl
  split
  · exact .of_eq rfl
  -- A new leader evicts the keys that make room for it.
  have hspec := lead_spec hi t job outcomes
  generalize s.lead t job outcomes = s' at hspec ⊢
  cases hspec with
  | refused => exact .of_eq rfl
  | placed a calls ref ev m u _ _ _ _ _ _ _ _ hlen => exact .of_dropped (P := (· ∈ ev)) hlen

/-- What a step does to the health of the store and to the committed lengths: a failed store is not
repaired; keys go, or a leader commits its own. -/
structure Effect (s s' : DiskSlabStore) : Prop where
  failed : s.failed → s'.failed
  len : Shrinks s s' ∨ ∃ job, Commits s s' job

theorem Effect.of_eq (hf : s.failed → s'.failed) (h : s'.payloadLen = s.payloadLen) :
    Effect s s' := ⟨hf, .inl (.of_eq h)⟩

theorem Steps.effect (h : s.Steps st s') (hi : s.Inv) : Effect s s' := by
  cases h with
  | startPut job batch =>
    unfold DiskSlabStore.startPut
    split
    · exact .of_eq id rfl
    split
    · exact .of_eq id rfl
    · split <;> exact .of_eq id rfl
  | startRead job =>
    unfold DiskSlabStore.startRead
    split <;> exact .of_eq id rfl
  | judge outcomes ht =>
    refine ⟨fun hf => ?_, .inl (shrinks_judge hi _ _ outcomes)⟩
    unfold DiskSlabStore.judge
    rw [if_pos hf]
    exact hf
  | record ok ht hd =>
    unfold recordPut writeRecord
    dsimp only
    split
    · exact .of_eq id rfl
    split
    · exact .of_eq id rfl
    · exact .of_eq (fun _ => rfl) rfl
  | finish ok ht =>
    rename_i t job ref flight ioOk
    obtain ⟨hl, -⟩ : s.ThreadOk (.finishing job ref flight ioOk) := (hi.keys _).threads _ _ ht rfl
    have hspec := finish_spec hi hl t ioOk ok
    generalize s.finish t job flight ioOk ok = s' at hspec ⊢
    cases hspec with
    | committed a m u ha hd hio hf hlen hcnt => exact ⟨id, .inr ⟨job, hl.len, hlen⟩⟩
    | lost => exact .of_eq (fun _ => rfl) rfl
    | _ => exact .of_eq id rfl
  | acquire ht =>
    rename_i t job
    have hspec := acquire_spec hi t job
    generalize s.acquire t job = s' at hspec ⊢
    cases hspec <;> exact .of_eq id rfl
  | release ok ht =>
    rename_i t job ref plen buf
    have hreads : s.Reads job ref plen buf := (hi.keys job.key).threads t _ ht rfl
    obtain ⟨n, hn⟩ := hreads.held
    have hspec := releaseInflight_spec hi hn (hi.pinned ht rfl hn) ok
    unfold DiskSlabStore.release
    dsimp only
    generalize s.releaseInflight job.key ok = r at hspec ⊢
    cases hspec with
    | lost => exact .of_eq (fun _ => rfl) rfl
    | _ => exact .of_eq id rfl
  | remove key ok =>
    refine ⟨fun hf => ?_, .inl ?_⟩
    · unfold DiskSlabStore.remove
      rw [if_pos hf]
      exact hf
    · have hspec := remove_spec hi key ok
      generalize s.remove key ok = r at hspec ⊢
      cases hspec with
      | deferred a m u ha hf hin hlen hcnt => exact .of_dropped (P := (· = key)) hlen
      | removed a x m u ha hx h0 hf hlen hcnt => exact .of_dropped (P := (· = key)) hlen
      | refused | missing | broken => exact .of_eq rfl
  | retain key ttlS mode nowS ok =>
    have hspec := retain_spec hi key ttlS mode nowS ok
    generalize s.retain key ttlS mode nowS ok = r at hspec ⊢
    cases hspec with
    | broken => exact .of_eq (fun _ => rfl) rfl
    | _ => exact .of_eq id rfl
  | evictCold | stealFrom | reclaimClass => exact ⟨reclaim_failed _, .inl (shrinks_reclaim _)⟩
  | syncFail | reapFail ht => exact .of_eq (fun _ => rfl) rfl
  | _ => exact .of_eq id rfl

theorem Steps.healthy (h : s.Steps st s') (hi : s.Inv) (hf : s'.failed = false) :
    s.failed = false := by
  cases hs : s.failed with
  | false => rfl
  | true => simp [(h.effect hi).failed hs] at hf

/-- A read takes its pin while fewer than `2 ^ 32 - 1` requests hold the key: no more of them are
ever under way at once, so the 32-bit counts do not wrap. -/
def belowPinLimit (s : DiskSlabStore) : Step → Bool
  | .acquire t =>
    match s.threads t with
    | some (.acquiring job) => s.inflight job.key < uint32Max
    | _ => true
  | _ => true

theorem Good.step (h : s.Good) (hs : s.Steps st s') (hb : s.belowPinLimit st) : s'.Good := by
  have hi := h.inv
  have hhealthy := hs.healthy hi
  have hp := slab_persistent hi
  cases hs with
  | startPut job batch => exact h.startPut job batch
  | startRead job => exact h.startRead job
  | judge outcomes ht =>
    exact ⟨hi.judge ht outcomes, fun hf => (h.table (hhealthy hf)).judge hi ht outcomes⟩
  | wake ht | timeout ht | follow ht => exact h.move ht rfl rfl rfl trivial
  | pwrite n ht hn =>
    refine ⟨hi.pwrite ht hn, fun hf => ?_⟩
    have hT := h.table hf
    have hrec := (hT.keys _).leaders _ _ ht rfl
    unfold pwriteSome
    refine TableInv.setThread ?_ _ ?_
    · exact hT.of_eq rfl rfl rfl rfl rfl rfl
    · exact hrec
  | payloadFail ht =>
    exact h.leader ht rfl rfl rfl ⟨((hi.keys _).threads _ _ ht rfl).1, nofun⟩ id
  | rewrite ht =>
    exact h.leader ht rfl rfl rfl ⟨((hi.keys _).threads _ _ ht rfl).1, fun _ => rfl⟩ id
  | reapFail ht => exact ⟨hi.reapFail ht, nofun⟩
  | record ok ht hd =>
    exact ⟨hi.record ht hd ok, fun hf => (h.table (hhealthy hf)).record hi ht hf⟩
  | finish ok ht => exact ⟨hi.finish ht ok, fun hf => (h.table (hhealthy hf)).finish hi ht hf⟩
  | acquire ht =>
    refine ⟨hi.acquire ht ?_, fun hf => (h.table (hhealthy hf)).acquire hi ht⟩
    simpa [belowPinLimit, ht] using hb
  | pread n ht hp => exact ⟨hi.pread ht hp n, fun hf => (h.table hf).setThread _ trivial⟩
  | release ok ht => exact ⟨hi.release ht ok, fun hf => (h.table (hhealthy hf)).release hi ht hf⟩
  | remove key ok => exact ⟨hi.remove key ok, fun hf => (h.table (hhealthy hf)).remove hi hf⟩
  | retain key ttlS mode nowS ok =>
    exact ⟨hi.retain key ttlS mode nowS ok, fun hf => (h.table (hhealthy hf)).retain hi hf⟩
  | expireRetention nowS =>
    exact ⟨hi.expireRetention nowS, fun hf =>
      (h.table hf).of_eq rfl (expireRetention_held hi.alloc nowS).held rfl rfl rfl rfl⟩
  | evictCold target n outcomes =>
    exact h.reclaim (evictColdToTarget_sheds hi.alloc hp outcomes target n)
  | stealFrom donor target outcomes =>
    exact h.reclaim (stealFrom_sheds hi.alloc hp outcomes donor target)
  | reclaimClass cls target n outcomes =>
    exact h.reclaim (reclaimClass_sheds hi.alloc hp outcomes cls target n)
  | land pos hz =>
    refine ⟨hi.land hz pos, fun hf => ?_⟩
    have hf : s.failed = false := hf
    exact absurd (hi.zombies _ hz).1 (by simp [hf])
  | syncFail => exact ⟨hi.fail, nofun⟩

/-! ## Runs -/

/-- A store that was opened on an empty directory, or after a cold reset: the table is zero, the
extents hold anything. -/
def fresh (o : Options) (ro : RetainOptions) (nowS : Nat) (extents : Nat → Bytes) : DiskSlabStore :=
  opened o ro nowS (fun _ => 0) extents fun _ => []

/-- What a store can become. -/
inductive Reachable : DiskSlabStore → Prop
  | fresh (o : Options) (ro : RetainOptions) (nowS : Nat) (extents : Nat → Bytes)
      (hv : o.validateOptions = none) : Reachable (fresh o ro nowS extents)
  | step {s s' : DiskSlabStore} (st : Step) (h : Reachable s) (hb : s.belowPinLimit st = true)
      (hs : s.step st = some s') : Reachable s'
  | reopen {s s' : DiskSlabStore} (o : Options) (ro : RetainOptions) (nowS : Nat) (io : RebuildIo)
      (h : Reachable s) (hf : s.failed = false) (hq : s.Quiescent) (hg : SameGeometry s.opt o)
      (hv : o.validateOptions = none) (hs : s.reopen o ro nowS io = .ok s') : Reachable s'

theorem recordAt_fresh (o : Options) (ro : RetainOptions) (nowS : Nat) (extents : Nat → Bytes)
    (e slot : Nat) : (fresh o ro nowS extents).recordAt e slot = none := decode_zero

theorem Good.fresh {o : Options} (hv : o.validateOptions = none) (ro : RetainOptions)
    (nowS : Nat) (extents : Nat → Bytes) : (fresh o ro nowS extents).Good := by
  have hheld (k : BlockKey) : (DiskSlabStore.fresh o ro nowS extents).alloc.held k = none := rfl
  refine ⟨⟨hv, .started .., slab_normalize hv, fun _ _ => rfl, fun k => ?_, fun _ => rfl, nofun⟩,
    fun _ => ⟨fun k => ?_, fun e slot r _ hr => ?_⟩⟩
  · exact ⟨by simp [hheld], by rw [hheld]; rfl, rfl, nofun, nofun, nofun⟩
  · exact ⟨by simp [hheld], nofun, nofun⟩
  · rw [recordAt_fresh] at hr
    simp at hr

theorem Reachable.good (h : Reachable s) : s.Good := by
  induction h with
  | fresh o ro nowS extents hv => exact .fresh hv ro nowS extents
  | step st _ hb hs ih => exact ih.step (steps_of_step hs) hb
  | reopen o ro nowS io _ hf hq hg hv hs ih =>
    have hre := (reopen_spec ih.inv (ih.table hf) hq hg hv ro nowS).2 io _ hs
    exact ⟨hre.inv, fun _ => hre.table⟩

def runBelowPinLimit (s : DiskSlabStore) : List Step → Bool
  | [] => true
  | st :: rest => s.belowPinLimit st && (s.step st).elim true (·.runBelowPinLimit rest)

theorem Reachable.run {sts : List Step} : ∀ {s s' : DiskSlabStore}, Reachable s →
    s.runBelowPinLimit sts → s.run sts = some s' → Reachable s' := by
  induction sts with
  | nil => exact fun h _ hs => Option.some.inj hs ▸ h
  | cons st sts ih =>
    intro s s' h hb hs
    obtain ⟨s₁, h₁, hs⟩ := Option.bind_eq_some_iff.mp hs
    obtain ⟨hst, hb⟩ := Bool.and_eq_true_iff.mp hb
    rw [h₁] at hb
    exact ih (h.step st hst h₁) hb hs

/-! ## What readers see -/

/-- In every state of every run: the in-flight count is the pin count, a committed key lies on a
slot that holds its payload, a deferred remove has a holder, and there is one committed payload of
the requested key from which a reader has copied every byte of its window that lies inside the
payload, and of which a read that succeeded returned a slice. -/
theorem readers_see_committed (h : Reachable s) :
    (∀ k, s.inflight k = (s.alloc.held k).elim 0 Hold.refs) ∧
    (∀ k n, s.len k = some n → ∃ x, s.alloc.held k = some x ∧ n ≤ x.ref.slotSize) ∧
    (∀ k, s.deferredRemove k = true → 0 < s.inflight k) ∧
    (∀ t job ref plen buf, s.threads t = some (.reading job ref plen buf) →
      ∃ p ∈ s.commits job.key, p.length = plen ∧ ∀ start len head n,
        job.plan s.opt ref plen = .window start len head n →
        ∀ j i (hj : j < buf.length) (hi : i < p.length), start + j = ref.offset + i →
          buf[j] = p[i]) ∧
    ∀ t job data n, s.threads t = some (.fetched job .ok data n) →
      ∃ p ∈ s.commits job.key, n = p.length ∧ ∃ m, data = (p.drop job.offset).take m := by
  have hi := h.good.inv
  refine ⟨fun k => (hi.keys k).pins, fun k n hn => ?_, fun k hd => ?_,
    fun t job ref plen buf ht => ?_,
    fun t job data n ht => ?_⟩
  · obtain ⟨x, p, hx, -, -, -, hfit⟩ := (hi.keys k).committed n hn
    exact ⟨x, hx, hfit⟩
  · exact Nat.pos_of_ne_zero ((hi.keys k).deferred hd).1
  · obtain ⟨-, -, -, p, hp, rfl, -, hcop⟩ : s.Reads job ref plen buf :=
      (hi.keys _).threads t _ ht rfl
    refine ⟨p, hp, rfl, fun start len head n hplan => ?_⟩
    unfold Copied at hcop
    rw [hplan] at hcop
    exact hcop
  · obtain ⟨p, hp, m, hdata, hn⟩ := (hi.keys _).threads t _ ht rfl rfl
    exact ⟨p, hp, hn, m, hdata⟩

/-- One extent of one slot, direct I/O. -/
def tinyOptions : Options :=
  { capacityBytes := 4096, extentBytes := 4096, slotGranularity := 4096, directWrites := true }

def tinyStore : DiskSlabStore := fresh tinyOptions {} 0 fun _ _ => 0

/-- The key numbered `n`. -/
def tinyKey (n : UInt64) : BlockKey := { digestHi := 0, digestLo := n, tenantHash := 0 }

/-- The steps of one buffered PUT by request `t`. -/
def putSteps (t : Nat) (key : BlockKey) (data : List UInt8) : List Step :=
  [.startPut { key := key, data := data } false, .judge t [], .pwrite t data.length, .record t true,
    .finish t true]

def reuseSteps : List Step :=
  putSteps 0 (tinyKey 1) [1, 2] ++ [.remove (tinyKey 1) true] ++ putSteps 1 (tinyKey 2) [3] ++
    [.startRead { key := tinyKey 2, kind := .rangeDirect true, cap := 4096 },
      .acquire 2, .pread 2 2]

/-- What request `t` has copied, and the committed payloads of its key. -/
def copiedBytes (s : DiskSlabStore) (t : Nat) : Option (List UInt8 × List (List UInt8)) :=
  match s.threads t with
  | some (.reading job _ _ buf) => some (buf, s.commits job.key)
  | _ => none

theorem reuse_copies : (tinyStore.run reuseSteps).map (copiedBytes · 2) =
    some (some ([3, 2], [[3]])) := by decide +kernel

/-- The window of a direct read reaches past the payload: there a reader copies bytes of a key that
was removed, which are in no payload of the key it asked for. -/
theorem direct_read_copies_foreign_bytes :
    ¬∀ s : DiskSlabStore, Reachable s → ∀ t job ref plen buf,
      s.threads t = some (.reading job ref plen buf) →
      ∀ b ∈ buf, ∃ p ∈ s.commits job.key, b ∈ p := by
  intro hall
  obtain ⟨s, hs, hc⟩ := Option.map_eq_some_iff.mp reuse_copies
  have hreach : Reachable s :=
    .run (.fresh tinyOptions {} 0 (fun _ _ => 0) (by decide)) (by decide +kernel) hs
  unfold copiedBytes at hc
  split at hc
  · rename_i job ref plen buf ht
    obtain ⟨rfl, hcom⟩ := Prod.mk.inj (Option.some.inj hc)
    obtain ⟨p, hp, hb⟩ := hall s hreach 2 job ref plen _ ht 2 (by simp)
    rw [hcom] at hp
    simp_all
  · simp at hc

/-- A run with a reader in it. -/
theorem reuse_readers_see_committed : ∃ s, Reachable s ∧ (copiedBytes s 2).isSome = true ∧
    ∀ t job ref plen buf, s.threads t = some (.reading job ref plen buf) →
      ∃ p ∈ s.commits job.key, p.length = plen := by
  obtain ⟨s, hs, hc⟩ := Option.map_eq_some_iff.mp reuse_copies
  have hreach : Reachable s :=
    .run (.fresh tinyOptions {} 0 (fun _ _ => 0) (by decide)) (by decide +kernel) hs
  refine ⟨s, hreach, by rw [hc]; rfl, fun t job ref plen buf ht => ?_⟩
  obtain ⟨p, hp, hpl, -⟩ := (readers_see_committed hreach).2.2.2.1 t job ref plen buf ht
  exact ⟨p, hp, hpl⟩

/-! ## What the table holds -/

/-- At rest and healthy, every valid record of `slots.tbl` describes the committed key it names,
every committed key has exactly one record, and reopening with the same geometry succeeds and gives
back the same keys with the same lengths, slots, bytes and usage. -/
theorem table_is_committed_map (h : Reachable s) (hf : s.failed = false) (hq : s.Quiescent) :
    (∀ e slot r, slot < s.opt.maxSlots → s.recordAt e slot = some r →
      ∃ x, s.alloc.held r.key = some x ∧ x.ref.extent = e ∧ x.ref.slot = slot ∧
        r.slotSize = x.ref.slotSize ∧ s.len r.key = some r.payloadLen) ∧
    (∀ k n, s.len k = some n → ∃ x r, s.alloc.held k = some x ∧
      x.ref.extent < s.opt.numExtents ∧ x.ref.slot < s.opt.maxSlots ∧
      s.recordAt x.ref.extent x.ref.slot = some r ∧
      r.key = k ∧ r.slotSize = x.ref.slotSize ∧ r.payloadLen = n ∧
      ∀ e slot r', slot < s.opt.maxSlots → s.recordAt e slot = some r' → r'.key = k →
        e = x.ref.extent ∧ slot = x.ref.slot) ∧
    ∀ o ro nowS, SameGeometry s.opt o → o.validateOptions = none →
      ∃ s', s.reopen o ro nowS {} = .ok s' ∧ (∀ k, s'.len k = s.len k) ∧
        (∀ tenant, s'.tenantUsed tenant = s.tenantUsed tenant) ∧
        ∀ k n, s.len k = some n → ∃ x x', s.alloc.held k = some x ∧ s'.alloc.held k = some x' ∧
          x'.ref.extent = x.ref.extent ∧ x'.ref.slot = x.ref.slot ∧
          x'.ref.slotSize = x.ref.slotSize ∧
          FlatFile.pread (s'.extents x'.ref.extent) x'.ref.offset n =
            FlatFile.pread (s.extents x.ref.extent) x.ref.offset n := by
  have hi := h.good.inv
  have hT := h.good.table hf
  refine ⟨fun e slot r hslot hr => ?_, fun k n hn => ?_, fun o ro nowS hg hv => ?_⟩
  · obtain ⟨y, hd⟩ := record_describes hi hT hq hslot hr
    exact ⟨y, hd.held, hd.extent, hd.slot, hd.size.symm, hd.len⟩
  · obtain ⟨x, r, hx, hr, hlen⟩ := (hT.keys k).complete n hn
    obtain ⟨hkey, hsz, -⟩ := (hT.keys k).sound x r hx hr
    have hp := hi.alloc.held_places hx
    rw [hi.options] at hp
    refine ⟨x, r, hx, hp.extent_lt, hi.slot_lt hx, hr, hkey, hsz, hlen, ?_⟩
    -- A second record of the key would describe the one slot the allocator gave it.
    intro e slot r' hslot hr' hkey'
    obtain ⟨y, hd⟩ := record_describes hi hT hq hslot hr'
    have hy : s.alloc.held k = some y := hkey' ▸ hd.held
    cases hx.symm.trans hy
    exact ⟨hd.extent.symm, hd.slot.symm⟩
  · obtain ⟨⟨s', hs'⟩, hsame⟩ := reopen_spec hi hT hq hg hv ro nowS
    have hre := hsame _ _ hs'
    refine ⟨s', hs', hre.len, hre.usage, fun k n hn => ?_⟩
    obtain ⟨x, x', hx, hx', he, hslot, hsz, hoff⟩ := hre.place k n hn
    exact ⟨x, x', hx, hx', he, hslot, hsz, by rw [hre.extents, he, hoff]⟩

/-- A store at rest after one PUT: every request is over. -/
def onePut : List Step := putSteps 0 (tinyKey 1) [1, 2]

theorem onePut_result : (tinyStore.run onePut).map (fun s => (s.failed, s.spawned,
    (s.threads 0).map (fun th => th matches .stored _ .ok),
    decide (s.commits (tinyKey 1) = [[1, 2]] ∧ s.len (tinyKey 1) = some 2))) =
    some (false, 1, some true, true) := by decide +kernel

theorem onePut_rests : ∃ s, Reachable s ∧ s.failed = false ∧ s.Quiescent ∧
    s.commits (tinyKey 1) = [[1, 2]] ∧ s.len (tinyKey 1) = some 2 := by
  obtain ⟨s, hs, hc⟩ := Option.map_eq_some_iff.mp onePut_result
  have hreach : Reachable s :=
    .run (.fresh tinyOptions {} 0 (fun _ _ => 0) (by decide)) (by decide +kernel) hs
  simp only [Prod.mk.injEq, decide_eq_true_eq] at hc
  obtain ⟨hf, hn, hth, hcom, hlen⟩ := hc
  refine ⟨s, hreach, hf, fun t th ht => ?_, hcom, hlen⟩
  have hlt := hreach.good.inv.lt_spawned ht
  obtain rfl : t = 0 := by omega
  rw [ht] at hth
  cases th with
  | stored job status => exact .inl ⟨job, status, rfl⟩
  | _ => simp at hth

theorem onePut_table_is_committed_map : ∃ s, Reachable s ∧ s.failed = false ∧ s.Quiescent ∧
    s.len (tinyKey 1) = some 2 ∧ ∃ s', s.reopen s.opt {} 7 {} = .ok s' ∧ ∀ k, s'.len k =
      s.len k := by
  obtain ⟨s, hreach, hf, hq, -, hlen₁⟩ := onePut_rests
  obtain ⟨-, -, hopen⟩ := table_is_committed_map hreach hf hq
  obtain ⟨s', hs', hlen, -⟩ := hopen s.opt {} 7 ⟨rfl, rfl, rfl, rfl⟩ hreach.good.inv.valid
  exact ⟨s, hreach, hf, hq, hlen₁, s', hs', hlen⟩

end DiskSlabStore

end DingoCache.Store
