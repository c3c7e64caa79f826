import DingoCache.Store.Invariant

/-!
# DiskSlabStore: Critical Sections

Every critical section and every unlocked write keeps the invariant.

- §1 and §2: read plans, the payload map and the tenant counters,
- §3: changes of one request that leave the books alone,
- §4: record writes and the release of a holder,
- §5 to §7: reads, PUTs and removes,
- §8: retention, eviction and the environment.
-/

namespace DingoCache.Store

open Library Slab Option
open Function (update update_of_ne update_self)
open Thread

variable {job : ReadJob} {ref : SlotRef} {plen n start len head : Nat} {buf : List UInt8}
  {o : Options} {x : Hold}

/-! ## §1 Read plans -/

theorem plan_window (h : job.plan o ref plen = .window start len head n) :
    start + head = ref.offset + job.offset ∧ head + n ≤ len ∧ job.offset + n ≤ plen := by
  have hpad (x : Nat) : x ≤ padLen x := by
    unfold padLen
    omega
  unfold ReadJob.plan at h
  dsimp only at h
  have hm : job.span plen ≤ plen - job.offset := min_le_right _ _
  have hdiv : (ref.offset + job.offset) / 4096 * 4096 ≤ ref.offset + job.offset :=
    Nat.div_mul_le_self _ _
  have halen := hpad (ref.offset + job.offset - (ref.offset + job.offset) / 4096 * 4096 +
    job.span plen)
  split at h
  · simp at h
  · split at h
    · simp at h
    · split at h
      · simp only [ReadPlan.window.injEq] at h
        omega
      · simp only [ReadPlan.window.injEq] at h
        omega
      · split at h <;> simp only [ReadPlan.window.injEq] at h <;> omega
      · split at h
        · simp at h
        · simp only [ReadPlan.window.injEq] at h
          omega

theorem plan_reject {status : Status} (h : job.plan o ref plen = .reject status) :
    status = .invalid := by
  unfold ReadJob.plan at h
  dsimp only at h
  split at h
  · simpa using h.symm
  · split at h
    · simp at h
    · split at h
      · simp at h
      · simp at h
      · split at h <;> simp at h
      · split at h
        · simpa using h.symm
        · simp at h

theorem Copied.delivered {p : List UInt8} (h : Copied o job ref p buf)
    (hp : job.plan o ref p.length = .window start len head n) (hlen : buf.length = len) :
    (buf.drop head).take n = (p.drop job.offset).take n := by
  obtain ⟨hstart, hfit, hn⟩ := plan_window hp
  unfold Copied at h
  rw [hp] at h
  refine List.ext_getElem (by simp; omega) fun i h1 h2 => ?_
  simp only [List.length_take, List.length_drop] at h1 h2
  simp only [List.getElem_take, List.getElem_drop]
  exact h (head + i) (job.offset + i) (by omega) (by omega) (by omega)

theorem Copied.nil (o : Options) (job : ReadJob) (ref : SlotRef) (p : List UInt8) :
    Copied o job ref p [] := by
  unfold Copied
  split
  · exact fun j i hj => absurd hj (Nat.not_lt_zero j)
  · rfl

theorem Copied.pread {p : List UInt8} (h : Copied o job ref p buf) {f : Bytes}
    (hf : f.pread ref.offset p.length = p) (hp : job.plan o ref p.length = .window start len head n)
    (m : Nat) : Copied o job ref p (buf ++ f.pread (start + buf.length) m) := by
  unfold Copied at h ⊢
  rw [hp] at h ⊢
  intro j i hj hi hpos
  rw [List.getElem_append]
  split
  · exact h j i _ hi hpos
  · rw [FlatFile.getElem_pread, ← FlatFile.pread_eq_iff.mp hf i hi, ← hpos]
    congr 1
    omega

namespace DiskSlabStore

variable {s s' : DiskSlabStore} {k k' : BlockKey} {t : Nat} {th th' : Thread}

/-! ## §2 The payload map -/

/-- The counters after the payload map changed from `s` to `m`. -/
def Counted (s : DiskSlabStore) (m : AList fun _ : BlockKey => Nat) (u : UInt64 → Nat) : Prop :=
  (∀ tenant, s.tenantUsed tenant = usage s.payloadLen tenant) → ∀ tenant, u tenant = usage m tenant

theorem erasePayload_spec (s : DiskSlabStore) (k : BlockKey) :
    ∃ m u, s.erasePayload k = { s with payloadLen := m, tenantUsed := u } ∧
      (∀ k', m.lookup k' = if k' = k then none else s.len k') ∧ s.Counted m u := by
  unfold erasePayload
  cases hl : s.len k with
  | none =>
    refine ⟨s.payloadLen, s.tenantUsed, rfl, fun k' => ?_, id⟩
    split
    · rename_i hk
      rw [hk]
      exact hl
    · rfl
  | some n =>
    refine ⟨_, _, rfl, fun k' => ?_, fun hu tenant => ?_⟩
    · split
      · rename_i hk
        rw [hk, AList.lookup_erase]
      · rename_i hk
        exact AList.lookup_erase_ne hk
    · have hsum := total_erase (w := fun k n => if k.tenantHash = tenant then n else 0) hl
      have hold := hu tenant
      unfold usage at hold ⊢
      by_cases ht : k.tenantHash = tenant
      · rw [← ht, update_self, ht, hold]
        rw [if_pos ht] at hsum
        omega
      · rw [update_of_ne (Ne.symm ht), hold]
        rw [if_neg ht] at hsum
        omega

theorem eraseEvicted_spec (ev : List BlockKey) : ∀ s : DiskSlabStore,
    ∃ m u, s.eraseEvicted ev = { s with payloadLen := m, tenantUsed := u } ∧
      (∀ k', m.lookup k' = if k' ∈ ev then none else s.len k') ∧ s.Counted m u := by
  induction ev with
  | nil => exact fun s => ⟨s.payloadLen, s.tenantUsed, rfl, fun k' => by simp [len], id⟩
  | cons k ev ih =>
    intro s
    obtain ⟨m, u, heq, hlen, hcnt⟩ := s.erasePayload_spec k
    obtain ⟨m', u', heq', hlen', hcnt'⟩ := ih (s.erasePayload k)
    refine ⟨m', u', ?_, fun k' => ?_, fun hu => hcnt' ?_⟩
    · rw [eraseEvicted, List.foldl_cons, ← eraseEvicted, heq', heq]
    · rw [hlen', heq, len, hlen]
      by_cases hk : k' = k <;> simp [hk]
    · rw [heq]
      exact hcnt hu

theorem commitPayload_spec (s : DiskSlabStore) (k : BlockKey) (n : Nat) :
    ∃ m u, s.commitPayload k n = { s with payloadLen := m, tenantUsed := u } ∧
      (∀ k', m.lookup k' = if k' = k then some n else s.len k') ∧ s.Counted m u := by
  refine ⟨_, _, rfl, fun k' => ?_, fun hu tenant => ?_⟩
  · split
    · rename_i hk
      rw [hk, AList.lookup_insert]
    · rename_i hk
      exact AList.lookup_insert_ne hk
  · have hold := hu tenant
    unfold usage at hold ⊢
    cases hl : s.len k with
    | none =>
      have hsum := total_insert (b := n) (w := fun k n => if k.tenantHash = tenant then n else 0) hl
      rw [hsum, ← hold]
      by_cases ht : k.tenantHash = tenant
      · rw [if_pos ht, ← ht, update_self]
        rfl
      · rw [if_neg ht, update_of_ne (Ne.symm ht), Nat.add_zero]
    | some b =>
      have hsum := total_replace (b := n)
        (w := fun k n => if k.tenantHash = tenant then n else 0) hl
      have herase := total_erase (w := fun k n => if k.tenantHash = tenant then n else 0) hl
      by_cases ht : k.tenantHash = tenant
      · rw [← ht, update_self, ht, hold]
        rw [if_pos ht, if_pos ht] at hsum
        rw [if_pos ht] at herase
        dsimp only [getD_some]
        omega
      · rw [update_of_ne (Ne.symm ht), hold]
        rw [if_neg ht, if_neg ht] at hsum
        omega

/-! ## §3 Requests that leave the books alone -/

theorem SameBooks.setThread (s : DiskSlabStore) (t : Nat) (th : Thread) (k : BlockKey) :
    SameBooks s (s.setThread t th) k :=
  ⟨rfl, id, rfl, rfl, rfl, rfl, rfl, rfl, fun _ _ _ _ => rfl⟩

theorem SameBooks.spawn (s : DiskSlabStore) (th : Thread) (k : BlockKey) :
    SameBooks s (s.spawn th) k :=
  ⟨rfl, id, rfl, rfl, rfl, rfl, rfl, rfl, fun _ _ _ _ => rfl⟩

theorem fresh_update {T : Nat → Option Thread} (h : ∀ t, n ≤ t → T t = none) (ht : t < n) (t' : Nat)
    (hge : n ≤ t') : update T t (some th) t' = none := by
  rw [update_of_ne (by omega)]
  exact h t' hge

theorem Stable.of_setThread (h : s'.Stable k)
    (hs : s'.threads = update s.threads t (some th')) (ht : s.threads t = some th)
    (hlen : s'.len k ≠ none → s.len k ≠ none)
    (hr : th'.isReader → th'.key = k → th.isReader ∧ th.key = k) :
    s.Stable k := by
  rcases h with h | ⟨t', th'', ht', hr', hk'⟩
  · exact Or.inl (hlen h)
  · refine Or.inr ?_
    rw [hs] at ht'
    rcases record_of_update ht' with rfl | ⟨-, ht'⟩
    · exact ⟨t, th, ht, hr hr' hk'⟩
    · exact ⟨t', th'', ht', hr', hk'⟩

theorem Inv.setThread (h : s.Inv) (ht : s.threads t = some th) (hkey : th'.key = th.key)
    (hh : th'.holding = th.holding) (hr : th'.isReader → th.isReader)
    (hok : s.ThreadOk th') : (s.setThread t th').Inv where
  valid := h.valid
  alloc := h.alloc
  options := h.options
  fresh := fresh_update h.fresh (h.lt_spawned ht)
  keys k := by
    rcases eq_or_ne th.key k with rfl | hk
    · have hold := h.keys th.key
      refine KeyInv.replace h ht rfl rfl hold.visible hold.pins ?_ hold.committed hold.deferred
        (hok.frame (.setThread s t th' _)) fun t' th'' _ ht' hk' =>
          (hold.threads t' th'' ht' hk').frame (.setThread s t th' _)
      rw [holds, holds, hkey, hh]
      rfl
    · exact (h.keys k).frame ⟨.setThread s t th' k, .replace h ht rfl rfl hk (hkey ▸ hk)⟩
  usage := h.usage
  zombies := h.zombies.mono rfl id fun _ k x hx hst =>
    ⟨hst.of_setThread rfl ht id fun hr' hk' => ⟨hr hr', hkey ▸ hk'⟩, x, hx, rfl⟩

theorem Inv.spawn (h : s.Inv) (hh : th.holding = false) (hok : s.ThreadOk th) :
    (s.spawn th).Inv where
  valid := h.valid
  alloc := h.alloc
  options := h.options
  fresh := fresh_update (fun t ht => h.fresh t (Nat.le_of_succ_le ht)) (Nat.lt_succ_self _)
  keys k := by
    have hold := h.keys k
    have hcount : tally (s.spawn th).spawned (s.spawn th).threads (holds k) =
        tally s.spawned s.threads (holds k) :=
      SameRequests.spawn h rfl rfl (by simp [holds, hh])
    refine ⟨hold.visible, hold.pins, hold.holders.trans hcount.symm, hold.committed, hold.deferred,
      fun t' th' ht' hk' => ?_⟩
    rcases record_of_update ht' with rfl | ⟨-, ht'⟩
    · exact hok.frame (.spawn s th' _)
    · exact (hold.threads t' th' ht' hk').frame (.spawn s th _)
  usage := h.usage
  zombies := by
    refine h.zombies.mono rfl id fun _ k x hx hst => ⟨?_, x, hx, rfl⟩
    rcases hst with hst | ⟨t', th', ht', hr', hk'⟩
    · exact Or.inl hst
    · refine Or.inr ⟨t', th', ?_, hr', hk'⟩
      rcases record_of_update ht' with rfl | ⟨-, ht'⟩
      · cases th' <;> simp_all [holding, isReader]
      · exact ht'

/-! ## §4 Record writes and releases -/

/-- A failed store refuses a record write, and a write that fails is final. -/
inductive WriteSpec (s : DiskSlabStore) (ref : SlotRef) (r : SlotRecord) (valid : Bool) :
    DiskSlabStore × Bool → Prop
  | refused (hf : s.failed = true) : WriteSpec s ref r valid (s, false)
  | written (hf : s.failed = false) : WriteSpec s ref r valid
      ({ s with table :=
          s.table.pwrite (s.opt.tableOffset ref.extent ref.slot) ((r.encode valid).pread
            0 kRecBytes) },
        true)
  | broken : WriteSpec s ref r valid ({ s with failed := true }, false)

theorem writeRecord_spec (s : DiskSlabStore) (ref : SlotRef) (r : SlotRecord) (valid ok : Bool) :
    WriteSpec s ref r valid (s.writeRecord ref r valid ok) := by
  unfold writeRecord
  split
  · exact .refused ‹_›
  · split
    · exact .written (by simpa using ‹¬s.failed = true›)
    · exact .broken

theorem erasePayload_of_none (h : s.len k = none) : s.erasePayload k = s := by
  unfold erasePayload
  rw [h]

/-- The durable removal of a key either happens or leaves a failed store. -/
inductive InvalidateSpec (s : DiskSlabStore) (k : BlockKey) (ref : SlotRef) :
    DiskSlabStore × Bool → Prop
  | done (hf : s.failed = false) : InvalidateSpec s k ref
      ({ s with
          alloc := (s.alloc.remove k).1
          table := s.table.pwrite (s.opt.tableOffset ref.extent ref.slot)
            (((tombstone k ref).encode false).pread 0 kRecBytes) }, true)
  | broken : InvalidateSpec s k ref ({ s with failed := true }, false)

theorem invalidate_spec (s : DiskSlabStore) (k : BlockKey) (ref : SlotRef) (ok : Bool) :
    InvalidateSpec s k ref (s.invalidate k ref ok) := by
  unfold invalidate
  have hw := s.writeRecord_spec ref (tombstone k ref) false ok
  generalize s.writeRecord ref (tombstone k ref) false ok = w at hw ⊢
  cases hw with
  | refused hf =>
    have heq : s = { s with failed := true } := by rw [← hf]
    rw [if_neg Bool.false_ne_true, heq]
    exact .broken
  | written hf => exact .done hf
  | broken => exact .broken

/-- The outcomes of `ReleaseInflightLocked` for a holder of `k`: one pin less, the deferred remove
of the last holder, or that remove without its record. -/
inductive ReleaseSpec (s : DiskSlabStore) (k : BlockKey) (x : Hold) : DiskSlabStore × Bool → Prop
  | kept (a : SlabAllocator) (ha : Rewrites s.alloc a k (some ⟨x.ref, x.refs - 1, false⟩))
      (hd : x.refs - 1 ≠ 0 ∨ s.deferredRemove k = false) : ReleaseSpec s k x
      ({ s with alloc := a, inflight := update s.inflight k (x.refs - 1) }, true)
  | removed (a : SlabAllocator) (ha : Rewrites s.alloc a k none) (h1 : x.refs = 1)
      (hd : s.deferredRemove k = true) (hf : s.failed = false) : ReleaseSpec s k x
      ({ s with
          alloc := a
          inflight := update s.inflight k 0
          deferredRemove := update s.deferredRemove k false
          table := s.table.pwrite (s.opt.tableOffset x.ref.extent x.ref.slot)
            (((tombstone k x.ref).encode false).pread 0 kRecBytes) }, true)
  | lost (a : SlabAllocator) (ha : Rewrites s.alloc a k (some ⟨x.ref, 0, false⟩)) (h1 : x.refs = 1)
      (hd : s.deferredRemove k = true) : ReleaseSpec s k x
      ({ s with
          alloc := a
          inflight := update s.inflight k 0
          deferredRemove := update s.deferredRemove k false
          failed := true }, false)

theorem releaseInflight_spec (h : s.Inv) (hx : s.alloc.held k = some x) (h0 : x.refs ≠ 0)
    (ok : Bool) : ReleaseSpec s k x (s.releaseInflight k ok) := by
  have hkey := h.keys k
  have hp := hkey.visible x hx
  have hn : s.inflight k = x.refs := by rw [hkey.pins, hx, elim_some]
  have hun : Rewrites s.alloc (s.alloc.unpin k).1 k (some ⟨x.ref, x.refs - 1, false⟩) :=
    hp ▸ unpin_held h.alloc hx hp h0
  unfold releaseInflight
  simp only [hn, if_neg h0, update_self]
  by_cases hd : x.refs - 1 ≠ 0 ∨ s.deferredRemove k = false
  · rw [if_pos hd]
    exact .kept _ hun hd
  · rw [if_neg hd]
    simp only [not_or, ne_eq, not_not, Bool.not_eq_false] at hd
    obtain ⟨hlast, hdef⟩ := hd
    have hlen := (hkey.deferred hdef).2
    rw [hlast] at hun ⊢
    obtain ⟨hget, href⟩ := hun.get rfl
    rw [href]
    -- the store in which the last holder removes the key
    generalize hs₁ : ({ s with
      alloc := ((s.alloc.unpin k).1.get k).1
      inflight := update s.inflight k 0
      deferredRemove := update s.deferredRemove k false } : DiskSlabStore) = s₁
    have hinval := s₁.invalidate_spec k x.ref ok
    dsimp only
    generalize s₁.invalidate k x.ref ok = w at hinval ⊢
    subst hs₁
    cases hinval with
    | done hf =>
      dsimp only
      rw [erasePayload_of_none (by exact hlen)]
      exact .removed _ (hget.remove rfl) (by omega) hdef hf
    | broken =>
      dsimp only
      rw [erasePayload_of_none (by exact hlen)]
      exact .lost _ hget (by omega) hdef

theorem SameBooks.of_rewrites {v : Option Hold} (ha : Rewrites s.alloc s'.alloc k v)
    (hopt : s'.opt = s.opt) (hf : s'.failed = false → s.failed = false)
    (hlen : ∀ k', k' ≠ k → s'.len k' = s.len k')
    (hin : ∀ k', k' ≠ k → s'.inflight k' = s.inflight k')
    (hdef : ∀ k', k' ≠ k → s'.deferredRemove k' = s.deferredRemove k')
    (hfl : ∀ k', k' ≠ k → s'.putFlights k' = s.putFlights k')
    (hcom : ∀ k', k' ≠ k → s'.commits k' = s.commits k') (hext : s'.extents = s.extents) :
    ∀ k', k' ≠ k → SameBooks s s' k' := fun k' hk =>
  ⟨hopt, hf, by rw [ha.held, update_of_ne hk], hlen k' hk, hin k' hk, hdef k' hk, hfl k' hk,
    hcom k' hk, fun _ _ _ _ => by rw [hext]⟩

theorem ReleaseSpec.same {r : DiskSlabStore × Bool} (h : ReleaseSpec s k x r) (th : Thread) :
    ∀ k', k' ≠ k → SameBooks s (r.1.setThread t th) k' := by
  have hin {v : Nat} : ∀ k', k' ≠ k → update s.inflight k v k' = s.inflight k' :=
    fun _ hk => update_of_ne hk _ _
  have hdef {v : Bool} : ∀ k', k' ≠ k → update s.deferredRemove k v k' = s.deferredRemove k' :=
    fun _ hk => update_of_ne hk _ _
  cases h with
  | kept a ha hd =>
    exact .of_rewrites ha rfl id (fun _ _ => rfl) hin (fun _ _ => rfl) (fun _ _ => rfl)
      (fun _ _ => rfl) rfl
  | removed a ha h1 hd hf =>
    exact .of_rewrites ha rfl id (fun _ _ => rfl) hin hdef (fun _ _ => rfl) (fun _ _ => rfl) rfl
  | lost a ha h1 hd =>
    exact .of_rewrites ha rfl nofun (fun _ _ => rfl) hin hdef (fun _ _ => rfl) (fun _ _ => rfl) rfl

/-- A step of request `t` that touches the books of its own key only. -/
theorem Inv.act (h : s.Inv) (ht : s.threads t = some th)
    (hs : s'.threads = update s.threads t (some th')) (hn : s'.spawned = s.spawned)
    (hkey : th'.key = th.key) (hopt : s'.opt = s.opt) (halloc : Slab.Inv s'.alloc)
    (haopt : s'.alloc.opt = s.alloc.opt) (hbooks : ∀ k, k ≠ th.key → SameBooks s s' k)
    (hown : s'.KeyInv th.key) (husage : s.Counted s'.payloadLen s'.tenantUsed)
    (hz : s'.ZombieInv) : s'.Inv where
  valid := hopt ▸ h.valid
  alloc := halloc
  options := by rw [haopt, hopt, h.options]
  fresh := by
    rw [hs, hn]
    exact fresh_update h.fresh (h.lt_spawned ht)
  keys k := by
    by_cases hk : k = th.key
    · exact hk ▸ hown
    · exact (h.keys k).frame
        ⟨hbooks k hk, .replace h ht hs hn (Ne.symm hk) (hkey ▸ Ne.symm hk)⟩
  usage := husage h.usage
  zombies := hz

/-! ## §5 Reads -/

theorem readResult_ok (h : s.Reads job ref plen buf) (releaseOk : Bool) :
    s.ThreadOk (readResult s.opt job ref plen buf releaseOk) := by
  obtain ⟨-, -, -, p, hp, rfl, -, hcop⟩ := h
  unfold readResult
  split
  · rename_i status hplan
    intro hok
    obtain rfl := plan_reject hplan
    cases releaseOk <;> simp at hok
  · exact fun _ => ⟨p, hp, 0, by simp, rfl⟩
  · rename_i start len head n hplan
    split
    · rename_i hc
      exact fun _ => ⟨p, hp, n, hcop.delivered hplan hc.1, rfl⟩
    · exact fun hok => by simp at hok

theorem readResult_key (o : Options) (job : ReadJob) (ref : SlotRef) (plen : Nat)
    (buf : List UInt8) (releaseOk : Bool) :
    ∃ status data n, readResult o job ref plen buf releaseOk = .fetched job status data n := by
  unfold readResult
  split
  · exact ⟨_, _, _, rfl⟩
  · exact ⟨_, _, _, rfl⟩
  · split <;> exact ⟨_, _, _, rfl⟩

theorem Inv.pinned (h : s.Inv) (ht : s.threads t = some th) (hh : th.holding)
    (hx : s.alloc.held th.key = some x) : x.refs ≠ 0 := by
  have hle := le_tally (w := holds th.key) (h.lt_spawned ht) ht
  rw [← (h.keys th.key).holders, (h.keys th.key).pins, hx, elim_some] at hle
  simp only [holds, hh, true_and, if_true] at hle
  omega

theorem Inv.no_leader (h : s.Inv) (ht : s.threads t = some th) (hh : th.holding)
    {t' : Nat} (ht' : s.threads t' = some th') (hne : t' ≠ t) (hk : th'.key = th.key) :
    th'.isReader ∨ th'.holding = false := by
  have hok := (h.keys th'.key).threads t' th' ht' rfl
  have hpins := (h.keys th'.key).pins
  cases th' with
  | writing job ref flight done =>
    rw [show s.alloc.held (writing job ref flight done).key = _ from hok.1.held] at hpins
    exact absurd (h.sole hpins ht' rfl ht hne.symm hk.symm) (by simp [hh])
  | finishing job ref flight ioOk =>
    rw [show s.alloc.held (finishing job ref flight ioOk).key = _ from hok.1.held] at hpins
    exact absurd (h.sole hpins ht' rfl ht hne.symm hk.symm) (by simp [hh])
  | reading => exact Or.inl rfl
  | _ => exact Or.inr rfl

/-- A reader does not see the pins of its slot change, nor a remove that is deferred. -/
theorem ThreadOk.reader (h : s.ThreadOk th) (hr : th.isReader) (hopt : s'.opt = s.opt)
    (hheld : ∀ x, s.alloc.held th.key = some x → ∃ n, s'.alloc.held th.key = some ⟨x.ref, n, false⟩)
    (hlen : s'.len th.key = s.len th.key ∨ s'.len th.key = none)
    (hdef : s'.len th.key = none → s.len th.key ≠ none ∨ s.deferredRemove th.key →
      s'.deferredRemove th.key)
    (hcom : s'.commits = s.commits) (hext : s'.extents = s.extents) : s'.ThreadOk th := by
  cases th with
  | reading job ref plen buf =>
    obtain ⟨⟨n, hn⟩, hl, hfit, p, hp, hpl, hst, hcop⟩ := h
    refine ⟨hheld _ hn, ?_, hfit, p, hcom ▸ hp, hpl, ?_, hopt.symm ▸ hcop⟩
    · have hdef : s'.len job.key = none → _ := hdef
      rcases hlen with heq | hnone
      · have heq : s'.len job.key = s.len job.key := heq
        rcases hl with hl | ⟨hl, hd⟩
        · exact Or.inl (heq.trans hl)
        · exact Or.inr ⟨heq.trans hl, hdef (heq.trans hl) (Or.inr hd)⟩
      · refine Or.inr ⟨hnone, hdef hnone ?_⟩
        rcases hl with hl | ⟨-, hd⟩
        · exact Or.inl (by rw [show s.len (reading job ref plen buf).key = _ from hl]; simp)
        · exact Or.inr hd
    · unfold Stored at hst ⊢
      rw [hext]
      exact hst
  | _ => simp [isReader] at hr

theorem ZombieInv.rewrites {v : Option Hold} (h : s.ZombieInv) (ha : Rewrites s.alloc s'.alloc k v)
    (hx : s.alloc.held k = some x) (hv : ∀ y, v = some y → y.ref = x.ref)
    (hz : s'.zombies = s.zombies) (hf : s.failed → s'.failed)
    (hst : s.failed → ∀ k, s'.Stable k → s.Stable k) : s'.ZombieInv := by
  refine h.mono hz hf fun hfail k' y hy hs => ⟨hst hfail k' hs, ?_⟩
  rw [ha.held] at hy
  rcases eq_or_ne k' k with rfl | hk
  · rw [update_self] at hy
    exact ⟨x, hx, (hv y hy).symm⟩
  · rw [update_of_ne hk] at hy
    exact ⟨y, hy, rfl⟩

/-- The key keeps its slot, its length and its bytes, with other pins. -/
theorem KeyInv.rehold (h : s.Inv) (ht : s.threads t = some th)
    (hs : s'.threads = update s.threads t (some th')) (hn : s'.spawned = s.spawned)
    (hx : s.alloc.held th.key = some x) (hheld : s'.alloc.held th.key = some ⟨x.ref, n, false⟩)
    (hin : s'.inflight th.key = n)
    (hcount : n + th.holds th.key = s.inflight th.key + th'.holds th.key)
    (hopt : s'.opt = s.opt) (hlen : s'.len th.key = s.len th.key) (hcom : s'.commits = s.commits)
    (hext : s'.extents = s.extents) (hdef : s'.deferredRemove = s.deferredRemove)
    (hpin : s.deferredRemove th.key → n ≠ 0) (own : s'.ThreadOk th')
    (hlead : ∀ t' th'', t' ≠ t → s.threads t' = some th'' → th''.key = th.key →
      th''.isReader ∨ th''.holding = false) : s'.KeyInv th.key := by
  have hkey := h.keys th.key
  refine .replace h ht hs hn ?_ ?_ (hin ▸ hcount) ?_ ?_ own ?_
  · exact fun y hy => some.inj (hheld.symm.trans hy) ▸ rfl
  · rw [hin, hheld, elim_some]
  · intro v hv
    obtain ⟨y, p, hy, hp, hpl, hst, hfit⟩ := hkey.committed v (hlen.symm.trans hv)
    cases hx.symm.trans hy
    unfold Stored at hst ⊢
    rw [hcom, hext]
    exact ⟨_, p, hheld, hp, hpl, hst, hfit⟩
  · rw [hdef, hin, hlen]
    exact fun hd => ⟨hpin hd, (hkey.deferred hd).2⟩
  · intro t' th'' hne ht' hk
    have hok := hkey.threads t' th'' ht' hk
    rcases hlead t' th'' hne ht' hk with hr | hh
    · refine hok.reader hr hopt ?_ (Or.inl (hk ▸ hlen)) ?_ hcom hext
      · rw [hk]
        exact fun y hy => ⟨n, some.inj (hx.symm.trans hy) ▸ hheld⟩
      · rw [hdef, hk, hlen]
        exact fun hnone hor => hor.resolve_left (absurd hnone)
    · exact hok.idle hh fun _ hp => hcom.symm ▸ hp

/-- The only holder of an uncommitted key leaves it without an entry or with one that has no pins.
-/
theorem Inv.leave {v : Option Hold} (h : s.Inv) (ht : s.threads t = some th)
    (hh : th.holding) (h1 : s.inflight th.key = 1) (hlen : s.len th.key = none)
    (hx : s.alloc.held th.key = some x) (ha : Rewrites s.alloc s'.alloc th.key v)
    (hv : ∀ y, v = some y → y = ⟨x.ref, 0, false⟩)
    (hs : s'.threads = update s.threads t (some th')) (hn : s'.spawned = s.spawned)
    (hkey : th'.key = th.key) (hh' : th'.holding = false) (own : s'.ThreadOk th')
    (hopt : s'.opt = s.opt) (hsame : ∀ k, k ≠ th.key → SameBooks s s' k)
    (hin : s'.inflight th.key = 0) (hdef : s'.deferredRemove th.key = false)
    (hcom : s'.commits = s.commits) (hpl : s'.payloadLen = s.payloadLen)
    (hu : s'.tenantUsed = s.tenantUsed) (hz : s'.zombies = s.zombies)
    (hf : s.failed → s'.failed) : s'.Inv := by
  have hheld : s'.alloc.held th.key = v := by rw [ha.held, update_self]
  have hlen' : s'.len th.key = s.len th.key := by rw [len, hpl, len]
  have hreader : th'.isReader → False := by
    cases th' <;> simp_all [holding, isReader]
  refine h.act ht hs hn hkey hopt ha.inv ha.opt hsame ?_ (fun hold => by rwa [hpl, hu]) ?_
  · refine .replace h ht hs hn ?_ ?_ ?_ ?_ ?_ own fun t' th'' hne ht' hk => ?_
    · exact fun y hy => hv y (hheld.symm.trans hy) ▸ rfl
    · rw [hin, hheld]
      cases v with
      | none => rfl
      | some y => rw [elim_some, hv y rfl]
    · simp [hin, h1, holds, hh, hh']
    · simp [hlen', hlen]
    · simp [hdef]
    · exact ((h.keys th.key).threads t' th'' ht' hk).idle (h.sole h1 ht hh ht' hne hk)
        fun _ hp => hcom.symm ▸ hp
  · refine h.zombies.rewrites ha hx (fun y hy => by rw [hv y hy]) hz hf fun _ _ hst => ?_
    exact hst.of_setThread hs ht (by rw [len, hpl]; exact id) fun hr => (hreader hr).elim

theorem Inv.release (h : s.Inv) (ht : s.threads t = some (.reading job ref plen buf)) (ok : Bool) :
    (s.release t job ref plen buf ok).Inv := by
  have hkey := h.keys job.key
  have hreads : s.Reads job ref plen buf := hkey.threads t _ ht rfl
  obtain ⟨n, hn⟩ := hreads.held
  have h0 : n ≠ 0 := h.pinned ht rfl hn
  have hin : s.inflight job.key = n := by rw [hkey.pins, hn, elim_some]
  have hspec := releaseInflight_spec h hn h0 ok
  unfold DiskSlabStore.release
  dsimp only
  generalize s.releaseInflight job.key ok = r at hspec ⊢
  have hres := readResult_ok hreads r.2
  obtain ⟨status, data, m, heq⟩ := readResult_key s.opt job ref plen buf r.2
  rw [heq] at hres ⊢
  -- the request holds nothing any more
  have hcount : ∀ v, v + 1 = n → v + (reading job ref plen buf).holds job.key =
      s.inflight job.key + (fetched job status data m).holds job.key := by
    intro v hv
    simp [holds, holding, key, hin, hv]
  have hsame : ∀ k', k' ≠ job.key → SameBooks s (r.1.setThread t _) k' :=
    hspec.same (t := t) (.fetched job status data m)
  cases hspec with
  | kept a ha hd =>
    have hheld : a.held job.key = some ⟨ref, n - 1, false⟩ := by rw [ha.held, update_self]
    refine h.act ht rfl rfl rfl rfl ha.inv ha.opt hsame ?_ id ?_
    · refine KeyInv.rehold h ht rfl rfl hn hheld (update_self ..) ?_ rfl rfl rfl rfl rfl ?_ hres
        fun _ _ hne ht' hk => h.no_leader ht rfl ht' hne hk
      · exact hcount _ (Nat.sub_add_cancel (Nat.one_le_iff_ne_zero.mpr h0))
      · exact fun hdef => hd.resolve_right fun hd => by cases hd.symm.trans hdef
    · refine h.zombies.rewrites ha hn ?_ rfl id fun _ _ hst =>
        hst.of_setThread rfl ht id fun hr => by cases hr
      rintro _ ⟨⟩
      rfl
  | removed a ha h1 hd hf =>
    exact h.leave ht rfl (hin.trans h1) (hkey.deferred hd).2 hn ha (by simp) rfl rfl rfl rfl hres
      rfl hsame (update_self ..) (update_self ..) rfl rfl rfl rfl id
  | lost a ha h1 hd =>
    refine h.leave ht rfl (hin.trans h1) (hkey.deferred hd).2 hn ha ?_ rfl rfl rfl rfl hres
      rfl hsame (update_self ..) (update_self ..) rfl rfl rfl rfl fun _ => rfl
    rintro _ ⟨⟩
    rfl

theorem ThreadOk.not_leader (h : s.ThreadOk th) (hlen : s.len th.key ≠ none) :
    th.isReader ∨ th.holding = false := by
  cases th with
  | writing => exact absurd h.1.len hlen
  | finishing => exact absurd h.1.len hlen
  | reading => exact Or.inl rfl
  | _ => exact Or.inr rfl

/-- `AcquireForRead` finds a committed key and pins it, or the read is a miss. -/
inductive AcquireSpec (s : DiskSlabStore) (t : Nat) (job : ReadJob) : DiskSlabStore → Prop
  | miss (status : Status) (hs : status ≠ .ok) :
      AcquireSpec s t job (s.setThread t (.fetched job status [] 0))
  | hit (a : SlabAllocator) (x : Hold) (plen : Nat) (hlen : s.len job.key = some plen)
      (hx : s.alloc.held job.key = some x)
      (ha : Rewrites s.alloc a job.key (some ⟨x.ref, (x.refs + 1) % 2 ^ 32, false⟩)) :
      AcquireSpec s t job
      ({ s with
          alloc := a
          inflight := update s.inflight job.key (x.refs + 1) }.setThread t
        (.reading job x.ref plen []))

theorem acquire_spec (h : s.Inv) (t : Nat) (job : ReadJob) :
    AcquireSpec s t job (s.acquire t job) := by
  have hkey := h.keys job.key
  unfold acquire
  dsimp only
  split
  · exact .miss _ (by split <;> simp)
  rename_i plen hlen
  obtain ⟨href, hget⟩ := getAndPin_held h.alloc hkey.visible
  rcases hget with ⟨hnone, -⟩ | ⟨x, hx, ha⟩
  · rw [href, hnone]
    exact .miss _ (by split <;> simp)
  · have hin : s.inflight job.key = x.refs := by rw [hkey.pins, hx, elim_some]
    rw [hkey.visible x hx] at ha
    rw [href, hx, hin]
    exact .hit _ x plen hlen hx ha

theorem AcquireSpec.same (h : AcquireSpec s t job s') : ∀ k, k ≠ job.key → SameBooks s s' k := by
  cases h with
  | miss status => exact fun k _ => .setThread s t _ k
  | hit a x plen hlen hx ha =>
    exact .of_rewrites ha rfl id (fun _ _ => rfl) (fun _ hk => update_of_ne hk _ _)
      (fun _ _ => rfl) (fun _ _ => rfl) (fun _ _ => rfl) rfl

/-- The in-flight count follows the pins as long as the pin count does not wrap. -/
theorem Inv.acquire (h : s.Inv) (ht : s.threads t = some (.acquiring job))
    (hlt : s.inflight job.key < uint32Max) : (s.acquire t job).Inv := by
  have hkey := h.keys job.key
  have hspec := acquire_spec h t job
  generalize s.acquire t job = s' at hspec ⊢
  have hsame := hspec.same
  cases hspec with
  | miss status hs => exact h.setThread ht rfl rfl nofun fun hok => absurd hok hs
  | hit a x plen hlen hx ha =>
    obtain ⟨y, p, hy, hp, hpl, hst, hfit⟩ := hkey.committed plen hlen
    cases hx.symm.trans hy
    have hin : s.inflight job.key = x.refs := by rw [hkey.pins, hx, elim_some]
    rw [Nat.mod_eq_of_lt (by unfold uint32Max at hlt; omega)] at ha
    have hheld : a.held job.key = some ⟨x.ref, x.refs + 1, false⟩ := by
      rw [ha.held, update_self]
    refine h.act ht rfl rfl rfl rfl ha.inv ha.opt hsame ?_ id ?_
    · refine KeyInv.rehold h ht rfl rfl hx hheld (update_self ..) ?_ rfl rfl rfl rfl rfl
        (fun _ => Nat.succ_ne_zero _) ⟨⟨_, hheld⟩, Or.inl hlen, hfit, p, hp, hpl, hst, .nil ..⟩ ?_
      · simp [holds, holding, key, hin]
      · intro t' th'' _ ht' hk
        refine (hkey.threads t' th'' ht' hk).not_leader ?_
        rw [hk]
        exact hlen ▸ some_ne_none _
    · refine h.zombies.rewrites ha hx (by rintro _ ⟨⟩; rfl) rfl id fun _ k hst => ?_
      -- the key was stable before, being committed
      by_cases hk : k = job.key
      · exact Or.inl (by rw [hk, hlen]; simp)
      · exact hst.of_setThread rfl ht id fun _ hk' => absurd hk'.symm hk

theorem Inv.pread (h : s.Inv) (ht : s.threads t = some (.reading job ref plen buf))
    (hp : job.plan s.opt ref plen = .window start len head n) (m : Nat) :
    (s.preadSome t job ref plen buf start m).Inv := by
  obtain ⟨hheld, hlen, hfit, p, hmem, rfl, hst, hcop⟩ := (h.keys job.key).threads t _ ht rfl
  exact h.setThread ht rfl rfl (fun _ => rfl)
    ⟨hheld, hlen, hfit, p, hmem, rfl, hst, hcop.pread hst hp m⟩

end DiskSlabStore

end DingoCache.Store
