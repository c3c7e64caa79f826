import DingoCache.Store.Writes

/-!
# DiskSlabStore: the Record Table

While the store is healthy, the valid records of `slots.tbl` describe the slots of
its keys: a record lies at the place of a resident of its key, a committed key has
its record, and a key under way has one exactly when its leader wrote it.
-/

namespace DingoCache.Store

open Library Slab Nat
open Function (update update_of_ne update_self)

variable {x : Hold} {ok : Bool} {r : SlotRecord}

/-! ## The grid -/

/-- What `ValidateOptions` establishes. -/
structure Options.Valid (o : Options) : Prop where
  extent_pos : 0 < o.extentBytes
  extent_le : o.extentBytes ≤ uint32Max
  grain_ge : 4096 ≤ o.slotGranularity
  grain_le : o.slotGranularity ≤ uint32Max
  grain_dvd : 4096 ∣ o.slotGranularity
  extents_pos : 0 < o.numExtents
  slots_pos : 0 < o.maxSlots

theorem Options.valid_of {o : Options} (h : o.validateOptions = none) : o.Valid := by
  unfold Options.validateOptions at h
  simp only [ite_eq_iff, reduceCtorEq, and_false, false_or, not_or, not_lt, ne_eq, not_not] at h
  obtain ⟨-, -, h3, h4, -, h6, h7, -⟩ := h
  have hpos : 0 < o.extentBytes := pos_of_ne_zero h3.1
  exact ⟨hpos, h3.2, h4.1, h4.2.1, dvd_of_mod_eq_zero h4.2.2, div_pos h6.1 hpos,
    pos_of_ne_zero h7.2.1⟩

theorem Options.tableOffset_apart (o : Options) {e slot e' slot' : Nat} (h : slot < o.maxSlots)
    (h' : slot' < o.maxSlots) (hne : ¬(e = e' ∧ slot = slot')) :
    o.tableOffset e slot + kRecBytes ≤ o.tableOffset e' slot' ∨
      o.tableOffset e' slot' + kRecBytes ≤ o.tableOffset e slot := by
  unfold Options.tableOffset kRecBytes
  rcases lt_trichotomy e e' with hlt | rfl | hlt
  · have hmul : (e + 1) * o.maxSlots ≤ e' * o.maxSlots := mul_le_mul_right _ hlt
    rw [add_mul] at hmul
    omega
  · omega
  · have hmul : (e' + 1) * o.maxSlots ≤ e * o.maxSlots := mul_le_mul_right _ hlt
    rw [add_mul] at hmul
    omega

/-- The record of `table` at `(extent, slot)`. -/
def recordIn (o : Options) (table : Bytes) (extent slot : Nat) : Option SlotRecord :=
  decode fun i => table (o.tableOffset extent slot + i)

section Grid

variable {o : Options} {table : Bytes} {e slot e' slot' : Nat}

theorem recordIn_pwrite_self (o : Options) (table : Bytes) (e slot : Nat) (r : SlotRecord)
    (valid : Bool) :
    recordIn o (table.pwrite (o.tableOffset e slot) ((r.encode valid).pread 0 kRecBytes)) e slot =
      decode (r.encode valid) := by
  refine decode_congr fun i hi => ?_
  rw [FlatFile.pwrite_add (by simpa using hi), FlatFile.getElem_pread, zero_add]

theorem recordIn_congr {table' : Bytes} (h : ∀ i, i < kRecBytes →
    table' (o.tableOffset e slot + i) = table (o.tableOffset e slot + i)) :
    recordIn o table' e slot = recordIn o table e slot := decode_congr h

theorem recordIn_zero (h : ∀ i, i < kRecBytes → table (o.tableOffset e slot + i) = 0) :
    recordIn o table e slot = none := (decode_congr h).trans decode_zero

theorem recordIn_pwrite_apart {bs : List UInt8} (hbs : bs.length = kRecBytes)
    (h : slot < o.maxSlots) (h' : slot' < o.maxSlots) (hne : ¬(e = e' ∧ slot = slot')) :
    recordIn o (table.pwrite (o.tableOffset e slot) bs) e' slot' = recordIn o table e' slot' := by
  refine recordIn_congr fun i hi => FlatFile.pwrite_of_apart ?_
  rcases o.tableOffset_apart h h' hne with hle | hle <;> omega

theorem recordIn_wipe (h' : slot' < o.maxSlots) :
    recordIn o (table.pwrite (o.tableOffset e 0) (List.replicate (o.maxSlots * kRecBytes) 0)) e'
      slot' = if e' = e then none else recordIn o table e' slot' := by
  have hoff : o.tableOffset e' slot' = e' * o.maxSlots * kRecBytes + slot' * kRecBytes := rfl
  have hzero : o.tableOffset e 0 = e * o.maxSlots * kRecBytes := by simp [Options.tableOffset]
  have hslot : slot' * kRecBytes + kRecBytes ≤ o.maxSlots * kRecBytes := by
    rw [← succ_mul]
    exact mul_le_mul_right _ h'
  split
  · rename_i he
    subst he
    refine recordIn_zero fun i hi => ?_
    have hlt : slot' * kRecBytes + i < (List.replicate (o.maxSlots * kRecBytes)
      (0 : UInt8)).length := by
      rw [List.length_replicate]
      omega
    rw [hoff, hzero, add_assoc, FlatFile.pwrite_add hlt, List.getElem_replicate]
  · rename_i hne
    refine recordIn_congr fun i hi => FlatFile.pwrite_of_apart ?_
    rw [List.length_replicate, hoff, hzero]
    rcases lt_or_gt_of_ne hne with hlt | hlt
    · have hmul : (e' + 1) * o.maxSlots * kRecBytes ≤ e * o.maxSlots * kRecBytes :=
        mul_le_mul_right _ (mul_le_mul_right _ hlt)
      rw [add_mul, one_mul, add_mul] at hmul
      omega
    · have hmul : (e + 1) * o.maxSlots * kRecBytes ≤ e' * o.maxSlots * kRecBytes :=
        mul_le_mul_right _ (mul_le_mul_right _ hlt)
      rw [add_mul, one_mul, add_mul] at hmul
      omega

open DiskSlabStore

variable {ref : SlotRef} {call : MetaCall}

theorem recordIn_covered (hc : call.Covers ref) (hslot : ref.slot < o.maxSlots) :
    recordIn o (applyCall o table (call, true)) ref.extent ref.slot = none := by
  cases call with
  | extentBind e => exact (recordIn_wipe hslot).trans (if_pos hc)
  | extentEvict e _ _ => exact (recordIn_wipe hslot).trans (if_pos hc)
  | slotEvict r =>
    obtain ⟨he, hs⟩ : r.extent = ref.extent ∧ r.slot = ref.slot := hc
    refine recordIn_zero fun i hi => ?_
    rw [applyCall, he, hs, FlatFile.pwrite_add (by simpa using hi), List.getElem_replicate]

theorem recordIn_spared (hc : ¬call.Covers ref) (hslot : ref.slot < o.maxSlots)
    (hin : ∀ r, call = .slotEvict r → r.slot < o.maxSlots) :
    recordIn o (applyCall o table (call, true)) ref.extent ref.slot =
      recordIn o table ref.extent ref.slot := by
  cases call with
  | extentBind e => exact (recordIn_wipe hslot).trans (if_neg hc)
  | extentEvict e _ _ => exact (recordIn_wipe hslot).trans (if_neg hc)
  | slotEvict r => exact recordIn_pwrite_apart (by simp) (hin r rfl) hslot hc

/-- A record that is there after a series of callbacks was there before, and no granted callback
covered it. By induction on the series. -/
theorem recordIn_calls {calls : List (MetaCall × Bool)} (hslot : ref.slot < o.maxSlots)
    (hin : ∀ r, (.slotEvict r, true) ∈ calls → r.slot < o.maxSlots) :
    recordIn o (calls.foldl (applyCall o) table) ref.extent ref.slot = some r ↔
      recordIn o table ref.extent ref.slot = some r ∧
        ∀ call, (call, true) ∈ calls → ¬call.Covers ref := by
  induction calls generalizing table with
  | nil => simp
  | cons c calls ih =>
    rw [List.foldl_cons, ih fun r hr => hin r (List.mem_cons_of_mem _ hr)]
    obtain ⟨call, ok⟩ := c
    cases ok with
    | false =>
      have hsame : applyCall o table (call, false) = table := by cases call <;> rfl
      simp [hsame]
    | true =>
      simp only [List.mem_cons, Prod.mk.injEq, and_true, forall_eq_or_imp]
      by_cases hc : call.Covers ref
      · simp [recordIn_covered hc hslot, hc]
      · rw [recordIn_spared hc hslot fun r hr => hin r (by simp [hr])]
        tauto

end Grid

namespace DiskSlabStore

variable {s s' : DiskSlabStore} {k k' : BlockKey} {t : Nat} {th th' : Thread} {job : PutJob}
  {ref : SlotRef} {flight done : Nat}

/-! ## The invariant -/

/-- The record at the place of `ref`. -/
def recordOf (s : DiskSlabStore) (ref : SlotRef) : Option SlotRecord :=
  s.recordAt ref.extent ref.slot

/-- A leader has a record exactly when it wrote one. -/
def Recorded (s : DiskSlabStore) : Thread → Prop
  | .writing _ ref _ _ => s.recordOf ref = none
  | .finishing _ ref _ false => s.recordOf ref = none
  | .finishing job ref _ true => ∃ r, s.recordOf ref = some r ∧ r.payloadLen = job.data.length
  | _ => True

/-- The table agrees with the books about one key. -/
structure KeyTable (s : DiskSlabStore) (k : BlockKey) : Prop where
  sound : ∀ x r, s.alloc.held k = some x → s.recordOf x.ref = some r →
    r.key = k ∧ r.slotSize = x.ref.slotSize ∧
      (s.len k = some r.payloadLen ∨ s.len k = none ∧ s.inflight k ≠ 0)
  complete : ∀ n, s.len k = some n → ∃ x r, s.alloc.held k = some x ∧
    s.recordOf x.ref = some r ∧ r.payloadLen = n
  leaders : ∀ t th, s.threads t = some th → th.key = k → s.Recorded th

/-- The table agrees with the books. -/
structure TableInv (s : DiskSlabStore) : Prop where
  keys : ∀ k, s.KeyTable k
  covered : ∀ e slot r, slot < s.opt.maxSlots → s.recordAt e slot = some r →
    ∃ k x, s.alloc.held k = some x ∧ x.ref.extent = e ∧ x.ref.slot = slot

theorem Inv.slot_lt (h : s.Inv) (hx : s.alloc.held k = some x) : x.ref.slot < s.opt.maxSlots := by
  have hp := h.alloc.held_places hx
  rw [h.options] at hp
  exact hp.slot_lt.trans_le (div_le_div_left hp.align_le
    ((Options.valid_of h.valid).grain_ge.trans_lt' (by decide)))

theorem Recorded.idle (hh : th.holding = false) : s.Recorded th := by
  cases th with
  | writing | finishing => simp [Thread.holding] at hh
  | _ => exact trivial

theorem Recorded.reader (hr : th.isReader) : s.Recorded th := by
  cases th with
  | reading => exact trivial
  | _ => simp [Thread.isReader] at hr

theorem Recorded.frame (h : s.Recorded th) (hok : s.ThreadOk th)
    (hrec : ∀ x, s.alloc.held th.key = some x → s'.recordOf x.ref = s.recordOf x.ref) :
    s'.Recorded th := by
  cases th with
  | writing job ref flight done =>
    have heq : s'.recordOf ref = s.recordOf ref := hrec ⟨ref, 1, false⟩ hok.1.held
    exact heq.trans h
  | finishing job ref flight ioOk =>
    have heq : s'.recordOf ref = s.recordOf ref := hrec ⟨ref, 1, false⟩ hok.1.held
    cases ioOk with
    | false => exact heq.trans h
    | true =>
      obtain ⟨r, hr, hlen⟩ := h
      exact ⟨r, heq.trans hr, hlen⟩
  | _ => exact trivial

theorem Recorded.congr (h : s.Recorded th) (hrec : s'.recordOf = s.recordOf) : s'.Recorded th := by
  cases th with
  | writing => exact (congrFun hrec _).trans h
  | finishing _ _ _ ioOk =>
    cases ioOk with
    | false => exact (congrFun hrec _).trans h
    | true =>
      obtain ⟨r, hr, hlen⟩ := h
      exact ⟨r, (congrFun hrec _).trans hr, hlen⟩
  | _ => exact trivial

theorem KeyTable.frame (h : s.KeyTable k) (hi : s.Inv) (hs : SameKey s s' k)
    (hrec : ∀ x, s.alloc.held k = some x → s'.recordOf x.ref = s.recordOf x.ref) :
    s'.KeyTable k where
  sound x r hx hr := by
    rw [hs.held] at hx
    rw [hs.len, hs.inflight]
    exact h.sound x r hx ((hrec x hx).symm.trans hr)
  complete n hn := by
    obtain ⟨x, r, hx, hr, hlen⟩ := h.complete n (hs.len ▸ hn)
    exact ⟨x, r, hs.held.trans hx, (hrec x hx).trans hr, hlen⟩
  leaders t th ht hk := by
    have hold := hs.threads t th ht hk
    exact (h.leaders t th hold hk).frame ((hi.keys k).threads t th hold hk) (hk.symm ▸ hrec)

theorem KeyTable.of_record (hx : s.alloc.held k = some x) (hr : s.recordOf x.ref = some r)
    (hk : r.key = k) (hsz : r.slotSize = x.ref.slotSize)
    (hlen : s.len k = some r.payloadLen ∨ s.len k = none ∧ s.inflight k ≠ 0)
    (hth : ∀ t th, s.threads t = some th → th.key = k → s.Recorded th) : s.KeyTable k where
  sound y r₁ hy hr₁ := by
    cases hx.symm.trans hy
    cases hr.symm.trans hr₁
    exact ⟨hk, hsz, hlen⟩
  complete n hn := by
    rcases hlen with hl | ⟨hl, -⟩
    · exact ⟨x, r, hx, hr, Option.some.inj (hl.symm.trans hn)⟩
    · cases hl.symm.trans hn
  leaders := hth

theorem KeyTable.rehold (h : s.KeyTable k) {y : Hold} (hx : s.alloc.held k = some x)
    (hy : s'.alloc.held k = some y) (href : y.ref = x.ref) (hrec : s'.recordOf = s.recordOf)
    (hlen : ∀ n, s.len k = some n ∨ s.len k = none ∧ s.inflight k ≠ 0 →
      s'.len k = some n ∨ s'.len k = none ∧ s'.inflight k ≠ 0)
    (hback : ∀ n, s'.len k = some n → s.len k = some n)
    (hth : ∀ t th, s'.threads t = some th → s'.Recorded th ∨ s.threads t = some th) :
    s'.KeyTable k where
  sound z r hz hr := by
    cases hy.symm.trans hz
    rw [href, hrec] at hr
    obtain ⟨hk, hsz, hl⟩ := h.sound x r hx hr
    exact ⟨hk, href ▸ hsz, hlen _ hl⟩
  complete n hn := by
    obtain ⟨z, r, hz, hr, hl⟩ := h.complete n (hback n hn)
    cases hx.symm.trans hz
    exact ⟨y, r, hy, by rw [href, hrec, hr], hl⟩
  leaders t th ht hk := (hth t th ht).elim id fun hold => (h.leaders t th hold hk).congr hrec

/-! ## Sections that write one record -/

/-- Both tables have the same records away from `ref`. -/
def Elsewhere (s s' : DiskSlabStore) (ref : SlotRef) : Prop :=
  ∀ e slot, slot < s.opt.maxSlots → ¬(ref.extent = e ∧ ref.slot = slot) →
    s'.recordAt e slot = s.recordAt e slot

theorem Elsewhere.of_eq (hopt : s'.opt = s.opt) (htab : s'.table = s.table) :
    Elsewhere s s' ref := fun _ _ _ _ => by
  unfold recordAt
  rw [hopt, htab]

theorem Elsewhere.of_write (hslot : ref.slot < s.opt.maxSlots) (hopt : s'.opt = s.opt)
    {valid : Bool} (htab : s'.table = s.table.pwrite (s.opt.tableOffset ref.extent ref.slot)
      ((r.encode valid).pread 0 kRecBytes)) : Elsewhere s s' ref := fun e slot hlt hne => by
  unfold recordAt
  rw [hopt, htab]
  exact recordIn_pwrite_apart (by simp) hslot hlt hne

theorem recordOf_write {valid : Bool} {v : Option SlotRecord} (hdec : decode (r.encode valid) = v)
    (hopt : s'.opt = s.opt)
    (htab : s'.table = s.table.pwrite (s.opt.tableOffset ref.extent ref.slot)
      ((r.encode valid).pread 0 kRecBytes)) : s'.recordOf ref = v := by
  unfold recordOf recordAt
  rw [hopt, htab, ← hdec]
  exact recordIn_pwrite_self ..

theorem recordOf_tombstone (hopt : s'.opt = s.opt)
    (htab : s'.table = s.table.pwrite (s.opt.tableOffset ref.extent ref.slot)
      (((tombstone k ref).encode false).pread 0 kRecBytes)) : s'.recordOf ref = none :=
  recordOf_write (decode_encode_invalid _) hopt htab

theorem Inv.place_ne (h : s.Inv) {y : Hold} (hx : s.alloc.held k = some x)
    (hy : s.alloc.held k' = some y) (hne : k ≠ k') :
    ¬(x.ref.extent = y.ref.extent ∧ x.ref.slot = y.ref.slot) :=
  fun ⟨he, hs⟩ => (h.alloc.held_apart hx hy hne he).1 hs

/-- A section that acts on one resident key and writes its record at most. -/
theorem TableInv.act (hT : s.TableInv) (h : s.Inv) (hx : s.alloc.held k = some x)
    (hopt : s'.opt = s.opt) (hsame : ∀ k', k' ≠ k → SameKey s s' k') (helse : Elsewhere s s' x.ref)
    (hown : s'.KeyTable k)
    (hcov : ∀ r, s'.recordOf x.ref = some r → ∃ y, s'.alloc.held k = some y ∧ y.ref = x.ref) :
    s'.TableInv where
  keys k' := by
    by_cases hk : k' = k
    · exact hk ▸ hown
    · exact (hT.keys k').frame h (hsame k' hk) fun y hy =>
        helse _ _ (h.slot_lt hy) (h.place_ne hx hy (Ne.symm hk))
  covered e slot r hslot hr := by
    by_cases hpos : x.ref.extent = e ∧ x.ref.slot = slot
    · obtain ⟨rfl, rfl⟩ := hpos
      obtain ⟨y, hy, href⟩ := hcov r hr
      exact ⟨k, y, hy, by rw [href], by rw [href]⟩
    · rw [hopt] at hslot
      rw [helse e slot hslot hpos] at hr
      obtain ⟨k', y, hy, he, hs⟩ := hT.covered e slot r hslot hr
      have hk : k' ≠ k := by
        rintro rfl
        cases hx.symm.trans hy
        exact hpos ⟨he, hs⟩
      exact ⟨k', y, (hsame k' hk).held.trans hy, he, hs⟩

/-- The table invariant reads the allocator, the table, the lengths, the pins and the requests. -/
theorem TableInv.of_eq (hT : s.TableInv) (hopt : s'.opt = s.opt)
    (hheld : s'.alloc.held = s.alloc.held) (htab : s'.table = s.table)
    (hlen : s'.payloadLen = s.payloadLen) (hin : s'.inflight = s.inflight)
    (hth : s'.threads = s.threads) : s'.TableInv := by
  have hrec : s'.recordAt = s.recordAt := by
    funext e slot
    unfold recordAt
    rw [hopt, htab]
  have hof : s'.recordOf = s.recordOf := funext fun _ => congrFun₂ hrec _ _
  have hl (k : BlockKey) : s'.len k = s.len k := by rw [len, hlen, len]
  refine ⟨fun k => ⟨fun x r hx hr => ?_, fun n hn => ?_, fun t th ht hk => ?_⟩,
    fun e slot r hslot hr => ?_⟩
  · rw [hl, hin]
    exact (hT.keys k).sound x r (hheld ▸ hx) (hof ▸ hr)
  · obtain ⟨x, r, hx, hr, hn⟩ := (hT.keys k).complete n ((hl k).symm.trans hn)
    exact ⟨x, r, hheld ▸ hx, (congrFun hof _).trans hr, hn⟩
  · exact ((hT.keys k).leaders t th (hth ▸ ht) hk).congr hof
  · rw [hopt] at hslot
    rw [hrec] at hr
    obtain ⟨k, x, hx, hpos⟩ := hT.covered e slot r hslot hr
    exact ⟨k, x, hheld ▸ hx, hpos⟩

theorem TableInv.setThread (hT : s.TableInv) (t : Nat) (hth : s.Recorded th) :
    (s.setThread t th).TableInv := by
  refine ⟨fun k => ⟨(hT.keys k).sound, (hT.keys k).complete, fun t' th' ht' hk => ?_⟩, hT.covered⟩
  rcases record_of_update ht' with rfl | ⟨-, ht'⟩
  · exact hth.congr rfl
  · exact ((hT.keys k).leaders t' th' ht' hk).congr rfl

theorem TableInv.spawn (hT : s.TableInv) (hh : th.holding = false) : (s.spawn th).TableInv :=
  (hT.setThread s.spawned (.idle hh)).of_eq rfl rfl rfl rfl rfl rfl

/-! ## Requests -/

theorem TableInv.vacated (hT : s.TableInv) (h : s.Inv) (hx : s.alloc.held k = some x)
    (hopt : s'.opt = s.opt) (hsame : ∀ k', k' ≠ k → SameKey s s' k') (helse : Elsewhere s s' x.ref)
    (hblank : s'.recordOf x.ref = none) (hheld : s'.alloc.held k = none) (hlen : s'.len k = none)
    (hth : ∀ t th, s'.threads t = some th → th.key = k → s'.Recorded th) : s'.TableInv :=
  hT.act h hx hopt hsame helse ⟨by simp [hheld], by simp [hlen], hth⟩ (by simp [hblank])

theorem Inv.sole_recorded (h : s.Inv) (ht : s.threads t = some th) (hh : th.holding)
    (h1 : s.inflight th.key = 1) (hs : s'.threads = update s.threads t (some th'))
    (own : s'.Recorded th') (t' : Nat) (th'' : Thread) (ht' : s'.threads t' = some th'')
    (hk : th''.key = th.key) : s'.Recorded th'' := by
  rw [hs] at ht'
  rcases record_of_update ht' with rfl | ⟨hne, ht'⟩
  · exact own
  · exact .idle (h.sole h1 ht hh ht' hne hk)

theorem TableInv.acquire (hT : s.TableInv) (h : s.Inv) {job : ReadJob}
    (ht : s.threads t = some (.acquiring job)) : (s.acquire t job).TableInv := by
  have hkey := hT.keys job.key
  have hspec := acquire_spec h t job
  generalize s.acquire t job = s' at hspec ⊢
  have hsame := hspec.same
  cases hspec with
  | miss status => exact hT.setThread t trivial
  | hit a x plen hlen hx ha =>
    have hheld : a.held job.key = some ⟨x.ref, (x.refs + 1) % 2 ^ 32, false⟩ := by
      rw [ha.held, update_self]
    refine hT.act h hx rfl (fun k hk => ⟨hsame k hk, .replace h ht rfl rfl (Ne.symm hk)
      (Ne.symm hk)⟩)
      (.of_eq rfl rfl) (hkey.rehold hx hheld rfl rfl (fun n hl => ?_) (fun _ => id) ?_)
      fun r _ => ⟨_, hheld, rfl⟩
    · refine hl.imp_right fun hl => ⟨hl.1, ?_⟩
      exact (update_self ..).trans_ne (succ_ne_zero _)
    · intro t' th' ht'
      rcases record_of_update ht' with rfl | ⟨-, ht'⟩
      · exact .inl trivial
      · exact .inr ht'

theorem TableInv.release (hT : s.TableInv) (h : s.Inv) {job : ReadJob} {ref : SlotRef} {plen : Nat}
    {buf : List UInt8} (ht : s.threads t = some (.reading job ref plen buf))
    (hf : (s.release t job ref plen buf ok).failed = false) :
    (s.release t job ref plen buf ok).TableInv := by
  have hkey := hT.keys job.key
  have hreads : s.Reads job ref plen buf := (h.keys job.key).threads t _ ht rfl
  obtain ⟨n, hn⟩ := hreads.held
  have h0 : n ≠ 0 := h.pinned ht rfl hn
  have hin : s.inflight (Thread.reading job ref plen buf).key = n := by
    rw [(h.keys _).pins]
    exact congrArg (·.elim 0 Hold.refs) hn
  have hspec := releaseInflight_spec h hn h0 ok
  unfold DiskSlabStore.release at hf ⊢
  dsimp only at hf ⊢
  generalize s.releaseInflight job.key ok = r at hspec hf ⊢
  obtain ⟨status, data, m, heq⟩ := readResult_key s.opt job ref plen buf r.2
  rw [heq] at hf ⊢
  have hsame : ∀ k', k' ≠ job.key → SameKey s (r.1.setThread t _) k' := fun k' hk =>
    ⟨hspec.same (t := t) (.fetched job status data m) k' hk, by
      cases hspec <;> exact .replace h ht rfl rfl (Ne.symm hk) (Ne.symm hk)⟩
  cases hspec with
  | kept a ha hd =>
    have hheld : a.held job.key = some ⟨ref, n - 1, false⟩ := by rw [ha.held, update_self]
    refine hT.act h hn rfl hsame (.of_eq rfl rfl)
      (hkey.rehold hn hheld rfl rfl (fun v hl => ?_) (fun _ => id) ?_) fun r _ => ⟨_, hheld, rfl⟩
    · refine hl.imp_right fun hl => ⟨hl.1, ?_⟩
      -- the reader of an uncommitted key waits for a remove that is deferred
      refine (update_self ..).trans_ne ?_
      rcases hreads.len with hsome | ⟨-, hdef⟩
      · cases hl.1.symm.trans hsome
      · rcases hd with hd | hd
        · exact hd
        · cases hd.symm.trans hdef
    · intro t' th' ht'
      rcases record_of_update ht' with rfl | ⟨-, ht'⟩
      · exact .inl trivial
      · exact .inr ht'
  | removed a ha h1 hd _ =>
    have h1 : n = 1 := h1
    refine hT.vacated h hn rfl hsame (.of_write (h.slot_lt hn) rfl rfl) ?_ ?_
      ((h.keys job.key).deferred hd).2 (h.sole_recorded ht rfl (hin.trans h1) rfl trivial)
    · exact recordOf_tombstone (s := s) rfl rfl
    · exact (congrFun ha.held _).trans (update_self ..)
  | lost => simp [DiskSlabStore.setThread] at hf

theorem Inv.width (h : s.Inv) (hx : s.alloc.held k = some x) : x.ref.slotSize < 2 ^ 32 := by
  have hin := (h.alloc.held_places hx).inside
  rw [h.options] at hin
  have hle : s.opt.slab.extentBytes ≤ uint32Max := (Options.valid_of h.valid).extent_le
  unfold uint32Max at hle
  omega

theorem decode_encode_of_fits (hs : r.slotSize < 2 ^ 32) (hp : r.payloadLen ≤ r.slotSize) :
    ∃ r', decode (r.encode true) = some r' ∧ r'.key = r.key ∧
      r'.slotSize = r.slotSize ∧ r'.payloadLen = r.payloadLen :=
  ⟨_, decode_encode r, rfl, mod_eq_of_lt hs, mod_eq_of_lt (hp.trans_lt hs)⟩

theorem TableInv.record (hT : s.TableInv) (h : s.Inv)
    (ht : s.threads t = some (.writing job ref flight done))
    (hf : (s.recordPut t job ref flight ok).failed = false) :
    (s.recordPut t job ref flight ok).TableInv := by
  have hkey := hT.keys job.key
  obtain ⟨hl, -⟩ : s.ThreadOk (.writing job ref flight done) := (h.keys job.key).threads t _ ht rfl
  have h1 : s.inflight (Thread.writing job ref flight done).key = 1 := hl.inflight h
  unfold recordPut at hf ⊢
  generalize hr : ({ key := job.key, slotSize := ref.slotSize, payloadLen := job.data.length } :
    SlotRecord) = r at hf ⊢
  have hw := s.writeRecord_spec ref r true ok
  dsimp only at hf ⊢
  generalize s.writeRecord ref r true ok = w at hw hf ⊢
  cases hw with
  | refused hff => simp [DiskSlabStore.setThread, hff] at hf
  | broken => simp [DiskSlabStore.setThread] at hf
  | written _ =>
    obtain ⟨r', hdec, hk, hsz, hpl⟩ : ∃ r', decode (r.encode true) = some r' ∧ r'.key = job.key ∧
        r'.slotSize = ref.slotSize ∧ r'.payloadLen = job.data.length := by
      rw [← hr]
      exact decode_encode_of_fits (h.width hl.held) hl.fits
    refine hT.act h hl.held rfl (fun k hk => ⟨⟨rfl, id, rfl, rfl, rfl, rfl, rfl, rfl,
      fun _ _ _ _ => rfl⟩, .replace h ht rfl rfl (Ne.symm hk) (Ne.symm hk)⟩)
      (.of_write (h.slot_lt hl.held) rfl rfl) (.of_record hl.held ?_ hk hsz
        (Or.inr ⟨hl.len, h1.trans_ne one_ne_zero⟩) (h.sole_recorded ht rfl h1 rfl ⟨r', ?_, hpl⟩))
      fun _ _ => ⟨_, hl.held, rfl⟩
    all_goals exact recordOf_write (s := s) hdec rfl rfl

theorem TableInv.finish (hT : s.TableInv) (h : s.Inv) {ioOk : Bool}
    (ht : s.threads t = some (.finishing job ref flight ioOk))
    (hf : (s.finish t job flight ioOk ok).failed = false) :
    (s.finish t job flight ioOk ok).TableInv := by
  have hkey := hT.keys job.key
  have hrec : s.Recorded (.finishing job ref flight ioOk) := hkey.leaders t _ ht rfl
  obtain ⟨hl, -⟩ : s.ThreadOk (.finishing job ref flight ioOk) :=
    (h.keys job.key).threads t _ ht rfl
  have h1 : s.inflight (Thread.finishing job ref flight ioOk).key = 1 := hl.inflight h
  have hspec := finish_spec h hl t ioOk ok
  generalize s.finish t job flight ioOk ok = s' at hspec hf ⊢
  have hsame : ∀ k', k' ≠ job.key → SameKey s s' k' := fun k' hk => ⟨hspec.same k' hk, by
    cases hspec <;> exact .replace h ht rfl rfl (Ne.symm hk) (Ne.symm hk)⟩
  cases hspec with
  | aborted a ha hd hio =>
    obtain rfl : ioOk = false := hio.resolve_right fun hff => by
      simp [DiskSlabStore.setThread, hff] at hf
    exact hT.vacated h hl.held rfl hsame (.of_eq rfl rfl) hrec
      ((congrFun ha.held _).trans (update_self ..)) hl.len
      (h.sole_recorded ht rfl h1 rfl trivial)
  | committed a m u ha hd hio _ hlen _ =>
    subst hio
    obtain ⟨r, hr, hpl⟩ := hrec
    have hheld : a.held job.key = some ⟨ref, 0, false⟩ := by rw [ha.held, update_self]
    have hself : m.lookup job.key = some job.data.length := (hlen _).trans (if_pos rfl)
    obtain ⟨hk, hsz, -⟩ := hkey.sound _ r hl.held hr
    exact hT.act h hl.held rfl hsame (.of_eq rfl rfl) (.of_record hheld hr hk hsz
      (Or.inl (hpl ▸ hself)) (h.sole_recorded ht rfl h1 rfl trivial)) fun _ _ => ⟨_, hheld, rfl⟩
  | removed a result ha hd _ _ =>
    exact hT.vacated h hl.held rfl hsame (.of_write (h.slot_lt hl.held) rfl rfl)
      (recordOf_tombstone (s := s) rfl rfl)
      ((congrFun ha.held _).trans (update_self ..)) hl.len
      (h.sole_recorded ht rfl h1 rfl trivial)
  | lost => simp [DiskSlabStore.setThread] at hf

/-! ## Removes and retention -/

theorem TableInv.remove (hT : s.TableInv) (h : s.Inv) (hf : (s.remove k ok).1.failed = false) :
    (s.remove k ok).1.TableInv := by
  have hkey := hT.keys k
  have hspec := remove_spec h k ok
  generalize s.remove k ok = r at hspec hf ⊢
  have hsame : ∀ k', k' ≠ k → SameKey s r.1 k' := fun k' hk => ⟨hspec.same k' hk, by
    cases hspec <;> exact .of_eq rfl rfl⟩
  cases hspec with
  | refused => exact hT
  | missing a ha => exact hT.of_eq rfl ha.held rfl rfl rfl rfl
  | deferred a m u ha _ hin hlen _ =>
    have hnone : m.lookup k = none := (hlen k).trans (if_pos rfl)
    obtain ⟨x, hx⟩ : ∃ x, s.alloc.held k = some x := by
      have hpins := (h.keys k).pins
      cases hx : s.alloc.held k with
      | none => exact absurd (hpins.trans (by rw [hx]; rfl)) hin
      | some x => exact ⟨x, rfl⟩
    have hheld : a.held k = s.alloc.held k := congrFun ha.held k
    refine hT.act h hx rfl hsame (.of_eq rfl rfl) (hkey.rehold hx (hheld.trans hx) rfl rfl
      (fun _ _ => Or.inr ⟨hnone, hin⟩) (fun n hn => ?_) fun _ _ => .inr)
      fun _ _ => ⟨x, hheld.trans hx, rfl⟩
    cases hnone.symm.trans hn
  | removed a x m u ha hx h0 _ hlen _ =>
    have hpins : s.inflight k = 0 := by rw [(h.keys k).pins, hx, Option.elim_some, h0]
    exact hT.vacated h hx rfl hsame (.of_write (h.slot_lt hx) rfl rfl)
      (recordOf_tombstone (s := s) rfl rfl)
      ((congrFun ha.held k).trans (update_self ..)) ((hlen k).trans (if_pos rfl))
      fun t th ht hk => .idle (h.not_holding (hk.symm ▸ hpins) ht)
  | broken => simp at hf

theorem TableInv.retain (hT : s.TableInv) (h : s.Inv) {ttlS nowS : Nat} {mode : RetainMode}
    (hf : (s.retain k ttlS mode nowS ok).1.failed = false) :
    (s.retain k ttlS mode nowS ok).1.TableInv := by
  have hkey := hT.keys k
  have hspec := retain_spec h k ttlS mode nowS ok
  generalize s.retain k ttlS mode nowS ok = w at hspec hf ⊢
  cases hspec with
  | kept a code ha => exact hT.of_eq rfl ha.held rfl rfl rfl rfl
  | broken => simp at hf
  | written a code x r ha hx hlen hk hsz =>
    obtain ⟨y, p, hy, -, hpl, -, hfit⟩ := (h.keys k).committed _ hlen
    cases hx.symm.trans hy
    have hheld (k' : BlockKey) : a.held k' = s.alloc.held k' := congrFun ha.held k'
    obtain ⟨r', hdec, hk', hsz', hpl'⟩ := decode_encode_of_fits (r := r)
      (hsz ▸ h.width hx) (hsz ▸ hfit)
    refine hT.act h hx rfl (fun k' hk => ⟨⟨rfl, id, hheld k', rfl, rfl, rfl, rfl, rfl,
      fun _ _ _ _ => rfl⟩, .of_eq rfl rfl⟩) (.of_write (h.slot_lt hx) rfl rfl)
      (.of_record ((hheld k).trans hx) (recordOf_write (s := s) hdec rfl rfl) (hk'.trans hk)
        (hsz'.trans hsz) (Or.inl (hpl'.symm ▸ hlen)) fun t th ht hkt => ?_)
      fun _ _ => ⟨x, (hheld k).trans hx, rfl⟩
    -- a committed key has no leader
    have hok := (h.keys k).threads t th ht hkt
    rcases hok.not_leader (by rw [hkt, hlen]; simp) with hr | hh
    · exact .reader hr
    · exact .idle hh

/-! ## Evictions -/

/-- After the callbacks of an eviction the table knows the survivors and nobody else. -/
structure Swept (s s' : DiskSlabStore) (g : BlockKey → Option Hold) : Prop where
  kept : ∀ k x, g k = some x → s'.recordOf x.ref = s.recordOf x.ref
  found : ∀ e slot r, slot < s.opt.maxSlots → s'.recordAt e slot = some r →
    s.recordAt e slot = some r ∧ ∃ k x, g k = some x ∧ x.ref.extent = e ∧ x.ref.slot = slot

theorem Swept.of_calls (hT : s.TableInv) (h : s.Inv) {calls : List (MetaCall × Bool)}
    {g : BlockKey → Option Hold} (hlog : CallLog calls s.alloc.held g)
    (hsub : ∀ k x, g k = some x → s.alloc.held k = some x) (hopt : s'.opt = s.opt)
    (htab : s'.table = calls.foldl (applyCall s.opt) s.table) : Swept s s' g := by
  have hin : ∀ r, (.slotEvict r, true) ∈ calls → r.slot < s.opt.maxSlots := by
    intro r hr
    obtain ⟨k, x, hx, -, hs⟩ := hlog.inside r hr
    exact hs ▸ h.slot_lt hx
  have hiff (ref : SlotRef) {r : SlotRecord} (hslot : ref.slot < s.opt.maxSlots) :
      s'.recordOf ref = some r ↔ s.recordOf ref = some r ∧
        ∀ call, (call, true) ∈ calls → ¬call.Covers ref := by
    unfold recordOf recordAt
    rw [hopt, htab]
    exact recordIn_calls hslot hin
  constructor
  · intro k x hx
    refine Option.ext fun r => ?_
    rw [hiff _ (h.slot_lt (hsub k x hx))]
    exact and_iff_left fun call hc => hlog.spares call hc k x hx
  · intro e slot r hslot hr
    obtain ⟨hr₀, hnot⟩ := (hiff ⟨0, e, slot, 0, 0⟩ hslot).mp hr
    refine ⟨hr₀, ?_⟩
    obtain ⟨k, x, hx, he, hs⟩ := hT.covered e slot r hslot hr₀
    cases hg : g k with
    | some y =>
      cases hx.symm.trans (hsub k y hg)
      exact ⟨k, x, hg, he, hs⟩
    | none =>
      -- an evicted key would have had its record cleared
      obtain ⟨call, hc, hcov⟩ := hlog.clears k x hx hg
      refine absurd ?_ (hnot call hc)
      cases call <;> simp_all [MetaCall.Covers]

theorem KeyTable.evicted (h : s.Inv) (hx : s.alloc.held k = some x) (h0 : x.refs = 0)
    (hheld : s'.alloc.held k = none) (hlen : s'.len k = none) (hreq : SameRequests s s' k) :
    s'.KeyTable k := by
  have hpins : s.inflight k = 0 := by rw [(h.keys k).pins, hx, Option.elim_some, h0]
  exact ⟨by simp [hheld], by simp [hlen], fun t th ht hk =>
    .idle (h.not_holding (hk.symm ▸ hpins) (hreq.threads t th ht hk))⟩

theorem TableInv.reclaim (hT : s.TableInv) (h : s.Inv) {outcomes : List Bool}
    {r : SlabAllocator × List BlockKey} (hr : Sheds (s.alloc.armed outcomes) r.1 r.2) :
    (s.reclaim r).TableInv := by
  obtain ⟨m, u, heq, hlen, -⟩ := eraseEvicted_spec r.2 (s.absorb r.1)
  unfold DiskSlabStore.reclaim
  rw [heq]
  have hdrop (k : BlockKey) : r.1.held k = if k ∈ r.2 then none else s.alloc.held k := by
    rw [hr.held]
    rfl
  have hsub : ∀ k x, r.1.held k = some x → s.alloc.held k = some x := fun k x hx => by
    rw [hdrop] at hx
    split at hx
    · simp at hx
    · exact hx
  have hlog : CallLog r.1.env.calls s.alloc.held r.1.held := hr.log
  generalize hs' : ({ (s.absorb r.1) with payloadLen := m, tenantUsed := u } : DiskSlabStore) = s'
  have hw : Swept s s' r.1.held := by
    subst hs'
    exact .of_calls hT h hlog hsub rfl rfl
  subst hs'
  refine ⟨fun k => ?_, fun e slot rec hslot hrec => (hw.found e slot rec hslot hrec).2⟩
  by_cases hk : k ∈ r.2
  · obtain ⟨x, hx, h0⟩ := hr.idle k hk
    exact .evicted h hx h0 ((hdrop k).trans (if_pos hk)) ((hlen k).trans (if_pos hk))
      (.of_eq rfl rfl)
  · have hheld : r.1.held k = s.alloc.held k := (hdrop k).trans (if_neg hk)
    exact (hT.keys k).frame h ⟨⟨rfl, fun hf => (Bool.or_eq_false_iff.mp hf).1, hheld,
      (hlen k).trans (if_neg hk), rfl, rfl, rfl, rfl, fun _ _ _ _ => rfl⟩, .of_eq rfl rfl⟩
      fun x hx => hw.kept k x (hheld.trans hx)

theorem TableInv.lead (hT : s.TableInv) (h : s.Inv) (ht : s.threads t = some (.judging job))
    (hlen : s.len job.key = none) (outcomes : List Bool) : (s.lead t job outcomes).TableInv := by
  have hspec := lead_spec h t job outcomes
  generalize s.lead t job outcomes = s' at hspec ⊢
  have hsame := fun k => hspec.same (k := k)
  cases hspec with
  | refused a calls failed ha hlog hfail =>
    generalize hs₁ : ({ s with
      alloc := a
      table := calls.foldl (applyCall s.opt) s.table
      failed := failed
      flightCount := s.flightCount + 1
      flightResult := update s.flightResult s.flightCount (some .ioError) } :
      DiskSlabStore) = s₁
    have hw : Swept s s₁ s.alloc.held := by
      subst hs₁
      exact .of_calls hT h hlog (fun _ _ hx => hx) rfl rfl
    refine TableInv.setThread ?_ t trivial
    subst hs₁
    refine ⟨fun k => ?_, fun e slot rec hslot hrec => ?_⟩
    · exact (hT.keys k).frame h ⟨⟨rfl, fun hf => (Bool.or_eq_false_iff.mp (hfail.symm.trans hf)).1,
        congrFun ha.held k, rfl, rfl, rfl, rfl, rfl, fun _ _ _ _ => rfl⟩, .of_eq rfl rfl⟩
        fun x hx => hw.kept k x hx
    · obtain ⟨-, k, x, hx, hpos⟩ := hw.found e slot rec hslot hrec
      exact ⟨k, x, (congrFun ha.held k).trans hx, hpos⟩
  | placed a calls ref ev m u hev hinv hopt hnone hheld hidle hlog hfit hlen' hcnt =>
    have hpins : s.inflight job.key = 0 := by rw [(h.keys _).pins, hnone, Option.elim_none]
    have hself : a.held job.key = some ⟨ref, 1, false⟩ := by rw [hheld, update_self]
    have hother {k : BlockKey} (hk : k ≠ job.key) : a.held k = dropKeys s.alloc.held ev k := by
      rw [hheld, update_of_ne hk]
    have hne {k : BlockKey} {x : Hold} (hx : dropKeys s.alloc.held ev k = some x) :
        k ≠ job.key := by
      rintro rfl
      rw [dropKeys_eq_some, hnone] at hx
      simp at hx
    generalize hs' : DiskSlabStore.setThread _ t (.writing job ref s.flightCount 0) = s' at hsame ⊢
    have hw : Swept s s' (dropKeys s.alloc.held ev) := by
      subst hs'
      exact .of_calls hT h hlog (fun _ _ hx => (dropKeys_eq_some.mp hx).2) rfl rfl
    -- the fresh slot had no resident left, so that it has no record
    have hblank : s'.recordOf ref = none := by
      by_contra hsome
      obtain ⟨r, hr⟩ := Option.ne_none_iff_exists'.mp hsome
      have hslot : ref.slot < s.opt.maxSlots := by
        have hp := hinv.held_places hself
        rw [hopt, h.options] at hp
        exact hp.slot_lt.trans_le (div_le_div_left hp.align_le
          ((Options.valid_of h.valid).grain_ge.trans_lt' (by decide)))
      obtain ⟨-, k, x, hx, he, hs⟩ := hw.found _ _ r hslot hr
      have hk := hne hx
      exact (hinv.held_apart ((hother hk).trans hx) hself hk he).1 hs
    subst hs'
    refine ⟨fun k => ?_, fun e slot rec hslot hrec => ?_⟩
    · rcases eq_or_ne k job.key with rfl | hk
      · have hl' : m.lookup job.key = none := by
          rw [hlen', hlen]
          split <;> rfl
        refine ⟨fun y r hy hr => ?_, fun n hn => ?_, fun t' th' ht' hk => ?_⟩
        · cases hself.symm.trans hy
          cases hblank.symm.trans hr
        · cases hl'.symm.trans hn
        · rcases record_of_update ht' with rfl | ⟨-, ht'⟩
          · exact hblank
          · exact .idle (h.not_holding (hk.symm ▸ hpins) ht')
      · have hk' : job.key ≠ k := Ne.symm hk
        by_cases hmem : k ∈ ev
        · obtain ⟨x, hx, h0⟩ := hidle k hmem
          exact .evicted h hx h0 ((hother hk).trans (if_pos hmem)) ((hlen' k).trans (if_pos hmem))
            (.replace h ht rfl rfl hk' hk')
        · exact (hT.keys k).frame h ⟨hsame k hk (hev ▸ hmem), .replace h ht rfl rfl hk' hk'⟩
            fun x hx => hw.kept k x (dropKeys_eq_some.mpr ⟨hmem, hx⟩)
    · obtain ⟨-, k, x, hx, hpos⟩ := hw.found e slot rec hslot hrec
      exact ⟨k, x, (hother (hne hx)).trans hx, hpos⟩

theorem TableInv.judge (hT : s.TableInv) (h : s.Inv) (ht : s.threads t = some (.judging job))
    (outcomes : List Bool) : (s.judge t job outcomes).TableInv := by
  unfold DiskSlabStore.judge
  split
  · exact hT.setThread t trivial
  split
  · exact hT.setThread t trivial
  split
  · exact hT.setThread t trivial
  split
  · exact hT.setThread t trivial
  · rename_i hc _ _ _
    exact hT.lead h ht (by simpa [isCached] using hc) outcomes

end DiskSlabStore

end DingoCache.Store
