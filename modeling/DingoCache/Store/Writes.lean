import DingoCache.Store.Sections

/-!
# DiskSlabStore: PUTs, Removes and Evictions

The sections that change what a key maps to, and the events of the environment.
-/

namespace DingoCache.Store.DiskSlabStore

open Library Slab Option
open Function (update update_eq_self update_idem update_of_ne update_self)
open Thread

variable {s s' : DiskSlabStore} {k k' : BlockKey} {t : Nat} {th th' : Thread} {job : PutJob}
  {ref : SlotRef} {flight done : Nat}

/-! ## Steps without a request -/

theorem Inv.touch (h : s.Inv) (hs : s'.threads = s.threads) (hn : s'.spawned = s.spawned)
    (hopt : s'.opt = s.opt) (halloc : Slab.Inv s'.alloc) (haopt : s'.alloc.opt = s.alloc.opt)
    (hbooks : ∀ k', k' ≠ k → SameBooks s s' k') (hown : s'.KeyInv k)
    (husage : s.Counted s'.payloadLen s'.tenantUsed) (hz : s'.ZombieInv) : s'.Inv where
  valid := hopt ▸ h.valid
  alloc := halloc
  options := by rw [haopt, hopt, h.options]
  fresh := by
    rw [hs, hn]
    exact h.fresh
  keys k' := by
    by_cases hk : k' = k
    · exact hk ▸ hown
    · exact (h.keys k').frame ⟨hbooks k' hk, .of_eq hs hn⟩
  usage := husage h.usage
  zombies := hz

/-- The allocator moved no resident; the table, the flights and the health are not part of any book.
-/
theorem Inv.aside (h : s.Inv) {a : SlabAllocator} (ha : Keeps s.alloc a) (table : Bytes)
    (result : Nat → Option Status) (count : Nat) {failed : Bool}
    (hf : s.failed → failed) :
    { s with
      alloc := a, table := table, flightResult := result, flightCount := count
      failed := failed }.Inv where
  valid := h.valid
  alloc := ha.inv
  options := ha.opt.trans h.options
  fresh := h.fresh
  keys k := by
    refine (h.keys k).frame ⟨⟨rfl, fun hff => ?_, congrFun ha.held k, rfl, rfl, rfl, rfl, rfl,
      fun _ _ _ _ => rfl⟩, .of_eq rfl rfl⟩
    by_contra hne
    exact absurd (hf (by simpa using hne)) (by simpa using hff)
  usage := h.usage
  zombies := h.zombies.mono rfl hf fun _ k x hx hst =>
    ⟨hst, x, (congrFun ha.held k).symm.trans hx, rfl⟩

theorem Inv.fail (h : s.Inv) : { s with failed := true }.Inv :=
  h.aside h.alloc.keeps s.table s.flightResult s.flightCount fun _ => rfl

/-- `Retain` rewrites the record of a committed key at most. -/
inductive RetainSpec (s : DiskSlabStore) (k : BlockKey) : DiskSlabStore × RetainCode → Prop
  | kept (a : SlabAllocator) (code : RetainCode) (ha : Keeps s.alloc a) :
      RetainSpec s k ({ s with alloc := a }, code)
  | written (a : SlabAllocator) (code : RetainCode) (x : Hold) (r : SlotRecord)
      (ha : Keeps s.alloc a) (hx : s.alloc.held k = some x) (hlen : s.len k = some r.payloadLen)
      (hkey : r.key = k) (hsize : r.slotSize = x.ref.slotSize) : RetainSpec s k
      ({ s with
          alloc := a
          table := s.table.pwrite (s.opt.tableOffset x.ref.extent x.ref.slot)
            ((r.encode true).pread 0 kRecBytes) }, code)
  | broken (a : SlabAllocator) (code : RetainCode) (ha : Keeps s.alloc a) :
      RetainSpec s k ({ s with alloc := a, failed := true }, code)

theorem retain_spec (h : s.Inv) (k : BlockKey) (ttlS : Nat) (mode : RetainMode) (nowS : Nat)
    (ok : Bool) : RetainSpec s k (s.retain k ttlS mode nowS ok) := by
  unfold retain
  cases hlen : s.len k with
  | none => exact .kept s.alloc .miss h.alloc.keeps
  | some plen =>
    obtain ⟨ha, href⟩ := retain_held h.alloc (h.keys k).visible ttlS mode nowS
    dsimp only
    split
    · rename_i hp
      obtain ⟨x, hx, hxr⟩ := map_eq_some_iff.mp (href hp)
      rw [← hxr]
      generalize hr : ({
        key := k
        slotSize := x.ref.slotSize
        payloadLen := plen
        retainUntil := (s.alloc.retain k ttlS mode nowS).2.deadline
        retainTtlS := (s.alloc.retain k ttlS mode nowS).2.ttlS } : SlotRecord) = r
      have hw := writeRecord_spec { s with alloc := (s.alloc.retain k ttlS mode nowS).1 } x.ref r
        true ok
      generalize writeRecord { s with alloc := (s.alloc.retain k ttlS mode nowS).1 } x.ref r true
        ok = w at hw ⊢
      subst hr
      cases hw with
      | refused => exact .kept _ _ ha
      | written => exact .written _ _ x _ ha hx hlen rfl rfl
      | broken => exact .broken _ _ ha
    · exact .kept _ _ ha

theorem Inv.retain (h : s.Inv) (k : BlockKey) (ttlS : Nat) (mode : RetainMode) (nowS : Nat)
    (ok : Bool) : (s.retain k ttlS mode nowS ok).1.Inv := by
  have hspec := retain_spec h k ttlS mode nowS ok
  generalize s.retain k ttlS mode nowS ok = r at hspec ⊢
  cases hspec with
  | kept a code ha => exact h.aside ha s.table s.flightResult s.flightCount id
  | written a code x r ha => exact h.aside ha _ s.flightResult s.flightCount id
  | broken a code ha => exact h.aside ha s.table s.flightResult s.flightCount fun _ => rfl

theorem Inv.expireRetention (h : s.Inv) (nowS : Nat) :
    { s with alloc := (s.alloc.expireRetention nowS).1 }.Inv :=
  h.aside (expireRetention_held h.alloc nowS) s.table s.flightResult s.flightCount id

/-! ## Evictions -/

theorem slab_persistent (h : s.Inv) : s.alloc.opt.Persistent := by
  rw [h.options]
  exact ⟨rfl, rfl, rfl⟩

theorem KeyInv.evicted (h : s.Inv) {x : Hold} (hx : s.alloc.held k = some x) (h0 : x.refs = 0)
    (hheld : s'.alloc.held k = none) (hlen : s'.len k = none)
    (hin : s'.inflight k = s.inflight k) (hdef : s'.deferredRemove k = s.deferredRemove k)
    (hcom : s'.commits k = s.commits k) (hreq : SameRequests s s' k) : s'.KeyInv k := by
  have hkey := h.keys k
  have hpins : s.inflight k = 0 := by rw [hkey.pins, hx, elim_some, h0]
  refine ⟨by simp [hheld], by rw [hin, hpins, hheld]; rfl, ?_, by simp [hlen], fun hd => ?_,
    fun t th ht hk => ?_⟩
  · rw [hin, hreq.count, hkey.holders]
  · exact absurd hpins (hkey.deferred (hdef ▸ hd)).1
  · have hold := hreq.threads t th ht hk
    refine (hkey.threads t th hold hk).idle (h.not_holding (hk.symm ▸ hpins) hold) ?_
    rw [hk, hcom]
    exact fun _ hp => hp

/-- A call of the reclaimer: the evicted keys lose their slot and their payload entry. -/
theorem Inv.reclaim (h : s.Inv) {outcomes : List Bool} {r : SlabAllocator × List BlockKey}
    (hr : Sheds (s.alloc.armed outcomes) r.1 r.2) : (s.reclaim r).Inv := by
  obtain ⟨m, u, heq, hlen, hcnt⟩ := eraseEvicted_spec r.2 (s.absorb r.1)
  unfold DiskSlabStore.reclaim
  rw [heq]
  have hheld : ∀ k x, r.1.held k = some x ↔ k ∉ r.2 ∧ s.alloc.held k = some x := fun k x => by
    rw [hr.held, dropKeys_eq_some, held_armed]
  refine ⟨h.valid, hr.inv, hr.opt.trans h.options, h.fresh, fun k => ?_, hcnt h.usage, ?_⟩
  · by_cases hk : k ∈ r.2
    · obtain ⟨x, hx, h0⟩ := hr.idle k hk
      refine KeyInv.evicted h hx h0 ?_ ((hlen k).trans (if_pos hk)) rfl rfl rfl (.of_eq rfl rfl)
      change r.1.held k = none
      rw [hr.held, dropKeys, if_pos hk]
    · refine (h.keys k).frame ⟨⟨rfl, fun hf => ?_, ?_, (hlen k).trans (if_neg hk), rfl, rfl, rfl,
        rfl, fun _ _ _ _ => rfl⟩, .of_eq rfl rfl⟩
      · exact (Bool.or_eq_false_iff.mp hf).1
      · change r.1.held k = s.alloc.held k
        rw [hr.held, dropKeys, if_neg hk, held_armed]
  · refine h.zombies.mono rfl (fun hf => ?_) fun _ k x hx hst => ⟨?_, x, ((hheld k x).mp hx).2, rfl⟩
    · exact Bool.or_eq_true_iff.mpr (Or.inl hf)
    · have hk := ((hheld k x).mp hx).1
      exact hst.imp (fun hl hnone => hl (((hlen k).trans (if_neg hk)).trans hnone)) id

/-! ## The first section of a PUT -/

/-- The outcomes of the leader path: no slot, or a fresh pinned slot for the key and evictions of
keys nobody holds. `calls` are the persistence calls made on the way. -/
inductive LeadSpec (s : DiskSlabStore) (t : Nat) (job : PutJob) (outcomes : List Bool) :
    DiskSlabStore → Prop
  | refused (a : SlabAllocator) (calls : List (MetaCall × Bool)) (failed : Bool)
      (ha : Keeps s.alloc a) (hlog : CallLog calls s.alloc.held s.alloc.held)
      (hfail : failed = (s.failed || calls.any fun c => !c.2)) : LeadSpec s t job outcomes
      ({ s with
          alloc := a
          table := calls.foldl (applyCall s.opt) s.table
          failed := failed
          flightCount := s.flightCount + 1
          flightResult := update s.flightResult s.flightCount (some .ioError) }.setThread t
        (.stored job .ioError))
  | placed (a : SlabAllocator) (calls : List (MetaCall × Bool)) (ref : SlotRef)
      (ev : List BlockKey) (m : AList fun _ : BlockKey => Nat) (u : UInt64 → Nat)
      (hev : ev = ((s.alloc.armed outcomes).put job.key job.data.length).2.evicted)
      (hinv : Slab.Inv a) (hopt : a.opt = s.alloc.opt) (hnone : s.alloc.held job.key = none)
      (hheld : a.held = update (dropKeys s.alloc.held ev) job.key (some ⟨ref, 1, false⟩))
      (hidle : ∀ k ∈ ev, ∃ x, s.alloc.held k = some x ∧ x.refs = 0)
      (hlog : CallLog calls s.alloc.held (dropKeys s.alloc.held ev))
      (hfit : job.data.length ≤ ref.slotSize)
      (hlen : ∀ k, m.lookup k = if k ∈ ev then none else s.len k) (hcnt : s.Counted m u) :
      LeadSpec s t job outcomes
      ({ s with
          alloc := a
          payloadLen := m
          tenantUsed := u
          inflight := update s.inflight job.key (s.inflight job.key + 1)
          putFlights := update s.putFlights job.key (some s.flightCount)
          flightCount := s.flightCount + 1
          table := calls.foldl (applyCall s.opt) s.table
          failed := s.failed || calls.any fun c => !c.2 }.setThread t
        (.writing job ref s.flightCount 0))

theorem lead_spec (h : s.Inv) (t : Nat) (job : PutJob) (outcomes : List Bool) :
    LeadSpec s t job outcomes (s.lead t job outcomes) := by
  unfold lead
  dsimp only
  split
  · exact .refused s.alloc [] s.failed h.alloc.keeps (.nil _) (by simp)
  rename_i hc
  have hnone : s.alloc.held job.key = none := by
    rw [contains_held h.alloc] at hc
    cases hx : s.alloc.held job.key with
    | none => rfl
    | some x => simp [hx, (h.keys job.key).visible x hx] at hc
  have hput := put_held h.alloc (slab_persistent h) outcomes job.data.length hnone
  generalize hr : (s.alloc.armed outcomes).put job.key job.data.length = r at hput ⊢
  cases hput with
  | failed hok _ hsh =>
    rw [if_pos hok]
    have hheld : r.1.held = s.alloc.held := by rw [hsh.held, dropKeys_nil, held_armed]
    exact .refused r.1 r.1.env.calls _ ⟨hsh.inv, hsh.opt, hheld⟩ (hheld ▸ hsh.log) rfl
  | placed hok hfit hinv hopt hheld hidle hlog =>
    rw [if_neg (by simp [hok])]
    have hself : r.1.held job.key = some ⟨r.2.ref, 0, false⟩ := by
      rw [hheld, update_self]
    have hpin := pin_held hinv hself rfl
    -- the payload entries of the evicted keys go last
    generalize hs₁ : ({ s with
      alloc := (r.1.pin job.key).1
      inflight := update s.inflight job.key (s.inflight job.key + 1)
      putFlights := update s.putFlights job.key (some s.flightCount)
      flightCount := s.flightCount + 1
      table := r.1.env.calls.foldl (applyCall s.opt) s.table
      failed := s.failed || r.1.env.calls.any fun c => !c.2 } : DiskSlabStore) = s₁
    obtain ⟨m, u, heq, hlen, hcnt⟩ := eraseEvicted_spec r.2.evicted s₁
    subst hs₁
    dsimp only [absorb]
    rw [heq]
    refine .placed _ _ _ r.2.evicted m u (by rw [hr]) hpin.inv (hpin.opt.trans hopt) hnone ?_ hidle
      hlog hfit hlen hcnt
    rw [hpin.held, hheld, update_idem]
    rfl

theorem LeadSpec.same {outcomes : List Bool} (h : LeadSpec s t job outcomes s') {k : BlockKey}
    (hk : k ≠ job.key) (hev : k ∉ ((s.alloc.armed outcomes).put job.key
      job.data.length).2.evicted) :
    SameBooks s s' k := by
  cases h with
  | refused a calls failed ha _ hfail =>
    refine ⟨rfl, fun hf => ?_, congrFun ha.held k, rfl, rfl, rfl, rfl, rfl, fun _ _ _ _ => rfl⟩
    exact (Bool.or_eq_false_iff.mp (hfail.symm.trans hf)).1
  | placed a calls ref ev m u hev' _ _ _ hheld _ _ _ hlen =>
    rw [← hev'] at hev
    refine ⟨rfl, fun hf => (Bool.or_eq_false_iff.mp hf).1, ?_, (hlen k).trans (if_neg hev),
      update_of_ne hk _ _, rfl, update_of_ne hk _ _, rfl, fun _ _ _ _ => rfl⟩
    change a.held k = s.alloc.held k
    rw [hheld, update_of_ne hk, dropKeys, if_neg hev]

theorem ZombieInv.healthy (h : s.ZombieInv) (hf : s.failed = false)
    (hz : s'.zombies = s.zombies) : s'.ZombieInv := by
  intro z hmem
  rw [hz] at hmem
  exact absurd (h z hmem).1 (by simp [hf])

theorem Inv.lead (h : s.Inv) (ht : s.threads t = some (.judging job)) (hf : s.failed = false)
    (hlen : s.len job.key = none) (outcomes : List Bool) : (s.lead t job outcomes).Inv := by
  have hspec := lead_spec h t job outcomes
  generalize s.lead t job outcomes = s' at hspec ⊢
  have hsame := fun k => hspec.same (k := k)
  cases hspec with
  | refused a calls failed ha _ hfail =>
    exact (h.aside ha _ _ _ fun hf => by rw [hfail, hf, Bool.true_or]).setThread ht rfl rfl nofun
      trivial
  | placed a calls ref ev m u hev' hinv hopt hnone hheld hidle _ hfit hlen' hcnt =>
    have hkey := h.keys job.key
    have hpins : s.inflight job.key = 0 := by rw [hkey.pins, hnone, elim_none]
    have hself : a.held job.key = some ⟨ref, 1, false⟩ := by rw [hheld, update_self]
    have hnone' : m.lookup job.key = none := by
      rw [hlen', hlen]
      split <;> rfl
    refine ⟨h.valid, hinv, hopt.trans h.options, fresh_update h.fresh (h.lt_spawned ht),
      fun k => ?_, hcnt h.usage, h.zombies.healthy hf rfl⟩
    rcases eq_or_ne k job.key with rfl | hk
    · refine KeyInv.replace h ht rfl rfl ?_ ?_ ?_ ?_ ?_ ?_ ?_
      · exact fun x hx => some.inj (hself.symm.trans hx) ▸ rfl
      · refine (update_self ..).trans ?_
        rw [hpins]
        exact (congrArg (·.elim 0 Hold.refs) hself).symm
      · refine (congrArg (· + _) (update_self ..)).trans ?_
        simp [holds, holding, key]
      · exact fun n hn => absurd (hnone'.symm.trans hn) (by simp)
      · exact fun hd => absurd hpins (hkey.deferred hd).1
      · exact ⟨⟨hself, hnone', update_self .., hfit⟩, fun _ => rfl⟩
      · exact fun t' th' _ ht' hk => (hkey.threads t' th' ht' hk).idle
          (h.not_holding (hk.symm ▸ hpins) ht') fun _ hp => hp
    · have hk' : job.key ≠ k := Ne.symm hk
      by_cases hev : k ∈ ev
      · obtain ⟨x, hx, h0⟩ := hidle k hev
        refine KeyInv.evicted h hx h0 ?_ ((hlen' k).trans (if_pos hev))
          (update_of_ne hk _ _) rfl rfl (.replace h ht rfl rfl hk' hk')
        change a.held k = none
        rw [hheld, update_of_ne hk, dropKeys, if_pos hev]
      · exact (h.keys k).frame ⟨hsame k hk (hev' ▸ hev), .replace h ht rfl rfl hk' hk'⟩

theorem Inv.judge (h : s.Inv) (ht : s.threads t = some (.judging job)) (outcomes : List Bool) :
    (s.judge t job outcomes).Inv := by
  unfold DiskSlabStore.judge
  split
  · exact h.setThread ht rfl rfl nofun trivial
  split
  · exact h.setThread ht rfl rfl nofun trivial
  split
  · exact h.setThread ht rfl rfl nofun trivial
  split
  · exact h.setThread ht rfl rfl nofun trivial
  · rename_i hf hc _ _ _
    exact h.lead ht (by simpa using hf) (by simpa [isCached] using hc) outcomes

/-! ## The payload and its record -/

theorem sameSlot_of_apart {ref' : SlotRef} {off : Nat} {bs : List UInt8} (hap : ref.Apart ref')
    (hext : s'.extents = update s.extents ref.extent ((s.extents ref.extent).pwrite off bs))
    (hoff : ref.offset ≤ off) (hend : off + bs.length ≤ ref.offset + ref.slotSize) :
    SameSlot s s' ref' := by
  intro i hi
  rw [hext]
  by_cases he : ref'.extent = ref.extent
  · rw [he, update_self]
    refine FlatFile.pwrite_of_apart ?_
    rcases (hap he.symm).2 with hle | hle
    · exact Or.inr (by omega)
    · exact Or.inl (by omega)
  · rw [update_of_ne he]

theorem Leads.inflight (h : s.Inv) (hl : s.Leads job ref flight) : s.inflight job.key = 1 := by
  rw [(h.keys job.key).pins, hl.held, elim_some]

theorem Inv.pwrite (h : s.Inv) {n : Nat} (ht : s.threads t = some (.writing job ref flight done))
    (hn : done + n ≤ (s.opt.payloadBuffer job ref).length) :
    (s.pwriteSome t job ref flight done n).Inv := by
  have hkey := h.keys job.key
  obtain ⟨hl, hst⟩ : s.ThreadOk (.writing job ref flight done) := hkey.threads t _ ht rfl
  have h1 : s.inflight (writing job ref flight done).key = 1 := hl.inflight h
  have hfit := payloadBuffer_length_le s.opt hl.fits
  unfold pwriteSome
  dsimp only
  generalize hc : ((s.opt.payloadBuffer job ref).drop done).take n = chunk
  have hclen : chunk.length = n := by
    rw [← hc, List.length_take, List.length_drop]
    omega
  refine h.act ht rfl rfl rfl rfl h.alloc rfl (fun k hk => ?_) ?_ id ?_
  · refine ⟨rfl, id, rfl, rfl, rfl, rfl, rfl, rfl, fun x hx => ?_⟩
    have hap : ref.Apart x.ref := h.alloc.held_apart hl.held hx (Ne.symm hk)
    exact sameSlot_of_apart hap rfl (by omega) (by omega)
  · refine KeyInv.replace h ht rfl rfl hkey.visible hkey.pins rfl ?_ hkey.deferred
      ⟨⟨hl.held, hl.len, hl.flight, hl.fits⟩, fun hf => ?_⟩ ?_
    · exact fun v hv => absurd (hl.len.symm.trans hv) (by simp)
    · -- the bytes written so far, followed by the chunk
      have htake : ((s.opt.payloadBuffer job ref).take done).length = done := by
        rw [List.length_take]
        omega
      have happ := FlatFile.pread_pwrite_append (q := chunk) (hst hf)
      rw [htake] at happ
      change FlatFile.pread (update s.extents ref.extent _ ref.extent) ref.offset
        ((s.opt.payloadBuffer job ref).take (done + n)).length =
          (s.opt.payloadBuffer job ref).take (done + n)
      rw [update_self, List.take_add, hc]
      exact happ
    · exact fun t' th' hne ht' hk => (hkey.threads t' th' ht' hk).idle
        (h.sole h1 ht rfl ht' hne hk) fun _ hp => hp
  · exact h.zombies.mono rfl id fun _ k x hx hs =>
      ⟨hs.of_setThread rfl ht id nofun, x, hx, rfl⟩

theorem payloadBuffer_eq (o : Options) (job : PutJob) (ref : SlotRef) :
    ∃ pad, o.payloadBuffer job ref = job.data ++ pad := by
  unfold Options.payloadBuffer
  split
  · exact ⟨_, rfl⟩
  · exact ⟨[], (List.append_nil _).symm⟩

theorem Inv.record (h : s.Inv) (ht : s.threads t = some (.writing job ref flight done))
    (hd : done = (s.opt.payloadBuffer job ref).length) (ok : Bool) :
    (s.recordPut t job ref flight ok).Inv := by
  obtain ⟨hl, hst⟩ : s.ThreadOk (.writing job ref flight done) :=
    (h.keys job.key).threads t _ ht rfl
  have hdata (hf : s.failed = false) : s.Stored ref job.data := by
    obtain ⟨pad, hpad⟩ := payloadBuffer_eq s.opt job ref
    have hall := hst hf
    rw [hd, List.take_length, hpad] at hall
    exact FlatFile.pread_of_append hall
  unfold recordPut
  have hw := s.writeRecord_spec ref
    { key := job.key, slotSize := ref.slotSize, payloadLen := job.data.length } true ok
  dsimp only
  generalize s.writeRecord ref _ true ok = w at hw ⊢
  cases hw with
  | refused hf =>
    exact h.setThread ht rfl rfl nofun ⟨hl, nofun⟩
  | written hf =>
    exact (h.aside h.alloc.keeps _ s.flightResult s.flightCount id).setThread ht rfl rfl nofun
      ⟨⟨hl.held, hl.len, hl.flight, hl.fits⟩, fun _ => hdata⟩
  | broken =>
    exact h.fail.setThread ht rfl rfl nofun ⟨⟨hl.held, hl.len, hl.flight, hl.fits⟩, nofun⟩

/-! ## The second section of a PUT -/

/-- How a leader leaves: without a slot after a failed write, with a committed key, or behind a
remove that arrived meanwhile, whose record was written or was not. -/
inductive FinishSpec (s : DiskSlabStore) (t : Nat) (job : PutJob) (ref : SlotRef) (flight : Nat)
    (ioOk : Bool) : DiskSlabStore → Prop
  | aborted (a : SlabAllocator) (ha : Rewrites s.alloc a job.key none)
      (hd : s.deferredRemove job.key = false) (hio : ioOk = false ∨ s.failed = true) :
      FinishSpec s t job ref flight ioOk
      ({ s with
          alloc := a
          inflight := update s.inflight job.key 0
          putFlights := update s.putFlights job.key none
          flightResult := update s.flightResult flight (some .ioError) }.setThread t
        (.stored job .ioError))
  | committed (a : SlabAllocator) (m : AList fun _ : BlockKey => Nat) (u : UInt64 → Nat)
      (ha : Rewrites s.alloc a job.key (some ⟨ref, 0, false⟩))
      (hd : s.deferredRemove job.key = false) (hio : ioOk = true) (hf : s.failed = false)
      (hlen : ∀ k, m.lookup k = if k = job.key then some job.data.length else s.len k)
      (hcnt : s.Counted m u) : FinishSpec s t job ref flight ioOk
      ({ s with
          alloc := a
          payloadLen := m
          tenantUsed := u
          inflight := update s.inflight job.key 0
          putFlights := update s.putFlights job.key none
          flightResult := update s.flightResult flight (some .ok)
          commits := update s.commits job.key (job.data :: s.commits job.key) }.setThread t
        (.stored job .ok))
  | removed (a : SlabAllocator) (result : Status) (ha : Rewrites s.alloc a job.key none)
      (hd : s.deferredRemove job.key = true) (hf : s.failed = false)
      (hres : result = if ioOk then .ok else .ioError) : FinishSpec s t job ref flight ioOk
      ({ s with
          alloc := a
          inflight := update s.inflight job.key 0
          deferredRemove := update s.deferredRemove job.key false
          table := s.table.pwrite (s.opt.tableOffset ref.extent ref.slot)
            (((tombstone job.key ref).encode false).pread 0 kRecBytes)
          putFlights := update s.putFlights job.key none
          flightResult := update s.flightResult flight (some result) }.setThread t
        (.stored job result))
  | lost (a : SlabAllocator) (ha : Rewrites s.alloc a job.key (some ⟨ref, 0, false⟩))
      (hd : s.deferredRemove job.key = true) : FinishSpec s t job ref flight ioOk
      ({ s with
          alloc := a
          inflight := update s.inflight job.key 0
          deferredRemove := update s.deferredRemove job.key false
          failed := true
          putFlights := update s.putFlights job.key none
          flightResult := update s.flightResult flight (some .ioError) }.setThread t
        (.stored job .ioError))

theorem finish_spec (h : s.Inv) (hl : s.Leads job ref flight) (t : Nat) (ioOk ok : Bool) :
    FinishSpec s t job ref flight ioOk (s.finish t job flight ioOk ok) := by
  have hrel := releaseInflight_spec h hl.held Nat.one_ne_zero ok
  unfold finish
  dsimp only
  generalize s.releaseInflight job.key ok = r at hrel ⊢
  cases hrel with
  | kept a ha hd =>
    have hd : s.deferredRemove job.key = false := hd.resolve_left fun hne => hne rfl
    simp only [hd, Bool.false_eq_true, if_false]
    split
    · rename_i hio
      exact .aborted _ (ha.remove rfl) hd (by simpa using hio)
    · rename_i hio
      simp only [not_or, Bool.not_eq_false, Bool.not_eq_true] at hio
      obtain ⟨hio, -, hf⟩ := hio
      generalize hs₁ : ({ s with
        alloc := a
        inflight := update s.inflight job.key (1 - 1) } : DiskSlabStore) = s₁
      obtain ⟨m, u, heq, hlen, hcnt⟩ := s₁.commitPayload_spec job.key job.data.length
      subst hs₁
      rw [heq]
      exact .committed a m u ha hd hio hf hlen hcnt
  | removed a ha h1 hd hf =>
    simp only [hd, if_true]
    cases ioOk with
    | false => exact .removed a .ioError ha hd hf rfl
    | true =>
      rw [if_neg (by simp [hf])]
      exact .removed a .ok ha hd hf rfl
  | lost a ha h1 hd =>
    simp only [hd, if_true]
    rw [if_pos (Or.inr (Or.inl trivial))]
    exact .lost a ha hd

/-- A leader that leaves touches the books of its own key only. -/
theorem FinishSpec.same {ioOk : Bool} (h : FinishSpec s t job ref flight ioOk s') :
    ∀ k, k ≠ job.key → SameBooks s s' k := by
  have hin : ∀ k', k' ≠ job.key → update s.inflight job.key 0 k' = s.inflight k' :=
    fun _ hk => update_of_ne hk _ _
  have hfl : ∀ k', k' ≠ job.key → update s.putFlights job.key none k' = s.putFlights k' :=
    fun _ hk => update_of_ne hk _ _
  have hdef : ∀ k', k' ≠ job.key → update s.deferredRemove job.key false k' = s.deferredRemove k' :=
    fun _ hk => update_of_ne hk _ _
  cases h with
  | aborted a ha hd _ =>
    exact .of_rewrites ha rfl id (fun _ _ => rfl) hin (fun _ _ => rfl) hfl (fun _ _ => rfl) rfl
  | committed a m u ha hd hio hf hlen hcnt =>
    exact .of_rewrites ha rfl id (fun k hk => (hlen k).trans (if_neg hk)) hin (fun _ _ => rfl) hfl
      (fun _ hk => update_of_ne hk _ _) rfl
  | removed a result ha hd _ _ =>
    exact .of_rewrites ha rfl id (fun _ _ => rfl) hin hdef hfl (fun _ _ => rfl) rfl
  | lost a ha hd =>
    exact .of_rewrites ha rfl nofun (fun _ _ => rfl) hin hdef hfl (fun _ _ => rfl) rfl

theorem Inv.finish (h : s.Inv) {ioOk : Bool}
    (ht : s.threads t = some (.finishing job ref flight ioOk)) (ok : Bool) :
    (s.finish t job flight ioOk ok).Inv := by
  have hkey := h.keys job.key
  obtain ⟨hl, hst⟩ : s.ThreadOk (.finishing job ref flight ioOk) := hkey.threads t _ ht rfl
  have h1 : s.inflight (finishing job ref flight ioOk).key = 1 := hl.inflight h
  have hspec := finish_spec h hl t ioOk ok
  generalize s.finish t job flight ioOk ok = s' at hspec ⊢
  have hsame := hspec.same
  cases hspec with
  | aborted a ha hd _ =>
    exact h.leave ht rfl h1 hl.len hl.held ha (by simp) rfl rfl rfl rfl trivial rfl hsame
      (update_self ..) hd rfl rfl rfl rfl id
  | committed a m u ha hd hio hf hlen hcnt =>
    have hheld : a.held job.key = some ⟨ref, 0, false⟩ := by rw [ha.held, update_self]
    have hmem : ∀ p ∈ job.data :: s.commits job.key,
        p ∈ update s.commits job.key (job.data :: s.commits job.key) job.key := by
      rw [update_self]
      exact fun _ hp => hp
    refine h.act ht rfl rfl rfl rfl ha.inv ha.opt hsame ?_ hcnt (h.zombies.healthy hf rfl)
    refine KeyInv.replace h ht rfl rfl ?_ ?_ ?_ ?_ ?_ trivial ?_
    · exact fun x hx => some.inj (hheld.symm.trans hx) ▸ rfl
    · exact (update_self ..).trans (congrArg (·.elim 0 Hold.refs) hheld).symm
    · refine (congrArg (· + _) (update_self ..)).trans ?_
      rw [h1]
      simp [holds, holding, key]
    · intro n hn
      have hn : some job.data.length = some n := ((hlen job.key).trans (if_pos rfl)).symm.trans hn
      exact ⟨_, job.data, hheld, hmem _ List.mem_cons_self, some.inj hn, hst hio hf,
        some.inj hn ▸ hl.fits⟩
    · exact fun hd' => absurd (hd.symm.trans hd') (by simp)
    · intro t' th' hne ht' hk
      refine (hkey.threads t' th' ht' hk).idle (h.sole h1 ht rfl ht' hne hk) fun p hp => ?_
      rw [show th'.key = job.key from hk] at hp ⊢
      exact hmem _ (List.mem_cons_of_mem _ hp)
  | removed a result ha hd _ _ =>
    exact h.leave ht rfl h1 hl.len hl.held ha (by simp) rfl rfl rfl rfl trivial rfl hsame
      (update_self ..) (update_self ..) rfl rfl rfl rfl id
  | lost a ha hd =>
    refine h.leave ht rfl h1 hl.len hl.held ha ?_ rfl rfl rfl rfl trivial rfl hsame
      (update_self ..) (update_self ..) rfl rfl rfl rfl fun _ => rfl
    rintro _ ⟨⟩
    rfl

/-! ## Remove -/

/-- The outcomes of `Remove`: refused, a miss, left to the last holder, done, or stopped by the
record write. -/
inductive RemoveSpec (s : DiskSlabStore) (k : BlockKey) : DiskSlabStore × Status → Prop
  | refused (hf : s.failed = true) : RemoveSpec s k (s, .ioError)
  | missing (a : SlabAllocator) (ha : Keeps s.alloc a) (hf : s.failed = false)
      (hnone : s.alloc.held k = none) : RemoveSpec s k ({ s with alloc := a }, .notFound)
  | deferred (a : SlabAllocator) (m : AList fun _ : BlockKey => Nat) (u : UInt64 → Nat)
      (ha : Keeps s.alloc a) (hf : s.failed = false) (hin : s.inflight k ≠ 0)
      (hlen : ∀ k', m.lookup k' = if k' = k then none else s.len k') (hcnt : s.Counted m u) :
      RemoveSpec s k
      ({ s with
          alloc := a
          payloadLen := m
          tenantUsed := u
          deferredRemove := update s.deferredRemove k true }, .ok)
  | removed (a : SlabAllocator) (x : Hold) (m : AList fun _ : BlockKey => Nat) (u : UInt64 → Nat)
      (ha : Rewrites s.alloc a k none) (hx : s.alloc.held k = some x) (h0 : x.refs = 0)
      (hf : s.failed = false) (hlen : ∀ k', m.lookup k' = if k' = k then none else s.len k')
      (hcnt : s.Counted m u) : RemoveSpec s k
      ({ s with
          alloc := a
          payloadLen := m
          tenantUsed := u
          table := s.table.pwrite (s.opt.tableOffset x.ref.extent x.ref.slot)
            (((tombstone k x.ref).encode false).pread 0 kRecBytes) }, .ok)
  | broken (a : SlabAllocator) (ha : Keeps s.alloc a) (hf : s.failed = false) : RemoveSpec s k
      ({ s with alloc := a, failed := true }, .ioError)

theorem remove_spec (h : s.Inv) (k : BlockKey) (ok : Bool) : RemoveSpec s k (s.remove k ok) := by
  have hkey := h.keys k
  unfold remove
  split
  · exact .refused ‹_›
  rename_i hf
  have hf : s.failed = false := by simpa using hf
  obtain ⟨hkeep, href⟩ := get_held h.alloc hkey.visible
  dsimp only
  cases hx : s.alloc.held k with
  | none =>
    rw [href, hx]
    exact .missing _ hkeep hf hx
  | some x =>
    rw [href, hx, map_some]
    have hpins : s.inflight k = x.refs := by rw [hkey.pins, hx, elim_some]
    generalize (s.alloc.get k).1 = a at hkeep ⊢
    dsimp only
    split
    · rename_i hin
      generalize hs₁ : ({ s with
        alloc := a
        deferredRemove := update s.deferredRemove k true } : DiskSlabStore) = s₁
      obtain ⟨m, u, heq, hlen, hcnt⟩ := s₁.erasePayload_spec k
      subst hs₁
      rw [heq]
      exact .deferred a m u hkeep hf hin hlen hcnt
    · rename_i hin
      have h0 : x.refs = 0 := by omega
      have hrem := remove_held hkeep.inv (k := k) fun y hy => by
        rw [hkeep.held, hx] at hy
        exact some.inj hy ▸ h0
      have hinval := invalidate_spec { s with alloc := a } k x.ref ok
      generalize invalidate { s with alloc := a } k x.ref ok = w at hinval ⊢
      cases hinval with
      | done _ =>
        generalize hs₁ : ({ s with
          alloc := (a.remove k).1
          table := s.table.pwrite (s.opt.tableOffset x.ref.extent x.ref.slot)
            (((tombstone k x.ref).encode false).pread 0 kRecBytes) } : DiskSlabStore) = s₁
        obtain ⟨m, u, heq, hlen, hcnt⟩ := s₁.erasePayload_spec k
        subst hs₁
        rw [if_pos rfl, heq]
        refine .removed _ x m u ⟨hrem.inv, hrem.opt.trans hkeep.opt, ?_⟩ hx h0 hf hlen hcnt
        rw [hrem.held, hkeep.held]
      | broken => exact .broken a hkeep hf

theorem RemoveSpec.same {r : DiskSlabStore × Status} (h : RemoveSpec s k r) :
    ∀ k', k' ≠ k → SameBooks s r.1 k' := by
  cases h with
  | refused => exact fun _ _ => ⟨rfl, id, rfl, rfl, rfl, rfl, rfl, rfl, fun _ _ _ _ => rfl⟩
  | missing a ha =>
    exact fun k' _ => ⟨rfl, id, congrFun ha.held k', rfl, rfl, rfl, rfl, rfl, fun _ _ _ _ => rfl⟩
  | deferred a m u ha hf hin hlen hcnt =>
    exact fun k' hk => ⟨rfl, id, congrFun ha.held k', (hlen k').trans (if_neg hk), rfl,
      update_of_ne hk _ _, rfl, rfl, fun _ _ _ _ => rfl⟩
  | removed a x m u ha hx h0 hf hlen hcnt =>
    exact .of_rewrites ha rfl id (fun k' hk => (hlen k').trans (if_neg hk)) (fun _ _ => rfl)
      (fun _ _ => rfl) (fun _ _ => rfl) (fun _ _ => rfl) rfl
  | broken a ha =>
    exact fun k' _ => ⟨rfl, nofun, congrFun ha.held k', rfl, rfl, rfl, rfl, rfl, fun _ _ _ _ => rfl⟩

/-- A remove that is left to the last holder changes nothing for the holders. -/
theorem ThreadOk.deferred (h : s.ThreadOk th) (hopt : s'.opt = s.opt)
    (hf : s'.failed = s.failed) (hheld : s'.alloc.held = s.alloc.held)
    (hlen : s'.len th.key = none) (hdef : s'.deferredRemove th.key)
    (hfl : s'.putFlights = s.putFlights) (hcom : s'.commits = s.commits)
    (hext : s'.extents = s.extents) : s'.ThreadOk th := by
  have hst {ref : SlotRef} {p : List UInt8} (hp : s.Stored ref p) : s'.Stored ref p := by
    unfold Stored at hp ⊢
    rw [hext]
    exact hp
  have hlead {job : PutJob} {ref : SlotRef} {flight : Nat} (hl : s.Leads job ref flight)
      (hk : s'.len job.key = none) : s'.Leads job ref flight :=
    ⟨hheld ▸ hl.held, hk, hfl ▸ hl.flight, hl.fits⟩
  cases th with
  | writing job ref flight done =>
    refine ⟨hlead h.1 hlen, fun hf' => ?_⟩
    rw [hopt]
    exact hst (h.2 (hf ▸ hf'))
  | finishing job ref flight ioOk =>
    exact ⟨hlead h.1 hlen, fun hio hf' => hst (h.2 hio (hf ▸ hf'))⟩
  | reading job ref plen buf =>
    obtain ⟨⟨n, hn⟩, -, hfit, p, hp, hpl, hs, hcop⟩ := h
    exact ⟨⟨n, hheld ▸ hn⟩, Or.inr ⟨hlen, hdef⟩, hfit, p, hcom ▸ hp, hpl, hst hs, hopt.symm ▸ hcop⟩
  | fetched job status data valueLen =>
    intro hok
    rw [hcom]
    exact h hok
  | _ => exact trivial

theorem Inv.remove (h : s.Inv) (k : BlockKey) (ok : Bool) : (s.remove k ok).1.Inv := by
  have hkey := h.keys k
  have hspec := remove_spec h k ok
  generalize s.remove k ok = r at hspec ⊢
  have hsame := hspec.same
  cases hspec with
  | refused => exact h
  | missing a ha => exact h.aside ha s.table s.flightResult s.flightCount id
  | deferred a m u ha hf hin hlen hcnt =>
    have hheld (k : BlockKey) : a.held k = s.alloc.held k := congrFun ha.held k
    have hnone : m.lookup k = none := (hlen k).trans (if_pos rfl)
    refine h.touch rfl rfl rfl ha.inv ha.opt hsame ?_ hcnt (h.zombies.healthy hf rfl)
    refine ⟨fun x hx => hkey.visible x ((hheld k).symm.trans hx), ?_, hkey.holders, ?_, ?_, ?_⟩
    · exact hkey.pins.trans (congrArg (·.elim 0 Hold.refs) (hheld k).symm)
    · exact fun n hn => absurd (hnone.symm.trans hn) (by simp)
    · exact fun _ => ⟨hin, hnone⟩
    · intro t th ht hk
      refine (hkey.threads t th ht hk).deferred rfl rfl ha.held ?_ ?_ rfl rfl rfl
      · rw [hk]
        exact hnone
      · rw [hk]
        exact update_self ..
  | removed a x m u ha hx h0 hf hlen hcnt =>
    refine h.touch rfl rfl rfl ha.inv ha.opt hsame ?_ hcnt (h.zombies.healthy hf rfl)
    refine KeyInv.evicted h hx h0 ?_ ((hlen k).trans (if_pos rfl)) rfl rfl rfl (.of_eq rfl rfl)
    exact (congrFun ha.held k).trans (update_self ..)
  | broken a ha => exact h.aside ha s.table s.flightResult s.flightCount fun _ => rfl

/-! ## Lost writes -/

theorem Leads.not_stable (h : s.Inv) (ht : s.threads t = some th) (hh : th.holding)
    (hr : th.isReader = false) (hl : s.Leads job ref flight) (hk : th.key = job.key) :
    ¬s.Stable job.key := by
  have h1 : s.inflight th.key = 1 := hk ▸ hl.inflight h
  rintro (hlen | ⟨t', th', ht', hr', hk'⟩)
  · exact hlen hl.len
  · have hne : t' ≠ t := by
      rintro rfl
      rw [some.inj (ht.symm.trans ht'), hr'] at hr
      simp at hr
    have hidle := h.sole h1 ht hh ht' hne (hk'.trans hk.symm)
    cases th' <;> simp_all [isReader, holding]

theorem Inv.reapFail (h : s.Inv) (ht : s.threads t = some (.writing job ref flight done)) :
    (s.reapFail t job ref flight).Inv := by
  have hkey := h.keys job.key
  obtain ⟨hl, -⟩ : s.ThreadOk (.writing job ref flight done) := hkey.threads t _ ht rfl
  have h1 : s.inflight (writing job ref flight done).key = 1 := hl.inflight h
  have hns := hl.not_stable h ht rfl rfl rfl
  refine h.act ht rfl rfl rfl rfl h.alloc rfl (fun k hk => ?_) ?_ id ?_
  · exact ⟨rfl, nofun, rfl, rfl, rfl, rfl, rfl, rfl, fun _ _ _ _ => rfl⟩
  · refine KeyInv.replace h ht rfl rfl hkey.visible hkey.pins rfl ?_ hkey.deferred
      ⟨⟨hl.held, hl.len, hl.flight, hl.fits⟩, nofun⟩ ?_
    · exact fun v hv => absurd (hl.len.symm.trans hv) (by simp)
    · exact fun t' th' hne ht' hk => (hkey.threads t' th' ht' hk).idle
        (h.sole h1 ht rfl ht' hne hk) fun _ hp => hp
  · intro z hmem
    have hst {k : BlockKey} (hs : (s.reapFail t job ref flight).Stable k) : s.Stable k :=
      hs.of_setThread rfl ht id nofun
    rcases List.mem_cons.mp hmem with rfl | hold
    · refine ⟨rfl, payloadBuffer_length_le s.opt hl.fits, fun k x hx hs => ?_⟩
      have hk : job.key ≠ k := fun hk => hns (hk ▸ hst hs)
      exact h.alloc.held_apart hl.held hx hk
    · obtain ⟨-, hlen, hap⟩ := h.zombies z hold
      exact ⟨rfl, hlen, fun k x hx hs => hap k x hx (hst hs)⟩

/-- A lost write lands on a slot nobody relies on: committed keys and readers lie elsewhere, and in
a failed store nothing is promised to a leader. -/
theorem Inv.land (h : s.Inv) {z : Zombie} (hz : z ∈ s.zombies) (pos : Nat) : (s.land
    z pos).Inv := by
  obtain ⟨hf, hlen, hap⟩ := h.zombies z hz
  unfold DiskSlabStore.land
  by_cases hpos : pos < z.buf.length
  · have hchunk : ((z.buf.drop pos).take 1).length = 1 := by
      rw [List.length_take, List.length_drop]
      omega
    refine ⟨h.valid, h.alloc, h.options, h.fresh, fun k => ?_, h.usage, h.zombies⟩
    have hkey := h.keys k
    by_cases hst : s.Stable k
    · exact hkey.frame ⟨⟨rfl, id, rfl, rfl, rfl, rfl, rfl, rfl, fun x hx =>
        sameSlot_of_apart (hap k x hx hst) rfl (by omega) (by omega)⟩, .of_eq rfl rfl⟩
    · refine ⟨hkey.visible, hkey.pins, hkey.holders, fun n hn => ?_, hkey.deferred,
        fun t th ht hk => ?_⟩
      · exact absurd (Or.inl (hn.trans_ne (some_ne_none n))) hst
      · have hok := hkey.threads t th ht hk
        have hff : ¬s.failed = false := by simp [hf]
        cases th with
        | writing => exact ⟨⟨hok.1.held, hok.1.len, hok.1.flight, hok.1.fits⟩,
            fun h => absurd h hff⟩
        | finishing =>
          exact ⟨⟨hok.1.held, hok.1.len, hok.1.flight, hok.1.fits⟩, fun _ h => absurd h hff⟩
        | reading => exact absurd (Or.inr ⟨t, _, ht, rfl, hk⟩) hst
        | _ => exact hok
  · rw [List.drop_eq_nil_of_le (by omega), List.take_nil, FlatFile.pwrite_nil, update_eq_self]
    exact h

end DingoCache.Store.DiskSlabStore
