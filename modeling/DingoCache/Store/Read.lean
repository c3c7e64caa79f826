import DingoCache.Store.Run

/-!
# A Read of the Disk Store

What `Range`, `RangeInto`, `RangeDirect` and a completed `RangeDirectPrep` return when
they take their steps in one go, in any reachable state, and that a restart keeps it.
-/

namespace DingoCache.Store

open Library Slab

variable {key : BlockKey}

/-! ## Answers -/

/-- What a read call returns: the status and, with `kOk`, the bytes and the length of the stored
value. -/
structure Answer where
  status : Status
  data : List UInt8 := []
  valueLen : Nat := 0
deriving DecidableEq

/-- The bytes of `v` from `offset` on, at most `length` of them unless `length` is zero. -/
def slice (v : List UInt8) (offset length : Nat) : List UInt8 :=
  (v.drop offset).take (if length = 0 then v.length - offset else min length (v.length - offset))

/-- The bytes of `v` that a call delivers. -/
def ReadJob.delivered (job : ReadJob) (v : List UInt8) : List UInt8 :=
  match job.kind with
  | .range | .rangeDirectPrep => slice v job.offset job.length
  | .rangeInto | .rangeDirect _ => (slice v job.offset job.length).take job.cap

open ReadJob

/-- The pages around the range do not fit the buffer of a direct read. -/
def ReadJob.Narrow (job : ReadJob) (v : List UInt8) : Prop :=
  job.offset ≠ v.length ∧
    job.cap < padLen (job.offset % 4096 + (slice v job.offset job.length).length)

instance (job : ReadJob) (v : List UInt8) : Decidable (job.Narrow v) :=
  inferInstanceAs (Decidable (_ ∧ _))

/-- The answer of one read of the value `v`. -/
def ReadJob.answer (job : ReadJob) (v : List UInt8) : Answer :=
  if v.length < job.offset then { status := .invalid }
  else if job.kind = .rangeDirectPrep ∧ job.Narrow v then { status := .invalid }
  else ⟨.ok, job.delivered v, v.length⟩

def Thread.answer : Thread → Answer
  | .fetched _ status data valueLen => ⟨status, data, valueLen⟩
  | _ => { status := .invalid }

section Slices

variable {v : List UInt8} {job : ReadJob} {offset length : Nat}

theorem length_slice : (slice v offset length).length =
    if length = 0 then v.length - offset else min length (v.length - offset) := by
  unfold slice
  rw [List.length_take, List.length_drop]
  split <;> omega

theorem span_eq (job : ReadJob) (v : List UInt8) :
    job.span v.length = (slice v job.offset job.length).length := by
  rw [length_slice, span]
  by_cases h : job.length = 0
  · rw [if_neg (by simp [h]), if_pos h, Nat.min_self]
  · rw [if_pos h, if_neg h]

theorem slice_eq (v : List UInt8) (job : ReadJob) :
    slice v job.offset job.length = (v.drop job.offset).take (job.span v.length) := by
  rw [span_eq, length_slice, slice]

theorem slice_self : slice v v.length length = [] := by
  simp [slice]

theorem le_padLen (n : Nat) : n ≤ padLen n := by
  unfold padLen
  omega

end Slices

namespace DiskSlabStore

variable {s : DiskSlabStore} {v : List UInt8}

/-! ## The committed value -/

/-- The committed payload of `key`, as it lies on its slot. -/
def value (s : DiskSlabStore) (key : BlockKey) : Option (List UInt8) :=
  match s.len key, s.alloc.held key with
  | some n, some x => some ((s.extents x.ref.extent).pread x.ref.offset n)
  | _, _ => none

theorem value_eq_none (h : s.Inv) : s.value key = none ↔ s.len key = none := by
  unfold value
  cases hn : s.len key with
  | none => simp
  | some n =>
    obtain ⟨x, p, hx, -⟩ := (h.keys key).committed n hn
    simp [hx]

theorem value_eq_some (hv : s.value key = some v) :
    ∃ x, s.len key = some v.length ∧ s.alloc.held key = some x ∧
      (s.extents x.ref.extent).pread x.ref.offset v.length = v := by
  unfold value at hv
  split at hv
  · rename_i n x hn hx
    cases hv
    exact ⟨x, by simpa using hn, hx, by simp⟩
  · simp at hv

theorem value_mem_commits (h : s.Inv) (hv : s.value key = some v) : v ∈ s.commits key := by
  obtain ⟨x, hn, hx, hst⟩ := value_eq_some hv
  obtain ⟨y, p, hy, hp, hpl, hstored, -⟩ := (h.keys key).committed _ hn
  cases hx.symm.trans hy
  unfold Stored at hstored
  rw [hpl, hst] at hstored
  exact hstored ▸ hp

theorem Inv.offset_dvd (h : s.Inv) {x : Hold} (hx : s.alloc.held key = some x) :
    4096 ∣ x.ref.offset := by
  have hp := h.alloc.held_places hx
  rw [h.options] at hp
  have hdvd := align_dvd_of_places hp
  rw [hp.offset_eq]
  exact (((Options.valid_of h.valid).grain_dvd).trans hdvd).trans (Nat.dvd_mul_left _ _)

/-! ## The read -/

def windowOf (s : DiskSlabStore) (job : ReadJob) (ref : SlotRef) (plen : Nat) : List UInt8 :=
  match job.plan s.opt ref plen with
  | .window start len _ _ => (s.extents ref.extent).pread start len
  | _ => []

def readAlone (s : DiskSlabStore) (job : ReadJob) : Answer :=
  if s.failed then { status := .ioError }
  else
    match s.len job.key, (s.alloc.getAndPin job.key).2 with
    | some plen, some ref => (readResult s.opt job ref plen (s.windowOf job ref plen) true).answer
    | _, _ => { status := .notFound }

theorem readAlone_none (h : s.Inv) (hf : s.failed = false) {job : ReadJob}
    (hv : s.value job.key = none) : s.readAlone job = { status := .notFound } := by
  unfold readAlone
  rw [hf, (value_eq_none h).mp hv]
  rfl

theorem getAndPin_value (h : s.Inv) {x : Hold} (hx : s.alloc.held key = some x) :
    (s.alloc.getAndPin key).2 = some x.ref := by
  rw [(getAndPin_held h.alloc (h.keys key).visible).1, hx]
  rfl

section Windows

variable {x : Hold} {job : ReadJob}

theorem pread_range (hst : (s.extents x.ref.extent).pread x.ref.offset v.length = v)
    (hle : job.offset ≤ v.length) {m : Nat} (hm : m ≤ job.span v.length) :
    (s.extents x.ref.extent).pread (x.ref.offset + job.offset) m =
      (slice v job.offset job.length).take m := by
  have hspan : job.span v.length ≤ v.length - job.offset := Nat.min_le_right _ _
  rw [slice_eq, List.take_take, Nat.min_eq_left hm]
  conv_rhs => rw [← hst]
  rw [FlatFile.take_drop_pread _ _ (by omega)]

theorem exact_window (hst : (s.extents x.ref.extent).pread x.ref.offset v.length = v)
    (hle : job.offset ≤ v.length) {m : Nat} (hm : m ≤ job.span v.length) :
    (((s.extents x.ref.extent).pread (x.ref.offset + job.offset) m).drop 0).take m =
      (slice v job.offset job.length).take m := by
  rw [List.drop_zero, pread_range hst hle hm, List.take_take, Nat.min_self]

theorem window_head (job : ReadJob) (hdvd : 4096 ∣ x.ref.offset) :
    x.ref.offset + job.offset - (x.ref.offset + job.offset) / 4096 * 4096 = job.offset % 4096 := by
  obtain ⟨q, hq⟩ := hdvd
  omega

theorem aligned_window (hst : (s.extents x.ref.extent).pread x.ref.offset v.length = v)
    (hdvd : 4096 ∣ x.ref.offset) (hle : job.offset ≤ v.length) :
    (((s.extents x.ref.extent).pread ((x.ref.offset + job.offset) / 4096 * 4096)
      (padLen (job.offset % 4096 + job.span v.length))).drop (job.offset % 4096)).take
        (job.span v.length) = slice v job.offset job.length := by
  have hstart : (x.ref.offset + job.offset) / 4096 * 4096 + job.offset % 4096 =
      x.ref.offset + job.offset := by
    obtain ⟨q, hq⟩ := hdvd
    omega
  rw [FlatFile.take_drop_pread _ _ (le_padLen _), hstart, pread_range hst hle le_rfl, span_eq,
    List.take_length]

theorem take_min_span : (slice v job.offset job.length).take (min (job.span v.length) job.cap) =
    (slice v job.offset job.length).take job.cap := by
  rw [span_eq, Nat.min_comm, ← List.take_take, List.take_length]

end Windows

/-- A read of a committed key answers with a slice of its payload. -/
theorem readAlone_eq (h : s.Inv) (hf : s.failed = false) (job : ReadJob)
    (hv : s.value job.key = some v) : s.readAlone job = job.answer v := by
  obtain ⟨x, hn, hx, hst⟩ := value_eq_some hv
  have hhead := window_head job (h.offset_dvd hx)
  unfold readAlone
  rw [if_neg (by simp [hf]), hn, getAndPin_value h hx]
  unfold answer
  by_cases hlt : v.length < job.offset
  · simp [readResult, plan, if_pos hlt, Thread.answer]
  have hle : job.offset ≤ v.length := Nat.le_of_not_lt hlt
  rw [if_neg hlt]
  by_cases heq : job.offset = v.length
  · -- At the end of the value nothing is read.
    have hnil : slice v job.offset job.length = [] := by rw [heq, slice_self]
    have hempty : job.delivered v = [] := by
      unfold delivered
      rw [hnil]
      cases job.kind <;> simp
    rw [if_neg fun h => h.2.1 heq, hempty]
    simp [readResult, plan, if_neg hlt, if_pos heq, Thread.answer]
  unfold delivered
  cases hk : job.kind with
  | range =>
    simp only [readResult, windowOf, plan, hk, if_neg hlt, if_neg heq, reduceCtorEq,
      false_and, if_false, FlatFile.length_pread, true_or, and_self, if_true, Thread.answer]
    rw [exact_window hst hle le_rfl, span_eq, List.take_length]
  | rangeInto =>
    simp only [readResult, windowOf, plan, hk, if_neg hlt, if_neg heq, reduceCtorEq,
      false_and, if_false, FlatFile.length_pread, true_or, and_self, if_true, Thread.answer]
    rw [exact_window hst hle (Nat.min_le_left _ _), take_min_span]
  | rangeDirect aligned =>
    simp only [reduceCtorEq, false_and, if_false]
    by_cases hd : s.opt.directWrites ∧ aligned ∧
        padLen (job.offset % 4096 + job.span v.length) ≤ job.cap
    · -- The pages are read into the destination, which holds the whole range.
      have hfit : (slice v job.offset job.length).length ≤ job.cap := by
        have := le_padLen (job.offset % 4096 + job.span v.length)
        rw [← span_eq]
        omega
      simp only [readResult, windowOf, plan, hk, hhead, if_neg hlt, if_neg heq, if_pos hd,
        FlatFile.length_pread, true_or, and_self, if_true, Thread.answer]
      rw [aligned_window hst (h.offset_dvd hx) hle, List.take_of_length_le hfit]
    · simp only [readResult, windowOf, plan, hk, hhead, if_neg hlt, if_neg heq, if_neg hd,
        FlatFile.length_pread, true_or, and_self, if_true, Thread.answer]
      rw [exact_window hst hle (Nat.min_le_left _ _), take_min_span]
  | rangeDirectPrep =>
    have hsp := span_eq job v
    by_cases hnarrow : job.Narrow v
    · have hcap : job.cap < padLen (job.offset % 4096 + job.span v.length) := hsp ▸ hnarrow.2
      rw [if_pos ⟨rfl, hnarrow⟩]
      simp [readResult, plan, hk, hhead, if_neg heq, if_pos hcap, Thread.answer]
    · have hcap : ¬job.cap < padLen (job.offset % 4096 + job.span v.length) :=
        fun hcap => hnarrow ⟨heq, hsp ▸ hcap⟩
      rw [if_neg fun h => hnarrow h.2]
      simp only [readResult, windowOf, plan, hk, hhead, if_neg hlt, if_neg heq,
        if_neg hcap, FlatFile.length_pread, true_or, and_self, if_true, Thread.answer]
      rw [aligned_window hst (h.offset_dvd hx) hle]

/-! ## The run of a read -/

/-- The reads of the files that a request `t` makes for its window. -/
def windowSteps (s : DiskSlabStore) (t : Nat) (job : ReadJob) (ref : SlotRef) (plen : Nat) :
    List Step :=
  match job.plan s.opt ref plen with
  | .window _ len _ _ => if len = 0 then [] else [.pread t len]
  | _ => []

def readSteps (s : DiskSlabStore) (job : ReadJob) : List Step :=
  if s.failed then [.startRead job]
  else
    match s.len job.key, (s.alloc.getAndPin job.key).2 with
    | some plen, some ref =>
      [.startRead job, .acquire s.spawned] ++ s.windowSteps s.spawned job ref plen ++
        [.release s.spawned true]
    | _, _ => [.startRead job, .acquire s.spawned]

theorem run_windowSteps {t : Nat} {job : ReadJob} {ref : SlotRef} {plen : Nat} {rest : List Step}
    (ht : s.threads t = some (.reading job ref plen [])) :
    s.run (s.windowSteps t job ref plen ++ rest) =
      (s.setThread t (.reading job ref plen (s.windowOf job ref plen))).run rest := by
  have hsame : s.setThread t (.reading job ref plen []) = s := by
    unfold setThread
    rw [← ht, Function.update_eq_self]
  unfold windowSteps windowOf
  cases hp : job.plan s.opt ref plen with
  | reject status => rw [List.nil_append, hsame]
  | empty => rw [List.nil_append, hsame]
  | window start len head n =>
    rcases eq_or_ne len 0 with rfl | hlen
    · dsimp only
      rw [if_pos rfl, List.nil_append]
      exact congrArg (run · rest) hsame.symm
    · have hstep : s.step (.pread t len) = some (s.preadSome t job ref plen [] start len) := by
        simp [step, ht, hp, Nat.pos_of_ne_zero hlen]
      dsimp only
      rw [if_neg hlen, List.singleton_append, run, hstep]
      simp [preadSome]

theorem release_ok (t : Nat) {job : ReadJob} (ref : SlotRef) (plen : Nat) (buf : List UInt8)
    (hd : s.deferredRemove job.key = false) :
    (s.release t job ref plen buf true).threads t =
      some (readResult s.opt job ref plen buf true) := by
  have hr : (s.releaseInflight job.key true).2 := by
    unfold releaseInflight
    dsimp only
    split
    · rfl
    · rw [if_pos (Or.inr hd)]
  unfold DiskSlabStore.release
  dsimp only
  rw [hr]
  exact Function.update_self ..

/-- Some run of the store's steps gives the answer of a read that runs alone. -/
theorem readAlone_run (h : s.Inv) (job : ReadJob) :
    ∃ s' th, s.run (s.readSteps job) = some s' ∧ s'.threads s.spawned = some th ∧
      th.answer = s.readAlone job := by
  unfold readSteps readAlone
  by_cases hf : s.failed
  · have hstart : s.step (.startRead job) = some (s.spawn (.fetched job .ioError [] 0)) := by
      simp [step, DiskSlabStore.startRead, hf]
    rw [if_pos hf, if_pos hf]
    exact ⟨_, _, by rw [run, hstart]; rfl, Function.update_self .., rfl⟩
  have hstart : s.step (.startRead job) = some (s.spawn (.acquiring job)) := by
    simp [step, DiskSlabStore.startRead, hf]
  have hacq : (s.spawn (.acquiring job)).step (.acquire s.spawned) =
      some ((s.spawn (.acquiring job)).acquire s.spawned job) := by
    simp [step, spawn]
  rw [if_neg hf, if_neg hf]
  cases hn : s.len job.key with
  | none =>
    have hmiss : (s.spawn (.acquiring job)).acquire s.spawned job =
        (s.spawn (.acquiring job)).setThread s.spawned (.fetched job .notFound [] 0) := by
      have hn' : (s.spawn (.acquiring job)).len job.key = none := hn
      unfold DiskSlabStore.acquire
      rw [hn']
      simp [spawn, hf]
    exact ⟨_, _, by rw [run, hstart, Option.bind_some, run, hacq, hmiss]; rfl,
      Function.update_self .., rfl⟩
  | some plen =>
    obtain ⟨x, p, hx, -⟩ := (h.keys job.key).committed plen hn
    have hdef : s.deferredRemove job.key = false := by
      by_contra hd
      simp [((h.keys job.key).deferred (by simpa using hd)).2] at hn
    have hg := getAndPin_value h hx
    -- `s₂` is the store in which the request holds the pin of its slot.
    generalize hs₂ : (s.spawn (.acquiring job)).acquire s.spawned job = s₂ at hacq
    have hn' : (s.spawn (.acquiring job)).len job.key = some plen := hn
    have hg' : ((s.spawn (.acquiring job)).alloc.getAndPin job.key).2 = some x.ref := hg
    unfold DiskSlabStore.acquire at hs₂
    rw [hn'] at hs₂
    dsimp only at hs₂
    rw [hg'] at hs₂
    have ht₂ : s₂.threads s.spawned = some (.reading job x.ref plen []) := by
      rw [← hs₂]
      exact Function.update_self ..
    have hd₂ : s₂.deferredRemove job.key = false := by
      rw [← hs₂]
      exact hdef
    have hopt : s₂.opt = s.opt := by rw [← hs₂]; rfl
    have hext : s₂.extents = s.extents := by rw [← hs₂]; rfl
    have hwin : s₂.windowOf job x.ref plen = s.windowOf job x.ref plen := by
      unfold windowOf
      rw [hopt, hext]
    have hsteps : s.windowSteps s.spawned job x.ref plen = s₂.windowSteps s.spawned job
      x.ref plen := by
      unfold windowSteps
      rw [hopt]
    have hrel := release_ok s.spawned x.ref plen (s.windowOf job x.ref plen)
      (s := s₂.setThread s.spawned (.reading job x.ref plen (s.windowOf job x.ref plen))) hd₂
    rw [hg]
    refine ⟨_, _, ?_, hrel, by rw [← hopt]; rfl⟩
    dsimp only
    rw [List.append_assoc, List.cons_append, List.cons_append, List.nil_append, run, hstart,
      Option.bind_some, run, hacq, Option.bind_some, hsteps, run_windowSteps ht₂, hwin, run]
    simp [step, setThread, run]

theorem readAlone_value (h : s.Inv) (hf : s.failed = false) (job : ReadJob) :
    s.readAlone job = (s.value job.key).elim { status := .notFound } job.answer := by
  cases hv : s.value job.key with
  | none => exact readAlone_none h hf hv
  | some v => exact readAlone_eq h hf job hv

/-- Whatever requests are in flight, a read that takes its steps now is answered from one of the
payloads committed for its key, and with not-found exactly if the table has no record. -/
theorem reachable_read (h : Reachable s) (hf : s.failed = false) (job : ReadJob) :
    ∃ s' th, s.run (s.readSteps job) = some s' ∧ s'.threads s.spawned = some th ∧
      match s.len job.key with
      | none => th.answer = { status := .notFound }
      | some n => ∃ v ∈ s.commits job.key, v.length = n ∧ th.answer = job.answer v := by
  have hi := h.good.inv
  obtain ⟨s', th, hrun, hth, ha⟩ := readAlone_run hi job
  refine ⟨s', th, hrun, hth, ?_⟩
  cases hv : s.value job.key with
  | none =>
    rw [(value_eq_none hi).mp hv]
    exact ha.trans (readAlone_none hi hf hv)
  | some v =>
    obtain ⟨x, hn, -⟩ := value_eq_some hv
    rw [hn]
    exact ⟨v, value_mem_commits hi hv, rfl, ha.trans (readAlone_eq hi hf job hv)⟩

/-- The one key of the store is read back: the two bytes that were put. -/
theorem onePut_reachable_read : ∃ s, Reachable s ∧
    ∃ s' th, s.run (s.readSteps { key := tinyKey 1, kind := .range }) = some s' ∧
      s'.threads s.spawned = some th ∧
      th.answer = { status := .ok, data := [1, 2], valueLen := 2 } := by
  obtain ⟨s, hreach, hf, -, hcom, hlen⟩ := onePut_rests
  obtain ⟨s', th, hrun, hth, ha⟩ := reachable_read hreach hf { key := tinyKey 1, kind := .range }
  dsimp only at ha
  rw [hlen] at ha
  obtain ⟨v, hv, -, ha⟩ := ha
  rw [hcom, List.mem_singleton] at hv
  subst hv
  exact ⟨s, hreach, s', th, hrun, hth, ha⟩

theorem Reopened.value (h : Reopened s o s') (key : BlockKey) :
    s'.value key = s.value key := by
  unfold DiskSlabStore.value
  rw [h.len]
  cases hn : s.len key with
  | none => rfl
  | some n =>
    obtain ⟨x, x', hx, hx', hext, -, -, hoff⟩ := h.place key n hn
    simp only [hx, hx', h.extents, hext, hoff]

/-- Every read of a store at rest has the same answer after a restart. -/
theorem restart_keeps_reads (h : Reachable s) (hf : s.failed = false) (hq : s.Quiescent)
    (hg : SameGeometry s.opt o) (hv : o.validateOptions = none) (ro : RetainOptions) (nowS : Nat) :
    ∃ s', s.reopen o ro nowS {} = .ok s' ∧ ∀ job, s'.readAlone job = s.readAlone job := by
  have hi := h.good.inv
  obtain ⟨⟨s', hs'⟩, hspec⟩ := reopen_spec hi (h.good.table hf) hq hg hv ro nowS
  have hr := hspec {} s' hs'
  refine ⟨s', hs', fun job => ?_⟩
  rw [readAlone_value hr.inv hr.healthy, readAlone_value hi hf, hr.value]

/-- A store with one committed key is restarted, and the key is still found. -/
theorem onePut_restart_keeps_reads : ∃ s : DiskSlabStore, s.len (tinyKey 1) = some 2 ∧
    ∃ s', s.reopen s.opt {} 7 {} = .ok s' ∧ s'.len (tinyKey 1) = some 2 ∧
      ∀ job, s'.readAlone job = s.readAlone job := by
  obtain ⟨s, hreach, hf, hq, -, hlen⟩ := onePut_rests
  obtain ⟨s', hs', hread⟩ := restart_keeps_reads hreach hf hq ⟨rfl, rfl, rfl, rfl⟩
    hreach.good.inv.valid {} 7
  have hre := (reopen_spec hreach.good.inv (hreach.good.table hf) hq ⟨rfl, rfl, rfl, rfl⟩
    hreach.good.inv.valid {} 7).2 {} s' hs'
  exact ⟨s, hlen, s', hs', by rw [hre.len, hlen], hread⟩

end DiskSlabStore

end DingoCache.Store
