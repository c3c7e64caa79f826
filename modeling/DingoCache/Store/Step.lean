import DingoCache.Store.Model

/-!
# DiskSlabStore: Steps

One step is one critical section under `mu_`, one unlocked write or read of the
files, or one event of the environment.  `step` is partial: a step that does not
apply in a state is `none`.

The arguments `ReclaimTick` computes for its allocator calls are arbitrary here,
and the items of a `CacheDirectBatch` are separate PUTs, so the runs of the model
include those of the source.
-/

namespace DingoCache.Store

open Library Slab

/-- The steps of a serving store. `outcomes` are the results of the persistence callbacks and `ok`
the result of the record write the step may make. -/
inductive Step where
  | startPut (job : PutJob) (batch : Bool)
  | judge (t : Nat) (outcomes : List Bool)
  | wake (t : Nat)
  | timeout (t : Nat)
  | pwrite (t n : Nat)
  | payloadFail (t : Nat)
  | rewrite (t : Nat)
  | reapFail (t : Nat)
  | record (t : Nat) (ok : Bool)
  | finish (t : Nat) (ok : Bool)
  | follow (t : Nat)
  | startRead (job : ReadJob)
  | acquire (t : Nat)
  | pread (t n : Nat)
  | release (t : Nat) (ok : Bool)
  | remove (key : BlockKey) (ok : Bool)
  | retain (key : BlockKey) (ttlS : Nat) (mode : RetainMode) (nowS : Nat) (ok : Bool)
  | expireRetention (nowS : Nat)
  | evictCold (target maxVictims : Nat) (outcomes : List Bool)
  | stealFrom (donor target : Nat) (outcomes : List Bool)
  | reclaimClass (cls target maxVictims : Nat) (outcomes : List Bool)
  | land (i pos : Nat)
  | syncFail

namespace DiskSlabStore

variable (s : DiskSlabStore) (t : Nat) (job : PutJob) (ref : SlotRef)

/-- The checks before the first critical section of a PUT; a batch looks at the health of the store
before it looks at the item. -/
def startPut (batch : Bool) : DiskSlabStore :=
  if batch = true ∧ s.failed = true then s.spawn (.stored job .ioError)
  else if job.data = [] then s.spawn (.stored job .invalid)
  else if s.failed then s.spawn (.stored job .ioError)
  else s.spawn (.judging job)

/-- The checks before `AcquireForRead` takes the lock. -/
def startRead (job : ReadJob) : DiskSlabStore :=
  if s.failed then s.spawn (.fetched job .ioError [] 0) else s.spawn (.acquiring job)

/-- One `pwrite` of a leader: the next `n` bytes of its buffer. -/
def pwriteSome (flight done n : Nat) : DiskSlabStore :=
  let chunk := ((s.opt.payloadBuffer job ref).drop done).take n
  { s with
    extents := Function.update s.extents ref.extent
      ((s.extents ref.extent).pwrite (ref.offset + done) chunk) }.setThread t
    (.writing job ref flight (done + n))

def recordPut (flight : Nat) (ok : Bool) : DiskSlabStore :=
  let w := s.writeRecord ref
    { key := job.key, slotSize := ref.slotSize, payloadLen := job.data.length } true ok
  w.1.setThread t (.finishing job ref flight w.2)

/-- One `pread` of a reader: the next `n` bytes of its window. -/
def preadSome (job : ReadJob) (ref : SlotRef) (plen : Nat)
    (buf : List UInt8) (start n : Nat) : DiskSlabStore :=
  s.setThread t
    (.reading job ref plen (buf ++ (s.extents ref.extent).pread (start + buf.length) n))

/-- A lost submission: the store fails closed, the writes may still land, and the leader falls back
to a sequential write. -/
def reapFail (flight : Nat) : DiskSlabStore :=
  { s with
    failed := true
    zombies := ⟨ref, s.opt.payloadBuffer job ref⟩ :: s.zombies }.setThread t
    (.writing job ref flight 0)

def land (z : Zombie) (pos : Nat) : DiskSlabStore :=
  { s with
    extents := Function.update s.extents z.ref.extent
      ((s.extents z.ref.extent).pwrite (z.ref.offset + pos) ((z.buf.drop pos).take 1)) }

def step : Step → Option DiskSlabStore
  | .startPut job batch => some (s.startPut job batch)
  | .judge t outcomes =>
    match s.threads t with
    | some (.judging job) => some (s.judge t job outcomes)
    | _ => none
  | .wake t =>
    match s.threads t with
    | some (.waiting job) =>
      if s.deferredRemove job.key = false ∨ s.failed = true then
        some (s.setThread t (.judging job))
      else none
    | _ => none
  | .timeout t =>
    match s.threads t with
    | some (.waiting job) =>
      if s.deferredRemove job.key = true ∧ s.failed = false then
        some (s.setThread t (.stored job .ioError))
      else none
    | _ => none
  | .pwrite t n =>
    match s.threads t with
    | some (.writing job ref flight done) =>
      if 0 < n ∧ done + n ≤ (s.opt.payloadBuffer job ref).length then
        some (s.pwriteSome t job ref flight done n)
      else none
    | _ => none
  | .payloadFail t =>
    match s.threads t with
    | some (.writing job ref flight _) => some (s.setThread t (.finishing job ref flight false))
    | _ => none
  | .rewrite t =>
    match s.threads t with
    | some (.writing job ref flight _) => some (s.setThread t (.writing job ref flight 0))
    | _ => none
  | .reapFail t =>
    match s.threads t with
    | some (.writing job ref flight _) => some (s.reapFail t job ref flight)
    | _ => none
  | .record t ok =>
    match s.threads t with
    | some (.writing job ref flight done) =>
      if done = (s.opt.payloadBuffer job ref).length then some (s.recordPut t job ref flight ok)
      else none
    | _ => none
  | .finish t ok =>
    match s.threads t with
    | some (.finishing job _ flight ioOk) => some (s.finish t job flight ioOk ok)
    | _ => none
  | .follow t =>
    match s.threads t with
    | some (.following job flight) =>
      (s.flightResult flight).map fun result => s.setThread t (.stored job result)
    | _ => none
  | .startRead job => some (s.startRead job)
  | .acquire t =>
    match s.threads t with
    | some (.acquiring job) => some (s.acquire t job)
    | _ => none
  | .pread t n =>
    match s.threads t with
    | some (.reading job ref plen buf) =>
      match job.plan s.opt ref plen with
      | .window start len _ _ =>
        if 0 < n ∧ buf.length + n ≤ len then some (s.preadSome t job ref plen buf start n) else none
      | _ => none
    | _ => none
  | .release t ok =>
    match s.threads t with
    | some (.reading job ref plen buf) => some (s.release t job ref plen buf ok)
    | _ => none
  | .remove key ok => some (s.remove key ok).1
  | .retain key ttlS mode nowS ok => some (s.retain key ttlS mode nowS ok).1
  | .expireRetention nowS => some { s with alloc := (s.alloc.expireRetention nowS).1 }
  | .evictCold target maxVictims outcomes =>
    some (s.reclaim ((s.alloc.armed outcomes).evictColdToTarget target maxVictims))
  | .stealFrom donor target outcomes =>
    let r := (s.alloc.armed outcomes).stealFrom donor target
    some (s.reclaim (r.1, r.2.2))
  | .reclaimClass cls target maxVictims outcomes =>
    let r := (s.alloc.armed outcomes).reclaimClass cls target maxVictims
    some (s.reclaim (r.1, r.2.2))
  | .land i pos => s.zombies[i]?.map fun z => s.land z pos
  | .syncFail => some { s with failed := true }

/-- The steps that apply, with the request each of them moves. -/
inductive Steps (s : DiskSlabStore) : Step → DiskSlabStore → Prop
  | startPut (job : PutJob) (batch : Bool) : Steps s (.startPut job batch) (s.startPut job batch)
  | judge {t : Nat} {job : PutJob} (outcomes : List Bool)
      (ht : s.threads t = some (.judging job)) :
      Steps s (.judge t outcomes) (s.judge t job outcomes)
  | wake {t : Nat} {job : PutJob} (ht : s.threads t = some (.waiting job))
      (hd : s.deferredRemove job.key = false ∨ s.failed = true) :
      Steps s (.wake t) (s.setThread t (.judging job))
  | timeout {t : Nat} {job : PutJob} (ht : s.threads t = some (.waiting job)) :
      Steps s (.timeout t) (s.setThread t (.stored job .ioError))
  | pwrite {t : Nat} {job : PutJob} {ref : SlotRef} {flight done : Nat} (n : Nat)
      (ht : s.threads t = some (.writing job ref flight done))
      (hn : done + n ≤ (s.opt.payloadBuffer job ref).length) :
      Steps s (.pwrite t n) (s.pwriteSome t job ref flight done n)
  | payloadFail {t : Nat} {job : PutJob} {ref : SlotRef} {flight done : Nat}
      (ht : s.threads t = some (.writing job ref flight done)) :
      Steps s (.payloadFail t) (s.setThread t (.finishing job ref flight false))
  | rewrite {t : Nat} {job : PutJob} {ref : SlotRef} {flight done : Nat}
      (ht : s.threads t = some (.writing job ref flight done)) :
      Steps s (.rewrite t) (s.setThread t (.writing job ref flight 0))
  | reapFail {t : Nat} {job : PutJob} {ref : SlotRef} {flight done : Nat}
      (ht : s.threads t = some (.writing job ref flight done)) :
      Steps s (.reapFail t) (s.reapFail t job ref flight)
  | record {t : Nat} {job : PutJob} {ref : SlotRef} {flight done : Nat} (ok : Bool)
      (ht : s.threads t = some (.writing job ref flight done))
      (hd : done = (s.opt.payloadBuffer job ref).length) :
      Steps s (.record t ok) (s.recordPut t job ref flight ok)
  | finish {t : Nat} {job : PutJob} {ref : SlotRef} {flight : Nat} {ioOk : Bool} (ok : Bool)
      (ht : s.threads t = some (.finishing job ref flight ioOk)) :
      Steps s (.finish t ok) (s.finish t job flight ioOk ok)
  | follow {t : Nat} {job : PutJob} {flight : Nat} {result : Status}
      (ht : s.threads t = some (.following job flight))
      (hr : s.flightResult flight = some result) :
      Steps s (.follow t) (s.setThread t (.stored job result))
  | startRead (job : ReadJob) : Steps s (.startRead job) (s.startRead job)
  | acquire {t : Nat} {job : ReadJob} (ht : s.threads t = some (.acquiring job)) :
      Steps s (.acquire t) (s.acquire t job)
  | pread {t : Nat} {job : ReadJob} {ref : SlotRef} {plen : Nat} {buf : List UInt8}
      {start len head m : Nat} (n : Nat) (ht : s.threads t = some (.reading job ref plen buf))
      (hp : job.plan s.opt ref plen = .window start len head m) :
      Steps s (.pread t n) (s.preadSome t job ref plen buf start n)
  | release {t : Nat} {job : ReadJob} {ref : SlotRef} {plen : Nat} {buf : List UInt8} (ok : Bool)
      (ht : s.threads t = some (.reading job ref plen buf)) :
      Steps s (.release t ok) (s.release t job ref plen buf ok)
  | remove (key : BlockKey) (ok : Bool) : Steps s (.remove key ok) (s.remove key ok).1
  | retain (key : BlockKey) (ttlS : Nat) (mode : RetainMode) (nowS : Nat) (ok : Bool) :
      Steps s (.retain key ttlS mode nowS ok) (s.retain key ttlS mode nowS ok).1
  | expireRetention (nowS : Nat) :
      Steps s (.expireRetention nowS) { s with alloc := (s.alloc.expireRetention nowS).1 }
  | evictCold (target maxVictims : Nat) (outcomes : List Bool) :
      Steps s (.evictCold target maxVictims outcomes)
        (s.reclaim ((s.alloc.armed outcomes).evictColdToTarget target maxVictims))
  | stealFrom (donor target : Nat) (outcomes : List Bool) :
      Steps s (.stealFrom donor target outcomes)
        (s.reclaim (((s.alloc.armed outcomes).stealFrom donor target).1,
          ((s.alloc.armed outcomes).stealFrom donor target).2.2))
  | reclaimClass (cls target maxVictims : Nat) (outcomes : List Bool) :
      Steps s (.reclaimClass cls target maxVictims outcomes)
        (s.reclaim (((s.alloc.armed outcomes).reclaimClass cls target maxVictims).1,
          ((s.alloc.armed outcomes).reclaimClass cls target maxVictims).2.2))
  | land {i : Nat} {z : Zombie} (pos : Nat) (hz : z ∈ s.zombies) :
      Steps s (.land i pos) (s.land z pos)
  | syncFail : Steps s .syncFail { s with failed := true }

theorem steps_of_step {s s' : DiskSlabStore} {st : Step} (h : s.step st = some s') :
    s.Steps st s' := by
  cases st with
  | startPut | startRead | remove | retain | expireRetention | evictCold | stealFrom | reclaimClass
  | syncFail =>
    cases h
    constructor
  | judge | payloadFail | rewrite | reapFail | finish | acquire | release =>
    -- the thread has to be in the step's phase
    dsimp only [step] at h
    split at h
    · cases h
      constructor
      assumption
    · simp at h
  | wake | timeout | pwrite | record =>
    -- the phase and one more guard
    dsimp only [step] at h
    split at h
    · split at h
      · rename_i ht hc
        cases h
        first
          | exact .wake ht hc
          | exact .timeout ht
          | exact .pwrite _ ht hc.2
          | exact .record _ ht hc
      · simp at h
    · simp at h
  | follow t =>
    dsimp only [step] at h
    split at h
    · obtain ⟨result, hr, rfl⟩ := Option.map_eq_some_iff.mp h
      exact .follow ‹_› hr
    · simp at h
  | pread t n =>
    dsimp only [step] at h
    split at h
    · split at h
      · split at h
        · exact Option.some.inj h ▸ .pread n ‹_› ‹_›
        · simp at h
      · simp at h
    · simp at h
  | land i pos =>
    obtain ⟨z, hz, rfl⟩ := Option.map_eq_some_iff.mp h
    exact .land pos (List.mem_of_getElem? hz)

def run (s : DiskSlabStore) : List Step → Option DiskSlabStore
  | [] => some s
  | st :: rest => (s.step st).bind fun s' => s'.run rest

end DiskSlabStore

end DingoCache.Store
