import DingoCache.Slab.Reload
import DingoCache.Store.Table

/-!
# DiskSlabStore: Rebuild

`Rebuild` scans `slots.tbl`, hands the valid records to `RestoreBulk`, commits their
lengths and clears the records it rejected.  A store at rest is rebuilt from its
own files as it was.

- `rebuild`, `reopen`: the model.

The scan of the source skips holes of the table file; they are zero bytes, which
the sequential scan modelled here classifies as blank.
-/

namespace DingoCache.Store

open Library Slab List Nat

open Options

variable {e : Nat} {r : SlotRecord} {o' : Options}

/-! ## The scan -/

/-- What `parse_record` makes of 64 bytes. -/
inductive Parsed where
  | blank
  | rejected
  | corrupt
  | inactive
  | entry (x : RestoreEntry)

variable (o : Options) (table : Bytes)

/-- The geometry check of `parse_record`. -/
def geometryOk (r : SlotRecord) (slot : Nat) : Bool :=
  o.slotGranularity ≤ r.slotSize && r.slotSize % o.slotGranularity = 0 &&
    r.slotSize ≤ o.extentBytes && r.payloadLen ≤ r.slotSize && slot < o.extentBytes / r.slotSize

/-- The entry of a record found at `(extent, slot)`. -/
def SlotRecord.entry (r : SlotRecord) (extent slot : Nat) : RestoreEntry :=
  { key := r.key
    slotSize := r.slotSize
    extent := extent
    slot := slot
    valueBytes := r.payloadLen
    retainUntil := r.retainUntil
    retainTtlS := r.retainTtlS }

def parseRecord (rec : Bytes) (extent slot : Nat) : Parsed :=
  if getU32 rec 0 ≠ kRecMagic then if getU32 rec 0 ≠ 0 then .rejected else .blank
  else if (crc32 (rec.pread 8 (kRecBytes - 8))).toNat ≠ getU32 rec 4 then .corrupt
  else if rec 8 ≠ 1 then .inactive
  else if geometryOk o (.ofBytes rec) slot then .entry ((SlotRecord.ofBytes rec).entry extent slot)
  else .rejected

/-- The record with number `i` of the table. -/
def parseAt (i : Nat) : Parsed :=
  parseRecord o (fun j => table (o.tableOffset (i / o.maxSlots) (i % o.maxSlots) + j))
    (i / o.maxSlots) (i % o.maxSlots)

/-- `entries` after the scan. -/
def tableEntries : List RestoreEntry :=
  (range (o.numExtents * o.maxSlots)).filterMap fun i =>
    match parseAt o table i with
    | .entry x => some x
    | _ => none

/-- `rejected` after the scan. -/
def tableRejects : List (Nat × Nat) :=
  (range (o.numExtents * o.maxSlots)).filterMap fun i =>
    match parseAt o table i with
    | .rejected => some (i / o.maxSlots, i % o.maxSlots)
    | .corrupt => some (i / o.maxSlots, i % o.maxSlots)
    | _ => none

/-- A failed scan. -/
inductive ScanError where
  | read
  | seek
deriving DecidableEq

def ScanError.text : ScanError → String
  | read => "cannot read slots.tbl during rebuild"
  | seek => "cannot seek slots.tbl during rebuild"

/-- The outcomes of the file operations of `Rebuild`. -/
structure RebuildIo where
  scan : Option ScanError := none
  clearOk : Bool := true
  syncOk : Bool := true

def clearReject (p : Nat × Nat) : Bytes :=
  table.pwrite (o.tableOffset p.1 p.2) (replicate kRecBytes 0)

namespace DiskSlabStore

/-- A constructed store before `Rebuild`, over the given files. -/
def opened (o : Options) (ro : RetainOptions) (nowS : Nat) (table : Bytes)
    (extents : Nat → Bytes) (commits : BlockKey → List (List UInt8)) : DiskSlabStore :=
  { opt := o
    alloc := SlabAllocator.started o.slab ro nowS
    table := table
    extents := extents
    commits := commits }

/-- The commit loop of `Rebuild`. -/
def commitEntries (s : DiskSlabStore) (xs : List RestoreEntry) : DiskSlabStore :=
  xs.foldl (fun s x => s.commitPayload x.key x.valueBytes) s

def rebuild (s : DiskSlabStore) (io : RebuildIo) : Except String DiskSlabStore :=
  match io.scan with
  | some e => .error e.text
  | none =>
    let entries := tableEntries s.opt s.table
    let rejects := tableRejects s.opt s.table
    let r := s.alloc.restoreBulk entries
    if r.2 = false then .error "inconsistent slots.tbl records during bulk rebuild"
    else
      let s := { s with alloc := r.1 }.commitEntries entries
      if rejects = [] then .ok s
      else if io.clearOk = false then .error "cannot clear rejected slots.tbl record"
      else if io.syncOk = false then .error "cannot persist slots.tbl rebuild repairs"
      else .ok { s with table := rejects.foldl (clearReject s.opt) s.table }

def reopen (s : DiskSlabStore) (o : Options) (ro : RetainOptions) (nowS : Nat) (io : RebuildIo) :
    Except String DiskSlabStore :=
  (opened o ro nowS s.table s.extents s.commits).rebuild io

end DiskSlabStore

/-! ## Parsed records -/

section Parse

variable {o : Options} {rec : Bytes} {extent slot : Nat}

/-- A valid record is an entry or fails the geometry check, and other bytes are not an entry. -/
theorem parseRecord_eq (o : Options) (rec : Bytes) (extent slot : Nat) :
    match decode rec with
    | some r => parseRecord o rec extent slot =
        if geometryOk o r slot then .entry (r.entry extent slot) else .rejected
    | none => ∀ x, parseRecord o rec extent slot ≠ .entry x := by
  unfold parseRecord decode checksumOk
  by_cases h1 : getU32 rec 0 = kRecMagic
  · rw [if_neg (not_not.mpr h1)]
    by_cases h2 : (crc32 (rec.pread 8 (kRecBytes - 8))).toNat = getU32 rec 4
    · rw [if_neg (not_not.mpr h2)]
      by_cases h3 : rec 8 = 1
      · rw [if_neg (not_not.mpr h3), if_pos (by simp [h1, h2, h3])]
      · rw [if_pos h3, if_neg (by simp [h3])]
        exact nofun
    · rw [if_pos h2, if_neg (by simp [h2])]
      exact nofun
  · rw [if_pos h1, if_neg (by simp [h1])]
    intro x
    split <;> simp

theorem parseRecord_entry {x : RestoreEntry} : parseRecord o rec extent slot = .entry x ↔
    ∃ r, decode rec = some r ∧ geometryOk o r slot ∧ x = r.entry extent slot := by
  have h := parseRecord_eq o rec extent slot
  cases hd : decode rec with
  | none =>
    rw [hd] at h
    simp [h x]
  | some r =>
    simp only [hd] at h
    rw [h]
    constructor
    · intro heq
      split at heq
      · exact ⟨r, rfl, ‹_›, (Parsed.entry.inj heq).symm⟩
      · simp at heq
    · rintro ⟨r', hr, hg, rfl⟩
      cases hr
      rw [if_pos hg]

theorem parseRecord_rejected
    (h : parseRecord o rec extent slot = .rejected ∨ parseRecord o rec extent slot = .corrupt)
    (hr : decode rec = some r) : geometryOk o r slot = false := by
  by_contra hg
  have he : parseRecord o rec extent slot = .entry (r.entry extent slot) :=
    parseRecord_entry.mpr ⟨r, hr, by simpa using hg, rfl⟩
  simp [he] at h

end Parse

/-! ## A store at rest -/

namespace DiskSlabStore

variable {s : DiskSlabStore} {o : Options} {k : BlockKey} {x : RestoreEntry}

def Quiescent (s : DiskSlabStore) : Prop :=
  ∀ t th, s.threads t = some th → (∃ job status, th = .stored job status) ∨
    ∃ job status data n, th = .fetched job status data n

/-- The options of the next open agree in what `slab_meta` checks and in the rounding of the class
sizes. -/
structure SameGeometry (o o' : Options) : Prop where
  capacity : o'.capacityBytes = o.capacityBytes
  extent : o'.extentBytes = o.extentBytes
  grain : o'.slotGranularity = o.slotGranularity
  quotient : o'.quotient = o.quotient

theorem Quiescent.inflight (hq : s.Quiescent) (h : s.Inv) (k : BlockKey) : s.inflight k = 0 := by
  rw [(h.keys k).holders]
  refine tally_eq_zero fun t th ht => ?_
  rcases hq t th ht with ⟨job, status, rfl⟩ | ⟨job, status, data, n, rfl⟩ <;>
    simp [Thread.holds, Thread.holding]

/-- What an entry says about the store it was found in. -/
structure Describes (s : DiskSlabStore) (x : RestoreEntry) (y : Hold) : Prop where
  held : s.alloc.held x.key = some y
  extent : y.ref.extent = x.extent
  slot : y.ref.slot = x.slot
  size : y.ref.slotSize = x.slotSize
  len : s.len x.key = some x.valueBytes

theorem tableIndex {o : Options} {slot : Nat} (hslot : slot < o.maxSlots) :
    (e * o.maxSlots + slot) / o.maxSlots = e ∧ (e * o.maxSlots + slot) % o.maxSlots = slot := by
  constructor
  · rw [Nat.mul_comm, mul_add_div (by omega), div_eq_of_lt hslot, add_zero]
  · rw [Nat.mul_comm, mul_add_mod, mod_eq_of_lt hslot]

theorem SameGeometry.maxSlots (hg : SameGeometry o o') : o'.maxSlots = o.maxSlots := by
  rw [Options.maxSlots, hg.extent, hg.grain, Options.maxSlots]

theorem SameGeometry.numExtents (hg : SameGeometry o o') : o'.numExtents = o.numExtents := by
  rw [Options.numExtents, hg.extent, hg.capacity, Options.numExtents]

theorem SameGeometry.recordIn (hg : SameGeometry o o') (table : Bytes) (e slot : Nat) :
    recordIn o' table e slot = recordIn o table e slot := by
  unfold Store.recordIn tableOffset
  rw [hg.maxSlots]

/-- The slot sizes of the lattice are multiples of the alignment. -/
theorem align_dvd_of_places {o : Slab.Options} {ref : SlotRef} (hp : o.Places ref) :
    o.align ∣ ref.slotSize := by
  have hmem := (o.classSizes_spec _ _).1 _ hp.lattice
  have ha : o.align ≤ o.maxAligned := hmem.1.trans hmem.2
  exact (canonicalSlotSize_of_mem ha _ _ (dvd_refl _) (canonicalSlotSize_align ha) hp.lattice).1

section Rest

variable (h : s.Inv) (hT : s.TableInv) (hq : s.Quiescent)

include h hT hq

theorem record_describes {slot : Nat} (hslot : slot < s.opt.maxSlots)
    (hr : s.recordAt e slot = some r) : ∃ y, s.Describes (r.entry e slot) y := by
  obtain ⟨k, y, hy, rfl, rfl⟩ := hT.covered e slot r hslot hr
  obtain ⟨rfl, hsz, hl⟩ := (hT.keys k).sound y r hy hr
  exact ⟨y, hy, rfl, rfl, hsz.symm, hl.resolve_right fun hn => hn.2 (hq.inflight h _)⟩

omit hT hq in
/-- A committed key lies where the geometry check expects it. -/
theorem Describes.geometryOk {slot : Nat} {y : Hold} (hd : s.Describes (r.entry e slot) y)
    (hg : SameGeometry s.opt o) : geometryOk o r slot := by
  have hp := h.alloc.held_places hd.held
  have hin := hp.inside
  obtain ⟨z, p, hz, -, hpl, -, hfit⟩ := (h.keys _).committed _ hd.len
  cases hd.held.symm.trans hz
  rw [h.options] at hp hin
  have hdvd := align_dvd_of_places hp
  have hsz : y.ref.slotSize = r.slotSize := hd.size
  have hslot : y.ref.slot = slot := hd.slot
  have hlt := hp.slot_lt
  have hal := hp.align_le
  rw [hsz, hslot] at hlt
  rw [hsz] at hal hin hdvd hfit
  unfold Store.geometryOk
  rw [hg.grain, hg.extent]
  simp only [Bool.and_eq_true, decide_eq_true_eq]
  exact ⟨⟨⟨⟨hal, mod_eq_zero_of_dvd hdvd⟩, (le_add_left _ _).trans hin⟩, hfit⟩, hlt⟩

theorem mem_tableEntries (hg : SameGeometry s.opt o) : x ∈ tableEntries o s.table ↔
    ∃ e slot r, e < o.numExtents ∧ slot < o.maxSlots ∧ s.recordAt e slot = some r ∧
      x = r.entry e slot := by
  have hmatch (i : Nat) :
      (match parseAt o s.table i with | .entry x => some x | _ => none) = some x ↔
        parseAt o s.table i = .entry x := by
    cases parseAt o s.table i <;> simp
  have hrec (e slot : Nat) : decode (fun j => s.table (o.tableOffset e slot + j)) =
      s.recordAt e slot := hg.recordIn s.table e slot
  unfold tableEntries
  simp only [mem_filterMap, mem_range, hmatch]
  constructor
  · rintro ⟨i, hi, hp⟩
    obtain ⟨r, hr, -, rfl⟩ := parseRecord_entry.mp hp
    rw [hrec] at hr
    have hpos : 0 < o.maxSlots := pos_of_ne_zero fun h0 => by simp [h0] at hi
    exact ⟨_, _, r, Nat.div_lt_of_lt_mul (Nat.mul_comm _ _ ▸ hi), Nat.mod_lt _ hpos, hr, rfl⟩
  · rintro ⟨e, slot, r, he, hslot, hr, rfl⟩
    obtain ⟨hdiv, hmod⟩ := tableIndex (e := e) hslot
    obtain ⟨y, hd⟩ := record_describes h hT hq (hg.maxSlots ▸ hslot) hr
    refine ⟨e * o.maxSlots + slot, ?_, ?_⟩
    · have hmul : (e + 1) * o.maxSlots ≤ o.numExtents * o.maxSlots := mul_le_mul_right _ he
      rw [add_mul, one_mul] at hmul
      omega
    · unfold parseAt
      rw [hdiv, hmod]
      exact parseRecord_entry.mpr ⟨r, (hrec e slot).trans hr, hd.geometryOk h hg, rfl⟩

theorem tableEntries_describes (hg : SameGeometry s.opt o) :
    (∀ x ∈ tableEntries o s.table, ∃ y, s.Describes x y) ∧
      ∀ k n, s.len k = some n → ∃ x ∈ tableEntries o s.table, x.key = k := by
  constructor
  · intro x hx
    obtain ⟨e, slot, r, -, hslot, hr, rfl⟩ := (mem_tableEntries h hT hq hg).mp hx
    exact record_describes h hT hq (hg.maxSlots ▸ hslot) hr
  · intro k n hn
    obtain ⟨y, r, hy, hr, -⟩ := (hT.keys k).complete n hn
    have hp := h.alloc.held_places hy
    rw [h.options] at hp
    refine ⟨r.entry y.ref.extent y.ref.slot, (mem_tableEntries h hT hq hg).mpr
      ⟨_, _, r, ?_, hg.maxSlots ▸ h.slot_lt hy, hr, rfl⟩, ((hT.keys k).sound y r hy hr).1⟩
    rw [hg.numExtents]
    exact hp.extent_lt

/-- Two entries of the scan name different keys and can be restored together. -/
theorem tableEntries_pairwise (hg : SameGeometry s.opt o) :
    (tableEntries o s.table).Pairwise fun x y => x.key ≠ y.key ∧ x.Compatible y := by
  have hM : 0 < o.maxSlots := hg.maxSlots ▸ (valid_of h.valid).slots_pos
  have hfind {i : Nat} {x : RestoreEntry} (hx : (match parseAt o s.table i with
      | .entry x => some x
      | _ => none) = some x) :
      (∃ y, s.Describes x y) ∧ x.extent = i / o.maxSlots ∧ x.slot = i % o.maxSlots := by
    have hp : parseAt o s.table i = .entry x := by
      cases hp : parseAt o s.table i <;> simp_all
    obtain ⟨r, hr, -, rfl⟩ := parseRecord_entry.mp hp
    have hrec : s.recordAt (i / o.maxSlots) (i % o.maxSlots) = some r :=
      (hg.recordIn s.table _ _).symm.trans hr
    exact ⟨record_describes h hT hq (hg.maxSlots ▸ Nat.mod_lt _ hM) hrec, rfl, rfl⟩
  refine pairwise_filterMap.mpr (nodup_range.imp fun {i j} hne x hx y hy => ?_)
  obtain ⟨⟨p, hp⟩, hxe, hxs⟩ := hfind hx
  obtain ⟨⟨q, hq⟩, hye, hys⟩ := hfind hy
  have hplace : ¬(x.extent = y.extent ∧ x.slot = y.slot) := by
    rintro ⟨he, hs⟩
    refine hne ?_
    rw [← div_add_mod i o.maxSlots, ← div_add_mod j o.maxSlots, ← hxe, ← hxs, ← hye, ← hys, he, hs]
  refine ⟨fun hk => hplace ?_, fun he => ⟨fun hs => hplace ⟨he, hs⟩, ?_⟩⟩
  · have heq : p = q := Option.some.inj (hp.held.symm.trans (hk ▸ hq.held))
    exact ⟨by rw [← hp.extent, ← hq.extent, heq], by rw [← hp.slot, ← hq.slot, heq]⟩
  · rw [← hp.size, ← hq.size]
    exact h.alloc.held_size_eq hp.held hq.held (by rw [hp.extent, hq.extent, he])

theorem tableEntries_loads (hg : SameGeometry s.opt o) : o.slab.Loads (tableEntries o s.table) := by
  obtain ⟨hdesc, -⟩ := tableEntries_describes h hT hq hg
  have hpw := tableEntries_pairwise h hT hq hg
  have hext : o.slab.extentBytes = s.opt.slab.extentBytes := hg.extent
  have hal : o.slab.align = s.opt.slab.align := hg.grain
  have hsizes := classSizes_congr hal hext hg.quotient
  have hplaces {x : RestoreEntry} {y : Hold} (hd : s.Describes x y) : s.opt.slab.Places y.ref :=
    h.options ▸ h.alloc.held_places hd.held
  refine ⟨fun x hx => ?_, fun x hx => ?_, fun x hx => ?_, fun x hx => ?_,
    pairwise_map.mpr (hpw.imp fun hc => hc.1), hpw.imp fun hc => hc.2⟩
  all_goals obtain ⟨y, hd⟩ := hdesc x hx
  · rw [← hd.extent]
    exact (hplaces hd).extent_lt.trans_eq hg.numExtents.symm
  · rw [← hd.slot, ← hd.size, hext]
    exact (hplaces hd).slot_lt
  · obtain ⟨z, p, hz, -, -, -, hfit⟩ := (h.keys _).committed _ hd.len
    cases hd.held.symm.trans hz
    rw [← hd.size]
    exact hfit
  · have hmax : o.slab.maxAligned = s.opt.slab.maxAligned := by
      rw [Slab.Options.maxAligned, hal, hext, Slab.Options.maxAligned]
    rw [← hd.size, hmax, hal, hsizes]
    exact (hplaces hd).lattice

end Rest

/-! ## Loading -/

theorem commitEntries_spec (xs : List RestoreEntry) : ∀ s : DiskSlabStore,
    (xs.map (·.key)).Nodup → ∃ m u,
      s.commitEntries xs = { s with payloadLen := m, tenantUsed := u } ∧
      (∀ x ∈ xs, m.lookup x.key = some x.valueBytes) ∧
      (∀ k, k ∉ xs.map (·.key) → m.lookup k = s.len k) ∧ s.Counted m u := by
  induction xs with
  | nil => exact fun s _ => ⟨s.payloadLen, s.tenantUsed, rfl, by simp, fun _ _ => rfl, id⟩
  | cons x xs ih =>
    intro s hnodup
    obtain ⟨hx, hnodup⟩ := nodup_cons.mp hnodup
    obtain ⟨m, u, heq, hlen, hcnt⟩ := s.commitPayload_spec x.key x.valueBytes
    obtain ⟨m', u', heq', hin, hout, hcnt'⟩ := ih (s.commitPayload x.key x.valueBytes) hnodup
    rw [heq] at heq' hout hcnt'
    refine ⟨m', u', ?_, ?_, fun k hk => ?_, fun hu => hcnt' (hcnt hu)⟩
    · exact (congrArg (commitEntries · xs) heq).trans heq'
    · intro y hy
      rcases mem_cons.mp hy with rfl | hy
      · exact (hout _ hx).trans ((hlen _).trans (if_pos rfl))
      · exact hin y hy
    · rw [map_cons, mem_cons, not_or] at hk
      exact (hout k hk.2).trans ((hlen k).trans (if_neg hk.1))

theorem recordIn_clear {o : Options} {slot : Nat} (hslot : slot < o.maxSlots)
    (rejects : List (Nat × Nat)) : ∀ table : Bytes,
    (∀ p ∈ rejects, p.2 < o.maxSlots) → (∀ p ∈ rejects, recordIn o table p.1 p.2 = none) →
    recordIn o (rejects.foldl (clearReject o) table) e slot = recordIn o table e slot := by
  induction rejects with
  | nil => exact fun _ _ _ => rfl
  | cons p ps ih =>
    intro table hin hnone
    have hp := hin p mem_cons_self
    have hstep {e slot : Nat} (hslot : slot < o.maxSlots) :
        recordIn o (clearReject o table p) e slot = recordIn o table e slot := by
      by_cases hpos : p.1 = e ∧ p.2 = slot
      · obtain ⟨rfl, rfl⟩ := hpos
        rw [hnone p mem_cons_self]
        refine recordIn_zero fun i hi => ?_
        rw [clearReject, FlatFile.pwrite_add (by simpa using hi), getElem_replicate]
      · exact recordIn_pwrite_apart (by simp) hp hslot hpos
    rw [foldl_cons, ih _ (fun q hq => hin q (mem_cons_of_mem _ hq)) fun q hq => ?_, hstep hslot]
    have hmem := mem_cons_of_mem p hq
    exact (hstep (hin q hmem)).trans (hnone q hmem)

/-- `s'` serves what `s` served, from the same places. -/
structure Reopened (s : DiskSlabStore) (o : Options) (s' : DiskSlabStore) : Prop where
  inv : s'.Inv
  table : s'.TableInv
  healthy : s'.failed = false
  idle : s'.threads = fun _ => none
  opt : s'.opt = o
  len : ∀ k, s'.len k = s.len k
  usage : ∀ tenant, s'.tenantUsed tenant = s.tenantUsed tenant
  extents : s'.extents = s.extents
  commits : s'.commits = s.commits
  place : ∀ k n, s.len k = some n → ∃ x x', s.alloc.held k = some x ∧
    s'.alloc.held k = some x' ∧ x'.ref.extent = x.ref.extent ∧ x'.ref.slot = x.ref.slot ∧
    x'.ref.slotSize = x.ref.slotSize ∧ x'.ref.offset = x.ref.offset

theorem slab_normalize (hv : o.validateOptions = none) : o.slab.normalize = o.slab := by
  have hval := valid_of hv
  have h1 : o.slotGranularity ≠ 0 := fun h0 => by
    have := hval.grain_ge
    omega
  have h2 : o.numExtents ≠ 0 := hval.extents_pos.ne'
  simp [Slab.Options.normalize, slab, h1, h2]

theorem slab_extentBytes_lt (hv : o.validateOptions = none) : o.slab.extentBytes < 2 ^ 32 := by
  have hle : o.extentBytes ≤ uint32Max := (valid_of hv).extent_le
  unfold uint32Max at hle
  exact lt_of_le_of_lt hle (by omega)

section Rest

variable (h : s.Inv) (hT : s.TableInv) (hq : s.Quiescent) (hg : SameGeometry s.opt o)

include h hT hq hg

/-- Rejected records are no valid ones, so that clearing them changes nothing. -/
theorem recordIn_repaired {slot : Nat} (hslot : slot < o.maxSlots) :
    recordIn o ((tableRejects o s.table).foldl (clearReject o) s.table) e slot =
      s.recordAt e slot := by
  have hM : 0 < o.maxSlots := hg.maxSlots ▸ (valid_of h.valid).slots_pos
  have hmem : ∀ p ∈ tableRejects o s.table, ∃ i, p = (i / o.maxSlots, i % o.maxSlots) ∧
      (parseAt o s.table i = .rejected ∨ parseAt o s.table i = .corrupt) := by
    intro p hp
    obtain ⟨i, -, hi⟩ := mem_filterMap.mp hp
    refine ⟨i, ?_⟩
    cases hpi : parseAt o s.table i <;> simp_all
  rw [recordIn_clear hslot _ _ (fun p hp => ?_) fun p hp => ?_]
  · exact hg.recordIn s.table e slot
  · obtain ⟨i, rfl, -⟩ := hmem p hp
    exact Nat.mod_lt _ hM
  · obtain ⟨i, rfl, hi⟩ := hmem p hp
    by_contra hsome
    obtain ⟨r, hr⟩ := Option.ne_none_iff_exists'.mp hsome
    have hrec : s.recordAt (i / o.maxSlots) (i % o.maxSlots) = some r :=
      (hg.recordIn s.table _ _).symm.trans hr
    obtain ⟨y, hd⟩ := record_describes h hT hq (hg.maxSlots ▸ Nat.mod_lt _ hM) hrec
    have hbad := parseRecord_rejected hi hr
    rw [hd.geometryOk h hg] at hbad
    simp at hbad

/-- What a completed rebuild leaves, whatever it did to rejected records. -/
theorem reopened_of {m : AList fun _ : BlockKey => Nat} {u : UInt64 → Nat} {table : Bytes}
    (ro : RetainOptions) (nowS : Nat) (hv : o.validateOptions = none)
    (hin : ∀ x ∈ tableEntries o s.table, m.lookup x.key = some x.valueBytes)
    (hout : ∀ k, k ∉ (tableEntries o s.table).map (·.key) → m.lookup k = none)
    (hcnt : ∀ tenant, u tenant = usage m tenant)
    (htab : ∀ e slot, slot < o.maxSlots → recordIn o table e slot = s.recordAt e slot) :
    Reopened s o
      { opened o ro nowS table s.extents s.commits with
        alloc := ((SlabAllocator.started o.slab ro nowS).restoreBulk (tableEntries o s.table)).1
        payloadLen := m
        tenantUsed := u } := by
  obtain ⟨hdesc, hall⟩ := tableEntries_describes h hT hq hg
  obtain ⟨-, hinv, hopt, hgive, hback⟩ := restoreBulk_new ro nowS (tableEntries_loads h hT hq hg)
    (slab_normalize hv) (slab_extentBytes_lt hv)
  generalize ((SlabAllocator.started o.slab ro nowS).restoreBulk (tableEntries o s.table)).1 = a
    at hinv hopt hgive hback ⊢
  have hlen (k : BlockKey) : m.lookup k = s.len k := by
    by_cases hk : k ∈ (tableEntries o s.table).map (·.key)
    · obtain ⟨x, hx, rfl⟩ := mem_map.mp hk
      obtain ⟨y, hd⟩ := hdesc x hx
      rw [hin x hx, hd.len]
    · rw [hout k hk]
      cases hn : s.len k with
      | none => rfl
      | some n =>
        obtain ⟨x, hx, rfl⟩ := hall k n hn
        exact absurd (mem_map_of_mem hx) hk
  -- a restored hold, and the hold it was written for
  have hpair {k : BlockKey} {x' : Hold} (hx' : a.held k = some x') : x'.refs = 0 ∧
      x'.pending = false ∧ ∃ x n, s.alloc.held k = some x ∧ s.len k = some n ∧
        x'.ref.extent = x.ref.extent ∧ x'.ref.slot = x.ref.slot ∧
        x'.ref.slotSize = x.ref.slotSize ∧ x'.ref.offset = x.ref.offset := by
    obtain ⟨y, hy, rfl, h0, hp, he, hs, hsz, hoff⟩ := hback k x' hx'
    obtain ⟨x, hd⟩ := hdesc y hy
    refine ⟨h0, hp, x, _, hd.held, hd.len, by rw [he, hd.extent], by rw [hs, hd.slot],
      by rw [hsz, hd.size], ?_⟩
    rw [hoff, (h.alloc.held_places hd.held).offset_eq, hd.slot, hd.size]
  have hplace {k : BlockKey} {n : Nat} (hn : s.len k = some n) : ∃ x x', s.alloc.held k = some x ∧
      a.held k = some x' ∧ x'.ref.extent = x.ref.extent ∧ x'.ref.slot = x.ref.slot ∧
      x'.ref.slotSize = x.ref.slotSize ∧ x'.ref.offset = x.ref.offset := by
    obtain ⟨y, hy, rfl⟩ := hall k n hn
    obtain ⟨x', hx', -⟩ := hgive y hy
    obtain ⟨-, -, x, -, hx, -, hpl⟩ := hpair hx'
    exact ⟨x, x', hx, hx', hpl⟩
  refine ⟨⟨hv, hinv, hopt, fun _ _ => rfl, fun k => ?_, hcnt, ?_⟩, ⟨fun k => ?_, ?_⟩, rfl, rfl, rfl,
    hlen, fun tenant => ?_, rfl, rfl, fun k n hn => hplace hn⟩
  · refine ⟨fun x hx => (hpair hx).2.1, ?_, rfl, fun n hn => ?_, by simp [opened], nofun⟩
    · change 0 = (a.held k).elim 0 Hold.refs
      cases hx : a.held k with
      | none => rfl
      | some x => exact (hpair hx).1.symm
    · have hn : s.len k = some n := (hlen k).symm.trans hn
      obtain ⟨x, x', hx, hx', he, -, hsz, hoff⟩ := hplace hn
      obtain ⟨y, p, hy, hp, hpl, hst, hfit⟩ := (h.keys k).committed n hn
      cases hx.symm.trans hy
      refine ⟨x', p, hx', hp, hpl, ?_, hsz ▸ hfit⟩
      unfold Stored at hst ⊢
      rw [he, hoff]
      exact hst
  · exact fun z hz => absurd hz not_mem_nil
  · refine ⟨fun x' r hx' hr => ?_, fun n hn => ?_, nofun⟩
    · obtain ⟨-, -, x, n, hx, hn, he, hs, hsz, -⟩ := hpair hx'
      have hr : s.recordOf x.ref = some r := by
        unfold recordOf
        rw [← he, ← hs, ← htab _ _ (by rw [hs, hg.maxSlots]; exact h.slot_lt hx)]
        exact hr
      obtain ⟨hk, hrs, hl⟩ := (hT.keys k).sound x r hx hr
      exact ⟨hk, hrs.trans hsz.symm, Or.inl ((hlen k).trans
        (hl.resolve_right fun hnone => by simp [hn] at hnone))⟩
    · have hn : s.len k = some n := (hlen k).symm.trans hn
      obtain ⟨x, x', hx, hx', he, hs, -, -⟩ := hplace hn
      obtain ⟨y, r, hy, hr, hrl⟩ := (hT.keys k).complete n hn
      cases hx.symm.trans hy
      refine ⟨x', r, hx', ?_, hrl⟩
      have hrec := htab x.ref.extent x.ref.slot (by rw [hg.maxSlots]; exact h.slot_lt hx)
      rw [← he, ← hs] at hrec
      refine hrec.trans ?_
      rw [he, hs]
      exact hr
  · intro e slot r hslot hr
    have hr : s.recordAt e slot = some r := (htab e slot hslot).symm.trans hr
    obtain ⟨y, hd⟩ := record_describes h hT hq (hg.maxSlots ▸ hslot) hr
    obtain ⟨x, x', hx, hx', he, hs, -, -⟩ := hplace hd.len
    cases hx.symm.trans hd.held
    exact ⟨_, x', hx', he.trans hd.extent, hs.trans hd.slot⟩
  · rw [h.usage tenant]
    exact (hcnt tenant).trans (total_congr hlen)

/-- Reopening a healthy store at rest with the same geometry succeeds, and gives back the store
whenever it succeeds. -/
theorem reopen_spec (hv : o.validateOptions = none) (ro : RetainOptions) (nowS : Nat) :
    (∃ s', s.reopen o ro nowS {} = .ok s') ∧
      ∀ io s', s.reopen o ro nowS io = .ok s' → Reopened s o s' := by
  have hloads := tableEntries_loads h hT hq hg
  have hok := (restoreBulk_new ro nowS hloads (slab_normalize hv) (slab_extentBytes_lt hv)).1
  generalize hs₀ : ({ opened o ro nowS s.table s.extents s.commits with
    alloc := ((SlabAllocator.started o.slab ro nowS).restoreBulk (tableEntries o s.table)).1 } :
    DiskSlabStore) = s₀
  obtain ⟨m, u, heq, hin, hout, hcnt⟩ := commitEntries_spec (tableEntries o s.table) s₀ hloads.keys
  have heqs (io : RebuildIo) : s.reopen o ro nowS io = match io.scan with
      | some e => .error e.text
      | none =>
        if tableRejects o s.table = [] then .ok (s₀.commitEntries (tableEntries o s.table))
        else if io.clearOk = false then .error "cannot clear rejected slots.tbl record"
        else if io.syncOk = false then .error "cannot persist slots.tbl rebuild repairs"
        else .ok { s₀.commitEntries (tableEntries o s.table) with
          table := (tableRejects o s.table).foldl (clearReject o) s.table } := by
    unfold reopen rebuild
    rw [← hs₀] at heq ⊢
    cases io.scan with
    | some e => rfl
    | none =>
      dsimp only [opened]
      rw [if_neg (by rw [hok]; simp)]
      dsimp only [opened] at heq
      rw [heq]
  rw [heq] at heqs
  have hfinal {table : Bytes}
      (htab : ∀ e slot, slot < o.maxSlots → recordIn o table e slot = s.recordAt e slot) :=
    reopened_of h hT hq hg ro nowS hv hin
      (fun k hk => (hout k hk).trans (by rw [← hs₀]; rfl))
      (hcnt (by rw [← hs₀]; exact fun _ => rfl)) htab
  have hsame : ∀ e slot, slot < o.maxSlots → recordIn o s.table e slot = s.recordAt e slot :=
    fun e slot _ => hg.recordIn s.table e slot
  refine ⟨?_, fun io s' hs' => ?_⟩
  · rw [heqs]
    dsimp only
    split
    · exact ⟨_, rfl⟩
    · exact ⟨_, rfl⟩
  · rw [heqs] at hs'
    subst hs₀
    split at hs'
    · simp at hs'
    · split at hs'
      · exact Except.ok.inj hs' ▸ hfinal hsame
      · split at hs'
        · simp at hs'
        · split at hs'
          · simp at hs'
          · exact Except.ok.inj hs' ▸ hfinal fun e slot hslot =>
              recordIn_repaired h hT hq hg hslot

end Rest

end DiskSlabStore

end DingoCache.Store
