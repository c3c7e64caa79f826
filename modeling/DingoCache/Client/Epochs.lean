import DingoCache.Client.Discovery
import DingoCache.Mds.Codec

/-!
# What the Epochs of a View Hash

`MembersEpoch` and `MembersTopologyEpoch` of `src/common/membership.h` hash one byte
stream each: the records of the members, in an order that does not depend on the order of
the list.
-/

namespace DingoCache.Client

open Library Mds List
open IbDeviceHealth

/-! ## Orders to sort by -/

section Sorting

variable {α κ : Type} {lt : α → α → Bool} {tie : α → α → Prop} {l l' : List α}

/-- A strict weak order; elements that it does not order are related by `tie`. -/
structure SortOrder (lt : α → α → Bool) (tie : α → α → Prop) : Prop where
  asymm : ∀ {a b}, lt a b = true → lt b a = false
  split : ∀ {a c}, lt a c = true → ∀ b, lt a b = true ∨ lt b c = true
  tied : ∀ {a b}, lt a b = false → lt b a = false → tie a b

variable [LT κ] [LE κ] [Std.IsLinearOrder κ] [Std.LawfulOrderLT κ] [DecidableLT κ]

theorem sortOrder_key (key : α → κ) :
    SortOrder (fun a b => decide (key a < key b)) (fun a b => key a = key b) where
  asymm := by grind
  split := by grind
  tied := by grind

theorem SortOrder.lex [DecidableEq κ] (h : SortOrder lt tie) (key : α → κ) :
    SortOrder (fun a b => if key a ≠ key b then decide (key a < key b) else lt a b)
      (fun a b => key a = key b ∧ tie a b) where
  asymm := by grind [h.asymm]
  split := by grind [h.split]
  tied := by grind [h.tied]

theorem SortOrder.sortBy_congr (h : SortOrder lt tie)
    (heq : ∀ a ∈ l, ∀ b ∈ l, tie a b → a = b) (hl : l.Perm l') : sortBy lt l = sortBy lt l' := by
  have hsorted (l : List α) : (sortBy lt l).Pairwise fun a b => (!lt b a) := by
    apply pairwise_mergeSort
    · grind [h.split]
    · grind [h.asymm]
  have hperm : (sortBy lt l).Perm (sortBy lt l') :=
    (mergeSort_perm l _).trans (hl.trans (mergeSort_perm l' _).symm)
  apply List.Perm.eq_of_pairwise _ (hsorted l) (hsorted l') hperm
  intro a b ha hb hab hba
  have hmem : ∀ {x}, x ∈ sortBy lt l → x ∈ l := fun hx => mem_mergeSort.mp hx
  exact heq a (hmem ha) b (hmem (hperm.mem_iff.mpr hb)) (h.tied (by simpa using hba)
    (by simpa using hab))

end Sorting

/-! ## The streams -/

/-- What `MembersEpoch` hashes of a member. -/
def placementRecord (m : MemberInfo) : ByteString := putMember m ++ putFlag m.ringEligible

/-- The bytes that `MembersEpoch` hashes. -/
def membersStream (ms : List MemberInfo) : ByteString :=
  (sortBy (fun a b => decide (a.id < b.id)) ms).flatMap placementRecord

/-- The bytes that `MembersTopologyEpoch` hashes. -/
def topologyStream (ms : List MemberInfo) : ByteString :=
  putLE 4 ms.length ++ (sortBy MemberInfo.before ms).flatMap MemberInfo.topology

/-- A member with the multiset of the device reports of its health report, if it has one. -/
def reported (m : MemberInfo) :
    (ByteString × ByteString × UInt32 × UInt32 × Bool) × Option (Multiset IbDeviceHealth) :=
  (placed m, if m.hasHealth then some ↑m.health.ibDevices else none)

theorem membersEpoch_eq (ms : List MemberInfo) :
    membersEpoch ms = mix 1469598103934665603 (membersStream ms) :=
  foldl_flatMap.symm

theorem membersTopologyEpoch_eq (ms : List MemberInfo) :
    membersTopologyEpoch ms = mix 1469598103934665603 (topologyStream ms) := by
  rw [topologyStream, mix, foldl_append, foldl_flatMap]
  rfl

/-! ## Streams of sorted members -/

section Streams

variable {γ : Type} {f : MemberInfo → γ} {code : MemberInfo → ByteString}
  {lt : MemberInfo → MemberInfo → Bool} {ms ms' : List MemberInfo}

theorem map_sortBy (idOf : γ → ByteString) (hid : ∀ m, idOf (f m) = m.id)
    (hirrefl : ∀ m, lt m m = false) (hlt : ∀ a b, a.id ≠ b.id → lt a b = decide (a.id < b.id))
    (hms : (ms.map MemberInfo.id).Nodup) :
    (sortBy lt ms).map f = sortBy (fun x y => decide (idOf x < idOf y)) (ms.map f) := by
  refine map_mergeSort fun a ha b hb => congrArg not ?_
  beta_reduce
  rw [hid, hid]
  by_cases hab : b.id = a.id
  · rw [inj_on_of_nodup_map hms hb ha hab, hirrefl]
    exact (decide_eq_false (List.lt_irrefl a.id)).symm
  · exact hlt b a hab

theorem stream_congr (idOf : γ → ByteString) (hid : ∀ m, idOf (f m) = m.id)
    (hirrefl : ∀ m, lt m m = false) (hlt : ∀ a b, a.id ≠ b.id → lt a b = decide (a.id < b.id))
    (hcode : code.FactorsThrough f) (hms : (ms.map MemberInfo.id).Nodup)
    (hms' : (ms'.map MemberInfo.id).Nodup) (hset : ∀ x, x ∈ ms.map f ↔ x ∈ ms'.map f) :
    (ms.map f).Perm (ms'.map f) ∧ (sortBy lt ms).flatMap code = (sortBy lt ms').flatMap code := by
  have hkeys (l : List MemberInfo) : (l.map f).map idOf = l.map MemberInfo.id := by
    rw [map_map]
    exact map_congr_left fun m _ => hid m
  rw [← hkeys] at hms hms'
  have hperm := (perm_ext_iff_of_nodup hms.of_map hms'.of_map).mpr hset
  refine ⟨hperm, ?_⟩
  obtain ⟨g, rfl⟩ := (Function.factorsThrough_iff code).mp hcode
  have hflat (l : List MemberInfo) : l.flatMap (g ∘ f) = (l.map f).flatMap g := by
    rw [flatMap_map]
    rfl
  rw [hflat, hflat, map_sortBy idOf hid hirrefl hlt (hkeys ms ▸ hms),
    map_sortBy idOf hid hirrefl hlt (hkeys ms' ▸ hms'), (sortOrder_key idOf).sortBy_congr _ hperm]
  exact fun x hx y hy => inj_on_of_nodup_map hms hx hy

theorem stream_inj {read : ByteString → Option (γ × ByteString)} (hend : read [] = none)
    (hms : ∀ m ∈ ms, ∀ rest, read (code m ++ rest) = some (f m, rest))
    (hms' : ∀ m ∈ ms', ∀ rest, read (code m ++ rest) = some (f m, rest))
    (h : (sortBy lt ms).flatMap code = (sortBy lt ms').flatMap code) (x : γ) :
    x ∈ ms.map f ↔ x ∈ ms'.map f := by
  have hmap : (sortBy lt ms).map f = (sortBy lt ms').map f := map_eq_of_flatMap_eq f hend
    (fun m hm => hms m (mem_mergeSort.mp hm)) (fun m hm => hms' m (mem_mergeSort.mp hm)) h
  have hmem (l : List MemberInfo) : x ∈ (sortBy lt l).map f ↔ x ∈ l.map f :=
    ((mergeSort_perm l _).map f).mem_iff
  rw [← hmem ms, hmap, hmem ms']

end Streams

/-! ## Reading records back -/

def ShortAddress (m : MemberInfo) : Prop := m.id.length < 2 ^ 32 ∧ m.ip.length < 2 ^ 32

/-- The number of the device reports and the lengths of their names have 32 bits. -/
def ShortReports (m : MemberInfo) : Prop :=
  m.health.ibDevices.length < 2 ^ 32 ∧ ∀ d ∈ m.health.ibDevices, d.name.length < 2 ^ 32

def readPlacement (bs : ByteString) :
    Option ((ByteString × ByteString × UInt32 × UInt32 × Bool) × ByteString) := do
  let (m, bs) ← readMember bs
  let (eligible, bs) ← readFlag bs
  some ((m.id, m.ip, m.port, m.weight, eligible), bs)

def readReport (bs : ByteString) : Option (IbDeviceHealth × ByteString) := do
  let (name, bs) ← readString bs
  let (portState, bs) ← readLE 1 bs
  let (physState, bs) ← readLE 1 bs
  let (queryOk, bs) ← readFlag bs
  some ({ name, portState := .ofNat portState, physState := .ofNat physState, queryOk }, bs)

/-- Reads what `MembersTopologyEpoch` hashes of a member. -/
def readTopology (bs : ByteString) : Option (((ByteString × ByteString × UInt32 × UInt32 × Bool) ×
      Option (Multiset IbDeviceHealth)) × ByteString) := do
  let (p, bs) ← readPlacement bs
  let (hasHealth, bs) ← readFlag bs
  if hasHealth then
    let (count, bs) ← readLE 4 bs
    let (devices, bs) ← readMany readReport count bs
    some ((p, some ↑devices), bs)
  else some ((p, none), bs)

variable {m : MemberInfo}

theorem readPlacement_put (h : ShortAddress m) (rest : ByteString) :
    readPlacement (placementRecord m ++ rest) = some (placed m, rest) := by
  simp only [readPlacement, placementRecord, append_assoc, readMember_put h.1 h.2,
    readFlag_put, Option.bind_eq_bind, Option.bind_some]
  rfl

theorem readReport_put {d : IbDeviceHealth} (h : d.name.length < 2 ^ 32) (rest : ByteString) :
    readReport (putDevice d ++ rest) = some (d, rest) := by
  simp [readReport, putDevice, readString_put h, readLE_byte, readFlag_put]

theorem topology_eq (m : MemberInfo) : m.topology = placementRecord m ++ putFlag m.hasHealth ++
    if m.hasHealth then
      putLE 4 m.health.ibDevices.length ++ (sortBy before m.health.ibDevices).flatMap putDevice
    else [] := rfl

theorem readTopology_put (h : ShortAddress m) (hr : ShortReports m) (rest : ByteString) :
    readTopology (m.topology ++ rest) = some (reported m, rest) := by
  have hperm : (sortBy before m.health.ibDevices).Perm m.health.ibDevices :=
    mergeSort_perm _ _
  have hread : ∀ d ∈ sortBy before m.health.ibDevices, ∀ rest,
      readReport (putDevice d ++ rest) = some (id d, rest) :=
    fun d hd => readReport_put (hr.2 d (hperm.mem_iff.mp hd))
  have hdevices := readMany_flatMap id hread rest
  rw [hperm.length_eq, map_id] at hdevices
  simp only [readTopology, topology_eq, append_assoc, readPlacement_put h, readFlag_put,
    Option.bind_eq_bind, Option.bind_some, reported]
  cases m.hasHealth with
  | false => rfl
  | true =>
    simp [readLE_putLE 4 hr.1, hdevices, Multiset.coe_eq_coe.mpr hperm]

/-! ## What the streams depend on -/

theorem sortBy_devices {l l' : List IbDeviceHealth} (h : l.Perm l') :
    sortBy before l = sortBy before l' := by
  have horder : SortOrder before _ :=
    (((sortOrder_key queryOk).lex (·.physState)).lex (·.portState)).lex (·.name)
  refine horder.sortBy_congr (fun a _ b _ htie => ?_) h
  cases a
  cases b
  simpa using htie

theorem placementRecord_factors : placementRecord.FactorsThrough placed := by
  intro a b h
  simp only [placed, Prod.mk.injEq] at h
  simp only [placementRecord, putMember, h]

theorem topology_factors : MemberInfo.topology.FactorsThrough reported := by
  intro a b h
  obtain ⟨hplaced, hdevices⟩ := Prod.mk.inj h
  rw [topology_eq, topology_eq, placementRecord_factors hplaced]
  cases ha : a.hasHealth <;> cases hb : b.hasHealth <;> simp [ha, hb] at hdevices ⊢
  rw [sortBy_devices hdevices, hdevices.length_eq]

/-! ## The epochs identify the view -/

/-- Each epoch hashes one stream. For lists of members with distinct ids the streams agree if the
lists agree as sets in what the epoch is about, and only then if all lengths have 32 bits. -/
theorem epochs_identify_view :
    (∀ ms, membersEpoch ms = mix 1469598103934665603 (membersStream ms) ∧
      membersTopologyEpoch ms = mix 1469598103934665603 (topologyStream ms)) ∧
    ∀ ms ms' : List MemberInfo, (ms.map MemberInfo.id).Nodup → (ms'.map MemberInfo.id).Nodup →
      ((∀ x, x ∈ ms.map placed ↔ x ∈ ms'.map placed) → membersStream ms = membersStream ms') ∧
      ((∀ x, x ∈ ms.map reported ↔ x ∈ ms'.map reported) →
        topologyStream ms = topologyStream ms') ∧
      ((∀ m ∈ ms ++ ms', ShortAddress m) →
        (membersStream ms = membersStream ms' → ∀ x, x ∈ ms.map placed ↔ x ∈ ms'.map placed) ∧
        ((∀ m ∈ ms ++ ms', ShortReports m) → topologyStream ms = topologyStream ms' →
          ∀ x, x ∈ ms.map reported ↔ x ∈ ms'.map reported)) := by
  refine ⟨fun ms => ⟨membersEpoch_eq ms, membersTopologyEpoch_eq ms⟩, fun ms ms' hms hms' =>
    ⟨fun hset => ?_, fun hset => ?_, fun hs => ⟨fun h => ?_, fun hr h => ?_⟩⟩⟩
  · exact (stream_congr Prod.fst (fun _ => rfl) (fun m => decide_eq_false m.id.lt_irrefl)
      (fun _ _ _ => rfl) placementRecord_factors hms hms' hset).2
  · have hirrefl : ∀ m : MemberInfo, m.before m = false := by simp [MemberInfo.before]
    obtain ⟨hperm, hstream⟩ := stream_congr (fun r => r.1.1) (fun _ => rfl) hirrefl
      (fun a b h => if_pos h) topology_factors hms hms' hset
    have hlength : ms.length = ms'.length := by simpa using hperm.length_eq
    rw [topologyStream, topologyStream, hstream, hlength]
  · exact stream_inj rfl (fun m hm => readPlacement_put (hs m (by simp [hm])))
      (fun m hm => readPlacement_put (hs m (by simp [hm]))) h
  · have hrecords := (List.append_inj h (by simp)).2
    exact stream_inj rfl (fun m hm => readTopology_put (hs m (by simp [hm])) (hr m (by simp [hm])))
      (fun m hm => readTopology_put (hs m (by simp [hm])) (hr m (by simp [hm]))) hrecords

theorem streams_shift {text : ByteString}
    (h : putString text ++ putString [] = putString [] ++ putString text) :
    membersStream [{ id := text, ip := [] }] = membersStream [{ id := [], ip := text }] ∧
      topologyStream [{ id := text, ip := [] }] = topologyStream [{ id := [], ip := text }] := by
  simp [membersStream, topologyStream, sortBy, topology_eq, placementRecord, putMember, h,
    MemberInfo.ringEligible]

/-- Members with different ids whose streams agree: the length `2 ^ 32` is hashed as 0. Without a
health report, device reports are not hashed. -/
theorem long_texts_collide :
    List.replicate (2 ^ 32) 0 ≠ ([] : ByteString) ∧
    membersStream [{ id := List.replicate (2 ^ 32) 0, ip := [] }] =
      membersStream [{ id := [], ip := List.replicate (2 ^ 32) 0 }] ∧
    topologyStream [{ id := List.replicate (2 ^ 32) 0, ip := [] }] =
      topologyStream [{ id := [], ip := List.replicate (2 ^ 32) 0 }] ∧
    topologyStream [{ id := [], ip := [], health := { ibDevices := [{ name := [] }] } }] =
      topologyStream [{ id := [], ip := [] }] := by
  have hzeros : putString (List.replicate (2 ^ 32) 0) = List.replicate (4 + 2 ^ 32) 0 := by
    rw [putString, List.length_replicate, show putLE 4 (2 ^ 32) = List.replicate 4 0 by decide,
      List.replicate_append_replicate]
  have hshift : putString (List.replicate (2 ^ 32) 0) ++ putString [] =
      putString [] ++ putString (List.replicate (2 ^ 32) 0) := by
    rw [hzeros, show putString [] = List.replicate 4 0 by decide,
      List.replicate_append_replicate, List.replicate_append_replicate, Nat.add_comm]
  obtain ⟨hmembers, htopology⟩ := streams_shift hshift
  refine ⟨?_, hmembers, htopology, ?_⟩
  · rw [Ne, List.replicate_eq_nil_iff]
    decide
  · simp [topologyStream, sortBy, topology_eq, placementRecord, putMember, MemberInfo.ringEligible]

end DingoCache.Client
