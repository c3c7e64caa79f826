import DingoCache.Mds.Members

/-!
# What a Decoded View Holds

What `DecodeMembers` makes of what `EncodeMembers` wrote, for every list of members.
-/

namespace DingoCache.Mds

open Library List Nat

variable {m : MemberInfo} {ms : List MemberInfo} {tag : Nat}

/-! ## Limits -/

/-- Every length of the member has 32 bits. -/
structure MemberInfo.Sized (m : MemberInfo) : Prop where
  id : m.id.length < 2 ^ 32
  ip : m.ip.length < 2 ^ 32
  info : m.info.length < 2 ^ 32
  devices : m.health.ibDevices.length < 2 ^ 32
  names : ∀ d ∈ m.health.ibDevices, d.name.length < 2 ^ 32

def Sized (ms : List MemberInfo) : Prop := ms.length < 2 ^ 32 ∧ ∀ m ∈ ms, m.Sized

def MemberInfo.ReportFits (m : MemberInfo) : Prop :=
  m.hasHealth = true →
    m.health.ibDevices.length ≤ 64 ∧ ∀ d ∈ m.health.ibDevices, d.name.length ≤ 128

instance (m : MemberInfo) : Decidable m.ReportFits := inferInstanceAs (Decidable (_ → _))

/-! ## Single fields -/

theorem readString_put {s : ByteString} (h : s.length < 2 ^ 32) (rest : ByteString) :
    readString (putString s ++ rest) = some (s, rest) := by
  rw [readString, putString, append_assoc, readLE_append, mod_eq_of_lt (by exact h)]
  exact readBytes_append rfl

@[simp] theorem readFlag_put (b : Bool) (rest : ByteString) :
    readFlag (putFlag b ++ rest) = some (b, rest) := by
  cases b <;> rfl

theorem readLE_byte (b : UInt8) (rest : ByteString) :
    readLE 1 (b :: rest) = some (b.toNat, rest) := by
  simp [readLE, readBytes, getLE]

theorem readLE_u32 (v : UInt32) (rest : ByteString) :
    readLE 4 (putLE 4 v.toNat ++ rest) = some (v.toNat, rest) := by
  rw [readLE_append, mod_eq_of_lt (by exact v.toNat_lt)]

theorem readLE_u64 (v : UInt64) (rest : ByteString) :
    readLE 8 (putLE 8 v.toNat ++ rest) = some (v.toNat, rest) := by
  rw [readLE_append, mod_eq_of_lt (by exact v.toNat_lt)]

/-! ## One entry of each block -/

/-- A member as the member list carries it. -/
def MemberInfo.listed (m : MemberInfo) : MemberInfo :=
  { id := m.id, ip := m.ip, port := m.port, weight := m.weight }

/-- A member as it arrives without its report. -/
def MemberInfo.unreported (m : MemberInfo) : MemberInfo :=
  { m with
    stats := if m.hasStats then m.stats else {}
    health := {}
    hasHealth := false }

/-- A member as it arrives with its report. -/
def MemberInfo.carried (m : MemberInfo) : MemberInfo :=
  { m with
    stats := if m.hasStats then m.stats else {}
    health := if m.hasHealth then m.health else {} }

theorem readMember_put (hid : m.id.length < 2 ^ 32) (hip : m.ip.length < 2 ^ 32)
    (rest : ByteString) : readMember (putMember m ++ rest) = some (m.listed, rest) := by
  simp only [readMember, putMember, append_assoc, readString_put hid, readString_put hip,
    readLE_u32, Option.bind_eq_bind, Option.bind_some, UInt32.ofNat_toNat]
  rfl

theorem readTcpPort_put (m m' : MemberInfo) (rest : ByteString) :
    readTcpPort m' (putLE 4 m.tcpPort.toNat ++ rest) =
      some ({ m' with tcpPort := m.tcpPort }, rest) := by
  simp [readTcpPort, readLE_u32]

theorem readInfo_put (h : m.Sized) (m' : MemberInfo) (rest : ByteString) :
    readInfo m' (putString m.info ++ rest) = some ({ m' with info := m.info }, rest) := by
  simp [readInfo, readString_put h.info]

theorem getLE_drop_flatMap (fs : List UInt64) : ((range fs.length).map fun k =>
      UInt64.ofNat (getLE (((fs.flatMap fun f => putLE 8 f.toNat).drop (k * 8)).take 8))) = fs := by
  induction fs with
  | nil => rfl
  | cons f fs ih =>
    rw [length_cons, range_succ_eq_map, map_cons, map_map]
    refine congrArg₂ cons ?_ ?_
    · rw [flatMap_cons, zero_mul, drop_zero,
        take_left' (length_putLE 8 f.toNat), getLE_putLE, mod_eq_of_lt (by exact f.toNat_lt),
        UInt64.ofNat_toNat]
    · -- Behind the first number the run is the run of the tail.
      refine Eq.trans (map_congr_left fun k _ => ?_) ih
      have hk : (k + 1) * 8 = (putLE 8 f.toNat).length + k * 8 := by
        rw [length_putLE]
        omega
      rw [Function.comp_apply, succ_eq_add_one, hk, flatMap_cons, drop_append,
        drop_eq_nil_of_le (by omega), nil_append, Nat.add_sub_cancel_left]

theorem ofFields_fields (s : MemberStats) : MemberStats.ofFields s.fields = s := rfl

theorem length_flatMap_u64 (fs : List UInt64) :
    (fs.flatMap fun f => putLE 8 f.toNat).length = fs.length * 8 := by
  simp [length_flatMap]

theorem readStats_put {m' : MemberInfo} (hs : m'.stats = {} ∧ m'.hasStats = false)
    (rest : ByteString) :
    readStats kMemberStatsFields m' (putStats m ++ rest) =
      some ({ m' with stats := if m.hasStats then m.stats else {}, hasStats := m.hasStats },
        rest) := by
  simp only [readStats, putStats, append_assoc, readFlag_put, Option.bind_eq_bind, Option.bind_some]
  by_cases h : m.hasStats
  · have hlen : (m.stats.fields.flatMap fun f => putLE 8 f.toNat).length =
        kMemberStatsFields * 8 := length_flatMap_u64 m.stats.fields
    have hrun := getLE_drop_flatMap m.stats.fields
    simp only [h, if_true, readBytes_append hlen, Option.bind_some, min_self]
    rw [show kMemberStatsFields = m.stats.fields.length from rfl, hrun, ofFields_fields]
  · simp only [h, Bool.false_eq_true, if_false, nil_append]
    rw [← hs.1, ← hs.2]

theorem readDevice_put {d : IbDeviceHealth} (h : d.name.length ≤ 128) (rest : ByteString) :
    readDevice (putDevice d ++ rest) = some (d, rest) := by
  have hlt : d.name.length % 256 ^ 4 = d.name.length := mod_eq_of_lt (by omega)
  simp only [readDevice, putDevice, putString, append_assoc, readLE_append, hlt,
    Option.bind_eq_bind, Option.bind_some, if_neg (not_lt.mpr h), readBytes_append,
    cons_append, nil_append, readLE_byte, readFlag_put, UInt8.ofNat_toNat]

theorem readDevice_long {d : IbDeviceHealth} (hs : d.name.length < 2 ^ 32)
    (h : 128 < d.name.length) (rest : ByteString) : readDevice (putDevice d ++ rest) = none := by
  have hlt : d.name.length % 256 ^ 4 = d.name.length := mod_eq_of_lt (by exact hs)
  simp only [readDevice, putDevice, putString, append_assoc, readLE_append, hlt,
    Option.bind_eq_bind, Option.bind_some, if_pos h]

theorem readDevices_long {ds : List IbDeviceHealth} (hs : ∀ d ∈ ds, d.name.length < 2 ^ 32)
    (h : ∃ d ∈ ds, 128 < d.name.length) (rest : ByteString) :
    readMany readDevice ds.length (ds.flatMap putDevice ++ rest) = none := by
  induction ds with
  | nil => exact absurd h (by simp)
  | cons d ds ih =>
    rw [flatMap_cons, append_assoc, length_cons, readMany]
    by_cases hd : 128 < d.name.length
    · rw [readDevice_long (hs d mem_cons_self) hd]
      rfl
    · have htail : ∃ d ∈ ds, 128 < d.name.length := by simpa [hd] using h
      simp [readDevice_put (not_lt.mp hd), ih (fun d' hd' => hs d' (mem_cons_of_mem d hd')) htail]

theorem readHealth_put {m' : MemberInfo} (hf : m.ReportFits)
    (hh : m'.health = {} ∧ m'.hasHealth = false) (rest : ByteString) :
    readHealth m' (putHealth m ++ rest) =
      some ({ m' with health := if m.hasHealth then m.health else {}, hasHealth := m.hasHealth },
        rest) := by
  simp only [readHealth, putHealth, append_assoc, readFlag_put, Option.bind_eq_bind,
    Option.bind_some]
  by_cases h : m.hasHealth
  · obtain ⟨hdevices, hnames⟩ := hf h
    have hlt : m.health.ibDevices.length % 256 ^ 4 = m.health.ibDevices.length :=
      mod_eq_of_lt (by omega)
    simp only [h, if_true, append_assoc, readFlag_put, Option.bind_some, readLE_append, hlt,
      if_neg (not_lt.mpr hdevices),
      readMany_flatMap id fun d hd rest => readDevice_put (hnames d hd) rest, map_id]
  · simp only [h, Bool.false_eq_true, if_false, nil_append]
    rw [← hh.1, ← hh.2]

theorem readHealth_over (hs : m.Sized) (hf : ¬m.ReportFits) (m' : MemberInfo) (rest : ByteString) :
    readHealth m' (putHealth m ++ rest) = none := by
  obtain ⟨h, hover⟩ := Classical.not_imp.mp hf
  have hlt : m.health.ibDevices.length % 256 ^ 4 = m.health.ibDevices.length :=
    mod_eq_of_lt (by exact hs.devices)
  simp only [readHealth, putHealth, append_assoc, readFlag_put, Option.bind_eq_bind,
    Option.bind_some, h, if_true, readLE_append, hlt]
  by_cases hd : 64 < m.health.ibDevices.length
  · rw [if_pos hd]
  · have hname : ∃ d ∈ m.health.ibDevices, 128 < d.name.length := by
      by_contra hno
      exact hover ⟨not_lt.mp hd, fun d hd => not_lt.mp fun h => hno ⟨d, hd, h⟩⟩
    rw [if_neg hd, readDevices_long hs.names hname, Option.bind_none]

/-! ## The blocks -/

theorem readBlocks_nil (ms : List MemberInfo) : readBlocks ms [] = ms := by
  rw [readBlocks]
  rfl

theorem readBlocks_tag {bs body : ByteString} {r : List MemberInfo × Option ByteString}
    (ht : readLE 4 bs = some (tag, body)) (h : readBlock tag ms body = r) :
    readBlocks ms bs = r.2.elim r.1 (readBlocks r.1) := by
  subst h
  rw [readBlocks]
  split
  · next hn => cases ht.symm.trans hn
  · next tag' body' hs =>
    cases ht.symm.trans hs
    split
    · next hn => rw [hn, Option.elim_none]
    · next rest hr => rw [hr, Option.elim_some]

theorem readBlocks_put {body : ByteString} {r : List MemberInfo × Option ByteString}
    (ht : tag < 2 ^ 32) (h : readBlock tag ms body = r) :
    readBlocks ms (putLE 4 tag ++ body) = r.2.elim r.1 (readBlocks r.1) :=
  readBlocks_tag (readLE_putLE 4 ht body) h

def received (ms : List MemberInfo) : List MemberInfo :=
  (ms.takeWhile fun m => decide m.ReportFits).map MemberInfo.carried ++
    (ms.dropWhile fun m => decide m.ReportFits).map MemberInfo.unreported

theorem carried_of_noHealth (h : m.hasHealth = false) : m.carried = m.unreported := by
  simp [MemberInfo.carried, MemberInfo.unreported, h]

/-- The `HLT1` block leaves the reports up to the first one over the limits. -/
theorem readBlock_health (hs : ∀ m ∈ ms, m.Sized) :
    ((readBlock kMemberExtHealth (ms.map MemberInfo.unreported) (ms.flatMap putHealth)).1 =
      received ms) ∧
    ∀ rest, (readBlock kMemberExtHealth (ms.map MemberInfo.unreported)
      (ms.flatMap putHealth)).2 = some rest → rest = [] := by
  have hblock : ∀ ms' bs, readBlock kMemberExtHealth ms' bs = readEach readHealth ms' bs :=
    fun _ _ => rfl
  rw [hblock]
  -- The members in front of the first report over the limits, and the others.
  generalize hpre : (ms.takeWhile fun m => decide m.ReportFits) = pre
  generalize hpost : (ms.dropWhile fun m => decide m.ReportFits) = post
  have hms : ms = pre ++ post := by rw [← hpre, ← hpost, takeWhile_append_dropWhile]
  have hfits : ∀ m ∈ pre, m.ReportFits := by
    intro m hm
    rw [← hpre] at hm
    have hdec := mem_takeWhile_imp hm
    exact of_decide_eq_true hdec
  have hread : ∀ rest, readEach readHealth (pre.map MemberInfo.unreported)
      (pre.flatMap putHealth ++ rest) = (pre.map MemberInfo.carried, some rest) :=
    readEach_flatMap fun m hm rest => readHealth_put (hfits m hm) ⟨rfl, rfl⟩ rest
  rw [received, hpre, hpost, hms, map_append, flatMap_append, readEach_append, hread]
  cases hp : post with
  | nil =>
    refine ⟨by simp [readEach], fun rest hr => ?_⟩
    exact (Option.some.inj hr).symm
  | cons m post' =>
    have hover : ¬m.ReportFits := by
      have := head?_dropWhile_not (fun m => decide m.ReportFits) ms
      rw [hpost, hp] at this
      exact of_decide_eq_false this
    have hstop := readHealth_over (hs m (by simp [hms, hp])) hover m.unreported
      (post'.flatMap putHealth)
    simp only [map_cons, flatMap_cons, readEach_stop hstop]
    simp

theorem received_of_noHealth (h : ms.any (·.hasHealth) = false) :
    received ms = ms.map MemberInfo.unreported := by
  have hno : ∀ m ∈ ms, m.hasHealth = false := by simpa using h
  have hfits : ∀ m ∈ ms, decide m.ReportFits := by
    intro m hm
    exact decide_eq_true fun hh => absurd hh (by simp [hno m hm])
  rw [received, takeWhile_eq_self_iff.mpr hfits, dropWhile_eq_nil_iff.mpr hfits,
    map_nil, append_nil]
  exact map_congr_left fun m hm => carried_of_noHealth (hno m hm)

theorem readBlocks_putHealthBlock (hs : ∀ m ∈ ms, m.Sized) :
    readBlocks (ms.map MemberInfo.unreported) (putHealthBlock ms) = received ms := by
  unfold putHealthBlock
  split
  · obtain ⟨h1, h2⟩ := readBlock_health hs
    generalize hr : readBlock kMemberExtHealth (ms.map MemberInfo.unreported)
      (ms.flatMap putHealth) = r at h1 h2
    obtain ⟨ms', rest⟩ := r
    rw [readBlocks_put (by decide) hr]
    cases rest with
    | none => exact h1
    | some rest =>
      rw [Option.elim_some, h2 rest rfl, readBlocks_nil]
      exact h1
  · next h => rw [readBlocks_nil, received_of_noHealth (by simpa using h)]

def mandatory (ms : List MemberInfo) (epoch : UInt64) : ByteString :=
  putLE 8 epoch.toNat ++ (putLE 4 ms.length ++ ms.flatMap putMember)

/-- The blocks in front of the `HLT1` block, and what follows them. -/
def blocks (ms : List MemberInfo) (rest : ByteString) : ByteString :=
  putLE 4 kMemberExtTcpPort ++ ((ms.flatMap fun m => putLE 4 m.tcpPort.toNat) ++
    (putLE 4 kMemberExtInfo ++ ((ms.flatMap fun m => putString m.info) ++
    (putLE 4 kMemberExtStats ++ (UInt8.ofNat kMemberStatsFields :: (ms.flatMap putStats ++
    rest))))))

theorem encodeMembers_append (ms : List MemberInfo) (epoch : UInt64) (rest : ByteString) :
    encodeMembers ms epoch ++ rest =
      mandatory ms epoch ++ blocks ms (putHealthBlock ms ++ rest) := by
  simp [encodeMembers, mandatory, blocks]

def readMandatory (bs : ByteString) : Option ((Nat × List MemberInfo) × ByteString) := do
  let (epoch, bs) ← readLE 8 bs
  let (n, bs) ← readLE 4 bs
  let (ms, bs) ← readMany readMember n bs
  some ((epoch, ms), bs)

theorem decodeMembers_eq (bs : ByteString) : decodeMembers bs =
      (readMandatory bs).map fun r => (readBlocks r.1.2 r.2, UInt64.ofNat r.1.1) := by
  simp [decodeMembers, readMandatory]

theorem readMandatory_put (hs : Sized ms) (epoch : UInt64) (rest : ByteString) :
    readMandatory (mandatory ms epoch ++ rest) =
      some ((epoch.toNat, ms.map MemberInfo.listed), rest) := by
  obtain ⟨hlen, hms⟩ := hs
  have hlist : ∀ rest, readMany readMember ms.length (ms.flatMap putMember ++ rest) =
      some (ms.map MemberInfo.listed, rest) :=
    readMany_flatMap MemberInfo.listed fun m hm => readMember_put (hms m hm).id (hms m hm).ip
  simp [readMandatory, mandatory, readLE_u64, readLE_putLE 4 hlen, hlist]

theorem readBlocks_blocks (hs : ∀ m ∈ ms, m.Sized) (rest : ByteString) :
    readBlocks (ms.map MemberInfo.listed) (blocks ms rest) =
      readBlocks (ms.map MemberInfo.unreported) rest := by
  -- The members after each block.
  let tcp : MemberInfo → MemberInfo := fun m => { m.listed with tcpPort := m.tcpPort }
  let info : MemberInfo → MemberInfo := fun m => { tcp m with info := m.info }
  have htcp : ∀ rest, readBlock kMemberExtTcpPort (ms.map MemberInfo.listed)
      ((ms.flatMap fun m => putLE 4 m.tcpPort.toNat) ++ rest) = (ms.map tcp, some rest) := by
    intro rest
    have hle : ¬((ms.flatMap fun m => putLE 4 m.tcpPort.toNat) ++ rest).length <
        (ms.map MemberInfo.listed).length * 4 := by
      simp [length_flatMap]
    rw [readBlock, if_pos rfl, if_neg hle]
    exact readEach_flatMap (fun m _ rest => readTcpPort_put m m.listed rest) rest
  have hinfo : ∀ rest, readBlock kMemberExtInfo (ms.map tcp)
      ((ms.flatMap fun m => putString m.info) ++ rest) = (ms.map info, some rest) :=
    readEach_flatMap fun m hm rest => readInfo_put (hs m hm) (tcp m) rest
  have hstats : ∀ rest, readBlock kMemberExtStats (ms.map info)
      (UInt8.ofNat kMemberStatsFields :: (ms.flatMap putStats ++ rest)) =
        (ms.map MemberInfo.unreported, some rest) := by
    intro rest
    have hnf : readLE 1 (UInt8.ofNat kMemberStatsFields :: (ms.flatMap putStats ++ rest)) =
        some (kMemberStatsFields, ms.flatMap putStats ++ rest) := readLE_byte _ _
    rw [readBlock, if_neg (by decide), if_neg (by decide), if_pos rfl, hnf]
    exact readEach_flatMap (fun m _ rest => @readStats_put m (info m) ⟨rfl, rfl⟩ rest) rest
  rw [blocks, readBlocks_put (by decide) (htcp _), Option.elim_some,
    readBlocks_put (by decide) (hinfo _), Option.elim_some,
    readBlocks_put (by decide) (hstats _), Option.elim_some]

theorem decodeMembers_append (hs : Sized ms) (epoch : UInt64) (rest : ByteString) :
    decodeMembers (encodeMembers ms epoch ++ rest) =
      some (readBlocks (ms.map MemberInfo.unreported) (putHealthBlock ms ++ rest), epoch) := by
  rw [encodeMembers_append, decodeMembers_eq, readMandatory_put hs, Option.map_some,
    readBlocks_blocks hs.2, UInt64.ofNat_toNat]

theorem decodeMembers_encodeMembers (hs : Sized ms) (epoch : UInt64) :
    decodeMembers (encodeMembers ms epoch) = some (received ms, epoch) := by
  have h := decodeMembers_append hs epoch []
  rwa [append_nil, append_nil, readBlocks_putHealthBlock hs.2] at h

/-! ## Eligibility -/

/-- `MemberInfo::operator==`: what ring placement depends on. -/
structure MemberInfo.Same (m m' : MemberInfo) : Prop where
  id : m'.id = m.id
  ip : m'.ip = m.ip
  port : m'.port = m.port
  weight : m'.weight = m.weight
  eligible : m'.ringEligible = m.ringEligible

theorem MemberInfo.same_carried (m : MemberInfo) : m.Same m.carried :=
  ⟨rfl, rfl, rfl, rfl, by cases h : m.hasHealth <;> simp [ringEligible, carried, h]⟩

theorem MemberInfo.same_unreported : m.Same m.unreported ↔ m.ringEligible :=
  ⟨fun h => h.eligible.symm, fun h => ⟨rfl, rfl, rfl, rfl, h.symm⟩⟩

/-- Every ineligible member keeps to the limits of the decoder, and so does every member in front of
it. -/
def ReportsFit (ms : List MemberInfo) : Prop :=
  ∀ pre m post, ms = pre ++ m :: post → m.ringEligible = false →
    m.ReportFits ∧ ∀ m' ∈ pre, m'.ReportFits

theorem received_cons_fits (h : m.ReportFits) (ms : List MemberInfo) :
    received (m :: ms) = m.carried :: received ms := by
  simp [received, h]

theorem received_cons_over (h : ¬m.ReportFits) (ms : List MemberInfo) :
    received (m :: ms) = (m :: ms).map MemberInfo.unreported := by
  simp [received, h]

theorem reportsFit_cons_fits (h : m.ReportFits) (ms : List MemberInfo) :
    ReportsFit (m :: ms) ↔ ReportsFit ms := by
  constructor
  · intro hall pre m' post heq hm'
    obtain ⟨h1, h2⟩ := hall (m :: pre) m' post (by rw [heq, cons_append]) hm'
    exact ⟨h1, fun x hx => h2 x (mem_cons_of_mem m hx)⟩
  · intro hall pre m' post heq hm'
    cases pre with
    | nil =>
      obtain ⟨rfl, -⟩ := cons.inj heq
      exact ⟨h, by simp⟩
    | cons x pre =>
      obtain ⟨rfl, htail⟩ := cons.inj heq
      obtain ⟨h1, h2⟩ := hall pre m' post htail hm'
      exact ⟨h1, forall_mem_cons.mpr ⟨h, h2⟩⟩

theorem reportsFit_cons_over (h : ¬m.ReportFits) (ms : List MemberInfo) :
    ReportsFit (m :: ms) ↔ ∀ m' ∈ m :: ms, m'.ringEligible := by
  constructor
  · intro hall m' hm'
    by_contra hne
    obtain ⟨pre, post, heq⟩ := append_of_mem hm'
    obtain ⟨h1, h2⟩ := hall pre m' post heq (by simpa using hne)
    -- The first member is the ineligible one or stands in front of it.
    cases pre with
    | nil => exact h ((cons.inj heq).1 ▸ h1)
    | cons x pre => exact h (h2 m ((cons.inj heq).1 ▸ mem_cons_self))
  · intro hall pre m' post heq hm'
    exact absurd (hall m' (heq ▸ by simp)) (by simp [hm'])

theorem received_same_iff (ms : List MemberInfo) :
    List.Forall₂ MemberInfo.Same ms (received ms) ↔ ReportsFit ms := by
  induction ms with
  | nil => exact ⟨fun _ pre m post h => absurd h (by simp), fun _ => .nil⟩
  | cons m ms ih =>
    by_cases h : m.ReportFits
    · rw [received_cons_fits h, reportsFit_cons_fits h, forall₂_cons, ih]
      exact and_iff_right m.same_carried
    · rw [received_cons_over h, reportsFit_cons_over h, forall₂_map_right_iff, forall₂_same]
      exact forall₂_congr fun m _ => MemberInfo.same_unreported

/-! ## What was decoded once -/

/-- A member the decoder can answer: its lengths have 32 bits and its report fits. -/
structure MemberInfo.Decoded (m : MemberInfo) : Prop extends m.Sized where
  fits : m.ReportFits

theorem readString_yields : Yields (fun s => s.length < 2 ^ 32) readString :=
  (yields_readLE 4).bind fun len hlen bs s rest h => by
    rw [(length_of_readBytes h).1]
    exact hlen

theorem readMember_yields : Yields MemberInfo.Decoded readMember := by
  refine readString_yields.bind fun id hid => readString_yields.bind fun ip hip => ?_
  refine (yields_readLE 4).bind fun port _ => (yields_readLE 4).bind fun weight _ => ?_
  exact yields_some ⟨⟨hid, hip, by simp, by simp, by simp⟩, fun h => absurd h (by simp)⟩

theorem readDevice_yields : Yields (fun d => d.name.length ≤ 128) readDevice := by
  refine (yields_readLE 4).bind fun nameLen _ => ?_
  refine Yields.ite (fun _ => yields_none) fun hle => ?_
  refine (yields_readBytes nameLen).bind fun name hname => ?_
  refine (yields_readLE 1).bind fun portState _ => (yields_readLE 1).bind fun physState _ => ?_
  refine Yields.bind (P := fun _ => True) (fun _ _ _ _ => trivial) fun queryOk _ => ?_
  exact yields_some (show name.length ≤ 128 by omega)

theorem readHealth_yields (hm : m.Decoded) : Yields MemberInfo.Decoded (readHealth m) := by
  refine Yields.bind (P := fun _ => True) (fun _ _ _ _ => trivial) fun has _ => ?_
  refine Yields.ite (fun _ => ?_) fun _ => yields_some hm
  refine Yields.bind (P := fun _ => True) (fun _ _ _ _ => trivial) fun ringEligible _ => ?_
  refine (yields_readLE 4).bind fun devices _ => ?_
  refine Yields.ite (fun _ => yields_none) fun hle => ?_
  refine (readDevice_yields.readMany devices).bind fun ds hds => yields_some ?_
  obtain ⟨hlen, hnames⟩ := hds
  refine ⟨⟨hm.id, hm.ip, hm.info, ?_, ?_⟩, fun _ => ⟨?_, hnames⟩⟩
  · show ds.length < 2 ^ 32
    omega
  · intro d hd
    have := hnames d hd
    omega
  · show ds.length ≤ 64
    omega

theorem readBlock_decoded (h : ∀ m ∈ ms, m.Decoded) (bs : ByteString) :
    ∀ m ∈ (readBlock tag ms bs).1, m.Decoded := by
  unfold readBlock
  split
  · split
    · exact h
    · refine readEach_forall (fun m hm => ?_) h bs
      exact (yields_readLE 4).bind fun port _ => yields_some ⟨⟨hm.id, hm.ip, hm.info, hm.devices,
        hm.names⟩, hm.fits⟩
  split
  · refine readEach_forall (fun m hm => ?_) h bs
    exact readString_yields.bind fun info hinfo => yields_some ⟨⟨hm.id, hm.ip, hinfo, hm.devices,
      hm.names⟩, hm.fits⟩
  split
  · split
    · exact h
    · next nf bs' _ =>
      refine readEach_forall (fun m hm => ?_) h bs'
      refine Yields.bind (P := fun _ => True) (fun _ _ _ _ => trivial) fun has _ => ?_
      refine Yields.ite (fun _ => ?_) fun _ => yields_some hm
      exact (yields_readBytes _).bind fun raw _ => yields_some ⟨⟨hm.id, hm.ip, hm.info, hm.devices,
        hm.names⟩, hm.fits⟩
  split
  · exact readEach_forall (fun m hm => readHealth_yields hm) h bs
  · exact h

theorem readBlocks_decoded (ms : List MemberInfo) (bs : ByteString)
    (h : ∀ m ∈ ms, m.Decoded) : ∀ m ∈ readBlocks ms bs, m.Decoded := by
  fun_induction readBlocks ms bs with
  | case1 ms bs ht => exact h
  | case2 ms bs tag body ht hb => exact readBlock_decoded h body
  | case3 ms bs tag body ht rest hb ih => exact ih (readBlock_decoded h body)

theorem decodeMembers_decoded {bs : ByteString} {epoch : UInt64}
    (h : decodeMembers bs = some (ms, epoch)) : ∀ m ∈ ms, m.Decoded := by
  obtain ⟨⟨e, bs1⟩, -, h⟩ := Option.bind_eq_some_iff.mp h
  obtain ⟨⟨count, bs2⟩, -, h⟩ := Option.bind_eq_some_iff.mp h
  obtain ⟨⟨ms0, bs3⟩, hms, h⟩ := Option.bind_eq_some_iff.mp h
  obtain ⟨rfl, -⟩ := Prod.mk.inj (Option.some.inj h)
  exact readBlocks_decoded ms0 bs3 (readMember_yields.readMany count bs2 ms0 bs3 hms).2

theorem received_of_fits (h : ∀ m ∈ ms, m.ReportFits) : received ms =
    ms.map MemberInfo.carried := by
  induction ms with
  | nil => rfl
  | cons m ms ih =>
    rw [received_cons_fits (h m mem_cons_self), map_cons,
      ih fun m' hm' => h m' (mem_cons_of_mem m hm')]

theorem received_of_decoded (h : ∀ m ∈ ms, m.Decoded) : received ms = ms.map MemberInfo.carried :=
  received_of_fits fun m hm => (h m hm).fits

/-! ## Whole reports -/

def MemberInfo.Plain (m : MemberInfo) : Prop :=
  (m.hasStats = false → m.stats = {}) ∧ (m.hasHealth = false → m.health = {})

theorem MemberInfo.Plain.carried (h : m.Plain) : m.carried = m := by
  obtain ⟨id, ip, port, weight, tcpPort, info, stats, hasStats, health, hasHealth⟩ := m
  obtain ⟨hstats, hhealth⟩ := h
  cases hasStats <;> cases hasHealth <;> simp_all [MemberInfo.carried]

theorem MemberInfo.Plain.sized (h : m.Plain) (hf : m.ReportFits) (hid : m.id.length < 2 ^ 32)
    (hip : m.ip.length < 2 ^ 32) (hinfo : m.info.length < 2 ^ 32) : m.Sized := by
  have hdev : m.health.ibDevices.length ≤ 64 ∧ ∀ d ∈ m.health.ibDevices, d.name.length ≤ 128 := by
    cases hh : m.hasHealth with
    | true => exact hf hh
    | false =>
      rw [h.2 hh]
      exact ⟨by decide, by simp⟩
  refine ⟨hid, hip, hinfo, by omega, fun d hd => ?_⟩
  have := hdev.2 d hd
  omega

theorem map_carried_of_plain (h : ∀ m ∈ ms, m.Plain) : ms.map MemberInfo.carried = ms :=
  (map_congr_left fun m hm => (h m hm).carried).trans (map_id ms)

theorem readBlocks_putHealthBlock_append (hf : ∀ m ∈ ms, m.ReportFits)
    (hh : ms.any (·.hasHealth)) (rest : ByteString) :
    readBlocks (ms.map MemberInfo.unreported) (putHealthBlock ms ++ rest) =
      readBlocks (ms.map MemberInfo.carried) rest := by
  have hread : readBlock kMemberExtHealth (ms.map MemberInfo.unreported)
      (ms.flatMap putHealth ++ rest) = (ms.map MemberInfo.carried, some rest) :=
    readEach_flatMap (fun m hm rest => readHealth_put (hf m hm) ⟨rfl, rfl⟩ rest) rest
  rw [putHealthBlock, if_pos hh, append_assoc, readBlocks_put (by decide) hread, Option.elim_some]

theorem forward_readString : Forward readString :=
  (forward_readLE 4).bind fun len => forward_readBytes len

theorem forward_readMandatory : Forward readMandatory := by
  have hmember : Forward readMember :=
    forward_readString.bind fun _ => forward_readString.bind fun _ =>
      (forward_readLE 4).bind fun _ => (forward_readLE 4).bind fun _ => forward_some _
  exact (forward_readLE 8).bind fun _ => (forward_readLE 4).bind fun count =>
    (hmember.readMany count).bind fun _ => forward_some _

theorem decodeMembers_take (hs : Sized ms) (epoch : UInt64) {n : Nat}
    (hn : n < (mandatory ms epoch).length) :
    decodeMembers ((encodeMembers ms epoch).take n) = none := by
  have hfront : (encodeMembers ms epoch).take n = (mandatory ms epoch).take n := by
    rw [← append_nil (encodeMembers ms epoch), encodeMembers_append, take_append_of_le_length hn.le]
  have hwhole := readMandatory_put hs epoch []
  rw [append_nil, ← take_append_drop n (mandatory ms epoch)] at hwhole
  have hnone := forward_readMandatory.none_of_cut hwhole (by simpa using hn)
  rw [hfront, decodeMembers_eq, hnone, Option.map_none]

/-- Reports round-trip within the limits of the decoder and of the 32-bit lengths: all of the
members arrives, an encoding that is cut inside its mandatory part is rejected, and a block with an
unknown tag behind the `HLT1` block is ignored. -/
theorem decodeMembers_whole (hcount : ms.length < 2 ^ 32)
    (htexts : ∀ m ∈ ms, m.id.length < 2 ^ 32 ∧ m.ip.length < 2 ^ 32 ∧ m.info.length < 2 ^ 32)
    (hplain : ∀ m ∈ ms, m.Plain) (hfits : ∀ m ∈ ms, m.ReportFits) (epoch : UInt64) :
    decodeMembers (encodeMembers ms epoch) = some (ms, epoch) ∧
      (∀ n < (mandatory ms epoch).length,
        decodeMembers ((encodeMembers ms epoch).take n) = none) ∧
      (ms.any (·.hasHealth) = true → ∀ tail tag body, readLE 4 tail = some (tag, body) →
        tag ∉ [kMemberExtTcpPort, kMemberExtInfo, kMemberExtStats, kMemberExtHealth] →
        decodeMembers (encodeMembers ms epoch ++ tail) = some (ms, epoch)) := by
  have hs : Sized ms := by
    refine ⟨hcount, fun m hm => ?_⟩
    obtain ⟨hid, hip, hinfo⟩ := htexts m hm
    exact (hplain m hm).sized (hfits m hm) hid hip hinfo
  refine ⟨?_, fun n hn => decodeMembers_take hs epoch hn, fun hh tail tag body ht htag => ?_⟩
  · rw [decodeMembers_encodeMembers hs, received_of_fits hfits, map_carried_of_plain hplain]
  · have hstop : readBlock tag ms body = (ms, none) := by
      simp only [List.mem_cons, List.not_mem_nil, or_false, not_or] at htag
      obtain ⟨h1, h2, h3, h4⟩ := htag
      rw [readBlock, if_neg h1, if_neg h2, if_neg h3, if_neg h4]
    rw [decodeMembers_append hs, readBlocks_putHealthBlock_append hfits hh,
      map_carried_of_plain hplain, readBlocks_tag ht hstop, Option.elim_none]

/-- A member with a report, and one without. -/
theorem decodeMembers_whole_pair :
    let ms : List MemberInfo :=
      [{ id := [110], ip := [49], hasHealth := true, health := { ringEligible := false } },
        { id := [111], ip := [50] }]
    decodeMembers (encodeMembers ms 7) = some (ms, 7) :=
  (decodeMembers_whole (by decide) (by decide) (by simp [MemberInfo.Plain]) (by decide) 7).1

/-- An id of `2 ^ 32` bytes does not arrive. -/
theorem decodeMembers_long_id :
    let m : MemberInfo := { id := List.replicate (2 ^ 32) 0, ip := [] }
    m.Plain ∧ m.ReportFits ∧ decodeMembers (encodeMembers [m] 0) ≠ some ([m], 0) := by
  refine ⟨⟨fun _ => rfl, fun _ => rfl⟩, fun h => (by cases h), fun h => ?_⟩
  have hlen := (decodeMembers_decoded h _ (List.mem_singleton_self _)).id
  rw [List.length_replicate] at hlen
  exact lt_irrefl _ hlen

end DingoCache.Mds
