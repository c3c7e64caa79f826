import DingoCache.Client.TenantParser
import DingoCache.Library.ExceptList

/-!
# The Identities in C++ and in Python Are the Same

The descriptors of a namespace and of an object have the same validation and the same
bytes on both sides, and the bytes tell the descriptors apart.

- `pythonNamespace_iff`, `nativeNamespace_iff`: what both validations ask.
-/

namespace DingoCache.Client

open Library Connector List

variable {s t value b a : Bytes} {c : Connector.RankCoordinate} {d : Connector.NamespaceDescriptor}
  {name : String} {n : Nat} {k : Int}

/-! ## Validation -/

def RankCoordinate.toPython (c : RankCoordinate) : Connector.RankCoordinate where
  worldSize := c.worldSize.toNat
  rank := c.rank.toInt

def NamespaceDescriptor.toPython (d : NamespaceDescriptor) : Connector.NamespaceDescriptor where
  tenantId := d.tenantId
  modelId := d.modelId
  modelRevision := d.modelRevision
  poolKind := d.poolKind.toNat
  poolName := d.poolName
  dtype := d.dtype
  layoutFingerprint := d.layoutFingerprint.toNat
  blockTokens := d.blockTokens.toNat
  groupId := d.groupId.toNat
  layerBegin := d.layerBegin.toNat
  layerCount := d.layerCount.toNat
  tp := d.tp.toPython
  dp := d.dp.toPython
  pp := d.pp.toPython

open NamespaceDescriptor

def ObjectDescriptor.toPython (o : ObjectDescriptor) : Connector.ObjectDescriptor where
  logicalKey := o.logicalKey
  component := o.component
  chunkIndex := o.chunkIndex.toNat
  chunkCount := o.chunkCount.toNat

def FieldOk (value : Bytes) : Prop := value ≠ [] ∧ value.length ≤ 1048576

/-- A rank within its world, or none. -/
structure RankOk (c : Connector.RankCoordinate) : Prop where
  worldSize : 1 ≤ c.worldSize ∧ c.worldSize < 2 ^ 32
  rank : -1 ≤ c.rank ∧ c.rank < c.worldSize

/-- What both validations ask of a descriptor. -/
structure FieldsOk (d : Connector.NamespaceDescriptor) : Prop where
  tenantId : FieldOk d.tenantId
  modelId : FieldOk d.modelId
  modelRevision : FieldOk d.modelRevision
  poolName : FieldOk d.poolName
  dtype : FieldOk d.dtype
  poolKind : 0 ≤ d.poolKind ∧ d.poolKind < 2 ^ 16
  layoutFingerprint : 1 ≤ d.layoutFingerprint ∧ d.layoutFingerprint < 2 ^ 64
  blockTokens : 1 ≤ d.blockTokens ∧ d.blockTokens < 2 ^ 32
  groupId : 0 ≤ d.groupId ∧ d.groupId < 2 ^ 32
  layerBegin : 0 ≤ d.layerBegin ∧ d.layerBegin < 2 ^ 32
  layerCount : 1 ≤ d.layerCount ∧ d.layerCount < 2 ^ 32
  layers : d.layerBegin + d.layerCount < 2 ^ 32
  tp : RankOk d.tp
  dp : RankOk d.dp
  pp : RankOk d.pp

/-- The pool kind is one of the enumeration; only the Python validation asks for this. -/
def NamespaceDescriptor.Declared (d : NamespaceDescriptor) : Prop :=
  ∃ kind : PoolKind, kind.code = d.poolKind.toNat

/-- What the Python validation asks of a descriptor. -/
structure NamespaceOk (d : Connector.NamespaceDescriptor) : Prop extends FieldsOk d where
  declared : ∃ kind : PoolKind, (kind.code : Int) = d.poolKind

/-- What both validations ask of an object. -/
structure ObjectOk (o : Connector.ObjectDescriptor) : Prop where
  logicalKey : FieldOk o.logicalKey
  component : FieldOk o.component ∧ o.component.length ≤ 256
  chunkIndex : 0 ≤ o.chunkIndex ∧ o.chunkIndex < o.chunkCount
  chunkCount : 1 ≤ o.chunkCount ∧ o.chunkCount < 2 ^ 32

theorem validRequiredField_iff : validRequiredField value name = .ok () ↔ FieldOk value := by
  unfold validRequiredField FieldOk
  rw [show kMaxFieldBytes = 1048576 from rfl]
  split
  · simp [*]
  · split
    · simp [*]
    · next hne hle => simp [hne, Nat.not_lt.mp hle]

theorem requiredBytes_iff : requiredBytes value name = .ok b ↔ FieldOk value ∧ value = b := by
  unfold requiredBytes FieldOk
  split
  · simp [*]
  · split
    · simp [*]
    · next hne hle => simp [hne, Nat.not_lt.mp hle]

theorem uint_iff {value : Int} {bits : Nat} {nonzero : Bool} :
    uint value bits name nonzero = .ok () ↔
      (if nonzero then 1 else 0) ≤ value ∧ value < 2 ^ bits := by
  unfold uint
  by_cases h : (if nonzero then 1 else 0) ≤ value ∧ value < 2 ^ bits
  · rw [if_pos h]
    exact iff_of_true rfl h
  · rw [if_neg h]
    exact iff_of_false (by simp) h

theorem pythonRank_iff {axis : String} : c.validate axis = .ok () ↔ RankOk c := by
  unfold Connector.RankCoordinate.validate
  constructor
  · intro h
    split at h
    · cases h
    · split at h
      · cases h
      · exact ⟨⟨by omega, by omega⟩, by omega, by omega⟩
  · intro h
    have hworld := h.worldSize
    have hrank := h.rank
    rw [if_neg (by omega), if_neg (by omega)]

theorem mem_poolKinds (kind : PoolKind) : kind ∈ PoolKind.all := by
  cases kind <;> decide

theorem pythonNamespace_iff : d.validate = .ok () ↔ NamespaceOk d := by
  have hkind : (PoolKind.all.any fun kind => (kind.code : Int) == d.poolKind) ↔
      ∃ kind : PoolKind, (kind.code : Int) = d.poolKind := by
    simp [any_eq_true, mem_poolKinds]
  unfold Connector.NamespaceDescriptor.validate
  simp only [bind_eq_ok_iff, ite_throw_eq_ok_iff, requiredBytes_iff, and_assoc, exists_and_left,
    exists_eq_left', Unique.exists_iff, PUnit.default_eq_unit, uint_iff, pythonRank_iff, hkind,
    not_not, if_true, Bool.false_eq_true, if_false]
  constructor
  · rintro ⟨ht, hm, hr, hn, hd, hk, hf, hf', hb, hb', hg, hg', hlb, hlb', hlc, hlc', hl, htp, hdp,
      hpp⟩
    have hrange : 0 ≤ d.poolKind ∧ d.poolKind < 2 ^ 16 := by
      obtain ⟨kind, hcode⟩ := hk
      rw [← hcode]
      cases kind <;> decide
    exact ⟨⟨ht, hm, hr, hn, hd, hrange, ⟨hf, hf'⟩, ⟨hb, hb'⟩, ⟨hg, hg'⟩, ⟨hlb, hlb'⟩, ⟨hlc, hlc'⟩,
      by omega, htp, hdp, hpp⟩, hk⟩
  · rintro ⟨⟨ht, hm, hr, hn, hd, -, ⟨hf, hf'⟩, ⟨hb, hb'⟩, ⟨hg, hg'⟩, ⟨hlb, hlb'⟩, ⟨hlc, hlc'⟩,
      hl, htp, hdp, hpp⟩, hk⟩
    exact ⟨ht, hm, hr, hn, hd, hk, hf, hf', hb, hb', hg, hg', hlb, hlb', hlc, hlc', by omega, htp,
      hdp, hpp⟩

theorem toNat_toUInt32 (rank : Int32) : (rank.toUInt32.toNat : Int) = rank.toInt % 0x100000000 := by
  have hmod : rank.toInt = (rank.toUInt32.toNat : Int).bmod (2 ^ 32) :=
    BitVec.toInt_eq_toNat_bmod rank.toBitVec
  have hlt := rank.toUInt32.toNat_lt
  have h : (rank.toUInt32.toNat : Int).bmod (2 ^ 32) % ((2 ^ 32 : Nat) : Int) =
      rank.toUInt32.toNat % ((2 ^ 32 : Nat) : Int) := Int.bmod_emod
  rw [← hmod] at h
  have hsmall : (rank.toUInt32.toNat : Int) % ((2 ^ 32 : Nat) : Int) = rank.toUInt32.toNat := by
    apply Int.emod_eq_of_lt
    · omega
    · exact_mod_cast hlt
  rw [hsmall] at h
  rw [← h]
  rfl

theorem nativeRank_iff {c : RankCoordinate} {axis : String} :
    c.validate axis = .ok () ↔ RankOk c.toPython := by
  have hworld := c.worldSize.toNat_lt
  have hcast := toNat_toUInt32 c.rank
  have hneg : c.rank < -1 ↔ c.rank.toInt < -1 := Int32.lt_iff_toInt_lt
  have hnonneg : 0 ≤ c.rank ↔ 0 ≤ c.rank.toInt := Int32.le_iff_toInt_le
  have hle : c.worldSize ≤ c.rank.toUInt32 ↔ c.worldSize.toNat ≤ c.rank.toUInt32.toNat :=
    UInt32.le_iff_toNat_le
  have hzero : c.worldSize = 0 ↔ c.worldSize.toNat = 0 := by
    rw [← UInt32.toNat_inj]
    rfl
  have hlow := c.rank.le_toInt
  have hhigh := c.rank.toInt_lt
  unfold RankCoordinate.validate
  constructor
  · intro h
    split at h
    · cases h
    · split at h
      · cases h
      · next hw hr =>
        rw [hzero] at hw
        rw [hneg, hnonneg, hle] at hr
        refine ⟨⟨?_, ?_⟩, ?_, ?_⟩ <;> simp only [RankCoordinate.toPython] <;> omega
  · rintro ⟨hw, hr⟩
    simp only [RankCoordinate.toPython] at hw hr
    rw [if_neg (by rw [hzero]; omega), if_neg (by rw [hneg, hnonneg, hle]; omega)]

theorem nativeNamespace_iff {d : NamespaceDescriptor} :
    d.validate = .ok () ↔ FieldsOk d.toPython := by
  have hfp : d.layoutFingerprint = 0 ↔ d.layoutFingerprint.toNat = 0 := by
    rw [← UInt64.toNat_inj]
    rfl
  have hzero : ∀ n : UInt32, n = 0 ↔ n.toNat = 0 := by
    intro n
    rw [← UInt32.toNat_inj]
    rfl
  have hsub : 0xFFFFFFFF - d.layerCount < d.layerBegin ↔
      0xFFFFFFFF < d.layerBegin.toNat + d.layerCount.toNat := by
    have hlt := d.layerCount.toNat_lt
    have hle : d.layerCount ≤ 0xFFFFFFFF := by
      rw [UInt32.le_iff_toNat_le]
      change d.layerCount.toNat ≤ 4294967295
      omega
    rw [UInt32.lt_iff_toNat_lt, UInt32.toNat_sub_of_le _ _ hle]
    change 4294967295 - d.layerCount.toNat < _ ↔ _
    omega
  have hk := d.poolKind.toNat_lt
  have hf := d.layoutFingerprint.toNat_lt
  have hb := d.blockTokens.toNat_lt
  have hg := d.groupId.toNat_lt
  have hlb := d.layerBegin.toNat_lt
  have hlc := d.layerCount.toNat_lt
  unfold NamespaceDescriptor.validate
  simp only [bind_eq_ok_iff, ite_throw_eq_ok_iff, Unique.exists_iff, PUnit.default_eq_unit,
    validRequiredField_iff, nativeRank_iff, hfp, hzero, hsub]
  constructor
  · rintro ⟨ht, hm, hr, hn, hd, hf', hb', hl', htp, hdp, hpp⟩
    refine ⟨ht, hm, hr, hn, hd, ⟨?_, ?_⟩, ⟨?_, ?_⟩, ⟨?_, ?_⟩, ⟨?_, ?_⟩, ⟨?_, ?_⟩, ⟨?_, ?_⟩, ?_,
      htp, hdp, hpp⟩ <;> simp only [toPython] <;> omega
  · rintro ⟨ht, hm, hr, hn, hd, -, hf', hb', hg', hlb', hlc', hl', htp, hdp, hpp⟩
    simp only [toPython] at hf' hb' hg' hlb' hlc' hl'
    exact ⟨ht, hm, hr, hn, hd, by omega, by omega, by omega, htp, hdp, hpp⟩

theorem NamespaceDescriptor.Declared.namespaceOk {d : NamespaceDescriptor} (hk : d.Declared)
    (h : FieldsOk d.toPython) : NamespaceOk d.toPython := by
  obtain ⟨kind, hcode⟩ := hk
  exact ⟨h, kind, congrArg Nat.cast hcode⟩

theorem ite_throw_iff {ε : Type} {c : Prop} [Decidable c] {e : ε} :
    (if c then throw e else pure () : Except ε Unit) = .ok () ↔ ¬c := by
  split
  · next hc => exact iff_of_false (by simp [throw, throwThe, MonadExceptOf.throw]) (not_not.mpr hc)
  · next hc => exact iff_of_true rfl hc

theorem pythonObject_iff {o : Connector.ObjectDescriptor} : o.validate = .ok () ↔ ObjectOk o := by
  unfold Connector.ObjectDescriptor.validate
  simp only [bind_eq_ok_iff, ite_throw_eq_ok_iff, requiredBytes_iff, and_assoc, exists_and_left,
    exists_eq_left', Unique.exists_iff, PUnit.default_eq_unit, uint_iff, if_true,
    Bool.false_eq_true, if_false, ite_throw_iff, Nat.not_lt, Int.not_le]
  constructor
  · rintro ⟨hk, hc, hlen, hi, hi', hn, hn', hlt⟩
    exact ⟨hk, ⟨hc, hlen⟩, ⟨hi, hlt⟩, hn, hn'⟩
  · rintro ⟨hk, ⟨hc, hlen⟩, ⟨hi, hlt⟩, hn, hn'⟩
    exact ⟨hk, hc, hlen, hi, by omega, hn, hn', hlt⟩

theorem nativeObject_iff {o : ObjectDescriptor} : o.validate = .ok () ↔ ObjectOk o.toPython := by
  have hzero : o.chunkCount = 0 ↔ o.chunkCount.toNat = 0 := by
    rw [← UInt32.toNat_inj]
    rfl
  have hcount := o.chunkCount.toNat_lt
  unfold ObjectDescriptor.validate
  simp only [bind_eq_ok_iff, ite_throw_eq_ok_iff, Unique.exists_iff, PUnit.default_eq_unit,
    validRequiredField_iff, ite_throw_iff, Nat.not_lt, hzero, UInt32.le_iff_toNat_le]
  constructor
  · rintro ⟨hk, hc, hlen, hchunk⟩
    refine ⟨hk, ⟨hc, hlen⟩, ⟨?_, ?_⟩, ?_, ?_⟩ <;> simp only [ObjectDescriptor.toPython] <;> omega
  · rintro ⟨hk, ⟨hc, hlen⟩, hi, hn⟩
    simp only [ObjectDescriptor.toPython] at hi hn
    exact ⟨hk, hc, hlen, by omega⟩

/-! ## Serialisation -/

theorem appendRank_eq (c : RankCoordinate) : appendRank c = c.toPython.serialize := by
  have hcast := toNat_toUInt32 c.rank
  rw [appendRank, Connector.RankCoordinate.serialize, RankCoordinate.toPython, ← hcast]
  rfl

theorem serialize_eq_joined (d : NamespaceDescriptor) : d.serialize = d.toPython.joined := by
  rw [NamespaceDescriptor.serialize, appendRank_eq, appendRank_eq, appendRank_eq]
  rfl

theorem objectSerialize_eq_joined (o : ObjectDescriptor) (d : NamespaceDescriptor) :
    o.serialize d = o.toPython.joined d.toPython.joined := by
  rw [ObjectDescriptor.serialize, serialize_eq_joined]
  rfl

theorem putLE_append_inj {a b : Nat} (ha : a < 256 ^ n) (hb : b < 256 ^ n)
    (h : putLE n a ++ s = putLE n b ++ t) : a = b ∧ s = t := by
  obtain ⟨hnum, hrest⟩ := append_inj h (by rw [length_putLE, length_putLE])
  have hval := congrArg getLE hnum
  rw [getLE_putLE, getLE_putLE, Nat.mod_eq_of_lt ha, Nat.mod_eq_of_lt hb] at hval
  exact ⟨hval, hrest⟩

theorem framed_append_inj (ha : a.length < 256 ^ n) (hb : b.length < 256 ^ n)
    (h : putLE n a.length ++ (a ++ s) = putLE n b.length ++ (b ++ t)) : a = b ∧ s = t := by
  obtain ⟨hlen, hrest⟩ := putLE_append_inj ha hb h
  exact append_inj hrest hlen

theorem FieldOk.length_lt (h : FieldOk value) : value.length < 256 ^ 4 :=
  Nat.lt_of_le_of_lt h.2 (by decide)

theorem field_append_inj (ha : a.length < 256 ^ 4) (hb : b.length < 256 ^ 4)
    (h : field a ++ s = field b ++ t) : a = b ∧ s = t := by
  rw [field, field, append_assoc, append_assoc] at h
  exact framed_append_inj ha hb h

theorem toNat_append_inj {a b : Int} (ha : 0 ≤ a ∧ a < 256 ^ n) (hb : 0 ≤ b ∧ b < 256 ^ n)
    (h : putLE n a.toNat ++ s = putLE n b.toNat ++ t) : a = b ∧ s = t := by
  have hlt : ∀ {x : Int}, 0 ≤ x ∧ x < 256 ^ n → x.toNat < 256 ^ n := by
    intro x hx
    have hcast : ((x.toNat : Nat) : Int) < ((256 ^ n : Nat) : Int) := by
      rw [Int.toNat_of_nonneg hx.1]
      exact_mod_cast hx.2
    exact_mod_cast hcast
  obtain ⟨hnum, hrest⟩ := putLE_append_inj (hlt ha) (hlt hb) h
  exact ⟨by omega, hrest⟩

theorem rank_append_inj {c' : Connector.RankCoordinate} (hc : RankOk c) (hc' : RankOk c')
    (h : c.serialize ++ s = c'.serialize ++ t) : c = c' ∧ s = t := by
  obtain ⟨worldSize, rank⟩ := c
  obtain ⟨worldSize', rank'⟩ := c'
  obtain ⟨hw, hr⟩ := hc
  obtain ⟨hw', hr'⟩ := hc'
  simp only [Connector.RankCoordinate.serialize, append_assoc] at hw hr hw' hr' h
  obtain ⟨hsize, htail⟩ := toNat_append_inj ⟨by omega, by omega⟩ ⟨by omega, by omega⟩ h
  obtain ⟨hmod, hrest⟩ := toNat_append_inj ⟨by omega, by omega⟩ ⟨by omega, by omega⟩ htail
  have hrank : rank = rank' := by omega
  exact ⟨by rw [hsize, hrank], hrest⟩

theorem joined_inj {d' : Connector.NamespaceDescriptor} (hd : FieldsOk d) (hd' : FieldsOk d')
    (h : d.joined = d'.joined) : d = d' := by
  unfold Connector.NamespaceDescriptor.joined at h
  have h := append_cancel_left h
  obtain ⟨htenant, h⟩ := field_append_inj hd.tenantId.length_lt hd'.tenantId.length_lt h
  obtain ⟨hmodel, h⟩ := field_append_inj hd.modelId.length_lt hd'.modelId.length_lt h
  obtain ⟨hrev, h⟩ := field_append_inj hd.modelRevision.length_lt hd'.modelRevision.length_lt h
  obtain ⟨hpool, h⟩ := toNat_append_inj hd.poolKind hd'.poolKind h
  obtain ⟨hname, h⟩ := field_append_inj hd.poolName.length_lt hd'.poolName.length_lt h
  obtain ⟨hdtype, h⟩ := field_append_inj hd.dtype.length_lt hd'.dtype.length_lt h
  -- The numbers: each is within the width it is written with.
  have hpos : ∀ {k : Int} {n : Nat}, 1 ≤ k ∧ k < 256 ^ n → 0 ≤ k ∧ k < 256 ^ n :=
    fun hk => ⟨by omega, hk.2⟩
  obtain ⟨hfp, h⟩ := toNat_append_inj (hpos hd.layoutFingerprint) (hpos hd'.layoutFingerprint) h
  obtain ⟨htokens, h⟩ := toNat_append_inj (hpos hd.blockTokens) (hpos hd'.blockTokens) h
  obtain ⟨hgroup, h⟩ := toNat_append_inj hd.groupId hd'.groupId h
  obtain ⟨hbegin, h⟩ := toNat_append_inj hd.layerBegin hd'.layerBegin h
  obtain ⟨hcount, h⟩ := toNat_append_inj (hpos hd.layerCount) (hpos hd'.layerCount) h
  obtain ⟨htp, h⟩ := rank_append_inj hd.tp hd'.tp h
  obtain ⟨hdp, h⟩ := rank_append_inj hd.dp hd'.dp h
  have h : d.pp.serialize ++ [] = d'.pp.serialize ++ [] := by rw [h]
  obtain ⟨hpp, -⟩ := rank_append_inj hd.pp hd'.pp h
  cases d
  cases d'
  simp only at *
  subst_vars
  rfl

theorem objectJoined_inj {o o' : Connector.ObjectDescriptor} {ns ns' : Bytes} (ho : ObjectOk o)
    (ho' : ObjectOk o') (hns : ns.length < 256 ^ 4) (hns' : ns'.length < 256 ^ 4)
    (h : o.joined ns = o'.joined ns') : ns = ns' ∧ o = o' := by
  unfold Connector.ObjectDescriptor.joined at h
  have h := append_cancel_left h
  obtain ⟨hname, h⟩ := field_append_inj hns hns' h
  obtain ⟨hkey, h⟩ := field_append_inj ho.logicalKey.length_lt ho'.logicalKey.length_lt h
  obtain ⟨hcomp, h⟩ := field_append_inj ho.component.1.length_lt ho'.component.1.length_lt h
  have hindex : ∀ {x : Connector.ObjectDescriptor}, ObjectOk x →
      (0 ≤ x.chunkIndex ∧ x.chunkIndex < 256 ^ 4) ∧ 0 ≤ x.chunkCount ∧ x.chunkCount < 256 ^ 4 := by
    intro x hx
    have hi := hx.chunkIndex
    have hc := hx.chunkCount
    exact ⟨⟨hi.1, by omega⟩, by omega, hc.2⟩
  obtain ⟨hchunk, h⟩ := toNat_append_inj (hindex ho).1 (hindex ho').1 h
  have h : putLE 4 o.chunkCount.toNat ++ [] = putLE 4 o'.chunkCount.toNat ++ [] := by rw [h]
  obtain ⟨hcount, -⟩ := toNat_append_inj (hindex ho).2 (hindex ho').2 h
  cases o
  cases o'
  simp only at *
  subst_vars
  exact ⟨rfl, rfl⟩

theorem length_field (value : Bytes) : (field value).length = 4 + value.length := by
  rw [field, length_append, length_putLE]

theorem length_rank (c : Connector.RankCoordinate) : c.serialize.length = 8 := by
  rw [Connector.RankCoordinate.serialize, length_append, length_putLE, length_putLE]

theorem FieldsOk.length_joined_lt (h : FieldsOk d) : d.joined.length < 256 ^ 4 := by
  have htenant := h.tenantId.2
  have hmodel := h.modelId.2
  have hrev := h.modelRevision.2
  have hname := h.poolName.2
  have hdtype := h.dtype.2
  have hmagic : namespaceMagic.length = 8 := by decide
  unfold Connector.NamespaceDescriptor.joined
  simp only [length_append, length_field, length_putLE, length_rank, hmagic]
  omega

/-! ## The tenant in a serialised namespace -/

theorem readField_field (h : FieldOk value) (rest : Bytes) :
    readField (field value ++ rest) = some (value, rest) := by
  have hne : value.length ≠ 0 := fun h0 => h.1 (length_eq_zero_iff.mp h0)
  have hle := h.2
  rw [readField, field, append_assoc, readLE_putLE 4 h.length_lt]
  simp only [Option.bind_eq_bind, Option.bind_some]
  rw [if_neg (by omega), readBytes_append rfl]

theorem readPoolKind_putLE (h : n < 2 ^ 16) (rest : Bytes) : readPoolKind (putLE 2 n ++ rest) =
    if (1 ≤ n ∧ n ≤ 8) ∨ n = 65535 then some (n, rest) else none := by
  rw [readPoolKind, readLE_putLE 2 h]
  simp only [Option.bind_eq_bind, Option.bind_some]
  exact ite_not ..

theorem declared_iff : (∃ kind : PoolKind, kind.code = n) ↔ (1 ≤ n ∧ n ≤ 8) ∨ n = 65535 := by
  constructor
  · rintro ⟨kind, rfl⟩
    cases kind <;> decide
  · rintro (⟨h1, h8⟩ | rfl)
    · interval_cases n
      exacts [⟨.attention, rfl⟩, ⟨.mla, rfl⟩, ⟨.mamba, rfl⟩, ⟨.swa, rfl⟩, ⟨.indexer, rfl⟩,
        ⟨.draftAttention, rfl⟩, ⟨.draftMla, rfl⟩, ⟨.draftIndexer, rfl⟩]
    · exact ⟨.custom, rfl⟩

theorem readAxes_rank (h : RankOk c) (axes : Nat) (rest : Bytes) :
    readAxes (axes + 1) (c.serialize ++ rest) = readAxes axes rest := by
  obtain ⟨worldSize, rank⟩ := c
  obtain ⟨hw, hr⟩ := h
  dsimp only at hw hr
  have hw' : worldSize.toNat < 256 ^ 4 := by omega
  have hr' : (rank % 0x100000000).toNat < 256 ^ 4 := by omega
  rw [readAxes, Connector.RankCoordinate.serialize, append_assoc, readLE_putLE 4 hw']
  simp only [Option.bind_eq_bind, Option.bind_some, readLE_putLE 4 hr']
  exact if_neg (by omega)

/-- Both parsers find the tenant in the bytes of a valid descriptor if its pool kind is declared,
and otherwise none. -/
theorem readTenant_joined (h : FieldsOk d) : readTenant d.joined =
    if (1 ≤ d.poolKind.toNat ∧ d.poolKind.toNat ≤ 8) ∨ d.poolKind.toNat = 65535 then some d.tenantId
    else none := by
  have hk := h.poolKind
  have hk' : d.poolKind.toNat < 2 ^ 16 := by omega
  have hf := h.layoutFingerprint
  have hb := h.blockTokens
  have hg := h.groupId
  have hlb := h.layerBegin
  have hlc := h.layerCount
  have hl := h.layers
  have hf' : d.layoutFingerprint.toNat < 256 ^ 8 := by omega
  have hb' : d.blockTokens.toNat < 256 ^ 4 := by omega
  have hg' : d.groupId.toNat < 256 ^ 4 := by omega
  have hlb' : d.layerBegin.toNat < 256 ^ 4 := by omega
  have hlc' : d.layerCount.toNat < 256 ^ 4 := by omega
  rw [readTenant, Connector.NamespaceDescriptor.joined,
    if_neg (not_not.mpr (prefix_append _ _)), drop_left]
  -- The texts, then the numbers, then the ranks.
  simp only [readTexts, readField_field h.tenantId, readField_field h.modelId,
    readField_field h.modelRevision, readPoolKind_putLE hk', Option.bind_eq_bind, Option.bind_some]
  split
  swap
  · rfl
  simp only [readField_field h.poolName, readField_field h.dtype, Option.bind_some]
  simp only [readTail, readLE_putLE 8 hf', readLE_putLE 4 hb', readLE_putLE 4 hg',
    readLE_putLE 4 hlb',
    readLE_putLE 4 hlc', Option.bind_eq_bind, Option.bind_some]
  rw [if_neg (by omega), readAxes_rank h.tp, readAxes_rank h.dp]
  have hlast := readAxes_rank h.pp 0 []
  rw [append_nil] at hlast
  rw [hlast]
  rfl

/-! ## Every descriptor has a native one -/

def Int32Rank (c : Connector.RankCoordinate) : Prop := c.rank < 2 ^ 31

theorem toNat_ofNat32 (hk : 0 ≤ k) (hlt : k < 2 ^ 32) :
    ((UInt32.ofNat k.toNat).toNat : Int) = k := by
  rw [UInt32.toNat_ofNat']
  omega

theorem toNat_ofNat64 (hk : 0 ≤ k) (hlt : k < 2 ^ 64) :
    ((UInt64.ofNat k.toNat).toNat : Int) = k := by
  rw [UInt64.toNat_ofNat']
  omega

theorem exists_nativeRank (h : RankOk c) (h32 : Int32Rank c) :
    ∃ n : RankCoordinate, n.toPython = c := by
  obtain ⟨worldSize, rank⟩ := c
  obtain ⟨hw, hr⟩ := h
  unfold Int32Rank at h32
  dsimp only at hw hr h32
  refine ⟨{ worldSize := .ofNat worldSize.toNat, rank := .ofInt rank }, ?_⟩
  rw [RankCoordinate.toPython]
  dsimp only
  rw [toNat_ofNat32 (by omega) hw.2, Int32.toInt_ofInt_of_le (by omega) h32]

/-- A valid Python descriptor with 32-bit ranks is the image of a native one. -/
theorem exists_native {p : Connector.NamespaceDescriptor} (h : FieldsOk p) (htp : Int32Rank p.tp)
    (hdp : Int32Rank p.dp) (hpp : Int32Rank p.pp) : ∃ d : NamespaceDescriptor, d.toPython = p := by
  obtain ⟨tp, htp⟩ := exists_nativeRank h.tp htp
  obtain ⟨dp, hdp⟩ := exists_nativeRank h.dp hdp
  obtain ⟨pp, hpp⟩ := exists_nativeRank h.pp hpp
  have hk := h.poolKind
  have hf := h.layoutFingerprint
  have hb := h.blockTokens
  have hg := h.groupId
  have hlb := h.layerBegin
  have hlc := h.layerCount
  have hkind : ((UInt16.ofNat p.poolKind.toNat).toNat : Int) = p.poolKind := by
    rw [UInt16.toNat_ofNat']
    omega
  refine ⟨{ tenantId := p.tenantId, modelId := p.modelId, modelRevision := p.modelRevision
            poolKind := .ofNat p.poolKind.toNat, poolName := p.poolName, dtype := p.dtype
            layoutFingerprint := .ofNat p.layoutFingerprint.toNat
            blockTokens := .ofNat p.blockTokens.toNat, groupId := .ofNat p.groupId.toNat
            layerBegin := .ofNat p.layerBegin.toNat, layerCount := .ofNat p.layerCount.toNat
            tp, dp, pp }, ?_⟩
  rw [toPython]
  dsimp only
  rw [htp, hdp, hpp, hkind, toNat_ofNat64 (by omega) hf.2, toNat_ofNat32 (by omega) hb.2,
    toNat_ofNat32 hg.1 hg.2, toNat_ofNat32 hlb.1 hlb.2, toNat_ofNat32 (by omega) hlc.2]

theorem rankToPython_inj {c c' : RankCoordinate} (h : c.toPython = c'.toPython) : c = c' := by
  obtain ⟨worldSize, rank⟩ := c
  obtain ⟨worldSize', rank'⟩ := c'
  simp only [RankCoordinate.toPython, Connector.RankCoordinate.mk.injEq, Nat.cast_inj,
    UInt32.toNat_inj, Int32.toInt_inj] at h
  rw [h.1, h.2]

theorem toPython_inj {d d' : NamespaceDescriptor} (h : d.toPython = d'.toPython) : d = d' := by
  cases d
  cases d'
  simp only [toPython, Connector.NamespaceDescriptor.mk.injEq, Nat.cast_inj,
    UInt16.toNat_inj, UInt32.toNat_inj, UInt64.toNat_inj] at h
  obtain ⟨rfl, rfl, rfl, rfl, rfl, rfl, rfl, rfl, rfl, rfl, rfl, htp, hdp, hpp⟩ := h
  rw [rankToPython_inj htp, rankToPython_inj hdp, rankToPython_inj hpp]

theorem objectToPython_inj {o o' : ObjectDescriptor} (h : o.toPython = o'.toPython) : o = o' := by
  cases o
  cases o'
  simp only [ObjectDescriptor.toPython, Connector.ObjectDescriptor.mk.injEq, Nat.cast_inj,
    UInt32.toNat_inj] at h
  obtain ⟨rfl, rfl, rfl, rfl⟩ := h
  rfl

/-! ## What is hashed -/

theorem tenantHashInput_inj (ha : a.length < 2 ^ 64) (hb : b.length < 2 ^ 64)
    (h : tenantHashInput a = tenantHashInput b) : a = b := by
  have h := append_cancel_left h
  have h : putLE 8 a.length ++ (a ++ []) = putLE 8 b.length ++ (b ++ []) := by
    rw [append_nil, append_nil, h]
  exact (framed_append_inj (show a.length < 256 ^ 8 from ha) hb h).1

theorem blockKeyInput_inj {ns ns' key key' : Bytes} (hns : ns.length < 2 ^ 64)
    (hns' : ns'.length < 2 ^ 64) (hkey : key.length < 2 ^ 64) (hkey' : key'.length < 2 ^ 64)
    (h : blockKeyInput ns key = blockKeyInput ns' key') : ns = ns' ∧ key = key' := by
  have h := append_cancel_left h
  obtain ⟨hname, h⟩ := framed_append_inj (show ns.length < 256 ^ 8 from hns) hns' h
  have h : putLE 8 key.length ++ (key ++ []) = putLE 8 key'.length ++ (key' ++ []) := by
    rw [append_nil, append_nil, h]
  exact ⟨hname, (framed_append_inj (show key.length < 256 ^ 8 from hkey) hkey' h).1⟩

theorem nativeTenantHashInput_eq (ns : Bytes) :
    nativeTenantHashInput ns = namespaceTenantHashInput ns := by
  rw [nativeTenantHashInput, namespaceTenantHashInput, canonicalTenant_eq,
    canonicalNamespaceTenant_eq]
  rfl

theorem canonicalTenant_serialize {d : NamespaceDescriptor} (h : d.validate = .ok ()) :
    canonicalTenant d.serialize =
      if (1 ≤ d.poolKind.toNat ∧ d.poolKind.toNat ≤ 8) ∨
        d.poolKind.toNat = 65535 then some d.tenantId
      else none := by
  rw [canonicalTenant_eq, serialize_eq_joined, readTenant_joined (nativeNamespace_iff.mp h)]
  rfl

/-! ## The identities agree -/

/-- The two parsers agree on every byte string; the two validations agree on every descriptor with a
declared pool kind, valid ones have the same bytes on both sides, different ones different bytes,
and both parsers find the tenant in them; the same holds of objects; and what is hashed tells
namespaces, keys and tenants apart. -/
theorem native_and_python_identities_agree :
    (∀ ns, canonicalTenant ns = canonicalNamespaceTenant ns) ∧
    (∀ d : NamespaceDescriptor, d.Declared → (d.validate = .ok () ↔ d.toPython.validate = .ok ()) ∧
      (d.validate = .ok () → d.toPython.serialize = .ok d.serialize ∧
        canonicalTenant d.serialize = some d.tenantId ∧
        canonicalNamespaceTenant d.serialize = some d.tenantId)) ∧
    (∀ p : Connector.NamespaceDescriptor, p.validate = .ok () → Int32Rank p.tp → Int32Rank p.dp →
      Int32Rank p.pp → ∃ d : NamespaceDescriptor, d.toPython = p) ∧
    (∀ d d' : NamespaceDescriptor, d.validate = .ok () → d'.validate = .ok () →
      d.serialize = d'.serialize → d = d') ∧
    (∀ o : ObjectDescriptor, (o.validate = .ok () ↔ o.toPython.validate = .ok ()) ∧
      ∀ d : NamespaceDescriptor, d.Declared → o.validate = .ok () → d.validate = .ok () →
        o.toPython.serialize d.toPython = .ok (o.serialize d)) ∧
    (∀ (o o' : ObjectDescriptor) (d d' : NamespaceDescriptor), o.validate = .ok () →
      o'.validate = .ok () → d.validate = .ok () → d'.validate = .ok () →
      o.serialize d = o'.serialize d' → d = d' ∧ o = o') ∧
    (∀ ns ns' key key' : Bytes, ns.length < 2 ^ 64 → ns'.length < 2 ^ 64 → key.length < 2 ^ 64 →
      key'.length < 2 ^ 64 → blockKeyInput ns key = blockKeyInput ns' key' →
      ns = ns' ∧ key = key') ∧
    (∀ a b : Bytes, a.length < 2 ^ 64 → b.length < 2 ^ 64 →
      tenantHashInput a = tenantHashInput b → a = b) ∧
    ∀ ns, nativeTenantHashInput ns = tenantHashInput ((canonicalTenant ns).getD ns) ∧
      nativeTenantHashInput ns = namespaceTenantHashInput ns := by
  have hparse : ∀ ns, canonicalTenant ns = canonicalNamespaceTenant ns := by
    intro ns
    rw [canonicalTenant_eq, canonicalNamespaceTenant_eq]
  refine ⟨hparse, fun d hk => ⟨?_, fun hd => ?_⟩, fun p hp => ?_, fun d d' hd hd' h => ?_,
    fun o => ⟨?_, fun d hk ho hd => ?_⟩, fun o o' d d' ho ho' hd hd' h => ?_,
    fun ns ns' key key' => blockKeyInput_inj, fun a b => tenantHashInput_inj,
    fun ns => ⟨rfl, nativeTenantHashInput_eq ns⟩⟩
  · rw [nativeNamespace_iff, pythonNamespace_iff]
    exact ⟨hk.namespaceOk, NamespaceOk.toFieldsOk⟩
  · have hok := hk.namespaceOk (nativeNamespace_iff.mp hd)
    have htenant := (canonicalTenant_serialize hd).trans (if_pos (declared_iff.mp hk))
    refine ⟨?_, htenant, hparse d.serialize ▸ htenant⟩
    rw [Connector.NamespaceDescriptor.serialize, pythonNamespace_iff.mpr hok, serialize_eq_joined]
    rfl
  · exact exists_native (pythonNamespace_iff.mp hp).toFieldsOk
  · rw [serialize_eq_joined, serialize_eq_joined] at h
    exact toPython_inj (joined_inj (nativeNamespace_iff.mp hd) (nativeNamespace_iff.mp hd') h)
  · rw [nativeObject_iff, pythonObject_iff]
  · rw [Connector.ObjectDescriptor.serialize, pythonObject_iff.mpr (nativeObject_iff.mp ho),
      Connector.NamespaceDescriptor.serialize,
      pythonNamespace_iff.mpr (hk.namespaceOk (nativeNamespace_iff.mp hd)),
        objectSerialize_eq_joined]
    rfl
  · have hok := nativeNamespace_iff.mp hd
    have hok' := nativeNamespace_iff.mp hd'
    rw [objectSerialize_eq_joined, objectSerialize_eq_joined] at h
    obtain ⟨hns, hobj⟩ := objectJoined_inj (nativeObject_iff.mp ho) (nativeObject_iff.mp ho')
      hok.length_joined_lt hok'.length_joined_lt h
    exact ⟨toPython_inj (joined_inj hok hok' hns), objectToPython_inj hobj⟩

/-! ## Pool kinds outside the enumeration -/

/-- The tenant of a validated namespace is recognised, and its objects are accounted to it, exactly
if the pool kind is declared. -/
theorem validated_namespace_recognised_iff (d : NamespaceDescriptor) (h : d.validate = .ok ()) :
    (canonicalTenant d.serialize = some d.tenantId ∧
      nativeTenantHashInput d.serialize = tenantHashInput d.tenantId) ↔ d.Declared := by
  have hfound := canonicalTenant_serialize h
  constructor
  · rintro ⟨htenant, -⟩
    rw [hfound, Option.ite_none_right_eq_some] at htenant
    exact declared_iff.mpr htenant.1
  · intro hk
    rw [if_pos (declared_iff.mp hk)] at hfound
    refine ⟨hfound, ?_⟩
    rw [nativeTenantHashInput, hfound]
    rfl

/-- A descriptor that `Validate` accepts, with the given pool kind. -/
def smallNamespace (poolKind : UInt16) : NamespaceDescriptor where
  tenantId := [116]
  modelId := [109]
  modelRevision := [114]
  poolKind := poolKind
  poolName := [112]
  dtype := [100]
  layoutFingerprint := 1
  blockTokens := 1
  layerCount := 1

/-- Pool kind 0 passes the validation, and the tenant is derived from the whole namespace. -/
theorem undeclared_kind_unrecognised : (smallNamespace 0).validate = .ok () ∧
    canonicalTenant (smallNamespace 0).serialize = none ∧
    nativeTenantHashInput (smallNamespace 0).serialize =
      tenantHashInput (smallNamespace 0).serialize := by
  have hvalid : (smallNamespace 0).validate = .ok () := rfl
  have hnone := canonicalTenant_serialize hvalid
  rw [if_neg (by decide)] at hnone
  refine ⟨hvalid, hnone, ?_⟩
  rw [nativeTenantHashInput, hnone]
  rfl

theorem custom_kind_recognised :
    canonicalTenant (smallNamespace 65535).serialize = some (smallNamespace 65535).tenantId ∧
      nativeTenantHashInput (smallNamespace 65535).serialize =
        tenantHashInput (smallNamespace 65535).tenantId :=
  (validated_namespace_recognised_iff (smallNamespace 65535) rfl).mpr ⟨.custom, rfl⟩

end DingoCache.Client
