import DingoCache.Client.Identity
import DingoCache.Vllm.Model

/-!
# Store Keys

The bytes under which the connectors store their objects tell the objects apart.
-/

namespace DingoCache.Vllm

open Library Connector Client
open DingoCache.Connector.RankCoordinate (serialize)

/-! ## Accepted parts -/

theorem of_uint32 {value : Int} {name : String} {nonzero : Bool} {u : Unit}
    (h : uint32 value name nonzero = .ok u) : 0 ≤ value ∧ value < 256 ^ 4 := by
  by_contra hno
  rw [uint32, if_neg (by split <;> omega)] at h
  cases h

theorem of_encodeAxis {name : String} {size rank : Int} {b : Bytes}
    (h : encodeAxis name size rank = .ok b) :
    RankOk ⟨size, rank⟩ ∧ serialize ⟨size, rank⟩ = b := by
  unfold encodeAxis at h
  split at h
  · cases h
  · next hok =>
    refine ⟨⟨?_, ?_⟩, Except.ok.inj h⟩
    · show 1 ≤ size ∧ size < 2 ^ 32
      omega
    · show -1 ≤ rank ∧ rank < size
      omega

/-- The parts that `pool_key` accepts. -/
structure KeyParts.Ok (p : KeyParts) : Prop where
  pool : FieldOk p.pool
  pageHash : FieldOk p.pageHash
  component : FieldOk p.component
  groupId : 0 ≤ p.groupId ∧ p.groupId < 256 ^ 4
  dp : RankOk ⟨p.axes.dpSize, p.axes.dpRank⟩
  tp : RankOk ⟨p.axes.tpSize, p.axes.tpRank⟩
  pcp : RankOk ⟨p.axes.pcpSize, p.axes.pcpRank⟩
  dcp : RankOk ⟨p.axes.dcpSize, p.axes.dcpRank⟩
  pp : RankOk ⟨p.axes.ppSize, p.axes.ppRank⟩

/-- The bytes of the parts, and what follows them. -/
def KeyParts.bytes (p : KeyParts) (rest : Bytes) : Bytes :=
  poolMagic ++ (field p.pool ++ (field p.pageHash ++ (serialize ⟨p.axes.dpSize, p.axes.dpRank⟩ ++
    (serialize ⟨p.axes.tpSize, p.axes.tpRank⟩ ++
    (serialize ⟨p.axes.pcpSize, p.axes.pcpRank⟩ ++
    (serialize ⟨p.axes.dcpSize, p.axes.dcpRank⟩ ++
    (serialize ⟨p.axes.ppSize, p.axes.ppRank⟩ ++
    (putLE 4 p.groupId.toNat ++ (field p.component ++ rest)))))))))

theorem KeyParts.of_key {p : KeyParts} {k : Bytes} (h : p.key = .ok k) :
    p.Ok ∧ ∀ rest, k ++ rest = p.bytes rest := by
  simp only [key, poolKeyOf, encodeAxes, bind_eq_ok_iff, requiredBytes_iff,
    ite_throw_eq_ok_iff] at h
  obtain ⟨_, ⟨hpool, rfl⟩, _, ⟨hhash, rfl⟩, _, ⟨hcomp, rfl⟩, -, _, ⟨_, hdp, _, htp, _, hpcp, _,
    hdcp, _, hpp, haxes⟩, _, hgroup, hk⟩ := h
  cases haxes
  cases hk
  refine ⟨⟨hpool, hhash, hcomp, of_uint32 hgroup, (of_encodeAxis hdp).1, (of_encodeAxis htp).1,
    (of_encodeAxis hpcp).1, (of_encodeAxis hdcp).1, (of_encodeAxis hpp).1⟩, fun rest => ?_⟩
  simp only [bytes, (of_encodeAxis hdp).2, (of_encodeAxis htp).2, (of_encodeAxis hpcp).2,
    (of_encodeAxis hdcp).2, (of_encodeAxis hpp).2, List.append_assoc]

/-! ## Keys are told apart -/

/-- Two runs of bytes that begin with pool keys are equal only if the keys are. -/
theorem KeyParts.append_inj {p p' : KeyParts} {k k' : Bytes} (rest rest' : Bytes)
    (hk : p.key = .ok k) (hk' : p'.key = .ok k') (h : k ++ rest = k' ++ rest') : p = p' ∧
      rest = rest' := by
  obtain ⟨hp, hbytes⟩ := of_key hk
  obtain ⟨hp', hbytes'⟩ := of_key hk'
  rw [hbytes, hbytes'] at h
  obtain ⟨pageHash, pool, ⟨⟩, groupId, component⟩ := p
  obtain ⟨pageHash', pool', ⟨⟩, groupId', component'⟩ := p'
  have h := List.append_cancel_left h
  obtain ⟨hpool, h⟩ := field_append_inj hp.pool.length_lt hp'.pool.length_lt h
  obtain ⟨hhash, h⟩ := field_append_inj hp.pageHash.length_lt hp'.pageHash.length_lt h
  obtain ⟨hdp, h⟩ := rank_append_inj hp.dp hp'.dp h
  obtain ⟨htp, h⟩ := rank_append_inj hp.tp hp'.tp h
  obtain ⟨hpcp, h⟩ := rank_append_inj hp.pcp hp'.pcp h
  obtain ⟨hdcp, h⟩ := rank_append_inj hp.dcp hp'.dcp h
  obtain ⟨hpp, h⟩ := rank_append_inj hp.pp hp'.pp h
  obtain ⟨hgroup, h⟩ := toNat_append_inj hp.groupId hp'.groupId h
  obtain ⟨hcomp, hrest⟩ := field_append_inj hp.component.length_lt hp'.component.length_lt h
  cases hpool; cases hhash; cases hdp; cases htp; cases hpcp; cases hdcp; cases hpp
  cases hgroup
  cases hcomp
  exact ⟨rfl, hrest⟩

theorem of_sgKey {key s : Bytes} {width group : Nat} (h : sgKey key width group = .ok s) :
    s = key ++ (sgMagic ++ (putLE 4 width ++ (putLE 4 group ++ []))) ∧ width < 256 ^ 4 ∧
      group < 256 ^ 4 := by
  simp only [sgKey, bind_eq_ok_iff, ite_throw_eq_ok_iff] at h
  obtain ⟨-, _, hwidth, _, hgroup, hs⟩ := h
  cases hs
  have hw := of_uint32 hwidth
  have hg := of_uint32 hgroup
  refine ⟨by simp only [List.append_assoc, List.append_nil], by omega, by omega⟩

theorem utf8_inj {a b : String} (h : utf8 a = utf8 b) : a = b := by
  have hdata : a.toUTF8.data = b.toUTF8.data := Array.toList_inj.mp h
  exact String.toByteArray_inj.mp (ByteArray.ext hdata)

theorem PoolKey.parts_inj {x y : PoolKey} (h : x.parts = y.parts) : x = y := by
  obtain ⟨⟨⟩, hash⟩ := x
  obtain ⟨⟨⟩, hash'⟩ := y
  simp only [parts, KeyParts.mk.injEq, Axes.mk.injEq, Nat.cast_inj] at h
  obtain ⟨rfl, hname, ⟨rfl, rfl, rfl, rfl, rfl, rfl, rfl, rfl, rfl, rfl⟩, rfl, -⟩ := h
  rw [utf8_inj hname]

/-- Store keys are unambiguous: no pool key begins another one and equal pool keys have equal parts;
scatter keys over pool keys have equal keys, widths and groups; no scatter key over a pool key is a
pool key. The keys of the vLLM connector are pool keys. -/
theorem store_keys_unambiguous :
    (∀ (p p' : KeyParts) (k k' : Bytes), p.key = .ok k → p'.key = .ok k' → k <+: k' →
      k = k' ∧ p = p') ∧
    (∀ (p p' : KeyParts) (k k' s : Bytes) (width width' group group' : Nat), p.key = .ok k →
      p'.key = .ok k' → sgKey k width group = .ok s → sgKey k' width' group' = .ok s →
      k = k' ∧ p = p' ∧ width = width' ∧ group = group') ∧
    (∀ (p p' : KeyParts) (k s : Bytes) (width group : Nat), p.key = .ok k →
      sgKey k width group = .ok s → p'.key ≠ .ok s) ∧
    ∀ (x y : PoolKey) (k : Bytes), x.toBytes = .ok k → y.toBytes = .ok k → x = y := by
  refine ⟨?_, ?_, ?_, ?_⟩
  · rintro p p' k _ hk hk' ⟨rest, rfl⟩
    obtain ⟨rfl, hrest⟩ := KeyParts.append_inj rest [] hk hk' (List.append_nil _).symm
    exact ⟨by rw [hrest, List.append_nil], rfl⟩
  · intro p p' k k' s width width' group group' hk hk' hs hs'
    obtain ⟨rfl, hw, hg⟩ := of_sgKey hs
    obtain ⟨heq, hw', hg'⟩ := of_sgKey hs'
    obtain ⟨rfl, hsuffix⟩ := KeyParts.append_inj _ _ hk hk' heq
    obtain ⟨hwidth, htail⟩ := putLE_append_inj hw hw' (List.append_cancel_left hsuffix)
    obtain ⟨hgroup, -⟩ := putLE_append_inj hg hg' htail
    exact ⟨Except.ok.inj (hk.symm.trans hk'), rfl, hwidth, hgroup⟩
  · intro p p' k s width group hk hs hp'
    obtain ⟨rfl, -⟩ := of_sgKey hs
    obtain ⟨-, hempty⟩ := KeyParts.append_inj _ [] hk hp' (List.append_nil _).symm
    exact absurd (congrArg List.length hempty) (by simp [length_putLE])
  · intro x y k hx hy
    exact PoolKey.parts_inj (KeyParts.append_inj [] [] hx hy rfl).1

end DingoCache.Vllm
