import DingoCache.Connector.Identity
import DingoCache.Library.ExceptList

/-!
# Lookup Requests of the vLLM Connector

`_encode_lookup_request` and `_decode_lookup_request` of `dfkv_vllm/protocol.py`: the
five frames of a lookup on the admin channel.  The hashes travel as one blob without a
count, so the receiver cuts it at the width the sender announced.
-/

namespace DingoCache.Vllm

open Library Connector List

/-! ## The codec -/

/-- `value.to_bytes(n, byteorder="big")`. -/
def toBytesBig (n value : Nat) : Bytes := (putLE n value).reverse

/-- `int.from_bytes(bs, byteorder="big")`. -/
def fromBytesBig (bs : Bytes) : Nat := getLE bs.reverse

def lookupMsg : Bytes := utf8 "lookup"

def encodeLookupRequest (tokenLen : Int) (blockHashes : List Bytes) (retainTtlS : Int := 0) :
    Except PyError (List Bytes) :=
  let hashLen := (blockHashes.head?.map length).getD 0
  if ¬(0 ≤ tokenLen ∧ tokenLen < 2 ^ 32) then
    .error (.valueError ("token_len is outside uint32: " ++ toString tokenLen))
  else if 2 ^ 16 ≤ hashLen then
    .error (.valueError ("block hash is too long for uint16: " ++ toString hashLen))
  else if blockHashes ≠ [] ∧ hashLen = 0 then
    .error (.valueError "non-empty block hash list contains an empty hash")
  else if blockHashes.any fun blockHash => blockHash.length ≠ hashLen then
    .error (.valueError "block hashes must all have the same length")
  else if ¬(0 ≤ retainTtlS ∧ retainTtlS < 2 ^ 32) then
    .error (.valueError ("retain_ttl_s is outside uint32: " ++ toString retainTtlS))
  else .ok [lookupMsg, toBytesBig 4 tokenLen.toNat, toBytesBig 2 hashLen, blockHashes.flatten,
    toBytesBig 4 retainTtlS.toNat]

/-- The slices of the blob at the offsets in `range(0, len(blob), hash_len)`. -/
def splitBlob (hashLen : Nat) : Nat → Bytes → List Bytes
  | 0, _ => []
  | count + 1, blob => blob.take hashLen :: splitBlob hashLen count (blob.drop hashLen)

def decodeBlob (blob : Bytes) (hashLen : Nat) : Except PyError (List Bytes) :=
  if blob = [] then
    if hashLen ≠ 0 then .error (.valueError "empty hash blob has a non-zero hash_len") else .ok []
  else if hashLen = 0 then .error (.valueError "non-empty hash blob has zero hash_len")
  else if blob.length % hashLen ≠ 0 then
    .error (.valueError ("hash blob length " ++ toString blob.length ++
      " is not divisible by hash_len " ++ toString hashLen))
  else .ok (splitBlob hashLen (blob.length / hashLen) blob)

def decodeLookupRequest : List Bytes → Except PyError (Int × List Bytes × Int)
  | [msg, tokenFrame, hashLenFrame, blob, ttlFrame] =>
    if ttlFrame.length ≠ 4 then
      .error (.valueError ("retain_ttl frame has " ++ toString ttlFrame.length ++
        " bytes, expected 4"))
    else if msg ≠ lookupMsg then
      .error (.valueError "lookup request has an invalid message type")
    else if tokenFrame.length ≠ 4 then
      .error (.valueError ("token_len frame has " ++ toString tokenFrame.length ++
        " bytes, expected 4"))
    else if hashLenFrame.length ≠ 2 then
      .error (.valueError ("hash_len frame has " ++ toString hashLenFrame.length ++
        " bytes, expected 2"))
    else do
      let blockHashes ← decodeBlob blob (fromBytesBig hashLenFrame)
      return (fromBytesBig tokenFrame, blockHashes, fromBytesBig ttlFrame)
  | frames => .error (.valueError ("lookup request has " ++ toString frames.length ++
      " frames, expected 5"))

/-! ## Numbers -/

@[simp] theorem length_toBytesBig (n v : Nat) : (toBytesBig n v).length = n := by
  simp [toBytesBig]

theorem fromBytesBig_toBytesBig {n v : Nat} (h : v < 256 ^ n) :
    fromBytesBig (toBytesBig n v) = v := by
  rw [fromBytesBig, toBytesBig, reverse_reverse, getLE_putLE, Nat.mod_eq_of_lt h]

theorem toBytesBig_fromBytesBig {n : Nat} {bs : Bytes} (h : bs.length = n) :
    toBytesBig n (fromBytesBig bs) = bs := by
  rw [toBytesBig, fromBytesBig, ← h, ← length_reverse, putLE_getLE, reverse_reverse]

theorem fromBytesBig_lt {n : Nat} {bs : Bytes} (h : bs.length = n) : fromBytesBig bs < 256 ^ n := by
  rw [fromBytesBig, ← h, ← length_reverse]
  exact getLE_lt _

/-! ## Blobs -/

theorem splitBlob_flatten {w : Nat} {hashes : List Bytes} (h : ∀ x ∈ hashes, x.length = w) :
    splitBlob w hashes.length hashes.flatten = hashes ∧
      hashes.flatten.length = hashes.length * w := by
  induction hashes with
  | nil => simp [splitBlob]
  | cons x xs ih =>
    obtain rfl := h x mem_cons_self
    obtain ⟨hsplit, hlen⟩ := ih fun y hy => h y (mem_cons_of_mem x hy)
    rw [length_cons, flatten_cons, splitBlob, take_left, drop_left, hsplit, length_append, hlen,
      Nat.succ_mul, Nat.add_comm]
    exact ⟨rfl, rfl⟩

theorem flatten_splitBlob (w : Nat) : ∀ (n : Nat) (blob : Bytes), blob.length = n * w →
    (splitBlob w n blob).flatten = blob ∧ ∀ x ∈ splitBlob w n blob, x.length = w := by
  intro n
  induction n with
  | zero => simp +contextual [splitBlob]
  | succ n ih =>
    intro blob hlen
    rw [Nat.succ_mul] at hlen
    -- The rest of the blob holds one hash less.
    obtain ⟨hrest, hall⟩ := ih (blob.drop w) (by rw [length_drop]; omega)
    refine ⟨by rw [splitBlob, flatten_cons, hrest, take_append_drop], fun x hx => ?_⟩
    rcases mem_cons.mp hx with rfl | hx
    · rw [length_take]
      omega
    · exact hall x hx

/-- What the encoder asks of the hashes, with the width it announces. -/
def Uniform (blockHashes : List Bytes) (hashLen : Nat) : Prop :=
  (blockHashes = [] ∧ hashLen = 0) ∨
    (blockHashes ≠ [] ∧ 0 < hashLen ∧ ∀ x ∈ blockHashes, x.length = hashLen)

/-- The blob and the width determine the hashes, and every accepted pair comes from them. -/
theorem decodeBlob_ok_iff {blob : Bytes} {hashLen : Nat} {blockHashes : List Bytes} :
    decodeBlob blob hashLen = .ok blockHashes ↔
      Uniform blockHashes hashLen ∧ blob = blockHashes.flatten := by
  constructor
  · intro h
    unfold decodeBlob at h
    split at h
    case isTrue hblob =>
      obtain ⟨hw, heq⟩ := ite_error_eq_ok_iff.mp h
      cases heq
      exact ⟨.inl ⟨rfl, not_not.mp hw⟩, hblob⟩
    case isFalse hblob =>
      simp only [ite_error_eq_ok_iff, ne_eq, not_not] at h
      obtain ⟨hw, hmod, heq⟩ := h
      cases heq
      have hlen := (Nat.div_mul_cancel (Nat.dvd_of_mod_eq_zero hmod)).symm
      obtain ⟨hflat, hall⟩ := flatten_splitBlob hashLen _ blob hlen
      refine ⟨.inr ⟨fun hnil => hblob ?_, Nat.pos_of_ne_zero hw, hall⟩, hflat.symm⟩
      rw [← hflat, hnil, flatten_nil]
  · rintro ⟨⟨rfl, rfl⟩ | ⟨hne, hw, hall⟩, rfl⟩
    · rfl
    · obtain ⟨hsplit, hlen⟩ := splitBlob_flatten hall
      have hblob : blockHashes.flatten ≠ [] := by
        intro h
        obtain ⟨x, xs, rfl⟩ := exists_cons_of_ne_nil hne
        have hx := hall x mem_cons_self
        rw [(append_eq_nil_iff.mp h).1, length_nil] at hx
        omega
      rw [decodeBlob, if_neg hblob, if_neg (by omega), if_neg (by rw [hlen]; simp), hlen,
        Nat.mul_div_cancel _ hw, hsplit]

/-! ## Requests -/

/-- The values of a request, as the encoder checks them. -/
def Encodable (tokenLen : Int) (blockHashes : List Bytes) (retainTtlS : Int) : Prop :=
  (0 ≤ tokenLen ∧ tokenLen < 2 ^ 32) ∧ (0 ≤ retainTtlS ∧ retainTtlS < 2 ^ 32) ∧
    (blockHashes = [] ∨ ∃ w, 1 ≤ w ∧ w ≤ 65535 ∧ ∀ x ∈ blockHashes, x.length = w)

theorem uniform_iff {hs : List Bytes} {w : Nat} : Uniform hs w ↔ (hs.head?.map length).getD 0 = w ∧
    ¬(hs ≠ [] ∧ w = 0) ∧ ¬(hs.any fun x => x.length ≠ w) := by
  cases hs with
  | nil => simp [Uniform, eq_comm]
  | cons x xs =>
    simp only [Uniform, reduceCtorEq, false_and, false_or, ne_eq, not_false_eq_true, true_and,
      Nat.pos_iff_ne_zero, any_eq_true, decide_eq_true_eq, not_exists, not_and, not_not, head?_cons,
      Option.map_some, Option.getD_some]
    exact ⟨fun ⟨hw, hall⟩ => ⟨hall x mem_cons_self, hw, hall⟩, fun ⟨_, hw, hall⟩ => ⟨hw, hall⟩⟩

/-- What both directions accept: the values, and the frames that carry them. -/
def Framed (t : Int) (hs : List Bytes) (r : Int) (frames : List Bytes) : Prop :=
  (0 ≤ t ∧ t < 2 ^ 32) ∧ (0 ≤ r ∧ r < 2 ^ 32) ∧ ∃ w < 2 ^ 16, Uniform hs w ∧
    frames = [lookupMsg, toBytesBig 4 t.toNat, toBytesBig 2 w, hs.flatten, toBytesBig 4 r.toNat]

theorem encodeLookupRequest_ok_iff {t r : Int} {hs frames : List Bytes} :
    encodeLookupRequest t hs r = .ok frames ↔ Framed t hs r frames := by
  simp only [encodeLookupRequest, ite_error_eq_ok_iff, Except.ok.injEq]
  constructor
  · rintro ⟨ht, hw, hne, hall, hr, rfl⟩
    exact ⟨not_not.mp ht, not_not.mp hr, _, by omega, uniform_iff.mpr ⟨rfl, hne, hall⟩, rfl⟩
  · rintro ⟨ht, hr, w, hw, hu, rfl⟩
    obtain ⟨rfl, hne, hall⟩ := uniform_iff.mp hu
    exact ⟨not_not.mpr ht, by omega, hne, hall, not_not.mpr hr, rfl⟩

theorem decodeLookupRequest_ok_iff {t r : Int} {hs frames : List Bytes} :
    decodeLookupRequest frames = .ok (t, hs, r) ↔ Framed t hs r frames := by
  constructor
  · intro h
    unfold decodeLookupRequest at h
    split at h
    case h_2 => cases h
    case h_1 msg tokenFrame hashLenFrame blob ttlFrame =>
      simp only [ite_error_eq_ok_iff, not_not, ne_eq, bind_eq_ok_iff] at h
      obtain ⟨httl, rfl, htoken, hlen, hs', hblob, heq⟩ := h
      cases heq
      obtain ⟨hu, rfl⟩ := decodeBlob_ok_iff.mp hblob
      have ht := fromBytesBig_lt htoken
      have hr := fromBytesBig_lt httl
      have hw := fromBytesBig_lt hlen
      refine ⟨by omega, by omega, _, by omega, hu, ?_⟩
      rw [Int.toNat_natCast, Int.toNat_natCast, toBytesBig_fromBytesBig htoken,
        toBytesBig_fromBytesBig hlen, toBytesBig_fromBytesBig httl]
  · rintro ⟨ht, hr, w, hw, hu, rfl⟩
    have hblob := decodeBlob_ok_iff.mpr ⟨hu, rfl⟩
    simp only [decodeLookupRequest, ite_error_eq_ok_iff, bind_eq_ok_iff, length_toBytesBig, ne_eq,
      not_true_eq_false, not_false_eq_true, true_and]
    refine ⟨hs, ?_, ?_⟩
    · rwa [fromBytesBig_toBytesBig (n := 2) (by omega)]
    · rw [fromBytesBig_toBytesBig (n := 4) (by omega), fromBytesBig_toBytesBig (n := 4) (by omega),
        Int.toNat_of_nonneg ht.1, Int.toNat_of_nonneg hr.1]
      rfl

/-- The two directions of the channel agree on what a request is. -/
theorem lookup_request_codec :
    (∀ t hs r, (∃ frames, encodeLookupRequest t hs r = .ok frames) ↔ Encodable t hs r) ∧
    (∀ t hs r frames, encodeLookupRequest t hs r = .ok frames →
      decodeLookupRequest frames = .ok (t, hs, r)) ∧
    (∀ frames, (∃ e, decodeLookupRequest frames = .error e) ∨
      ∃ t hs r, decodeLookupRequest frames = .ok (t, hs, r) ∧
        encodeLookupRequest t hs r = .ok frames) := by
  refine ⟨fun t hs r => ?_, fun t hs r frames h => ?_, fun frames => ?_⟩
  · constructor
    · rintro ⟨frames, h⟩
      obtain ⟨ht, hr, w, hw, hu, -⟩ := encodeLookupRequest_ok_iff.mp h
      refine ⟨ht, hr, hu.imp And.left fun hu => ⟨w, hu.2.1, by omega, hu.2.2⟩⟩
    · rintro ⟨ht, hr, hu⟩
      -- An empty list is announced with width 0, whatever `w` is.
      rcases eq_or_ne hs [] with rfl | hne
      · exact ⟨_, encodeLookupRequest_ok_iff.mpr ⟨ht, hr, 0, by omega, .inl ⟨rfl, rfl⟩, rfl⟩⟩
      · obtain ⟨w, hpos, hle, hall⟩ := hu.resolve_left hne
        exact ⟨_, encodeLookupRequest_ok_iff.mpr
          ⟨ht, hr, w, by omega, .inr ⟨hne, hpos, hall⟩, rfl⟩⟩
  · exact decodeLookupRequest_ok_iff.mpr (encodeLookupRequest_ok_iff.mp h)
  · cases h : decodeLookupRequest frames with
    | error e => exact .inl ⟨e, rfl⟩
    | ok v =>
      obtain ⟨t, hs, r⟩ := v
      exact .inr ⟨t, hs, r, rfl,
        encodeLookupRequest_ok_iff.mpr (decodeLookupRequest_ok_iff.mp h)⟩

end DingoCache.Vllm
