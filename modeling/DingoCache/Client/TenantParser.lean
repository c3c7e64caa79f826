import DingoCache.Client.KeyMap
import DingoCache.Library.ByteReader

/-!
# The Parsers of the Tenant Agree

Both parsers of a namespace are cursors over its bytes.  They read what one reader,
`readTenant`, reads from the front of the bytes, although the Python parser takes the
fixed tail at once and the C++ parser field by field.

- `tracks_textsAt`, `tracks_namespaceTexts`: the texts of a namespace, read by either.
-/

namespace DingoCache.Client

open Library Connector List Option

variable {s : Bytes} {n pos : Nat}

/-! ## One reader for both parsers -/

variable (bs ns : Bytes)

def readField : Option (Bytes × Bytes) := do
  let (n, bs) ← readLE 4 bs
  if n = 0 ∨ 2 ^ 20 < n then none else readBytes n bs

def readAxes : Nat → Bytes → Option (Unit × Bytes)
  | 0, bs => some ((), bs)
  | axes + 1, bs => do
    let (worldSize, bs) ← readLE 4 bs
    let (rank, bs) ← readLE 4 bs
    if worldSize = 0 ∨ (rank ≠ 0xFFFFFFFF ∧ worldSize ≤ rank) then none
    else readAxes axes bs

def readTail : Option (Unit × Bytes) := do
  let (layoutFingerprint, bs) ← readLE 8 bs
  let (blockTokens, bs) ← readLE 4 bs
  let (_, bs) ← readLE 4 bs
  let (layerBegin, bs) ← readLE 4 bs
  let (layerCount, bs) ← readLE 4 bs
  if layoutFingerprint = 0 ∨ blockTokens = 0 ∨ layerCount = 0 ∨
      0xFFFFFFFF < layerBegin + layerCount then none
  else readAxes 3 bs

/-- The pool kind, with the check of it. -/
def readPoolKind : Option (Nat × Bytes) := do
  let (poolKind, bs) ← readLE 2 bs
  if ¬((1 ≤ poolKind ∧ poolKind ≤ 8) ∨ poolKind = 65535) then none else some (poolKind, bs)

/-- The texts and the pool kind in front of them; the tenant is the first text. -/
def readTexts : Option (Bytes × Bytes) := do
  let (first, bs) ← readField bs
  let (_, bs) ← readField bs
  let (_, bs) ← readField bs
  let (_, bs) ← readPoolKind bs
  let (_, bs) ← readField bs
  let (_, bs) ← readField bs
  some (first, bs)

def readTenant : Option Bytes :=
  if ¬namespaceMagic <+: ns then none
  else do
    let (first, bs) ← readTexts (ns.drop namespaceMagic.length)
    let (_, bs) ← readTail bs
    if bs ≠ [] then none else some first

/-! ## The parsers are cursors -/

theorem readLE_drop (h : pos + n ≤ s.length) :
    readLE n (s.drop pos) = some (getLE ((s.drop pos).take n), s.drop (pos + n)) := by
  have hlen : n ≤ (s.drop pos).length := by
    rw [length_drop]
    omega
  rw [readLE, readBytes, if_pos hlen, map_some, Prod.map_apply, drop_drop]
  rfl

theorem readLE_drop_none (h : s.length < pos + n) (hpos : pos ≤ s.length) :
    readLE n (s.drop pos) = none := by
  have hlen : ¬n ≤ (s.drop pos).length := by
    rw [length_drop]
    omega
  rw [readLE, readBytes, if_neg hlen, map_none]

theorem readBytes_drop (h : pos + n ≤ s.length) :
    readBytes n (s.drop pos) = some ((s.drop pos).take n, s.drop (pos + n)) := by
  have hlen : n ≤ (s.drop pos).length := by
    rw [length_drop]
    omega
  rw [readBytes, if_pos hlen, drop_drop]

theorem readBytes_drop_none (h : s.length < pos + n) (hpos : pos ≤ s.length) :
    readBytes n (s.drop pos) = none := by
  have hlen : ¬n ≤ (s.drop pos).length := by
    rw [length_drop]
    omega
  rw [readBytes, if_neg hlen]

theorem tracks_uintAt (n : Nat) : Tracks ns id (uintAt ns n) (readLE n) := by
  intro pos hpos
  by_cases h : pos + n ≤ ns.length
  · refine .inr ⟨_, pos + n, h, ?_, readLE_drop h⟩
    rw [uintAt, if_neg (by omega)]
  · refine .inl ⟨?_, readLE_drop_none (by omega) hpos⟩
    rw [uintAt, if_pos (by omega)]

theorem tracks_fieldAt : Tracks ns (fun r => (ns.drop r.1).take r.2) (fieldAt ns) readField := by
  refine (tracks_uintAt ns 4).bind fun n pos hpos => ?_
  dsimp only [id]
  by_cases hn : n = 0 ∨ 2 ^ 20 < n
  · refine .inl ⟨if_pos ?_, if_pos hn⟩
    rcases hn with hn | hn
    · exact .inl hn
    · exact .inr (.inl hn)
  · rw [if_neg hn]
    by_cases h : pos + n ≤ ns.length
    · refine .inr ⟨(pos, n), pos + n, h, if_neg ?_, readBytes_drop h⟩
      rintro (hc | hc | hc)
      · exact hn (.inl hc)
      · exact hn (.inr hc)
      · omega
    · exact .inl ⟨if_pos (.inr (.inr (by omega))), readBytes_drop_none (by omega) hpos⟩

theorem tracks_axesAt (axes : Nat) : Tracks ns id (axesAt ns axes) (readAxes axes) := by
  induction axes with
  | zero => exact tracks_some ()
  | succ axes ih =>
    exact (tracks_uintAt ns 4).bind fun worldSize => (tracks_uintAt ns 4).bind fun rank =>
      tracks_none.ite ih

theorem tracks_tailAt : Tracks ns id (tailAt ns) readTail :=
  (tracks_uintAt ns 8).bind fun _ => (tracks_uintAt ns 4).bind fun _ =>
    (tracks_uintAt ns 4).bind fun _ => (tracks_uintAt ns 4).bind fun _ =>
      (tracks_uintAt ns 4).bind fun _ => tracks_none.ite (tracks_axesAt ns 3)

theorem tracks_poolKindAt : Tracks ns id (poolKindAt ns) readPoolKind :=
  (tracks_uintAt ns 2).bind fun poolKind => tracks_none.ite (tracks_some poolKind)

theorem tracks_textsAt : Tracks ns (fun r => (ns.drop r.1).take r.2) (textsAt ns) readTexts :=
  (tracks_fieldAt ns).bind fun first => (tracks_fieldAt ns).bind fun _ =>
    (tracks_fieldAt ns).bind fun _ => (tracks_poolKindAt ns).bind fun _ =>
      (tracks_fieldAt ns).bind fun _ => (tracks_fieldAt ns).bind fun _ => tracks_some first

theorem tracks_tenantField : Tracks ns id (tenantField ns) readField := by
  intro pos hpos
  unfold tenantField readField
  by_cases h : pos + 4 ≤ ns.length
  · rw [if_neg (by omega), readLE_drop h]
    generalize getLE ((ns.drop pos).take 4) = n
    simp only [bind_eq_bind, bind_some]
    by_cases hn : n = 0 ∨ 2 ^ 20 < n
    · refine .inl ⟨if_pos ?_, if_pos hn⟩
      rcases hn with hn | hn
      · exact .inl hn
      · exact .inr (.inl hn)
    · rw [if_neg hn]
      by_cases hfit : pos + 4 + n ≤ ns.length
      · refine .inr ⟨_, pos + 4 + n, hfit, if_neg ?_, readBytes_drop hfit⟩
        rintro (hc | hc | hc)
        · exact hn (.inl hc)
        · exact hn (.inr hc)
        · omega
      · exact .inl ⟨if_pos (.inr (.inr (by omega))), readBytes_drop_none (by omega) h⟩
  · rw [if_pos (by omega), readLE_drop_none (by omega) hpos]
    exact .inl ⟨rfl, rfl⟩

theorem tracks_poolKindField : Tracks ns id (poolKindField ns) readPoolKind := by
  intro pos hpos
  unfold poolKindField readPoolKind
  by_cases h : pos + 2 ≤ ns.length
  · rw [if_neg (by omega), readLE_drop h]
    generalize getLE ((ns.drop pos).take 2) = kind
    simp only [bind_eq_bind, bind_some]
    by_cases hk : (1 ≤ kind ∧ kind ≤ 8) ∨ kind = 65535
    · have hparsed : parsedPoolKind kind := by
        simpa [parsedPoolKind] using hk
      refine .inr ⟨kind, pos + 2, h, ?_, ?_⟩
      · rw [if_pos hparsed]
      · rw [if_neg (not_not.mpr hk)]
        rfl
    · have hparsed : parsedPoolKind kind ≠ true := by
        simpa [parsedPoolKind] using hk
      rw [if_neg hparsed, if_pos hk]
      exact .inl ⟨rfl, rfl⟩
  · rw [if_pos (by omega), readLE_drop_none (by omega) hpos]
    exact .inl ⟨rfl, rfl⟩

theorem tracks_namespaceTexts : Tracks ns id (namespaceTexts ns) readTexts :=
  (tracks_tenantField ns).bind fun first => (tracks_tenantField ns).bind fun _ =>
    (tracks_tenantField ns).bind fun _ => (tracks_poolKindField ns).bind fun _ =>
      (tracks_tenantField ns).bind fun _ => (tracks_tenantField ns).bind fun _ =>
        tracks_some first

/-! ## The fixed tail -/

theorem length_of_readAxes {axes : Nat} {bs rest : Bytes} {u : Unit}
    (h : readAxes axes bs = some (u, rest)) : bs.length = rest.length + 8 * axes := by
  induction axes generalizing bs with
  | zero =>
    obtain ⟨-, rfl⟩ := Prod.mk.inj (some.inj h)
    rfl
  | succ axes ih =>
    simp only [readAxes, bind_eq_bind, bind_eq_some_iff] at h
    obtain ⟨⟨worldSize, b₁⟩, h₁, ⟨rank, b₂⟩, h₂, h⟩ := h
    split at h
    · cases h
    · have hlen := ih h
      have hl₁ : b₁.length + 4 = bs.length := (of_readLE h₁).2
      have hl₂ : b₂.length + 4 = b₁.length := (of_readLE h₂).2
      dsimp only at hlen
      omega

theorem length_of_readTail {bs rest : Bytes} {u : Unit} (h : readTail bs = some (u, rest)) :
    bs.length = rest.length + (8 + 4 * 4 + 3 * 8) := by
  simp only [readTail, bind_eq_bind, bind_eq_some_iff] at h
  obtain ⟨⟨_, b₁⟩, h₁, ⟨_, b₂⟩, h₂, ⟨_, b₃⟩, h₃, ⟨_, b₄⟩, h₄, ⟨_, b₅⟩, h₅, h⟩ := h
  split at h
  · cases h
  · have hlen := length_of_readAxes h
    have hl₁ : b₁.length + 8 = bs.length := (of_readLE h₁).2
    have hl₂ : b₂.length + 4 = b₁.length := (of_readLE h₂).2
    have hl₃ : b₃.length + 4 = b₂.length := (of_readLE h₃).2
    have hl₄ : b₄.length + 4 = b₃.length := (of_readLE h₄).2
    have hl₅ : b₅.length + 4 = b₄.length := (of_readLE h₅).2
    dsimp only at hlen
    omega

theorem refusedAxis_iff {worldSize rank : Nat} : refusedAxis (worldSize, rank) ↔
      worldSize = 0 ∨ (rank ≠ 0xFFFFFFFF ∧ worldSize ≤ rank) := by
  simp [refusedAxis]

def TailNumbers (layoutFingerprint : Nat) (word : Nat → Nat) : Prop :=
  ¬(layoutFingerprint = 0 ∨ word 0 = 0 ∨ word 3 = 0 ∨ 0xFFFFFFFF < word 2 + word 3) ∧
    refusedAxis (word 4, word 5) = false ∧ refusedAxis (word 6, word 7) = false ∧
    refusedAxis (word 8, word 9) = false

/-- The tail that the Python parser takes at once is what the reader takes field by field. -/
theorem tailAccepted_iff (pos : Nat) :
    tailAccepted ns pos ↔ readTail (ns.drop pos) = some ((), []) := by
  by_cases hlen : ns.length = pos + (8 + 4 * 4 + 3 * 8)
  · -- The words of the tail, and what is left in front of each of them.
    obtain ⟨left, hleft⟩ : ∃ left : Nat → Bytes, left = fun k => ns.drop (pos + 8 + 4 * k) :=
      ⟨_, rfl⟩
    have hend : left 10 = [] := by
      rw [hleft]
      exact drop_of_length_le (by omega)
    have hfirst : readLE 8 (ns.drop pos) = some (getLE ((ns.drop pos).take 8), left 0) := by
      rw [hleft]
      exact readLE_drop (by omega)
    have hword : ∀ k < 10, readLE 4 (left k) = some (getLE ((left k).take 4), left (k + 1)) := by
      intro k hk
      rw [hleft]
      exact readLE_drop (by omega)
    have haccept : tailAccepted ns pos ↔
        TailNumbers (getLE ((ns.drop pos).take 8)) fun k => getLE ((left k).take 4) := by
      rw [hleft, tailAccepted, if_neg (not_not.mpr hlen), TailNumbers]
      split
      · next hc => simp [hc]
      · next hc => simp [hc]
    have hread : readTail (ns.drop pos) = some ((), []) ↔
        TailNumbers (getLE ((ns.drop pos).take 8)) fun k => getLE ((left k).take 4) := by
      simp only [TailNumbers, readTail, readAxes, hfirst, hword 0 (by decide), hword 1 (by decide),
        hword 2 (by decide), hword 3 (by decide), hword 4 (by decide), hword 5 (by decide),
        hword 6 (by decide), hword 7 (by decide), hword 8 (by decide), hword 9 (by decide),
        Nat.zero_add, Nat.reduceAdd, hend, bind_eq_bind, bind_some,
        ← Bool.not_eq_true, refusedAxis_iff, ite_none_left_eq_some, and_true]
    rw [haccept, hread]
  · constructor
    · intro h
      rw [tailAccepted] at h
      simp only [ne_eq, hlen, not_false_eq_true, if_true, Bool.false_eq_true] at h
    · intro h
      have hl := length_of_readTail h
      rw [length_drop, length_nil] at hl
      omega

/-! ## The parsers agree -/

theorem take_magic {ns : Bytes} (h : namespaceMagic <+: ns) :
    ns.take namespaceMagic.length = namespaceMagic :=
  (prefix_iff_eq_take.mp h).symm

/-- The C++ parser finds the tenant that the reader reads. -/
theorem canonicalTenant_eq : canonicalTenant ns = readTenant ns := by
  unfold canonicalTenant canonicalTenantIdentity readTenant
  by_cases hpre : namespaceMagic <+: ns
  · have hlen : namespaceMagic.length ≤ ns.length := hpre.length_le
    rw [if_neg (not_not.mpr hpre)]
    by_cases hshort : ns.length < namespaceMagic.length + 4
    · -- The C++ parser asks for the first length at once.
      have hnone : readTexts (ns.drop namespaceMagic.length) = none := by
        rw [readTexts, readField, readLE_drop_none hshort hlen]
        rfl
      rw [if_pos (.inl hshort), hnone]
      rfl
    · rw [if_neg (not_or.mpr ⟨hshort, not_not.mpr (take_magic hpre)⟩)]
      rcases tracks_textsAt ns _ hlen with ⟨hf, hg⟩ | ⟨first, p, hp, hf, hg⟩
      · rw [hf, hg]
        rfl
      rw [hf, hg]
      simp only [bind_eq_bind, bind_some]
      rcases tracks_tailAt ns p hp with ⟨hf', hg'⟩ | ⟨u, q, hq, hf', hg'⟩
      · rw [hf', hg']
        rfl
      rw [hf', hg']
      simp only [bind_some]
      by_cases hend : q = ns.length
      · rw [if_neg (not_not.mpr hend), if_neg (not_not.mpr (drop_of_length_le hend.ge))]
        rfl
      · have hrest : ns.drop q ≠ [] := by
          intro hnil
          have := drop_eq_nil_iff.mp hnil
          omega
        rw [if_pos hend, if_pos hrest]
        rfl
  · have htake : ns.take namespaceMagic.length ≠ namespaceMagic :=
      fun heq => hpre (prefix_iff_eq_take.mpr heq.symm)
    rw [if_pos (.inr htake), if_pos hpre]
    rfl

theorem canonicalNamespaceTenant_eq : canonicalNamespaceTenant ns = readTenant ns := by
  unfold canonicalNamespaceTenant readTenant
  by_cases hpre : namespaceMagic <+: ns
  · have hstart : namespaceMagic.isPrefixOf ns := isPrefixOf_iff_prefix.mpr hpre
    rw [if_neg (not_not.mpr hstart), if_neg (not_not.mpr hpre)]
    rcases tracks_namespaceTexts ns _ hpre.length_le with ⟨hf, hg⟩ | ⟨first, p, hp, hf, hg⟩
    · rw [hf, hg]
      rfl
    rw [hf, hg]
    simp only [bind_eq_bind, bind_some, id]
    by_cases htail : tailAccepted ns p
    · rw [if_pos htail, (tailAccepted_iff ns p).mp htail]
      rfl
    · rw [if_neg htail]
      cases hread : readTail (ns.drop p) with
      | none => rfl
      | some r =>
        obtain ⟨u, rest⟩ := r
        have hrest : rest ≠ [] := by
          rintro rfl
          exact htail ((tailAccepted_iff ns p).mpr hread)
        simp only [bind_some, if_pos hrest]
  · have hstart : ¬namespaceMagic.isPrefixOf ns :=
      fun h => hpre <| isPrefixOf_iff_prefix.mp h
    rw [if_pos hstart, if_pos hpre]

end DingoCache.Client
