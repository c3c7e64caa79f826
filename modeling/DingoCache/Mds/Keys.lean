import DingoCache.Library.PrefixOrder
import DingoCache.Mds.Registry

/-!
# Keys and Ranges in etcd

How the server of `src/mds/mds_server.cc` finds the keys of a group: `PrefixRangeEnd` of
`src/mds/etcd_client.cc` turns a prefix into the end of a range of keys, and `ListGroups`
takes the groups from the sorted keys in one pass.
-/

namespace DingoCache.Mds

open Library List

variable {p group g : ByteString} {kind : Kind} {e : Etcd} {b : UInt8}

/-! ## The range of a prefix -/

/-- `PrefixRangeEnd`: the last byte below 0xFF goes up by one and ends the key; without one the end
is the zero byte. -/
def prefixRangeEnd (p : ByteString) : ByteString :=
  match p.reverse.dropWhile (· == 255) with
  | [] => [0]
  | b :: front => front.reverse ++ [b + 1]

/-- The keys of an etcd range; the zero byte as its end means no upper bound. -/
def inRange (key rangeEnd k : ByteString) : Bool :=
  decide (key ≤ k) && (rangeEnd == [0] || decide (k < rangeEnd))

def Saturated (p : ByteString) : Prop := ∀ b ∈ p, b = 255

theorem prefixRangeEnd_of_saturated (h : Saturated p) : prefixRangeEnd p = [0] := by
  have hdrop : p.reverse.dropWhile (· == 255) = [] :=
    dropWhile_eq_nil_iff.mpr fun b hb => beq_iff_eq.mpr (h b (mem_reverse.mp hb))
  rw [prefixRangeEnd, hdrop]

theorem prefixRangeEnd_cons_saturated (h : Saturated p) (hb : b ≠ 255) :
    prefixRangeEnd (b :: p) = [b + 1] := by
  have hdrop : p.reverse.dropWhile (· == 255) = [] :=
    dropWhile_eq_nil_iff.mpr fun b hb => beq_iff_eq.mpr (h b (mem_reverse.mp hb))
  rw [prefixRangeEnd, reverse_cons, dropWhile_append, hdrop]
  simp [hb]

theorem prefixRangeEnd_cons (h : ¬Saturated p) :
    prefixRangeEnd (b :: p) = b :: prefixRangeEnd p := by
  have hdrop : p.reverse.dropWhile (· == 255) ≠ [] := by
    intro hnil
    refine h fun b hb => beq_iff_eq.mp ?_
    exact dropWhile_eq_nil_iff.mp hnil b (mem_reverse.mpr hb)
  obtain ⟨c, front, hcons⟩ := exists_cons_of_ne_nil hdrop
  rw [prefixRangeEnd, prefixRangeEnd, reverse_cons, dropWhile_append, hcons]
  simp

theorem not_saturated_nil : ¬¬Saturated [] :=
  not_not.mpr fun _ hb => absurd hb not_mem_nil

theorem le_iff_prefix_of_saturated (h : Saturated p) (k : ByteString) : p ≤ k ↔ p <+: k := by
  refine ⟨fun hle => ?_, le_of_isPrefix⟩
  induction p generalizing k with
  | nil => exact nil_prefix
  | cons b p ih =>
    cases k with
    | nil => exact absurd (nil_lt_cons _ _) hle
    | cons c k =>
      have hb : b = 255 := h b mem_cons_self
      rcases cons_le_cons_iff.mp hle with hlt | ⟨rfl, htail⟩
      · rw [hb] at hlt
        have hmax := UInt8.lt_iff_toNat_lt.mp hlt
        have hc := c.toNat_lt
        exact absurd hmax (by simp; omega)
      · exact cons_prefix_cons.mpr
          ⟨rfl, ih (fun x hx => h x (mem_cons_of_mem b hx)) k htail⟩

theorem not_prefix_nil_cons : ¬b :: p <+: [] := by
  intro h
  exact absurd h.length_le (by simp)

/-- Without a bound of its own the range ends below the incremented byte. -/
theorem lt_prefixRangeEnd_iff (h : ¬Saturated p) (k : ByteString) :
    p ≤ k ∧ k < prefixRangeEnd p ↔ p <+: k := by
  induction p generalizing k with
  | nil => exact absurd h not_saturated_nil
  | cons b p ih =>
    cases k with
    | nil =>
      refine iff_of_false (fun hle => ?_) not_prefix_nil_cons
      exact absurd (nil_lt_cons _ _) hle.1
    | cons c k =>
      by_cases hp : Saturated p
      · -- The first byte is the one that goes up.
        have hb : b ≠ 255 := by
          intro hb
          refine h fun x hx => ?_
          rcases mem_cons.mp hx with rfl | hx
          · exact hb
          · exact hp x hx
        have hsucc : (b + 1).toNat = b.toNat + 1 := by
          have hlt := b.toNat_lt
          have hne : b.toNat ≠ 255 := fun heq => hb (UInt8.toNat_inj.mp heq)
          rw [UInt8.toNat_add]
          simp
          omega
        rw [prefixRangeEnd_cons_saturated hp hb, cons_prefix_cons, cons_le_cons_iff,
          cons_lt_cons_iff, ← le_iff_prefix_of_saturated hp]
        have hless : c < b + 1 ↔ c ≤ b := by
          rw [UInt8.lt_iff_toNat_lt, UInt8.le_iff_toNat_le, hsucc]
          omega
        constructor
        · rintro ⟨hle, hlt | ⟨-, hlt⟩⟩
          · rcases hle with hbc | ⟨rfl, htail⟩
            · exact absurd hbc (Std.not_lt.mpr (hless.mp hlt))
            · exact ⟨rfl, htail⟩
          · exact absurd hlt (not_lt_nil k)
        · rintro ⟨rfl, htail⟩
          exact ⟨.inr ⟨rfl, htail⟩, .inl (hless.mpr (UInt8.le_refl _))⟩
      · rw [prefixRangeEnd_cons hp, cons_prefix_cons, cons_le_cons_iff, cons_lt_cons_iff, ← ih hp k]
        constructor
        · rintro ⟨hbc | ⟨rfl, hle⟩, hcb | ⟨heq, hlt⟩⟩
          · exact absurd hbc (Std.not_gt_of_lt hcb)
          · exact absurd hbc (heq ▸ UInt8.lt_irrefl _)
          · exact absurd hcb (UInt8.lt_irrefl _)
          · exact ⟨rfl, hle, hlt⟩
        · rintro ⟨rfl, hle, hlt⟩
          exact ⟨.inr ⟨rfl, hle⟩, .inr ⟨rfl, hlt⟩⟩

/-- The range of a prefix holds exactly the keys with the prefix. -/
theorem inRange_prefixRangeEnd (p k : ByteString) : inRange p (prefixRangeEnd p) k ↔ p <+: k := by
  unfold inRange
  by_cases hp : Saturated p
  · rw [prefixRangeEnd_of_saturated hp]
    simp [le_iff_prefix_of_saturated hp]
  · -- The prefix itself is below the end of its range, so the end is not the zero byte.
    have hend : prefixRangeEnd p ≠ [0] := by
      intro hzero
      have hlt := ((lt_prefixRangeEnd_iff hp p).mpr (prefix_refl p)).2
      rw [hzero] at hlt
      cases p with
      | nil => exact absurd hp not_saturated_nil
      | cons b p =>
        rcases cons_lt_cons_iff.mp hlt with hlow | ⟨-, hlow⟩
        · exact absurd hlow (UInt8.not_lt_zero)
        · exact absurd hlow (not_lt_nil p)
    rw [Bool.and_eq_true, decide_eq_true_eq, Bool.or_eq_true, beq_iff_eq, decide_eq_true_eq,
      or_iff_right hend]
    exact lt_prefixRangeEnd_iff hp k

example : prefixRangeEnd [97, 7, 255, 255] = [97, 8] := by decide

theorem rangePrefix_eq_range (e : Etcd) (p : ByteString) :
    rangePrefix e p = sortBy (fun a b => decide (a.1 < b.1))
      ((e.entries.map fun kv => (kv.1, kv.2)).filter
        fun kv => inRange p (prefixRangeEnd p) kv.1) := by
  have hsame : (fun kv : ByteString × ByteString => p.isPrefixOf kv.1) =
      fun kv => inRange p (prefixRangeEnd p) kv.1 := by
    funext kv
    rw [Bool.eq_iff_iff, inRange_prefixRangeEnd, isPrefixOf_iff_prefix]
  rw [rangePrefix, hsame]

/-! ## The keys of a group -/

/-- What is registered under a group. -/
inductive Kind where
  | member
  | client
deriving DecidableEq

def Kind.front : Kind → ByteString → ByteString
  | .member => membersPrefix
  | .client => clientsPrefix

/-- `MemberKey` and `ClientKey`. -/
def Kind.key (kind : Kind) (group id : ByteString) : ByteString := kind.front group ++ id

def groupsBase : ByteString := lit "/dfkv/v1/groups/"

def groupFront (group : ByteString) : ByteString := groupsBase ++ (group ++ [47])

def Kind.tail : Kind → ByteString
  | .member => lit "members/"
  | .client => lit "clients/"

theorem Kind.front_eq (kind : Kind) (group : ByteString) :
    kind.front group = groupsBase ++ (group ++ 47 :: kind.tail) := by
  cases kind with
  | member => rfl
  | client => rfl

theorem Kind.key_eq (kind : Kind) (group id : ByteString) :
    kind.key group id = groupsBase ++ (group ++ 47 :: (kind.tail ++ id)) := by
  rw [Kind.key, Kind.front_eq, append_assoc, append_assoc, cons_append]

theorem Kind.tail_inj {kind' : Kind} {s t : ByteString} (h : kind.tail ++ s = kind'.tail ++ t) :
    kind = kind' ∧ s = t := by
  cases kind with
  | member =>
    cases kind' with
    | member => exact ⟨rfl, append_cancel_left h⟩
    | client => exact absurd (cons.inj h).1 (by decide)
  | client =>
    cases kind' with
    | member => exact absurd (cons.inj h).1 (by decide)
    | client => exact ⟨rfl, append_cancel_left h⟩

theorem Kind.front_prefix_iff {kind' : Kind} {id : ByteString}
    (hgroup : isValidGroupOrId group) (hg : isValidGroupOrId g) :
    kind.front group <+: kind'.key g id ↔ kind = kind' ∧ group = g := by
  constructor
  · rintro ⟨t, ht⟩
    rw [Kind.front_eq, Kind.key_eq, append_assoc, append_assoc, cons_append] at ht
    obtain ⟨hname, htail⟩ := cut_at_slash (slash_notMem_of_valid hgroup)
      (slash_notMem_of_valid hg) (append_cancel_left ht)
    exact ⟨(Kind.tail_inj htail).1, hname⟩
  · rintro ⟨rfl, rfl⟩
    exact prefix_append _ id

theorem Kind.key_inj (kind kind' : Kind) {id id' : ByteString}
    (hgroup : isValidGroupOrId group) (hg : isValidGroupOrId g)
    (h : kind.key group id = kind'.key g id') : kind = kind' ∧ group = g ∧ id = id' := by
  have hpre : kind.front group <+: kind'.key g id' := ⟨id, h⟩
  obtain ⟨rfl, rfl⟩ := (Kind.front_prefix_iff hgroup hg).mp hpre
  exact ⟨rfl, rfl, append_cancel_left h⟩

/-- Every key in etcd was registered: it is the key of a valid group and a valid id. -/
def Registered (e : Etcd) : Prop :=
  ∀ key ∈ e, ∃ kind : Kind, ∃ group id, isValidGroupOrId group = true ∧
    isValidGroupOrId id = true ∧ key = kind.key group id

theorem registered_empty : Registered ∅ := fun key h => absurd h (AList.notMem_empty key)

theorem written_key {op : WriteOp} {payload key : ByteString} {m : MemberInfo}
    (h : written op payload = some (key, m)) :
    ∃ kind : Kind, ∃ group id, isValidGroupOrId group ∧ isValidGroupOrId id ∧
      key = kind.key group id := by
  unfold written at h
  cases hreq : decodeMemberReq payload with
  | none => simp [hreq] at h
  | some q =>
    obtain ⟨group, m'⟩ := q
    simp only [hreq, Option.bind_eq_bind, Option.bind_some, Option.ite_none_right_eq_some,
      Option.some.injEq, Prod.mk.injEq] at h
    obtain ⟨⟨-, hgroup, hid⟩, hkey, -⟩ := h
    refine ⟨if op.member then .member else .client, group, m'.id, hgroup, hid, ?_⟩
    rw [← hkey]
    split <;> rfl

theorem step_registered (h : Registered e) (ev : Event) : Registered (step e ev) := by
  intro key hkey
  cases ev with
  | expire k => exact h key (AList.mem_erase.mp hkey).2
  | request op payload r =>
    rcases handle_cases e op payload r with ⟨-, hsame, -⟩ | ⟨k, m, hwritten, hrun⟩
    · rw [step, hsame] at hkey
      exact h key hkey
    · rw [step, hrun] at hkey
      rcases lookup_upsertLeased e k m r key with hsame | ⟨rfl, -⟩
      · refine h key (AList.lookup_isSome.mp ?_)
        rw [← hsame]
        exact AList.lookup_isSome.mpr hkey
      · exact written_key hwritten

theorem run_registered (h : Registered e) (events : List Event) :
    Registered (runEvents e events) := by
  induction events generalizing e with
  | nil => exact h
  | cons ev events ih => exact ih (step_registered h ev)

theorem front_prefix_of_registered (h : Registered e) {key : ByteString}
    (hgroup : isValidGroupOrId group) (hkey : key ∈ e) :
    kind.front group <+: key ↔ ∃ id, isValidGroupOrId id ∧ key = kind.key group id := by
  constructor
  · intro hpre
    obtain ⟨kind', g, id, hg, hid, rfl⟩ := h key hkey
    obtain ⟨rfl, rfl⟩ := (Kind.front_prefix_iff hgroup hg).mp hpre
    exact ⟨id, hid, rfl⟩
  · rintro ⟨id, -, rfl⟩
    exact prefix_append _ id

/-! ## The groups -/

def groupPart (key : ByteString) : ByteString :=
  (key.drop groupsBase.length).takeWhile (· != 47)

/-- The group of one key of the loop of `ListGroups`; a key without one is passed over. -/
def groupOfKey (key : ByteString) : Option ByteString :=
  if key.length ≤ groupsBase.length then none
  else if (key.drop groupsBase.length).contains 47 then some (groupPart key)
  else none

/-- The variables of the loop of `ListGroups`. -/
structure GroupLoop where
  prev : ByteString := []
  joined : ByteString := []
deriving DecidableEq

def GroupLoop.next (l : GroupLoop) (key : ByteString) : GroupLoop :=
  match groupOfKey key with
  | none => l
  | some g =>
    if g = l.prev then l
    else { prev := g, joined := (if l.joined.isEmpty then [] else l.joined ++ [10]) ++ g }

/-- `ListGroups`, of a server that reaches etcd. -/
def listGroups (e : Etcd) : ByteString :=
  (((rangePrefix e groupsBase).map Prod.fst).foldl GroupLoop.next {}).joined

theorem takeWhile_name {t : ByteString} (hg : (47 : UInt8) ∉ g) :
    (g ++ 47 :: t).takeWhile (· != 47) = g := by
  have hall : ∀ b ∈ g, (b != 47) := fun b hb => bne_iff_ne.mpr fun heq => hg (heq ▸ hb)
  rw [takeWhile_append_of_pos hall, takeWhile_cons]
  simp

theorem groupPart_key {id : ByteString} (hgroup : isValidGroupOrId group) :
    groupPart (kind.key group id) = group := by
  rw [groupPart, Kind.key_eq, drop_left, takeWhile_name (slash_notMem_of_valid hgroup)]

theorem groupOfKey_key {id : ByteString} (hgroup : isValidGroupOrId group) :
    groupOfKey (kind.key group id) = some group := by
  have hlen : ¬(kind.key group id).length ≤ groupsBase.length := by
    rw [Kind.key_eq, length_append, length_append, length_cons]
    omega
  have hslash : ((kind.key group id).drop groupsBase.length).contains 47 := by
    rw [Kind.key_eq, drop_left]
    simp
  rw [groupOfKey, if_neg hlen, if_pos hslash, groupPart_key hgroup]

theorem groupFront_prefix_iff {id : ByteString} (hgroup : (47 : UInt8) ∉ group)
    (hg : isValidGroupOrId g) : groupFront group <+: kind.key g id ↔ g = group := by
  rw [Kind.key_eq, groupFront]
  constructor
  · rintro ⟨t, ht⟩
    rw [append_assoc, append_assoc] at ht
    exact (cut_at_slash hgroup (slash_notMem_of_valid hg) (append_cancel_left ht)).1.symm
  · rintro rfl
    exact ⟨kind.tail ++ id, by simp⟩

theorem isEmpty_intercalate_cons {line : ByteString} (h : line ≠ []) (lines : List ByteString) :
    (intercalate [10] (line :: lines)).isEmpty = false := by
  cases lines with
  | nil => simpa using h
  | cons next lines => simp [intercalate_cons_cons]

/-- One more line: the separator stands in front of it unless there is nothing yet. -/
theorem intercalate_snoc {lines : List ByteString} (h : [] ∉ lines) :
    intercalate [10] (lines ++ [g]) =
      (if (intercalate [10] lines).isEmpty then [] else intercalate [10] lines ++ [10]) ++ g := by
  induction lines with
  | nil => simp
  | cons line lines ih =>
    have hline : line ≠ [] := fun hnil => h (hnil ▸ mem_cons_self)
    have hrest := ih fun hmem => h (mem_cons_of_mem line hmem)
    rw [isEmpty_intercalate_cons hline]
    cases lines with
    | nil => simp [intercalate_cons_cons]
    | cons next lines =>
      have hnext : next ≠ [] := by
        intro hnil
        exact h (hnil ▸ mem_cons_of_mem line mem_cons_self)
      rw [isEmpty_intercalate_cons hnext] at hrest
      simp only [cons_append, intercalate_cons_cons] at hrest ⊢
      rw [hrest]
      simp

/-- The loop joins the groups that differ from the one before. -/
theorem foldl_next {keys : List ByteString}
    (hkeys : ∀ key ∈ keys, groupOfKey key = some (groupPart key))
    (hname : ∀ key ∈ keys, groupPart key ≠ []) {lines : List ByteString} (hlines : [] ∉ lines)
    (prev : ByteString) :
    (keys.foldl GroupLoop.next ⟨prev, intercalate [10] lines⟩).joined =
      intercalate [10] (lines ++ changes prev (keys.map groupPart)) := by
  induction keys generalizing prev lines with
  | nil => simp [changes]
  | cons key keys ih =>
    have hrest := fun k hk => hkeys k (mem_cons_of_mem key hk)
    have hnames := fun k hk => hname k (mem_cons_of_mem key hk)
    rw [foldl_cons, map_cons, changes, GroupLoop.next, hkeys key mem_cons_self]
    dsimp only
    by_cases hsame : groupPart key = prev
    · rw [if_pos hsame, if_pos hsame]
      exact ih hrest hnames hlines prev
    · -- A new group is one more line.
      rw [if_neg hsame, if_neg hsame, ← intercalate_snoc hlines]
      have hlines' : [] ∉ lines ++ [groupPart key] := by
        intro hmem
        rcases mem_append.mp hmem with hmem | hmem
        · exact hlines hmem
        · exact hname key mem_cons_self (mem_singleton.mp hmem).symm
      rw [ih hrest hnames hlines' (groupPart key), append_assoc, singleton_append]

theorem sorted_rangePrefix (e : Etcd) (p : ByteString) :
    ((rangePrefix e p).map Prod.fst).Pairwise (· ≤ ·) := by
  rw [pairwise_map]
  refine List.Pairwise.imp ?_ (pairwise_mergeSort ?_ ?_ _)
  · intro a b hab
    simpa using hab
  · intro a b c hab hbc
    simp only [Bool.not_eq_true', decide_eq_false_iff_not] at hab hbc ⊢
    exact List.le_trans hab hbc
  · intro a b
    simp only [Bool.or_eq_true, Bool.not_eq_true', decide_eq_false_iff_not]
    exact List.le_total a.1 b.1

def HasKey (e : Etcd) (group : ByteString) : Prop :=
  ∃ kind : Kind, ∃ id, isValidGroupOrId id = true ∧ kind.key group id ∈ e

theorem mem_keys_rangePrefix {key : ByteString} :
    key ∈ (rangePrefix e p).map Prod.fst ↔ key ∈ e ∧ p <+: key := by
  constructor
  · intro h
    obtain ⟨kv, hkv, rfl⟩ := mem_map.mp h
    obtain ⟨hlookup, hpre⟩ := mem_rangePrefix.mp hkv
    exact ⟨AList.lookup_isSome.mp (by rw [hlookup]; rfl), hpre⟩
  · rintro ⟨hkey, hpre⟩
    obtain ⟨val, hval⟩ := Option.isSome_iff_exists.mp (AList.lookup_isSome.mpr hkey)
    exact mem_map.mpr ⟨(key, val), mem_rangePrefix.mpr ⟨hval, hpre⟩, rfl⟩

/-- `ListGroups` answers each group with a member or a client once, on lines of their own. -/
theorem listGroups_spec (h : Registered e) : ∃ groups : List ByteString, groups.Nodup ∧
      (∀ group, group ∈ groups ↔ isValidGroupOrId group ∧ HasKey e group) ∧
      listGroups e = intercalate [10] groups := by
  set keys := (rangePrefix e groupsBase).map Prod.fst with hdef
  -- Every key read is the key of a valid group.
  have hread : ∀ key ∈ keys, ∃ kind : Kind, ∃ group id, isValidGroupOrId group ∧
      isValidGroupOrId id ∧ key = kind.key group id :=
    fun key hkey => h key (mem_keys_rangePrefix.mp hkey).1
  have hname : ∀ key ∈ keys, groupPart key ≠ [] := by
    intro key hkey hnil
    obtain ⟨kind, group, id, hgroup, -, rfl⟩ := hread key hkey
    rw [groupPart_key hgroup] at hnil
    exact absurd hgroup (by rw [hnil]; decide)
  have htogether : Together (keys.map groupPart) := by
    apply together_map_of_sorted (sorted_rangePrefix e groupsBase)
      (f := groupFront)
    · intro key hkey
      obtain ⟨kind, group, id, hgroup, -, rfl⟩ := hread key hkey
      rw [groupPart_key hgroup]
      exact (groupFront_prefix_iff (slash_notMem_of_valid hgroup) hgroup).mpr rfl
    · intro key hkey key' hkey' hpre
      obtain ⟨kind, group, id, hgroup, -, rfl⟩ := hread key hkey
      obtain ⟨kind', group', id', hgroup', -, rfl⟩ := hread key' hkey'
      rw [groupPart_key hgroup'] at hpre ⊢
      rw [groupPart_key hgroup]
      exact (groupFront_prefix_iff (slash_notMem_of_valid hgroup') hgroup).mp hpre
  refine ⟨changes [] (keys.map groupPart), nodup_changes htogether, fun group => ?_, ?_⟩
  · have hnil : [] ∉ keys.map groupPart := by
      intro hmem
      obtain ⟨key, hkey, heq⟩ := mem_map.mp hmem
      exact hname key hkey heq
    rw [mem_changes hnil]
    constructor
    · intro hmem
      obtain ⟨key, hkey, rfl⟩ := mem_map.mp hmem
      obtain ⟨kind, group, id, hgroup, hid, rfl⟩ := hread key hkey
      rw [groupPart_key hgroup]
      exact ⟨hgroup, kind, id, hid, (mem_keys_rangePrefix.mp hkey).1⟩
    · rintro ⟨hgroup, kind, id, -, hkey⟩
      refine mem_map.mpr ⟨kind.key group id, mem_keys_rangePrefix.mpr ⟨hkey, ?_⟩,
        groupPart_key hgroup⟩
      rw [Kind.key_eq]
      exact prefix_append _ _
  · have hgroups : ∀ key ∈ keys, groupOfKey key = some (groupPart key) := by
      intro key hkey
      obtain ⟨kind, group, id, hgroup, -, rfl⟩ := hread key hkey
      rw [groupOfKey_key hgroup, groupPart_key hgroup]
    exact foldl_next hgroups hname not_mem_nil []

/-- Keys of different groups, ids or kinds are different; the range of a prefix holds exactly the
keys with it; so, in every state the servers leave etcd in, the range of a group and kind holds
exactly what is registered there, and `ListGroups` answers every group with a key once and nothing
else. -/
theorem keys_apart_and_listed (events : List Event) :
    (∀ group g id id', isValidGroupOrId group = true → isValidGroupOrId g = true →
      isValidGroupOrId id = true → isValidGroupOrId id' = true →
      (memberKey group id = memberKey g id' → group = g ∧ id = id') ∧
      (clientKey group id = clientKey g id' → group = g ∧ id = id') ∧
      memberKey group id ≠ clientKey g id') ∧
    (∀ p key, inRange p (prefixRangeEnd p) key = true ↔ p <+: key) ∧
    (∀ kind : Kind, ∀ group, isValidGroupOrId group = true → ∀ key,
      key ∈ (rangePrefix (runEvents ∅ events) (kind.front group)).map Prod.fst ↔
        ∃ id, isValidGroupOrId id = true ∧ key = kind.key group id ∧
          key ∈ runEvents ∅ events) ∧
    (∀ e p, rangePrefix e p = sortBy (fun a b => decide (a.1 < b.1))
      ((e.entries.map fun kv => (kv.1, kv.2)).filter
        fun kv => inRange p (prefixRangeEnd p) kv.1)) ∧
    ∃ groups : List ByteString, groups.Nodup ∧
      (∀ group, group ∈ groups ↔
        isValidGroupOrId group = true ∧ HasKey (runEvents ∅ events) group) ∧
      listGroups (runEvents ∅ events) = List.intercalate [10] groups := by
  have hreg := run_registered registered_empty events
  refine ⟨fun group g id id' hgroup hg _ _ => ⟨fun h => ?_, fun h => ?_, fun h => ?_⟩,
    inRange_prefixRangeEnd, fun kind group hgroup key => ?_, rangePrefix_eq_range,
    listGroups_spec hreg⟩
  · exact (Kind.key_inj .member .member hgroup hg h).2
  · exact (Kind.key_inj .client .client hgroup hg h).2
  · have hkind := (Kind.key_inj .member .client hgroup hg h).1
    exact absurd hkind (by decide)
  · rw [mem_keys_rangePrefix]
    constructor
    · rintro ⟨hkey, hpre⟩
      obtain ⟨id, hid, heq⟩ := (front_prefix_of_registered hreg hgroup hkey).mp hpre
      exact ⟨id, hid, heq, hkey⟩
    · rintro ⟨id, -, rfl, hkey⟩
      exact ⟨hkey, List.prefix_append _ id⟩

end DingoCache.Mds
