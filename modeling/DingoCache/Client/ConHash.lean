import DingoCache.Client.Discovery
import DingoCache.Library.PointRing

/-!
# Routing by Consistent Hash

`ConHash` of `src/utils/con_hash.cc`, and the ring that `KVClient::SetMembers` builds of
the members.  MD5 is any function from texts to 16 bytes.

- `attracts_build`: what two builds differ in stays where later nodes are placed.
-/

namespace DingoCache.Client

open Library Mds PointRing

/-! ## The ring -/

abbrev Md5 := ByteString → Fin 16 → UInt8

/-- A point: the four bytes of a digest from `4 * h` on, the first one the lowest. -/
def pointAt (d : Fin 16 → UInt8) (h : Fin 4) : Nat :=
  getLE ((List.finRange 4).map fun i : Fin 4 => d ⟨4 * h.val + i.val, by omega⟩)

/-- `name + "-" + std::to_string(k)`. -/
def vnodeName (name : ByteString) (k : Nat) : ByteString :=
  name ++ '-'.toUInt8 :: (Nat.toDigits 10 k).map Char.toUInt8

def addNode (nodes : List (ByteString × Int)) (node : ByteString × Int) : List (ByteString × Int) :=
  nodes ++ [(node.1, if node.2 < 1 then 1 else node.2)]

/-- `keys` of `Build`: 40 for each unit of the weight, clamped to 1..1024. -/
def vnodeKeys (weight : Int) : Nat :=
  (40 * (if weight < 1 then 1 else if 1024 < weight then 1024 else weight)).toNat

/-- The points of a node, in the order of the loops of `Build`. -/
def nodePoints (md5 : Md5) (node : ByteString × Int) : List Nat :=
  (List.range (vnodeKeys node.2)).flatMap fun k =>
    (List.finRange 4).map fun h => pointAt (md5 (vnodeName node.1 k)) h

/-- The turn of a node in `Build`; a point that is there already changes its owner. -/
def placeNode (md5 : Md5) (ring : PointRing Nat ByteString) (node : ByteString × Int) :
    PointRing Nat ByteString :=
  ring.assign (nodePoints md5 node) node.1

def build (md5 : Md5) (nodes : List (ByteString × Int)) : PointRing Nat ByteString :=
  nodes.foldl (placeNode md5) ∅

def lookup (md5 : Md5) (ring : PointRing Nat ByteString) (key : ByteString) : Option ByteString :=
  ring.locate (pointAt (md5 key) 0)

def memberRing (md5 : Md5) (members : List MemberInfo) : PointRing Nat ByteString :=
  build md5 ((setMembers members).nodes.foldl addNode [])

/-- The node that `KVClient::Route` finds for a key. -/
def route (md5 : Md5) (members : List MemberInfo) (key : ByteString) : Option ByteString :=
  lookup md5 (memberRing md5 members) key

def memberPoints (md5 : Md5) (m : MemberInfo) : List Nat :=
  nodePoints md5 (m.id, nodeWeight m.weight)

variable {md5 : Md5} {members l l' : List MemberInfo} {m : MemberInfo} {p : Nat} {v : ByteString}
  {nodes nodes' : List (ByteString × Int)} {node : ByteString × Int}
  {r r' : PointRing Nat ByteString}

/-! ## Owners of points -/

theorem vnodeKeys_clamp (weight : Int) :
    vnodeKeys (if weight < 1 then 1 else weight) = vnodeKeys weight := by
  unfold vnodeKeys
  split <;> split <;> simp_all

theorem foldl_addNode (nodes acc : List (ByteString × Int)) : nodes.foldl addNode acc =
      acc ++ nodes.map fun node => (node.1, if node.2 < 1 then 1 else node.2) := by
  induction nodes generalizing acc with
  | nil => simp
  | cons node nodes ih => rw [List.foldl_cons, ih, addNode, List.append_assoc]; rfl

theorem memberRing_eq (md5 : Md5) (members : List MemberInfo) : memberRing md5 members =
    build md5 ((placementOf members).map fun m => (m.id, nodeWeight m.weight)) := by
  rw [memberRing, setMembers, nodes_foldl, foldl_addNode, List.nil_append, List.nil_append]
  unfold build
  rw [List.map_map, List.foldl_map, List.foldl_map]
  simp [placeNode, nodePoints, vnodeKeys_clamp]

theorem memberRing_snoc (hm : m.ringEligible) : memberRing md5 (members ++ [m]) =
    (memberRing md5 members).assign (memberPoints md5 m) m.id := by
  simp [memberRing_eq, placementOf, build, hm, placeNode, memberPoints]

theorem lookup_build_snoc (nodes : List (ByteString × Int)) (node : ByteString × Int) (p : Nat) :
    (build md5 (nodes ++ [node])).lookup p =
      if p ∈ nodePoints md5 node then some node.1 else (build md5 nodes).lookup p := by
  rw [build, List.foldl_append, List.foldl_cons, List.foldl_nil, placeNode, lookup_assign]
  rfl

theorem lookup_build (h : (build md5 nodes).lookup p = some v) :
    ∃ node ∈ nodes, node.1 = v ∧ p ∈ nodePoints md5 node := by
  induction nodes using List.reverseRecOn with
  | nil => simp [build] at h
  | append_singleton nodes node ih =>
    rw [lookup_build_snoc] at h
    split at h
    · exact ⟨node, by simp, Option.some.inj h, ‹_›⟩
    · obtain ⟨n, hn, hv, hp⟩ := ih h
      exact ⟨n, by simp [hn], hv, hp⟩

theorem mem_keys_build (hn : node ∈ nodes) (hp : p ∈ nodePoints md5 node) :
    p ∈ (build md5 nodes).keys := by
  rw [mem_keys]
  induction nodes using List.reverseRecOn with
  | nil => simp at hn
  | append_singleton nodes last ih =>
    rw [lookup_build_snoc]
    split
    · exact ⟨_, rfl⟩
    · rcases List.mem_append.mp hn with hn | hn
      · exact ih hn
      · exact absurd (List.mem_singleton.mp hn ▸ hp) ‹_›

theorem lookup_memberRing (h : (memberRing md5 members).lookup p = some v) :
    ∃ m ∈ members, m.ringEligible ∧ m.id = v ∧ p ∈ memberPoints md5 m := by
  rw [memberRing_eq] at h
  obtain ⟨node, hn, hv, hp⟩ := lookup_build h
  obtain ⟨m, hm, rfl⟩ := List.mem_map.mp hn
  obtain ⟨hmem, hel⟩ := List.mem_filter.mp hm
  exact ⟨m, hmem, hel, hv, hp⟩

theorem mem_keys_memberRing : p ∈ (memberRing md5 members).keys ↔
    ∃ m ∈ members, m.ringEligible ∧ p ∈ memberPoints md5 m := by
  constructor
  · intro h
    obtain ⟨v, hv⟩ := mem_keys.mp h
    obtain ⟨m, hm, hel, -, hp⟩ := lookup_memberRing hv
    exact ⟨m, hm, hel, hp⟩
  · rintro ⟨m, hm, hel, hp⟩
    rw [memberRing_eq]
    exact mem_keys_build (List.mem_map.mpr ⟨m, List.mem_filter.mpr ⟨hm, hel⟩, rfl⟩) hp

/-! ## One node more -/

theorem attracts_build (nodes : List (ByteString × Int)) (h : Attracts v r r') :
    Attracts v (nodes.foldl (placeNode md5) r) (nodes.foldl (placeNode md5) r') := by
  induction nodes generalizing r r' with
  | nil => exact h
  | cons node nodes ih => exact ih (h.assign _ _)

theorem attracts_placeNode (r : PointRing Nat ByteString) :
    Attracts node.1 r (placeNode md5 r node) := by
  intro p
  rw [placeNode, lookup_assign]
  split
  · exact .inl rfl
  · exact .inr rfl

theorem build_ne_empty (hn : node ∈ nodes) : build md5 nodes ≠ ∅ := by
  intro h
  have hkeys : 0 < vnodeKeys node.2 := by
    unfold vnodeKeys
    split
    · decide
    · split <;> omega
  have hp : pointAt (md5 (vnodeName node.1 0)) 0 ∈ nodePoints md5 node :=
    List.mem_flatMap.mpr
      ⟨0, List.mem_range.mpr hkeys, List.mem_map.mpr ⟨0, List.mem_finRange 0, rfl⟩⟩
  have hmem := mem_keys_build hn hp
  rw [h, Finmap.keys_empty] at hmem
  cases hmem

/-- A node inserted at any position takes keys for itself and moves no other key, and a lookup fails
only without nodes. -/
theorem insertion_moves_to_new_node (md5 : Md5) (a b : List (ByteString × Int))
    (node : ByteString × Int) (key : ByteString) :
    (lookup md5 (build md5 (a ++ node :: b)) key ≠ lookup md5 (build md5 (a ++ b)) key →
      lookup md5 (build md5 (a ++ node :: b)) key = some node.1) ∧
    (lookup md5 (build md5 (a ++ node :: b)) key ≠ some node.1 →
      lookup md5 (build md5 (a ++ b)) key = lookup md5 (build md5 (a ++ node :: b)) key) ∧
    ∀ nodes, (lookup md5 (build md5 nodes) key = none ↔ build md5 nodes = ∅) ∧
      (build md5 nodes = ∅ ↔ nodes = []) := by
  have hatt : Attracts node.1 (build md5 (a ++ b)) (build md5 (a ++ node :: b)) := by
    rw [build, build, List.foldl_append, List.foldl_append, List.foldl_cons]
    exact attracts_build b (attracts_placeNode _)
  have hloc := hatt.locate (pointAt (md5 key) 0)
  refine ⟨hloc.resolve_right, fun hne => (hloc.resolve_left hne).symm,
    fun nodes => ⟨locate_eq_none, fun hempty => ?_, ?_⟩⟩
  · cases nodes with
    | nil => rfl
    | cons node nodes => exact absurd hempty (build_ne_empty (List.mem_cons_self))
  · rintro rfl
    rfl

/-! ## The order of the members -/

/-- The points of the eligible members. -/
def eligiblePoints (md5 : Md5) (members : List MemberInfo) : Finset Nat :=
  ((placementOf members).flatMap (memberPoints md5)).toFinset

/-- Of the members' points `p` is the first from the point of the key on. -/
def DecidedAt (md5 : Md5) (members : List MemberInfo) (key : ByteString) (p : Nat) : Prop :=
  IsNext (eligiblePoints md5 members) (pointAt (md5 key) 0) p

theorem mem_eligiblePoints : p ∈ eligiblePoints md5 members ↔
    ∃ m ∈ members, m.ringEligible ∧ p ∈ memberPoints md5 m := by
  simp [eligiblePoints, placementOf, and_assoc]

/-- Every order of the members gives a ring of the same points. -/
theorem keys_memberRing (h : l.Perm members) :
    (memberRing md5 l).keys = eligiblePoints md5 members := by
  ext p
  simp [mem_keys_memberRing, mem_eligiblePoints, h.mem_iff]

theorem route_of_decidedAt {key : ByteString} (hl : l.Perm members)
    (hp : DecidedAt md5 members key p) : route md5 l key = (memberRing md5 l).lookup p := by
  rw [DecidedAt, ← keys_memberRing hl] at hp
  rw [route, lookup, locate, next_eq_some.mpr hp]
  rfl

theorem route_snoc {key : ByteString} (hm : m.ringEligible) (hp : p ∈ memberPoints md5 m)
    (hl : (l ++ [m]).Perm members) (hd : DecidedAt md5 members key p) :
    route md5 (l ++ [m]) key = some m.id := by
  rw [route_of_decidedAt hl hd, memberRing_snoc hm, lookup_assign, if_pos hp]

/-- Every order of the members gives the same routes exactly if no key is decided at a point of two
eligible members. -/
theorem same_routes_iff (md5 : Md5) (members : List MemberInfo)
    (hids : (members.map MemberInfo.id).Nodup) :
    (∀ l l', l.Perm members → l'.Perm members → ∀ key, route md5 l key = route md5 l' key) ↔
      ∀ key p, DecidedAt md5 members key p → ∀ m ∈ members, ∀ n ∈ members,
        m.ringEligible = true → n.ringEligible = true →
        p ∈ memberPoints md5 m → p ∈ memberPoints md5 n → m = n := by
  constructor
  · intro h key p hp m hm n hn hme hne hpm hpn
    -- each of the two may be the last writer of the point
    have hlast : ∀ x ∈ members, (members.erase x ++ [x]).Perm members := fun x hx =>
      (List.perm_append_singleton x _).trans (List.perm_cons_erase hx).symm
    have hid := h _ _ (hlast m hm) (hlast n hn) key
    rw [route_snoc hme hpm (hlast m hm) hp, route_snoc hne hpn (hlast n hn) hp,
      Option.some.injEq] at hid
    exact List.inj_on_of_nodup_map hids hm hn hid
  · intro h l l' hl hl' key
    cases hn : next (eligiblePoints md5 members) (pointAt (md5 key) 0) with
    | none =>
      have hroute : ∀ {x : List MemberInfo}, x.Perm members → route md5 x key = none := by
        intro x hx
        rw [route, lookup, locate, keys_memberRing hx, hn]
        rfl
      rw [hroute hl, hroute hl']
    | some p =>
      have hp : DecidedAt md5 members key p := isNext_of_next hn
      have howner : ∀ {x : List MemberInfo}, x.Perm members → ∃ m ∈ members,
          m.ringEligible = true ∧ p ∈ memberPoints md5 m ∧ route md5 x key = some m.id := by
        intro x hx
        have hmem := hp.1
        rw [← keys_memberRing hx] at hmem
        obtain ⟨v, hv⟩ := mem_keys.mp hmem
        obtain ⟨m, hm, hel, rfl, hpm⟩ := lookup_memberRing hv
        exact ⟨m, hx.mem_iff.mp hm, hel, hpm, (route_of_decidedAt hx hp).trans hv⟩
      obtain ⟨m, hm, hme, hpm, hrm⟩ := howner hl
      obtain ⟨n, hn, hne, hpn, hrn⟩ := howner hl'
      rw [hrm, hrn, h key p hp m hm n hn hme hne hpm hpn]

theorem route_collision {m : MemberInfo} (hm : m.ringEligible)
    (hw : 0 < vnodeKeys (nodeWeight m.weight)) (l : List MemberInfo) :
    route (fun _ _ => 0) (l ++ [m]) [] = some m.id := by
  have hzero : 0 ∈ memberPoints (fun _ _ => 0) m := List.mem_flatMap.mpr
    ⟨0, List.mem_range.mpr hw, List.mem_map.mpr ⟨0, List.mem_finRange 0, rfl⟩⟩
  exact route_snoc hm hzero (.refl _) ⟨mem_eligiblePoints.mpr ⟨m, by simp, hm, hzero⟩,
    .inl ⟨by decide, fun q _ _ => Nat.zero_le q⟩⟩

theorem order_decides_collision :
    let m : MemberInfo := { id := [97], ip := [] }
    let n : MemberInfo := { id := [98], ip := [] }
    route (fun _ _ => 0) [m, n] [] = some [98] ∧ route (fun _ _ => 0) [n, m] [] = some [97] :=
  ⟨route_collision rfl (by decide) [_], route_collision rfl (by decide) [_]⟩

/-! ## The weight of a member -/

theorem nodePoints_mono {name : ByteString} {w w' : Int} (h : vnodeKeys w ≤ vnodeKeys w')
    (hp : p ∈ nodePoints md5 (name, w)) : p ∈ nodePoints md5 (name, w') := by
  obtain ⟨k, hk, hp⟩ := List.mem_flatMap.mp hp
  exact List.mem_flatMap.mpr ⟨k, List.mem_range.mpr ((List.mem_range.mp hk).trans_le h), hp⟩

theorem memberRing_middle (pre post : List MemberInfo) (m : MemberInfo) :
    memberRing md5 (pre ++ m :: post) =
      ((placementOf post).map fun m => (m.id, nodeWeight m.weight)).foldl (placeNode md5)
        (if m.ringEligible then (memberRing md5 pre).assign (memberPoints md5 m) m.id
          else memberRing md5 pre) := by
  cases hm : m.ringEligible with
  | false => simp [memberRing_eq, placementOf, build, hm]
  | true => simp [memberRing_eq, placementOf, build, hm, placeNode, memberPoints]

theorem attracts_weight (pre post : List MemberInfo) (m : MemberInfo) {w w' : UInt32}
    (h : vnodeKeys (nodeWeight w) ≤ vnodeKeys (nodeWeight w')) :
    Attracts m.id (memberRing md5 (pre ++ { m with weight := w } :: post))
      (memberRing md5 (pre ++ { m with weight := w' } :: post)) := by
  rw [memberRing_middle, memberRing_middle]
  refine attracts_build _ ?_
  cases hm : m.ringEligible with
  | false =>
    have hoff : ∀ x : UInt32, { m with weight := x }.ringEligible = false := fun _ => hm
    simp only [hoff, Bool.false_eq_true, if_false]
    exact fun p => .inr rfl
  | true =>
    have hon : ∀ x : UInt32, { m with weight := x }.ringEligible := fun _ => hm
    simp only [hon, if_true]
    intro p
    rw [lookup_assign, lookup_assign]
    by_cases hp : p ∈ memberPoints md5 { m with weight := w' }
    · exact .inl (if_pos hp)
    · have hno : p ∉ memberPoints md5 { m with weight := w } := fun hw => hp (nodePoints_mono h hw)
      exact .inr (by rw [if_neg hp, if_neg hno])

theorem vnodeKeys_nodeWeight (w : UInt32) : vnodeKeys (nodeWeight w) =
    if w.toNat < 2 ^ 31 then 40 * min (max w.toNat 1) 1024 else 40 := by
  have hlt := w.toNat_lt
  have hone : w < 1 ↔ w.toNat < 1 := UInt32.lt_iff_toNat_lt
  unfold vnodeKeys
  by_cases h0 : w.toNat < 1
  · have hw : nodeWeight w = 1 := if_pos (hone.mpr h0)
    rw [hw, if_pos (show w.toNat < 2 ^ 31 by omega), Nat.max_eq_right (by omega)]
    rfl
  · have hw : nodeWeight w = w.toBitVec.toInt := if_neg fun h => h0 (hone.mp h)
    rw [hw, BitVec.toInt_eq_toNat_cond, UInt32.toNat_toBitVec]
    by_cases h31 : w.toNat < 2 ^ 31
    · rw [if_pos (show 2 * w.toNat < 2 ^ 32 by omega), if_pos h31, if_neg (by omega)]
      split <;> omega
    · rw [if_neg (show ¬2 * w.toNat < 2 ^ 32 by omega), if_neg h31, if_pos (by omega)]
      rfl

def constDigest (v : UInt8) : Fin 16 → UInt8 := fun i => if i.val % 4 = 0 then v else 0

theorem pointAt_constDigest (v : UInt8) (h : Fin 4) : pointAt (constDigest v) h = v.toNat := by
  fin_cases h <;> simp [pointAt, constDigest, List.finRange_succ, getLE]

/-- A hash for which the 41st name of the node `name` decides the route of the empty key, before the
names that begin with `other`. -/
def skewed (name : ByteString) (other : UInt8) : Md5 := fun s =>
  constDigest (if s = vnodeName name 40 then 1 else if s.head? = some other then 2
    else if s = [] then 1 else 3)

theorem vnodeName_ne_nil (name : ByteString) (k : Nat) : vnodeName name k ≠ [] := by
  simp [vnodeName]

theorem vnodeName_ne (name : ByteString) : ∀ k < 40, vnodeName name k ≠ vnodeName name 40 := by
  intro k hk h
  have hsuffix : ∀ k < 40, '-'.toUInt8 :: (Nat.toDigits 10 k).map Char.toUInt8 ≠
      '-'.toUInt8 :: (Nat.toDigits 10 40).map Char.toUInt8 := by decide
  exact hsuffix k hk (List.append_cancel_left h)

section Skewed

variable {name : ByteString} {other : UInt8} {a b : MemberInfo}

theorem mem_memberPoints_skewed : p ∈ memberPoints (skewed name other) m ↔
    ∃ k < vnodeKeys (nodeWeight m.weight), p = (if vnodeName m.id k = vnodeName name 40 then 1
      else if (vnodeName m.id k).head? = some other then 2 else 3 : UInt8).toNat := by
  simp only [memberPoints, nodePoints, List.mem_flatMap, List.mem_range, List.mem_map, skewed,
    pointAt_constDigest, List.mem_finRange, true_and, exists_const, vnodeName_ne_nil, if_false]
  simp only [eq_comm]

theorem pointAt_skewed : pointAt (skewed name other []) 0 = 1 := by
  rw [skewed, pointAt_constDigest, if_neg (vnodeName_ne_nil name 40).symm]
  rfl

variable (hne : ∀ k, (vnodeName name k).head? ≠ some other) (ha : a.id = name)
  (hb : b.id = [other]) (hbe : b.ringEligible = true)

include hne hb in
theorem mem_memberPoints_second : p ∈ memberPoints (skewed name other) b ↔ p = 2 := by
  have hname (k : Nat) : vnodeName b.id k ≠ vnodeName name 40 := by
    intro h
    refine hne 40 ?_
    rw [← h, hb]
    rfl
  have hhead (k : Nat) : (vnodeName b.id k).head? = some other := by
    rw [hb]
    rfl
  simp only [mem_memberPoints_skewed, hname, hhead, if_true, if_false]
  constructor
  · rintro ⟨k, -, rfl⟩
    rfl
  · rintro rfl
    refine ⟨0, ?_, rfl⟩
    rw [vnodeKeys_nodeWeight]
    split <;> omega

include hne ha in
theorem mem_memberPoints_first (hk : vnodeKeys (nodeWeight a.weight) ≤ 40)
    (hp : p ∈ memberPoints (skewed name other) a) : p = 3 := by
  obtain ⟨k, hlt, rfl⟩ := mem_memberPoints_skewed.mp hp
  rw [ha, if_neg (vnodeName_ne name k (by omega)), if_neg (hne k)]
  rfl

include hne ha hb hbe

theorem skewed_first (hae : a.ringEligible) (hk : 40 < vnodeKeys (nodeWeight a.weight)) :
    route (skewed name other) [a, b] [] = some name := by
  have hone : 1 ∈ memberPoints (skewed name other) a :=
    mem_memberPoints_skewed.mpr ⟨40, hk, by rw [ha, if_pos rfl]; rfl⟩
  have hd : DecidedAt (skewed name other) ([a] ++ [b]) [] 1 := by
    refine ⟨mem_eligiblePoints.mpr ⟨a, by simp, hae, hone⟩,
      .inl ⟨pointAt_skewed.le, fun q _ hq => ?_⟩⟩
    rwa [pointAt_skewed] at hq
  have hb1 : 1 ∉ memberPoints (skewed name other) b := by simp [mem_memberPoints_second hne hb]
  have hfirst : memberRing (skewed name other) ([] ++ [a]) = _ := memberRing_snoc hae
  rw [List.nil_append] at hfirst
  rw [← List.singleton_append, route_of_decidedAt (List.Perm.refl _) hd, memberRing_snoc hbe,
    lookup_assign, if_neg hb1, hfirst, lookup_assign, if_pos hone, ha]

theorem skewed_second (hk : vnodeKeys (nodeWeight a.weight) ≤ 40) :
    route (skewed name other) [a, b] [] = some [other] := by
  have htwo : 2 ∈ memberPoints (skewed name other) b := (mem_memberPoints_second hne hb).mpr rfl
  rw [← List.singleton_append, ← hb]
  refine route_snoc hbe htwo (.refl _)
    ⟨mem_eligiblePoints.mpr ⟨b, by simp, hbe, htwo⟩, .inl ⟨?_, ?_⟩⟩
  · rw [pointAt_skewed]
    decide
  · intro q hq _
    obtain ⟨m, hm, -, hp⟩ := mem_eligiblePoints.mp hq
    rcases List.mem_pair.mp hm with rfl | rfl
    · have := mem_memberPoints_first hne ha hk hp
      omega
    · exact ((mem_memberPoints_second hne hb).mp hp).ge

end Skewed

theorem head_vnodeName_ne (k : Nat) : (vnodeName [97] k).head? ≠ some 98 := by
  simp [vnodeName]

/-- Two eligible members without a point in common are found in either order. -/
theorem same_routes_apart :
    route (skewed [97] 98) [{ id := [97], ip := [] }, { id := [98], ip := [] }] [] =
      route (skewed [97] 98) [{ id := [98], ip := [] }, { id := [97], ip := [] }] [] := by
  refine (same_routes_iff (skewed [97] 98) _ (by decide)).mpr ?_ _ _ (.refl _) (.swap ..) []
  have hfirst {p : Nat} : p ∈ memberPoints (skewed [97] 98) { id := [97], ip := [] } → p = 3 :=
    mem_memberPoints_first head_vnodeName_ne rfl (by decide)
  have hsecond {p : Nat} : p ∈ memberPoints (skewed [97] 98) { id := [98], ip := [] } → p = 2 :=
    (mem_memberPoints_second head_vnodeName_ne rfl).mp
  intro _ p _ m hm n hn _ _ hpm hpn
  rcases List.mem_pair.mp hm with rfl | rfl <;> rcases List.mem_pair.mp hn with rfl | rfl
  · rfl
  · exact absurd ((hfirst hpm).symm.trans (hsecond hpn)) (by decide)
  · exact absurd ((hsecond hpm).symm.trans (hfirst hpn)) (by decide)
  · rfl

/-- Some byte begins no name of a node. -/
theorem exists_other (name : ByteString) : ∃ other : UInt8, name ≠ [other] ∧
    ∀ k, (vnodeName name k).head? ≠ some other := by
  cases name with
  | nil => exact ⟨0, by simp, fun k h => absurd (Option.some.inj h) (by decide)⟩
  | cons c rest => exact ⟨c + 1, by simp, fun k => by simp [vnodeName]⟩

/-- A larger weight of a member takes keys for it and moves no other key, in all rings, exactly if
the member is not eligible or the cast does not turn the weight into a smaller one. -/
theorem raised_weight_attracts_iff (m : MemberInfo) (w w' : UInt32) (hw : w ≤ w') :
    (∀ (md5 : Md5) (pre post : List MemberInfo),
      ((pre ++ m :: post).map MemberInfo.id).Nodup → ∀ key,
      (route md5 (pre ++ { m with weight := w } :: post) key = some m.id →
        route md5 (pre ++ { m with weight := w' } :: post) key = some m.id) ∧
      (route md5 (pre ++ { m with weight := w' } :: post) key ≠
          route md5 (pre ++ { m with weight := w } :: post) key →
        route md5 (pre ++ { m with weight := w' } :: post) key = some m.id)) ↔
      m.ringEligible = false ∨ w' < 2 ^ 31 ∨ w ≤ 1 ∨ 2 ^ 31 ≤ w := by
  have hle : w.toNat ≤ w'.toNat := UInt32.le_iff_toNat_le.mp hw
  have h31 : ∀ x : UInt32, x < 2 ^ 31 ↔ x.toNat < 2 ^ 31 := fun _ => UInt32.lt_iff_toNat_lt
  have h31' : 2 ^ 31 ≤ w ↔ 2 ^ 31 ≤ w.toNat := UInt32.le_iff_toNat_le
  have h1 : w ≤ 1 ↔ w.toNat ≤ 1 := UInt32.le_iff_toNat_le
  rw [h31, h31', h1]
  constructor
  · intro h
    by_contra hno
    have hk := vnodeKeys_nodeWeight w
    have hk' := vnodeKeys_nodeWeight w'
    rw [if_pos (by omega)] at hk
    rw [if_neg (by omega)] at hk'
    obtain ⟨other, hname, hne⟩ := exists_other m.id
    have hm : m.ringEligible = true := by
      by_contra hm
      exact hno (.inl (by simpa using hm))
    have hhad : route (skewed m.id other) [{ m with weight := w }, { id := [other], ip := [] }] [] =
        some m.id := skewed_first hne rfl rfl rfl hm (by dsimp only; omega)
    have hlost : route (skewed m.id other) [{ m with weight := w' },
      { id := [other], ip := [] }] [] =
        some [other] := skewed_second hne rfl rfl rfl hk'.le
    have hstay := (h (skewed m.id other) [] [{ id := [other], ip := [] }] (by simp [hname]) []).1
    simp only [List.nil_append, hhad, hlost, Option.some.injEq] at hstay
    exact hname (hstay trivial).symm
  · intro h md5 pre post _ key
    cases hm : m.ringEligible with
    | false =>
      -- The ring does not contain the member.
      have hout (x : UInt32) : ({ m with weight := x } : MemberInfo).ringEligible = false := hm
      have hsame : memberRing md5 (pre ++ { m with weight := w' } :: post) =
          memberRing md5 (pre ++ { m with weight := w } :: post) := by
        simp only [memberRing_middle, hout, Bool.false_eq_true, if_false]
      rw [route, route, hsame]
      exact ⟨id, fun hdiff => absurd rfl hdiff⟩
    | true =>
    replace h := h.resolve_left (by simp [hm])
    have hkeys : vnodeKeys (nodeWeight w) ≤ vnodeKeys (nodeWeight w') := by
      rw [vnodeKeys_nodeWeight, vnodeKeys_nodeWeight]
      split <;> split <;> omega
    have hatt : Attracts m.id (memberRing md5 _) (memberRing md5 _) :=
      attracts_weight pre post m hkeys
    have hloc := hatt.locate (pointAt (md5 key) 0)
    exact ⟨fun hroute => hloc.elim id fun heq => heq.trans hroute, hloc.resolve_right⟩

/-- From weight 2 to weight `2 ^ 31` the member loses a key. -/
theorem huge_weight_loses_key :
    route (skewed [97] 98) [{ id := [97], ip := [], weight := 2 }, { id := [98], ip := [] }] [] =
        some [97] ∧
      route (skewed [97] 98) [{ id := [97], ip := [], weight := 2 ^ 31 }, { id := [98], ip := [] }]
        [] = some [98] :=
  ⟨skewed_first head_vnodeName_ne rfl rfl rfl rfl (by decide),
    skewed_second head_vnodeName_ne rfl rfl rfl (by decide)⟩

/-- From weight 1 to weight 2 a member keeps its key. -/
theorem doubled_weight_attracts :
    route (fun _ _ => 0) [{ id := [98], ip := [] }, { id := [97], ip := [], weight := 2 }] [] =
      some [97] :=
  ((raised_weight_attracts_iff { id := [97], ip := [] } 1 2 (by decide)).mpr
    (.inr (.inl (by decide))) (fun _ _ => 0) [{ id := [98], ip := [] }] [] (by decide) []).1
    (route_collision rfl (by decide) [_])

end DingoCache.Client
