import DingoCache.Library.ProbeTable
import DingoCache.Slab.Model

/-!
# FlatKeyIndex

`SlabAllocator::FlatKeyIndex` of `src/cache/slab_allocator.cc`, the table under the key index
of the allocator, and that it is the finite map `KeyIndex` the allocator is modelled with.
-/

namespace DingoCache.Slab

open Library Library.ProbeTable
open Function (update)

/-- `entries_` with its size, and the two counters of the table. -/
structure FlatKeyIndex where
  entries : Nat → Bucket BlockKey Nat := fun _ => .empty
  capacity : Nat := 0
  size : Nat := 0
  tombstones : Nat := 0

namespace FlatKeyIndex

def mix (value : UInt64) : UInt64 :=
  let value := (value ^^^ (value >>> 30)) * 0xbf58476d1ce4e5b9
  let value := (value ^^^ (value >>> 27)) * 0x94d049bb133111eb
  value ^^^ (value >>> 31)

def hash (key : BlockKey) : UInt64 :=
  mix (mix (key.digestHi + 0x9e3779b97f4a7c15) ^^^ mix (key.digestLo + 0x3c6ef372fe94f82a) ^^^
    mix (key.tenantHash + 0xdaa66d2c7ddef743))

def home (capacity : Nat) (key : BlockKey) : Nat :=
  (hash key).toNat &&& (capacity - 1)

def next (capacity b : Nat) : Nat :=
  (b + 1) &&& (capacity - 1)

/-- The bucket and the value that `Find` points at. -/
def lookup (x : FlatKeyIndex) (key : BlockKey) : Option (Nat × Nat) :=
  if x.capacity = 0 then none
  else lookupBucket (next x.capacity) x.capacity x.entries (home x.capacity key) key

def find (x : FlatKeyIndex) (key : BlockKey) : Option Nat :=
  (x.lookup key).map Prod.snd

/-- `while (again(c)) c *= 2`. -/
def doubled (again : Nat → Bool) : Nat → Nat → Nat
  | 0, c => c
  | fuel + 1, c => if again c then doubled again fuel (c * 2) else c

def rehash (x : FlatKeyIndex) (requested : Nat) : FlatKeyIndex :=
  let capacity := doubled (· < requested) requested 16
  { x with
    entries := (List.range x.capacity).foldl
      (fun acc i => reinsert (next capacity) capacity (home capacity) acc (x.entries i))
      fun _ => .empty
    capacity
    tombstones := 0 }

def reserve (x : FlatKeyIndex) (expected : Nat) : FlatKeyIndex :=
  let capacity := doubled (fun c => c * 7 / 10 < expected) expected
    (if x.capacity = 0 then 16 else x.capacity)
  if x.capacity = 0 ∨ capacity ≠ x.capacity ∨ x.tombstones ≠ 0 ∧
      (capacity * 7 / 10 < expected + x.tombstones ∨ capacity / 4 < x.tombstones) then
    x.rehash capacity
  else x

def insert (x : FlatKeyIndex) (key : BlockKey) (value : Nat) : FlatKeyIndex × Bool :=
  match x.lookup key with
  | some (b, _) => ({ x with entries := update x.entries b (.occupied key value) }, false)
  | none =>
    let x := x.reserve (x.size + 1)
    match insertTarget (next x.capacity) x.entries x.capacity (home x.capacity key) none with
    | some t =>
      ({ x with
        entries := update x.entries t (.occupied key value)
        size := x.size + 1
        tombstones := if (x.entries t).buried then x.tombstones - 1 else x.tombstones }, true)
    | none => (x, false)

def erase (x : FlatKeyIndex) (key : BlockKey) : FlatKeyIndex × Bool :=
  match x.lookup key with
  | some (b, _) =>
    ({ x with
      entries := update x.entries b .tombstone
      size := x.size - 1
      tombstones := x.tombstones + 1 }, true)
  | none => (x, false)

/-- The counters are exact, and three tenths of the buckets are empty. -/
structure Inv (x : FlatKeyIndex) : Prop where
  power : x.capacity = 0 ∨ ∃ e ≥ 4, x.capacity = 2 ^ e
  probed : Probed x.capacity (home x.capacity) x.entries
  live : count x.capacity x.entries Bucket.live = x.size
  buried : count x.capacity x.entries Bucket.buried = x.tombstones
  load : (x.size + x.tombstones) * 10 ≤ x.capacity * 7

variable {x : FlatKeyIndex} {k : BlockKey} {i v e n : Nat}

theorem next_eq : next (2 ^ e) = fun b => (b + 1) % 2 ^ e :=
  funext fun b => Nat.and_two_pow_sub_one_eq_mod (b + 1) e

theorem home_lt : home (2 ^ e) k < 2 ^ e := by
  rw [home, Nat.and_two_pow_sub_one_eq_mod]
  exact Nat.mod_lt _ (by positivity)

theorem doubled_spec (again : Nat → Bool) (fuel c : Nat) :
    (∃ e, doubled again fuel c = c * 2 ^ e) ∧
      (again (c * 2 ^ fuel) = false → again (doubled again fuel c) = false) := by
  induction fuel generalizing c with
  | zero => exact ⟨⟨0, by simp [doubled]⟩, by simp [doubled]⟩
  | succ fuel ih =>
    rw [doubled]
    by_cases hc : again c = true
    · rw [if_pos hc]
      obtain ⟨⟨e, he⟩, hstop⟩ := ih (c * 2)
      refine ⟨⟨e + 1, by rw [he, pow_succ', mul_assoc]⟩, fun h => hstop ?_⟩
      rwa [mul_assoc, ← pow_succ']
    · rw [if_neg hc]
      exact ⟨⟨0, by simp⟩, fun _ => by simpa using hc⟩

namespace Inv

theorem lookup_iff (hi : Inv x) :
    x.lookup k = some (i, v) ↔ i < x.capacity ∧ x.entries i = .occupied k v := by
  rw [lookup]
  rcases hi.power with h0 | ⟨e, -, he⟩
  · simp [h0]
  · have hne : ¬x.capacity = 0 := by rw [he]; positivity
    have hp := hi.probed
    rw [if_neg hne]
    rw [he] at hp ⊢
    rw [next_eq]
    exact hp.lookup_iff home_lt

theorem find_iff (hi : Inv x) : x.find k = some v ↔ Holds x.capacity x.entries k v := by
  simp only [find, Option.map_eq_some_iff, Prod.exists, hi.lookup_iff, Holds]
  constructor
  · rintro ⟨b, v', h, rfl⟩
    exact ⟨b, h⟩
  · rintro ⟨b, h⟩
    exact ⟨b, v, h, rfl⟩

theorem rehash (hi : Inv x) (hreq : x.size * 10 ≤ n * 7) :
    Inv (x.rehash n) ∧ n ≤ (x.rehash n).capacity ∧
      ∀ k v, Holds (x.rehash n).capacity (x.rehash n).entries k v ↔
        Holds x.capacity x.entries k v := by
  obtain ⟨⟨e, he⟩, hstop⟩ := doubled_spec (· < n) n 16
  have hcap : n ≤ doubled (· < n) n 16 := by
    have := Nat.lt_two_pow_self (n := n)
    simpa using hstop (by simp; omega)
  have hpow : doubled (· < n) n 16 = 2 ^ (4 + e) := by rw [he, pow_add]; rfl
  have hroom : count x.capacity x.entries Bucket.live < 2 ^ (4 + e) := by
    have : 0 < 2 ^ e := by positivity
    rw [hi.live, pow_add]
    omega
  obtain ⟨hprobed, hun, hholds, hlive⟩ := Moved.fold hi.probed (fun k => home_lt) hroom _ le_rfl
  rw [← next_eq, ← hpow] at hprobed hun hholds hlive
  refine ⟨⟨.inr ⟨_, Nat.le_add_right 4 e, hpow⟩, hprobed, hlive.trans hi.live, hun, ?_⟩, hcap,
    hholds⟩
  simp only [FlatKeyIndex.rehash]
  omega

/-- After `Reserve` there is room for the expected entries and the tombstones. -/
theorem reserve (hi : Inv x) (n : Nat) :
    Inv (x.reserve n) ∧ (x.reserve n).size = x.size ∧ (x.reserve n).capacity ≠ 0 ∧
      (n + (x.reserve n).tombstones) * 10 ≤ (x.reserve n).capacity * 7 ∧
      ∀ k v, Holds (x.reserve n).capacity (x.reserve n).entries k v ↔
        Holds x.capacity x.entries k v := by
  have hload := hi.load
  have hstart : 16 ≤ (if x.capacity = 0 then 16 else x.capacity) ∧
      x.capacity ≤ if x.capacity = 0 then 16 else x.capacity := by
    split
    · omega
    · rcases hi.power with h0 | ⟨e, he, hp⟩
      · omega
      · exact ⟨hp ▸ Nat.pow_le_pow_right (n := 2) (by decide) he, le_rfl⟩
  unfold FlatKeyIndex.reserve
  generalize (if x.capacity = 0 then 16 else x.capacity) = c₀ at hstart ⊢
  obtain ⟨⟨e, he⟩, hstop⟩ := doubled_spec (fun c => c * 7 / 10 < n) n c₀
  generalize doubled _ _ _ = c at he hstop ⊢
  have hle : c₀ ≤ c := he ▸ Nat.le_mul_of_pos_right _ (by positivity)
  have hn : n ≤ c * 7 / 10 := by
    have h2 := Nat.lt_two_pow_self (n := n)
    have := Nat.mul_le_mul_right (2 ^ n) hstart.1
    simpa using hstop (by simp; omega)
  dsimp only
  split
  · obtain ⟨hinv, hcap, hholds⟩ := hi.rehash (n := c) (by omega)
    have h0 : (x.rehash c).tombstones = 0 := rfl
    exact ⟨hinv, rfl, by omega, by omega, hholds⟩
  · rename_i hsame
    exact ⟨hi, rfl, by omega, by omega, fun _ _ => Iff.rfl⟩

end Inv

/-- The table stands for the map. -/
structure Repr (x : FlatKeyIndex) (m : KeyIndex) : Prop where
  inv : Inv x
  find : ∀ k v, m.find k = some v ↔ Holds x.capacity x.entries k v
  size : m.size = x.size

variable {m : KeyIndex}

theorem Repr.find_eq (hr : Repr x m) (k : BlockKey) : x.find k = m.find k :=
  Option.ext fun v => by rw [hr.inv.find_iff, hr.find]

theorem Repr.lookup_none (hr : Repr x m) (hl : x.lookup k = none) : m.find k = none := by
  rw [← hr.find_eq, FlatKeyIndex.find, hl]
  rfl

theorem update_find_iff {w : Nat} {k' : BlockKey} :
    update m.find k (some v) k' = some w ↔ k' = k ∧ w = v ∨ k' ≠ k ∧ m.find k' = some w := by
  rcases eq_or_ne k' k with rfl | hk
  · simp [eq_comm]
  · simp [hk]

theorem Repr.insert (hr : Repr x m) (k : BlockKey) (v : Nat) :
    Repr (x.insert k v).1 (if (m.find k).isSome then m.overwrite k v else m.insert k v) ∧
      (x.insert k v).2 = (m.find k).isNone := by
  obtain ⟨hi, hf, hsz⟩ := hr
  rw [FlatKeyIndex.insert]
  rcases hl : x.lookup k with _ | ⟨b, w⟩
  · -- a new key takes the first bucket on its way that is not occupied
    have hnone := Repr.lookup_none ⟨hi, hf, hsz⟩ hl
    obtain ⟨hy, hysz, hcap, hload, hholds⟩ := hi.reserve (x.size + 1)
    dsimp only
    generalize x.reserve (x.size + 1) = y at *
    obtain ⟨e, -, he⟩ := hy.power.resolve_left hcap
    obtain ⟨t, ht, hfree, -, htarget, hplaced, hplace⟩ := hy.probed.place (k := k)
      (by rw [he]; exact home_lt) (exists_empty (by rw [hy.live, hy.buried]; omega))
      (fun w hw => by rw [hholds, ← hf, hnone] at hw; cases hw) v
    have hlive := count_update y.entries (.occupied k v) Bucket.live ht
    have hburied := count_update y.entries (.occupied k v) Bucket.buried ht
    rw [hfree, hy.live] at hlive
    rw [hy.buried] at hburied
    have hnext : next y.capacity = fun b => (b + 1) % y.capacity := by rw [he, next_eq]
    rw [hnext, htarget, hnone]
    refine ⟨⟨⟨hy.power, hplaced, hlive, ?_, ?_⟩, fun k' w => ?_, ?_⟩, rfl⟩
    · dsimp only
      split <;> rename_i hbt <;> simp only [hbt] at hburied
      · exact Nat.eq_sub_of_add_eq hburied
      · exact hburied
    · dsimp only
      split <;> omega
    · rw [hplace, hholds, ← hf]
      simp only [Option.isSome_none, Bool.false_eq_true, if_false, KeyIndex.insert, update_find_iff]
      refine or_congr_right ⟨And.right, fun h => ⟨?_, h⟩⟩
      rintro rfl
      rw [hnone] at h
      cases h
    · simp [KeyIndex.insert, hsz, hysz]
  · obtain ⟨hb, hk⟩ := hi.lookup_iff.mp hl
    obtain ⟨hprobed, hholds⟩ := hi.probed.replace (c := .occupied k v) hb hk (by simp)
      (fun k' v' he => by cases he; rfl)
    have hlive := count_update x.entries (.occupied k v) Bucket.live hb
    have hburied := count_update x.entries (.occupied k v) Bucket.buried hb
    rw [hk] at hlive hburied
    rw [(hf k w).mpr ⟨b, hb, hk⟩]
    refine ⟨⟨⟨hi.power, hprobed, (Nat.add_right_cancel hlive).trans hi.live,
      (Nat.add_right_cancel hburied).trans hi.buried, hi.load⟩, fun k' w' => ?_, hsz⟩, rfl⟩
    rw [hholds, ← hf]
    simp only [Option.isSome_some, if_true, KeyIndex.overwrite, update_find_iff,
      Bucket.occupied.injEq]
    simp [eq_comm]

theorem Repr.erase (hr : Repr x m) (k : BlockKey) :
    Repr (x.erase k).1 (m.erase k) ∧ (x.erase k).2 = (m.find k).isSome := by
  obtain ⟨hi, hf, hsz⟩ := hr
  rw [FlatKeyIndex.erase, KeyIndex.erase]
  rcases hl : x.lookup k with _ | ⟨b, w⟩
  · rw [Repr.lookup_none ⟨hi, hf, hsz⟩ hl]
    exact ⟨⟨hi, hf, hsz⟩, rfl⟩
  · obtain ⟨hb, hk⟩ := hi.lookup_iff.mp hl
    obtain ⟨hprobed, hholds⟩ := hi.probed.replace (c := .tombstone) hb hk (by simp) (by simp)
    have hlive := count_update x.entries .tombstone Bucket.live hb
    have hburied := count_update x.entries .tombstone Bucket.buried hb
    rw [hk, hi.live] at hlive
    rw [hk, hi.buried] at hburied
    have hload := hi.load
    have hpos : x.size ≠ 0 := fun h0 => by
      rw [h0] at hlive
      exact absurd hlive (Nat.succ_ne_zero _)
    rw [(hf k w).mpr ⟨b, hb, hk⟩]
    refine ⟨⟨⟨hi.power, hprobed, Nat.eq_sub_of_add_eq hlive, hburied, ?_⟩, fun k' w' => ?_, ?_⟩,
      rfl⟩
    · dsimp only
      omega
    · rw [hholds, ← hf]
      rcases eq_or_ne k' k with rfl | hne <;> simp [*]
    · simp [hsz]

/-- A call that changes the index. -/
inductive Op where
  | insert (key : BlockKey) (value : Nat)
  | erase (key : BlockKey)
  | reserve (expected : Nat)

def apply (x : FlatKeyIndex) : Op → FlatKeyIndex × Bool
  | .insert k v => x.insert k v
  | .erase k => x.erase k
  | .reserve n => (x.reserve n, true)

/-- What the call does to the map. -/
def applyMap (m : KeyIndex) : Op → KeyIndex × Bool
  | .insert k v => (if (m.find k).isSome then m.overwrite k v else m.insert k v, (m.find k).isNone)
  | .erase k => (m.erase k, (m.find k).isSome)
  | .reserve _ => (m, true)

theorem Repr.apply (hr : Repr x m) (op : Op) :
    Repr (x.apply op).1 (applyMap m op).1 ∧ (x.apply op).2 = (applyMap m op).2 := by
  cases op with
  | insert k v => exact hr.insert k v
  | erase k => exact hr.erase k
  | reserve n =>
    obtain ⟨hinv, hsize, -, -, hholds⟩ := hr.inv.reserve n
    exact ⟨⟨hinv, fun k v => (hr.find k v).trans (hholds k v).symm, hr.size.trans hsize.symm⟩, rfl⟩

theorem repr_run (ops : List Op) : Repr (ops.foldl (fun x op => (x.apply op).1) {})
    (ops.foldl (fun m op => (applyMap m op).1) {}) := by
  induction ops using List.reverseRecOn with
  | nil =>
    refine ⟨⟨.inl rfl, ⟨fun i hi => absurd hi (Nat.not_lt_zero i), fun i hi => ?_⟩, rfl, rfl,
      Nat.zero_le _⟩, fun k v => ?_, rfl⟩
    · exact absurd hi (Nat.not_lt_zero i)
    · simp [Holds]
  | append_singleton ops op ih =>
    rw [List.foldl_append, List.foldl_append]
    exact (ih.apply op).1

/-- The table is the finite map.  After every sequence of calls `Find` answers as the map, and
every further call as the map does; the counters are exact, and as soon as there are buckets
one of them is empty, where a probe ends. -/
theorem flat_index_refines_map (ops : List Op) :
    let x : FlatKeyIndex := ops.foldl (fun x op => (x.apply op).1) {}
    let m : KeyIndex := ops.foldl (fun m op => (applyMap m op).1) {}
    (∀ k, x.find k = m.find k) ∧ x.size = m.size ∧
      (∀ op, (x.apply op).2 = (applyMap m op).2) ∧
      count x.capacity x.entries Bucket.live = x.size ∧
      count x.capacity x.entries Bucket.buried = x.tombstones ∧
      (x.capacity ≠ 0 → ∃ i < x.capacity, x.entries i = .empty) := by
  have hr := repr_run ops
  have hload := hr.inv.load
  refine ⟨hr.find_eq, hr.size.symm, fun op => (hr.apply op).2, hr.inv.live, hr.inv.buried,
    fun hcap => exists_empty ?_⟩
  rw [hr.inv.live, hr.inv.buried]
  omega

end FlatKeyIndex

end DingoCache.Slab
