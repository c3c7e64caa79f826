import Mathlib

/-!
# Flat Files

A file is a function from positions to values, written and read in runs of
consecutive positions.  Bytes are one instance: `putLE` and `getLE` store numbers
in little-endian order.
-/

namespace DingoCache.Library

open List

abbrev FlatFile (α : Type) := Nat → α

namespace FlatFile

variable {α : Type} {f g : FlatFile α} {off off' n i : Nat} {bs : List α}

/-! ## Runs of positions -/

/-- Write `bs` at `off`. -/
def pwrite (f : FlatFile α) (off : Nat) (bs : List α) : FlatFile α :=
  fun i => if off ≤ i then bs[i - off]?.getD (f i) else f i

/-- Read `n` values at `off`. -/
def pread (f : FlatFile α) (off n : Nat) : List α := (range n).map fun j => f (off + j)

theorem pwrite_of_apart (h : i < off ∨ off + bs.length ≤ i) : f.pwrite off bs i = f i := by
  unfold pwrite
  split
  · rw [getElem?_eq_none (by omega), Option.getD_none]
  · rfl

@[simp] theorem pwrite_nil (f : FlatFile α) (off : Nat) : f.pwrite off [] = f := by
  funext i
  simp [pwrite]

theorem pwrite_add (hi : i < bs.length) : f.pwrite off bs (off + i) = bs[i] := by
  simp [pwrite, getElem?_eq_getElem hi]

@[simp] theorem length_pread (f : FlatFile α) (off n : Nat) : (f.pread off n).length = n := by
  simp [pread]

@[simp] theorem getElem_pread (hi : i < (f.pread off n).length) :
    (f.pread off n)[i] = f (off + i) := by
  simp [pread]

theorem pread_congr (h : ∀ i, i < n → g (off' + i) = f (off + i)) :
    g.pread off' n = f.pread off n :=
  map_congr_left fun i hi => h i (mem_range.mp hi)

theorem pread_eq_iff {p : List α} :
    f.pread off p.length = p ↔ ∀ i (hi : i < p.length), f (off + i) = p[i] := by
  constructor
  · intro h i hi
    have hget : (f.pread off p.length)[i]? = some (f (off + i)) := by simp [pread, hi]
    rw [h, getElem?_eq_getElem hi] at hget
    exact (Option.some.inj hget).symm
  · intro h
    refine ext_getElem (by simp) fun i h1 h2 => ?_
    rw [getElem_pread, h i h2]

@[simp] theorem pread_pwrite_self (f : FlatFile α) (off : Nat) (bs : List α) :
    (f.pwrite off bs).pread off bs.length = bs :=
  pread_eq_iff.mpr fun _ hi => pwrite_add hi

theorem pread_pwrite_apart (h : off' + n ≤ off ∨ off + bs.length ≤ off') :
    (f.pwrite off bs).pread off' n = f.pread off' n :=
  pread_congr fun i hi => pwrite_of_apart (by omega)

theorem pread_add (f : FlatFile α) (off m n : Nat) :
    f.pread off (m + n) = f.pread off m ++ f.pread (off + m) n := by
  unfold pread
  rw [range_add, map_append, map_map]
  simp [Function.comp_def, Nat.add_assoc]

theorem pread_pwrite_append {p q : List α} (h : f.pread off p.length = p) :
    (f.pwrite (off + p.length) q).pread off (p ++ q).length = p ++ q := by
  rw [length_append, pread_add, pread_pwrite_apart (Or.inl le_rfl), h, pread_pwrite_self]

theorem pread_of_append {p q : List α} (h : f.pread off (p ++ q).length = p ++ q) :
    f.pread off p.length = p := by
  rw [length_append, pread_add] at h
  exact (append_inj h (length_pread ..)).1

theorem take_drop_pread (f : FlatFile α) (off : Nat) {len i n : Nat} (h : i + n ≤ len) :
    ((f.pread off len).drop i).take n = f.pread (off + i) n := by
  refine ext_getElem (by simp; omega) fun j h1 h2 => ?_
  simp [Nat.add_assoc]

end FlatFile

/-! ## Little-endian numbers -/

/-- The `n` low bytes of `v`, lowest first. -/
def putLE : Nat → Nat → List UInt8
  | 0, _ => []
  | n + 1, v => UInt8.ofNat v :: putLE n (v / 256)

/-- The number stored in `bs`. -/
def getLE : List UInt8 → Nat
  | [] => 0
  | b :: bs => b.toNat + 256 * getLE bs

@[simp] theorem length_putLE (n : Nat) : ∀ v, (putLE n v).length = n := by
  induction n with
  | zero => exact fun _ => rfl
  | succ n ih => exact fun v => by simp [putLE, ih]

theorem getLE_putLE (n : Nat) : ∀ v, getLE (putLE n v) = v % 256 ^ n := by
  induction n with
  | zero =>
    intro v
    simp [putLE, getLE, Nat.mod_one]
  | succ n ih =>
    intro v
    have hlow : (UInt8.ofNat v).toNat = v % 256 := UInt8.toNat_ofNat'
    rw [putLE, getLE, ih, hlow, pow_succ', Nat.mod_mul]

theorem getLE_lt (bs : List UInt8) : getLE bs < 256 ^ bs.length := by
  induction bs with
  | nil => simp [getLE]
  | cons b bs ih =>
    have hb := b.toNat_lt
    rw [getLE, length_cons, pow_succ']
    omega

theorem putLE_getLE (bs : List UInt8) : putLE bs.length (getLE bs) = bs := by
  induction bs with
  | nil => rfl
  | cons b bs ih =>
    have hb := b.toNat_lt
    have hhead : UInt8.ofNat (b.toNat + 256 * getLE bs) = b := by
      apply UInt8.toNat_inj.mp
      rw [UInt8.toNat_ofNat']
      omega
    have htail : (b.toNat + 256 * getLE bs) / 256 = getLE bs := by omega
    rw [length_cons, getLE, putLE, hhead, htail, ih]

end DingoCache.Library
