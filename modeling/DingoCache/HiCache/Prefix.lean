import DingoCache.HiCache.Model

/-!
# HiCache: What the Reported Prefix Is Worth

`batch_exists_v2` answers how many leading pages can be loaded.  It probes one key
for each object and merges the pools with a minimum.
-/

namespace DingoCache.HiCache

open Library DingoCache.Connector List Nat

variable {sks : List Bytes} {sub : Nat}

/-! ## Objects and reads -/

/-- A pool as the reads see it: its key builder, whether it lies on the device, and how many
segments each of its objects has. -/
structure Pool where
  keysFn : Bytes → Except PyError (List Bytes)
  device : Bool
  segs : Nat

namespace Connector

def mainPool (c : Connector) (segs : Nat) : Pool := ⟨c.keys, c.memPoolDevice, segs⟩

def sidePool (c : Connector) (tr : PoolTransfer) (segs : Nat) : Pool :=
  ⟨c.poolKeys tr.name, tr.name ∈ c.sidecarDevicePools, segs⟩

end Connector

namespace Pool

variable (p : Pool) (c : Connector) (store : Bytes → Bool) (page : Bytes)

/-- `sk` is one of the physical objects that a GET of `page` requests. -/
def Requests (sk : Bytes) : Prop :=
  ∃ sks, p.keysFn page = .ok sks ∧ ∃ o ∈ sks,
    if p.device then ∃ ci < c.nchunks p.segs, c.sgGroupKey o ci = .ok sk else sk = o

/-- Every object that a GET of `page` requests exists. -/
def Whole : Prop := ∀ sk, p.Requests c page sk → store sk = true

/-- Every object that stands for `page` in a probe exists. -/
def Probed : Prop :=
  ∀ sks, c.pageProbe p.device p.keysFn page = .ok sks → ∀ sk ∈ sks, store sk = true

end Pool

section Pages

variable {c : Connector} {store : Bytes → Bool} {p : Pool} {page : Bytes}

theorem mem_pageProbe {device : Bool} {keysFn : Bytes → Except PyError (List Bytes)}
    (h : c.pageProbe device keysFn page = .ok sks) :
    ∃ os, keysFn page = .ok os ∧ sks.length = os.length ∧
      ∀ sk, sk ∈ sks ↔ ∃ o ∈ os, if device then c.sgGroupKey o 0 = .ok sk else sk = o := by
  obtain ⟨os, hos, hm⟩ := bind_eq_ok_iff.mp h
  refine ⟨os, hos, length_of_mapM hm, fun sk => ?_⟩
  rw [mem_of_mapM hm]
  cases device with
  | true => rfl
  | false => simp [eq_comm]

theorem Pool.Whole.probed (h : p.Whole c store page) : p.Probed c store page := by
  intro sks hsks sk hsk
  obtain ⟨os, hos, -, hmem⟩ := mem_pageProbe hsks
  obtain ⟨o, ho, hkey⟩ := (hmem sk).mp hsk
  refine h sk ⟨os, hos, o, ho, ?_⟩
  split
  · exact ⟨0, lt_max_of_lt_left one_pos, by simp_all⟩
  · simp_all

end Pages

/-! ## The loops -/

section Loops

variable {present : List Bool}

end Loops

/-! ## Probes -/

section Probes

variable {c : Connector} {store : Bytes → Bool} {pages : List Bytes}

end Probes

/-! ## Boundaries and their minimum -/

/-- The first page of a prefix of `n` pages for which the pool is needed. -/
def PoolTransfer.start (tr : PoolTransfer) (n : Nat) : Nat :=
  match tr.hitPolicy with
  | .allPages => 0
  | .trailingPages => n - tr.trailing

section Boundaries

variable {c : Connector} {store : Bytes → Bool} {pages : List Bytes} {kv : Nat}

end Boundaries

/-! ## The reported prefix -/

section Report

variable (c : Connector) (store : Bytes → Bool) (pages : List Bytes) (trs : List PoolTransfer)
  (mainSegs : Nat) (sideSegs : String → Nat)

/-- Every physical object that the GETs of the first `n` pages request exists. -/
def Loadable (n : Nat) : Prop :=
  (∀ page ∈ pages.take n, (c.mainPool mainSegs).Whole c store page) ∧
  ∀ tr ∈ trs, ∀ page ∈ (pages.take n).drop (tr.start n),
    (c.sidePool tr (sideSegs tr.name)).Whole c store page

end Report

section Answer

variable {c : Connector} {store : Bytes → Bool} {pages : List Bytes} {trs : List PoolTransfer}
  {mainSegs : Nat} {sideSegs : String → Nat} {r : PoolTransferResult}

end Answer

end DingoCache.HiCache
