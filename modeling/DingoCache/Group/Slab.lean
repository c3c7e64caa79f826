import DingoCache.Store.Run
import DingoCache.Group.Quota

/-!
# The Disk Store as a Disk of a Group

A step of `DiskSlabStore` drops committed keys or adds one key, as the disks of
`DiskCacheGroup` do, and the counter behind `TenantUsedBytes` is the sum that the
group takes of a disk.
-/

namespace DingoCache.Group

open Library Slab Store

variable {s s' : DiskSlabStore} {st : Store.Step}

theorem len_step (hi : s.Inv) (h : s.Steps st s') : s.Shrinks s' ∨ ∃ job, s.Commits s' job :=
  (h.effect hi).len

theorem lookup_eraseAll (keys : List BlockKey) (m : AList fun _ : BlockKey => Nat) (k : BlockKey) :
    (keys.foldl (fun m k => m.erase k) m).lookup k = if k ∈ keys then none else m.lookup k := by
  induction keys generalizing m with
  | nil => simp
  | cons key keys ih =>
    rw [List.foldl_cons, ih]
    rcases eq_or_ne k key with rfl | hk
    · simp
    · simp [hk, AList.lookup_erase_ne hk]

/-- What the group lets the engine of a disk do to its table. -/
def DiskStep (m m' : AList fun _ : BlockKey => Nat) : Prop :=
  (∃ keys : List BlockKey, ∀ k, m'.lookup k = (keys.foldl (fun m k => m.erase k) m).lookup k) ∨
    ∃ item : Item, ∀ k, m'.lookup k = (DiskCacheGroup.writeItem m item true).lookup k

theorem diskStep_of_steps (hi : s.Inv) (h : s.Steps st s') :
    DiskStep s.payloadLen s'.payloadLen := by
  rcases len_step hi h with hshrink | ⟨job, hnone, hlen⟩
  · -- The evicted keys are those that have an entry before and none after.
    refine .inl ⟨s.payloadLen.keys.filter fun k => s'.len k = none, fun k => ?_⟩
    rw [lookup_eraseAll]
    split
    · rename_i hk
      have hgone : s'.len k = none := by simpa using (List.mem_filter.mp hk).2
      exact hgone
    · rename_i hk
      rcases hshrink k with heq | hgone
      · exact heq
      · have habsent : s.payloadLen.lookup k = none := by
          by_contra hne
          refine hk (List.mem_filter.mpr ⟨?_, by simpa using hgone⟩)
          exact AList.mem_keys.mp (AList.lookup_isSome.mp (Option.isSome_iff_ne_none.mpr hne))
        rw [habsent]
        exact hgone
  · refine .inr ⟨{ key := job.key, len := job.data.length }, fun k => ?_⟩
    have hnew : DiskCacheGroup.writeItem s.payloadLen { key := job.key, len := job.data.length }
        true = s.payloadLen.insert job.key job.data.length := if_pos ⟨rfl, hnone⟩
    rw [hnew]
    refine (hlen k).trans ?_
    rcases eq_or_ne k job.key with rfl | hk
    · simp
    · rw [if_neg hk, AList.lookup_insert_ne hk]
      rfl

/-- In every reachable state of a store, healthy or failed, its counters are what the group adds up,
and each single step is one eviction or one write of an item in the group's terms. -/
theorem slab_refines_disk (hs : DiskSlabStore.Reachable s) :
    (∀ tenant, s.tenantUsed tenant = DiskSlabStore.usage s.payloadLen tenant) ∧
      ∀ st s', s.step st = some s' → DiskStep s.payloadLen s'.payloadLen :=
  ⟨hs.good.inv.usage, fun _ _ h =>
    diskStep_of_steps hs.good.inv (DiskSlabStore.steps_of_step h)⟩

/-- The removal of the only committed key is a step of the group's disk. -/
theorem onePut_refines_disk : ∃ s s' : DiskSlabStore, s.len (DiskSlabStore.tinyKey 1) = some 2 ∧
    s.step (.remove (DiskSlabStore.tinyKey 1) true) = some s' ∧
      DiskStep s.payloadLen s'.payloadLen := by
  obtain ⟨s, hreach, -, -, -, hlen⟩ := DiskSlabStore.onePut_rests
  exact ⟨s, _, hlen, rfl, (slab_refines_disk hreach).2 (.remove _ true) _ rfl⟩

end DingoCache.Group
