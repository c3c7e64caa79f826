import DingoCache.Library.Interleaving
import DingoCache.Group.Model

/-!
# Tenant Quotas over Runs

Whoever holds the stripe of a tenant is the only one that adds to its bytes, so the
bytes in use together with the charges that are not written yet stay within the limit.
-/

namespace DingoCache.Group

open Library Slab Store List Nat
open Function (update update_of_ne update_self)

open DiskCacheGroup

variable {judged : List Judged} {disk i additional current : Nat} {rest : List Item} {j : Judged}

/-! ## Bytes in use -/

section Usage

open DiskSlabStore

variable {m : AList fun _ : BlockKey => Nat} {tenant : UInt64} {item : Item}

theorem usage_erase_le (m : AList fun _ : BlockKey => Nat) (key : BlockKey) (tenant : UInt64) :
    usage (m.erase key) tenant ≤ usage m tenant := by
  unfold usage
  cases h : m.lookup key with
  | none => rw [total_erase_of_none h]
  | some n => exact le.intro (total_erase h)

theorem usage_eraseAll_le (keys : List BlockKey) (m : AList fun _ : BlockKey => Nat)
    (tenant : UInt64) : usage (keys.foldl (fun m k => m.erase k) m) tenant ≤ usage m tenant := by
  induction keys generalizing m with
  | nil => exact le_rfl
  | cons key keys ih => exact (ih _).trans (usage_erase_le m key tenant)

theorem usage_writeItem_le (m : AList fun _ : BlockKey => Nat) (item : Item) (commit : Bool)
    (tenant : UInt64) : usage (writeItem m item commit) tenant ≤
      usage m tenant + if item.tenant = tenant then item.len else 0 := by
  unfold writeItem
  split
  · rename_i h
    unfold usage
    rw [total_insert h.2]
    exact le_rfl
  · exact le_add_right _ _

theorem writeItem_of_some {n : Nat} (h : m.lookup item.key = some n) (commit : Bool) :
    writeItem m item commit = m := by
  unfold writeItem
  rw [if_neg (by simp [h])]

end Usage

namespace DiskCacheGroup

variable {o : Config} {s s' : DiskCacheGroup} {t t' : Nat} {tenant : UInt64} {stage stage' : Stage}

theorem tenantUsedBytes_succ (s : DiskCacheGroup) (tenant : UInt64) (n : Nat) :
    s.tenantUsedBytes tenant (n + 1) =
      s.tenantUsedBytes tenant n + DiskSlabStore.usage (s.disks n) tenant := by
  simp [tenantUsedBytes, range_succ]

/-- One disk that grows by at most `c` makes the sum grow by at most `c`. -/
theorem tenantUsedBytes_update {c : Nat} {m : AList fun _ : BlockKey => Nat}
    (hdisks : s'.disks = update s.disks disk m)
    (hm : DiskSlabStore.usage m tenant ≤ DiskSlabStore.usage (s.disks disk) tenant + c) (n : Nat) :
    s'.tenantUsedBytes tenant n ≤ s.tenantUsedBytes tenant n + c := by
  -- Up to `disk` nothing changes, which is where the induction needs the equality.
  have hbelow : ∀ n ≤ disk, s'.tenantUsedBytes tenant n = s.tenantUsedBytes tenant n := by
    intro n hn
    induction n with
    | zero => rfl
    | succ n ih =>
      rw [tenantUsedBytes_succ, tenantUsedBytes_succ, ih (by omega), hdisks,
        update_of_ne (by omega)]
  induction n with
  | zero => exact zero_le _
  | succ n ih =>
    rw [tenantUsedBytes_succ, tenantUsedBytes_succ, hdisks]
    rcases eq_or_ne n disk with rfl | heq
    · rw [hbelow n le_rfl, update_self]
      omega
    · rw [update_of_ne heq]
      omega

/-! ## Charges -/

/-- The charges of `tenant` among the judged items that `p` selects. -/
def charges (tenant : UInt64) (p : Judged → Bool) (judged : List Judged) : Nat :=
  (judged.map fun j => if j.charge = true ∧ p j = true ∧ j.item.tenant = tenant then j.item.len
    else 0).sum

/-- The bytes that a call was granted and has not written. -/
def reservedBy (tenant : UInt64) : Stage → Nat
  | .judging _ judged | .summing _ _ judged _ _ _ => charges tenant (fun _ => true) judged
  | .writing judged => charges tenant Judged.pending judged
  | _ => 0

/-- The bytes that the holder of the tenant's stripe was granted and has not written. -/
def reserved (s : DiskCacheGroup) (tenant : UInt64) : Nat :=
  match s.stripes (tenantStripe tenant) with
  | none => 0
  | some t => ((s.calls t).map (reservedBy tenant)).getD 0

theorem charges_append (tenant : UInt64) (p : Judged → Bool) (js : List Judged) (j : Judged) :
    charges tenant p (js ++ [j]) = charges tenant p js +
      if j.charge ∧ p j ∧ j.item.tenant = tenant then j.item.len else 0 := by
  simp [charges]

theorem charges_submit (h : ∀ j ∈ judged, j.charge → j.out = .ok) :
    charges tenant Judged.pending (judged.map submit) ≤ charges tenant (fun _ => true) judged := by
  induction judged with
  | nil => exact le_rfl
  | cons j js ih =>
    have hih := ih fun j hj => h j (mem_cons_of_mem _ hj)
    have hj : (if (submit j).charge ∧ (submit j).pending ∧
        (submit j).item.tenant = tenant then (submit j).item.len else 0) ≤
          if j.charge ∧ true ∧ j.item.tenant = tenant then j.item.len else 0 := by
      unfold submit
      split <;> split <;> simp_all
    simp only [charges, map_cons, sum_cons] at hih hj ⊢
    omega

theorem charges_set (tenant : UInt64) (hi : judged[i]? = some j) (hp : j.pending) (st : Status) :
    charges tenant Judged.pending (judged.set i { j with out := st, pending := false }) +
      (if j.charge ∧ j.item.tenant = tenant then j.item.len else 0) =
      charges tenant Judged.pending judged := by
  induction judged generalizing i with
  | nil => simp at hi
  | cons j' js ih =>
    cases i with
    | zero =>
      obtain rfl : j' = j := by simpa using hi
      simp [charges, hp]
      omega
    | succ i =>
      have hih := ih (by simpa using hi)
      simp only [charges, set_cons_succ, map_cons, sum_cons] at hih ⊢
      omega

/-- The loop over the earlier items adds up the charges of the tenant. -/
theorem additionalFor_eq {item : Item} {a r : Nat} (hok : ∀ j ∈ judged, j.charge → j.out = .ok)
    (hshort : a + charges item.tenant (fun _ => true) judged < 2 ^ 64)
    (h : additionalFor item judged a = some r) :
    r = a + charges item.tenant (fun _ => true) judged := by
  induction judged generalizing a with
  | nil => exact (Option.some.inj h).symm
  | cons j js ih =>
    have hok' := fun j hj => hok j (mem_cons_of_mem _ hj)
    unfold additionalFor at h
    have hcons : charges item.tenant (fun _ => true) (j :: js) =
        (if j.charge ∧ j.item.tenant = item.tenant then j.item.len else 0) +
          charges item.tenant (fun _ => true) js := by
      simp [charges]
    rw [hcons] at hshort ⊢
    split at h
    · -- An item that was refused, or of another tenant, adds nothing.
      rename_i hskip
      have hzero : ¬(j.charge ∧ j.item.tenant = item.tenant) := by
        rintro ⟨hc, ht⟩
        rcases hskip with hne | hne
        · exact hne (hok j (mem_cons_self ..) hc)
        · exact hne ht
      rw [if_neg hzero, zero_add] at hshort ⊢
      exact ih hok' hshort h
    · rename_i hsame
      have hsame : j.item.tenant = item.tenant := by
        by_contra hne
        exact hsame (.inr hne)
      split at h
      · simp at h
      · split at h
        · rename_i hc
          rw [if_pos ⟨hc, hsame⟩] at hshort ⊢
          split at h
          · omega
          · have := ih hok' (by omega) h
            omega
        · rename_i hc
          rw [if_neg fun h => hc h.1, zero_add] at hshort ⊢
          exact ih hok' hshort h

/-! ## The discipline of the stripes -/

/-- Call `t` holds the stripe of `tenant`. -/
def Holds (s : DiskCacheGroup) (t : Nat) (tenant : UInt64) : Prop :=
  s.stripes (tenantStripe tenant) = some t

def bytes (items : List Item) : Nat := (items.map Item.len).sum

/-- What holds of a call that judges its items. -/
structure Judging (s : DiskCacheGroup) (t : Nat) (rest : List Item) (judged : List Judged) :
    Prop where
  heldRest : ∀ item ∈ rest, s.Holds t item.tenant
  heldJudged : ∀ j ∈ judged, s.Holds t j.item.tenant
  granted : ∀ j ∈ judged, j.charge = true → j.out = .ok
  short : bytes (judged.map Judged.item) + bytes rest < 2 ^ 64

def StageOk (s : DiskCacheGroup) (t : Nat) : Stage → Prop
  | .locking req stripe => bytes req.items < 2 ^ 64 ∧
      ∀ tenant ∈ req.tenants, tenantStripe tenant < stripe → s.Holds t tenant
  | .judging rest judged => s.Judging t rest judged
  | .summing item rest judged additional disk current => s.Judging t (item :: rest) judged ∧
      additionalFor item judged item.len = some additional ∧
      s.tenantUsedBytes item.tenant disk ≤ current
  | .writing judged => ∀ j ∈ judged, s.Holds t j.item.tenant
  | .removing _ | .returned _ => True

/-- The discipline of calls and stripes. -/
structure Locked (s : DiskCacheGroup) : Prop where
  calls : ∀ t stage, s.calls t = some stage → s.StageOk t stage
  alive : ∀ t stage, s.calls t = some stage → t < s.spawned

/-- The step of call `t` leaves the other calls their stripes, and adds no bytes to a tenant whose
stripe another call holds. -/
structure Frame (s s' : DiskCacheGroup) (t : Nat) : Prop where
  stripes : ∀ stripe t', t' ≠ t → s.stripes stripe = some t' → s'.stripes stripe = some t'
  used : ∀ tenant t' n, t' ≠ t → s.Holds t' tenant →
    s'.tenantUsedBytes tenant n ≤ s.tenantUsedBytes tenant n

theorem Frame.of_eq (hstripes : s'.stripes = s.stripes) (hdisks : s'.disks = s.disks) :
    Frame s s' t := by
  refine ⟨fun stripe t' _ h => hstripes ▸ h, fun tenant t' n _ _ => ?_⟩
  unfold tenantUsedBytes
  rw [hdisks]

theorem Judging.mono (hs : ∀ tenant, s.Holds t tenant → s'.Holds t tenant)
    (h : s.Judging t rest judged) : s'.Judging t rest judged :=
  ⟨fun item hi => hs _ (h.heldRest item hi), fun j hj => hs _ (h.heldJudged j hj),
    h.granted, h.short⟩

theorem StageOk.frame (hf : Frame s s' t) (hne : t' ≠ t) (h : s.StageOk t' stage) :
    s'.StageOk t' stage := by
  have hs : ∀ tenant, s.Holds t' tenant → s'.Holds t' tenant :=
    fun tenant hh => hf.stripes _ t' hne hh
  cases stage with
  | locking req stripe => exact ⟨h.1, fun tenant hm hlt => hs _ (h.2 tenant hm hlt)⟩
  | judging rest judged => exact Judging.mono hs h
  | summing item rest judged additional disk current =>
    obtain ⟨hj, hadd, hsum⟩ := h
    have hheld := hj.heldRest item (mem_cons_self ..)
    exact ⟨hj.mono hs, hadd, (hf.used _ t' disk hne hheld).trans hsum⟩
  | writing judged => exact fun j hj => hs _ (h j hj)
  | removing key => trivial
  | returned out => trivial

theorem StageOk.of_eq (hstripes : s'.stripes = s.stripes) (hdisks : s'.disks = s.disks)
    (h : s.StageOk t stage) : s'.StageOk t stage :=
  h.frame (.of_eq hstripes hdisks) t.succ_ne_self.symm

/-- Call `t` moves to a stage, with whatever else changes around it. -/
theorem Locked.act (h : s.Locked) (t : Nat) (stage : Stage) (hf : Frame s s' t)
    (hcalls : s'.calls = update s.calls t (some stage)) (hok : s'.StageOk t stage)
    (hspawned : s.spawned ≤ s'.spawned) (hlt : t < s'.spawned) : s'.Locked := by
  have hcases {t' : Nat} {stage' : Stage} (ht' : s'.calls t' = some stage') :
      (t' = t ∧ stage' = stage) ∨ (t' ≠ t ∧ s.calls t' = some stage') := by
    rw [hcalls] at ht'
    rcases eq_or_ne t' t with rfl | heq
    · rw [update_self] at ht'
      exact .inl ⟨rfl, (Option.some.inj ht').symm⟩
    · rw [update_of_ne heq] at ht'
      exact .inr ⟨heq, ht'⟩
  refine ⟨fun t' stage' ht' => ?_, fun t' stage' ht' => ?_⟩
  · rcases hcases ht' with ⟨rfl, rfl⟩ | ⟨hne, ht'⟩
    · exact hok
    · exact (h.calls t' stage' ht').frame hf hne
  · rcases hcases ht' with ⟨rfl, rfl⟩ | ⟨-, ht'⟩
    · exact hlt
    · exact (h.alive t' stage' ht').trans_le hspawned

/-- What a step asks of the state before it. The items of a call have fewer than `2 ^ 64` bytes
together, and a value that is written without a charge has a key that its disk still holds. -/
def Covered (o : Config) (s : DiskCacheGroup) : Step → Prop
  | .start req => bytes req.items < 2 ^ 64
  | .write t i _ _ =>
    match s.calls t with
    | some (.writing judged) =>
      match judged[i]? with
      | some j => j.charge = true ∨ ∃ disk ∈ o.routeIndex j.item.key,
          ((s.disks disk).lookup j.item.key).isSome = true
      | none => True
    | _ => True
  | _ => True

instance (o : Config) (s : DiskCacheGroup) (st : Step) : Decidable (Covered o s st) := by
  unfold Covered
  split
  · infer_instance
  · split
    · split <;> infer_instance
    · infer_instance
  · infer_instance

theorem Judging.append {item : Item} (h : s.Judging t (item :: rest) judged) (hj : j.item = item)
    (hc : j.charge → j.out = .ok) : s.Judging t rest (judged ++ [j]) := by
  refine ⟨fun x hx => h.heldRest x (mem_cons_of_mem _ hx), fun x hx => ?_, fun x hx => ?_, ?_⟩
  · rcases mem_append.mp hx with hx | hx
    · exact h.heldJudged x hx
    · obtain rfl := mem_singleton.mp hx
      exact hj ▸ h.heldRest item (mem_cons_self ..)
  · rcases mem_append.mp hx with hx | hx
    · exact h.granted x hx
    · obtain rfl := mem_singleton.mp hx
      exact hc
  · have := h.short
    simp only [bytes, map_append, map_cons, map_nil, List.sum_append, sum_cons, sum_nil, hj]
      at this ⊢
    omega

/-! ## The bound -/

def Bounded (o : Config) (tenant : UInt64) (s : DiskCacheGroup) : Prop :=
  s.tenantUsedBytes tenant o.diskCount + s.reserved tenant ≤ o.tenantLimit tenant

theorem reserved_of_holds (hh : s.Holds t tenant) (ht : s.calls t = some stage) :
    s.reserved tenant = reservedBy tenant stage := by
  unfold reserved
  rw [hh]
  simp [ht]

/-- A step of call `t` that grants nothing: it may take or leave the stripe. -/
theorem reserved_le (tenant : UInt64) (hcalls : s'.calls = update s.calls t (some stage'))
    (hstripes : ∀ t', t' ≠ t → s'.stripes (tenantStripe tenant) = some t' →
      s.stripes (tenantStripe tenant) = some t')
    (hle : s'.Holds t tenant → reservedBy tenant stage' ≤ s.reserved tenant) :
    s'.reserved tenant ≤ s.reserved tenant := by
  cases hst : s'.stripes (tenantStripe tenant) with
  | none =>
    unfold reserved
    rw [hst]
    exact zero_le _
  | some t' =>
    rcases eq_or_ne t' t with rfl | heq
    · have hcall : s'.calls t' = some stage' := by rw [hcalls, update_self]
      exact (reserved_of_holds hst hcall).le.trans (hle hst)
    · have hold := hstripes t' heq hst
      have hcall : s'.calls t' = s.calls t' := by rw [hcalls, update_of_ne heq]
      unfold reserved
      rw [hst, hold]
      dsimp only
      rw [hcall]

/-- The discipline and the bound. -/
structure Kept (o : Config) (tenant : UInt64) (s : DiskCacheGroup) : Prop extends Locked s where
  bounded : Bounded o tenant s

theorem Kept.act (h : Kept o tenant s) (t : Nat) (stage' : Stage) (hf : Frame s s' t)
    (hcalls : s'.calls = update s.calls t (some stage')) (hok : s'.StageOk t stage')
    (hspawned : s.spawned ≤ s'.spawned) (hlt : t < s'.spawned)
    (hstripes : ∀ t', t' ≠ t → s'.stripes (tenantStripe tenant) = some t' →
      s.stripes (tenantStripe tenant) = some t')
    (hle : s'.Holds t tenant → reservedBy tenant stage' ≤ s.reserved tenant)
    (hused : s'.tenantUsedBytes tenant o.diskCount ≤ s.tenantUsedBytes tenant o.diskCount) :
    Kept o tenant s' :=
  ⟨h.toLocked.act t stage' hf hcalls hok hspawned hlt,
    (Nat.add_le_add hused (reserved_le tenant hcalls hstripes hle)).trans h.bounded⟩

theorem Kept.setStage (h : Kept o tenant s) (ht : s.calls t = some stage)
    (hok : s.StageOk t stage') (hle : reservedBy tenant stage' ≤ reservedBy tenant stage) :
    Kept o tenant (s.setStage t stage') :=
  h.act t stage' (.of_eq rfl rfl) rfl (.of_eq (s := s) rfl rfl hok) le_rfl (h.alive t stage ht)
    (fun _ _ h => h) (fun hh => hle.trans (reserved_of_holds (s := s) hh ht).ge) le_rfl

theorem Kept.lock (h : Kept o tenant s) {req : Request} {stripe : Nat}
    (ht : s.calls t = some (.locking req stripe)) (hs : s.lock t req stripe = some s') :
    Kept o tenant s' := by
  obtain ⟨hshort, hheld⟩ : s.StageOk t (.locking req stripe) := h.calls t _ ht
  unfold DiskCacheGroup.lock at hs
  split at hs
  · -- All stripes of the call are locked.
    rename_i hall
    cases hs
    have hitems : ∀ tenant ∈ req.tenants, s.Holds t tenant := fun tenant hm =>
      hheld tenant hm ((mod_lt _ (by decide)).trans_le hall)
    cases req with
    | remove key => exact h.setStage ht trivial le_rfl
    | cache item | cacheDirect item | cacheDirectBatch items =>
      refine h.setStage ht ⟨fun x hx => hitems _ (mem_map_of_mem hx), nofun, nofun, ?_⟩ le_rfl
      simpa [bytes] using hshort
  · split at hs
    · split at hs
      · rename_i hfree
        cases hs
        refine h.act t (.locking req (stripe + 1)) ⟨fun st' t' hne hst' => ?_,
          fun _ _ _ _ _ => le_rfl⟩ rfl ⟨hshort, fun tenant hm hlt => ?_⟩ le_rfl (h.alive t _ ht)
          (fun t' hne hh => ?_) (fun _ => zero_le _) le_rfl
        · have hst : st' ≠ stripe := by
            rintro rfl
            simp [hfree] at hst'
          exact (update_of_ne hst ..).trans hst'
        · by_cases heq : tenantStripe tenant = stripe
          · unfold Holds
            rw [heq]
            exact update_self ..
          · exact (update_of_ne heq ..).trans (hheld tenant hm (by omega))
        · have hh : update s.stripes stripe (some t) (tenantStripe tenant) = some t' := hh
          by_cases heq : tenantStripe tenant = stripe
          · rw [heq, update_self] at hh
            exact absurd (Option.some.inj hh).symm hne
          · rwa [update_of_ne heq] at hh
      · simp at hs
    · rename_i hother
      cases hs
      refine h.setStage ht ⟨hshort, fun tenant hm hlt => hheld tenant hm ?_⟩ le_rfl
      have hne : tenantStripe tenant ≠ stripe := by
        rintro rfl
        exact hother (mem_map_of_mem hm)
      omega

theorem Kept.judge (h : Kept o tenant s) {item : Item}
    (ht : s.calls t = some (.judging (item :: rest) judged)) (fault : Bool) :
    Kept o tenant (s.setStage t (judgeItem o s item rest judged fault)) := by
  have hj : s.Judging t (item :: rest) judged := h.calls t _ ht
  have hdone (st : Status) :
      Kept o tenant (s.setStage t (.judging rest (judged ++ [{ item := item, out := st }]))) := by
    refine h.setStage ht (hj.append rfl nofun) (le_of_eq ?_)
    simp [reservedBy, charges_append]
  unfold judgeItem
  split
  · exact hdone _
  split
  · exact hdone _
  split
  · exact hdone _
  split
  · exact hdone _
  split
  · exact hdone _
  · rename_i hadd
    exact h.setStage ht ⟨hj, hadd, le_rfl⟩ le_rfl

theorem Kept.sum (h : Kept o tenant s) {item : Item}
    (ht : s.calls t = some (.summing item rest judged additional disk current)) :
    Kept o tenant (s.setStage t (.summing item rest judged additional (disk + 1)
      (current + DiskSlabStore.usage (s.disks disk) item.tenant))) := by
  obtain ⟨hj, hadd, hsum⟩ : s.StageOk t (.summing ..) := h.calls t _ ht
  refine h.setStage ht ⟨hj, hadd, ?_⟩ le_rfl
  rw [tenantUsedBytes_succ]
  exact Nat.add_le_add_right hsum _

theorem tenantUsedBytes_mono (s : DiskCacheGroup) (tenant : UInt64) {m n : Nat} (hmn : m ≤ n) :
    s.tenantUsedBytes tenant m ≤ s.tenantUsedBytes tenant n := by
  induction hmn with
  | refl => exact le_rfl
  | step _ ih =>
    rw [tenantUsedBytes_succ]
    exact ih.trans (le_add_right _ _)

theorem charges_le_bytes (tenant : UInt64) (judged : List Judged) :
    charges tenant (fun _ => true) judged ≤ bytes (judged.map Judged.item) := by
  induction judged with
  | nil => exact le_rfl
  | cons j js ih =>
    have hj : (if j.charge ∧ true ∧ j.item.tenant = tenant then j.item.len else 0) ≤
        j.item.len := by
      split
      · exact le_rfl
      · exact zero_le _
    simp only [charges, bytes, map_cons, sum_cons] at ih hj ⊢
    omega

/-- A grant keeps the bound, since the sum of the bytes in use can only have shrunk while it was
taken. -/
theorem Kept.grant (h : Kept o tenant s) (hlim : o.tenantLimit tenant ≠ 0) {item : Item}
    (ht : s.calls t = some (.summing item rest judged additional disk current))
    (hdisk : o.diskCount ≤ disk) :
    Kept o tenant (s.setStage t (grant o item rest judged additional current)) := by
  obtain ⟨hj, hadd, hsum⟩ : s.StageOk t (.summing ..) := h.calls t _ ht
  have hheld : s.Holds t item.tenant := hj.heldRest item (mem_cons_self ..)
  unfold DiskCacheGroup.grant
  by_cases hallow : o.quotaAllowsNew item.tenant current additional
  · rw [if_pos hallow]
    have hok : s.StageOk t (.judging rest
        (judged ++ [{ item := item, out := .ok, charge := true }])) :=
      hj.append rfl fun _ => rfl
    by_cases hmine : item.tenant = tenant
    · -- The tenant itself is granted the bytes.
      subst hmine
      have hshort : item.len + charges item.tenant (fun _ => true) judged < 2 ^ 64 := by
        have hle := charges_le_bytes item.tenant judged
        have hall := hj.short
        simp only [bytes, map_cons, sum_cons] at hle hall
        omega
      have hadd := additionalFor_eq hj.granted hshort hadd
      have hused := (s.tenantUsedBytes_mono item.tenant hdisk).trans hsum
      have hlimit : current ≤ o.tenantLimit item.tenant ∧
          additional ≤ o.tenantLimit item.tenant - current := by
        simpa [Config.quotaAllowsNew, hlim] using hallow
      refine ⟨h.toLocked.act t _ (.of_eq rfl rfl) rfl (.of_eq (s := s) rfl rfl hok) le_rfl
        (h.alive t _ ht), ?_⟩
      have hheld' : (s.setStage t (.judging rest
          (judged ++ [{ item := item, out := .ok, charge := true }]))).Holds t item.tenant := hheld
      have hgoal : s.tenantUsedBytes item.tenant o.diskCount +
          (charges item.tenant (fun _ => true) judged + item.len) ≤ o.tenantLimit item.tenant := by
        omega
      unfold Bounded
      rw [reserved_of_holds hheld' (update_self ..)]
      simp only [reservedBy, charges_append, and_self, if_true]
      exact hgoal
    · refine h.setStage ht hok (le_of_eq ?_)
      simp [reservedBy, charges_append, hmine]
  · rw [if_neg hallow]
    refine h.setStage ht (hj.append rfl nofun) (le_of_eq ?_)
    simp [reservedBy, charges_append]

/-- A covered write spends its charge, or adds nothing; and it adds to the tenant of its item only.
-/
theorem Kept.write (h : Kept o tenant s) (ht : s.calls t = some (.writing judged))
    (hi : judged[i]? = some j) (hp : j.pending)
    (hcov : j.charge ∨ ((s.disks disk).lookup j.item.key).isSome) (commit : Bool)
    (st : Status) :
    Kept o tenant ({ s with
      disks := update s.disks disk (writeItem (s.disks disk) j.item commit)
      }.setStage t (.writing (judged.set i { j with out := st, pending := false }))) := by
  have hall : ∀ j ∈ judged, s.Holds t j.item.tenant := h.calls t _ ht
  have hheld := hall j (mem_of_getElem? hi)
  generalize hs' : ({ s with
    disks := update s.disks disk (writeItem (s.disks disk) j.item commit)
    }.setStage t (.writing (judged.set i { j with out := st, pending := false })) :
      DiskCacheGroup) = s'
  have hcalls : s'.calls = update s.calls t
      (some (.writing (judged.set i { j with out := st, pending := false }))) := by rw [← hs']; rfl
  have hstripes : s'.stripes = s.stripes := by rw [← hs']; rfl
  have hdisks : s'.disks =
      update s.disks disk (writeItem (s.disks disk) j.item commit) := by rw [← hs']; rfl
  have hspawned : s'.spawned = s.spawned := by rw [← hs']; rfl
  have hholds {t' : Nat} {tenant' : UInt64} : s'.Holds t' tenant' ↔ s.Holds t' tenant' := by
    unfold Holds
    rw [hstripes]
  have hother {tenant' : UInt64} (hne : j.item.tenant ≠ tenant') (n : Nat) :
      s'.tenantUsedBytes tenant' n ≤ s.tenantUsedBytes tenant' n := by
    have hle := usage_writeItem_le (s.disks disk) j.item commit tenant'
    rw [if_neg hne] at hle
    exact tenantUsedBytes_update hdisks hle n
  have hframe : Frame s s' t := by
    refine ⟨fun _ _ _ hh => hstripes ▸ hh, fun tenant' t' n hne hh => hother ?_ n⟩
    rintro rfl
    exact hne (Option.some.inj (hh.symm.trans hheld))
  have hok : s'.StageOk t (.writing (judged.set i { j with out := st, pending := false })) := by
    intro x hx
    rcases mem_or_eq_of_mem_set hx with hx | rfl
    · exact hholds.mpr (hall x hx)
    · exact hholds.mpr hheld
  have hset := charges_set tenant hi hp st
  by_cases hmine : j.charge ∧ j.item.tenant = tenant
  · -- The bytes move from the granted to those in use.
    obtain ⟨hc, rfl⟩ := hmine
    refine ⟨h.toLocked.act t _ hframe hcalls hok hspawned.ge (hspawned ▸ h.alive t _ ht), ?_⟩
    have hused := tenantUsedBytes_update hdisks
      (usage_writeItem_le (s.disks disk) j.item commit j.item.tenant) o.diskCount
    have hbound := h.bounded
    rw [if_pos ⟨hc, rfl⟩] at hset
    rw [if_pos rfl] at hused
    unfold Bounded at hbound ⊢
    rw [reserved_of_holds hheld ht] at hbound
    rw [reserved_of_holds (hholds.mpr hheld) (by rw [hcalls, update_self])]
    simp only [reservedBy] at hbound ⊢
    omega
  · -- Nothing was granted to the tenant for this item, and the write adds nothing to it.
    rw [if_neg hmine, add_zero] at hset
    refine h.act t _ hframe hcalls hok hspawned.ge (hspawned ▸ h.alive t _ ht)
      (fun t' _ hh => hstripes ▸ hh) (fun hh => ?_) ?_
    · rw [reserved_of_holds (hholds.mp hh) ht]
      exact hset.le
    · by_cases hsame : j.item.tenant = tenant
      · have hcached := hcov.resolve_left fun hc => hmine ⟨hc, hsame⟩
        obtain ⟨n, hn⟩ := Option.isSome_iff_exists.mp hcached
        refine tenantUsedBytes_update (c := 0) hdisks ?_ _
        rw [writeItem_of_some hn]
        exact le_rfl
      · exact hother hsame _

theorem Kept.unlock (h : Kept o tenant s) (ht : s.calls t = some stage) (out : List Status)
    (disks : Nat → AList fun _ : BlockKey => Nat)
    (hdisks : ∀ tenant n, ({ s with disks := disks } : DiskCacheGroup).tenantUsedBytes tenant n ≤
      s.tenantUsedBytes tenant n) :
    Kept o tenant (({ s with disks := disks } : DiskCacheGroup).unlock t out) := by
  refine h.act t (.returned out) ⟨fun stripe t' hne hst => ?_, fun tenant t' n _ _ =>
    hdisks tenant n⟩
    rfl trivial le_rfl (h.alive t _ ht) (fun t' _ hh => ?_) (fun _ => zero_le _) (hdisks _ _)
  · have hkeep : ¬s.stripes stripe = some t := fun heq =>
      hne (Option.some.inj (hst.symm.trans heq))
    exact (if_neg hkeep).trans hst
  · have hh : (if s.stripes (tenantStripe tenant) = some t then none
        else s.stripes (tenantStripe tenant)) = some t' := hh
    split at hh
    · simp at hh
    · exact hh

theorem tenantUsedBytes_erase_le (keys : List BlockKey) (disk : Nat) (tenant : UInt64) (n : Nat) :
    ({ s with disks := update s.disks disk (keys.foldl (fun m k => m.erase k)
      (s.disks disk)) } : DiskCacheGroup).tenantUsedBytes tenant n ≤ s.tenantUsedBytes tenant n :=
  tenantUsedBytes_update (s := s) (c := 0) rfl (usage_eraseAll_le keys _ tenant) n

theorem Kept.evict (h : Kept o tenant s) (disk : Nat) (keys : List BlockKey) :
    Kept o tenant { s with disks := update s.disks disk (keys.foldl (fun m k => m.erase k)
      (s.disks disk)) } := by
  refine ⟨⟨fun t stage ht => ?_, h.alive⟩, ?_⟩
  · exact StageOk.frame (s := s) (t := t + 1)
      ⟨fun _ _ _ h => h, fun tenant _ n _ _ => tenantUsedBytes_erase_le keys disk tenant n⟩
      (by omega) (h.calls t stage ht)
  · exact (Nat.add_le_add_right (tenantUsedBytes_erase_le keys disk tenant _) _).trans h.bounded

theorem Kept.start (h : Kept o tenant s) {req : Request} (hC : Covered o s (.start req)) :
    Kept o tenant { s.setStage s.spawned (startStage o req) with spawned := s.spawned + 1 } := by
  have hlock : s.StageOk s.spawned (.locking req 0) := ⟨hC, fun _ _ => nofun⟩
  have hstage : s.StageOk s.spawned (startStage o req) ∧ reservedBy tenant (startStage o req) =
    0 := by
    unfold startStage
    cases req with
    | cache item | cacheDirect item | cacheDirectBatch items | remove key =>
      dsimp only
      split
      · exact ⟨trivial, rfl⟩
      · exact ⟨hlock, rfl⟩
  exact h.act s.spawned (startStage o req) (.of_eq rfl rfl) rfl (.of_eq (s := s) rfl rfl hstage.1)
    (le_succ _) (lt_succ_self _) (fun _ _ h => h)
    (fun _ => hstage.2.le.trans (zero_le _)) le_rfl

theorem Kept.submit (h : Kept o tenant s) (ht : s.calls t = some (.judging [] judged)) :
    Kept o tenant (s.setStage t (.writing (judged.map submit))) := by
  have hj : s.Judging t [] judged := h.calls t _ ht
  refine h.setStage ht (fun x hx => ?_) (charges_submit hj.granted)
  obtain ⟨j, hm, rfl⟩ := mem_map.mp hx
  have hitem : (DiskCacheGroup.submit j).item = j.item := by
    unfold DiskCacheGroup.submit
    split <;> rfl
  exact hitem ▸ hj.heldJudged j hm

/-- One covered step keeps the discipline and the bound. -/
theorem step_kept (h : Kept o tenant s) (hlim : o.tenantLimit tenant ≠ 0) {st : Step}
    (hC : Covered o s st) (hs : s.step o st = some s') : Kept o tenant s' := by
  cases st with
  | start req =>
    cases hs
    exact h.start hC
  | lock t =>
    dsimp only [step] at hs
    split at hs
    · exact h.lock ‹_› hs
    · simp at hs
  | judge t fault =>
    dsimp only [step] at hs
    split at hs
    · cases hs
      exact h.submit ‹_›
    · cases hs
      exact h.judge ‹_› fault
    · simp at hs
  | sum t =>
    dsimp only [step] at hs
    split at hs
    · rename_i ht
      split at hs
      · cases hs
        exact h.sum ht
      · rename_i hdisk
        cases hs
        exact h.grant hlim ht (Nat.le_of_not_lt hdisk)
    · simp at hs
  | write t i commit st =>
    dsimp only [step] at hs
    split at hs
    · rename_i judged ht
      split at hs
      · rename_i j hi
        split at hs
        · rename_i disk hroute
          split at hs
          · rename_i hp
            cases hs
            have hcov : j.charge ∨ ((s.disks disk).lookup j.item.key).isSome := by
              simpa [Covered, ht, hi, hroute] using hC
            exact h.write ht hi hp hcov commit st
          · simp at hs
        · simp at hs
      · simp at hs
    · simp at hs
  | finish t =>
    dsimp only [step] at hs
    split at hs
    · split at hs
      · cases hs
        exact h.unlock ‹_› _ s.disks fun _ _ => le_rfl
      · simp at hs
    · simp at hs
  | remove t done st =>
    dsimp only [step] at hs
    split at hs
    · split at hs
      · cases hs
        refine h.unlock ‹_› _ _ fun tenant n => ?_
        split
        · exact tenantUsedBytes_erase_le [_] _ tenant n
        · exact le_rfl
      · simp at hs
    · simp at hs
  | evict disk keys =>
    cases hs
    exact h.evict disk keys

/-! ## Runs -/

/-- A group at rest, with anything on its disks. -/
def atRest (disks : Nat → AList fun _ : BlockKey => Nat) : DiskCacheGroup := { disks := disks }

/-- In every run in which each value that is written without a charge has a key that its disk still
holds, a tenant that starts within its limit stays within it. -/
theorem quota_kept_if_covered (o : Config) (tenant : UInt64) (hlim : o.tenantLimit tenant ≠ 0)
    (disks : Nat → AList fun _ : BlockKey => Nat) {steps : List Step} {s : DiskCacheGroup}
    (hstart : (atRest disks).tenantUsedBytes tenant o.diskCount ≤ o.tenantLimit tenant)
    (hC : Meets (DiskCacheGroup.step o) (Covered o) (atRest disks) steps)
    (hrun : run (DiskCacheGroup.step o) (atRest disks) steps = some s) :
    s.tenantUsedBytes tenant o.diskCount ≤ o.tenantLimit tenant := by
  have hinit : Kept o tenant (atRest disks) := ⟨⟨nofun, nofun⟩, hstart⟩
  have hinv := run_invariant (fun _ _ _ h hc hs => step_kept h hlim hc hs) hinit hC hrun
  exact (Nat.le_add_right _ _).trans hinv.bounded

/-! ## Writes without a charge -/

/-- One disk; tenant 0 may use ten bytes. -/
def tenBytes : Config :=
  { diskCount := 1, routeIndex := fun _ => some 0, tenantQuotas := [(0, 10)] }

/-- The key numbered `n` of tenant 0. -/
def tenantKey (n : UInt64) : BlockKey := { digestHi := 0, digestLo := n, tenantHash := 0 }

def diskOf (entries : List (BlockKey × Nat)) : Nat → AList fun _ : BlockKey => Nat := fun _ =>
  entries.foldl (fun m x => m.insert x.1 x.2) ∅

def startSteps (t : Nat) (req : Request) : List Step :=
  .start req :: replicate (kTenantStripes + 1) (.lock t)

/-- A key is evicted between its lookup and the write of a longer value. -/
def evictedSteps : List Step :=
  startSteps 0 (.cacheDirect { key := tenantKey 1, len := 5 }) ++
    [.judge 0 false, .evict 0 [tenantKey 1], .judge 0 false, .write 0 0 true .ok]

/-- The lookup finds the key, so that no charge is made; the engine no longer has it and writes the
new value, and the tenant uses 14 of its 10 bytes. -/
theorem evicted_key_exceeds_quota :
    ¬∀ (o : Config) (tenant : UInt64) (disks : Nat → AList fun _ : BlockKey => Nat)
      (steps : List Step) (s : DiskCacheGroup), o.tenantLimit tenant ≠ 0 →
      (atRest disks).tenantUsedBytes tenant o.diskCount ≤ o.tenantLimit tenant →
      run (DiskCacheGroup.step o) (atRest disks) steps = some s →
      s.tenantUsedBytes tenant o.diskCount ≤ o.tenantLimit tenant := by
  intro hall
  have hrun : (run (DiskCacheGroup.step tenBytes) (atRest (diskOf [(tenantKey 1, 1),
      (tenantKey 2, 9)])) evictedSteps).map (·.tenantUsedBytes 0 1) = some 14 := by
    decide +kernel
  obtain ⟨s, hs, hused⟩ := Option.map_eq_some_iff.mp hrun
  have hle := hall tenBytes 0 _ _ s (by decide) (by decide +kernel) hs
  have hlim : tenBytes.tenantLimit 0 = 10 := by decide
  have hdisks : tenBytes.diskCount = 1 := rfl
  rw [hdisks, hused, hlim] at hle
  omega

/-- A batch that repeats a key pays for its first value only: when that write fails, the longer one
is written without a charge. -/
example : (run (step tenBytes) (atRest (diskOf [(tenantKey 2, 9)]))
    (startSteps 0 (.cacheDirectBatch [{ key := tenantKey 1, len := 1 },
      { key := tenantKey 1, len := 5 }]) ++
      [.judge 0 false, .sum 0, .sum 0, .judge 0 false, .judge 0 false, .write 0 0 false .ioError,
        .write 0 1 true .ok])).map (·.tenantUsedBytes 0 1) = some 14 := by
  decide +kernel

/-- A new value of five bytes is charged, and fills the quota. -/
theorem charged_write_fills_quota : ∃ s,
    run (DiskCacheGroup.step tenBytes) (atRest (diskOf [(tenantKey 2, 5)]))
      (startSteps 0 (.cache { key := tenantKey 1, len := 5 }) ++
        [.judge 0 false, .sum 0, .sum 0, .judge 0 false, .write 0 0 true .ok, .finish 0]) = some s ∧
    s.tenantUsedBytes 0 1 = 10 ∧ s.tenantUsedBytes 0 tenBytes.diskCount ≤
      tenBytes.tenantLimit 0 := by
  have hrun : (run (DiskCacheGroup.step tenBytes) (atRest (diskOf [(tenantKey 2, 5)]))
      (startSteps 0 (.cache { key := tenantKey 1, len := 5 }) ++
        [.judge 0 false, .sum 0, .sum 0, .judge 0 false, .write 0 0 true .ok, .finish 0])).map
      (·.tenantUsedBytes 0 1) = some 10 := by decide +kernel
  obtain ⟨s, hs, hused⟩ := Option.map_eq_some_iff.mp hrun
  exact ⟨s, hs, hused, quota_kept_if_covered tenBytes 0 (by decide) _ (by decide +kernel)
    (by decide +kernel) hs⟩

end DiskCacheGroup

end DingoCache.Group
